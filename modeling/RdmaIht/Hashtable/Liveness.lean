import RdmaIht.Concurrency.Termination
import RdmaIht.Hashtable.SoloResize

/-! What a thread of `Hashtable` can wait for, when resizes do not overlap.

A client that has a lock does not wait. A resize waits for the locks that clients have,
never for one of its own, and a client waits for another client or for the resize. So
some thread can always go on, and all calls can be brought to their ends: first those
that have a lock, then the resize, then the others one after the other.
-/

set_option autoImplicit false

namespace RdmaIht.Hashtable

open Concurrency

variable {K V : Type}

def Thread.waits (m : Mem K V) : Thread K V → Bool
  | .running _ _ (.inSet set .acquire) | .resizing (.insert _ _ _ _ _ _ set .acquire) =>
    decide (m.locks set.lock = some .locked)
  | .resizing (.freeze _ buckets i) => buckets[i]?.any fun set => decide (m.locks set.lock ≠ some .unlocked)
  | _ => false

/-- A resize is about to store a count that leaves `int`. -/
def Overflowing (s : State K V) : Prop :=
  ∃ c hashtable buckets, s.threads c = .resizing (.publish hashtable buckets) ∧ 2 ^ 31 ≤ hashtable.count * 2

def Thread.Outside (thread : Thread K V) : Prop := ∀ id op pc, thread = .running id op pc → pc.inside = false

variable [DecidableEq K] {T : Template K V} {peer : Nat → Nat} {t t' : Table K V} {home : Home} {answer : Nat → HtRes V}
  {s : State K V} {m m' : Mem K V} {res : HtRes V} {c id : Nat} {op : IhtOp K V}

/-! ## Steps -/

theorem exec_client {pc : Pc K V} {next : Pc K V ⊕ HtRes V} (runs : s.threads c = .running id op pc)
    (stepped : clientStep T (peer c) op s.mem pc = .ok (m, next)) : exec T peer s (.step c) = some { s with
      mem := m
      threads := Function.update s.threads c (.after id op next)
      history := s.history ++ responses id next } := by
  simp only [exec, runs, stepped]
  cases next with
  | inl pc' => simp only [Thread.after, responses, List.append_nil]
  | inr res => rfl

theorem exec_rehash {pc : RehashPc K V} {next : Option (RehashPc K V)} (runs : s.threads c = .resizing pc)
    (stepped : rehashStep T (peer c) s.mem pc = .ok (m, next)) :
    exec T peer s (.step c) = some { s with mem := m, threads := Function.update s.threads c (.resume next) } := by
  simp only [exec, runs, stepped]
  cases next <;> rfl

namespace Inv

theorem client_step (peer : Nat → Nat) (inv : Inv T t home answer s) {pc : Pc K V} (runs : s.threads c = .running id op pc) :
    ∃ t' home' res' m' next, clientStep T (peer c) op s.mem pc = .ok (m', next) ∧
      ClientEffect T t s.mem op (answer c) pc t' res' next ∧
      Inv T t' home' (Function.update answer c res') { s with
        mem := m'
        threads := Function.update s.threads c (.after id op next)
        history := s.history ++ responses id next } := by
  have own := inv.threads c
  rw [runs] at own
  obtain ⟨q, t', home', m', res', next, stepped, sound, effect⟩ := client_sound (peer c) id inv.ground own
  rw [← runs] at sound
  refine ⟨t', home', res', m', next, stepped, effect, inv.sound _ sound ?_ rfl rfl⟩
  intro pc' resizes
  cases next <;> cases resizes

/-- The step of a resize goes through, except where it would store a count that leaves `int`. -/
theorem rehash_step (peer : Nat → Nat) (inv : Inv T t home answer s) {pc : RehashPc K V} (runs : s.threads c = .resizing pc)
    (room : ¬ Overflowing s) : ∃ t' home' answer' m' next, rehashStep T (peer c) s.mem pc = .ok (m', next) ∧
      ((∀ hashtable buckets, pc ≠ .publish hashtable buckets) → RehashEffect T t s.mem m' pc t') ∧
      Inv T t' home' answer' { s with mem := m', threads := Function.update s.threads c (.resume next) } := by
  have own := inv.threads c
  rw [runs] at own
  by_cases inner : ∀ hashtable buckets, pc ≠ .publish hashtable buckets
  · obtain ⟨q, t', home', m', res', next, stepped, sound, effect⟩ := rehash_sound (peer c) inv.ground own inner
    rw [← runs] at sound
    refine ⟨t', home', _, m', next, stepped, fun _ => effect, inv.sound _ sound ?_ rfl rfl⟩
    exact fun _ _ c' other pc' there => other (inv.single there runs)
  · push Not at inner
    obtain ⟨hashtable, buckets, rfl⟩ := inner
    have small : hashtable.count * 2 < 2 ^ 31 := by
      by_contra large
      exact room ⟨c, hashtable, buckets, runs, by omega⟩
    refine ⟨_, _, answer, s.mem.publish (peer c) (hashtable.count * 2),
      some (.bucket buckets (s.mem.newArray (peer c) (hashtable.count * 2)).1 0), ?_, fun inner => absurd rfl (inner _ _),
      (inv.publish (peer c) _ runs rfl rfl).2⟩
    simp only [rehashStep, if_pos small]
    rfl

end Inv

/-! ## Waiting -/

namespace Inv

theorem locked_of_not_open (inv : Inv T t home answer s) {i : Nat} {set : LinkedSet}
    (at_ : s.mem.bucketAt s.mem.root.bucketStart i = some set) (closed : s.mem.locks set.lock ≠ some .unlocked) :
    s.mem.locks set.lock = some .locked := by
  obtain ⟨w, word⟩ := Option.ne_none_iff_exists'.mp (inv.ground.shape.lock at_).2
  cases w with
  | unlocked => exact absurd word closed
  | locked => exact word
  | deleted => exact absurd word (inv.ground.live at_)

omit [DecidableEq K] in
theorem inside_of_holds {thread : Thread K V} {p : RemotePtr} (holds : thread.Holds p) (client : ∀ pc, thread ≠ .resizing pc) :
    ∃ id op pc, thread = .running id op pc ∧ pc.inside = true := by
  rcases holds with ⟨set, member, _⟩ | ⟨set, pc, here, inside, _⟩
  · cases thread with
    | idle | running => cases member
    | resizing pc => exact absurd rfl (client pc)
  · cases thread with
    | idle => cases here
    | running id op pc' =>
      cases pc' with
      | readRoot | readBucket => cases here
      | inSet => cases here; exact ⟨id, op, _, rfl, inside⟩
    | resizing pc => exact absurd rfl (client pc)

theorem resize_waits (inv : Inv T t home answer s) {pc : RehashPc K V} (runs : s.threads c = .resizing pc)
    (waits : (s.threads c).waits s.mem = true) :
    ∃ c' id op pc', s.threads c' = .running id op pc' ∧ pc'.inside = true := by
  have own := inv.threads c
  rw [runs] at own waits
  -- the lock is that of a bucket of the root, and the resize has not locked it itself
  obtain ⟨i, set, at_, locked, free⟩ : ∃ i set, s.mem.bucketAt s.mem.root.bucketStart i = some set ∧
      s.mem.locks set.lock = some .locked ∧ ¬ (Thread.resizing pc).Holds set.lock := by
    cases pc with
    | freeze hashtable buckets i =>
      obtain ⟨set, at_, closed⟩ := Option.any_eq_true _ _ |>.mp waits
      obtain ⟨_, ⟨rfl, stored⟩, _⟩ := own
      have here := s.mem.bucketAt_eq_some.mpr ⟨buckets, stored, at_⟩
      refine ⟨i, set, here, inv.locked_of_not_open here (of_decide_eq_true closed), fun holds => ?_⟩
      obtain ⟨set', member, same⟩ := (holds_resizing rfl).mp holds
      obtain ⟨j, inTake⟩ := List.mem_iff_getElem?.mp member
      rw [RehashPc.frozen, List.getElem?_take] at inTake
      split at inTake
      · next less =>
        have place := inv.ground.shape.same_place here (s.mem.bucketAt_eq_some.mpr ⟨buckets, stored, inTake⟩) same
        omega
      · cases inTake
    | insert buckets new i next pair rest set pc =>
      obtain ⟨_, _, here, at_, a, old, _⟩ := own
      cases pc with
      | acquire =>
        refine ⟨_, set, here, of_decide_eq_true waits, fun holds => ?_⟩
        rcases holds_insert.mp holds with ⟨set', member, same⟩ | ⟨inside, _⟩
        · exact old.away inv.ground.shape _ set' member (same ▸ (inv.ground.shape.lock here).1)
        · cases inside
      | _ => cases waits
    | _ => cases waits
  obtain ⟨c', holds⟩ := inv.holder at_ locked
  obtain ⟨id, op, pc', runs', inside⟩ := inside_of_holds holds fun pc' resizes => by
    obtain rfl := inv.single resizes runs
    rw [runs] at holds
    exact free holds
  exact ⟨c', id, op, pc', runs', inside⟩

omit [DecidableEq K] in
theorem not_waits_inside {pc : Pc K V} (inside : pc.inside = true) : (Thread.running id op pc).waits m = false := by
  cases pc with
  | readRoot | readBucket => rfl
  | inSet set pc =>
    cases pc with
    | acquire => cases inside
    | _ => rfl

/-- If a thread has not ended, a thread that has not ended does not wait. -/
theorem some_free (inv : Inv T t home answer s) (busy : s.threads c ≠ .idle) :
    ∃ c', s.threads c' ≠ .idle ∧ (s.threads c').waits s.mem = false := by
  have client : ∀ {c' id op pc}, s.threads c' = .running id op pc → pc.inside = true →
      ∃ c', s.threads c' ≠ .idle ∧ (s.threads c').waits s.mem = false := by
    intro c' id op pc runs inside
    refine ⟨c', by simp [runs], ?_⟩
    rw [runs]
    exact not_waits_inside inside
  have resize : ∀ {c' pc}, s.threads c' = .resizing pc → ∃ c', s.threads c' ≠ .idle ∧ (s.threads c').waits s.mem = false := by
    intro c' pc runs
    cases waits : (s.threads c').waits s.mem with
    | false => exact ⟨c', by simp [runs], waits⟩
    | true =>
      obtain ⟨_, _, _, _, runs', inside⟩ := inv.resize_waits runs waits
      exact client runs' inside
  cases waits : (s.threads c).waits s.mem with
  | false => exact ⟨c, busy, waits⟩
  | true =>
    cases here : s.threads c with
    | idle => exact absurd here busy
    | resizing pc => exact resize here
    | running id op pc =>
      rw [here] at waits
      obtain ⟨set, rfl, locked⟩ : ∃ set, pc = .inSet set .acquire ∧ s.mem.locks set.lock = some .locked := by
        cases pc with
        | readRoot | readBucket => cases waits
        | inSet set pc =>
          cases pc with
          | acquire => exact ⟨set, rfl, of_decide_eq_true waits⟩
          | _ => cases waits
      have own := inv.threads c
      rw [here] at own
      -- the set was found in an array, so its lock has a holder
      have found : ∃ a i, s.mem.bucketAt a i = some set := by
        rcases own with ⟨_, start, sets, stored, at_⟩ | section_
        · exact ⟨start, _, s.mem.bucketAt_eq_some.mpr ⟨sets, stored, at_⟩⟩
        · exact ⟨_, _, section_.1⟩
      obtain ⟨a, i, at_⟩ := found
      obtain ⟨c', holds⟩ := inv.holder at_ locked
      by_cases resizes : ∃ pc, s.threads c' = .resizing pc
      · exact resize resizes.choose_spec
      · obtain ⟨id', op', pc', runs', inside⟩ := inside_of_holds holds fun pc there => resizes ⟨pc, there⟩
        exact client runs' inside

end Inv

/-! ## Threads that go on alone -/

theorem inside_rank_lt {self : Nat} {pc pc' : Pc K V} (ground : Ground t home m) (own : PcInv T t home m res op pc)
    (inside : pc.inside = true) (stepped : clientStep T self op m pc = .ok (m', .inl pc')) (inside' : pc'.inside = true) :
    pc'.rank m' < pc.rank m := by
  cases pc with
  | readRoot | readBucket => cases inside
  | inSet set pc =>
    have section_ : InSection T t home m res set op pc := AtSet.section own inside
    generalize goes : (Sum.inl pc' : Pc K V ⊕ HtRes V) = next at stepped
    cases clientStep_branch stepped with
    | goesOn went =>
      cases goes
      exact section_.2.2.2.rank_lt ground.shape.allocated went
    | returns went =>
      unfold report at goes
      split at goes <;> cases goes
      cases inside'

theorem locked_of_spins {self : Nat} {set : LinkedSet} (spins : setStep T self set op m .acquire = .ok (m', .inl .acquire)) :
    m.locks set.lock = some .locked := by
  cases setStep_branch spins with
  | spins word => exact word

/-- A step within a re-insert that does not wait: the lock is won, or the insert goes on behind it. -/
theorem inserts_closer {self : Nat} {buckets : List LinkedSet} {new : HashArray} {i : Nat} {next : RemotePtr} {pair : Pair K V}
    {rest : List (Pair K V)} {set : LinkedSet} {pc pc' : SetPc K V} (ground : Ground t home m)
    (own : ThreadInv T t home m res (.resizing (.insert buckets new i next pair rest set pc)))
    (free : (Thread.resizing (.insert buckets new i next pair rest set pc)).waits m = false)
    (went : setStep T self set (.insert pair.key pair.val) m pc = .ok (m', .inl pc'))
    (effect : RehashEffect T t m m' (.insert buckets new i next pair rest set pc) t') :
    Closer ((RehashPc.insert buckets new i next pair rest set pc').rank t' m')
      ((RehashPc.insert buckets new i next pair rest set pc).rank t m) := by
  obtain ⟨_, _, here, at_, _⟩ := own
  cases at_.step self ground with
  | spin _ spins =>
    simp [Thread.waits, locked_of_spins spins] at free
  | deleted _ word _ => exact absurd word (ground.live here)
  | win _ word went' =>
    cases went.symm.trans went'
    cases effect with
    | keep waits =>
      have same := congrFun (congrArg Mem.locks (waits rfl)) set.lock
      simp [Mem.locks_setLock, word] at same
    -- winning the lock takes the pair from those that are left
    | readd first =>
      have nearer := walk_rank_lt m set.first set.lock .locked
      unfold Closer RehashPc.rank
      simp only [Table.readd, first, List.length_cons, SetPc.inside]
      exact .inr ⟨trivial, .inr ⟨rfl, .inr ⟨trivial, nearer⟩⟩⟩
  | keeps section_ keeps =>
    obtain ⟨home', m₁, pc₂, went', outcome, _, _⟩ := keeps
    cases went.symm.trans went'
    have nearer := section_.2.2.2.rank_lt ground.shape.allocated went
    have inside := section_.2.2.2.inside
    cases effect with
    | readd => cases inside
    | keep =>
      unfold Closer RehashPc.rank
      simp only [inside, outcome.inside]
      exact .inr ⟨trivial, .inr ⟨trivial, .inr ⟨trivial, nearer⟩⟩⟩
  | unlock _ went' _ => cases went.symm.trans went'

theorem inserted_closer {self : Nat} {buckets : List LinkedSet} {new : HashArray} {i : Nat} {next : RemotePtr} {pair : Pair K V}
    {rest : List (Pair K V)} {set : LinkedSet} {pc : SetPc K V} {done : HtRes V} (ground : Ground t home m)
    (own : ThreadInv T t home m res (.resizing (.insert buckets new i next pair rest set pc)))
    (went : setStep T self set (.insert pair.key pair.val) m pc = .ok (m', .inr done))
    (effect : RehashEffect T t m m' (.insert buckets new i next pair rest set pc) t') :
    Closer ((RehashPc.pairs buckets new i next rest).rank t' m')
      ((RehashPc.insert buckets new i next pair rest set pc).rank t m) := by
  obtain ⟨_, _, here, at_, _⟩ := own
  cases at_.step self ground with
  | spin _ went' | win _ _ went' => cases went.symm.trans went'
  | deleted _ word _ => exact absurd word (ground.live here)
  | keeps _ keeps =>
    obtain ⟨_, _, _, went', _⟩ := keeps
    cases went.symm.trans went'
  | unlock _ went' _ =>
    cases effect
    unfold Closer RehashPc.rank
    simp [SetPc.inside]

/-- A step of a resize that does not wait brings it closer to its end. -/
theorem rehash_closer {self : Nat} {pc pc' : RehashPc K V} (ground : Ground t home m)
    (own : ThreadInv T t home m res (.resizing pc)) (free : (Thread.resizing pc).waits m = false)
    (stepped : rehashStep T self m pc = .ok (m', some pc'))
    (effect : (∀ hashtable buckets, pc ≠ .publish hashtable buckets) → RehashEffect T t m m' pc t') :
    Closer (pc'.rank t' m') (pc.rank t m) := by
  generalize goes : some pc' = next at stepped
  cases rehashStep_branch stepped with
  | few | melted => cases goes
  | readRoot => cases goes; exact .inl (by decide : 5 < 6)
  | readBuckets => cases goes; exact .inl (by decide : 4 < 5)
  | full => cases goes; exact .inl (by decide : 3 < 4)
  | frozen => cases goes; exact .inl (by decide : 2 < 3)
  | publish => cases goes; exact .inl (by decide : 1 < 2)
  | added => cases goes; exact .inl (by decide : 0 < 1)
  | listLength at_ | freezes at_ | melts at_ =>
    cases goes
    have inside := (List.getElem?_eq_some_iff.mp at_).1
    unfold Closer RehashPc.rank
    dsimp only
    omega
  | waits at_ word taken =>
    simp [Thread.waits, at_, word, taken] at free
  | bucket at_ =>
    cases goes
    cases effect (by simp)
    have inside := (List.getElem?_eq_some_iff.mp at_).1
    unfold Closer RehashPc.rank
    dsimp only
    omega
  | chainEnd =>
    cases goes
    cases effect (by simp)
    have bound := own.2.1
    unfold Closer RehashPc.rank
    dsimp only
    omega
  | @node buckets new i node data notNull found =>
    cases goes
    cases effect (by simp)
    obtain ⟨_, bound, a, _, l, later, path, _⟩ := own
    cases l with
    | nil => exact absurd path notNull
    | cons head l =>
      obtain ⟨r, n⟩ := head
      have nearer := left_lt ground.shape path
      obtain ⟨rfl, _, _, stored, _⟩ := path
      obtain rfl : n = data := Option.some.inj (stored.symm.trans found)
      unfold Closer RehashPc.rank
      dsimp only
      omega
  | nodeEnd =>
    cases goes
    cases effect (by simp)
    unfold Closer RehashPc.rank
    dsimp only
    omega
  | pair =>
    cases goes
    cases effect (by simp)
    unfold Closer RehashPc.rank
    simp [SetPc.inside]
  | inserts went =>
    cases goes
    exact inserts_closer ground own free went (effect (by simp))
  | inserted went =>
    cases goes
    exact inserted_closer ground own went (effect (by simp))

def StepsOnly (_ : State K V) (action : Action K V) : Prop := ∃ c, action = .step c

def Sane (T : Template K V) (s : State K V) : Prop := ∃ t home answer, Inv T t home answer s

def Ends (T : Template K V) (peer : Nat → Nat) (c : Nat) (s : State K V) : Prop :=
  ∃ s', Steps (exec T peer) StepsOnly s s' ∧ Sane T s' ∧ s'.threads = Function.update s.threads c .idle

theorem Ends.step {s₁ : State K V} {thread : Thread K V} (enabled : exec T peer s (.step c) = some s₁)
    (threads : s₁.threads = Function.update s.threads c thread) (ends : Ends T peer c s₁) : Ends T peer c s := by
  obtain ⟨s', run, sane, rest⟩ := ends
  refine ⟨s', (Steps.step (.step c) (.refl s) ⟨c, rfl⟩ enabled).trans run, sane, ?_⟩
  rw [rest, threads, Function.update_idem]

namespace Inv

theorem inside_ends (peer : Nat → Nat) (inv : Inv T t home answer s) {pc : Pc K V} (runs : s.threads c = .running id op pc)
    (inside : pc.inside = true) : Ends T peer c s := by
  generalize size : pc.rank s.mem = n
  induction n using Nat.strongRecOn generalizing t home answer s pc with
  | ind n ih =>
    obtain ⟨t', home', res', m', next, stepped, effect, inv'⟩ := inv.client_step peer runs
    have enabled := exec_client runs stepped
    cases next with
    | inr res => exact ⟨_, .step (.step c) (.refl s) ⟨c, rfl⟩ enabled, ⟨t', home', _, inv'⟩, rfl⟩
    | inl pc' =>
      have inside' : pc'.inside = true := by
        cases effect with
        | outside before => rw [inside] at before; cases before
        | win => cases inside
        | inner _ after => exact after
      have own := inv.threads c
      rw [runs] at own
      have closer := inside_rank_lt inv.ground own inside stepped inside'
      refine .step enabled rfl (ih _ (size ▸ closer) inv' ?_ inside' rfl)
      exact Function.update_self _ _ _

theorem resize_ends (peer : Nat → Nat) (inv : Inv T t home answer s) {pc : RehashPc K V}
    (runs : s.threads c = .resizing pc) (outside : ∀ c, (s.threads c).Outside) :
    Ends T peer c s ∨ ∃ s', Steps (exec T peer) StepsOnly s s' ∧ Overflowing s' := by
  generalize size : pc.rank t s.mem = n
  induction n using closer_wf.induction generalizing t home answer s pc with
  | h n ih =>
    by_cases room : Overflowing s
    · exact .inr ⟨s, .refl s, room⟩
    · have free : (s.threads c).waits s.mem = false := by
        by_contra waits
        obtain ⟨c', id, op, pc', runs', inside⟩ := inv.resize_waits runs (by simpa using waits)
        rw [outside c' id op pc' runs'] at inside
        cases inside
      obtain ⟨t', home', answer', m', next, stepped, effect, inv'⟩ := inv.rehash_step peer runs room
      have enabled := exec_rehash runs stepped
      cases next with
      | none => exact .inl ⟨_, .step (.step c) (.refl s) ⟨c, rfl⟩ enabled, ⟨t', home', _, inv'⟩, rfl⟩
      | some pc' =>
        have own := inv.threads c
        rw [runs] at own free
        have closer := rehash_closer inv.ground own free stepped effect
        have outside' : ∀ c', (Function.update s.threads c (.resizing pc') c').Outside := by
          intro c' id op pc runs'
          rw [Function.update_apply] at runs'
          split at runs'
          · cases runs'
          · exact outside c' id op pc runs'
        refine (ih _ (size ▸ closer) inv' (Function.update_self _ _ _) outside' rfl).imp (.step enabled rfl) ?_
        rintro ⟨s', run, overflowing⟩
        exact ⟨s', (Steps.step (.step c) (.refl s) ⟨c, rfl⟩ enabled).trans run, overflowing⟩

end Inv

/-- How far an operation without a lock is from one, while no lock is taken. -/
def Pc.far (m : Mem K V) : Pc K V → Nat
  | .readRoot => 2
  | .readBucket arr => if arr = m.root then 1 else 4
  | .inSet set _ => if m.locks set.lock = some .unlocked then 0 else 3

namespace Inv

/-- An operation without a lock wins one, or comes closer to the open bucket of its key. -/
theorem outside_step {self : Nat} {pc pc' : Pc K V} (inv : Inv T t home answer s) (own : PcInv T t home s.mem res op pc)
    (free : ∀ a i set, s.mem.bucketAt a i = some set → s.mem.locks set.lock ≠ some .locked) (outside : pc.inside = false)
    (stepped : clientStep T self op s.mem pc = .ok (m', .inl pc')) :
    pc'.inside = true ∨ (pc'.inside = false ∧ m' = s.mem ∧ pc'.far s.mem < pc.far s.mem) := by
  generalize goes : (Sum.inl pc' : Pc K V ⊕ HtRes V) = next at stepped
  cases clientStep_branch stepped with
  | readRoot => cases goes; exact .inr ⟨rfl, rfl, by simp [Pc.far]⟩
  | @readBucket arr set at_ =>
    cases goes
    refine .inr ⟨rfl, rfl, ?_⟩
    by_cases current : arr = s.mem.root
    · subst current
      have open_ : s.mem.locks set.lock = some .unlocked := by
        by_contra closed
        exact free _ _ set at_ (inv.locked_of_not_open at_ closed)
      simp [Pc.far, open_]
    · simp only [Pc.far, if_neg current]
      split <;> omega
  | @goesOn set pc pc₁ _ went =>
    cases goes
    obtain rfl : pc = .acquire := by cases pc <;> first | rfl | cases outside
    cases own.step self inv.ground with
    | spin found spins =>
      obtain ⟨start, sets, stored, at_⟩ := found
      exact absurd (locked_of_spins spins) (free _ _ set (s.mem.bucketAt_eq_some.mpr ⟨sets, stored, at_⟩))
    | deleted _ _ went' => cases went.symm.trans went'
    | win _ _ went' => cases went.symm.trans went'; exact .inl rfl
    | keeps section_ _ => exact section_.2.2.2.elim
  | @returns set pc _ res' went =>
    obtain rfl : pc = .acquire := by cases pc <;> first | rfl | cases outside
    cases own.step self inv.ground with
    | spin _ went' | win _ _ went' => cases went.symm.trans went'
    | deleted _ word went' =>
      cases went.symm.trans went'
      rw [report_deleted] at goes
      cases goes
      exact .inr ⟨rfl, rfl, by simp [Pc.far, word]⟩
    | keeps section_ _ => exact section_.2.2.2.elim

theorem call_ends (peer : Nat → Nat) (inv : Inv T t home answer s) {pc : Pc K V} (runs : s.threads c = .running id op pc)
    (free : ∀ a i set, s.mem.bucketAt a i = some set → s.mem.locks set.lock ≠ some .locked) : Ends T peer c s := by
  generalize size : pc.far s.mem = n
  induction n using Nat.strongRecOn generalizing t home answer s pc with
  | ind n ih =>
    cases inside : pc.inside with
    | true => exact inv.inside_ends peer runs inside
    | false =>
      have own := inv.threads c
      rw [runs] at own
      obtain ⟨t', home', res', m', next, stepped, effect, inv'⟩ := inv.client_step peer runs
      have enabled := exec_client runs stepped
      cases next with
      | inr res => exact ⟨_, .step (.step c) (.refl s) ⟨c, rfl⟩ enabled, ⟨t', home', _, inv'⟩, rfl⟩
      | inl pc' =>
        have here : (Function.update s.threads c (.running id op pc')) c = .running id op pc' := Function.update_self _ _ _
        refine .step enabled rfl ?_
        rcases inv.outside_step own free inside stepped with won | ⟨_, rfl, closer⟩
        · exact inv'.inside_ends peer here won
        · exact ih _ (size ▸ closer) inv' here free rfl

end Inv

/-! ## All threads -/

def Few (n : Nat) (s : State K V) : Prop := ∀ c, n ≤ c → s.threads c = .idle

omit [DecidableEq K] in
theorem Few.ended {n : Nat} {s' : State K V} (few : Few n s) (rest : s'.threads = Function.update s.threads c .idle) :
    Few n s' := by
  intro c' past
  rw [rest, Function.update_apply]
  split
  · rfl
  · exact few c' past

theorem Few.reachable {ok : State K V → Action K V → Prop} {host : Nat}
    (run : Steps (exec T peer) ok (initial T host) s) : ∃ n, Few n s := by
  refine run.invariant (P := fun s => ∃ n, Few n s) ⟨0, fun _ _ => rfl⟩ ?_
  rintro u action u' ⟨n, few⟩ _ enabled
  have grows : ∀ (c : Nat) (thread : Thread K V), u'.threads = Function.update u.threads c thread → ∃ n, Few n u' := by
    intro c thread threads
    refine ⟨max n (c + 1), fun c' past => ?_⟩
    rw [threads, Function.update_of_ne (by omega)]
    exact few c' (by omega)
  rcases exec_cases enabled with ⟨c, op, rfl, _, rfl⟩ | ⟨c, rfl, _, _, rfl⟩ | ⟨c, _, _, rfl⟩ |
    ⟨c, id, op, pc, m, next, rfl, _, _, rfl⟩ | ⟨c, pc, m, next, rfl, _, _, rfl⟩
  · exact grows c _ rfl
  · exact grows c _ rfl
  · exact ⟨n, few⟩
  · exact grows c _ rfl
  · exact grows c _ rfl

omit [DecidableEq K] in
theorem Thread.Outside.ended {threads : Nat → Thread K V} {c' : Nat} (outside : (threads c').Outside) :
    (Function.update threads c .idle c').Outside := by
  rw [Function.update_apply]
  split
  · intro id op pc runs
    cases runs
  · exact outside

theorem each_ends {P : State K V → Prop} (Q : Thread K V → Prop) {n : Nat} (few : Few n s) (idle : Q .idle) (start : P s)
    (turn : ∀ u c, P u → Q (u.threads c) ∨ Ends T peer c u)
    (keep : ∀ u c u', P u → u'.threads = Function.update u.threads c .idle → Sane T u' → P u') :
    ∃ s', Steps (exec T peer) StepsOnly s s' ∧ P s' ∧ Few n s' ∧ ∀ c, Q (s'.threads c) := by
  have turned : ∃ s', Steps (exec T peer) StepsOnly s s' ∧ (P s' ∧ Few n s') ∧ ∀ c < n, Q (s'.threads c) := by
    refine Steps.each ?_ n ⟨start, few⟩
    rintro u c ⟨here, few⟩
    rcases turn u c here with done | ⟨u', run, sane, rest⟩
    · exact ⟨u, .refl u, ⟨here, few⟩, done, fun _ => id⟩
    · refine ⟨u', run, ⟨keep u c u' here rest sane, few.ended rest⟩, ?_, fun c' done => ?_⟩
      · rw [rest, Function.update_self]
        exact idle
      · rw [rest, Function.update_apply]
        split
        · exact idle
        · exact done
  obtain ⟨s', run, ⟨here, few'⟩, done⟩ := turned
  refine ⟨s', run, here, few', fun c => ?_⟩
  by_cases bound : c < n
  · exact done c bound
  · rw [few' c (by omega)]
    exact idle

omit [DecidableEq K] in
theorem Thread.outside_idle : (.idle : Thread K V).Outside := by
  intro id op pc runs
  cases runs

theorem leave_locks (peer : Nat → Nat) {n : Nat} (sane : Sane T s) (few : Few n s) :
    ∃ s', Steps (exec T peer) StepsOnly s s' ∧ Sane T s' ∧ Few n s' ∧ ∀ c, (s'.threads c).Outside := by
  refine each_ends Thread.Outside few Thread.outside_idle sane ?_ fun _ _ _ _ _ sane => sane
  rintro u c ⟨t, home, answer, inv⟩
  by_cases inside : ∃ id op pc, u.threads c = .running id op pc ∧ pc.inside = true
  · obtain ⟨id, op, pc, runs, inside⟩ := inside
    exact .inr (inv.inside_ends peer runs inside)
  · refine .inl fun id op pc runs => ?_
    by_contra holds
    exact inside ⟨id, op, pc, runs, by simpa using holds⟩

theorem all_return (peer : Nat → Nat) {n : Nat} (sane : Sane T s) (few : Few n s) (outside : ∀ c, (s.threads c).Outside)
    (none : ∀ c pc, s.threads c ≠ .resizing pc) :
    ∃ s', Steps (exec T peer) StepsOnly s s' ∧ ∀ c, s'.threads c = .idle := by
  let P : State K V → Prop := fun u => Sane T u ∧ ∀ c, (u.threads c).Outside ∧ ∀ pc, u.threads c ≠ .resizing pc
  have returned : ∃ s', Steps (exec T peer) StepsOnly s s' ∧ P s' ∧ Few n s' ∧ ∀ c, s'.threads c = .idle := by
    refine each_ends (· = .idle) few rfl ⟨sane, fun c => ⟨outside c, none c⟩⟩ ?_ ?_
    · rintro u c ⟨⟨t, home, answer, inv⟩, rests⟩
      cases here : u.threads c with
      | idle => exact .inl rfl
      | resizing pc => exact absurd here ((rests c).2 pc)
      | running id op pc =>
        refine .inr (inv.call_ends peer here fun a i set at_ locked => ?_)
        obtain ⟨c', holds⟩ := inv.holder at_ locked
        obtain ⟨id', op', pc', runs', inside⟩ := Inv.inside_of_holds holds (rests c').2
        rw [(rests c').1 id' op' pc' runs'] at inside
        cases inside
    · rintro u c u' ⟨_, rests⟩ rest sane
      refine ⟨sane, fun c' => ?_⟩
      rw [rest, Function.update_apply]
      split
      · exact ⟨Thread.outside_idle, fun pc resizes => by cases resizes⟩
      · exact rests c'
  obtain ⟨s', run, _, _, idle⟩ := returned
  exact ⟨s', run, idle⟩

/-- All threads can be brought to their ends, unless a resize would store a count that leaves `int`. -/
theorem Sane.drains (peer : Nat → Nat) {n : Nat} (sane : Sane T s) (few : Few n s) :
    ∃ s', Steps (exec T peer) StepsOnly s s' ∧ ((∀ c, s'.threads c = .idle) ∨ Overflowing s') := by
  obtain ⟨s₁, run₁, ⟨t, home, answer, inv⟩, few₁, outside⟩ := leave_locks peer sane few
  by_cases resizes : ∃ c pc, s₁.threads c = .resizing pc
  · obtain ⟨c, pc, runs⟩ := resizes
    rcases inv.resize_ends peer runs outside with ⟨s₂, run₂, sane₂, rest⟩ | ⟨s₂, run₂, overflowing⟩
    · have outside₂ : ∀ c', (s₂.threads c').Outside := by
        intro c'
        rw [rest, Function.update_apply]
        split
        · exact Thread.outside_idle
        · exact outside c'
      -- there was one resize only
      have none : ∀ c' pc, s₂.threads c' ≠ .resizing pc := by
        intro c' pc' resizes
        rw [rest, Function.update_apply] at resizes
        split at resizes
        · cases resizes
        · next other => exact other (inv.single resizes runs)
      obtain ⟨s', run₃, idle⟩ := all_return peer sane₂ (few₁.ended rest) outside₂ none
      exact ⟨s', (run₁.trans run₂).trans run₃, .inl idle⟩
    · exact ⟨s₂, run₁.trans run₂, .inr overflowing⟩
  · obtain ⟨s', run₂, idle⟩ := all_return peer ⟨t, home, answer, inv⟩ few₁ outside fun c pc runs => resizes ⟨c, pc, runs⟩
    exact ⟨s', run₁.trans run₂, .inl idle⟩

/-- When resizes do not overlap: whenever a thread has not ended, some thread can make a step that does not find a
lock taken; and without new calls all threads can come to their ends, unless a count leaves `int`. -/
theorem resizes_deadlock_free (T : Template K V) (positive : 1 ≤ T.initialSize) (peer : Nat → Nat) (host : Nat)
    {s : State K V} (run : Steps (exec T peer) (Alone peer) (initial T host) s) :
    ((∃ c, s.threads c ≠ .idle) → Overflowing s ∨
      ∃ c s', (s.threads c).waits s.mem = false ∧ exec T peer s (.step c) = some s') ∧
    ∃ s', Steps (exec T peer) (fun _ action => ∃ c, action = .step c) s s' ∧
      ((∀ c, s'.threads c = .idle) ∨ Overflowing s') := by
  obtain ⟨t, home, answer, inv⟩ := Inv.reachable positive run
  obtain ⟨n, few⟩ := Few.reachable run
  refine ⟨?_, Sane.drains peer ⟨t, home, answer, inv⟩ few⟩
  rintro ⟨c, busy⟩
  by_cases room : Overflowing s
  · exact .inl room
  · obtain ⟨c', busy', free⟩ := inv.some_free busy
    cases here : s.threads c' with
    | idle => exact absurd here busy'
    | running id op pc =>
      obtain ⟨_, _, _, _, _, stepped, _⟩ := inv.client_step peer here
      exact .inr ⟨c', _, free, exec_client here stepped⟩
    | resizing pc =>
      obtain ⟨_, _, _, _, _, stepped, _⟩ := inv.rehash_step peer here room
      exact .inr ⟨c', _, free, exec_rehash here stepped⟩

/-- Thread 0 has frozen the one bucket of a table with ten keys, and client 1 waits for it. -/
def frozenOut : List (Action (BitVec 32) (BitVec 32)) :=
  ((List.range 10).flatMap fun k => .invoke 0 (.insert (.ofNat 32 k) (.ofNat 32 k)) ::
    List.replicate (if k < 8 then 8 else 9) (.step 0)) ++ .tryRehash 0 :: List.replicate 5 (.step 0) ++
    .invoke 1 (.contains 3) :: List.replicate 2 (.step 1)

theorem resizes_deadlock_free_frozenOut : ∃ s : State (BitVec 32) (BitVec 32), (s.threads 1).waits s.mem = true ∧
    (Overflowing s ∨ ∃ c s', (s.threads c).waits s.mem = false ∧ exec (intTemplate 1) (fun _ => 0) s (.step c) = some s') ∧
    ∃ s', Steps (exec (intTemplate 1) fun _ => 0) (fun _ action => ∃ c, action = .step c) s s' ∧
      ((∀ c, s'.threads c = .idle) ∨ Overflowing s') := by
  have ran : (runAll (fun s action => if CalledBy [0] action ∧ True then exec (intTemplate 1) (fun _ => 0) s action
      else none) (initial (intTemplate 1) 0) frozenOut).any (fun s => (s.threads 1).waits s.mem) = true := by decide +kernel
  obtain ⟨s, final, waits⟩ := (Option.any_eq_true _ _).mp ran
  have run : Steps (exec (intTemplate 1) fun _ => 0) (Alone fun _ => 0) (initial (intTemplate 1) 0) s :=
    steps_of_calledBy (fun _ _ _ only enabled called _ => alone_of_calledBy only enabled called) (fun _ => rfl)
      (steps_of_runAll frozenOut final)
  have busy : s.threads 1 ≠ .idle := by
    intro idle
    rw [idle] at waits
    cases waits
  obtain ⟨moves, ends⟩ := resizes_deadlock_free (intTemplate 1) (Nat.le_refl 1) (fun _ => 0) 0 run
  exact ⟨s, waits, moves ⟨1, busy⟩, ends⟩

end RdmaIht.Hashtable
