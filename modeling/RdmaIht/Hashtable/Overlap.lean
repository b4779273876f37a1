import RdmaIht.Hashtable.Run

/-! Resizes that overlap.

Whatever the nodes hold, a lock has at most one holder, and only a resize deletes
locks, those of an array that is no longer the root. A resize waits for the locks
of the root it has copied, and this copy is out of date as soon as another resize
publishes a new root. Where no resize publishes a root while another has a copy
of the old one, no resize ever waits for a deleted lock.
-/

set_option autoImplicit false

namespace RdmaIht.Hashtable

open Concurrency

variable {K V : Type}

def RehashPc.copied : RehashPc K V → Bool
  | .readBuckets _ | .listLength _ _ _ _ | .freeze _ _ _ | .publish _ _ => true
  | .readRoot | .bucket _ _ _ | .foreach _ _ _ _ | .pairs _ _ _ _ _ | .insert _ _ _ _ _ _ _ _ | .melt _ _ => false

def Thread.copied : Thread K V → Bool
  | .resizing pc => pc.copied
  | .idle | .running _ _ _ => false

/-- The thread that stores a new root with this action. -/
def State.stores (s : State K V) : Action K V → Option Nat
  | .invoke _ _ | .tryRehash _ => none
  | .step client =>
    match s.threads client with
    | .resizing (.publish _ _) => some client
    | _ => none

/-- If the action stores a new root, no other resize has a copy of the one it replaces. -/
def StoresUncopied (s : State K V) (action : Action K V) : Prop :=
  ∀ c ∈ s.stores action, ∀ c', c' ≠ c → (s.threads c').copied = false

/-- Some `try_rehash` is at the loop of `freeze` on a bucket that is deleted. -/
def Stranded (s : State K V) : Prop :=
  ∃ c hashtable buckets i set, s.threads c = .resizing (.freeze hashtable buckets i) ∧ buckets[i]? = some set ∧
    s.mem.locks set.lock = some .deleted

/-! ## Assertions -/

structure Layout (m : Mem K V) : Prop where
  arrays_lt : ∀ p, m.arrays p ≠ none → p.address < m.next
  locks_lt : ∀ {a i set}, m.bucketAt a i = some set → set.lock.address < m.next
  same_place : ∀ {a a' i i' set set'}, m.bucketAt a i = some set → m.bucketAt a' i' = some set' → set.lock = set'.lock →
    a = a' ∧ i = i'
  root : ∃ sets, m.arrays m.root.bucketStart = some sets ∧ sets.length = m.root.count ∧ 0 < m.root.count
  live : ∀ {i set}, m.bucketAt m.root.bucketStart i = some set → m.locks set.lock ≠ some .deleted

/-- The buckets are those of an array that is neither the root nor `new`. -/
def Former (m : Mem K V) (new : HashArray) (buckets : List LinkedSet) : Prop :=
  ∃ a, a ≠ m.root.bucketStart ∧ a ≠ new.bucketStart ∧ m.arrays a = some buckets

def RehashPc.Placed (m : Mem K V) : RehashPc K V → Prop
  | .readRoot => True
  | .readBuckets hashtable => hashtable = m.root
  | .listLength hashtable buckets _ _ | .freeze hashtable buckets _ | .publish hashtable buckets =>
    Current m hashtable buckets
  | .bucket buckets new _ | .foreach buckets new _ _ | .pairs buckets new _ _ _ => Former m new buckets
  | .insert buckets new _ _ _ _ set _ => Former m new buckets ∧ ∃ i, m.bucketAt new.bucketStart i = some set
  | .melt buckets _ => ∃ a, a ≠ m.root.bucketStart ∧ m.arrays a = some buckets

def Thread.Placed (m : Mem K V) : Thread K V → Prop
  | .running _ _ (.inSet set _) => ∃ a i, m.bucketAt a i = some set
  | .resizing pc => pc.Placed m
  | .idle | .running _ _ _ => True

structure Guard (s : State K V) : Prop where
  layout : Layout s.mem
  placed : ∀ c, (s.threads c).Placed s.mem
  locked : ∀ {c p}, (s.threads c).Holds p → s.mem.locks p = some .locked
  exclusive : ∀ {c c' p}, (s.threads c).Holds p → (s.threads c').Holds p → c = c'

/-! ## What a step does to the locks -/

inductive LockMove (m : Mem K V) (thread : Thread K V) (m' : Mem K V) (thread' : Thread K V) : Prop where
  | keep (locks : m'.locks = m.locks) (holds : ∀ p, thread'.Holds p → thread.Holds p)
  | win (p : RemotePtr) (open_ : m.locks p = some .unlocked) (locks : m'.locks = Function.update m.locks p (some .locked))
      (holds : ∀ q, thread'.Holds q → thread.Holds q ∨ q = p)
  | release (p : RemotePtr) (w : LockType) (held : thread.Holds p) (locks : m'.locks = Function.update m.locks p (some w))
      (holds : ∀ q, thread'.Holds q → thread.Holds q ∧ q ≠ p)
      (retired : w = .deleted → ∃ a i set, a ≠ m.root.bucketStart ∧ m.bucketAt a i = some set ∧ p = set.lock)

structure Local (m : Mem K V) (thread : Thread K V) (m' : Mem K V) (thread' : Thread K V) : Prop where
  root : m'.root = m.root
  arrays : m'.arrays = m.arrays
  next : m.next ≤ m'.next
  lock : LockMove m thread m' thread'
  placed : thread'.Placed m'

section Frame

variable {m m' : Mem K V}

theorem bucketAt_of_arrays (arrays : m'.arrays = m.arrays) (a : RemotePtr) (i : Nat) : m'.bucketAt a i = m.bucketAt a i := by
  unfold Mem.bucketAt
  rw [arrays]

theorem RehashPc.Placed.frame (root : m'.root = m.root) (arrays : m'.arrays = m.arrays) {pc : RehashPc K V}
    (placed : pc.Placed m) : pc.Placed m' := by
  cases pc with
  | insert =>
    simp only [RehashPc.Placed, Former, root, arrays, bucketAt_of_arrays arrays] at placed ⊢
    exact placed
  | readRoot => trivial
  | _ =>
    simp only [RehashPc.Placed, Current, Former, root, arrays] at placed ⊢
    exact placed

theorem Thread.Placed.frame (root : m'.root = m.root) (arrays : m'.arrays = m.arrays) {thread : Thread K V}
    (placed : thread.Placed m) : thread.Placed m' := by
  cases thread with
  | idle => trivial
  | running id op pc =>
    cases pc with
    | inSet set pc => simpa only [Thread.Placed, bucketAt_of_arrays arrays] using placed
    | _ => trivial
  | resizing pc => exact RehashPc.Placed.frame root arrays placed

end Frame

theorem RehashPc.Placed.frozen {m : Mem K V} {pc : RehashPc K V} (placed : pc.Placed m) {set : LinkedSet}
    (member : set ∈ pc.frozen) : ∃ a i, m.bucketAt a i = some set := by
  have found : ∃ a buckets, m.arrays a = some buckets ∧ set ∈ buckets := by
    cases pc with
    | readRoot | readBuckets | listLength => cases member
    | freeze hashtable buckets i => exact ⟨_, _, placed.2, List.mem_of_mem_take member⟩
    | publish hashtable buckets => exact ⟨_, _, placed.2, member⟩
    | bucket | foreach | pairs => exact ⟨_, _, placed.choose_spec.2.2, member⟩
    | insert => exact ⟨_, _, placed.1.choose_spec.2.2, member⟩
    | melt buckets i => exact ⟨_, _, placed.choose_spec.2, List.mem_of_mem_drop member⟩
  obtain ⟨a, buckets, stored, inside⟩ := found
  obtain ⟨i, at_⟩ := bucketAt_of_mem stored inside
  exact ⟨a, i, at_⟩

theorem Thread.Placed.holds {m : Mem K V} {thread : Thread K V} (placed : thread.Placed m) {p : RemotePtr}
    (holds : thread.Holds p) : ∃ a i set, m.bucketAt a i = some set ∧ p = set.lock := by
  rcases holds with ⟨set, member, rfl⟩ | ⟨set, pc, here, _, rfl⟩
  · cases thread with
    | idle | running => cases member
    | resizing pc =>
      obtain ⟨a, i, at_⟩ := RehashPc.Placed.frozen placed member
      exact ⟨a, i, set, at_, rfl⟩
  · cases thread with
    | idle => cases here
    | running id op pc =>
      cases pc with
      | inSet =>
        cases here
        obtain ⟨a, i, at_⟩ := placed
        exact ⟨a, i, set, at_, rfl⟩
      | _ => cases here
    | resizing pc =>
      cases pc with
      | insert =>
        cases here
        obtain ⟨_, i, at_⟩ := placed
        exact ⟨_, i, set, at_, rfl⟩
      | _ => cases here

section Moves

variable [DecidableEq K] {T : Template K V} {m m' : Mem K V} {set : LinkedSet} {op : IhtOp K V}

inductive SetMove (m : Mem K V) (set : LinkedSet) (m' : Mem K V) (pc : SetPc K V) : SetPc K V ⊕ HtRes V → Prop where
  | keep {pc' : SetPc K V} (locks : m'.locks = m.locks) (same : pc'.inside = pc.inside) : SetMove m set m' pc (.inl pc')
  | deleted {res : HtRes V} (locks : m'.locks = m.locks) (outside : pc.inside = false) : SetMove m set m' pc (.inr res)
  | win {pc' : SetPc K V} (open_ : m.locks set.lock = some .unlocked) (outside : pc.inside = false)
      (locks : m'.locks = Function.update m.locks set.lock (some .locked)) : SetMove m set m' pc (.inl pc')
  | unlock {res : HtRes V} (inside : pc.inside = true)
      (locks : m'.locks = Function.update m.locks set.lock (some .unlocked)) : SetMove m set m' pc (.inr res)

theorem setStep_move {self : Nat} {pc : SetPc K V} {next : SetPc K V ⊕ HtRes V}
    (stepped : setStep T self set op m pc = .ok (m', next)) :
    m'.root = m.root ∧ m'.arrays = m.arrays ∧ m.next ≤ m'.next ∧ SetMove m set m' pc next := by
  cases setStep_branch stepped with
  | locks open_ => exact ⟨rfl, rfl, Nat.le_refl _, .win open_ rfl rfl⟩
  | deleted word => exact ⟨rfl, rfl, Nat.le_refl _, .deleted rfl rfl⟩
  | append stored visited => exact ⟨rfl, rfl, Nat.le_succ _, .keep rfl rfl⟩
  | unlock word => exact ⟨rfl, rfl, Nat.le_refl _, .unlock rfl rfl⟩
  | spins | last | further | found | write | writeNode | readFirst | writeFirst =>
    exact ⟨rfl, rfl, Nat.le_refl _, .keep rfl rfl⟩

theorem clientStep_local {self id : Nat} {pc : Pc K V} {next : Pc K V ⊕ HtRes V}
    (placed : (Thread.running id op pc).Placed m) (stepped : clientStep T self op m pc = .ok (m', next)) :
    Local m (.running id op pc) m' (.after id op next) := by
  cases clientStep_branch stepped with
  | readRoot => exact ⟨rfl, rfl, Nat.le_refl _, .keep rfl fun p holds => absurd holds not_holds_readBucket, trivial⟩
  | readBucket at_ =>
    refine ⟨rfl, rfl, Nat.le_refl _, .keep rfl fun p holds => ?_, ⟨_, _, at_⟩⟩
    simp [Thread.after, SetPc.inside] at holds
  | @goesOn set pc pc' _ went =>
    obtain ⟨root, arrays, next, move⟩ := setStep_move went
    refine ⟨root, arrays, next, ?_, placed.frame root arrays⟩
    cases move with
    | keep locks same =>
      refine .keep locks fun p holds => ?_
      simpa only [Thread.after, holds_running, same] using holds
    | win open_ outside locks =>
      refine .win set.lock open_ locks fun p holds => ?_
      simp only [Thread.after, holds_running] at holds
      exact .inr holds.2
  | @returns set pc _ res went =>
    obtain ⟨root, arrays, next, move⟩ := setStep_move went
    -- a call that has left its set holds no lock, whatever it reports
    have nothing : ∀ p, ¬ (Thread.after id op (report res)).Holds p := by
      intro p
      unfold report
      split
      · exact not_holds_readRoot
      · exact not_holds_idle
      · exact not_holds_idle
    have placed' : (Thread.after id op (report res)).Placed m' := by
      unfold report
      split <;> trivial
    refine ⟨root, arrays, next, ?_, placed'⟩
    cases move with
    | deleted locks outside => exact .keep locks fun p holds => absurd holds (nothing p)
    | unlock inside locks =>
      refine .release set.lock .unlocked ?_ locks (fun p holds => absurd holds (nothing p)) fun same => by cases same
      rw [holds_running]
      exact ⟨inside, rfl⟩

omit [DecidableEq K] in
theorem Local.quiet {pc : RehashPc K V} {next : Option (RehashPc K V)}
    (holds : ∀ p, (Thread.resume next).Holds p → (Thread.resizing pc).Holds p) (placed : (Thread.resume next).Placed m) :
    Local m (.resizing pc) m (.resume next) := ⟨rfl, rfl, Nat.le_refl _, .keep rfl holds, placed⟩

omit [DecidableEq K] in
theorem holds_of_frozen {pc pc' : RehashPc K V} (outside : (Thread.resizing pc').set = none) (frozen : pc'.frozen = pc.frozen)
    {p : RemotePtr} (holds : (Thread.resizing pc').Holds p) : (Thread.resizing pc).Holds p := by
  rw [holds_resizing outside, frozen] at holds
  exact .inl holds

theorem rehashStep_local {self : Nat} (layout : Layout m) {pc : RehashPc K V} {next : Option (RehashPc K V)}
    (inner : ∀ hashtable buckets, pc ≠ .publish hashtable buckets) (placed : pc.Placed m)
    (stepped : rehashStep T self m pc = .ok (m', next)) : Local m (.resizing pc) m' (.resume next) := by
  cases rehashStep_branch stepped with
  | readRoot => exact .quiet (fun p => holds_of_frozen rfl rfl) rfl
  | @readBuckets hashtable sets stored long =>
    obtain rfl : hashtable = m.root := placed
    obtain ⟨sets', stored', length, _⟩ := layout.root
    obtain rfl : sets = sets' := Option.some.inj (stored.symm.trans stored')
    refine .quiet (fun p => holds_of_frozen rfl rfl) ⟨rfl, ?_⟩
    rw [← length, List.take_length]
    exact stored
  | few => exact .quiet (fun p holds => absurd holds not_holds_idle) trivial
  | full => exact .quiet (fun p => holds_of_frozen rfl (by simp [RehashPc.frozen])) placed
  | listLength => exact .quiet (fun p => holds_of_frozen rfl rfl) placed
  | @frozen hashtable buckets i past =>
    have all : buckets.take i = buckets := List.take_of_length_le (List.getElem?_eq_none_iff.mp past)
    exact .quiet (fun p => holds_of_frozen rfl (by simp [RehashPc.frozen, all])) placed
  | @freezes hashtable buckets i set at_ word =>
    have grown : buckets.take (i + 1) = buckets.take i ++ [set] := by
      rw [List.take_add_one, at_]
      rfl
    refine ⟨rfl, rfl, Nat.le_refl _, .win set.lock word rfl fun p holds => ?_, placed⟩
    simp only [Thread.resume] at holds
    rw [holds_resizing rfl] at holds ⊢
    obtain ⟨set', member, rfl⟩ := holds
    simp only [RehashPc.frozen, grown, List.mem_append, List.mem_singleton] at member
    rcases member with old | rfl
    · exact .inl ⟨set', old, rfl⟩
    · exact .inr rfl
  | waits => exact .quiet (fun p holds => holds) placed
  | publish => exact absurd rfl (inner _ _)
  | added =>
    obtain ⟨a, other, _, stored⟩ := placed
    exact .quiet (fun p => holds_of_frozen rfl rfl) ⟨a, other, stored⟩
  | bucket | chainEnd | node | nodeEnd => exact .quiet (fun p => holds_of_frozen rfl rfl) placed
  | pair at_ =>
    refine .quiet (fun p holds => ?_) ⟨placed, _, at_⟩
    rcases holds_insert.mp holds with frozen | ⟨inside, _⟩
    · exact .inl frozen
    · cases inside
  | @inserts buckets new i after pair rest set pc pc' _ went =>
    obtain ⟨former, index, at_⟩ := placed
    obtain ⟨root, arrays, next, move⟩ := setStep_move went
    have kept : (RehashPc.insert buckets new i after pair rest set pc').Placed m := ⟨former, index, at_⟩
    refine ⟨root, arrays, next, ?_, kept.frame root arrays⟩
    cases move with
    | keep locks same =>
      refine .keep locks fun p holds => ?_
      rw [holds_insert, ← same]
      exact holds_insert.mp holds
    | win open_ outside locks =>
      refine .win set.lock open_ locks fun p holds => ?_
      exact (holds_insert.mp holds).imp (fun frozen => .inl frozen) (·.2)
  | @inserted buckets new i after pair rest set pc _ res went =>
    obtain ⟨former, index, at_⟩ := placed
    -- the locks of the former root are others than that of `set`
    have apart : ∀ set' ∈ buckets, set'.lock ≠ set.lock := by
      intro set' member same
      obtain ⟨a, _, other, stored⟩ := former
      obtain ⟨j, at_'⟩ := bucketAt_of_mem stored member
      exact other (layout.same_place at_' at_ same).1
    obtain ⟨root, arrays, next, move⟩ := setStep_move went
    have kept : (RehashPc.pairs buckets new i after rest).Placed m := former
    refine ⟨root, arrays, next, ?_, kept.frame root arrays⟩
    cases move with
    | deleted locks outside => exact .keep locks fun p holds => holds_insert.mpr (.inl ((holds_resizing rfl).mp holds))
    | unlock inside locks =>
      refine .release set.lock .unlocked (holds_insert.mpr (.inr ⟨inside, rfl⟩)) locks (fun p holds => ?_) fun same => by cases same
      obtain ⟨set', member, rfl⟩ := (holds_resizing rfl).mp holds
      exact ⟨.inl ⟨set', member, rfl⟩, apart set' member⟩
  | melted => exact .quiet (fun p holds => absurd holds not_holds_idle) trivial
  | @melts buckets i set w at_ word =>
    obtain ⟨a, other, stored⟩ := placed
    have here := m.bucketAt_eq_some.mpr ⟨buckets, stored, at_⟩
    have front : buckets.drop i = set :: buckets.drop (i + 1) := by
      obtain ⟨bound, rfl⟩ := List.getElem?_eq_some_iff.mp at_
      exact List.drop_eq_getElem_cons bound
    refine ⟨rfl, rfl, Nat.le_refl _, .release set.lock .deleted ?_ rfl (fun p holds => ?_)
      fun _ => ⟨a, i, set, other, here, rfl⟩, ⟨a, other, stored⟩⟩
    · rw [holds_resizing rfl]
      exact ⟨set, by simp [RehashPc.frozen, front], rfl⟩
    · obtain ⟨set', member, rfl⟩ := (holds_resizing rfl).mp holds
      refine ⟨.inl ⟨set', by simp only [Thread.frozen, RehashPc.frozen, front]; exact .tail _ member, rfl⟩, fun same => ?_⟩
      obtain ⟨j, inDrop⟩ := List.mem_iff_getElem?.mp member
      simp only [RehashPc.frozen, List.getElem?_drop] at inDrop
      have place := (layout.same_place (m.bucketAt_eq_some.mpr ⟨buckets, stored, inDrop⟩) here same).2
      omega

end Moves

theorem Thread.Placed.of_uncopied {m m' : Mem K V} {thread : Thread K V} (placed : thread.Placed m)
    (old : ∀ {a sets}, m.arrays a = some sets → a ≠ m'.root.bucketStart ∧ m'.arrays a = some sets)
    (uncopied : thread.copied = false) : thread.Placed m' := by
  have bucket : ∀ {a i set}, m.bucketAt a i = some set → m'.bucketAt a i = some set := by
    intro a i set at_
    obtain ⟨sets, stored, slot⟩ := m.bucketAt_eq_some.mp at_
    exact m'.bucketAt_eq_some.mpr ⟨sets, (old stored).2, slot⟩
  have former : ∀ {new sets}, Former m new sets → Former m' new sets := by
    rintro new sets ⟨a, _, other, stored⟩
    exact ⟨a, (old stored).1, other, (old stored).2⟩
  cases thread with
  | idle => trivial
  | running id op pc =>
    cases pc with
    | inSet set pc =>
      obtain ⟨a, i, slot⟩ := placed
      exact ⟨a, i, bucket slot⟩
    | readRoot | readBucket => trivial
  | resizing pc =>
    cases pc with
    | readRoot => trivial
    -- a resize has a copy of the root from reading it until it replaces it
    | readBuckets | listLength | freeze | publish => cases uncopied
    | bucket | foreach | pairs => exact former placed
    | insert =>
      obtain ⟨was, i, slot⟩ := placed
      exact ⟨former was, i, bucket slot⟩
    | melt =>
      obtain ⟨a, _, stored⟩ := placed
      exact ⟨a, (old stored).1, (old stored).2⟩

namespace LockMove

variable {m m' : Mem K V} {thread thread' : Thread K V} {p : RemotePtr}

theorem holds_of_locked (move : LockMove m thread m' thread') (word : m.locks p = some .locked) (holds : thread'.Holds p) :
    thread.Holds p := by
  cases move with
  | keep _ same => exact same p holds
  | win q open_ _ same =>
    rcases same p holds with old | rfl
    · exact old
    · rw [word] at open_
      cases open_
  | release q w _ _ same => exact (same p holds).1

theorem locked (move : LockMove m thread m' thread') (own : ∀ p, thread.Holds p → m.locks p = some .locked)
    (holds : thread'.Holds p) : m'.locks p = some .locked := by
  cases move with
  | keep locks same =>
    rw [locks]
    exact own p (same p holds)
  | win q _ locks same =>
    rw [locks, Function.update_apply]
    split
    · rfl
    · next other => exact own p ((same p holds).resolve_right other)
  | release q w _ locks same =>
    rw [locks, Function.update_of_ne (same p holds).2]
    exact own p (same p holds).1

theorem stays (move : LockMove m thread m' thread') (word : m.locks p = some .locked) (free : ¬ thread.Holds p) :
    m'.locks p = some .locked := by
  cases move with
  | keep locks _ =>
    rw [locks]
    exact word
  | win q open_ locks _ =>
    rw [locks, Function.update_of_ne]
    · exact word
    · rintro rfl
      rw [word] at open_
      cases open_
  | release q w held locks _ =>
    rw [locks, Function.update_of_ne]
    · exact word
    · rintro rfl
      exact free held

theorem deleted (move : LockMove m thread m' thread') (word : m'.locks p = some .deleted) : m.locks p = some .deleted ∨
    ∃ a i set, a ≠ m.root.bucketStart ∧ m.bucketAt a i = some set ∧ p = set.lock := by
  cases move with
  | keep locks _ =>
    rw [locks] at word
    exact .inl word
  | win q _ locks _ =>
    rw [locks, Function.update_apply] at word
    split at word
    · cases word
    · exact .inl word
  | release q w _ locks _ retired =>
    rw [locks, Function.update_apply] at word
    split at word
    · next same =>
      cases same
      exact .inr (retired (Option.some.inj word))
    · exact .inl word

end LockMove

/-! ## Runs -/

theorem Layout.frame {m m' : Mem K V} {thread thread' : Thread K V} (layout : Layout m) (step : Local m thread m' thread') :
    Layout m' where
  arrays_lt := by
    intro p some
    rw [step.arrays] at some
    exact Nat.lt_of_lt_of_le (layout.arrays_lt p some) step.next
  locks_lt := by
    intro a i set at_
    rw [bucketAt_of_arrays step.arrays] at at_
    exact Nat.lt_of_lt_of_le (layout.locks_lt at_) step.next
  same_place := by
    intro a a' i i' set set' at_ at_'
    rw [bucketAt_of_arrays step.arrays] at at_ at_'
    exact layout.same_place at_ at_'
  root := by
    rw [step.root, step.arrays]
    exact layout.root
  live := by
    intro i set at_ deleted
    rw [bucketAt_of_arrays step.arrays, step.root] at at_
    rcases step.lock.deleted deleted with before | ⟨a, j, set', other, at_', same⟩
    · exact layout.live at_ before
    · exact other (layout.same_place at_ at_' same).1.symm

namespace Guard

variable {s s' : State K V}

theorem local_ (c : Nat) (thread' : Thread K V) (guard : Guard s) (step : Local s.mem (s.threads c) s'.mem thread')
    (threads : s'.threads = Function.update s.threads c thread') : Guard s' := by
  have mine : s'.threads c = thread' := by rw [threads, Function.update_self]
  have theirs : ∀ c', c' ≠ c → s'.threads c' = s.threads c' := fun c' other => by
    rw [threads, Function.update_of_ne other]
  -- what another thread holds is not held by `c`, before and after its step
  have apart : ∀ c' p, c' ≠ c → (s.threads c').Holds p → ¬ thread'.Holds p := by
    intro c' p other theirHolds holds
    exact other (guard.exclusive theirHolds (step.lock.holds_of_locked (guard.locked theirHolds) holds))
  refine ⟨guard.layout.frame step, ?_, ?_, ?_⟩
  · intro c'
    by_cases here : c' = c
    · rw [here, mine]
      exact step.placed
    · rw [theirs c' here]
      exact (guard.placed c').frame step.root step.arrays
  · intro c' p holds
    by_cases here : c' = c
    · rw [here, mine] at holds
      exact step.lock.locked (fun _ => guard.locked) holds
    · rw [theirs c' here] at holds
      exact step.lock.stays (guard.locked holds) fun held => here (guard.exclusive holds held)
  · intro c₁ c₂ p holds₁ holds₂
    by_cases here₁ : c₁ = c <;> by_cases here₂ : c₂ = c
    · rw [here₁, here₂]
    · rw [here₁, mine] at holds₁
      rw [theirs c₂ here₂] at holds₂
      exact absurd holds₁ (apart c₂ p here₂ holds₂)
    · rw [here₂, mine] at holds₂
      rw [theirs c₁ here₁] at holds₁
      exact absurd holds₂ (apart c₁ p here₁ holds₁)
    · rw [theirs c₁ here₁] at holds₁
      rw [theirs c₂ here₂] at holds₂
      exact guard.exclusive holds₁ holds₂

theorem layout_publish {m : Mem K V} (self n : Nat) (positive : 0 < n) (arrays_lt : ∀ p, m.arrays p ≠ none → p.address < m.next)
    (locks_lt : ∀ {a i set}, m.bucketAt a i = some set → set.lock.address < m.next)
    (same_place : ∀ {a a' i i' set set'}, m.bucketAt a i = some set → m.bucketAt a' i' = some set' → set.lock = set'.lock →
      a = a' ∧ i = i') : Layout (m.publish self n) where
  arrays_lt := by
    intro p some
    rw [m.next_publish]
    rw [m.arrays_publish] at some
    split at some
    · next new =>
      rw [new]
      unfold Mem.fresh
      dsimp only
      omega
    · have low := arrays_lt p some
      omega
  locks_lt := by
    intro a i set at_
    rw [m.next_publish]
    rcases m.cases_publish self n at_ with ⟨_, old⟩ | ⟨_, bound, rfl⟩
    · have low := locks_lt old
      omega
    · dsimp only
      omega
  same_place := by
    intro a a' i i' set set' at_ at_' same
    -- the locks of the new sets lie above all addresses handed out before
    rcases m.cases_publish self n at_ with ⟨_, old⟩ | ⟨here, bound, rfl⟩ <;>
      rcases m.cases_publish self n at_' with ⟨_, old'⟩ | ⟨here', bound', rfl⟩
    · exact same_place old old' same
    · have low := locks_lt old
      rw [same] at low
      dsimp only at low
      omega
    · have low := locks_lt old'
      rw [← same] at low
      dsimp only at low
      omega
    · injection same with _ address
      exact ⟨here.trans here'.symm, by omega⟩
  root := ⟨_, by rw [m.root_publish, m.arrays_publish, if_pos rfl], by simp [m.root_publish, Mem.length_newSets], positive⟩
  live := by
    intro i set at_
    rcases m.cases_publish self n at_ with ⟨other, _⟩ | ⟨_, bound, rfl⟩
    · exact absurd rfl other
    · simp [(m.set_publish self n bound).1]

theorem publish (self : Nat) (guard : Guard s) {c : Nat} {hashtable : HashArray} {buckets : List LinkedSet}
    (here : s.threads c = .resizing (.publish hashtable buckets))
    (uncopied : ∀ c', c' ≠ c → (s.threads c').copied = false)
    (mem : s'.mem = s.mem.publish self (hashtable.count * 2))
    (threads : s'.threads = Function.update s.threads c (.resizing (.bucket buckets s'.mem.root 0))) : Guard s' := by
  have layout := guard.layout
  obtain ⟨rfl, stored⟩ : Current s.mem hashtable buckets := by
    have placed := guard.placed c
    rw [here] at placed
    exact placed
  have positive : 0 < s.mem.root.count := layout.root.choose_spec.2.2
  have old : ∀ {a sets}, s.mem.arrays a = some sets →
      a ≠ s'.mem.root.bucketStart ∧ s'.mem.arrays a = some sets := by
    intro a sets stored
    have low := layout.arrays_lt a (by simp [stored])
    have other : a ≠ s.mem.fresh self := by
      rintro rfl
      exact Nat.lt_irrefl _ low
    rw [mem, s.mem.root_publish, s.mem.arrays_publish, if_neg other]
    exact ⟨other, stored⟩
  have mine : s'.threads c = .resizing (.bucket buckets s'.mem.root 0) := by rw [threads, Function.update_self]
  have theirs : ∀ c', c' ≠ c → s'.threads c' = s.threads c' := fun c' other => by
    rw [threads, Function.update_of_ne other]
  -- the resize keeps the locks it has frozen, and no one gets a lock of the new table
  have holds : ∀ c' p, (s'.threads c').Holds p → (s.threads c').Holds p := by
    intro c' p
    by_cases same : c' = c
    · rw [same, mine, here]
      exact holds_of_frozen rfl rfl
    · rw [theirs c' same]
      exact id
  refine ⟨?_, ?_, ?_, fun holds₁ holds₂ => guard.exclusive (holds _ _ holds₁) (holds _ _ holds₂)⟩
  · rw [mem]
    exact layout_publish self _ (by omega) layout.arrays_lt layout.locks_lt layout.same_place
  · intro c'
    by_cases same : c' = c
    · rw [same, mine]
      exact ⟨s.mem.root.bucketStart, (old stored).1, (old stored).1, (old stored).2⟩
    · rw [theirs c' same]
      exact (guard.placed c').of_uncopied old (uncopied c' same)
  · intro c' p held
    have before := holds c' p held
    obtain ⟨a, i, set, at_, rfl⟩ := (guard.placed c').holds before
    rw [mem, (s.mem.blocks_publish self _ (layout.locks_lt at_)).1]
    exact guard.locked before

section Runs

variable [DecidableEq K] {T : Template K V} {peer : Nat → Nat} {action : Action K V}

omit [DecidableEq K] in
theorem start (positive : 1 ≤ T.initialSize) (host : Nat) : Guard (initial T host) := by
  have nothing : ∀ a i, (Mem.empty.bump : Mem K V).bucketAt a i = none := fun _ _ => rfl
  refine ⟨?_, fun _ => trivial, fun holds => absurd holds not_holds_idle, fun holds => absurd holds not_holds_idle⟩
  refine layout_publish (m := Mem.empty.bump) host T.initialSize positive (fun p some => absurd rfl some) ?_ ?_
  · intro a i set at_
    rw [nothing] at at_
    cases at_
  · intro a a' i i' set set' at_
    rw [nothing] at at_
    cases at_

theorem next (guard : Guard s) (uncopied : StoresUncopied s action) (enabled : exec T peer s action = some s') :
    Guard s' := by
  rcases exec_cases enabled with ⟨c, op, rfl, idle, rfl⟩ | ⟨c, rfl, idle, _, rfl⟩ | ⟨c, rfl, _, rfl⟩ |
    ⟨c, id, op, pc, m, next, rfl, runs, stepped, rfl⟩ | ⟨c, pc, m, next, rfl, runs, stepped, rfl⟩
  · refine guard.local_ c (.running s.ops op .readRoot)
      ⟨rfl, rfl, Nat.le_refl _, .keep rfl fun p holds => absurd holds not_holds_readRoot, trivial⟩ rfl
  · refine guard.local_ c (.resizing .readRoot)
      ⟨rfl, rfl, Nat.le_refl _, .keep rfl fun p holds => ?_, trivial⟩ rfl
    rw [holds_resizing rfl] at holds
    simp [RehashPc.frozen] at holds
  · exact guard
  · have placed := guard.placed c
    rw [runs] at placed
    exact guard.local_ c _ (by rw [runs]; exact clientStep_local placed stepped) rfl
  · by_cases inner : ∀ hashtable buckets, pc ≠ .publish hashtable buckets
    · have placed := guard.placed c
      rw [runs] at placed
      exact guard.local_ c _ (by rw [runs]; exact rehashStep_local guard.layout inner placed stepped) rfl
    · push Not at inner
      obtain ⟨hashtable, buckets, rfl⟩ := inner
      cases rehashStep_branch stepped with
      | publish => exact guard.publish (peer c) runs (uncopied c (by simp [State.stores, runs])) rfl rfl

end Runs

end Guard

/-- In a run in which no `try_rehash` stores a root while another has a copy of the
old one, no `try_rehash` waits for a deleted lock. -/
theorem not_stranded_of_uncopied {initialSize : Nat} (positive : 1 ≤ initialSize) (peer : Nat → Nat) (host : Nat)
    {s : State (BitVec 32) (BitVec 32)}
    (run : Steps (exec (intTemplate initialSize) peer) StoresUncopied (initial (intTemplate initialSize) host) s) :
    ¬ Stranded s := by
  have guard : Guard s := run.invariant (Guard.start positive host) fun _ _ _ guard uncopied enabled =>
    guard.next uncopied enabled
  rintro ⟨c, hashtable, buckets, i, set, freezes, at_, deleted⟩
  have placed := guard.placed c
  rw [freezes] at placed
  obtain ⟨rfl, stored⟩ := placed
  exact guard.layout.live (s.mem.bucketAt_eq_some.mpr ⟨buckets, stored, at_⟩) deleted

def CallersUncopied (callers : List Nat) (s : State K V) (action : Action K V) : Prop :=
  ∀ c ∈ s.stores action, ∀ c' ∈ callers, c' ≠ c → (s.threads c').copied = false

instance (callers : List Nat) (s : State K V) (action : Action K V) : Decidable (CallersUncopied callers s action) :=
  inferInstanceAs (Decidable (∀ c ∈ s.stores action, ∀ c' ∈ callers, c' ≠ c → (s.threads c').copied = false))

theorem storesUncopied_of_callers {callers : List Nat} {s : State K V} {action : Action K V}
    (only : ∀ c pc, s.threads c = .resizing pc → c ∈ callers) (uncopied : CallersUncopied callers s action) :
    StoresUncopied s action := by
  intro c stores c' other
  cases at_ : s.threads c' with
  | idle | running => rfl
  | resizing pc =>
    have done := uncopied c stores c' (only c' pc at_) other
    rw [at_] at done
    exact done

/-- Threads 0 and 1 of the host resize a table with ten keys. Thread 1 makes `early` steps
before thread 0 stores the new root and `late` steps before it adds the first key. -/
def twoResizes (early late : Nat) : List (Action (BitVec 32) (BitVec 32)) :=
  ((List.range 10).flatMap fun k => .invoke 0 (.insert (.ofNat 32 k) (.ofNat 32 k)) ::
    List.replicate (if k < 8 then 8 else 9) (.step 0)) ++ .tryRehash 0 :: List.replicate 4 (.step 0) ++
    .tryRehash 1 :: List.replicate early (.step 1) ++ List.replicate 3 (.step 0) ++ List.replicate late (.step 1) ++
    List.replicate 79 (.step 0)

theorem not_stranded_of_uncopied_lateCopy : ∃ s : State (BitVec 32) (BitVec 32),
    (s.threads 0 = .idle ∧ s.threads 1 = .idle ∧ s.mem.root.count = 2) ∧ ¬ Stranded s := by
  have ran : (runAll (fun s action => if CalledBy [0, 1] action ∧ CallersUncopied [0, 1] s action then
      exec (intTemplate 1) (fun _ => 0) s action else none) (initial (intTemplate 1) 0) (twoResizes 0 5)).map
      (fun s => (s.threads 0, s.threads 1, s.mem.root.count)) = some (.idle, .idle, 2) := by decide +kernel
  obtain ⟨s, final, shown⟩ := Option.map_eq_some_iff.mp ran
  have run : Steps (exec (intTemplate 1) fun _ => 0) StoresUncopied (initial (intTemplate 1) 0) s :=
    steps_of_calledBy (fun _ _ _ only _ _ uncopied => storesUncopied_of_callers only uncopied) (fun _ => rfl)
      (steps_of_runAll (twoResizes 0 5) final)
  simp only [Prod.mk.injEq] at shown
  exact ⟨s, shown, not_stranded_of_uncopied (Nat.le_refl 1) (fun _ => 0) 0 run⟩

theorem not_stranded_earlyCopy : ¬ ∀ s,
    Reachable (exec (intTemplate 1) fun _ => 0) (initial (intTemplate 1) 0) s → ¬ Stranded s := by
  intro claimed
  have ran : (runAll (exec (intTemplate 1) fun _ => 0) (initial (intTemplate 1) 0) (twoResizes 4 1)).map
      (fun s => (s.threads 1, s.mem.locks ⟨0, 3⟩)) =
      some (.resizing (.freeze ⟨1, ⟨0, 2⟩⟩ [⟨⟨0, 3⟩, ⟨0, 4⟩⟩] 0), some .deleted) := by decide +kernel
  obtain ⟨s, final, shown⟩ := Option.map_eq_some_iff.mp ran
  simp only [Prod.mk.injEq] at shown
  exact claimed s (reachable_of_runAll (twoResizes 4 1) final) ⟨1, _, _, 0, _, shown.1, rfl, shown.2⟩

end RdmaIht.Hashtable
