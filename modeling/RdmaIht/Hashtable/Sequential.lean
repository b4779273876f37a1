import RdmaIht.Hashtable.Serial

/-! Calls on a `Hashtable` made in turn.

A call that runs alone is the machine with one thread, so that its steps keep the
invariant of the machine. No other thread holds a lock, so that the loops on locks
go through at once, and each other step brings the call closer to its end.
-/

set_option autoImplicit false

namespace RdmaIht.Hashtable

open Concurrency

variable {K V : Type}

inductive Call (K V : Type) where
  | operation (op : IhtOp K V)
  | tryRehash
  deriving DecidableEq, Repr

def Call.op? : Call K V → Option (IhtOp K V)
  | .operation op => some op
  | .tryRehash => none

variable [DecidableEq K]

section Run

variable (T : Template K V)

/-- The rest of an operation, in at most `fuel` steps. -/
def finish (pool : Nat) (op : IhtOp K V) : Nat → Mem K V → Pc K V → Except Fault (Mem K V × HtRes V)
  | 0, _, _ => .error .outOfFuel
  | fuel + 1, m, pc =>
    match clientStep T pool op m pc with
    | .error fault => .error fault
    | .ok (m, .inl pc) => finish pool op fuel m pc
    | .ok (m, .inr res) => .ok (m, res)

/-- The rest of a `try_rehash`, in at most `fuel` steps. -/
def finishRehash (pool : Nat) : Nat → Mem K V → RehashPc K V → Except Fault (Mem K V)
  | 0, _, _ => .error .outOfFuel
  | fuel + 1, m, pc =>
    match rehashStep T pool m pc with
    | .error fault => .error fault
    | .ok (m, some pc) => finishRehash pool fuel m pc
    | .ok (m, none) => .ok m

/-- One call on the pool of the thread that makes it. -/
def perform (root : RemotePtr) (fuel : Nat) (m : Mem K V) (pool : Nat) :
    Call K V → Except Fault (Mem K V × Option (HtRes V))
  | .operation op => do
    let (m, res) ← finish T pool op fuel m .readRoot
    return (m, some res)
  | .tryRehash =>
    if root.isLocal pool then do
      let m ← finishRehash T pool fuel m .readRoot
      return (m, none)
    else .ok (m, none)

/-- Calls made in turn, with the results of the operations. -/
def calls (root : RemotePtr) (fuel : Nat) (m : Mem K V) :
    List (Nat × Call K V) → Except Fault (Mem K V × List (HtRes V))
  | [] => .ok (m, [])
  | (pool, call) :: rest => do
    let (m, res) ← perform T root fuel m pool call
    let (m, results) ← calls root fuel m rest
    return (m, res.toList ++ results)

end Run

/-! ## One thread -/

def solo (root : RemotePtr) (m : Mem K V) (thread : Thread K V) : State K V where
  mem := m
  root := root
  threads := Function.update (fun _ => .idle) 0 thread
  history := []
  ops := 0

variable {T : Template K V} {t : Table K V} {home : Home} {answer : Nat → HtRes V} {root : RemotePtr} {m m' : Mem K V}
  {op : IhtOp K V}

omit [DecidableEq K] in
theorem solo_threads (root : RemotePtr) (m m' : Mem K V) (thread thread' : Thread K V) :
    (solo root m' thread').threads = Function.update (solo root m thread).threads 0 thread' :=
  (Function.update_idem _ _ _).symm

omit [DecidableEq K] in
@[simp] theorem solo_self (root : RemotePtr) (m : Mem K V) (thread : Thread K V) : (solo root m thread).threads 0 = thread := by
  simp [solo]

omit [DecidableEq K] in
theorem solo_idle (root : RemotePtr) (m : Mem K V) (thread : Thread K V) {c : Nat} (other : c ≠ 0) :
    (solo root m thread).threads c = .idle := by
  simp [solo, Function.update_of_ne other]

omit [DecidableEq K] in
theorem solo_resizing {thread : Thread K V} {c : Nat} {pc : RehashPc K V}
    (resizes : (solo root m thread).threads c = .resizing pc) : c = 0 := by
  by_contra other
  rw [solo_idle root m thread other] at resizes
  cases resizes

namespace Inv

theorem own {thread : Thread K V} (inv : Inv T t home answer (solo root m thread)) :
    ThreadInv T t home m (answer 0) thread := by
  have own := inv.threads 0
  rw [solo_self] at own
  exact own

theorem held {thread : Thread K V} (inv : Inv T t home answer (solo root m thread)) {a : RemotePtr} {i : Nat}
    {set : LinkedSet} (at_ : m.bucketAt a i = some set) (locked : m.locks set.lock = some .locked) :
    thread.Holds set.lock := by
  obtain ⟨c, holds⟩ := inv.holder at_ locked
  by_cases here : c = 0
  · rw [here, solo_self] at holds
    exact holds
  · rw [solo_idle root m thread here] at holds
    exact absurd holds not_holds_idle

theorem unlocked {thread : Thread K V} (inv : Inv T t home answer (solo root m thread)) {i : Nat} {set : LinkedSet}
    (at_ : m.bucketAt m.root.bucketStart i = some set) (free : ¬ thread.Holds set.lock) :
    m.locks set.lock = some .unlocked := by
  obtain ⟨w, word⟩ := Option.ne_none_iff_exists'.mp (inv.ground.shape.lock at_).2
  cases w with
  | unlocked => exact word
  | locked => exact absurd (inv.held at_ word) free
  | deleted => exact absurd word (inv.ground.live at_)

theorem solo_sound {thread thread' : Thread K V} {q : Place} {t' : Table K V} {home' : Home} {res' : HtRes V}
    (inv : Inv T t home answer (solo root m thread)) (sound : Sound T q t home m thread t' home' m' res' thread') :
    Inv T t' home' (Function.update answer 0 res') (solo root m' thread') := by
  have sound' : Sound T q t home (solo root m thread).mem ((solo root m thread).threads 0) t' home' m' res' thread' := by
    rw [solo_self]
    exact sound
  refine inv.sound (solo root m' thread') sound' ?_ rfl (solo_threads root m m' thread thread')
  intro _ _ c other pc resizes
  exact other (solo_resizing resizes)

theorem begin_ (inv : Inv T t home answer (solo root m .idle)) (thread : Thread K V)
    (own : ThreadInv T t home m (answer 0) thread) (nothing : ∀ p, ¬ thread.Holds p) :
    Inv T t home answer (solo root m thread) := by
  have quiet : Sound T (nowhere m) t home m .idle t home m (answer 0) thread := by
    refine .quiet inv.ground.shape own (fun p => iff_of_false (nothing p) not_holds_idle) ?_
    rintro _ ⟨pc, resizes⟩
    cases resizes
  have after := inv.solo_sound quiet
  rw [Function.update_eq_self] at after
  exact after

end Inv

/-! ## Operations -/

def SetPc.rank (m : Mem K V) : SetPc K V → Nat
  | .acquire => m.next + 5
  | .walk node => m.next - node.address + 4
  | .writeNode _ _ _ _ => 3
  | .readFirst _ _ => 2
  | .writeFirst _ _ => 1
  | .unlock _ => 0

def Pc.rank (m : Mem K V) : Pc K V → Nat
  | .readRoot => m.next + 7
  | .readBucket _ => m.next + 6
  | .inSet _ pc => pc.rank m

theorem Outcome.rank_lt {mine : RemotePtr → Prop} {set : LinkedSet} {fin : Bundles K V} {res : HtRes V} {self : Nat}
    {pc pc' : SetPc K V} (allocated : m.Allocated) (outcome : Outcome T m mine set op fin res pc)
    (stepped : setStep T self set op m pc = .ok (m', .inl pc')) : pc'.rank m' < pc.rank m := by
  cases setStep_branch stepped with
  | locks | spins => exact outcome.elim
  | @further node data found visited more =>
    obtain ⟨pre, post, _, path, nonempty, _⟩ := outcome
    obtain ⟨⟨r, n⟩, post, rfl⟩ := List.exists_cons_of_ne_nil nonempty
    obtain ⟨rfl, _, _, stored, grows, _⟩ := path
    obtain rfl : n = data := Option.some.inj (stored.symm.trans found)
    have low := allocated.nodes_lt r (by simp [stored])
    have away := grows more
    simp only [SetPc.rank]
    omega
  | last | found | write | append | writeNode | readFirst | writeFirst =>
    simp only [SetPc.rank]
    omega

omit [DecidableEq K] in
theorem walk_rank_lt (m : Mem K V) (p : RemotePtr) (l : RemotePtr) (w : LockType) :
    (SetPc.walk p : SetPc K V).rank (m.setLock l w) < (SetPc.acquire : SetPc K V).rank m := by
  simp only [SetPc.rank, Mem.next_setLock]
  omega

/-- What an operation will leave and return is known from the moment it starts. -/
theorem ClientEffect.outcome {res res' : HtRes V} {pc pc' : Pc K V} {t' : Table K V}
    (effect : ClientEffect T t m op res pc t' res' (.inl pc')) :
    (if pc'.inside then res' else (t'.apply T op).2) = (if pc.inside then res else (t.apply T op).2) ∧
      (if pc'.inside then t' else (t'.apply T op).1) = if pc.inside then t else (t.apply T op).1 := by
  cases effect with
  | outside before after => rw [before, after]; exact ⟨rfl, rfl⟩
  | win => exact ⟨rfl, rfl⟩
  | inner before after => rw [before, after]; exact ⟨rfl, rfl⟩

def Pc.AtRoot (T : Template K V) (m : Mem K V) (op : IhtOp K V) : Pc K V → Prop
  | .readRoot => True
  | .readBucket arr => arr = m.root
  | .inSet set _ => m.bucketAt m.root.bucketStart (T.keyhash op.key m.root.count) = some set

namespace Inv

variable {pool id : Nat} {pc : Pc K V}

theorem solo_client (pool : Nat) (inv : Inv T t home answer (solo root m (.running id op pc))) (atRoot : pc.AtRoot T m op) :
    ∃ t' home' res' m' next, clientStep T pool op m pc = .ok (m', next) ∧
      Inv T t' home' (Function.update answer 0 res') (solo root m' (.after id op next)) ∧
      ClientEffect T t m op (answer 0) pc t' res' next ∧
      ∀ pc', next = .inl pc' → pc'.AtRoot T m' op ∧ pc'.rank m' < pc.rank m := by
  have ground : Ground t home m := inv.ground
  obtain ⟨q, t', home', m', res', next, stepped, sound, effect⟩ := client_sound pool id ground inv.own
  refine ⟨t', home', res', m', next, stepped, inv.solo_sound sound, effect, ?_⟩
  rintro pc' rfl
  have root_eq := sound.change.root
  have at_eq := sound.change.bucketAt
  cases pc with
  | readRoot =>
    cases clientStep_branch stepped
    exact ⟨rfl, Nat.lt_succ_self _⟩
  | readBucket arr =>
    obtain rfl : arr = m.root := atRoot
    cases clientStep_branch stepped with
    | readBucket at_ => exact ⟨at_, Nat.lt_succ_self _⟩
  | inSet set pc =>
    have here : m.bucketAt m.root.bucketStart (T.keyhash op.key m.root.count) = some set := atRoot
    by_cases inside : pc.inside = true
    · have section_ : InSection T t home m (answer 0) set op pc := AtSet.section inv.own inside
      generalize goes : (Sum.inl pc' : Pc K V ⊕ HtRes V) = next at stepped
      cases clientStep_branch stepped with
      | goesOn went =>
        cases goes
        refine ⟨?_, section_.2.2.2.rank_lt inv.ground.shape.allocated went⟩
        simp only [Pc.AtRoot, root_eq, at_eq]
        exact here
      | returns went =>
        -- an operation with the lock never returns `REHASH_DELETED`
        cases effect with
        | outside before => rw [show (Pc.inSet set pc).inside = pc.inside from rfl, inside] at before; cases before
        | win => cases inside
        | inner before after =>
          unfold report at goes
          split at goes <;> cases goes
          cases after
    · obtain rfl : pc = .acquire := by cases pc <;> first | rfl | exact absurd rfl inside
      have open_ : m.locks set.lock = some .unlocked := inv.unlocked here (by simp [SetPc.inside])
      simp only [clientStep, setStep, Mem.compareAndSwap, open_, Option.map_some, if_true] at stepped
      cases stepped
      exact ⟨here, walk_rank_lt m _ _ _⟩

/-- An operation that runs alone ends, and returns what the table answers. -/
theorem finish (pool : Nat) {thread : Thread K V} (runs : thread = .running id op pc)
    (inv : Inv T t home answer (solo root m thread)) (atRoot : pc.AtRoot T m op) :
    ∃ fuel m' home' answer', Hashtable.finish T pool op fuel m pc =
        .ok (m', if pc.inside then answer 0 else (t.apply T op).2) ∧
      Inv T (if pc.inside then t else (t.apply T op).1) home' answer' (solo root m' .idle) := by
  subst runs
  generalize size : pc.rank m = n
  induction n using Nat.strongRecOn generalizing t home answer m pc with
  | ind n ih =>
    obtain ⟨t', home', res', m', next, stepped, inv', effect, goes⟩ := inv.solo_client pool atRoot
    cases next with
    | inr res =>
      cases effect with
      | done before =>
        refine ⟨1, m', home', Function.update answer 0 (answer 0), ?_, ?_⟩
        · simp only [Hashtable.finish, stepped, before, if_true]
        · rw [if_pos before]
          exact inv'
    | inl pc' =>
      obtain ⟨atRoot', closer⟩ := goes pc' rfl
      obtain ⟨fuel, m'', home'', answer'', done, after⟩ := ih _ (size ▸ closer) atRoot' inv' rfl
      obtain ⟨res_eq, table_eq⟩ := effect.outcome
      rw [Function.update_self, res_eq] at done
      rw [table_eq] at after
      refine ⟨fuel + 1, m'', home'', answer'', ?_, after⟩
      simp only [Hashtable.finish, stepped]
      exact done

theorem operation (pool : Nat) (op : IhtOp K V) (inv : Inv T t home answer (solo root m .idle)) :
    ∃ fuel m' home' answer', Hashtable.finish T pool op fuel m .readRoot = .ok (m', (t.apply T op).2) ∧
      Inv T (t.apply T op).1 home' answer' (solo root m' .idle) :=
  (inv.begin_ (.running 0 op .readRoot) trivial fun _ => not_holds_readRoot).finish pool rfl trivial

end Inv

end RdmaIht.Hashtable
