import RdmaIht.Concurrency.Termination
import RdmaIht.Iht.Alone
import RdmaIht.Iht.Progress

/-! What an operation can wait for.

Whatever the other threads do, a step of an operation brings it closer to its end,
unless it finds the lock of its bucket taken. Stale copies do not make it go back.
The thread that has taken a lock holds no other one and does not wait, so that
some thread can always go on.
-/

set_option autoImplicit false

namespace RdmaIht.Iht

open Concurrency

variable {K V : Type}

/-- The step is a `CompareAndSwap` of `acquire` that finds the lock taken. -/
def Pc.spins (T : Template K V) (op : IhtOp K V) (m : Mem K V) : Pc K V → Bool
  | .acquire t =>
    match t.curr.bucket m (T.levelHash op.key t.depth t.count) with
    | none => false
    | some pr => decide (m.locks pr.lock = some .eLocked)
  | _ => false

/-- A thread that has locked a bucket has locked that of its key, and one it has rehashed leads on. -/
structure Steers (T : Template K V) (op : IhtOp K V) (m : Mem K V) (pc : Pc K V) : Prop where
  bucket : ∀ {t p b}, pc.traversal = some t → pc.held = some (p, b) → T.index op.key t.depth = b
  rehashed : ∀ {t bb e}, pc = .afterRehash t bb e →
    m.Word t.beforeLocalizedCurr (T.index op.key t.depth) .pUnlocked

section Step

variable {T : Template K V} {pool : Nat} {root : RemotePtr} {op : IhtOp K V} {home : Home}
  {m m' : Mem K V} {pc pc' : Pc K V}

theorem Steers.within (steers : Steers T op m pc) {t t' : Traversal} {b : Nat} (at_ : pc.traversal = some t)
    (holds : pc.held = some (t.beforeLocalizedCurr, b)) (goes : pc'.traversal = some t') (same : t'.depth = t.depth)
    (holds' : pc'.held = some (t.beforeLocalizedCurr, b)) : Steers T op m' pc' where
  bucket := by
    intro t'' p b' at' held'
    cases goes.symm.trans at'
    cases holds'.symm.trans held'
    rw [same]
    exact steers.bucket at_ holds
  rehashed := by
    rintro t'' bb e rfl
    cases holds'

theorem Steers.free (free : pc'.held = none) (other : ∀ t bb e, pc' ≠ .afterRehash t bb e) : Steers T op m' pc' where
  bucket := by
    intro t p b _ held
    rw [free] at held
    cases held
  rehashed := by
    rintro t bb e same
    exact absurd same (other t bb e)

variable [DecidableEq K]

theorem Branch.steers (branch : Branch T pool root op m pc m' (.inl pc')) (shape : Shape T root home m)
    (inv : PcInv T root home m pool pc) (steers : Steers T op m pc) : Steers T op m' pc' := by
  cases branch with
  | readRoot | closed | spins | refetch | descendLocal | descendRemote | afterRehash | unlock =>
    exact .free rfl (by simp)
  | @locks t pr found free =>
    have located : Located T root home m t := inv
    refine ⟨?_, by simp⟩
    intro t' p b at_ held
    cases at_
    cases held
    rw [Template.bucketOf, located.levelHash_eq]
  | loadNull => exact steers.within rfl rfl (traversal_onEmpty) rfl (held_onEmpty _ _)
  | found => exact steers.within rfl rfl (traversal_onFound _ _) rfl (held_onFound _ _ _ _ _ _ _)
  | missing => exact steers.within rfl rfl (traversal_onMissing) rfl (held_onMissing _ _ _ _ _)
  | storeCount | dropCount =>
    exact steers.within rfl rfl (traversal_afterStore _) rfl (held_afterStore _ _ _ _ _)
  | @unlockPlist t b bb e newP pr found =>
    have located : Located T root home m t := inv.1
    obtain ⟨pr', stored, lock, _⟩ := located.bucket shape found
    refine { bucket := fun _ held => (by cases held), rehashed := fun same => ?_ }
    cases same
    rw [steers.bucket rfl rfl]
    exact ⟨pr', stored, by simp [Mem.locks_setLock, lock]⟩
  | _ => exact steers.within rfl rfl rfl rfl rfl

theorem Branch.of_spins {next : Pc K V ⊕ HtRes V} (branch : Branch T pool root op m pc m' next)
    (spins : pc.spins T op m = true) : m' = m ∧ next = .inl pc := by
  cases branch <;> try cases spins
  case closed t pr found free =>
    simp [Pc.spins, show t.curr.bucket m (T.levelHash op.key t.depth t.count) = _ from found, free] at spins
  case locks t pr found free =>
    simp [Pc.spins, show t.curr.bucket m (T.levelHash op.key t.depth t.count) = _ from found, free] at spins
  case spins => exact ⟨rfl, rfl⟩

/-- A step that does not find a lock taken comes closer to the end of the operation. -/
theorem Branch.closer (branch : Branch T pool root op m pc m' (.inl pc')) (shape : Shape T root home m)
    (inv : PcInv T root home m pool pc) (steers : Steers T op m pc) (moves : pc.spins T op m = false) :
    Closer T m op pc m' pc' := by
  have below : ∀ (t : Traversal) (bb : RemotePtr) (curr : PlistRef) (m₁ : Mem K V),
      Closer T m op (.descend t bb) m₁ (.acquire (t.down pool curr bb)) := by
    intro t bb curr m₁
    refine ⟨⟨_, rfl, .inr ⟨rfl, by simp [Pc.stage]⟩⟩, ?_, ?_⟩
    · simp only [Pc.stage]
      split <;> omega
    · intro t₁ t₂ at_ goes same
      cases at_
      cases goes
      simp [Traversal.down] at same
  have afterRehash := branch.steers shape inv steers
  cases branch with
  | readRoot =>
    refine ⟨⟨_, rfl, rfl⟩, ?_, fun _ _ none => (by cases none)⟩
    simp only [Pc.stage]
    split <;> omega
  | closed =>
    refine .here rfl rfl rfl ?_
    simp only [Pc.stage]
    split <;> omega
  | @locks t pr found free =>
    have located : Located T root home m t := inv
    obtain ⟨pr', stored, lock, _⟩ := located.bucket shape found
    rw [Template.bucketOf, located.levelHash_eq] at stored
    have word := Mem.lockWord_eq.mpr ⟨pr', stored, lock ▸ free⟩
    refine .here rfl rfl rfl ?_
    simp [Pc.stage, word]
  | spins found taken =>
    rw [Template.bucketOf] at found
    simp [Pc.spins, found, taken] at moves
  | descendLocal | descendRemote => exact below _ _ _ _
  | loadNull => exact And.right (onEmpty_progress rfl (by simp only [Pc.stage]; omega))
  | found => exact And.right (onFound_progress rfl (by simp only [Pc.stage]; omega))
  | turn stored live =>
    obtain ⟨el, stored', fits⟩ := inv.get
    cases stored.symm.trans stored'
    have room := Nat.lt_of_lt_of_le live (Nat.le_trans fits.1 fits.2)
    exact .here rfl rfl rfl (by simp only [Pc.stage]; omega)
  | move stored live =>
    obtain ⟨at_, _, _, ref, _⟩ := inv
    obtain ⟨el, stored', fits⟩ := ref.get at_.stored
    cases stored.symm.trans stored'
    have room := Nat.lt_of_lt_of_le live (Nat.le_trans fits.1 fits.2)
    exact .here rfl rfl rfl (by simp only [Pc.stage]; omega)
  | missing stored => exact (onMissing_progress stored rfl (by simp only [Pc.stage]; omega)).2
  | storeCount | dropCount => exact (afterStore_progress rfl (by simp [Pc.stage])).2
  | unlockPlist =>
    refine .here rfl rfl rfl ?_
    simp [Pc.stage, Mem.lockWord_eq.mpr (afterRehash.rehashed rfl)]
  | @afterRehash t bb e =>
    have ref : RefOk T pool bb e := inv.2
    have closed := Mem.lockWord_eq.mpr (steers.rehashed rfl)
    rw [ref.release_eq]
    refine .here rfl rfl rfl ?_
    simp [Pc.stage, closed]
  | _ => exact .here rfl rfl rfl (by simp only [Pc.stage]; omega)

end Step

/-! ## All threads -/

/-- What is known of a state beyond `Invariant`: the tree is as deep as `int` allows, and
all threads are on their way. -/
structure Moving (T : Template K V) (peer : Nat → Nat) (home : Home) (s : State K V) : Prop where
  invariant : Invariant T peer home s
  within : Within T 31 s.mem
  steers : ∀ {c id op pc}, s.threads c = .running id op pc → Steers T op s.mem pc

/-- The most steps the operation of a thread can still take that do not find a lock taken. -/
def Thread.rank (T : Template K V) (m : Mem K V) : Thread K V → Nat
  | .idle => 0
  | .running _ op pc => pc.rank T 31 m op

def Thread.spins (T : Template K V) (m : Mem K V) : Thread K V → Bool
  | .idle => false
  | .running _ op pc => pc.spins T op m

def Thread.after (id : Nat) (op : IhtOp K V) : Pc K V ⊕ HtRes V → Thread K V
  | .inl pc => .running id op pc
  | .inr _ => .idle

theorem exec_step [DecidableEq K] {T : Template K V} {peer : Nat → Nat} {s s' : State K V} {c : Nat}
    (enabled : exec T peer s (.step c) = some s') : ∃ id op pc next, s.threads c = .running id op pc ∧
      step T (peer c) s.root op s.mem pc = .ok (s'.mem, next) ∧ s'.ops = s.ops ∧
      s'.threads = Function.update s.threads c (.after id op next) := by
  rcases exec_cases enabled with ⟨_, _, same, _⟩ | ⟨c', id, op, pc, m, next, same, runs, stepped, ends⟩
  · cases same
  · cases same
    rcases ends with ⟨pc', rfl, rfl⟩ | ⟨res, rfl, rfl⟩ <;> exact ⟨id, op, pc, _, runs, stepped, rfl, rfl⟩

section State

variable {T : Template K V} {peer : Nat → Nat} {home : Home} {s s' : State K V}

theorem Moving.start (T : Template K V) (peer : Nat → Nat) (host : Nat) :
    Moving T peer (fun _ => none) (initial T host) where
  invariant := .start T peer host
  within := .start T host 31
  steers runs := by cases runs

theorem Moving.depth_le (plist : 2 ≤ T.plistSize) (moving : Moving T peer home s) {c id : Nat} {op : IhtOp K V}
    {pc : Pc K V} (runs : s.threads c = .running id op pc) {t : Traversal} (at_ : pc.traversal = some t) : t.depth ≤ 31 :=
  moving.within.depth_le plist (by decide) ((moving.invariant.points runs).located at_)

variable [DecidableEq K]

theorem Moving.word_open (plist : 2 ≤ T.plistSize) (elist : 1 ≤ T.elistSize) (moving : Moving T peer home s)
    {action : Action K V} (enabled : exec T peer s action = some s') {p : RemotePtr} {b : Nat}
    (word : s.mem.Word p b .pUnlocked) : s'.mem.Word p b .pUnlocked := by
  obtain ⟨pr, found, lock⟩ := word
  have lockOf : s.mem.lockOf (p, b) = some pr.lock := Option.map_eq_some_iff.mpr ⟨pr, found, rfl⟩
  obtain ⟨lockOf', lock'⟩ := moving.invariant.stays_open plist elist enabled lockOf lock
  obtain ⟨pr', found', same⟩ := Option.map_eq_some_iff.mp lockOf'
  exact ⟨pr', found', by rw [same]; exact lock'⟩

theorem Moving.next (plist : 2 ≤ T.plistSize) (elist : 1 ≤ T.elistSize) (moving : Moving T peer home s)
    {action : Action K V} (enabled : exec T peer s action = some s') : ∃ home', Moving T peer home' s' := by
  obtain ⟨home', invariant', _⟩ := moving.invariant.next plist elist enabled
  refine ⟨home', invariant', ?_, ?_⟩
  · rcases exec_cases enabled with ⟨c, op, rfl, idle, rfl⟩ | ⟨c, id, op, pc, m, next, rfl, runs, stepped, ends⟩
    · exact moving.within
    · have within : Within T 31 m := moving.within.step stepped fun _ _ _ _ _ _ buckets => T.size_of_buckets plist buckets
      rcases ends with ⟨pc', rfl, rfl⟩ | ⟨res, rfl, rfl⟩ <;> exact within
  · -- what another thread has rehashed stays so
    have others : ∀ {c' id' op' pc'}, s.threads c' = .running id' op' pc' → Steers T op' s'.mem pc' := by
      intro c' id' op' pc' runs'
      have before := moving.steers runs'
      exact ⟨before.bucket, fun same => moving.word_open plist elist enabled (before.rehashed same)⟩
    rcases exec_cases enabled with ⟨c, op, rfl, idle, rfl⟩ | ⟨c, id, op, pc, m, next, rfl, runs, stepped, ends⟩
    · intro c' id' op' pc' runs'
      dsimp only at runs'
      rw [Function.update_apply] at runs'
      split at runs'
      · cases runs'
        exact .free rfl (by simp)
      · exact others runs'
    · rcases ends with ⟨pc₁, rfl, rfl⟩ | ⟨res, rfl, rfl⟩
      · intro c' id' op' pc' runs'
        dsimp only at runs'
        rw [Function.update_apply] at runs'
        split at runs'
        · cases runs'
          exact (step_branch stepped).steers moving.invariant.shape (moving.invariant.points runs) (moving.steers runs)
        · exact others runs'
      · intro c' id' op' pc' runs'
        dsimp only at runs'
        rw [Function.update_apply] at runs'
        split at runs'
        · cases runs'
        · exact others runs'

theorem Moving.reachable (plist : 2 ≤ T.plistSize) (elist : 1 ≤ T.elistSize) {host : Nat}
    (reachable : Reachable (exec T peer) (initial T host) s) : ∃ home, Moving T peer home s := by
  refine Steps.invariant (P := fun s => ∃ home, Moving T peer home s) reachable ⟨_, .start T peer host⟩ ?_
  rintro u action u' ⟨home, moving⟩ _ enabled
  exact moving.next plist elist enabled

/-- A bucket that has come to lead on leaves less to do for an operation that is about to enter it. -/
theorem Moving.rank_le (plist : 2 ≤ T.plistSize) (elist : 1 ≤ T.elistSize) (moving : Moving T peer home s)
    {action : Action K V} (enabled : exec T peer s action = some s') (thread : Thread K V) :
    thread.rank T s'.mem ≤ thread.rank T s.mem := by
  cases thread with
  | idle => exact Nat.le_refl _
  | running id op pc =>
    have stage : pc.stage T s'.mem op ≤ pc.stage T s.mem op := by
      have opens : ∀ p b, s.mem.lockWord p b = some .pUnlocked → s'.mem.lockWord p b = some .pUnlocked := fun p b word =>
        Mem.lockWord_eq.mpr (moving.word_open plist elist enabled (Mem.lockWord_eq.mp word))
      cases pc with
      | acquire t | afterRehash t bb e =>
        simp only [Pc.stage]
        split
        · split <;> omega
        · next closed =>
          rw [if_neg (mt (opens _ _) closed)]
      | _ => exact Nat.le_refl _
    simp only [Thread.rank, Pc.rank]
    split
    · exact Nat.le_refl _
    · exact Nat.add_le_add_left stage _

theorem Moving.rank_lt (plist : 2 ≤ T.plistSize) (elist : 1 ≤ T.elistSize) (moving : Moving T peer home s) {c : Nat}
    (enabled : exec T peer s (.step c) = some s') (moves : (s.threads c).spins T s.mem = false) :
    (s'.threads c).rank T s'.mem < (s.threads c).rank T s.mem := by
  obtain ⟨home', moving'⟩ := moving.next plist elist enabled
  obtain ⟨id, op, pc, next, runs, stepped, _, threads⟩ := exec_step enabled
  have goes : s'.threads c = .after id op next := by rw [threads, Function.update_self]
  rw [runs] at moves ⊢
  rw [goes]
  cases next with
  | inl pc' =>
    have closer := (step_branch stepped).closer moving.invariant.shape (moving.invariant.points runs)
      (moving.steers runs) moves
    exact closer.rank_lt fun t at_ => moving'.depth_le plist goes at_
  | inr res =>
    have branch := step_branch stepped
    generalize s'.mem = m' at branch
    cases branch
    simp only [Thread.after, Thread.rank, Pc.rank, Pc.traversal, Pc.stage]
    omega

/-- A step that finds the lock taken changes nothing. -/
theorem exec_spins {c : Nat} (enabled : exec T peer s (.step c) = some s')
    (spins : (s.threads c).spins T s.mem = true) : s'.mem = s.mem ∧ s'.threads = s.threads := by
  obtain ⟨id, op, pc, next, runs, stepped, _, threads⟩ := exec_step enabled
  rw [runs] at spins
  obtain ⟨mem, rfl⟩ := (step_branch stepped).of_spins spins
  refine ⟨mem, ?_⟩
  rw [threads, show Thread.after id op (.inl pc) = s.threads c from runs.symm, Function.update_eq_self]

end State

/-! ## The work of an operation -/

section Work

variable [DecidableEq K] {T : Template K V} {peer : Nat → Nat} {home : Home} {s s' : State K V}

def Template.work (T : Template K V) : Nat := 31 * T.lap + 1

def countWork (T : Template K V) (s : State K V) (action : Action K V) (work : Nat → Nat) : Nat → Nat :=
  match action with
  | .invoke _ _ => work
  | .step c =>
    match s.threads c with
    | .idle => work
    | .running id op pc => if pc.spins T op s.mem then work else Function.update work id (work id + 1)

structure Counted (T : Template K V) (s : State K V) (work : Nat → Nat) : Prop where
  running : ∀ {c id op pc}, s.threads c = .running id op pc → id < s.ops ∧ work id + pc.rank T 31 s.mem op ≤ T.work
  distinct : ∀ {c c' id op op' pc pc'}, s.threads c = .running id op pc → s.threads c' = .running id op' pc' → c = c'
  fresh : ∀ id, s.ops ≤ id → work id = 0
  bounded : ∀ id, work id ≤ T.work

omit [DecidableEq K] in
theorem Counted.start (T : Template K V) (host : Nat) : Counted T (initial T host) fun _ => 0 where
  running runs := by cases runs
  distinct runs := by cases runs
  fresh _ _ := rfl
  bounded _ := Nat.zero_le _

omit [DecidableEq K] in
theorem Counted.invoked {work : Nat → Nat} (counted : Counted T s work) {c : Nat} (op : IhtOp K V) :
    Counted T { s with
      threads := Function.update s.threads c (.running s.ops op .readRoot)
      history := s.history ++ [.inv s.ops op]
      ops := s.ops + 1 } work := by
  have cases_ : ∀ {c' id' op' pc'}, Function.update s.threads c (.running s.ops op .readRoot) c' = .running id' op' pc' →
      (c' = c ∧ id' = s.ops ∧ op' = op ∧ pc' = .readRoot) ∨ (id' < s.ops ∧ s.threads c' = .running id' op' pc') := by
    intro c' id' op' pc' runs
    rw [Function.update_apply] at runs
    split at runs
    · next same =>
      cases runs
      exact .inl ⟨same, rfl, rfl, rfl⟩
    · exact .inr ⟨(counted.running runs).1, runs⟩
  refine ⟨?_, ?_, fun id past => counted.fresh id (Nat.le_of_succ_le past), counted.bounded⟩
  · intro c' id' op' pc' runs
    rcases cases_ runs with ⟨_, rfl, rfl, rfl⟩ | ⟨_, runs'⟩
    · refine ⟨Nat.lt_succ_self _, ?_⟩
      rw [counted.fresh s.ops (Nat.le_refl _)]
      simp only [Pc.rank, Pc.traversal, Template.work, Nat.zero_add, Nat.le_refl]
    · obtain ⟨old, bound⟩ := counted.running runs'
      exact ⟨Nat.lt_succ_of_lt old, bound⟩
  · intro c₁ c₂ id op₁ op₂ pc₁ pc₂ runs₁ runs₂
    rcases cases_ runs₁ with ⟨rfl, rfl, _⟩ | ⟨old, runs₁⟩ <;> rcases cases_ runs₂ with ⟨rfl, same, _⟩ | ⟨old', runs₂⟩
    · rfl
    · exact absurd old' (Nat.lt_irrefl _)
    · exact absurd (same ▸ old) (Nat.lt_irrefl _)
    · exact counted.distinct runs₁ runs₂

theorem Counted.stepped {work : Nat → Nat} (plist : 2 ≤ T.plistSize) (elist : 1 ≤ T.elistSize)
    (counted : Counted T s work) (moving : Moving T peer home s) {c : Nat} (enabled : exec T peer s (.step c) = some s') :
    Counted T s' (countWork T s (.step c) work) := by
  have others := moving.rank_le plist elist enabled
  have less := moving.rank_lt plist elist enabled
  have spins := exec_spins enabled
  obtain ⟨id, op, pc, next, runs, stepped, ops, threads⟩ := exec_step enabled
  obtain ⟨old, bound⟩ := counted.running runs
  rw [runs] at less spins
  -- a thread that runs has gone on with its operation
  have runs' : ∀ {c' id' op' pc'}, s'.threads c' = .running id' op' pc' →
      (c' = c ∧ id' = id) ∨ (c' ≠ c ∧ s.threads c' = .running id' op' pc') := by
    intro c' id' op' pc' runs'
    rw [threads, Function.update_apply] at runs'
    split at runs'
    · next same =>
      cases next <;> cases runs'
      exact .inl ⟨same, rfl⟩
    · next other => exact .inr ⟨other, runs'⟩
  have spent : ∀ id', id' ≠ id → countWork T s (.step c) work id' = work id' := by
    intro id' other
    simp only [countWork, runs]
    split
    · rfl
    · exact Function.update_of_ne other _ _
  have mine : countWork T s (.step c) work id + (s'.threads c).rank T s'.mem ≤ work id + pc.rank T 31 s.mem op := by
    simp only [countWork, runs]
    split
    · next taken =>
      obtain ⟨mem, same⟩ := spins taken
      rw [mem, same, runs]
      exact Nat.le_refl _
    · next moves =>
      have fewer := less (Bool.eq_false_iff.mpr moves)
      rw [Function.update_self]
      simp only [Thread.rank] at fewer ⊢
      omega
  refine ⟨?_, ?_, ?_, ?_⟩
  · intro c' id' op' pc' after
    rw [ops]
    rcases runs' after with ⟨rfl, rfl⟩ | ⟨other, before⟩
    · rw [after] at mine
      exact ⟨old, Nat.le_trans mine bound⟩
    · obtain ⟨old', bound'⟩ := counted.running before
      refine ⟨old', ?_⟩
      rw [spent id' (fun same => other (counted.distinct before (same ▸ runs)))]
      exact Nat.le_trans (Nat.add_le_add_left (others (.running id' op' pc')) _) bound'
  · intro c₁ c₂ id' op₁ op₂ pc₁ pc₂ after₁ after₂
    rcases runs' after₁ with ⟨rfl, rfl⟩ | ⟨_, before₁⟩ <;> rcases runs' after₂ with ⟨rfl, same⟩ | ⟨_, before₂⟩
    · rfl
    · exact counted.distinct runs before₂
    · exact counted.distinct before₁ (same ▸ runs)
    · exact counted.distinct before₁ before₂
  · intro id' past
    rw [ops] at past
    rw [spent id' (by omega)]
    exact counted.fresh id' past
  · intro id'
    by_cases same : id' = id
    · subst same
      omega
    · rw [spent id' same]
      exact counted.bounded id'

/-- In every run an operation makes at most `31 * (2 * ELIST_SIZE + 30) + 1` steps that do not find a lock taken,
however the other threads interleave with it. -/
theorem work_bounded (T : Template K V) (plist : 2 ≤ T.plistSize) (elist : 1 ≤ T.elistSize) (peer : Nat → Nat)
    (host : Nat) {s : State K V} {work : Nat → Nat}
    (reachable : Reachable (logged (exec T peer) (countWork T)) (initial T host, fun _ => 0) (s, work)) (id : Nat) :
    work id ≤ 31 * (2 * T.elistSize + 30) + 1 := by
  obtain ⟨_, counted⟩ : (∃ home, Moving T peer home s) ∧ Counted T s work := by
    refine reachable.invariant (P := fun at_ => (∃ home, Moving T peer home at_.1) ∧ Counted T at_.1 at_.2)
      ⟨⟨_, .start T peer host⟩, .start T host⟩ ?_
    rintro ⟨u, log⟩ action _ ⟨⟨home, moving⟩, counted⟩ _ enabled
    obtain ⟨u', stepped, rfl⟩ := Option.map_eq_some_iff.mp enabled
    refine ⟨moving.next plist elist stepped, ?_⟩
    cases action with
    | invoke c op =>
      rcases exec_cases stepped with ⟨_, _, same, _, rfl⟩ | ⟨_, _, _, _, _, _, same, _⟩
      · cases same
        exact counted.invoked op
      · cases same
    | step c => exact counted.stepped plist elist moving stepped
  exact counted.bounded id

/-- Client 0 has locked the bucket, and client 1 has tried four times. -/
def contended : List (Action (BitVec 32) (BitVec 32)) :=
  [.invoke 0 (.insert 1 10), .invoke 1 (.contains 1)] ++ List.replicate 2 (.step 0) ++ List.replicate 5 (.step 1)

theorem work_bounded_contended : ∃ s work, runAll (logged (exec (intTemplate 1 2) fun c => c) (countWork (intTemplate 1 2)))
      (initial (intTemplate 1 2) 0, fun _ => 0) contended = some (s, work) ∧ work 1 = 1 ∧ work 1 ≤ 993 := by
  have ran : ((runAll (logged (exec (intTemplate 1 2) fun c => c) (countWork (intTemplate 1 2)))
      (initial (intTemplate 1 2) 0, fun _ => 0) contended).any fun at_ => at_.2 1 = 1) = true := by decide +kernel
  obtain ⟨⟨s, work⟩, final, once⟩ := (Option.any_eq_true _ _).mp ran
  exact ⟨s, work, final, by simpa using once, work_bounded (intTemplate 1 2) (by decide) (by decide) (fun c => c) 0
    (reachable_of_runAll _ final) 1⟩

end Work

/-! ## Some thread goes on -/

section Free

variable [DecidableEq K] {T : Template K V} {peer : Nat → Nat} {home : Home} {s s' : State K V}

def move (T : Template K V) (peer : Nat → Nat) (s : State K V) (c : Nat) : Option (State K V) :=
  if (s.threads c).spins T s.mem then none else exec T peer s (.step c)

theorem move_eq_some {c : Nat} (moved : move T peer s c = some s') :
    (s.threads c).spins T s.mem = false ∧ exec T peer s (.step c) = some s' := by
  unfold move at moved
  split at moved
  · cases moved
  · next moves => exact ⟨Bool.eq_false_iff.mpr moves, moved⟩

/-- A thread cannot go on because the length of a P-List leaves `int`. -/
def Overflowing (T : Template K V) (s : State K V) : Prop :=
  ∃ c id op pc, s.threads c = .running id op pc ∧ pc.Overflows T

theorem Moving.runs_on (plist : 2 ≤ T.plistSize) (elist : 1 ≤ T.elistSize) (moving : Moving T peer home s) {c id : Nat}
    {op : IhtOp K V} {pc : Pc K V} (runs : s.threads c = .running id op pc) (moves : pc.spins T op s.mem = false) :
    Overflowing T s ∨ ∃ s', move T peer s c = some s' := by
  rcases step_safe op plist elist moving.invariant.shape (moving.invariant.points runs) with
    ⟨overflows, _⟩ | ⟨m', next, _, _, stepped, _⟩
  · exact .inl ⟨c, id, op, pc, runs, overflows⟩
  · right
    cases next <;> simp [move, runs, Thread.spins, moves, exec, stepped]

/-- If a thread finds a lock taken, the one that has taken it can go on. -/
theorem Moving.some_moves (plist : 2 ≤ T.plistSize) (elist : 1 ≤ T.elistSize) (moving : Moving T peer home s) {c : Nat}
    (busy : s.threads c ≠ .idle) : Overflowing T s ∨ ∃ c' s', move T peer s c' = some s' := by
  cases runs : s.threads c with
  | idle => exact absurd runs busy
  | running id op pc =>
    cases moves : pc.spins T op s.mem with
    | false => exact (moving.runs_on plist elist runs moves).imp_right fun on => ⟨c, on⟩
    | true =>
      cases pc with
      | acquire t =>
        simp only [Pc.spins] at moves
        split at moves
        · cases moves
        · next pr found =>
          have taken := of_decide_eq_true moves
          have located : Located T s.root home s.mem t := moving.invariant.points runs
          obtain ⟨pr', stored, lock, _⟩ := located.bucket moving.invariant.shape found
          obtain ⟨c', id', op', pc', runs', holds⟩ := moving.invariant.holder ⟨pr', stored, lock ▸ taken⟩
          -- whoever holds a lock is not at an `acquire`
          have moves' : pc'.spins T op' s.mem = false := by
            cases pc' <;> first | rfl | cases holds
          exact (moving.runs_on plist elist runs' moves').imp_right fun on => ⟨c', on⟩
      | _ => cases moves

def Few (n : Nat) (s : State K V) : Prop := ∀ c, n ≤ c → s.threads c = .idle

theorem Few.reachable {host : Nat} (reachable : Reachable (exec T peer) (initial T host) s) : ∃ n, Few n s := by
  refine Steps.invariant (P := fun s => ∃ n, Few n s) reachable ⟨0, fun _ _ => rfl⟩ ?_
  rintro u action u' ⟨n, few⟩ _ enabled
  rcases exec_cases enabled with ⟨c, op, rfl, idle, rfl⟩ | ⟨c, id, op, pc, m, next, rfl, runs, stepped, ends⟩
  · refine ⟨max n (c + 1), fun c' past => ?_⟩
    dsimp only
    rw [Function.update_of_ne (by omega)]
    exact few c' (by omega)
  · have inside : c < n := by
      by_contra past
      rw [few c (by omega)] at runs
      cases runs
    refine ⟨n, fun c' past => ?_⟩
    have other : c' ≠ c := by omega
    rcases ends with ⟨pc', _, rfl⟩ | ⟨res, _, rfl⟩
    all_goals
      dsimp only
      rw [Function.update_of_ne other]
      exact few c' past

def stepsLeft (T : Template K V) (n : Nat) (s : State K V) : Nat :=
  ∑ c ∈ Finset.range n, (s.threads c).rank T s.mem

theorem move_lowers (plist : 2 ≤ T.plistSize) (elist : 1 ≤ T.elistSize) (n : Nat) :
    Lowers (move T peer) (fun s => (∃ home, Moving T peer home s) ∧ Few n s) (stepsLeft T n) where
  keep := by
    rintro u c u' ⟨⟨home, moving⟩, few⟩ moved
    obtain ⟨_, enabled⟩ := move_eq_some moved
    refine ⟨moving.next plist elist enabled, fun c' past => ?_⟩
    obtain ⟨id, op, pc, next, runs, _, _, threads⟩ := exec_step enabled
    have other : c' ≠ c := by
      rintro rfl
      rw [few c' past] at runs
      cases runs
    rw [threads, Function.update_of_ne other]
    exact few c' past
  lower := by
    rintro u c u' ⟨⟨home, moving⟩, few⟩ moved
    obtain ⟨moves, enabled⟩ := move_eq_some moved
    have less := moving.rank_lt plist elist enabled moves
    obtain ⟨id, op, pc, next, runs, _, _, threads⟩ := exec_step enabled
    have inside : c < n := by
      by_contra past
      rw [few c (by omega)] at runs
      cases runs
    refine Finset.sum_lt_sum (fun c' _ => ?_) ⟨c, Finset.mem_range.mpr inside, less⟩
    by_cases same : c' = c
    · subst same
      exact Nat.le_of_lt less
    · rw [threads, Function.update_of_ne same]
      exact moving.rank_le plist elist enabled _

/-- Without new operations all running ones can return, unless the length of a P-List leaves `int`. -/
theorem Moving.drains (plist : 2 ≤ T.plistSize) (elist : 1 ≤ T.elistSize) (moving : Moving T peer home s) {n : Nat}
    (few : Few n s) : ∃ s', Steps (exec T peer) (fun _ action => ∃ c, action = .step c) s s' ∧
      ((∀ c, s'.threads c = .idle) ∨ Overflowing T s') := by
  have lowers : Lowers (move T peer) _ _ := move_lowers plist elist n
  obtain ⟨s', run, stuck⟩ := lowers.exists_stuck ⟨⟨home, moving⟩, few⟩
  obtain ⟨⟨home', moving'⟩, _⟩ := lowers.reachable ⟨⟨home, moving⟩, few⟩ run
  have steps : Steps (exec T peer) (fun _ action => ∃ c, action = .step c) s s' :=
    run.simulate id fun u c u' _ moved => .step (.step c) (.refl u) ⟨c, rfl⟩ (move_eq_some moved).2
  refine ⟨s', steps, ?_⟩
  by_cases idle : ∀ c, s'.threads c = .idle
  · exact .inl idle
  · obtain ⟨c, busy⟩ := Classical.not_forall.mp idle
    rcases moving'.some_moves plist elist busy with overflowing | ⟨c', s'', moved⟩
    · exact .inr overflowing
    · rw [stuck c'] at moved
      cases moved

/-- Whenever an operation runs, some operation can make a step that does not find a lock taken; and
without new operations all running ones can return, unless the length of a P-List leaves `int`. -/
theorem deadlock_free (T : Template K V) (plist : 2 ≤ T.plistSize) (elist : 1 ≤ T.elistSize) (peer : Nat → Nat)
    (host : Nat) {s : State K V} (reachable : Reachable (exec T peer) (initial T host) s) :
    ((∃ c, s.threads c ≠ .idle) → Overflowing T s ∨
      ∃ c s', (s.threads c).spins T s.mem = false ∧ exec T peer s (.step c) = some s') ∧
    ∃ s', Steps (exec T peer) (fun _ action => ∃ c, action = .step c) s s' ∧
      ((∀ c, s'.threads c = .idle) ∨ Overflowing T s') := by
  obtain ⟨home, moving⟩ := Moving.reachable plist elist reachable
  obtain ⟨n, few⟩ := Few.reachable reachable
  refine ⟨?_, moving.drains plist elist few⟩
  rintro ⟨c, busy⟩
  refine (moving.some_moves plist elist busy).imp_right ?_
  rintro ⟨c', s', moved⟩
  exact ⟨c', s', move_eq_some moved⟩

theorem deadlock_free_contended : ∃ s, runAll (exec (intTemplate 1 2) fun c => c) (initial (intTemplate 1 2) 0)
      contended = some s ∧ (s.threads 1).spins (intTemplate 1 2) s.mem = true ∧
    ∃ s', Steps (exec (intTemplate 1 2) fun c => c) (fun _ action => ∃ c, action = .step c) s s' ∧
      ((∀ c, s'.threads c = .idle) ∨ Overflowing (intTemplate 1 2) s') := by
  have ran : ((runAll (exec (intTemplate 1 2) fun c => c) (initial (intTemplate 1 2) 0) contended).any
      fun s => (s.threads 1).spins (intTemplate 1 2) s.mem) = true := by decide +kernel
  obtain ⟨s, final, spins⟩ := (Option.any_eq_true _ _).mp ran
  exact ⟨s, final, spins, (deadlock_free (intTemplate 1 2) (by decide) (by decide) (fun c => c) 0
    (reachable_of_runAll _ final)).2⟩

end Free

end RdmaIht.Iht
