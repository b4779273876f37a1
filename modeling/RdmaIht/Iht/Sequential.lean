import RdmaIht.Iht.Linearizability

/-! `RdmaIHT` with one operation at a time.

Nobody else changes a bucket between the copy an operation makes and its lock, so
the copy is current when the lock is won. What holds at each point of an operation
that runs alone is the invariant of the machine with one thread, together with
that fact about its copy.
-/

set_option autoImplicit false

namespace RdmaIht.Iht

open Concurrency

variable {K V : Type} [DecidableEq K]

section Run

variable (T : Template K V) (root : RemotePtr)

/-- The rest of an operation, in at most `fuel` steps. -/
def finish (pool : Nat) (op : IhtOp K V) : Nat → Mem K V → Pc K V → Except Fault (Mem K V × HtRes V)
  | 0, _, _ => .error .outOfFuel
  | fuel + 1, m, pc =>
    match step T pool root op m pc with
    | .error fault => .error fault
    | .ok (m, .inl pc) => finish pool op fuel m pc
    | .ok (m, .inr res) => .ok (m, res)

/-- Calls made in turn, each on the pool of the client that makes it. -/
def operations (fuel : Nat) (m : Mem K V) :
    List (Nat × IhtOp K V) → Except Fault (Mem K V × List (HtRes V))
  | [] => .ok (m, [])
  | (pool, op) :: rest => do
    let (m, res) ← finish T root pool op fuel m .readRoot
    let (m, results) ← operations fuel m rest
    return (m, res :: results)

def advance (pool : Nat) (op : IhtOp K V) (at_ : Mem K V × Pc K V) (_ : Unit) : Option (Mem K V × Pc K V) :=
  match step T pool root op at_.1 at_.2 with
  | .ok (m, .inl pc) => some (m, pc)
  | _ => none

end Run

def solo (root : RemotePtr) (m : Mem K V) (thread : Thread K V) : State K V where
  mem := m
  root := root
  threads := Function.update (fun _ => .idle) 0 thread
  history := []
  ops := 0

/-- No operation runs, and the table holds the map `σ`. -/
structure Between (T : Template K V) (root : RemotePtr) (home : Home) (σ : FiniteMap K V) (m : Mem K V) :
    Prop where
  safe : Invariant T (fun _ => 0) home (solo root m .idle)
  content : Content T root home m σ

/-- What an operation that runs alone knows beyond its assertion: a copy is current,
a bucket it has rehashed leads on, and it rehashes full E-Lists only. -/
def Current (T : Template K V) (m : Mem K V) (op : IhtOp K V) : Pc K V → Prop
  | .acquire t => ∀ pr pr', t.curr.bucket m (T.index op.key t.depth) = some pr →
      m.bucket t.beforeLocalizedCurr (T.index op.key t.depth) = some pr' →
      m.locks pr'.lock ≠ some .pUnlocked → pr = pr'
  | .afterRehash t _ _ => m.Word t.beforeLocalizedCurr (T.index op.key t.depth) .pUnlocked
  | .newPlist _ _ _ e => ∀ el, e.get m = some el → T.elistSize ≤ el.count
  | _ => True

omit [DecidableEq K] in
/-- An operation that runs alone sees one map until it takes effect. -/
def Only (σ : FiniteMap K V) (before : FiniteMap K V) : Prop := before = σ

/-- An operation that started in the map `σ` runs alone on `pool`; the table holds `τ`. -/
structure Solo (T : Template K V) (root : RemotePtr) (pool : Nat) (op : IhtOp K V) (home : Home)
    (σ τ : FiniteMap K V) (m : Mem K V) (pc : Pc K V) : Prop where
  safe : Invariant T (fun _ => pool) home (solo root m (.running 0 op pc))
  content : Content T root home m τ
  point : PcContent T root home m τ (Only σ) op pc
  before : pc.answer = none → τ = σ
  after : ∀ res, pc.answer = some res → T.spec.apply σ op = (τ, res)

variable {T : Template K V} {root : RemotePtr} {pool : Nat} {op : IhtOp K V} {home : Home}
  {σ τ : FiniteMap K V} {m m' : Mem K V} {pc : Pc K V}

omit [DecidableEq K] in
@[simp] theorem solo_threads (thread : Thread K V) : (solo root m thread).threads 0 = thread := by
  simp [solo]

omit [DecidableEq K] in
theorem solo_running {thread : Thread K V} {c id : Nat} (runs : (solo root m thread).threads c = .running id op pc) :
    c = 0 ∧ thread = .running id op pc := by
  simp only [solo, Function.update_apply] at runs
  split at runs
  · next here => exact ⟨here, runs⟩
  · cases runs

omit [DecidableEq K] in
theorem Invariant.own (safe : Invariant T (fun _ => pool) home (solo root m (.running 0 op pc))) {p : RemotePtr} {b : Nat}
    (locked : m.Word p b .eLocked) : pc.held = some (p, b) := by
  obtain ⟨c, id, op', pc', runs, held⟩ := safe.holder locked
  cases (solo_running runs).2
  exact held

theorem Between.start (T : Template K V) (host : Nat) :
    Between T (initial T host).root (fun _ => none) .empty (initial T host).mem where
  safe :=
    { shape := .start T host
      points := fun runs => by cases (solo_running runs).2
      exclusive := fun runs => by cases (solo_running runs).2
      holder := fun locked => by
        obtain ⟨_, _, _, _, runs, _⟩ := (Invariant.start T (fun _ => 0) host).holder locked
        cases runs }
  content := .start T host

namespace Between

theorem shape (between : Between T root home σ m) : Shape T root home m := between.safe.shape

theorem unlocked (between : Between T root home σ m) {p : RemotePtr} {b : Nat} : ¬ m.Word p b .eLocked := by
  intro locked
  obtain ⟨c, id, op, pc, runs, _⟩ := between.safe.holder locked
  cases (solo_running runs).2

theorem solo (between : Between T root home σ m) (pool : Nat) (op : IhtOp K V) :
    Solo T root pool op home σ σ m .readRoot where
  safe :=
    { shape := between.shape
      points := by
        intro c id op' pc runs
        cases (solo_running runs).2
        trivial
      exclusive := by
        intro c c' id id' op₁ op₂ pc₁ pc₂ x runs runs' _ _
        rw [(solo_running runs).1, (solo_running runs').1]
      holder := fun locked => absurd locked between.unlocked }
  content := between.content
  point := trivial
  before _ := rfl
  after _ answered := by cases answered

end Between

namespace Solo

theorem shape (alone : Solo T root pool op home σ τ m pc) : Shape T root home m := alone.safe.shape

theorem inv (alone : Solo T root pool op home σ τ m pc) : PcInv T root home m pool pc :=
  alone.safe.points (solo_threads _)

theorem fresh (alone : Solo T root pool op home σ τ m pc) (current : Current T m op pc) : FreshWin T m op pc := by
  intro _ t acquires pr found pr' stored word null
  cases pc with
  | acquire t' =>
    cases acquires
    have located : Located T root home m t := alone.inv
    rw [located.levelHash_eq] at found stored
    rw [← current pr pr' found stored (by rw [word]; simp), null]
  | _ => cases acquires

/-- A step keeps what is known, or returns the result of the map. -/
theorem next (plist : 2 ≤ T.plistSize) (elist : 1 ≤ T.elistSize) (alone : Solo T root pool op home σ τ m pc)
    (current : Current T m op pc) {next : Pc K V ⊕ HtRes V} (stepped : step T pool root op m pc = .ok (m', next)) :
    ∃ home', (∀ pc', next = .inl pc' → ∃ τ', Solo T root pool op home' σ τ' m' pc') ∧
      ∀ res, next = .inr res → res = (T.spec.apply σ op).2 ∧
        Between T root home' (T.spec.apply σ op).1 m' := by
  obtain ⟨home', touch, sound⟩ := alone.safe.sound plist elist (solo_threads _) stepped
  have now : Only σ σ := rfl
  have goes : ∀ pc', next = .inl pc' →
      Invariant T (fun _ => pool) home' (solo root m' (.running 0 op pc')) := by
    rintro pc' rfl
    refine alone.safe.sound_step (solo_threads _) sound rfl rfl ?_ ?_ ?_
    · intro id op' pc'' runs
      cases (solo_running runs).2
      rfl
    · intro pc'' same
      cases same
      simp
    · intro c other
      simp [solo, other]
  rcases (step_branch stepped).answers with ⟨res, done, rfl⟩ | ⟨t, b, held, res, rfl, rfl⟩ | ⟨waiting, inner, pc', rfl, undone⟩
  · -- the operation took effect before
    have quiet : pc.unlocks = false := by cases pc <;> first | rfl | cases done
    have effect := alone.after res done
    have content := alone.content.keep alone.shape alone.inv sound (sound.locked quiet)
    refine ⟨home', by simp, ?_⟩
    rintro res' same
    cases same
    rw [effect]
    refine ⟨rfl, ?_, content⟩
    refine ⟨sound.shape, fun runs => (by cases (solo_running runs).2), fun runs => (by cases (solo_running runs).2), ?_⟩
    intro p b locked
    rcases sound.flow p b locked with now | ⟨other, was⟩
    · cases now
    · exact absurd (alone.safe.own was) other
  · -- the operation takes effect by opening its bucket
    obtain rfl := alone.before rfl
    obtain ⟨τ', effect, content, _⟩ := step_content alone.shape alone.content now alone.inv alone.point
      (alone.fresh current) stepped sound
    refine ⟨home', ?_, by simp⟩
    rintro pc' same
    cases same
    refine ⟨τ', goes _ rfl, content, trivial, fun none => (by cases none), ?_⟩
    rintro res' answered
    cases answered
    cases effect with
    | keep inner => exact absurd rfl (inner t b held res)
    | now => rfl
    | past _ _ _ seen quiet =>
      cases seen
      exact quiet
  · -- neither an answer nor the opening of a bucket: the map stays
    obtain rfl := alone.before waiting
    obtain ⟨τ', effect, content, point⟩ := step_content alone.shape alone.content now alone.inv alone.point
      (alone.fresh current) stepped sound
    obtain rfl : τ' = τ := by
      rcases effect.same_or_unlock with same | ⟨t, b, held, res, rfl⟩
      · exact same
      · exact absurd rfl (inner t b held res)
    refine ⟨home', ?_, by simp⟩
    rintro pc'' same
    cases same
    exact ⟨τ', goes _ rfl, content, point pc' rfl, fun _ => rfl, fun res answered => by rw [undone] at answered; cases answered⟩

end Solo

end RdmaIht.Iht
