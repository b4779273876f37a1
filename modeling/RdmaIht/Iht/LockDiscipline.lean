import RdmaIht.Iht.Progress

/-! The lock discipline of `RdmaIHT`.

A log kept beside the machine gives for each client the locks it has acquired and
not yet unlocked. It is read off the swaps of `acquire` and the writes of `unlock`
alone. The log agrees with the lock words and with the points of the threads.
-/

set_option autoImplicit false

namespace RdmaIht.Iht

open Concurrency

variable {K V : Type}

/-- A successful swap of `acquire`, or the write of `unlock`. -/
inductive LockStep where
  | acquired (lock : RemotePtr)
  | unlocked (lock : RemotePtr)

def Pc.lockStep (T : Template K V) (op : IhtOp K V) (m : Mem K V) : Pc K V → Option LockStep
  | .acquire t => (t.curr.bucket m (T.bucketOf op t)).bind fun pr =>
      if m.locks pr.lock = some .eUnlocked then some (.acquired pr.lock) else none
  | .unlock t bucket _ _ | .unlockPlist t bucket _ _ _ =>
      (t.curr.bucket m bucket).map fun pr => .unlocked pr.lock
  | _ => none

/-- The locks each client has acquired and not unlocked since. -/
abbrev Locks := Nat → List RemotePtr

def Locks.note (held : Locks) (c : Nat) : Option LockStep → Locks
  | some (.acquired lock) => Function.update held c (lock :: held c)
  | some (.unlocked lock) => Function.update held c ((held c).erase lock)
  | none => held

def noteLocks (T : Template K V) (s : State K V) (action : Action K V) (held : Locks) : Locks :=
  match action with
  | .invoke _ _ => held
  | .step c =>
    match s.threads c with
    | .idle => held
    | .running _ op pc => held.note c (pc.lockStep T op s.mem)

structure LockDiscipline (s : State K V) (held : Locks) : Prop where
  locked : ∀ p b pr, s.mem.bucket p b = some pr →
    (s.mem.locks pr.lock = some .eLocked ↔ ∃! c, pr.lock ∈ held c)
  alone : ∀ c c' lock, lock ∈ held c → lock ∈ held c' → c = c'
  single : ∀ c, (held c).length ≤ 1
  returned : ∀ c, s.threads c = .idle → held c = []

/-! ## The log and the points of the threads -/

section Step

variable {T : Template K V} {pool : Nat} {root : RemotePtr} {op : IhtOp K V} {m m' : Mem K V}
  {pc : Pc K V} {next : Pc K V ⊕ HtRes V} {lock : RemotePtr}

theorem held_onFound (t : Traversal) (b : Nat) (bb : RemotePtr) (e : ElistRef K V) (el : EList K V) (i : Nat)
    (pair : Pair K V) : (onFound T op t b bb e el i pair).held = some (t.beforeLocalizedCurr, b) := by
  cases op <;> simp only [onFound] <;> first | rfl | (split <;> rfl)

theorem held_onMissing (t : Traversal) (b : Nat) (bb : RemotePtr) (e : ElistRef K V) (el : EList K V) :
    (onMissing T op t b bb e el).held = some (t.beforeLocalizedCurr, b) := by
  cases op <;> simp only [onMissing] <;> first | rfl | (split <;> rfl)

theorem held_onEmpty (t : Traversal) (b : Nat) : (onEmpty T op t b).held = some (t.beforeLocalizedCurr, b) := by
  cases op <;> rfl

variable [DecidableEq K]

theorem Branch.of_acquired (branch : Branch T pool root op m pc m' next)
    (takes : pc.lockStep T op m = some (.acquired lock)) : pc.held = none ∧ ∃ (t : Traversal) (b : Nat)
      (pr : PlistPair), pc = .acquire t ∧ t.curr.bucket m b = some pr ∧ pr.lock = lock ∧
        heldNext next = some (t.beforeLocalizedCurr, b) := by
  cases branch <;> try cases takes
  case closed t pr found word => simp [Pc.lockStep, found, word] at takes
  case spins t pr found word => simp [Pc.lockStep, found, word] at takes
  case locks t pr found word =>
    have same : pr.lock = lock := by simpa [Pc.lockStep, found, word] using takes
    exact ⟨rfl, t, _, pr, rfl, found, same, rfl⟩
  case unlock t b held res pr found stored => simp [Pc.lockStep, found] at takes
  case unlockPlist t b bb e newP pr found stored => simp [Pc.lockStep, found] at takes

theorem Branch.of_unlocked (branch : Branch T pool root op m pc m' next)
    (gives : pc.lockStep T op m = some (.unlocked lock)) : heldNext next = none ∧ ∃ (t : Traversal) (b : Nat)
      (pr : PlistPair), pc.traversal = some t ∧ pc.held = some (t.beforeLocalizedCurr, b) ∧
        t.curr.bucket m b = some pr ∧ pr.lock = lock := by
  cases branch <;> try cases gives
  case closed t pr found word => simp [Pc.lockStep, found, word] at gives
  case spins t pr found word => simp [Pc.lockStep, found, word] at gives
  case locks t pr found word => simp [Pc.lockStep, found, word] at gives
  case unlock t b held res pr found stored =>
    have same : pr.lock = lock := by simpa [Pc.lockStep, found] using gives
    exact ⟨rfl, t, b, pr, rfl, rfl, found, same⟩
  case unlockPlist t b bb e newP pr found stored =>
    have same : pr.lock = lock := by simpa [Pc.lockStep, found] using gives
    exact ⟨rfl, t, b, pr, rfl, rfl, found, same⟩

theorem Branch.of_other (branch : Branch T pool root op m pc m' next) (other : pc.lockStep T op m = none) :
    heldNext next = pc.held := by
  cases branch <;> try rfl
  case locks t pr found word => simp [Pc.lockStep, found, word] at other
  case unlock t b held res pr found stored => simp [Pc.lockStep, found] at other
  case unlockPlist t b bb e newP pr found stored => simp [Pc.lockStep, found] at other
  case loadNull => exact held_onEmpty _ _
  case found => exact held_onFound _ _ _ _ _ _ _
  case missing => exact held_onMissing _ _ _ _ _
  case storeCount => exact held_afterStore _ _ _ _ _
  case dropCount => exact held_afterStore _ _ _ _ _

end Step

def Thread.held : Thread K V → Option (RemotePtr × Nat)
  | .idle => none
  | .running _ _ pc => pc.held

def Mem.lockOf (m : Mem K V) (x : RemotePtr × Nat) : Option RemotePtr := (m.bucket x.1 x.2).map (·.lock)

def Agrees (s : State K V) (held : Locks) : Prop :=
  ∀ c, held c = ((s.threads c).held.bind s.mem.lockOf).toList

section Agrees

variable {T : Template K V} {peer : Nat → Nat} {home home' : Home} {s s' : State K V} {held : Locks}

theorem Change.lockOf {touch : RemotePtr → Nat → Prop} {m m' : Mem K V} (change : Change touch home home' m m')
    {x : RemotePtr × Nat} {lock : RemotePtr} (was : m.lockOf x = some lock) : m'.lockOf x = some lock := by
  obtain ⟨pr, found, rfl⟩ := Option.map_eq_some_iff.mp was
  obtain ⟨pr', now, same, _⟩ := change.bucket found
  exact Option.map_eq_some_iff.mpr ⟨pr', now, same⟩

theorem Located.lockOf {root : RemotePtr} {m : Mem K V} {t : Traversal} (located : Located T root home m t)
    (shape : Shape T root home m) {b : Nat} {pr : PlistPair} (found : t.curr.bucket m b = some pr) :
    m.lockOf (t.beforeLocalizedCurr, b) = some pr.lock := by
  obtain ⟨pr', found', same, _⟩ := located.bucket shape found
  exact Option.map_eq_some_iff.mpr ⟨pr', found', same.symm⟩

theorem Invariant.lock_of_held (invariant : Invariant T peer home s) {touch : RemotePtr → Nat → Prop} {m' : Mem K V}
    (change : Change touch home home' s.mem m') (c : Nat) :
    (s.threads c).held.bind m'.lockOf = (s.threads c).held.bind s.mem.lockOf := by
  cases runs : s.threads c with
  | idle => rfl
  | running id op pc =>
    cases holds : pc.held with
    | none => simp [Thread.held, holds]
    | some x =>
      obtain ⟨⟨pr, found, _⟩, _⟩ := (invariant.points runs).held holds
      have was : s.mem.lockOf x = some pr.lock := Option.map_eq_some_iff.mpr ⟨pr, found, rfl⟩
      simp [Thread.held, holds, was, change.lockOf was]

variable [DecidableEq K]

/-- What a step does to the locks of its own client is what the log notes. -/
theorem Agrees.own (agrees : Agrees s held) (invariant : Invariant T peer home s) {c id : Nat} {op : IhtOp K V}
    {pc : Pc K V} (runs : s.threads c = .running id op pc) {touch : RemotePtr → Nat → Prop} {m' : Mem K V}
    {next : Pc K V ⊕ HtRes V} (branch : Branch T (peer c) s.root op s.mem pc m' next)
    (change : Change touch home home' s.mem m') :
    held.note c (pc.lockStep T op s.mem) c = ((heldNext next).bind m'.lockOf).toList := by
  have before : held c = (pc.held.bind s.mem.lockOf).toList := by simpa [runs, Thread.held] using agrees c
  have inv := invariant.points runs
  cases did : pc.lockStep T op s.mem with
  | none =>
    have kept := invariant.lock_of_held change c
    simp only [runs, Thread.held] at kept
    simp [Locks.note, before, branch.of_other did, kept]
  | some lockStep =>
    cases lockStep with
    | acquired lock =>
      obtain ⟨free, t, b, pr, rfl, found, rfl, holds⟩ := branch.of_acquired did
      have located : Located T s.root home s.mem t := inv
      have taken := change.lockOf (located.lockOf invariant.shape found)
      simp [Locks.note, before, free, holds, taken]
    | unlocked lock =>
      obtain ⟨free, t, b, pr, at_, holds, found, rfl⟩ := branch.of_unlocked did
      have given := (inv.located at_).lockOf invariant.shape found
      simp [Locks.note, before, free, holds, given]

theorem Agrees.next (plist : 2 ≤ T.plistSize) (elist : 1 ≤ T.elistSize) (agrees : Agrees s held)
    (invariant : Invariant T peer home s) {action : Action K V} (enabled : exec T peer s action = some s') :
    Agrees s' (noteLocks T s action held) := by
  rcases exec_cases enabled with ⟨c, op, rfl, idle, rfl⟩ | ⟨c, id, op, pc, m, next, rfl, runs, stepped, ends⟩
  · intro c'
    have was := agrees c'
    by_cases same : c' = c
    · subst same
      simpa [noteLocks, idle, Thread.held, Pc.held] using was
    · simpa [noteLocks, Function.update_of_ne same] using was
  · obtain ⟨home', touch, sound⟩ := invariant.sound plist elist runs stepped
    have own := agrees.own invariant runs (step_branch stepped) sound.change
    -- a thread that holds a bucket does not see its lock change
    have others : ∀ c', c' ≠ c → held.note c (pc.lockStep T op s.mem) c' =
        ((s.threads c').held.bind m.lockOf).toList := by
      intro c' other
      rw [invariant.lock_of_held sound.change, ← agrees c']
      cases pc.lockStep T op s.mem with
      | none => rfl
      | some lockStep => cases lockStep <;> simp [Locks.note, Function.update_of_ne other]
    rcases ends with ⟨pc', rfl, rfl⟩ | ⟨res, rfl, rfl⟩
    all_goals
      intro c'
      simp only [noteLocks, runs]
      by_cases same : c' = c
      · subst same
        simpa [Thread.held, heldNext] using own
      · simpa [Function.update_of_ne same] using others c' same

end Agrees

/-! ## The discipline -/

section Discipline

variable {T : Template K V} {peer : Nat → Nat} {home : Home} {s s' : State K V} {held : Locks}

theorem Agrees.mem_iff (agrees : Agrees s held) {c : Nat} {lock : RemotePtr} :
    lock ∈ held c ↔ ∃ x, (s.threads c).held = some x ∧ s.mem.lockOf x = some lock := by
  rw [agrees c, Option.mem_toList, Option.bind_eq_some_iff]

theorem Thread.held_eq_some {thread : Thread K V} {x : RemotePtr × Nat} :
    thread.held = some x ↔ ∃ id op pc, thread = .running id op pc ∧ pc.held = some x := by
  cases thread <;> simp [Thread.held]

theorem Invariant.discipline (invariant : Invariant T peer home s) (agrees : Agrees s held) :
    LockDiscipline s held := by
  -- a lock belongs to one bucket, and one operation at most holds the bucket
  have alone : ∀ c c' lock, lock ∈ held c → lock ∈ held c' → c = c' := by
    intro c c' lock mine other
    obtain ⟨x, holds, lockOf⟩ := agrees.mem_iff.mp mine
    obtain ⟨x', holds', lockOf'⟩ := agrees.mem_iff.mp other
    obtain ⟨pr, found, rfl⟩ := Option.map_eq_some_iff.mp lockOf
    obtain ⟨pr', found', same⟩ := Option.map_eq_some_iff.mp lockOf'
    obtain ⟨samePlist, sameBucket⟩ := invariant.shape.lock_inj found found' same.symm
    obtain ⟨id, op, pc, runs, pcHolds⟩ := Thread.held_eq_some.mp holds
    obtain ⟨id', op', pc', runs', pcHolds'⟩ := Thread.held_eq_some.mp holds'
    rw [← Prod.ext samePlist sameBucket] at pcHolds'
    exact invariant.exclusive runs runs' pcHolds pcHolds'
  refine ⟨?_, alone, ?_, ?_⟩
  · intro p b pr found
    have lockOf : s.mem.lockOf (p, b) = some pr.lock := Option.map_eq_some_iff.mpr ⟨pr, found, rfl⟩
    constructor
    · intro word
      obtain ⟨c, id, op, pc, runs, holds⟩ := invariant.holder ⟨pr, found, word⟩
      have mine : pr.lock ∈ held c :=
        agrees.mem_iff.mpr ⟨(p, b), Thread.held_eq_some.mpr ⟨id, op, pc, runs, holds⟩, lockOf⟩
      exact ⟨c, mine, fun c' other => alone _ _ _ other mine⟩
    · rintro ⟨c, mine, _⟩
      obtain ⟨⟨q, j⟩, holds, lockOf'⟩ := agrees.mem_iff.mp mine
      obtain ⟨id, op, pc, runs, pcHolds⟩ := Thread.held_eq_some.mp holds
      obtain ⟨⟨qr, found', word⟩, _⟩ := (invariant.points runs).held pcHolds
      rw [Mem.lockOf, found', Option.map_some, Option.some.injEq] at lockOf'
      exact lockOf' ▸ word
  · intro c
    rw [agrees c]
    cases (s.threads c).held.bind s.mem.lockOf <;> simp
  · intro c idle
    rw [agrees c, idle]
    rfl

variable [DecidableEq K]

theorem Invariant.stays_open (plist : 2 ≤ T.plistSize) (elist : 1 ≤ T.elistSize) (invariant : Invariant T peer home s)
    {action : Action K V} (enabled : exec T peer s action = some s') {x : RemotePtr × Nat} {lock : RemotePtr}
    (lockOf : s.mem.lockOf x = some lock) (word : s.mem.locks lock = some .pUnlocked) :
    s'.mem.lockOf x = some lock ∧ s'.mem.locks lock = some .pUnlocked := by
  rcases exec_cases enabled with ⟨c, op, rfl, idle, rfl⟩ | ⟨c, id, op, pc, m, next, rfl, runs, stepped, ends⟩
  · exact ⟨lockOf, word⟩
  · obtain ⟨home', touch, sound⟩ := invariant.sound plist elist runs stepped
    obtain ⟨pr, found, rfl⟩ := Option.map_eq_some_iff.mp lockOf
    have away := sound.open_ (invariant.points runs) x.1 x.2 ⟨pr, found, word⟩
    have kept : m.lockOf x = some pr.lock ∧ m.locks pr.lock = some .pUnlocked :=
      ⟨sound.change.lockOf lockOf, (sound.change.lock found away).trans word⟩
    rcases ends with ⟨pc', rfl, rfl⟩ | ⟨res, rfl, rfl⟩ <;> exact kept

theorem Agrees.reachable (plist : 2 ≤ T.plistSize) (elist : 1 ≤ T.elistSize) {host : Nat}
    (reachable : Reachable (logged (exec T peer) (noteLocks T)) (initial T host, fun _ => []) (s, held)) :
    ∃ home, Invariant T peer home s ∧ Agrees s held := by
  refine reachable.invariant (P := fun at_ => ∃ home, Invariant T peer home at_.1 ∧ Agrees at_.1 at_.2)
    ⟨_, .start T peer host, fun _ => rfl⟩ ?_
  rintro ⟨u, log⟩ action _ ⟨home, invariant, agrees⟩ _ enabled
  obtain ⟨u', stepped, rfl⟩ := Option.map_eq_some_iff.mp enabled
  obtain ⟨home', next, _⟩ := invariant.next plist elist stepped
  exact ⟨home', next, agrees.next plist elist invariant stepped⟩

/-- The log can be kept along every run. -/
theorem Agrees.of_reachable (plist : 2 ≤ T.plistSize) (elist : 1 ≤ T.elistSize) {host : Nat}
    (run : Reachable (exec T peer) (initial T host) s) : ∃ held, Agrees s held ∧ LockDiscipline s held := by
  obtain ⟨held, logs⟩ : ∃ held, Reachable (logged (exec T peer) (noteLocks T)) (initial T host, fun _ => []) (s, held) :=
    run.logged _
  obtain ⟨home, invariant, agrees⟩ := Agrees.reachable plist elist logs
  exact ⟨held, agrees, invariant.discipline agrees⟩

/-- In every run a lock word reads `E_LOCKED` exactly while one client has
acquired the lock and not unlocked it, a client has at most one lock and none
between its operations, and `P_UNLOCKED` stays. -/
theorem lock_discipline (T : Template K V) (plist : 2 ≤ T.plistSize) (elist : 1 ≤ T.elistSize) (peer : Nat → Nat)
    (host : Nat) (s : State K V) (held : Locks)
    (reachable : Reachable (logged (exec T peer) (noteLocks T)) (initial T host, fun _ => []) (s, held)) :
    LockDiscipline s held ∧ ∀ s', Reachable (exec T peer) s s' → ∀ p b pr, s.mem.bucket p b = some pr →
      s.mem.locks pr.lock = some .pUnlocked → s'.mem.locks pr.lock = some .pUnlocked := by
  obtain ⟨home, invariant, agrees⟩ := Agrees.reachable plist elist reachable
  refine ⟨invariant.discipline agrees, ?_⟩
  intro s' later p b pr found word
  have lockOf : s.mem.lockOf (p, b) = some pr.lock := Option.map_eq_some_iff.mpr ⟨pr, found, rfl⟩
  obtain ⟨_, _, stays⟩ : (∃ home', Invariant T peer home' s') ∧ s'.mem.lockOf (p, b) = some pr.lock ∧
      s'.mem.locks pr.lock = some .pUnlocked := by
    refine later.invariant (P := fun s' => (∃ home', Invariant T peer home' s') ∧
      s'.mem.lockOf (p, b) = some pr.lock ∧ s'.mem.locks pr.lock = some .pUnlocked)
      ⟨⟨home, invariant⟩, lockOf, word⟩ ?_
    rintro u action u' ⟨⟨home', holds⟩, lockOf', word'⟩ _ enabled
    obtain ⟨home'', next, _⟩ := holds.next plist elist enabled
    exact ⟨⟨home'', next⟩, holds.stays_open plist elist enabled lockOf' word'⟩
  exact stays

/-- Client 0 turns a bucket into a P-List, and client 1 has followed it and holds a lock there. -/
theorem lock_discipline_overtaken : ∃ s held, runAll (logged (exec (intTemplate 1 2) fun c => c)
      (noteLocks (intTemplate 1 2))) (initial (intTemplate 1 2) 0, fun _ => [])
      (overtaken ++ List.replicate 3 (.step 1)) = some (s, held) ∧
    held 1 ≠ [] ∧ LockDiscipline s held := by
  have ran : ((runAll (logged (exec (intTemplate 1 2) fun c => c) (noteLocks (intTemplate 1 2)))
      (initial (intTemplate 1 2) 0, fun _ => [])
      (overtaken ++ List.replicate 3 (.step 1))).any
      fun at_ => at_.2 1 ≠ []) = true := by decide +kernel
  obtain ⟨⟨s, held⟩, final, holds⟩ := (Option.any_eq_true _ _).mp ran
  exact ⟨s, held, final, by simpa using holds, (lock_discipline (intTemplate 1 2) (by decide) (by decide)
    (fun c => c) 0 s held (reachable_of_runAll _ final)).1⟩

end Discipline

end RdmaIht.Iht
