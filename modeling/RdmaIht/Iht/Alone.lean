import RdmaIht.Iht.LockDiscipline

/-! One operation of `RdmaIHT` that runs alone in any tree.

The tree may be left by any run in which no operation is under way any more. No
more is known of it than the invariant of all runs, which is enough for the
operation to end and to find its way by copies that are current.
-/

set_option autoImplicit false

namespace RdmaIht.Iht

open Concurrency

variable {K V : Type}

def Aims (T : Template K V) (op : IhtOp K V) (pc : Pc K V) : Prop :=
  ∀ t b, pc.traversal = some t → pc.held = some (t.beforeLocalizedCurr, b) → T.bucketOf op t = b

/-- `op` runs alone on `pool` and has come to `pc`. -/
structure Alone (T : Template K V) (root : RemotePtr) (pool : Nat) (op : IhtOp K V) (home : Home) (m : Mem K V)
    (pc : Pc K V) : Prop where
  safe : Invariant T (fun _ => pool) home (solo root m (.running 0 op pc))
  current : Current T m op pc
  aims : Aims T op pc

def Pc.growing : Pc K V → Bool
  | .newPlist _ _ _ _ | .rehashSource _ _ _ _ _ | .rehashMove _ _ _ _ _ _ _ | .rehashFree _ _ _ _ _ _
  | .publishPlist _ _ _ _ _ | .updateCurr _ _ _ _ _ | .unlockPlist _ _ _ _ _ | .afterRehash _ _ _ => true
  | _ => false

variable {T : Template K V} {root : RemotePtr} {pool : Nat} {op : IhtOp K V} {home home' : Home} {m m' : Mem K V}
  {pc pc' : Pc K V}

section Aims

variable {t : Traversal} {b : Nat} {bb : RemotePtr} {e : ElistRef K V} {el : EList K V}

theorem Aims.of_here (here : ∀ t', pc'.traversal = some t' → t' = t) (holds : ∀ b', pc'.held =
    some (t.beforeLocalizedCurr, b') → b' = b) (aim : T.bucketOf op t = b) : Aims T op pc' := by
  intro t' b' at_ held
  cases here t' at_
  rw [holds b' held]
  exact aim

theorem traversal_onFound (i : Nat) (pair : Pair K V) : (onFound T op t b bb e el i pair).traversal = some t := by
  cases op <;> simp only [onFound] <;> first | rfl | (split <;> rfl)

theorem traversal_onMissing : (onMissing T op t b bb e el).traversal = some t := by
  cases op <;> simp only [onMissing] <;> first | rfl | (split <;> rfl)

theorem traversal_onEmpty : (onEmpty T op t b).traversal = some t := by
  cases op <;> rfl

theorem traversal_afterStore (res : HtRes V) : (afterStore pool t b bb e res).traversal = some t := by
  simp only [afterStore]
  split <;> rfl

theorem Branch.aims [DecidableEq K] (branch : Branch T pool root op m pc m' (.inl pc')) (aims : Aims T op pc) : Aims T op pc' := by
  -- nearly every step keeps both the traversal and the lock it holds
  have stays : ∀ {t b}, pc.traversal = some t → pc.held = some (t.beforeLocalizedCurr, b) → pc'.traversal = some t →
      pc'.held = some (t.beforeLocalizedCurr, b) → Aims T op pc' := by
    intro t b at_ held at' held'
    refine .of_here (t := t) (b := b) ?_ ?_ (aims t b at_ held)
    · intro t' same
      exact Option.some.inj (same.symm.trans at')
    · intro b' same
      rw [held'] at same
      cases same
      rfl
  have free : pc'.held = none → Aims T op pc' := by
    intro none t b _ held
    rw [none] at held
    cases held
  generalize goes : (Sum.inl pc' : Pc K V ⊕ HtRes V) = next at branch
  cases branch <;> cases goes
  case locks t pr found word =>
    intro t' b' at_ held
    cases at_
    cases held
    rfl
  case readRoot | closed | spins | refetch | descendLocal | descendRemote | unlockPlist | afterRehash | unlock =>
    exact free rfl
  case loadNull => exact stays rfl rfl traversal_onEmpty (held_onEmpty _ _)
  case found => exact stays rfl rfl (traversal_onFound _ _) (held_onFound _ _ _ _ _ _ _)
  case missing => exact stays rfl rfl traversal_onMissing (held_onMissing _ _ _ _ _)
  case storeCount | dropCount => exact stays rfl rfl (traversal_afterStore _) (held_afterStore _ _ _ _ _)
  case updateCurr t b bb e newP =>
    intro t' b' at_ held
    cases at_
    cases held
    exact aims t b rfl rfl
  all_goals exact stays rfl rfl rfl rfl

end Aims

namespace Alone

theorem shape (alone : Alone T root pool op home m pc) : Shape T root home m := alone.safe.shape

theorem inv (alone : Alone T root pool op home m pc) : PcInv T root home m pool pc := alone.safe.points (solo_threads _)

theorem index (alone : Alone T root pool op home m pc) {t : Traversal} {b : Nat} (at_ : pc.traversal = some t)
    (held : pc.held = some (t.beforeLocalizedCurr, b)) : T.index op.key t.depth = b := by
  rw [← (alone.inv.located at_).levelHash_eq]
  exact alone.aims t b at_ held

theorem start {peer : Nat → Nat} {s : State K V} (invariant : Invariant T peer home s)
    (quiet : ∀ c, s.threads c = .idle) (pool : Nat) (op : IhtOp K V) : Alone T s.root pool op home s.mem .readRoot where
  safe :=
    { shape := invariant.shape
      points := by
        intro c id op' pc runs
        cases (solo_running runs).2
        trivial
      exclusive := by
        intro c c' id id' op₁ op₂ pc₁ pc₂ x runs runs' _ _
        rw [(solo_running runs).1, (solo_running runs').1]
      holder := by
        intro p b locked
        obtain ⟨c, id, op', pc, runs, _⟩ := invariant.holder locked
        rw [quiet c] at runs
        cases runs }
  current := trivial
  aims := by
    intro t b at_
    cases at_

theorem next [DecidableEq K] (plist : 2 ≤ T.plistSize) (elist : 1 ≤ T.elistSize) (alone : Alone T root pool op home m pc)
    {next : Pc K V ⊕ HtRes V} (stepped : step T pool root op m pc = .ok (m', next)) :
    ∃ home' touch, Sound T root pool home m pc home' touch m' next ∧
      ∀ pc', next = .inl pc' → Alone T root pool op home' m' pc' ∧ Closer T m op pc m' pc' := by
  obtain ⟨home', touch, sound⟩ := alone.safe.sound plist elist (solo_threads _) stepped
  refine ⟨home', touch, sound, ?_⟩
  rintro pc' rfl
  have unlockAims : ∀ t b bb e newP, pc = .unlockPlist t b bb e newP → T.index op.key t.depth = b := by
    rintro t b bb e newP rfl
    exact alone.index rfl rfl
  obtain ⟨current, closer⟩ := alone.safe.progress unlockAims alone.current stepped
  refine ⟨⟨?_, current, (step_branch stepped).aims alone.aims⟩, closer⟩
  refine alone.safe.sound_step (solo_threads _) sound rfl rfl ?_ ?_ ?_
  · intro id op' pc'' runs
    cases (solo_running runs).2
    rfl
  · intro pc'' same
    cases same
    simp
  · intro c other
    simp [solo, other]

end Alone

/-! ## Whole operations -/

variable [DecidableEq K]

theorem advance_eq_some {action : Unit} : advance T root pool op (m, pc) action = some (m', pc') ↔
    step T pool root op m pc = .ok (m', .inl pc') := by
  simp only [advance]
  constructor
  · intro enabled
    split at enabled
    · next stepped => cases enabled; exact stepped
    · cases enabled
  · intro stepped
    rw [stepped]

theorem goesOn (stepped : step T pool root op m pc = .ok (m', .inl pc')) :
    Reachable (advance T root pool op) (m, pc) (m', pc') :=
  @Steps.one _ _ _ _ _ () (advance_eq_some.mpr stepped)

theorem finish_reached {fuel : Nat} {res : HtRes V} (done : finish T root pool op fuel m pc = .ok (m', res)) :
    ∃ m₁ pc₁, Reachable (advance T root pool op) (m, pc) (m₁, pc₁) ∧ step T pool root op m₁ pc₁ = .ok (m', .inr res) := by
  induction fuel generalizing m pc with
  | zero => cases done
  | succ fuel ih =>
    simp only [finish] at done
    split at done
    · cases done
    · next m₂ pc₂ stepped =>
      obtain ⟨m₁, pc₁, reached, returns⟩ := ih done
      exact ⟨m₁, pc₁, (goesOn stepped).trans reached, returns⟩
    · next stepped => cases done; exact ⟨m, pc, .refl _, stepped⟩

theorem finish_of_reached {fuel : Nat} {m₁ : Mem K V} {pc₁ : Pc K V} {res : HtRes V}
    (reached : Reachable (advance T root pool op) (m, pc) (m₁, pc₁))
    (done : finish T root pool op fuel m pc = .ok (m', res)) : ∃ rest, finish T root pool op rest m₁ pc₁ = .ok (m', res) := by
  generalize target : (m₁, pc₁) = at_ at reached
  induction reached generalizing m₁ pc₁ with
  | refl => cases target; exact ⟨fuel, done⟩
  | @step before after action _ _ enabled ih =>
    subst target
    obtain ⟨m₂, pc₂⟩ := before
    obtain ⟨rest, later⟩ := ih rfl
    have stepped := advance_eq_some.mp enabled
    cases rest with
    | zero => cases later
    | succ rest =>
      simp only [finish, stepped] at later
      exact ⟨rest, later⟩

namespace Alone

theorem reached (plist : 2 ≤ T.plistSize) (elist : 1 ≤ T.elistSize) (alone : Alone T root pool op home m pc)
    (reached : Reachable (advance T root pool op) (m, pc) (m', pc')) : ∃ home', Alone T root pool op home' m' pc' := by
  refine reached.invariant (P := fun at_ => ∃ home', Alone T root pool op home' at_.1 at_.2) ⟨home, alone⟩ ?_
  rintro ⟨m₁, pc₁⟩ _ ⟨m₂, pc₂⟩ ⟨home₁, alone₁⟩ _ enabled
  obtain ⟨home₂, _, _, goes⟩ := alone₁.next plist elist (advance_eq_some.mp enabled)
  exact ⟨home₂, (goes pc₂ rfl).1⟩

/-- In the steps that are left, the operation returns, or the length of a new P-List leaves `int`. -/
theorem finish (plist : 2 ≤ T.plistSize) (elist : 1 ≤ T.elistSize) (alone : Alone T root pool op home m pc)
    (within : Within T 31 m) {fuel : Nat} (enough : pc.rank T 31 m op < fuel) :
    (Iht.finish T root pool op fuel m pc = .error .intOverflow ∧
      ∃ m₁ t b bb e, Reachable (advance T root pool op) (m, pc) (m₁, .newPlist t b bb e)) ∨
    ∃ m' res, Iht.finish T root pool op fuel m pc = .ok (m', res) := by
  induction fuel generalizing home m pc with
  | zero => omega
  | succ fuel ih =>
    rcases step_safe op plist elist alone.shape alone.inv with
      ⟨⟨t, b, bb, e, rfl, none⟩, failed⟩ | ⟨m₁, next, _, _, stepped, _⟩
    · exact .inl ⟨by simp only [Iht.finish, failed], m, t, b, bb, e, .refl _⟩
    · obtain ⟨home₁, _, _, goes⟩ := alone.next plist elist stepped
      simp only [Iht.finish, stepped]
      cases next with
      | inr res => exact .inr ⟨m₁, res, rfl⟩
      | inl pc₁ =>
        obtain ⟨alone₁, closer⟩ := goes pc₁ rfl
        have within₁ : Within T 31 m₁ := within.step stepped fun t b bb e n _ buckets => Template.size_of_buckets plist buckets
        have less := closer.rank_lt fun t at_ => within₁.depth_le plist (by decide) (alone₁.inv.located at_)
        rcases ih alone₁ within₁ (by omega) with ⟨failed, m₂, t, b, bb, e, reached⟩ | done
        · have here := goesOn stepped
          exact .inl ⟨failed, m₂, t, b, bb, e, here.trans reached⟩
        · exact .inr done

end Alone

theorem Within.reachable (plist : 2 ≤ T.plistSize) {peer : Nat → Nat} {host : Nat} {s : State K V}
    (reachable : Reachable (exec T peer) (initial T host) s) : Within T 31 s.mem := by
  refine reachable.invariant (P := fun s => Within T 31 s.mem) (.start T host 31) ?_
  intro s action s' within _ enabled
  rcases exec_cases enabled with ⟨c, op, rfl, idle, rfl⟩ | ⟨c, id, op, pc, m, next, rfl, runs, stepped, ends⟩
  · exact within
  · have within' : Within T 31 m := within.step stepped fun t b bb e n _ buckets => Template.size_of_buckets plist buckets
    rcases ends with ⟨pc', rfl, rfl⟩ | ⟨res, rfl, rfl⟩ <;> exact within'

/-! ## Quiet states -/

def Action.client : Action K V → Nat
  | .invoke c _ => c
  | .step c => c

theorem threads_of_runAll {peer : Nat → Nat} {s s' : State K V} {schedule : List (Action K V)} {c : Nat}
    (ran : runAll (exec T peer) s schedule = some s') (others : ∀ action ∈ schedule, action.client ≠ c) :
    s'.threads c = s.threads c := by
  induction schedule generalizing s with
  | nil => cases ran; rfl
  | cons action rest ih =>
    obtain ⟨t, enabled, tail⟩ := Option.bind_eq_some_iff.mp ran
    rw [ih tail fun action mem => others action (List.mem_cons_of_mem _ mem)]
    have other : c ≠ action.client := (others action (List.mem_cons_self ..)).symm
    rcases exec_cases enabled with ⟨c', op, rfl, _, rfl⟩ | ⟨c', id, op, pc, m, next, rfl, _, _, ends⟩
    · exact Function.update_of_ne other _ _
    · rcases ends with ⟨pc', rfl, rfl⟩ | ⟨res, rfl, rfl⟩ <;> exact Function.update_of_ne other _ _

end RdmaIht.Iht
