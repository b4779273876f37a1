import RdmaIht.Iht.Copies

/-! Which operations lose a copy.

An operation that runs alone keeps its copies in order until it makes a P-List. The
first time that happens it loses the copy of the P-List above, if it has one; from
then on it works in P-Lists it has made itself, which are local.
-/

set_option autoImplicit false

namespace RdmaIht.Iht

open Concurrency Ledger

variable {K V : Type}

/-- The flag is set if and only if `curr` is a copy: of the root, or of a P-List of another pool. -/
def Flagged (root : RemotePtr) (pool : Nat) (t : Traversal) : Prop :=
  t.oldBucketBase = true ↔ (t.beforeLocalizedCurr = root ∨ t.beforeLocalizedCurr.isLocal pool = false)

def Pc.settled : Pc K V → Bool
  | .newElist _ _ _ | .publishElist _ _ _ | .storePair _ _ _ _ _ | .storeCount _ _ _ _ | .swapLast _ _ _ _ _ _
  | .dropCount _ _ _ _ _ | .writeBack _ _ _ _ _ | .unlock _ _ _ _ | .leave _ _ _ => true
  | _ => false

def LocalBelow (pool : Nat) (m : Mem K V) (p : RemotePtr) (b : Nat) : Prop :=
  ∀ pr, m.bucket p b = some pr → m.locks pr.lock = some .pUnlocked → pr.base.isLocal pool = true

def Pc.Made (T : Template K V) (pool : Nat) (m : Mem K V) (op : IhtOp K V) : Pc K V → Prop
  | .acquire t | .afterRehash t _ _ => LocalBelow pool m t.beforeLocalizedCurr (T.index op.key t.depth)
  | .refetch t b => LocalBelow pool m t.beforeLocalizedCurr b
  | .descend _ bb => bb.isLocal pool = true
  | .rehashSource _ _ _ _ newP | .rehashMove _ _ _ _ newP _ _ | .rehashFree _ _ _ _ newP _
  | .publishPlist _ _ _ _ newP | .updateCurr _ _ _ _ newP | .unlockPlist _ _ _ _ newP => newP.isLocal pool = true
  | _ => True

variable {T : Template K V} {root : RemotePtr} {pool : Nat} {op : IhtOp K V} {home home' : Home}
  {m₀ m m' : Mem K V} {pc pc' : Pc K V} {log rest : BlockLog} {lost : List Block}

section Points

variable {t : Traversal} {b : Nat} {bb : RemotePtr} {e : ElistRef K V} {el : EList K V}

theorem settled_onEmpty (inserts : op.isInsert = true) : (onEmpty T op t b).settled = true := by
  cases op with
  | contains key | remove key => cases inserts
  | insert key value => rfl

theorem settled_afterStore (res : HtRes V) : (afterStore pool t b bb e res).settled = true := by
  unfold afterStore
  split <;> rfl

theorem made_onMissing : (onMissing T op t b bb e el).Made T pool m op := by
  cases op <;> simp only [onMissing] <;> first | trivial | (split <;> trivial)

theorem Pc.made_of_settled (settled : pc.settled = true) : pc.Made T pool m op := by
  cases pc <;> trivial

end Points

theorem Branch.traversal [DecidableEq K] (branch : Branch T pool root op m pc m' (.inl pc')) {t' : Traversal}
    (at_ : pc'.traversal = some t') :
    (pc = .readRoot ∧ t'.beforeLocalizedCurr = root ∧ t'.oldBucketBase = true) ∨
    (∃ t bb, pc = .descend t bb ∧ t'.beforeLocalizedCurr = bb ∧ t'.oldBucketBase = !bb.isLocal pool) ∨
    (∃ t bb e, pc = .afterRehash t bb e ∧ t' = { t with oldBucketBase := false }) ∨
    ∃ t, pc.traversal = some t ∧ t'.beforeLocalizedCurr = t.beforeLocalizedCurr ∧ t'.depth = t.depth ∧
      t'.oldBucketBase = t.oldBucketBase := by
  have stays : ∀ {t}, pc.traversal = some t → pc'.traversal = some t → ∃ t, pc.traversal = some t ∧
      t'.beforeLocalizedCurr = t.beforeLocalizedCurr ∧ t'.depth = t.depth ∧ t'.oldBucketBase = t.oldBucketBase := by
    intro t was now
    rw [at_] at now
    cases now
    exact ⟨t', was, rfl, rfl, rfl⟩
  generalize goes : (Sum.inl pc' : Pc K V ⊕ HtRes V) = next at branch
  cases branch <;> cases goes
  case readRoot => cases at_; exact .inl ⟨rfl, rfl, rfl⟩
  case descendLocal t bb near => cases at_; exact .inr (.inl ⟨t, bb, rfl, rfl, rfl⟩)
  case descendRemote t bb bs far stored long => cases at_; exact .inr (.inl ⟨t, bb, rfl, rfl, rfl⟩)
  case afterRehash t bb e => cases at_; exact .inr (.inr (.inl ⟨t, bb, e, rfl, rfl⟩))
  case updateCurr t b bb e newP => cases at_; exact .inr (.inr (.inr ⟨t, rfl, rfl, rfl, rfl⟩))
  case loadNull => exact .inr (.inr (.inr (stays rfl traversal_onEmpty)))
  case found => exact .inr (.inr (.inr (stays rfl (traversal_onFound _ _))))
  case missing => exact .inr (.inr (.inr (stays rfl traversal_onMissing)))
  case storeCount | dropCount => exact .inr (.inr (.inr (stays rfl (traversal_afterStore _))))
  all_goals exact .inr (.inr (.inr (stays rfl rfl)))

theorem Branch.settled [DecidableEq K] (branch : Branch T pool root op m pc m' (.inl pc')) (settled : pc.settled = true) :
    pc'.settled = true := by
  generalize goes : (Sum.inl pc' : Pc K V ⊕ HtRes V) = next at branch
  cases branch <;> cases goes <;> first | exact settled_afterStore _ | rfl | cases settled

theorem Branch.growing [DecidableEq K] (branch : Branch T pool root op m pc m' (.inl pc')) (growing : pc.growing = true) :
    (pc'.growing = true ∧ pc.loses = []) ∨ ∃ t bb e, pc = .afterRehash t bb e := by
  generalize goes : (Sum.inl pc' : Pc K V ⊕ HtRes V) = next at branch
  cases branch <;> cases goes <;> try cases growing
  case afterRehash t bb e => exact .inr ⟨t, bb, e, rfl⟩
  all_goals exact .inl ⟨rfl, rfl⟩

theorem Alone.made [DecidableEq K] (alone : Alone T root pool op home m pc) (committed : pc.Committed T home m op)
    (made : pc.Made T pool m op) (branch : Branch T pool root op m pc m' (.inl pc')) : pc'.Made T pool m' op := by
  have inv := alone.inv
  have shape := alone.shape
  generalize goes : (Sum.inl pc' : Pc K V ⊕ HtRes V) = next at branch
  cases branch <;> cases goes <;> try exact False.elim committed
  case closed t pr found word =>
    have located : Located T root home m t := inv
    show LocalBelow pool m t.beforeLocalizedCurr (T.bucketOf op t)
    rw [Template.bucketOf, located.levelHash_eq]
    exact made
  case spins => exact made
  case refetch t b bs pr stored long at_ =>
    obtain ⟨qr, found, word⟩ := inv.2
    cases found.symm.trans (Mem.bucket_of_copy stored at_)
    exact made pr found word
  case descendLocal t bb near =>
    -- the buckets of a new P-List are open
    have located : Located T root home m t := inv.1
    rw [located.release_eq]
    intro pr found word
    rw [committed.2.opened _ pr found] at word
    cases word
  case descendRemote t bb bs far stored long => exact absurd (.inl made) far
  case missing => exact made_onMissing
  case loadNull => exact Pc.made_of_settled (settled_onEmpty committed.1)
  case found t b bb e i el pair stored live at_ isKey =>
    obtain ⟨inserts, got, lacks⟩ := committed
    have mem := List.mem_of_getElem? (EList.getElem?_live live at_)
    exact absurd isKey (lacks el (got ▸ stored) pair mem)
  case storeCount | dropCount => exact Pc.made_of_settled (settled_afterStore _)
  case newPlist => simp [Pc.Made, Mem.fresh, RemotePtr.isLocal]
  case unlockPlist t b bb e newP pr found stored =>
    obtain ⟨located, word, building, ref, qr, shared, rfl⟩ := inv
    intro pr' found' _
    have index : T.index op.key t.depth = b := alone.index rfl rfl
    rw [index] at found'
    cases shared.symm.trans found'
    exact made
  case afterRehash t bb e =>
    rw [inv.2.release_eq]
    exact made
  all_goals trivial

/-- What an operation that runs alone from the tree `m₀` has lost so far, and may still lose. -/
inductive Track (T : Template K V) (root : RemotePtr) (pool : Nat) (op : IhtOp K V) (m₀ : Mem K V) (home : Home)
    (m : Mem K V) (pc : Pc K V) (lost : List Block) : Prop where
  | reading : Same m₀ m pc.held → pc.Reading T root m₀ m op →
      (∀ t, pc.traversal = some t → Flagged root pool t) → lost = [] → Track T root pool op m₀ home m pc lost
  | growing {t : Traversal} : pc.growing = true → pc.traversal = some t → pc.Committed T home m op →
      pc.Made T pool m op → Flagged root pool t → Overfull T root m₀ op.key t.beforeLocalizedCurr t.depth → lost = [] →
      Track T root pool op m₀ home m pc lost
  | onward : pc.Committed T home m op → pc.Made T pool m op →
      (pc.settled = true ∨ ∀ t, pc.traversal = some t → t.oldBucketBase = false) →
      (lost = [] ↔ ¬ Loses T root pool m₀ op) → Track T root pool op m₀ home m pc lost

theorem Overfull.unique {key : K} {p q : RemotePtr} {d n : Nat} (first : Overfull T root m key p d)
    (second : Overfull T root m key q n) : p = q := by
  have stop : ∀ {p d}, Overfull T root m key p d → ¬ m.Word p (T.index key d) .pUnlocked := by
    rintro p d ⟨_, pr, el, found, open_, _⟩ closed
    cases closed.functional ⟨pr, found, open_⟩
  exact (Leads.unique ⟨first.1, rfl⟩ ⟨second.1, rfl⟩ (stop first) (stop second)).1

/-- An operation loses what the flag says where it makes its first P-List. -/
theorem loses_iff {t : Traversal} (flagged : Flagged root pool t) (inserts : op.isInsert = true)
    (overfull : Overfull T root m₀ op.key t.beforeLocalizedCurr t.depth) : t.block = [] ↔ ¬ Loses T root pool m₀ op := by
  have flag : t.block = [] ↔ ¬ t.oldBucketBase = true := by
    unfold Traversal.block
    split <;> simp [*]
  unfold Flagged at flagged
  rw [flag, flagged, not_iff_not]
  constructor
  · intro copied
    exact ⟨inserts, _, _, overfull, copied⟩
  · rintro ⟨_, p, d, overfull', copied⟩
    rw [overfull.unique overfull']
    exact copied

theorem Alone.flagged [DecidableEq K] (alone : Alone T root pool op home m pc) (growing : pc.growing = false)
    (flagged : ∀ t, pc.traversal = some t → Flagged root pool t) (branch : Branch T pool root op m pc m' (.inl pc')) :
    ∀ t, pc'.traversal = some t → Flagged root pool t := by
  intro t' at_
  rcases branch.traversal at_ with ⟨_, isRoot, flag⟩ | ⟨t, bb, rfl, rfl, flag⟩ | ⟨t, bb, e, rfl, _⟩ | ⟨t, was, same, _, flag⟩
  · exact iff_of_true flag (.inl isRoot)
  · obtain ⟨_, b, owned, _⟩ := alone.inv
    have notRoot : t'.beforeLocalizedCurr ≠ root := by
      intro isRoot
      rw [isRoot, alone.shape.home_root] at owned
      cases owned
    simp [Flagged, flag, notRoot]
  · cases growing
  · have before := flagged t was
    unfold Flagged at before ⊢
    rw [same, flag]
    exact before

theorem Pc.traversal_of_growing (growing : pc.growing = true) : ∃ t, pc.traversal = some t := by
  cases pc <;> first | exact ⟨_, rfl⟩ | cases growing

theorem Pc.Reading.growing (reading : pc.Reading T root m₀ m op) : pc.growing = false := by
  cases pc <;> first | rfl | exact False.elim reading

theorem Pc.loses_of_growing (growing : pc.growing = false) : pc.loses = [] := by
  cases pc <;> first | rfl | cases growing

/-- Where the first change is made it is known whether a copy is going to be lost. -/
theorem Pc.Decided.track (decided : pc.Decided T root m₀ op) (elists : m.elists = m₀.elists)
    (flagged : ∀ t, pc.traversal = some t → Flagged root pool t) : Track T root pool op m₀ home m pc [] := by
  have committed : pc.Committed T home m op := decided.committed elists
  have keeps : (∀ key, op = .remove key → ¬ Loses T root pool m₀ op) := by
    rintro key rfl ⟨inserts, _⟩
    cases inserts
  cases pc with
  | newElist | storePair =>
    have kept : ¬ Loses T root pool m₀ op := fun ⟨_, p, d, overfull, _⟩ => decided.2 p d overfull
    exact .onward committed trivial (.inl rfl) (iff_of_true rfl kept)
  | swapLast | dropCount =>
    obtain ⟨key, isRemove⟩ := decided
    exact .onward committed trivial (.inl rfl) (iff_of_true rfl (keeps key isRemove))
  | newPlist t b bb e => exact .growing rfl rfl committed trivial (flagged t rfl) decided.2.1 rfl
  | _ => exact False.elim decided

theorem Track.next [DecidableEq K] (plist : 2 ≤ T.plistSize) (alone : Alone T root pool op home m pc)
    (track : Track T root pool op m₀ home m pc lost) (branch : Branch T pool root op m pc m' (.inl pc'))
    {touch : RemotePtr → Nat → Prop} (sound : Sound T root pool home m pc home' touch m' (.inl pc')) :
    Track T root pool op m₀ home' m' pc' (pc.loses ++ lost) := by
  cases track with
  | reading same reading flagged none =>
    subst none
    rw [Pc.loses_of_growing reading.growing]
    have flagged' := alone.flagged reading.growing flagged branch
    obtain ⟨same', reading' | ⟨rfl, decided⟩⟩ := alone.reading same reading branch
    · exact .reading same' reading' flagged' rfl
    · exact decided.track same.elists flagged'
  | @growing t growing at_ committed made flagged overfull none =>
    subst none
    have committed' := alone.committed plist committed branch sound
    have made' := alone.made committed made branch
    -- the `rehash` goes on, or it is over and the copy is lost
    rcases branch.growing growing with ⟨growing', loses⟩ | ⟨t, bb, e, rfl⟩
    · rw [loses]
      obtain ⟨t', at'⟩ := Pc.traversal_of_growing growing'
      rcases branch.traversal at' with ⟨rfl, _⟩ | ⟨_, _, rfl, _⟩ | ⟨_, _, _, rfl, _⟩ | ⟨t, was, same, depth, flag⟩
      · cases growing
      · cases growing
      · cases branch
        cases growing'
      · cases at_.symm.trans was
        refine .growing growing' at' committed' made' ?_ (by rw [same, depth]; exact overfull) rfl
        unfold Flagged at flagged ⊢
        rw [same, flag]
        exact flagged
    · cases at_
      cases branch
      refine .onward committed' made' (.inr ?_) ?_
      · rintro t' ⟨⟩
        rfl
      · rw [List.append_nil]
        exact loses_iff flagged committed.1 overfull
  | onward committed made away verdict =>
    have committed' := alone.committed plist committed branch sound
    have made' := alone.made committed made branch
    have loses : pc.loses = [] := by
      cases pc <;> try rfl
      case afterRehash t bb e =>
        have flag : t.oldBucketBase = false := (away.resolve_left (by simp [Pc.settled])) t rfl
        simp [Pc.loses, Traversal.block, flag]
    rw [loses]
    refine .onward committed' made' (away.imp branch.settled fun flag t' at' => ?_) verdict
    rcases branch.traversal at' with ⟨rfl, _⟩ | ⟨t, bb, rfl, _, same⟩ | ⟨t, bb, e, rfl, rfl⟩ | ⟨t, was, _, _, same⟩
    · exact False.elim committed
    · have near : bb.isLocal pool = true := made
      rw [same, near]
      rfl
    · rfl
    · rw [same]
      exact flag t was

/-! ## Whole operations -/

section Runs

variable [DecidableEq K]

theorem finishLogged_finish {fuel : Nat} :
    (finishLogged T root pool op fuel m pc).map (fun (last, res, _) => (last, res)) = finish T root pool op fuel m pc := by
  induction fuel generalizing m pc with
  | zero => rfl
  | succ fuel ih =>
    cases stepped : step T pool root op m pc with
    | error fault =>
      simp only [finishLogged, finish, stepped]
      rfl
    | ok done =>
      obtain ⟨m₁, pc₁ | res⟩ := done
      · simp only [finishLogged, finish, stepped, ← ih]
        cases finishLogged T root pool op fuel m₁ pc₁ <;> rfl
      · simp only [finishLogged, finish, stepped]
        rfl

theorem Track.finish (plist : 2 ≤ T.plistSize) (elist : 1 ≤ T.elistSize) (alone : Alone T root pool op home m pc)
    (books : Books root pool home m pc log lost) (track : Track T root pool op m₀ home m pc lost) {fuel : Nat}
    {res : HtRes V} (done : finishLogged T root pool op fuel m pc = .ok (m', res, rest)) :
    CopiesBalanced root m' (log ++ rest) ↔ ¬ Loses T root pool m₀ op := by
  induction fuel generalizing home m pc log lost rest with
  | zero => cases done
  | succ fuel ih =>
    simp only [finishLogged] at done
    split at done
    · cases done
    · next m₁ pc₁ stepped =>
      obtain ⟨⟨last, res', log'⟩, later, rest'⟩ := bind_eq_ok.mp done
      cases rest'
      obtain ⟨home₁, touch, sound, goes⟩ := alone.next plist elist stepped
      rw [← List.append_assoc]
      exact ih (goes pc₁ rfl).1 (books.next alone stepped sound) (track.next plist alone (step_branch stepped) sound) later
    · next stepped =>
      cases done
      obtain ⟨rfl, t, held, rfl⟩ := alone.left (step_branch stepped)
      rw [books.left alone.shape]
      cases track with
      | reading same reading flagged none =>
        exact iff_of_true none fun ⟨inserts, p, d, overfull, _⟩ => reading.2 inserts p d overfull
      | growing growing => cases growing
      | onward committed made away verdict => exact verdict

/-- In every tree that is left by completed operations, an operation that runs alone
returns, unless it is an `insert` for which a length leaves `int`; and it gives back
each local block as it was read, and nothing of the tree, if and only if it is not an
`insert` that finds its E-List full in a P-List it holds a copy of. -/
theorem copies_balanced (T : Template K V) (plist : 2 ≤ T.plistSize) (elist : 1 ≤ T.elistSize)
    (peer : Nat → Nat) (host : Nat) (s : State K V) (reachable : Reachable (exec T peer) (initial T host) s)
    (quiet : ∀ c, s.threads c = .idle) (pool : Nat) (op : IhtOp K V) (fuel : Nat) (enough : 31 * T.lap + 1 < fuel) :
    (op.isInsert = true ∧ finishLogged T s.root pool op fuel s.mem .readRoot = .error .intOverflow) ∨
    ∃ m res log, finishLogged T s.root pool op fuel s.mem .readRoot = .ok (m, res, log) ∧
      (CopiesBalanced s.root m log ↔ ¬ Loses T s.root pool s.mem op) := by
  obtain ⟨home, invariant⟩ := Invariant.reachable plist elist reachable
  have alone : Alone T s.root pool op home s.mem .readRoot := .start invariant quiet pool op
  have track : Track T s.root pool op s.mem home s.mem .readRoot [] :=
    .reading ⟨rfl, rfl, fun _ => rfl, fun _ _ held => by cases held⟩ trivial (fun t at_ => by cases at_) rfl
  have phase : Phase T s.root pool op s.mem home s.mem .readRoot := .start invariant quiet pool op
  have same := @finishLogged_finish _ _ T s.root pool op s.mem .readRoot _ fuel
  cases logged : finishLogged T s.root pool op fuel s.mem .readRoot with
  | ok done =>
    obtain ⟨m, res, log⟩ := done
    exact .inr ⟨m, res, log, rfl, track.finish plist elist alone (.start _ _ _ _) logged⟩
  | error fault =>
    rw [logged] at same
    rcases phase.outcome plist elist (.reachable plist reachable) enough with ⟨inserts, failed⟩ | ⟨m, res, done⟩
    · rw [failed] at same
      cases same
      exact .inl ⟨inserts, rfl⟩
    · rw [done] at same
      cases same

/-- The smallest table with one key: an `insert` of the other pool finds its E-List full
in the root, and the copy of the root is never given back. -/
theorem copies_not_balanced : ∃ s m res log,
    runAll (exec (intTemplate 1 2) fun c => c) (initial (intTemplate 1 2) 0) insertedOnce = some s ∧
    (∀ c, s.threads c = .idle) ∧
    finishLogged (intTemplate 1 2) s.root 1 (.insert 3 30) 994 s.mem .readRoot = .ok (m, res, log) ∧
    ¬ CopiesBalanced s.root m log := by
  obtain ⟨s, final, quiet, result⟩ := insertedOnce_check
    (fun s => match finishLogged (intTemplate 1 2) s.root 1 (.insert 3 30) 994 s.mem .readRoot with
      | .ok (_, _, .obtained c :: log) => about Block.ptr (.obtained c :: log) c.ptr = [.obtained c]
      | .ok (_, _, .released _ :: _) | .ok (_, _, []) | .error _ => false) (by decide +kernel)
  split at result
  · next m res c log done =>
    refine ⟨s, m, res, _, final, quiet, done, fun balanced => ?_⟩
    have alone : about Block.ptr (.obtained c :: log) c.ptr = [.obtained c] := by simpa using result
    rw [balanced.copies c (List.mem_cons_self ..)] at alone
    cases alone
  all_goals cases result

/-- Client 1 looks the key up in that table, through copies. -/
theorem copies_balanced_lookup : ∃ s m res log,
    runAll (exec (intTemplate 1 2) fun c => c) (initial (intTemplate 1 2) 0) insertedOnce = some s ∧
    finishLogged (intTemplate 1 2) s.root 1 (.contains 1) 994 s.mem .readRoot = .ok (m, res, log) ∧
    log.length = 4 ∧ CopiesBalanced s.root m log := by
  obtain ⟨s, final, quiet, result⟩ := insertedOnce_check
    (fun s => match finishLogged (intTemplate 1 2) s.root 1 (.contains 1) 994 s.mem .readRoot with
      | .ok (_, _, log) => log.length = 4
      | .error _ => false) (by decide +kernel)
  rcases copies_balanced (intTemplate 1 2) (by decide) (by decide) (fun c => c) 0 s
    (reachable_of_runAll insertedOnce final) quiet 1 (.contains 1) 994 (by decide) with
    ⟨inserts, _⟩ | ⟨m, res, log, done, balanced⟩
  · cases inserts
  · rw [done] at result
    exact ⟨s, m, res, log, final, done, by simpa using result, balanced.mpr fun loses => by cases loses.1⟩

end Runs

end RdmaIht.Iht
