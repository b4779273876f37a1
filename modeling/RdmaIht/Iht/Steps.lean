import RdmaIht.Iht.Machine

/-! The branches of `step`.

There is one constructor for each way a step can end, with what the source has
checked on the way there. Case analyses of a step go through these branches and
do not unfold `step` again.
-/

set_option autoImplicit false

namespace RdmaIht.Iht

variable {K V : Type}

def Template.bucketOf (T : Template K V) (op : IhtOp K V) (t : Traversal) : Nat :=
  T.levelHash op.key t.depth t.count

def Traversal.down (t : Traversal) (pool : Nat) (curr : PlistRef) (bucketBase : RemotePtr) : Traversal :=
  ⟨curr, bucketBase, t.depth + 1, t.count * 2, !bucketBase.isLocal pool⟩

/-- `if (oldBucketBase) pool_->Deallocate<PList>(curr, ..)`. -/
def Traversal.release (t : Traversal) (m : Mem K V) : Mem K V := if t.oldBucketBase then t.curr.free m else m

/-- `if (!is_local(bucket_base)) pool_->Deallocate<EList>(e)`. -/
def releaseElist (pool : Nat) (m : Mem K V) : Option (RemotePtr × ElistRef K V) → Mem K V
  | some (bucketBase, e) => if bucketBase.isLocal pool then m else e.free m
  | none => m

inductive Branch [DecidableEq K] (T : Template K V) (pool : Nat) (root : RemotePtr) (op : IhtOp K V) (m : Mem K V) :
    Pc K V → Mem K V → Pc K V ⊕ HtRes V → Prop where
  | readRoot {bs : List PlistPair} : m.plists root = some bs → T.plistSize * 1 ≤ bs.length →
      Branch T pool root op m .readRoot m.bump
        (.inl (.acquire ⟨.copied (m.fresh pool) (bs.take (T.plistSize * 1)), root, 1, T.plistSize, true⟩))
  | closed {t : Traversal} {pr : PlistPair} : t.curr.bucket m (T.bucketOf op t) = some pr →
      m.locks pr.lock = some .pUnlocked →
      Branch T pool root op m (.acquire t) m (.inl (.refetch t (T.bucketOf op t)))
  | locks {t : Traversal} {pr : PlistPair} : t.curr.bucket m (T.bucketOf op t) = some pr →
      m.locks pr.lock = some .eUnlocked →
      Branch T pool root op m (.acquire t) (m.setLock pr.lock .eLocked) (.inl (.loadBase t (T.bucketOf op t)))
  | spins {t : Traversal} {pr : PlistPair} : t.curr.bucket m (T.bucketOf op t) = some pr →
      m.locks pr.lock = some .eLocked → Branch T pool root op m (.acquire t) m (.inl (.acquire t))
  | refetch {t : Traversal} {b : Nat} {bs : List PlistPair} {pr : PlistPair} :
      m.plists t.beforeLocalizedCurr = some bs → T.plistSize * 2 ^ (t.depth - 1) ≤ bs.length →
      (bs.take (T.plistSize * 2 ^ (t.depth - 1)))[b]? = some pr →
      Branch T pool root op m (.refetch t b) m.bump (.inl (.descend t pr.base))
  | descendLocal {t : Traversal} {bb : RemotePtr} : (bb.isLocal pool = true ∨ bb = .null) →
      Branch T pool root op m (.descend t bb) (t.release m) (.inl (.acquire (t.down pool (.inPlace bb) bb)))
  | descendRemote {t : Traversal} {bb : RemotePtr} {bs : List PlistPair} :
      ¬ (bb.isLocal pool = true ∨ bb = .null) → m.plists bb = some bs → T.plistSize * 2 ^ t.depth ≤ bs.length →
      Branch T pool root op m (.descend t bb) (t.release m.bump)
        (.inl (.acquire (t.down pool (.copied (m.fresh pool) (bs.take (T.plistSize * 2 ^ t.depth))) bb)))
  | loadNull {t : Traversal} {b : Nat} {pr : PlistPair} : t.curr.bucket m b = some pr → pr.base = .null →
      Branch T pool root op m (.loadBase t b) m (.inl (onEmpty T op t b))
  | loadLocal {t : Traversal} {b : Nat} {pr : PlistPair} : t.curr.bucket m b = some pr → pr.base ≠ .null →
      pr.base.isLocal pool = true →
      Branch T pool root op m (.loadBase t b) m (.inl (.search t b pr.base (.inPlace pr.base) 0))
  | loadRemote {t : Traversal} {b : Nat} {pr : PlistPair} : t.curr.bucket m b = some pr → pr.base ≠ .null →
      pr.base.isLocal pool = false →
      Branch T pool root op m (.loadBase t b) m (.inl (.readElist t b pr.base))
  | readElist {t : Traversal} {b : Nat} {bb : RemotePtr} {el : EList K V} : m.elists bb = some el →
      Branch T pool root op m (.readElist t b bb) m.bump (.inl (.search t b bb (.copied (m.fresh pool) el) 0))
  | found {t : Traversal} {b : Nat} {bb : RemotePtr} {e : ElistRef K V} {i : Nat} {el : EList K V}
      {pair : Pair K V} : e.get m = some el → i < el.count → el.pairs[i]? = some pair → pair.key = op.key →
      Branch T pool root op m (.search t b bb e i) m (.inl (onFound T op t b bb e el i pair))
  | turn {t : Traversal} {b : Nat} {bb : RemotePtr} {e : ElistRef K V} {i : Nat} {el : EList K V}
      {pair : Pair K V} : e.get m = some el → i < el.count → el.pairs[i]? = some pair → pair.key ≠ op.key →
      Branch T pool root op m (.search t b bb e i) m (.inl (.search t b bb e (i + 1)))
  | missing {t : Traversal} {b : Nat} {bb : RemotePtr} {e : ElistRef K V} {i : Nat} {el : EList K V} :
      e.get m = some el → ¬ i < el.count →
      Branch T pool root op m (.search t b bb e i) m (.inl (onMissing T op t b bb e el))
  | newElist {t : Traversal} {b : Nat} {pair : Pair K V} {el : EList K V} : T.elistInsert {} pair = some el →
      Branch T pool root op m (.newElist t b pair) (m.newElist pool el) (.inl (.publishElist t b (m.fresh pool)))
  | publishElist {t : Traversal} {b : Nat} {eBase : RemotePtr} {pr : PlistPair} :
      m.bucket t.beforeLocalizedCurr b = some pr →
      Branch T pool root op m (.publishElist t b eBase) (m.setBase t.beforeLocalizedCurr b eBase)
        (.inl (.unlock t b none ⟨.trueState, T.zero⟩))
  | storePair {t : Traversal} {b : Nat} {bb : RemotePtr} {e : ElistRef K V} {pair : Pair K V} {el : EList K V} :
      e.get m = some el → el.count < T.elistSize →
      Branch T pool root op m (.storePair t b bb e pair) (e.set m (el.store el.count pair)).1
        (.inl (.storeCount t b bb (e.set m (el.store el.count pair)).2))
  | storeCount {t : Traversal} {b : Nat} {bb : RemotePtr} {e : ElistRef K V} {el : EList K V} :
      e.get m = some el →
      Branch T pool root op m (.storeCount t b bb e) (e.set m (el.withCount (el.count + 1))).1
        (.inl (afterStore pool t b bb (e.set m (el.withCount (el.count + 1))).2 ⟨.trueState, T.zero⟩))
  | swapLast {t : Traversal} {b : Nat} {bb : RemotePtr} {e : ElistRef K V} {i : Nat} {result : K}
      {el : EList K V} {last : Pair K V} : e.get m = some el → el.pairs[el.count - 1]? = some last →
      Branch T pool root op m (.swapLast t b bb e i result) (e.set m (el.store i last)).1
        (.inl (.dropCount t b bb (e.set m (el.store i last)).2 result))
  | dropCount {t : Traversal} {b : Nat} {bb : RemotePtr} {e : ElistRef K V} {result : K} {el : EList K V} :
      e.get m = some el →
      Branch T pool root op m (.dropCount t b bb e result) (e.set m (el.withCount (el.count - 1))).1
        (.inl (afterStore pool t b bb (e.set m (el.withCount (el.count - 1))).2 ⟨.trueState, T.toValue result⟩))
  | writeBack {t : Traversal} {b : Nat} {bb : RemotePtr} {e : ElistRef K V} {res : HtRes V} {el old : EList K V} :
      e.get m = some el → m.elists bb = some old →
      Branch T pool root op m (.writeBack t b bb e res) (m.setElist bb el) (.inl (.unlock t b (some (bb, e)) res))
  | newPlist {t : Traversal} {b : Nat} {bb : RemotePtr} {e : ElistRef K V} {n : Nat} :
      T.buckets (t.count * 2 / T.plistSize) = some n →
      Branch T pool root op m (.newPlist t b bb e) (m.newPlist pool n)
        (.inl (.rehashSource t b bb e (m.fresh pool)))
  | sourceLocal {t : Traversal} {b : Nat} {bb : RemotePtr} {e : ElistRef K V} {newP : RemotePtr} {pr : PlistPair} :
      t.curr.bucket m b = some pr → pr.base.isLocal pool = true →
      Branch T pool root op m (.rehashSource t b bb e newP) m
        (.inl (.rehashMove t b bb e newP (.inPlace pr.base) 0))
  | sourceRemote {t : Traversal} {b : Nat} {bb : RemotePtr} {e : ElistRef K V} {newP : RemotePtr}
      {pr : PlistPair} {el : EList K V} : t.curr.bucket m b = some pr → pr.base.isLocal pool = false →
      m.elists pr.base = some el →
      Branch T pool root op m (.rehashSource t b bb e newP) m.bump
        (.inl (.rehashMove t b bb e newP (.copied (m.fresh pool) el) 0))
  | move {t : Traversal} {b : Nat} {bb : RemotePtr} {e : ElistRef K V} {newP : RemotePtr} {source : ElistRef K V}
      {i : Nat} {el : EList K V} {pair : Pair K V} {m' : Mem K V} : source.get m = some el → i < el.count →
      el.pairs[i]? = some pair → moveInto T pool m newP (t.depth + 1) (t.count * 2) pair = .ok m' →
      Branch T pool root op m (.rehashMove t b bb e newP source i) m'
        (.inl (.rehashMove t b bb e newP source (i + 1)))
  | moved {t : Traversal} {b : Nat} {bb : RemotePtr} {e : ElistRef K V} {newP : RemotePtr} {source : ElistRef K V}
      {i : Nat} {el : EList K V} : source.get m = some el → ¬ i < el.count →
      Branch T pool root op m (.rehashMove t b bb e newP source i) m (.inl (.rehashFree t b bb e newP source))
  | rehashFree {t : Traversal} {b : Nat} {bb : RemotePtr} {e : ElistRef K V} {newP : RemotePtr}
      {source : ElistRef K V} :
      Branch T pool root op m (.rehashFree t b bb e newP source) (source.free m)
        (.inl (.publishPlist t b bb e newP))
  | publishPlist {t : Traversal} {b : Nat} {bb : RemotePtr} {e : ElistRef K V} {newP : RemotePtr} {pr : PlistPair} :
      m.bucket t.beforeLocalizedCurr b = some pr →
      Branch T pool root op m (.publishPlist t b bb e newP) (m.setBase t.beforeLocalizedCurr b newP)
        (.inl (.updateCurr t b bb e newP))
  | updateCurr {t : Traversal} {b : Nat} {bb : RemotePtr} {e : ElistRef K V} {newP : RemotePtr} :
      Branch T pool root op m (.updateCurr t b bb e newP) (t.curr.setBase m b newP).1
        (.inl (.unlockPlist { t with curr := (t.curr.setBase m b newP).2 } b bb e newP))
  | unlockPlist {t : Traversal} {b : Nat} {bb : RemotePtr} {e : ElistRef K V} {newP : RemotePtr} {pr : PlistPair} :
      t.curr.bucket m b = some pr → (m.locks pr.lock).isSome →
      Branch T pool root op m (.unlockPlist t b bb e newP) (m.setLock pr.lock .pUnlocked)
        (.inl (.afterRehash t bb e))
  | afterRehash {t : Traversal} {bb : RemotePtr} {e : ElistRef K V} :
      Branch T pool root op m (.afterRehash t bb e) (releaseElist pool m (some (bb, e)))
        (.inl (.acquire { t with oldBucketBase := false }))
  | unlock {t : Traversal} {b : Nat} {held : Option (RemotePtr × ElistRef K V)} {res : HtRes V} {pr : PlistPair} :
      t.curr.bucket m b = some pr → (m.locks pr.lock).isSome →
      Branch T pool root op m (.unlock t b held res) (m.setLock pr.lock .eUnlocked) (.inl (.leave t held res))
  | leave {t : Traversal} {held : Option (RemotePtr × ElistRef K V)} {res : HtRes V} :
      Branch T pool root op m (.leave t held res) (t.release (releaseElist pool m held)) (.inr res)

variable {T : Template K V} {pool : Nat} {m m' : Mem K V}

theorem extendedRead_eq {ptr : RemotePtr} {n : Nat} {curr : PlistRef}
    (read : extendedRead T pool m ptr n = .ok (curr, m')) : ∃ bs, m.plists ptr = some bs ∧
      T.plistSize * n ≤ bs.length ∧ curr = .copied (m.fresh pool) (bs.take (T.plistSize * n)) ∧ m' = m.bump := by
  simp only [extendedRead] at read
  split at read
  · cases read
  · next bs stored =>
    split at read <;> cases read
    next long => exact ⟨bs, stored, long, rfl, rfl⟩

theorem readElist_eq {ptr : RemotePtr} {e : ElistRef K V} (read : readElist pool m ptr = .ok (e, m')) :
    ∃ el, m.elists ptr = some el ∧ e = .copied (m.fresh pool) el ∧ m' = m.bump := by
  simp only [readElist] at read
  split at read
  · cases read
  · next el stored => cases read; exact ⟨el, stored, rfl, rfl⟩

theorem changeBucketPointer_eq {t : Traversal} {b : Nat} {base : RemotePtr}
    (changed : changeBucketPointer t b base m = .ok m') :
    ∃ pr, m.bucket t.beforeLocalizedCurr b = some pr ∧ m' = m.setBase t.beforeLocalizedCurr b base := by
  simp only [changeBucketPointer] at changed
  split at changed
  · cases changed
  · next pr found => cases changed; exact ⟨pr, found, rfl⟩

theorem unlockBucket_ok {t : Traversal} {b : Nat} {w : LockType} (unlocked : unlockBucket t b w m = .ok m') :
    ∃ pr, t.curr.bucket m b = some pr ∧ (m.locks pr.lock).isSome ∧ m' = m.setLock pr.lock w := by
  simp only [unlockBucket] at unlocked
  split at unlocked
  · cases unlocked
  · next pr found =>
    split at unlocked <;> cases unlocked
    next stored => exact ⟨pr, found, stored, rfl⟩

/-! ## A turn of the loop of `rehash` -/

def Mem.linkElist (m : Mem K V) (self : Nat) (newP : RemotePtr) (b : Nat) (el : EList K V) : Mem K V :=
  ((m.newElist self {}).setBase newP b (m.fresh self)).setElist (m.fresh self) el

theorem Mem.elists_linkElist (self : Nat) (newP : RemotePtr) (b : Nat) (el : EList K V) (q : RemotePtr) :
    (m.linkElist self newP b el).elists q = if q = m.fresh self then some el else m.elists q := by
  unfold linkElist
  rw [elists_setElist, elists_setBase, elists_newElist]
  split <;> rfl

theorem Mem.bucket_linkElist (self : Nat) (newP : RemotePtr) (b : Nat) (el : EList K V) (q : RemotePtr) (j : Nat) :
    (m.linkElist self newP b el).bucket q j =
      if q = newP ∧ j = b then (m.bucket q j).map fun pr => { pr with base := m.fresh self } else m.bucket q j := by
  unfold linkElist
  rw [bucket_setElist, bucket_setBase]
  rfl

theorem Mem.plists_linkElist (self : Nat) (newP : RemotePtr) (b : Nat) (el : EList K V) (q : RemotePtr) :
    (m.linkElist self newP b el).plists q =
      if q = newP then (m.plists q).map fun bs => bs.modify b fun pr => { pr with base := m.fresh self } else m.plists q := by
  unfold linkElist
  rw [plists_setElist, plists_setBase]
  rfl

inductive Moved (T : Template K V) (pool : Nat) (m : Mem K V) (newP : RemotePtr) (b : Nat) (pair : Pair K V) : Mem K V → Prop where
  | first {pr : PlistPair} {el : EList K V} : m.bucket newP b = some pr → pr.base = .null →
      T.elistInsert {} pair = some el → Moved T pool m newP b pair (m.linkElist pool newP b el)
  | more {pr : PlistPair} {el el' : EList K V} : m.bucket newP b = some pr → pr.base ≠ .null →
      m.elists pr.base = some el → T.elistInsert el pair = some el' → Moved T pool m newP b pair (m.setElist pr.base el')

theorem moveInto_eq_ok {newP : RemotePtr} {depth count : Nat} {pair : Pair K V} :
    moveInto T pool m newP depth count pair = .ok m' ↔ Moved T pool m newP (T.levelHash pair.key depth count) pair m' := by
  have list : ((m.newElist pool {}).setBase newP (T.levelHash pair.key depth count) (m.fresh pool)).elists (m.fresh pool) =
      some {} := by
    rw [Mem.elists_setBase, Mem.elists_newElist, if_pos rfl]
  constructor
  · intro moved
    simp only [moveInto] at moved
    split at moved
    · cases moved
    · next pr found =>
      by_cases null : pr.base = .null
      · simp only [null, if_true, list] at moved
        split at moved <;> cases moved
        next inserted => exact .first found null inserted
      · simp only [null, if_false] at moved
        split at moved
        · cases moved
        · next stored =>
          split at moved <;> cases moved
          next inserted => exact .more found null stored inserted
  · intro moved
    cases moved with
    | first found null inserted => simp only [moveInto, found, null, if_true, list, inserted, Mem.linkElist]
    | more found notNull stored inserted => simp only [moveInto, found, notNull, if_false, stored, inserted]

/-! ## All steps -/

variable [DecidableEq K] {root : RemotePtr} {op : IhtOp K V} {pc : Pc K V} {next : Pc K V ⊕ HtRes V}

theorem acquire_branch {t : Traversal} (stepped : step T pool root op m (.acquire t) = .ok (m', next)) :
    Branch T pool root op m (.acquire t) m' next := by
  simp only [step] at stepped
  split at stepped
  · cases stepped
  · next pr found =>
    cases word : m.locks pr.lock with
    | none => simp [Mem.compareAndSwap, word] at stepped
    | some w =>
      simp only [Mem.compareAndSwap, word, Option.map_some] at stepped
      cases w with
      | eLocked => cases stepped; exact .spins found word
      | eUnlocked => cases stepped; exact .locks found word
      | pUnlocked => cases stepped; exact .closed found word

theorem step_branch (stepped : step T pool root op m pc = .ok (m', next)) : Branch T pool root op m pc m' next := by
  cases pc with
  | readRoot =>
    obtain ⟨⟨curr, m₁⟩, read, rest⟩ := bind_eq_ok.mp stepped
    obtain ⟨bs, stored, long, rfl, rfl⟩ := extendedRead_eq read
    cases rest
    exact .readRoot stored long
  | acquire t => exact acquire_branch stepped
  -- the copy is indexed only after the read, so a short copy is the error here
  | refetch t b =>
    obtain ⟨⟨copy, m₁⟩, read, rest⟩ := bind_eq_ok.mp stepped
    obtain ⟨bs, stored, long, rfl, rfl⟩ := extendedRead_eq read
    dsimp only at rest
    split at rest
    · cases rest
    · next pr found => cases rest; exact .refetch stored long found
  | descend t bb =>
    simp only [step] at stepped
    split at stepped
    · next near => cases stepped; exact .descendLocal near
    · next far =>
      obtain ⟨⟨curr, m₁⟩, read, rest⟩ := bind_eq_ok.mp stepped
      obtain ⟨bs, stored, long, rfl, rfl⟩ := extendedRead_eq read
      cases rest
      exact .descendRemote far stored long
  | loadBase t b =>
    simp only [step] at stepped
    split at stepped
    · cases stepped
    · next pr found =>
      split at stepped
      · next null => cases stepped; exact .loadNull found null
      · next some_ =>
        split at stepped <;> cases stepped
        · next near => exact .loadLocal found some_ near
        · next far => exact .loadRemote found some_ (by simpa using far)
  | readElist t b bb =>
    obtain ⟨⟨e, m₁⟩, read, rest⟩ := bind_eq_ok.mp stepped
    obtain ⟨el, stored, rfl, rfl⟩ := readElist_eq read
    cases rest
    exact .readElist stored
  | search t b bb e i =>
    simp only [step] at stepped
    split at stepped
    · cases stepped
    · next el stored =>
      split at stepped
      · next live =>
        split at stepped
        · cases stepped
        · next pair at_ =>
          split at stepped <;> cases stepped
          · next same => exact .found stored live at_ same
          · next other => exact .turn stored live at_ other
      · next through => cases stepped; exact .missing stored through
  | newElist t b pair =>
    simp only [step] at stepped
    split at stepped <;> cases stepped
    next el inserted => exact .newElist inserted
  | publishElist t b eBase =>
    obtain ⟨m₁, changed, rest⟩ := bind_eq_ok.mp stepped
    obtain ⟨pr, found, rfl⟩ := changeBucketPointer_eq changed
    cases rest
    exact .publishElist found
  | storePair t b bb e pair =>
    simp only [step] at stepped
    split at stepped
    · cases stepped
    · next el stored =>
      split at stepped <;> cases stepped
      next room => exact .storePair stored room
  | storeCount t b bb e =>
    simp only [step] at stepped
    split at stepped <;> cases stepped
    next el stored => exact .storeCount stored
  | swapLast t b bb e i result =>
    simp only [step] at stepped
    split at stepped
    · cases stepped
    · next el stored =>
      split at stepped <;> cases stepped
      next last at_ => exact .swapLast stored at_
  | dropCount t b bb e result =>
    simp only [step] at stepped
    split at stepped <;> cases stepped
    next el stored => exact .dropCount stored
  | writeBack t b bb e res =>
    simp only [step] at stepped
    split at stepped <;> cases stepped
    next el old copy stored => exact .writeBack copy stored
  | newPlist t b bb e =>
    simp only [step] at stepped
    split at stepped <;> cases stepped
    next n buckets => exact .newPlist buckets
  -- `rehash` tests `is_local` once more, on the pointer that `parent` holds
  | rehashSource t b bb e newP =>
    simp only [step] at stepped
    split at stepped
    · cases stepped
    · next pr found =>
      split at stepped
      · next near => cases stepped; exact .sourceLocal found near
      · next far =>
        obtain ⟨⟨source, m₁⟩, read, rest⟩ := bind_eq_ok.mp stepped
        obtain ⟨el, stored, rfl, rfl⟩ := readElist_eq read
        cases rest
        exact .sourceRemote found (by simpa using far) stored
  | rehashMove t b bb e newP source i =>
    simp only [step] at stepped
    split at stepped
    · cases stepped
    · next el stored =>
      split at stepped
      · next live =>
        split at stepped
        · cases stepped
        · next pair at_ =>
          obtain ⟨m₁, moved, rest⟩ := bind_eq_ok.mp stepped
          cases rest
          exact .move stored live at_ moved
      · next through => cases stepped; exact .moved stored through
  | rehashFree t b bb e newP source => cases stepped; exact .rehashFree
  | publishPlist t b bb e newP =>
    obtain ⟨m₁, changed, rest⟩ := bind_eq_ok.mp stepped
    obtain ⟨pr, found, rfl⟩ := changeBucketPointer_eq changed
    cases rest
    exact .publishPlist found
  | updateCurr t b bb e newP => cases stepped; exact .updateCurr
  | unlockPlist t b bb e newP =>
    obtain ⟨m₁, unlocked, rest⟩ := bind_eq_ok.mp stepped
    obtain ⟨pr, found, stored, rfl⟩ := unlockBucket_ok unlocked
    cases rest
    exact .unlockPlist found stored
  | afterRehash t bb e => cases stepped; exact .afterRehash
  | unlock t b held res =>
    obtain ⟨m₁, unlocked, rest⟩ := bind_eq_ok.mp stepped
    obtain ⟨pr, found, stored, rfl⟩ := unlockBucket_ok unlocked
    cases rest
    exact .unlock found stored
  | leave t held res => cases stepped; exact .leave

end RdmaIht.Iht
