import RdmaIht.Iht.Alone
import RdmaIht.Iht.Workload

/-! The two phases of an operation of `RdmaIHT` that runs alone.

It first finds its bucket and searches it, and changes nothing but the lock of the
bucket. If it then makes a change at all, it is an `insert` or a `remove` that
will succeed: in the P-List an `insert` makes for a full E-List the key is absent.
-/

set_option autoImplicit false

namespace RdmaIht.Iht

open Concurrency

variable {K V : Type}

/-- `m` is `m₀` but for the lock that is held and for local blocks. -/
structure Same (m₀ m : Mem K V) (held : Option (RemotePtr × Nat)) : Prop where
  plists : m.plists = m₀.plists
  elists : m.elists = m₀.elists
  free : held = none → m.locks = m₀.locks
  locked : ∀ p b, held = some (p, b) → ∃ pr, m₀.bucket p b = some pr ∧ m₀.locks pr.lock = some .eUnlocked ∧
    m.locks = Function.update m₀.locks pr.lock (some .eLocked)

def Lacks (key : K) (el : EList K V) : Prop := ∀ pair ∈ el.live, pair.key ≠ key

/-- The descent of `key` ends at bucket `T.index key d` of `p`, whose E-List is full and lacks it. -/
def Overfull (T : Template K V) (root : RemotePtr) (m : Mem K V) (key : K) (p : RemotePtr) (d : Nat) : Prop :=
  Walk T root m key p d ∧ ∃ pr el, m.bucket p (T.index key d) = some pr ∧ m.locks pr.lock = some .eUnlocked ∧
    pr.base ≠ .null ∧ m.elists pr.base = some el ∧ T.elistSize ≤ el.count ∧ Lacks key el

def Unsuccessful (op : IhtOp K V) (res : HtRes V) : Prop := (∃ key, op = .contains key) ∨ res.status = .falseState

/-- What an operation knows of the tree `m₀` it started in while it only reads. -/
def Pc.Reading (T : Template K V) (root : RemotePtr) (m₀ m : Mem K V) (op : IhtOp K V) : Pc K V → Prop
  | .readRoot => True
  | .acquire t => Walk T root m₀ op.key t.beforeLocalizedCurr t.depth
  | .refetch t b => Leads T root m₀ t.beforeLocalizedCurr t.depth b op.key
  | .descend t bb => Walk T root m₀ op.key bb (t.depth + 1)
  | .loadBase t b => Leads T root m₀ t.beforeLocalizedCurr t.depth b op.key ∧
      ∀ pr, t.curr.bucket m b = some pr → m₀.bucket t.beforeLocalizedCurr b = some pr
  | .readElist t b bb => Leads T root m₀ t.beforeLocalizedCurr t.depth b op.key ∧
      ∃ pr, m₀.bucket t.beforeLocalizedCurr b = some pr ∧ pr.base = bb
  | .search t b bb e i => Leads T root m₀ t.beforeLocalizedCurr t.depth b op.key ∧
      (∃ pr, m₀.bucket t.beforeLocalizedCurr b = some pr ∧ pr.base = bb) ∧ e.get m = m₀.elists bb ∧
      ∀ el, e.get m = some el → ∀ pair ∈ el.live.take i, pair.key ≠ op.key
  | .unlock _ _ _ res | .leave _ _ res => Unsuccessful op res ∧
      (op.isInsert = true → ∀ p d, ¬ Overfull T root m₀ op.key p d)
  | _ => False

/-- The points from which an operation makes its first change. -/
def Pc.Decided (T : Template K V) (root : RemotePtr) (m₀ : Mem K V) (op : IhtOp K V) : Pc K V → Prop
  | .newElist _ _ _ | .storePair _ _ _ _ _ => op.isInsert = true ∧ ∀ p d, ¬ Overfull T root m₀ op.key p d
  | .swapLast _ _ _ _ _ _ | .dropCount _ _ _ _ _ => ∃ key, op = .remove key
  | .newPlist t _ bb _ => op.isInsert = true ∧ Overfull T root m₀ op.key t.beforeLocalizedCurr t.depth ∧
      ∀ el, m₀.elists bb = some el → Lacks op.key el
  | _ => False

variable {T : Template K V} {root : RemotePtr} {pool : Nat} {op : IhtOp K V} {home home' : Home}
  {m₀ m m' : Mem K V} {pc pc' : Pc K V}

theorem Same.bump {held : Option (RemotePtr × Nat)} (same : Same m₀ m held) : Same m₀ m.bump held := { same with }

theorem Same.bucket {held : Option (RemotePtr × Nat)} (same : Same m₀ m held) (p : RemotePtr) (b : Nat) :
    m.bucket p b = m₀.bucket p b := by
  rw [Mem.bucket, same.plists]
  rfl

theorem Overfull.at_ {key : K} {p q : RemotePtr} {d n b : Nat} (overfull : Overfull T root m key q n)
    (leads : Leads T root m p d b key) {pr : PlistPair} (found : m.bucket p b = some pr)
    (open_ : m.locks pr.lock = some .eUnlocked) :
    pr.base ≠ .null ∧ ∃ el, m.elists pr.base = some el ∧ T.elistSize ≤ el.count ∧ Lacks key el := by
  obtain ⟨walk, qr, el, found', open_', notNull, stored, full, lacks⟩ := overfull
  have stop : ∀ {p b} {pr : PlistPair}, m.bucket p b = some pr → m.locks pr.lock = some .eUnlocked →
      ¬ m.Word p b .pUnlocked := by
    intro p b pr found word closed
    cases closed.functional ⟨pr, found, word⟩
  obtain ⟨rfl, rfl, rfl⟩ := leads.unique ⟨walk, rfl⟩ (stop found open_) (stop found' open_')
  cases found.symm.trans found'
  exact ⟨notNull, el, stored, full, lacks⟩

section Reading

theorem Reading.searched {t : Traversal} {b i : Nat} {bb : RemotePtr} {e : ElistRef K V} {el : EList K V}
    (reading : (Pc.search t b bb e i).Reading T root m₀ m op) (stored : e.get m = some el) (through : ¬ i < el.count) :
    Lacks op.key el := by
  intro pair mem
  have short : el.live.length ≤ i := by
    have bound : el.live.length ≤ el.count := List.length_take_le _ _
    omega
  rw [← List.take_of_length_le short] at mem
  exact reading.2.2.2 el stored pair mem

theorem Same.unlocked {p : RemotePtr} {b : Nat} (same : Same m₀ m (some (p, b))) {pr : PlistPair}
    (found : m₀.bucket p b = some pr) : m₀.locks pr.lock = some .eUnlocked := by
  obtain ⟨qr, found', open_, _⟩ := same.locked p b rfl
  cases found.symm.trans found'
  exact open_

theorem Same.onEmpty {t : Traversal} {b : Nat} (same : Same m₀ m (some (t.beforeLocalizedCurr, b)))
    (leads : Leads T root m₀ t.beforeLocalizedCurr t.depth b op.key) {pr : PlistPair}
    (found : m₀.bucket t.beforeLocalizedCurr b = some pr) (null : pr.base = .null) :
    (onEmpty T op t b).Reading T root m₀ m op ∨ (onEmpty T op t b).Decided T root m₀ op := by
  have notFull : ∀ p d, ¬ Overfull T root m₀ op.key p d := by
    intro p d overfull
    exact (overfull.at_ leads found (same.unlocked found)).1 null
  cases op with
  | contains key | remove key => exact .inl ⟨.inr rfl, fun reads => by cases reads⟩
  | insert key value => exact .inr ⟨rfl, notFull⟩

theorem Reading.onFound {t : Traversal} {b i : Nat} {bb : RemotePtr} {e : ElistRef K V} {el : EList K V} {pair : Pair K V}
    (same : Same m₀ m (some (t.beforeLocalizedCurr, b))) (reading : (Pc.search t b bb e i).Reading T root m₀ m op)
    (stored : e.get m = some el) (mem : pair ∈ el.live) (isKey : pair.key = op.key) :
    (onFound T op t b bb e el i pair).Reading T root m₀ m op ∨ (onFound T op t b bb e el i pair).Decided T root m₀ op := by
  have notFull : ∀ p d, ¬ Overfull T root m₀ op.key p d := by
    intro p d overfull
    obtain ⟨leads, ⟨pr, found, rfl⟩, got, _⟩ := reading
    obtain ⟨_, el', stored', _, lacks⟩ := overfull.at_ leads found (same.unlocked found)
    cases stored.symm.trans (got.trans stored')
    exact lacks pair mem isKey
  cases op with
  | contains key => exact .inl ⟨.inl ⟨key, rfl⟩, fun reads => by cases reads⟩
  | insert key value => exact .inl ⟨.inr rfl, fun _ => notFull⟩
  | remove key =>
    simp only [Iht.onFound]
    split <;> exact .inr ⟨key, rfl⟩

/-- A bucket that lacks the key decides an `insert`: the E-List has room or it is rehashed. -/
theorem Alone.onMissing {t : Traversal} {b i : Nat} {bb : RemotePtr} {e : ElistRef K V} {el : EList K V}
    (alone : Alone T root pool op home m (.search t b bb e i)) (same : Same m₀ m (some (t.beforeLocalizedCurr, b)))
    (reading : (Pc.search t b bb e i).Reading T root m₀ m op) (stored : e.get m = some el) (through : ¬ i < el.count) :
    (onMissing T op t b bb e el).Reading T root m₀ m op ∨ (onMissing T op t b bb e el).Decided T root m₀ op := by
  have lacks := Reading.searched reading stored through
  obtain ⟨leads, ⟨pr, found, rfl⟩, got, _⟩ := reading
  have open_ := same.unlocked found
  rw [got] at stored
  cases op with
  | contains key | remove key => exact .inl ⟨.inr rfl, fun reads => by cases reads⟩
  | insert key value =>
    simp only [Iht.onMissing]
    split
    · next room =>
      refine .inr ⟨rfl, fun p d overfull => ?_⟩
      obtain ⟨_, el', stored', full, _⟩ := overfull.at_ leads found open_
      cases stored.symm.trans stored'
      omega
    · next full =>
      obtain ⟨walk, rfl⟩ := leads
      have at_ : AtList T root home m pool t _ pr.base e none := alone.inv
      have notNull := at_.notNull alone.shape
      refine .inr ⟨rfl, ⟨walk, pr, el, found, open_, notNull, stored, Nat.le_of_not_lt full, lacks⟩, ?_⟩
      intro el' stored'
      cases stored.symm.trans stored'
      exact lacks

theorem Alone.reading [DecidableEq K] (alone : Alone T root pool op home m pc) (same : Same m₀ m pc.held)
    (reading : pc.Reading T root m₀ m op) (branch : Branch T pool root op m pc m' (.inl pc')) :
    Same m₀ m' pc'.held ∧ (pc'.Reading T root m₀ m' op ∨ (m' = m ∧ pc'.Decided T root m₀ op)) := by
  have inv := alone.inv
  have shape := alone.shape
  generalize goes : (Sum.inl pc' : Pc K V ⊕ HtRes V) = next at branch
  cases branch <;> cases goes <;> try exact False.elim reading
  case readRoot => exact ⟨same.bump, .inl .root⟩
  case closed t pr found word =>
    have located : Located T root home m t := inv
    exact ⟨same, .inl ⟨reading, (located.levelHash_eq op.key).symm⟩⟩
  case spins => exact ⟨same, .inl reading⟩
  -- the lock is the only cell that differs from the memory the operation began in
  case locks t pr found word =>
    have located : Located T root home m t := inv
    have index : T.bucketOf op t = T.index op.key t.depth := located.levelHash_eq op.key
    obtain ⟨pr', found', lock, _⟩ := located.bucket shape found
    have stored : m₀.bucket t.beforeLocalizedCurr (T.bucketOf op t) = some pr' := same.bucket _ _ ▸ found'
    have locks := same.free rfl
    refine ⟨⟨same.plists, same.elists, by simp [Pc.held], ?_⟩, .inl ⟨⟨reading, index.symm⟩, ?_⟩⟩
    · rintro p b ⟨⟩
      refine ⟨pr', stored, by rw [← lock, ← locks]; exact word, ?_⟩
      simp [Mem.setLock, locks, lock]
    · intro qr copy
      have copy' : t.curr.bucket m (T.bucketOf op t) = some qr := by
        cases curr : t.curr <;> rw [curr] at copy <;> exact copy
      rw [index] at copy' found'
      rw [alone.current qr pr' copy' found' (by rw [← lock, word]; simp)]
      exact stored
  case refetch t b bs pr stored long at_ =>
    obtain ⟨qr, found, closed⟩ := inv.2
    cases found.symm.trans (Mem.bucket_of_copy stored at_)
    refine ⟨same.bump, .inl (.down reading.1 ?_ ?_)⟩
    · rw [← same.bucket, reading.2]
      exact found
    · rw [← same.free rfl]
      exact closed
  case descendLocal t bb near =>
    have located : Located T root home m t := inv.1
    rw [located.release_eq]
    exact ⟨same, .inl reading⟩
  case descendRemote t bb bs far stored long =>
    have located : Located T root home m t := inv.1
    rw [located.bump.release_eq]
    exact ⟨same.bump, .inl reading⟩
  case loadNull t b pr found null =>
    refine ⟨held_onEmpty t b ▸ same, ?_⟩
    exact (Same.onEmpty same reading.1 (reading.2 pr found) null).imp_right fun decided => ⟨rfl, decided⟩
  case loadLocal t b pr found notNull near =>
    refine ⟨same, .inl ⟨reading.1, ⟨pr, reading.2 pr found, rfl⟩, ?_, fun el _ pair mem => by cases mem⟩⟩
    rw [ElistRef.get, same.elists]
  case loadRemote t b pr found notNull far => exact ⟨same, .inl ⟨reading.1, pr, reading.2 pr found, rfl⟩⟩
  case readElist t b bb el stored =>
    refine ⟨same.bump, .inl ⟨reading.1, reading.2, ?_, fun el _ pair mem => by cases mem⟩⟩
    rw [← same.elists, stored]
    rfl
  case found t b bb e i el pair stored live at_ isKey =>
    refine ⟨held_onFound t b bb e el i pair ▸ same, ?_⟩
    have mem := List.mem_of_getElem? (EList.getElem?_live live at_)
    exact (Reading.onFound same reading stored mem isKey).imp_right fun decided => ⟨rfl, decided⟩
  -- one more pair of the list is known to carry another key
  case turn t b bb e i el pair stored live at_ other =>
    refine ⟨same, .inl ⟨reading.1, reading.2.1, reading.2.2.1, ?_⟩⟩
    intro el' stored' pair' mem
    cases stored.symm.trans stored'
    rw [List.take_add_one, EList.getElem?_live live at_, List.mem_append] at mem
    rcases mem with before | here
    · exact reading.2.2.2 el stored pair' before
    · cases List.mem_singleton.mp here
      exact other
  case missing t b bb e i el stored through =>
    refine ⟨held_onMissing t b bb e el ▸ same, ?_⟩
    exact (alone.onMissing same reading stored through).imp_right fun decided => ⟨rfl, decided⟩
  -- the word written back is the one the lock had
  case unlock t b held res pr found stored =>
    obtain ⟨qr, found', open_, locks⟩ := same.locked _ _ rfl
    obtain ⟨pr', shared, lock, _⟩ := inv.1.located.bucket shape found
    rw [same.bucket, found'] at shared
    cases shared
    refine ⟨⟨same.plists, same.elists, fun _ => ?_, by simp [Pc.held]⟩, .inl reading⟩
    simp [Mem.setLock, locks, lock, ← open_]

theorem Alone.left [DecidableEq K] (alone : Alone T root pool op home m pc) {res : HtRes V}
    (branch : Branch T pool root op m pc m' (.inr res)) : m' = m ∧ ∃ t held, pc = .leave t held res := by
  have inv := alone.inv
  generalize goes : (Sum.inr res : Pc K V ⊕ HtRes V) = next at branch
  cases branch <;> cases goes
  case leave t held =>
    have located : Located T root home m t := inv.1
    have kept : releaseElist pool m held = m := by
      rcases held with _ | ⟨bb, e⟩
      · rfl
      · exact (inv.2 bb e rfl).release_eq
    refine ⟨?_, t, held, rfl⟩
    rw [kept]
    exact located.release_eq

/-- An operation that returns in the first phase leaves the tree as it was. -/
theorem Alone.unchanged [DecidableEq K] (alone : Alone T root pool op home m pc) (same : Same m₀ m pc.held)
    {res : HtRes V} (branch : Branch T pool root op m pc m' (.inr res)) :
    m'.plists = m₀.plists ∧ m'.locks = m₀.locks ∧ m'.elists = m₀.elists := by
  obtain ⟨rfl, t, held, rfl⟩ := alone.left branch
  exact ⟨same.plists, same.free rfl, same.elists⟩

end Reading

/-! ## The second phase -/

def AbsentAt (home : Home) (m : Mem K V) (key : K) (p : RemotePtr) (b : Nat) : Prop :=
  ∀ e el, home e = some (p, b) → m.elists e = some el → el.All fun pair => pair.key ≠ key

structure Cleared (home : Home) (m : Mem K V) (key : K) (p : RemotePtr) : Prop where
  opened : ∀ j pr, m.bucket p j = some pr → m.locks pr.lock = some .eUnlocked
  absent : ∀ j, AbsentAt home m key p j

def Below (home : Home) (m : Mem K V) (key : K) (p : RemotePtr) (b : Nat) : Prop :=
  ∃ pr, m.bucket p b = some pr ∧ m.locks pr.lock = some .pUnlocked ∧ Cleared home m key pr.base

/-- An operation that changes the tree succeeds. -/
def Pc.Committed (T : Template K V) (home : Home) (m : Mem K V) (op : IhtOp K V) : Pc K V → Prop
  | .readRoot => False
  | .acquire t => op.isInsert = true ∧ (Cleared home m op.key t.beforeLocalizedCurr ∨
      Below home m op.key t.beforeLocalizedCurr (T.index op.key t.depth))
  | .afterRehash t _ _ => op.isInsert = true ∧ Below home m op.key t.beforeLocalizedCurr (T.index op.key t.depth)
  | .refetch t b => op.isInsert = true ∧ Below home m op.key t.beforeLocalizedCurr b
  | .descend _ bb => op.isInsert = true ∧ Cleared home m op.key bb
  | .loadBase t b | .readElist t b _ => op.isInsert = true ∧ AbsentAt home m op.key t.beforeLocalizedCurr b
  | .search _ _ bb e _ => op.isInsert = true ∧ e.get m = m.elists bb ∧ ∀ el, m.elists bb = some el → Lacks op.key el
  | .newPlist _ _ bb _ => op.isInsert = true ∧ ∀ el, m.elists bb = some el → Lacks op.key el
  | .rehashSource _ _ bb _ newP => op.isInsert = true ∧ (∀ el, m.elists bb = some el → Lacks op.key el) ∧
      ∀ j, AbsentAt home m op.key newP j
  | .rehashMove _ _ _ _ newP source _ => op.isInsert = true ∧ (∀ el, source.get m = some el → Lacks op.key el) ∧
      ∀ j, AbsentAt home m op.key newP j
  | .rehashFree _ _ _ _ newP _ | .publishPlist _ _ _ _ newP | .updateCurr _ _ _ _ newP | .unlockPlist _ _ _ _ newP =>
      op.isInsert = true ∧ ∀ j, AbsentAt home m op.key newP j
  | .newElist _ _ _ | .publishElist _ _ _ | .storePair _ _ _ _ _ | .storeCount _ _ _ _ => op.isInsert = true
  | .swapLast _ _ _ _ _ _ | .dropCount _ _ _ _ _ => ∀ key, op ≠ .contains key
  | .writeBack _ _ _ _ res | .unlock _ _ _ res | .leave _ _ res => res.status = .trueState ∧ ∀ key, op ≠ .contains key

theorem ne_contains (inserts : op.isInsert = true) (key : K) : op ≠ .contains key := by
  rintro rfl
  cases inserts

theorem EList.All.lacks {key : K} {el : EList K V} (all : el.All fun pair => pair.key ≠ key) : Lacks key el :=
  fun pair mem => all pair (List.mem_of_mem_take mem)

theorem Cleared.congr {key : K} {p : RemotePtr} (cleared : Cleared home m key p) (plists : m'.plists = m.plists)
    (elists : m'.elists = m.elists) (locks : ∀ j pr, m.bucket p j = some pr → m'.locks pr.lock = m.locks pr.lock) :
    Cleared home m' key p where
  opened := by
    intro j pr found
    rw [Mem.bucket, plists] at found
    rw [locks j pr found]
    exact cleared.opened j pr found
  absent := by
    intro j e el owned stored
    rw [elists] at stored
    exact cleared.absent j e el owned stored

theorem AbsentAt.moved {key : K} {newP : RemotePtr} {depth count : Nat} {pair : Pair K V} (shape : Shape T root home m)
    (absent : ∀ j, AbsentAt home m key newP j) (other : pair.key ≠ key)
    (owners : ∀ e x, home' e = some x → home e = some x ∨ e = m.fresh pool)
    (moved : moveInto T pool m newP depth count pair = .ok m') (j : Nat) : AbsentAt home' m' key newP j := by
  have before : ∀ {e el}, home' e = some (newP, j) → m.elists e = some el → el.All fun pair => pair.key ≠ key := by
    intro e el owned stored
    rcases owners e _ owned with old | rfl
    · exact absent j e el old stored
    · rw [shape.elists_fresh] at stored
      cases stored
  intro e el' owned stored
  rcases moveInto_elists moved stored with same | ⟨el, was, inserted⟩
  · exact before owned same
  · refine T.elistInsert_all ?_ other inserted
    rcases was with was | rfl
    · exact before owned was
    · intro pair mem
      cases mem

theorem Pc.Decided.committed (decided : pc.Decided T root m₀ op) (elists : m.elists = m₀.elists) :
    pc.Committed T home m op := by
  cases pc with
  | newElist | storePair => exact decided.1
  | swapLast | dropCount =>
    obtain ⟨key, rfl⟩ := decided
    intro other same
    cases same
  | newPlist =>
    refine ⟨decided.1, ?_⟩
    rw [elists]
    exact decided.2.2
  | _ => exact False.elim decided

section Committed

variable {t : Traversal} {b : Nat} {bb : RemotePtr} {e : ElistRef K V}

theorem afterStore_committed {res : HtRes V} (success : res.status = .trueState) (changes : ∀ key, op ≠ .contains key) :
    (afterStore pool t b bb e res).Committed T home m op := by
  unfold afterStore
  split <;> exact ⟨success, changes⟩

theorem onMissing_committed {el : EList K V} (inserts : op.isInsert = true)
    (lacks : ∀ el, m.elists bb = some el → Lacks op.key el) : (onMissing T op t b bb e el).Committed T home m op := by
  cases op with
  | contains key | remove key => cases inserts
  | insert key value =>
    simp only [onMissing]
    split
    · exact rfl
    · exact ⟨rfl, lacks⟩

theorem onEmpty_committed (inserts : op.isInsert = true) : (onEmpty T op t b).Committed T home m op := by
  cases op with
  | contains key | remove key => cases inserts
  | insert key value => exact rfl

end Committed

theorem Alone.published (alone : Alone T root pool op home m pc) {t : Traversal} {b : Nat} {bb newP : RemotePtr}
    {e : ElistRef K V} (here : pc = .unlockPlist t b bb e newP) (absent : ∀ j, AbsentAt home m op.key newP j)
    {pr : PlistPair} (found : t.curr.bucket m b = some pr) :
    Below home (m.setLock pr.lock .pUnlocked) op.key t.beforeLocalizedCurr (T.index op.key t.depth) := by
  subst here
  have shape := alone.shape
  obtain ⟨located, word, building, ref, qr, stored, rfl⟩ := alone.inv
  obtain ⟨pr', shared, lock, _⟩ := located.bucket shape found
  cases stored.symm.trans shared
  refine ⟨qr, ?_, by simp [lock, Mem.locks_setLock], ?_⟩
  · rw [alone.index rfl rfl]
    exact stored
  · refine ⟨fun j qr' found' => ?_, fun j e el owned kept => absent j e el owned kept⟩
    -- the locks of the new P-List are not the lock that is given back
    rw [Mem.locks_setLock, if_neg, building.unlocked found']
    intro same
    obtain ⟨isNew, _⟩ := shape.lock_inj found' stored (same.trans lock)
    exact alone.inv.built_unpublished shape rfl (isNew ▸ located.published)

theorem PcInv.source_kept (plist : 2 ≤ T.plistSize) (shape : Shape T root home m) {t : Traversal} {b i : Nat}
    {bb newP : RemotePtr} {e source : ElistRef K V} (inv : PcInv T root home m pool (.rehashMove t b bb e newP source i))
    {el : EList K V} (stored : source.get m = some el) (live : i < el.count) {pair : Pair K V}
    (moved : moveInto T pool m newP (t.depth + 1) (t.count * 2) pair = .ok m') : source.get m' = some el := by
  have unpublished := inv.built_unpublished shape rfl
  obtain ⟨at_, building, filled, ref, _⟩ := inv
  obtain ⟨el', stored', fits⟩ := ref.get at_.stored
  cases stored.symm.trans stored'
  have apart : t.beforeLocalizedCurr ≠ newP := by
    rintro rfl
    exact unpublished at_.located.published
  have room : i < T.elistSize := Nat.lt_of_lt_of_le live (Nat.le_trans fits.1 fits.2)
  obtain ⟨m₁, home₁, moved₁, _, change, _⟩ :=
    moveInto_ok pool plist shape at_.located building apart filled room pair (t.depth + 1)
  cases moved.symm.trans moved₁
  rw [ElistRef.get_stable change ref at_.base_home apart]
  exact stored

theorem Alone.committed [DecidableEq K] (plist : 2 ≤ T.plistSize) (alone : Alone T root pool op home m pc) (committed : pc.Committed T home m op)
    (branch : Branch T pool root op m pc m' (.inl pc')) {touch : RemotePtr → Nat → Prop}
    (sound : Sound T root pool home m pc home' touch m' (.inl pc')) : pc'.Committed T home' m' op := by
  have inv := alone.inv
  have shape := alone.shape
  have quiet : pc.allocates = none → home' = home := sound.home_eq
  generalize goes : (Sum.inl pc' : Pc K V ⊕ HtRes V) = next at branch
  cases branch <;> cases goes <;> try exact False.elim committed
  -- a P-List hangs here, so the bucket is not one that `Cleared` speaks of
  case closed t pr found word =>
    have located : Located T root home m t := inv
    cases quiet rfl
    obtain ⟨pr', shared, lock, _⟩ := located.bucket shape found
    refine ⟨committed.1, ?_⟩
    rw [Template.bucketOf, located.levelHash_eq] at shared ⊢
    rcases committed.2 with cleared | below
    · have open_ := cleared.opened _ pr' shared
      rw [← lock, word] at open_
      cases open_
    · exact below
  -- the lock was free, so this bucket holds an E-List
  case locks t pr found word =>
    have located : Located T root home m t := inv
    cases quiet rfl
    obtain ⟨pr', shared, lock, _⟩ := located.bucket shape found
    refine ⟨committed.1, ?_⟩
    rcases committed.2 with cleared | ⟨qr, found', closed, _⟩
    · exact cleared.absent _
    · rw [Template.bucketOf, located.levelHash_eq] at shared
      cases shared.symm.trans found'
      rw [← lock, word] at closed
      cases closed
  case spins => cases quiet rfl; exact committed
  case refetch t b bs pr stored long at_ =>
    cases quiet rfl
    obtain ⟨inserts, qr, found, _, cleared⟩ := committed
    cases found.symm.trans (Mem.bucket_of_copy stored at_)
    exact ⟨inserts, cleared.congr rfl rfl fun _ _ _ => rfl⟩
  case descendLocal t bb near =>
    have located : Located T root home m t := inv.1
    rw [located.release_eq]
    cases quiet rfl
    exact ⟨committed.1, .inl committed.2⟩
  case descendRemote t bb bs far stored long =>
    have located : Located T root home m t := inv.1
    rw [located.bump.release_eq]
    cases quiet rfl
    exact ⟨committed.1, .inl (committed.2.congr rfl rfl fun _ _ _ => rfl)⟩
  case loadNull => exact onEmpty_committed committed.1
  case loadLocal t b pr found notNull near =>
    have held : Held T root home m t b none := inv
    obtain ⟨_, _, _, null | owned⟩ := held.located.bucket shape found
    · exact absurd null notNull
    · exact ⟨committed.1, rfl, fun el stored => (committed.2 _ el owned stored).lacks⟩
  case loadRemote => cases quiet rfl; exact committed
  case readElist t b bb el stored =>
    refine ⟨committed.1, stored.symm, fun el' stored' => ?_⟩
    exact (committed.2 bb el' inv.2.1 stored').lacks
  -- the list lacks the key, so the search cannot find it
  case found t b bb e i el pair stored live at_ isKey =>
    obtain ⟨inserts, got, lacks⟩ := committed
    have mem := List.mem_of_getElem? (EList.getElem?_live live at_)
    exact absurd isKey (lacks el (got ▸ stored) pair mem)
  case turn => exact committed
  case missing => exact onMissing_committed committed.1 committed.2.2
  case newElist => exact committed
  case publishElist => exact ⟨rfl, ne_contains committed⟩
  case storePair => exact committed
  case storeCount => exact afterStore_committed rfl (ne_contains committed)
  case swapLast => exact committed
  case dropCount => exact afterStore_committed rfl committed
  case writeBack => exact committed
  case newPlist t b bb e n buckets =>
    refine ⟨committed.1, ?_, ?_⟩
    · rw [Mem.elists_newPlist]
      exact committed.2
    · -- nothing was allocated for a bucket of the new P-List yet
      intro j e' el owned _
      rcases sound.owners e' _ owned with old | ⟨_, isNew⟩
      · exact absurd old shape.not_home_fresh
      · have at_ : AtList T root home m pool t b bb e none := inv
        obtain ⟨bs, stored, _⟩ := at_.located.plist
        exact absurd (Option.some.inj isNew) (shape.ne_fresh_of_plist stored)
  case sourceLocal t b bb e newP pr found near =>
    cases quiet rfl
    obtain ⟨pr', found', rfl⟩ := inv.1.base_curr
    cases found.symm.trans found'
    exact committed
  case sourceRemote t b bb e newP pr el found far stored =>
    cases quiet rfl
    obtain ⟨pr', found', rfl⟩ := inv.1.base_curr
    cases found.symm.trans found'
    refine ⟨committed.1, ?_, committed.2.2⟩
    rintro el' ⟨⟩
    exact committed.2.1 el stored
  -- the pair moved comes from a list that lacks the key
  case move t b bb e newP source i el pair stored live at_ moved =>
    have other := committed.2.1 el stored pair (List.mem_of_getElem? (EList.getElem?_live live at_))
    have absent := AbsentAt.moved shape committed.2.2 other (fun e x owned => (sound.owners e x owned).imp_right And.left) moved
    refine ⟨committed.1, ?_, absent⟩
    rw [inv.source_kept plist shape stored live moved]
    rintro el' ⟨⟩
    exact committed.2.1 el stored
  case moved t b bb e newP source i el stored through =>
    refine ⟨committed.1, fun j e' el' owned stored' => ?_⟩
    rcases sound.owners e' _ owned with old | ⟨rfl, _⟩
    · exact committed.2.2 j e' el' old stored'
    · rw [shape.elists_fresh] at stored'
      cases stored'
  case rehashFree t b bb e newP source =>
    cases quiet rfl
    refine ⟨committed.1, fun j e' el owned stored => committed.2 j e' el owned ?_⟩
    cases source with
    | copied block el' => exact stored
    | inPlace ptr =>
      rw [ElistRef.free, Mem.elists_freeElist] at stored
      split at stored
      · cases stored
      · exact stored
  case publishPlist => cases quiet rfl; exact committed
  case updateCurr t b bb e newP =>
    cases quiet rfl
    refine ⟨committed.1, fun j e' el owned stored => committed.2 j e' el owned ?_⟩
    rw [PlistRef.elists_setBase] at stored
    exact stored
  -- from here on the lists of the new P-List are part of the tree
  case unlockPlist t b bb e newP pr found stored =>
    cases quiet rfl
    exact ⟨committed.1, alone.published rfl committed.2 found⟩
  case afterRehash t bb e =>
    rw [inv.2.release_eq]
    cases quiet rfl
    exact ⟨committed.1, .inr committed.2⟩
  case unlock => exact committed

/-! ## Operations that do not succeed -/

section Runs

structure Phase (T : Template K V) (root : RemotePtr) (pool : Nat) (op : IhtOp K V) (m₀ : Mem K V) (home : Home)
    (m : Mem K V) (pc : Pc K V) : Prop where
  alone : Alone T root pool op home m pc
  phase : (Same m₀ m pc.held ∧ pc.Reading T root m₀ m op) ∨ pc.Committed T home m op

theorem Phase.start {peer : Nat → Nat} {s : State K V} (invariant : Invariant T peer home s)
    (quiet : ∀ c, s.threads c = .idle) (pool : Nat) (op : IhtOp K V) :
    Phase T s.root pool op s.mem home s.mem .readRoot where
  alone := .start invariant quiet pool op
  phase := .inl ⟨⟨rfl, rfl, fun _ => rfl, fun _ _ held => by cases held⟩, trivial⟩

/-- Only an `insert` comes to a `rehash`, and then it is in its second phase. -/
theorem Phase.rehashing {t : Traversal} {b : Nat} {bb : RemotePtr} {e : ElistRef K V}
    (phase : Phase T root pool op m₀ home m (.newPlist t b bb e)) :
    op.isInsert = true ∧ (Pc.newPlist t b bb e).Committed T home m op := by
  rcases phase.phase with ⟨_, reading⟩ | committed
  · exact False.elim reading
  · exact ⟨committed.1, committed⟩

variable [DecidableEq K]

theorem Phase.next (plist : 2 ≤ T.plistSize) (elist : 1 ≤ T.elistSize) (phase : Phase T root pool op m₀ home m pc)
    (stepped : step T pool root op m pc = .ok (m', .inl pc')) : ∃ home', Phase T root pool op m₀ home' m' pc' ∧
      (pc.Committed T home m op → pc'.Committed T home' m' op) := by
  obtain ⟨home', touch, sound, goes⟩ := phase.alone.next plist elist stepped
  have branch := step_branch stepped
  have committed := fun before => phase.alone.committed plist before branch sound
  refine ⟨home', ⟨(goes pc' rfl).1, ?_⟩, committed⟩
  rcases phase.phase with ⟨same, reading⟩ | before
  · obtain ⟨same', reading' | ⟨rfl, decided⟩⟩ := phase.alone.reading same reading branch
    · exact .inl ⟨same', reading'⟩
    · exact .inr (decided.committed same.elists)
  · exact .inr (committed before)

theorem Phase.reached (plist : 2 ≤ T.plistSize) (elist : 1 ≤ T.elistSize) (phase : Phase T root pool op m₀ home m pc)
    (reached : Reachable (advance T root pool op) (m, pc) (m', pc')) : ∃ home', Phase T root pool op m₀ home' m' pc' ∧
      (pc.Committed T home m op → pc'.Committed T home' m' op) := by
  refine reached.invariant (P := fun at_ => ∃ home', Phase T root pool op m₀ home' at_.1 at_.2 ∧
    (pc.Committed T home m op → at_.2.Committed T home' at_.1 op)) ⟨home, phase, id⟩ ?_
  rintro ⟨m₁, pc₁⟩ _ ⟨m₂, pc₂⟩ ⟨home₁, phase₁, kept⟩ _ enabled
  obtain ⟨home₂, phase₂, kept'⟩ := phase₁.next plist elist (advance_eq_some.mp enabled)
  exact ⟨home₂, phase₂, kept' ∘ kept⟩

theorem Branch.succeeds {res : HtRes V} (branch : Branch T pool root op m pc m' (.inr res))
    (committed : pc.Committed T home m op) : ¬ Unsuccessful op res := by
  generalize goes : (Sum.inr res : Pc K V ⊕ HtRes V) = next at branch
  cases branch <;> cases goes
  rintro (⟨key, rfl⟩ | failed)
  · exact committed.2 key rfl
  · rw [committed.1] at failed
    cases failed

theorem Phase.succeeds (plist : 2 ≤ T.plistSize) (elist : 1 ≤ T.elistSize) (phase : Phase T root pool op m₀ home m pc)
    (committed : pc.Committed T home m op) {fuel : Nat} {res : HtRes V}
    (done : finish T root pool op fuel m pc = .ok (m', res)) : ¬ Unsuccessful op res := by
  obtain ⟨m₁, pc₁, reached, returns⟩ := finish_reached done
  obtain ⟨home₁, _, kept⟩ := phase.reached plist elist reached
  exact (step_branch returns).succeeds (kept committed)

/-- An operation returns, or it is an `insert` for which a length leaves `int`. -/
theorem Phase.outcome (plist : 2 ≤ T.plistSize) (elist : 1 ≤ T.elistSize) (phase : Phase T root pool op m₀ home m pc)
    (within : Within T 31 m) {fuel : Nat} (enough : pc.rank T 31 m op < fuel) :
    (op.isInsert = true ∧ finish T root pool op fuel m pc = .error .intOverflow) ∨
    ∃ m' res, finish T root pool op fuel m pc = .ok (m', res) := by
  rcases phase.alone.finish plist elist within enough with ⟨failed, m₁, t, b, bb, e, reached⟩ | done
  · obtain ⟨home₁, phase₁, _⟩ := phase.reached plist elist reached
    exact .inl ⟨phase₁.rehashing.1, failed⟩
  · exact .inr done

/-- In every tree that is left by completed operations, an operation that runs alone
returns, unless it is an `insert` for which a length leaves `int`; and a `contains`,
and any operation that returns `FALSE_STATE`, leaves all buckets, lock words and
E-Lists as they were and comes to no `rehash`. -/
theorem unsuccessful_unchanged (T : Template K V) (plist : 2 ≤ T.plistSize) (elist : 1 ≤ T.elistSize)
    (peer : Nat → Nat) (host : Nat) (s : State K V) (reachable : Reachable (exec T peer) (initial T host) s)
    (quiet : ∀ c, s.threads c = .idle) (pool : Nat) (op : IhtOp K V) (fuel : Nat) (enough : 31 * T.lap + 1 < fuel) :
    (op.isInsert = true ∧ finish T s.root pool op fuel s.mem .readRoot = .error .intOverflow) ∨
    ∃ m res, finish T s.root pool op fuel s.mem .readRoot = .ok (m, res) ∧ (Unsuccessful op res →
      m.plists = s.mem.plists ∧ m.locks = s.mem.locks ∧ m.elists = s.mem.elists ∧
        ∀ m₁ t b bb e, ¬ Reachable (advance T s.root pool op) (s.mem, .readRoot) (m₁, .newPlist t b bb e)) := by
  obtain ⟨home, invariant⟩ := Invariant.reachable plist elist reachable
  have phase : Phase T s.root pool op s.mem home s.mem .readRoot := .start invariant quiet pool op
  rcases phase.outcome plist elist (.reachable plist reachable) enough with overflows | ⟨m, res, done⟩
  · exact .inl overflows
  · refine .inr ⟨m, res, done, fun unsuccessful => ?_⟩
    obtain ⟨m₁, pc₁, reached, returns⟩ := finish_reached done
    obtain ⟨home₁, phase₁, _⟩ := phase.reached plist elist reached
    have branch := step_branch returns
    rcases phase₁.phase with ⟨same, _⟩ | committed
    · obtain ⟨plists, locks, elists⟩ := phase₁.alone.unchanged same branch
      refine ⟨plists, locks, elists, ?_⟩
      intro m₂ t b bb e reached₂
      obtain ⟨home₂, phase₂, _⟩ := phase.reached plist elist reached₂
      obtain ⟨rest, later⟩ := finish_of_reached reached₂ done
      exact phase₂.succeeds plist elist phase₂.rehashing.2 later unsuccessful
    · exact absurd unsuccessful (branch.succeeds committed)

/-- Client 0 inserts a key in the smallest table. -/
def insertedOnce : List (Action (BitVec 32) (BitVec 32)) := .invoke 0 (.insert 1 10) :: List.replicate 7 (.step 0)

theorem insertedOnce_check (check : State (BitVec 32) (BitVec 32) → Bool)
    (ok : ((runAll (exec (intTemplate 1 2) fun c => c) (initial (intTemplate 1 2) 0) insertedOnce).any fun s =>
      (match s.threads 0 with
        | .idle => true
        | .running _ _ _ => false) && check s) = true) :
    ∃ s, runAll (exec (intTemplate 1 2) fun c => c) (initial (intTemplate 1 2) 0) insertedOnce = some s ∧
      (∀ c, s.threads c = .idle) ∧ check s = true := by
  obtain ⟨s, final, both⟩ := (Option.any_eq_true _ _).mp ok
  obtain ⟨own, checked⟩ := Bool.and_eq_true_iff.mp both
  refine ⟨s, final, fun c => ?_, checked⟩
  by_cases zero : c = 0
  · subst zero
    split at own
    · assumption
    · cases own
  · exact threads_of_runAll final fun action mem => by
      rcases List.mem_cons.mp mem with rfl | step
      · exact Ne.symm zero
      · rw [(List.mem_replicate.mp step).2]
        exact Ne.symm zero

/-- Client 1 inserts the key again, through copies. -/
theorem unsuccessful_unchanged_again : ∃ s m, runAll (exec (intTemplate 1 2) fun c => c) (initial (intTemplate 1 2) 0)
      insertedOnce = some s ∧
    finish (intTemplate 1 2) s.root 1 (.insert 1 20) 994 s.mem .readRoot = .ok (m, ⟨.falseState, 10⟩) ∧
    m.plists = s.mem.plists ∧ m.locks = s.mem.locks ∧ m.elists = s.mem.elists := by
  obtain ⟨s, final, quiet, result⟩ := insertedOnce_check
    (fun s => match finish (intTemplate 1 2) s.root 1 (.insert 1 20) 994 s.mem .readRoot with
      | .ok (_, res) => res = ⟨.falseState, 10⟩
      | .error _ => false) (by decide +kernel)
  rcases unsuccessful_unchanged (intTemplate 1 2) (by decide) (by decide) (fun c => c) 0 s
    (reachable_of_runAll insertedOnce final) quiet 1 (.insert 1 20) 994 (by decide) with
    ⟨_, failed⟩ | ⟨m, res, done, unchanged⟩
  · rw [failed] at result
    cases result
  · rw [done] at result
    obtain rfl : res = ⟨.falseState, 10⟩ := by simpa using result
    obtain ⟨plists, locks, elists, _⟩ := unchanged (.inr rfl)
    exact ⟨s, m, final, done, plists, locks, elists⟩

end Runs

end RdmaIht.Iht
