import RdmaIht.Iht.Change
import RdmaIht.Iht.Machine

/-! What a thread may assert at each point of an operation.

The assertions are about the P-List the thread stands at, the bucket whose lock
it holds and the P-List it builds; they do not depend on the age of its copies.
They survive any `Change` that leaves those blocks and the permanently unlocked
buckets alone.
-/

set_option autoImplicit false

namespace RdmaIht.Iht

variable {K V : Type}

def Mem.Word (m : Mem K V) (p : RemotePtr) (b : Nat) (w : LockType) : Prop :=
  ∃ pr, m.bucket p b = some pr ∧ m.locks pr.lock = some w

theorem Mem.Word.functional {m : Mem K V} {p : RemotePtr} {b : Nat} {w w' : LockType}
    (first : m.Word p b w) (second : m.Word p b w') : w = w' := by
  obtain ⟨pr, found, stored⟩ := first
  obtain ⟨pr', found', stored'⟩ := second
  cases found.symm.trans found'
  exact Option.some.inj (stored.symm.trans stored')

theorem Template.size_succ (T : Template K V) {depth : Nat} (pos : 1 ≤ depth) :
    T.size (depth + 1) = T.size depth * 2 := by
  obtain ⟨d, rfl⟩ : ∃ d, depth = d + 1 := ⟨depth - 1, by omega⟩
  simp only [size, Nat.add_sub_cancel, Nat.pow_succ, Nat.mul_assoc]

theorem Template.two_le_size (T : Template K V) (plist : 2 ≤ T.plistSize) (depth : Nat) :
    2 ≤ T.size depth :=
  Nat.le_trans plist (Nat.le_mul_of_pos_right _ (Nat.two_pow_pos _))

theorem Template.levelHash_lt (T : Template K V) (key : K) (level : Nat) {count : Nat} (two : 2 ≤ count) :
    T.levelHash key level count < count := by
  have := Nat.mod_lt (BitVec.ofNat 64 level ^^^ T.preHash key).toNat (show count - 1 > 0 by omega)
  simp only [levelHash]
  omega

def Published (root : RemotePtr) (home : Home) (m : Mem K V) (p : RemotePtr) : Prop :=
  p = root ∨ ∃ q j, home p = some (q, j) ∧ m.Word q j .pUnlocked

/-- `t` stands at a P-List of the length it counts with, and its copy has the
lock pointers of that P-List and bases that were once its own. -/
structure Located (T : Template K V) (root : RemotePtr) (home : Home) (m : Mem K V) (t : Traversal) :
    Prop where
  depth_pos : 1 ≤ t.depth
  count_eq : t.count = T.size t.depth
  plist : ∃ bs, m.plists t.beforeLocalizedCurr = some bs ∧ bs.length = t.count
  published : Published root home m t.beforeLocalizedCurr
  inPlace : ∀ p, t.curr = .inPlace p → p = t.beforeLocalizedCurr ∧ t.oldBucketBase = false
  copied : ∀ block buckets, t.curr = .copied block buckets → buckets.length = t.count ∧
    ∀ b pr, buckets[b]? = some pr → ∃ pr', m.bucket t.beforeLocalizedCurr b = some pr' ∧
      pr.lock = pr'.lock ∧ (pr.base = .null ∨ home pr.base = some (t.beforeLocalizedCurr, b))

/-- `t` holds the lock of its bucket `b`, and apart from `skip` all that was
allocated for the bucket is E-Lists that are still allocated. -/
structure Held (T : Template K V) (root : RemotePtr) (home : Home) (m : Mem K V) (t : Traversal) (b : Nat)
    (skip : Option RemotePtr) : Prop where
  located : Located T root home m t
  word : m.Word t.beforeLocalizedCurr b .eLocked
  owned : ∀ e, home e = some (t.beforeLocalizedCurr, b) → some e ≠ skip →
    ∃ el, m.elists e = some el ∧ T.Fits el

/-- A local E-List is used in place and a remote one through a copy. -/
structure RefOk (T : Template K V) (pool : Nat) (bucketBase : RemotePtr) (e : ElistRef K V) : Prop where
  inPlace : ∀ p, e = .inPlace p → p = bucketBase ∧ bucketBase.isLocal pool = true
  copied : ∀ block el, e = .copied block el → T.Fits el ∧ bucketBase.isLocal pool = false

structure AtList (T : Template K V) (root : RemotePtr) (home : Home) (m : Mem K V) (pool : Nat)
    (t : Traversal) (b : Nat) (bucketBase : RemotePtr) (e : ElistRef K V) (skip : Option RemotePtr) : Prop
    extends Held T root home m t b skip where
  base_home : home bucketBase = some (t.beforeLocalizedCurr, b)
  base_curr : ∃ pr, t.curr.bucket m b = some pr ∧ pr.base = bucketBase
  base_skip : some bucketBase ≠ skip
  ref : RefOk T pool bucketBase e

/-- `newP` is the P-List being built for bucket `b`; no other thread knows it. -/
structure Building (home : Home) (m : Mem K V) (t : Traversal) (b : Nat) (newP : RemotePtr) : Prop where
  built_home : home newP = some (t.beforeLocalizedCurr, b)
  built_plist : ∃ nbs, m.plists newP = some nbs ∧ nbs.length = t.count * 2
  unlocked : ∀ {j pr}, m.bucket newP j = some pr → m.locks pr.lock = some .eUnlocked
  only : ∀ {q bs}, home q = some (t.beforeLocalizedCurr, b) → m.plists q = some bs → q = newP

def Filled (home : Home) (m : Mem K V) (newP : RemotePtr) (i : Nat) : Prop :=
  ∀ j e el, home e = some (newP, j) → m.elists e = some el → el.count ≤ i

def HeldOk (T : Template K V) (self : Nat) (held : Option (RemotePtr × ElistRef K V)) : Prop :=
  ∀ bucketBase e, held = some (bucketBase, e) → RefOk T self bucketBase e

def PcInv (T : Template K V) (root : RemotePtr) (home : Home) (m : Mem K V) (self : Nat) : Pc K V → Prop
  | .readRoot => True
  | .acquire t => Located T root home m t
  | .refetch t b => Located T root home m t ∧ m.Word t.beforeLocalizedCurr b .pUnlocked
  | .descend t bb => Located T root home m t ∧ ∃ b, home bb = some (t.beforeLocalizedCurr, b) ∧
      m.Word t.beforeLocalizedCurr b .pUnlocked ∧
      ∃ child, m.plists bb = some child ∧ child.length = t.count * 2
  | .loadBase t b | .newElist t b _ => Held T root home m t b none
  | .readElist t b bb => Held T root home m t b none ∧ home bb = some (t.beforeLocalizedCurr, b) ∧
      (∃ pr, t.curr.bucket m b = some pr ∧ pr.base = bb) ∧ bb.isLocal self = false
  | .search t b bb e _ | .newPlist t b bb e => AtList T root home m self t b bb e none
  | .publishElist t b eBase => Held T root home m t b none ∧ home eBase = some (t.beforeLocalizedCurr, b)
  | .storePair t b bb e _ => AtList T root home m self t b bb e none ∧
      ∃ el, e.get m = some el ∧ el.count < T.elistSize
  | .storeCount t b bb e => AtList T root home m self t b bb e none ∧
      ∃ el, e.get m = some el ∧ el.count < el.pairs.length
  | .swapLast t b bb e i _ => AtList T root home m self t b bb e none ∧
      ∃ el, e.get m = some el ∧ i < el.count ∧ 1 < el.count
  | .dropCount t b bb e _ => AtList T root home m self t b bb e none ∧
      ∃ el, e.get m = some el ∧ 1 ≤ el.count
  | .writeBack t b bb e _ => AtList T root home m self t b bb e none ∧ bb.isLocal self = false
  | .rehashSource t b bb e newP => AtList T root home m self t b bb e (some newP) ∧
      Building home m t b newP ∧ Filled home m newP 0
  | .rehashMove t b bb e newP source i => AtList T root home m self t b bb e (some newP) ∧
      Building home m t b newP ∧ Filled home m newP i ∧ RefOk T self bb source ∧
      ∃ el, source.get m = some el ∧ i ≤ el.count
  | .rehashFree t b bb e newP source => AtList T root home m self t b bb e (some newP) ∧
      Building home m t b newP ∧ RefOk T self bb source
  | .publishPlist t b bb e newP => Located T root home m t ∧ m.Word t.beforeLocalizedCurr b .eLocked ∧
      Building home m t b newP ∧ RefOk T self bb e
  | .updateCurr t b bb e newP | .unlockPlist t b bb e newP => Located T root home m t ∧
      m.Word t.beforeLocalizedCurr b .eLocked ∧ Building home m t b newP ∧ RefOk T self bb e ∧
      ∃ pr, m.bucket t.beforeLocalizedCurr b = some pr ∧ pr.base = newP
  | .afterRehash t bb e => Located T root home m t ∧ RefOk T self bb e
  | .unlock t b held _ => Held T root home m t b none ∧ HeldOk T self held
  | .leave t held _ => Located T root home m t ∧ HeldOk T self held

/-- The bucket whose lock a thread holds: between its successful `acquire` and its `unlock`. -/
def Pc.held : Pc K V → Option (RemotePtr × Nat)
  | .readRoot | .acquire _ | .refetch _ _ | .descend _ _ | .afterRehash _ _ _ | .leave _ _ _ => none
  | .loadBase t b | .readElist t b _ | .search t b _ _ _ | .newElist t b _ | .publishElist t b _
  | .storePair t b _ _ _ | .storeCount t b _ _ | .swapLast t b _ _ _ _ | .dropCount t b _ _ _
  | .writeBack t b _ _ _ | .newPlist t b _ _ | .rehashSource t b _ _ _ | .rehashMove t b _ _ _ _ _
  | .rehashFree t b _ _ _ _ | .publishPlist t b _ _ _ | .updateCurr t b _ _ _ | .unlockPlist t b _ _ _
  | .unlock t b _ _ => some (t.beforeLocalizedCurr, b)

def Pc.built : Pc K V → Option RemotePtr
  | .rehashSource _ _ _ _ newP | .rehashMove _ _ _ _ newP _ _ | .rehashFree _ _ _ _ newP _
  | .publishPlist _ _ _ _ newP | .updateCurr _ _ _ _ newP | .unlockPlist _ _ _ _ newP => some newP
  | _ => none

variable {T : Template K V} {root : RemotePtr} {touch : RemotePtr → Nat → Prop} {home home' : Home}
  {m m' : Mem K V} {self : Nat}

section Facts

variable {t : Traversal} {b : Nat} {bb : RemotePtr} {e : ElistRef K V} {skip : Option RemotePtr}

theorem Located.bucket (located : Located T root home m t) (shape : Shape T root home m) {b : Nat}
    {pr : PlistPair} (found : t.curr.bucket m b = some pr) :
    ∃ pr', m.bucket t.beforeLocalizedCurr b = some pr' ∧ pr.lock = pr'.lock ∧
      (pr.base = .null ∨ home pr.base = some (t.beforeLocalizedCurr, b)) := by
  cases curr : t.curr with
  | inPlace p =>
    obtain ⟨rfl, _⟩ := located.inPlace p curr
    rw [curr] at found
    exact ⟨pr, found, rfl, shape.base_ok found⟩
  | copied block buckets =>
    rw [curr] at found
    exact (located.copied block buckets curr).2 b pr found

theorem Located.exists_bucket (located : Located T root home m t) {b : Nat} (bound : b < t.count) :
    ∃ pr, t.curr.bucket m b = some pr := by
  cases curr : t.curr with
  | inPlace p =>
    obtain ⟨rfl, _⟩ := located.inPlace p curr
    obtain ⟨bs, found, length⟩ := located.plist
    exact ⟨bs[b], Mem.bucket_eq_some.mpr ⟨bs, found, by simp [length, bound]⟩⟩
  | copied block buckets =>
    obtain ⟨length, _⟩ := located.copied block buckets curr
    exact ⟨buckets[b], by simp [PlistRef.bucket, length, bound]⟩

theorem Located.word_lt (located : Located T root home m t) {b : Nat} {w : LockType}
    (word : m.Word t.beforeLocalizedCurr b w) : b < t.count := by
  obtain ⟨pr, found, _⟩ := word
  obtain ⟨bs, stored, length⟩ := located.plist
  obtain ⟨bs', stored', at_⟩ := Mem.bucket_eq_some.mp found
  cases stored.symm.trans stored'
  rw [← length]
  exact (List.getElem?_eq_some_iff.mp at_).1

theorem Located.levelHash_eq (located : Located T root home m t) (key : K) :
    T.levelHash key t.depth t.count = T.index key t.depth := by
  rw [located.count_eq]
  rfl

theorem Located.double (located : Located T root home m t) :
    t.count * 2 = T.plistSize * 2 ^ t.depth := by
  rw [located.count_eq, ← T.size_succ located.depth_pos, Template.size, Nat.add_sub_cancel]

theorem Located.buckets (located : Located T root home m t) (plist : 2 ≤ T.plistSize) :
    T.buckets (t.count * 2 / T.plistSize) = if t.count * 2 < 2 ^ 31 then some (t.count * 2) else none := by
  have factor : t.count * 2 / T.plistSize = 2 ^ t.depth := by
    rw [located.double]
    exact Nat.mul_div_cancel_left _ (by omega)
  rw [Template.buckets, factor, ← located.double]

theorem RefOk.get (ref : RefOk T self bb e) (fits : ∃ el, m.elists bb = some el ∧ T.Fits el) :
    ∃ el, e.get m = some el ∧ T.Fits el := by
  cases shape : e with
  | inPlace p =>
    obtain ⟨rfl, _⟩ := ref.inPlace p shape
    exact fits
  | copied block el => exact ⟨el, rfl, (ref.copied block el shape).1⟩

theorem AtList.stored (at_ : AtList T root home m self t b bb e skip) :
    ∃ el, m.elists bb = some el ∧ T.Fits el := at_.owned bb at_.base_home at_.base_skip

theorem AtList.get (at_ : AtList T root home m self t b bb e skip) :
    ∃ el, e.get m = some el ∧ T.Fits el := at_.ref.get at_.stored

theorem AtList.notNull (at_ : AtList T root home m self t b bb e skip) (shape : Shape T root home m) :
    bb ≠ .null := by
  rintro rfl
  have owned := at_.base_home
  rw [shape.home_null] at owned
  cases owned

theorem PcInv.held {pc : Pc K V} (inv : PcInv T root home m self pc) {p : RemotePtr} {b : Nat}
    (holds : pc.held = some (p, b)) : m.Word p b .eLocked ∧ Published root home m p := by
  have of_held : ∀ {t b' skip}, Held T root home m t b' skip → some (t.beforeLocalizedCurr, b') = some (p, b) →
      m.Word p b .eLocked ∧ Published root home m p := by
    rintro t b' skip held same
    cases same
    exact ⟨held.word, held.located.published⟩
  cases pc with
  | readRoot | acquire | refetch | descend | afterRehash | leave => cases holds
  | loadBase | newElist => exact of_held inv holds
  | search | newPlist => exact of_held inv.toHeld holds
  | readElist | publishElist | unlock => exact of_held inv.1 holds
  | storePair | storeCount | swapLast | dropCount | writeBack | rehashSource | rehashMove | rehashFree =>
    exact of_held inv.1.toHeld holds
  | publishPlist | updateCurr | unlockPlist => cases holds; exact ⟨inv.2.1, inv.1.published⟩

theorem PcInv.built {pc : Pc K V} (inv : PcInv T root home m self pc) {newP : RemotePtr}
    (builds : pc.built = some newP) : ∃ x, pc.held = some x ∧ home newP = some x ∧
      ∀ {j pr}, m.bucket newP j = some pr → m.locks pr.lock = some .eUnlocked := by
  cases pc <;> try cases builds
  case rehashSource => exact ⟨_, rfl, inv.2.1.built_home, inv.2.1.unlocked⟩
  case rehashMove => exact ⟨_, rfl, inv.2.1.built_home, inv.2.1.unlocked⟩
  case rehashFree => exact ⟨_, rfl, inv.2.1.built_home, inv.2.1.unlocked⟩
  case publishPlist => exact ⟨_, rfl, inv.2.2.1.built_home, inv.2.2.1.unlocked⟩
  case updateCurr => exact ⟨_, rfl, inv.2.2.1.built_home, inv.2.2.1.unlocked⟩
  case unlockPlist => exact ⟨_, rfl, inv.2.2.1.built_home, inv.2.2.1.unlocked⟩

theorem PcInv.built_unpublished {pc : Pc K V} (inv : PcInv T root home m self pc)
    (shape : Shape T root home m) {newP : RemotePtr} (builds : pc.built = some newP) :
    ¬ Published root home m newP := by
  obtain ⟨⟨p, b⟩, holds, owned, _⟩ := inv.built builds
  rintro (rfl | ⟨q, j, owned', word⟩)
  · rw [shape.home_root] at owned
    cases owned
  · cases owned.symm.trans owned'
    cases (inv.held holds).1.functional word

end Facts

section Stable

variable (change : Change touch home home' m m')

include change

theorem Mem.Word.stable {p : RemotePtr} {b : Nat} {w : LockType} (word : m.Word p b w)
    (away : ¬ touch p b) : m'.Word p b w := by
  obtain ⟨pr, found, stored⟩ := word
  obtain ⟨pr', now, same, _⟩ := change.bucket found
  exact ⟨pr', now, by rw [same, change.lock found away, stored]⟩

variable (open_ : ∀ p b, m.Word p b .pUnlocked → ¬ touch p b)

include open_

theorem Published.stable {p : RemotePtr} (published : Published root home m p) :
    Published root home' m' p := by
  rcases published with rfl | ⟨q, j, owned, word⟩
  · exact .inl rfl
  · exact .inr ⟨q, j, change.homes owned, word.stable change (open_ q j word)⟩

theorem Located.stable {t : Traversal} (located : Located T root home m t) :
    Located T root home' m' t where
  depth_pos := located.depth_pos
  count_eq := located.count_eq
  plist := by
    obtain ⟨bs, found, length⟩ := located.plist
    obtain ⟨bs', now, same⟩ := change.plists found
    exact ⟨bs', now, same.trans length⟩
  published := located.published.stable change open_
  inPlace := located.inPlace
  copied := by
    intro block buckets curr
    obtain ⟨length, lookup⟩ := located.copied block buckets curr
    refine ⟨length, fun b pr found => ?_⟩
    obtain ⟨pr', was, lock, base⟩ := lookup b pr found
    obtain ⟨pr'', now, same, _⟩ := change.bucket was
    exact ⟨pr'', now, lock.trans same.symm, base.imp_right change.homes⟩

omit open_ in
theorem PlistRef.bucket_stable {t : Traversal} (located : Located T root home m t)
    {b : Nat} (away : ¬ touch t.beforeLocalizedCurr b) {pr : PlistPair}
    (found : t.curr.bucket m b = some pr) : t.curr.bucket m' b = some pr := by
  cases curr : t.curr with
  | inPlace p =>
    obtain ⟨rfl, _⟩ := located.inPlace p curr
    rw [curr] at found
    obtain ⟨pr', now, _, keep⟩ := change.bucket found
    rw [← keep away]
    exact now
  | copied block buckets =>
    rw [curr] at found
    exact found

theorem Held.stable {t : Traversal} {b : Nat} {skip : Option RemotePtr}
    (held : Held T root home m t b skip) (away : ¬ touch t.beforeLocalizedCurr b) :
    Held T root home' m' t b skip where
  located := held.located.stable change open_
  word := held.word.stable change away
  owned := by
    intro e owned other
    have was := change.homesBack owned away
    rw [change.elists was away]
    exact held.owned e was other

theorem AtList.stable {t : Traversal} {b : Nat} {bb : RemotePtr} {e : ElistRef K V}
    {skip : Option RemotePtr} (at_ : AtList T root home m self t b bb e skip)
    (away : ¬ touch t.beforeLocalizedCurr b) : AtList T root home' m' self t b bb e skip where
  toHeld := at_.toHeld.stable change open_ away
  base_home := change.homes at_.base_home
  base_curr := by
    obtain ⟨pr, found, base⟩ := at_.base_curr
    exact ⟨pr, PlistRef.bucket_stable change at_.located away found, base⟩
  base_skip := at_.base_skip
  ref := at_.ref

omit open_ in
theorem ElistRef.get_stable {t : Traversal} {b : Nat} {bb : RemotePtr} {e : ElistRef K V}
    (ref : RefOk T self bb e) (owned : home bb = some (t.beforeLocalizedCurr, b))
    (away : ¬ touch t.beforeLocalizedCurr b) : e.get m' = e.get m := by
  cases shape : e with
  | inPlace p =>
    obtain ⟨rfl, _⟩ := ref.inPlace p shape
    exact change.elists owned away
  | copied block el => rfl

omit open_ in
theorem Building.stable {t : Traversal} {b : Nat} {newP : RemotePtr} (building : Building home m t b newP)
    (away : ¬ touch t.beforeLocalizedCurr b) (apart : ∀ j, ¬ touch newP j) :
    Building home' m' t b newP where
  built_home := change.homes building.built_home
  built_plist := by
    obtain ⟨bs, found, length⟩ := building.built_plist
    obtain ⟨bs', now, same⟩ := change.plists found
    exact ⟨bs', now, same.trans length⟩
  unlocked := by
    intro j pr found
    obtain ⟨bs', stored', at'⟩ := Mem.bucket_eq_some.mp found
    obtain ⟨bs, stored, _⟩ := building.built_plist
    obtain ⟨bs'', stored'', same⟩ := change.plists stored
    cases stored'.symm.trans stored''
    have bound := (List.getElem?_eq_some_iff.mp at').1
    have was : m.bucket newP j = some bs[j] :=
      Mem.bucket_eq_some.mpr ⟨bs, stored, List.getElem?_eq_getElem (same ▸ bound)⟩
    obtain ⟨pr', now, _, keep⟩ := change.bucket was
    cases found.symm.trans now
    rw [keep (apart j), change.lock was (apart j)]
    exact building.unlocked was
  only := by
    intro q bs owned found
    obtain ⟨bs', was⟩ := change.plistsBack owned away found
    exact building.only (change.homesBack owned away) was

omit open_ in
theorem Filled.stable {newP : RemotePtr} {i : Nat} (filled : Filled home m newP i)
    (apart : ∀ j, ¬ touch newP j) : Filled home' m' newP i := by
  intro j e el owned found
  have was := change.homesBack owned (apart j)
  rw [change.elists was (apart j)] at found
  exact filled j e el was found

/-- A thread's assertion survives the steps that leave its blocks alone. -/
theorem PcInv.stable {pc : Pc K V} (inv : PcInv T root home m self pc)
    (away : ∀ p b, pc.held = some (p, b) → ¬ touch p b)
    (apart : ∀ newP, pc.built = some newP → ∀ j, ¬ touch newP j) : PcInv T root home' m' self pc := by
  -- the pointer in a bucket changes only under the bucket's lock
  have bucketStays : ∀ {t : Traversal} {b newP}, ¬ touch t.beforeLocalizedCurr b →
      (∃ pr, m.bucket t.beforeLocalizedCurr b = some pr ∧ pr.base = newP) →
      ∃ pr, m'.bucket t.beforeLocalizedCurr b = some pr ∧ pr.base = newP := by
    rintro t b newP away ⟨pr, found, base⟩
    obtain ⟨pr', now, _, keep⟩ := change.bucket found
    exact ⟨pr', now, by rw [keep away, base]⟩
  cases pc with
  | readRoot => trivial
  | acquire t => exact Located.stable change open_ inv
  | refetch t b => exact ⟨inv.1.stable change open_, inv.2.stable change (open_ _ _ inv.2)⟩
  -- no lock is held here: what is known of the child is that it was published
  | descend t bb =>
    obtain ⟨located, b, owned, word, child, found, length⟩ := inv
    obtain ⟨child', now, same⟩ := change.plists found
    exact ⟨located.stable change open_, b, change.homes owned, word.stable change (open_ _ _ word), child',
      now, same.trans length⟩
  | loadBase t b => exact Held.stable change open_ inv (away _ _ rfl)
  | newElist t b pair => exact Held.stable change open_ inv (away _ _ rfl)
  | readElist t b bb =>
    obtain ⟨held, owned, ⟨pr, found, base⟩, far⟩ := inv
    exact ⟨held.stable change open_ (away _ _ rfl), change.homes owned,
      ⟨pr, PlistRef.bucket_stable change held.located (away _ _ rfl) found, base⟩, far⟩
  | search t b bb e i => exact AtList.stable change open_ inv (away _ _ rfl)
  | newPlist t b bb e => exact AtList.stable change open_ inv (away _ _ rfl)
  | publishElist t b eBase => exact ⟨inv.1.stable change open_ (away _ _ rfl), change.homes inv.2⟩
  | storePair t b bb e pair =>
    refine ⟨inv.1.stable change open_ (away _ _ rfl), ?_⟩
    rw [ElistRef.get_stable change inv.1.ref inv.1.base_home (away _ _ rfl)]
    exact inv.2
  | storeCount t b bb e =>
    refine ⟨inv.1.stable change open_ (away _ _ rfl), ?_⟩
    rw [ElistRef.get_stable change inv.1.ref inv.1.base_home (away _ _ rfl)]
    exact inv.2
  | swapLast t b bb e i result =>
    refine ⟨inv.1.stable change open_ (away _ _ rfl), ?_⟩
    rw [ElistRef.get_stable change inv.1.ref inv.1.base_home (away _ _ rfl)]
    exact inv.2
  | dropCount t b bb e result =>
    refine ⟨inv.1.stable change open_ (away _ _ rfl), ?_⟩
    rw [ElistRef.get_stable change inv.1.ref inv.1.base_home (away _ _ rfl)]
    exact inv.2
  | writeBack t b bb e res => exact ⟨inv.1.stable change open_ (away _ _ rfl), inv.2⟩
  | rehashSource t b bb e newP =>
    exact ⟨inv.1.stable change open_ (away _ _ rfl), inv.2.1.stable change (away _ _ rfl) (apart _ rfl),
      inv.2.2.stable change (apart _ rfl)⟩
  | rehashMove t b bb e newP source i =>
    obtain ⟨at_, building, filled, ref, source⟩ := inv
    refine ⟨at_.stable change open_ (away _ _ rfl), building.stable change (away _ _ rfl) (apart _ rfl),
      filled.stable change (apart _ rfl), ref, ?_⟩
    rw [ElistRef.get_stable change ref at_.base_home (away _ _ rfl)]
    exact source
  | rehashFree t b bb e newP source =>
    exact ⟨inv.1.stable change open_ (away _ _ rfl), inv.2.1.stable change (away _ _ rfl) (apart _ rfl),
      inv.2.2⟩
  | publishPlist t b bb e newP =>
    obtain ⟨located, word, building, ref⟩ := inv
    exact ⟨located.stable change open_, word.stable change (away _ _ rfl),
      building.stable change (away _ _ rfl) (apart _ rfl), ref⟩
  | updateCurr t b bb e newP =>
    obtain ⟨located, word, building, ref, base⟩ := inv
    exact ⟨located.stable change open_, word.stable change (away _ _ rfl),
      building.stable change (away _ _ rfl) (apart _ rfl), ref, bucketStays (away _ _ rfl) base⟩
  | unlockPlist t b bb e newP =>
    obtain ⟨located, word, building, ref, base⟩ := inv
    exact ⟨located.stable change open_, word.stable change (away _ _ rfl),
      building.stable change (away _ _ rfl) (apart _ rfl), ref, bucketStays (away _ _ rfl) base⟩
  | afterRehash t bb e => exact ⟨inv.1.stable change open_, inv.2⟩
  | unlock t b held res => exact ⟨inv.1.stable change open_ (away _ _ rfl), inv.2⟩
  | leave t held res => exact ⟨inv.1.stable change open_, inv.2⟩

end Stable

end RdmaIht.Iht
