import RdmaIht.Iht.Sequential

/-! An operation that runs alone ends.

Every step brings it closer to its end: it goes down one level, or it goes on in
its bucket, or it turns the full E-List of the bucket into a P-List, after which it
goes down. The tree cannot grow without bound because the length of a P-List is
computed in `int`.
-/

set_option autoImplicit false

namespace RdmaIht.Iht

variable {K V : Type} {T : Template K V} {root : RemotePtr} {pool : Nat} {op : IhtOp K V} {home : Home}
  {m m' : Mem K V} {pc : Pc K V}

/-! ## The depth of the tree -/

section Frame

def SamePlists (m m' : Mem K V) : Prop :=
  ∀ p bs', m'.plists p = some bs' → ∃ bs, m.plists p = some bs ∧ bs.length = bs'.length

theorem SamePlists.of_eq (same : m'.plists = m.plists) : SamePlists m m' := by
  intro p bs found
  exact ⟨bs, same ▸ found, rfl⟩

theorem SamePlists.trans {m'' : Mem K V} (first : SamePlists m m') (rest : SamePlists m' m'') : SamePlists m m'' := by
  intro p bs'' found
  obtain ⟨bs', found', length'⟩ := rest p bs'' found
  obtain ⟨bs, found, length⟩ := first p bs' found'
  exact ⟨bs, found, length.trans length'⟩

theorem SamePlists.setBase (m : Mem K V) (p : RemotePtr) (b : Nat) (base : RemotePtr) :
    SamePlists m (m.setBase p b base) := by
  intro q bs' found
  rw [Mem.plists_setBase] at found
  split at found
  · obtain ⟨bs, was, rfl⟩ := Option.map_eq_some_iff.mp found
    exact ⟨bs, was, by simp⟩
  · exact ⟨bs', found, rfl⟩

theorem SamePlists.free (m : Mem K V) (curr : PlistRef) : SamePlists m (curr.free m) := by
  cases curr with
  | inPlace p =>
    intro q bs found
    simp only [PlistRef.free, Mem.freePlist, Function.update_apply] at found
    split at found
    · cases found
    · exact ⟨bs, found, rfl⟩
  | copied block buckets => exact .of_eq rfl

theorem ElistRef.plists_free (m : Mem K V) (e : ElistRef K V) : (e.free m).plists = m.plists := by
  cases e <;> rfl

theorem ElistRef.plists_set (m : Mem K V) (e : ElistRef K V) (el : EList K V) : (e.set m el).1.plists = m.plists := by
  cases e <;> rfl

theorem SamePlists.release (t : Traversal) (m : Mem K V) : SamePlists m (t.release m) := by
  unfold Traversal.release
  split
  · exact .free m t.curr
  · exact .of_eq rfl

theorem plists_releaseElist (m : Mem K V) (held : Option (RemotePtr × ElistRef K V)) :
    (releaseElist pool m held).plists = m.plists := by
  unfold releaseElist
  split
  · split
    · rfl
    · exact ElistRef.plists_free m _
  · rfl

theorem moveInto_plists {newP : RemotePtr} {depth count : Nat} {pair : Pair K V}
    (moved : moveInto T pool m newP depth count pair = .ok m') : SamePlists m m' := by
  cases moveInto_eq_ok.mp moved with
  | first => exact .setBase (m.newElist pool {}) newP _ _
  | more => exact .of_eq rfl

/-- Only `rehash` makes a P-List, and it makes one of the length it computed. -/
theorem step_plists [DecidableEq K] {next : Pc K V ⊕ HtRes V}
    (stepped : step T pool root op m pc = .ok (m', next)) :
    SamePlists m m' ∨ ∃ t b bb e n, pc = .newPlist t b bb e ∧ T.buckets (t.count * 2 / T.plistSize) = some n ∧
      m' = m.newPlist pool n := by
  cases step_branch stepped with
  | newPlist buckets => exact .inr ⟨_, _, _, _, _, rfl, buckets, rfl⟩
  | descendLocal => exact .inl (.release _ m)
  | descendRemote => exact .inl (.release _ m.bump)
  | publishElist | publishPlist => exact .inl (.setBase _ _ _ _)
  | storePair | storeCount | swapLast | dropCount => exact .inl (.of_eq (ElistRef.plists_set _ _ _))
  | move _ _ _ moved => exact .inl (moveInto_plists moved)
  | rehashFree => exact .inl (.of_eq (ElistRef.plists_free _ _))
  | updateCurr =>
    unfold PlistRef.setBase
    split
    · exact .inl (.setBase _ _ _ _)
    · exact .inl (.of_eq rfl)
  | afterRehash => exact .inl (.of_eq (plists_releaseElist _ _))
  | leave => exact .inl ((SamePlists.of_eq (plists_releaseElist _ _)).trans (.release _ _))
  | _ => exact .inl (.of_eq rfl)

end Frame

def Within (T : Template K V) (top : Nat) (m : Mem K V) : Prop :=
  ∀ p bs, m.plists p = some bs → bs.length ≤ T.size top

theorem Within.step [DecidableEq K] {top : Nat} (within : Within T top m) {next : Pc K V ⊕ HtRes V}
    (stepped : step T pool root op m pc = .ok (m', next))
    (room : ∀ t b bb e n, pc = .newPlist t b bb e → T.buckets (t.count * 2 / T.plistSize) = some n →
      n ≤ T.size top) : Within T top m' := by
  intro p bs' found
  rcases step_plists stepped with same | ⟨t, b, bb, e, n, rfl, buckets, rfl⟩
  · obtain ⟨bs, was, length⟩ := same p bs' found
    exact length ▸ within p bs was
  · rw [Mem.plists_newPlist] at found
    split at found
    · cases found
      rw [Mem.length_initBuckets]
      exact room t b bb e n rfl buckets
    · exact within p bs' found

theorem Template.size_strictMono (T : Template K V) (plist : 2 ≤ T.plistSize) {d e : Nat} (pos : 1 ≤ e)
    (less : e < d) : T.size e < T.size d := by
  have powers : 2 ^ (e - 1) < 2 ^ (d - 1) := Nat.pow_lt_pow_right (by decide) (by omega)
  exact Nat.mul_lt_mul_of_pos_left powers (by omega)

theorem Within.depth_le {top : Nat} (within : Within T top m) (plist : 2 ≤ T.plistSize) (pos : 1 ≤ top) {t : Traversal}
    (located : Located T root home m t) : t.depth ≤ top := by
  obtain ⟨bs, found, length⟩ := located.plist
  by_contra deeper
  have longer := T.size_strictMono plist pos (Nat.lt_of_not_le deeper)
  have bound := within _ bs found
  rw [length, located.count_eq] at bound
  omega

/-! ## The steps that are left -/

def Pc.traversal : Pc K V → Option Traversal
  | .readRoot => none
  | .acquire t | .refetch t _ | .descend t _ | .loadBase t _ | .readElist t _ _ | .search t _ _ _ _
  | .newElist t _ _ | .publishElist t _ _ | .storePair t _ _ _ _ | .storeCount t _ _ _
  | .swapLast t _ _ _ _ _ | .dropCount t _ _ _ _ | .writeBack t _ _ _ _ | .newPlist t _ _ _
  | .rehashSource t _ _ _ _ | .rehashMove t _ _ _ _ _ _ | .rehashFree t _ _ _ _ _
  | .publishPlist t _ _ _ _ | .updateCurr t _ _ _ _ | .unlockPlist t _ _ _ _ | .afterRehash t _ _
  | .unlock t _ _ _ | .leave t _ _ => some t

theorem PcInv.located {t : Traversal} (inv : PcInv T root home m pool pc) (at_ : pc.traversal = some t) :
    Located T root home m t := by
  cases pc with
  | readRoot => cases at_
  | acquire => cases at_; exact inv
  | refetch | descend | publishPlist | updateCurr | unlockPlist | afterRehash | leave => cases at_; exact inv.1
  | loadBase | newElist | search | newPlist => cases at_; exact inv.located
  | _ => cases at_; exact inv.1.located

def Mem.lockWord (m : Mem K V) (p : RemotePtr) (b : Nat) : Option LockType :=
  (m.bucket p b).bind fun pr => m.locks pr.lock

theorem Mem.lockWord_eq {p : RemotePtr} {b : Nat} {w : LockType} : m.lockWord p b = some w ↔ m.Word p b w := by
  simp [lockWord, Word, Option.bind_eq_some_iff]

def Template.lap (T : Template K V) : Nat := 2 * T.elistSize + 30

/-- The steps an operation may still make at the depth where it stands. -/
def Pc.stage (T : Template K V) (m : Mem K V) (op : IhtOp K V) : Pc K V → Nat
  | .readRoot => 0
  | .acquire t =>
    if m.lockWord t.beforeLocalizedCurr (T.index op.key t.depth) = some .pUnlocked then 11
    else 2 * T.elistSize + 26
  | .loadBase _ _ => 2 * T.elistSize + 25
  | .readElist _ _ _ => 2 * T.elistSize + 24
  | .search _ _ _ _ i => T.elistSize + 20 + (T.elistSize - i)
  | .newPlist _ _ _ _ => T.elistSize + 19
  | .rehashSource _ _ _ _ _ => T.elistSize + 18
  | .rehashMove _ _ _ _ _ _ i => 17 + (T.elistSize - i)
  | .rehashFree _ _ _ _ _ _ => 16
  | .publishPlist _ _ _ _ _ => 15
  | .updateCurr _ _ _ _ _ => 14
  | .unlockPlist _ _ _ _ _ => 13
  | .afterRehash t _ _ =>
    if m.lockWord t.beforeLocalizedCurr (T.index op.key t.depth) = some .pUnlocked then 12
    else 2 * T.elistSize + 27
  | .refetch _ _ => 10
  | .descend _ _ => 9
  | .newElist _ _ _ | .storePair _ _ _ _ _ | .swapLast _ _ _ _ _ _ => 8
  | .publishElist _ _ _ | .storeCount _ _ _ _ | .dropCount _ _ _ _ _ => 7
  | .writeBack _ _ _ _ _ => 6
  | .unlock _ _ _ _ => 5
  | .leave _ _ _ => 4

def Pc.rank (T : Template K V) (top : Nat) (m : Mem K V) (op : IhtOp K V) (pc : Pc K V) : Nat :=
  match pc.traversal with
  | none => top * T.lap + 1
  | some t => (top - t.depth) * T.lap + pc.stage T m op

/-- What a step of an operation that runs alone leads to: it stays at its depth and
comes closer to its end there, or it goes one level down. -/
structure Closer (T : Template K V) (m : Mem K V) (op : IhtOp K V) (pc : Pc K V) (m' : Mem K V) (pc' : Pc K V) :
    Prop where
  traversal : ∃ t', pc'.traversal = some t' ∧ match pc.traversal with
    | none => t'.depth = 1
    | some t => t'.depth = t.depth ∨ (t'.depth = t.depth + 1 ∧ 9 ≤ pc.stage T m op)
  stage : pc'.stage T m' op ≤ 2 * T.elistSize + 26
  less : ∀ t t', pc.traversal = some t → pc'.traversal = some t' → t'.depth = t.depth →
    pc'.stage T m' op < pc.stage T m op

theorem Closer.rank_lt {pc' : Pc K V} (closer : Closer T m op pc m' pc') {top : Nat}
    (within : ∀ t, pc'.traversal = some t → t.depth ≤ top) : pc'.rank T top m' op < pc.rank T top m op := by
  obtain ⟨⟨t', goes, depth⟩, stage, less⟩ := closer
  have bound := within t' goes
  simp only [Pc.rank, goes]
  cases at_ : pc.traversal with
  | none =>
    rw [at_] at depth
    dsimp only at depth ⊢
    have split : top * T.lap = (top - t'.depth) * T.lap + T.lap := by
      rw [← Nat.succ_mul, Nat.succ_eq_add_one]
      congr 1
      omega
    simp only [Template.lap] at *
    omega
  | some t =>
    rw [at_] at depth
    dsimp only at depth ⊢
    -- within a lap the stage falls; a new lap lies one level deeper and is paid for by the depth
    rcases depth with same | ⟨down, far⟩
    · rw [same]
      have := less t t' at_ goes same
      omega
    · have split : (top - t.depth) * T.lap = (top - t'.depth) * T.lap + T.lap := by
        rw [← Nat.succ_mul, Nat.succ_eq_add_one]
        congr 1
        omega
      simp only [Template.lap] at *
      omega

theorem Pc.stage_le (T : Template K V) (m : Mem K V) (op : IhtOp K V) (pc : Pc K V) :
    pc.stage T m op ≤ 2 * T.elistSize + 27 := by
  cases pc with
  | acquire t | afterRehash t bb e =>
    simp only [stage]
    split <;> omega
  | _ =>
    simp only [stage]
    omega

theorem Closer.here {pc' : Pc K V} {t t' : Traversal} (at_ : pc.traversal = some t) (goes : pc'.traversal = some t')
    (same : t'.depth = t.depth) (less : pc'.stage T m' op < pc.stage T m op) : Closer T m op pc m' pc' where
  traversal := ⟨t', goes, by rw [at_]; exact .inl same⟩
  stage := by
    have := pc.stage_le T m op
    omega
  less _ _ _ _ _ := less

theorem Current.of_copy {p block : RemotePtr} {bs : List PlistPair} (found : m.plists p = some bs) {n d count : Nat}
    {old : Bool} : Current T m op (.acquire ⟨.copied block (bs.take n), p, d, count, old⟩) := by
  intro pr pr' at_ stored _
  have same : m.bucket p (T.index op.key d) = some pr := Mem.bucket_of_copy found at_
  exact Option.some.inj (same.symm.trans stored)

section Branches

variable {t : Traversal} {b : Nat} {bb : RemotePtr} {e : ElistRef K V}

theorem onEmpty_progress (at_ : pc.traversal = some t) (far : 8 < pc.stage T m op) :
    Current T m' op (onEmpty T op t b) ∧ Closer T m op pc m' (onEmpty T op t b) := by
  cases op with
  | insert key value => exact ⟨trivial, .here at_ rfl rfl far⟩
  | contains key | remove key => exact ⟨trivial, .here at_ rfl rfl (by change 5 < _; omega)⟩

theorem onFound_progress {el : EList K V} {i : Nat} {pair : Pair K V} (at_ : pc.traversal = some t)
    (far : 8 < pc.stage T m op) : Current T m' op (onFound T op t b bb e el i pair) ∧
      Closer T m op pc m' (onFound T op t b bb e el i pair) := by
  cases op with
  | remove key =>
    simp only [onFound]
    split
    · exact ⟨trivial, .here at_ rfl rfl far⟩
    · exact ⟨trivial, .here at_ rfl rfl (by change 7 < _; omega)⟩
  | contains key | insert key value => exact ⟨trivial, .here at_ rfl rfl (by change 5 < _; omega)⟩

theorem onMissing_progress {el : EList K V} (stored : e.get m' = some el) (at_ : pc.traversal = some t)
    (far : T.elistSize + 19 < pc.stage T m op) : Current T m' op (onMissing T op t b bb e el) ∧
      Closer T m op pc m' (onMissing T op t b bb e el) := by
  cases op with
  | insert key value =>
    simp only [onMissing]
    split
    · exact ⟨trivial, .here at_ rfl rfl (by change 8 < _; omega)⟩
    · next full =>
      refine ⟨?_, .here at_ rfl rfl far⟩
      intro el' stored'
      cases stored.symm.trans stored'
      exact Nat.le_of_not_lt full
  | contains key | remove key => exact ⟨trivial, .here at_ rfl rfl (by change 5 < _; omega)⟩

theorem afterStore_progress {res : HtRes V} (at_ : pc.traversal = some t) (far : 6 < pc.stage T m op) :
    Current T m' op (afterStore pool t b bb e res) ∧ Closer T m op pc m' (afterStore pool t b bb e res) := by
  simp only [afterStore]
  split
  · exact ⟨trivial, .here at_ rfl rfl (by change 5 < _; omega)⟩
  · exact ⟨trivial, .here at_ rfl rfl far⟩

end Branches

section Progress

variable [DecidableEq K] {σ τ : FiniteMap K V} {pc' : Pc K V}

/-- An operation that runs alone comes closer to its end with every step. -/
theorem Invariant.progress (safe : Invariant T (fun _ => pool) home (solo root m (.running 0 op pc)))
    (aims : ∀ t b bb e newP, pc = .unlockPlist t b bb e newP → T.index op.key t.depth = b) (current : Current T m op pc)
    (stepped : step T pool root op m pc = .ok (m', .inl pc')) : Current T m' op pc' ∧ Closer T m op pc m' pc' := by
  have shape : Shape T root home m := safe.shape
  have inv : PcInv T root home m pool pc := safe.points (solo_threads _)
  have below : ∀ (t : Traversal) (bb : RemotePtr) (curr : PlistRef) (m₁ : Mem K V),
      Closer T m op (.descend t bb) m₁ (.acquire (t.down pool curr bb)) := by
    intro t bb curr m₁
    refine ⟨⟨_, rfl, .inr ⟨rfl, by simp [Pc.stage]⟩⟩, ?_, ?_⟩
    · simp only [Pc.stage]
      split <;> omega
    · intro t₁ t₂ at_ goes same
      cases at_
      cases goes
      simp [Traversal.down] at same
  cases step_branch stepped with
  | readRoot found =>
    refine ⟨.of_copy (m := m.bump) found, ⟨_, rfl, rfl⟩, ?_, fun _ _ none => (by cases none)⟩
    simp only [Pc.stage]
    split <;> omega
  | closed =>
    refine ⟨trivial, .here rfl rfl rfl ?_⟩
    simp only [Pc.stage]
    split <;> omega
  | locks found free =>
    have located : Located T root home m _ := inv
    obtain ⟨pr', stored, lock, _⟩ := located.bucket shape found
    rw [Template.bucketOf, located.levelHash_eq] at stored
    have word := Mem.lockWord_eq.mpr ⟨pr', stored, lock ▸ free⟩
    refine ⟨trivial, .here rfl rfl rfl ?_⟩
    simp [Pc.stage, word]
  | spins found taken =>
    -- nobody else is there to hold the lock
    have located : Located T root home m _ := inv
    obtain ⟨pr', stored, lock, _⟩ := located.bucket shape found
    have held := safe.own ⟨pr', stored, lock ▸ taken⟩
    cases held
  | descendLocal =>
    refine ⟨?_, below _ _ _ _⟩
    intro pr pr' found found' _
    exact Option.some.inj (found.symm.trans found')
  | descendRemote _ stored =>
    have located : Located T root home m _ := inv.1
    rw [located.bump.release_eq]
    exact ⟨.of_copy (m := m.bump) stored, below _ _ _ _⟩
  | loadNull => exact onEmpty_progress rfl (by simp only [Pc.stage]; omega)
  | found => exact onFound_progress rfl (by simp only [Pc.stage]; omega)
  | turn stored live =>
    obtain ⟨el, stored', fits⟩ := inv.get
    cases stored.symm.trans stored'
    have room := Nat.lt_of_lt_of_le live (Nat.le_trans fits.1 fits.2)
    exact ⟨trivial, .here rfl rfl rfl (by simp only [Pc.stage]; omega)⟩
  | missing stored => exact onMissing_progress stored rfl (by simp only [Pc.stage]; omega)
  | storeCount | dropCount => exact afterStore_progress rfl (by simp [Pc.stage])
  | move stored live =>
    obtain ⟨at_, _, _, ref, _⟩ := inv
    obtain ⟨el, stored', fits⟩ := ref.get at_.stored
    cases stored.symm.trans stored'
    have room := Nat.lt_of_lt_of_le live (Nat.le_trans fits.1 fits.2)
    exact ⟨trivial, .here rfl rfl rfl (by simp only [Pc.stage]; omega)⟩
  | @unlockPlist t b bb e newP pr found =>
    have located : Located T root home m t := inv.1
    obtain ⟨pr', stored, lock, _⟩ := located.bucket shape found
    -- the bucket of the key leads on now
    have closed : (m.setLock pr.lock .pUnlocked).Word t.beforeLocalizedCurr (T.index op.key t.depth) .pUnlocked := by
      rw [aims t b bb e newP rfl]
      exact ⟨pr', stored, by simp [Mem.locks_setLock, lock]⟩
    refine ⟨closed, .here rfl rfl rfl ?_⟩
    simp [Pc.stage, Mem.lockWord_eq.mpr closed]
  | @afterRehash t bb e =>
    obtain ⟨located, ref⟩ := inv
    have closed : m.Word t.beforeLocalizedCurr (T.index op.key t.depth) .pUnlocked := current
    rw [ref.release_eq]
    refine ⟨?_, .here rfl rfl rfl ?_⟩
    · intro pr pr' _ stored open_
      obtain ⟨pr'', stored', word⟩ := closed
      cases stored.symm.trans stored'
      exact absurd word open_
    · simp [Pc.stage, Mem.lockWord_eq.mpr closed]
  | _ => exact ⟨trivial, .here rfl rfl rfl (by simp only [Pc.stage]; omega)⟩

theorem Solo.progress (alone : Solo T root pool op home σ τ m pc) (current : Current T m op pc)
    (stepped : step T pool root op m pc = .ok (m', .inl pc')) : Current T m' op pc' ∧ Closer T m op pc m' pc' := by
  refine alone.safe.progress ?_ current stepped
  rintro t b bb e newP rfl
  exact alone.point.1.2

end Progress

/-! ## Whole operations -/

section Runs

variable [DecidableEq K] {σ τ : FiniteMap K V} {top : Nat}

/-- An operation that runs alone in a tree of at most `top` levels is about to
turn an E-List into a P-List. -/
def Rehashes (T : Template K V) (root : RemotePtr) (top : Nat) (t : Traversal) : Prop :=
  ∃ pool op home σ τ m b bb e, Solo T root pool op home σ τ m (.newPlist t b bb e) ∧
    Current T m op (.newPlist t b bb e) ∧ Within T top m

/-- The tree has room for every P-List whose length can be computed. -/
def Room (T : Template K V) (root : RemotePtr) (top : Nat) : Prop :=
  ∀ t n, Rehashes T root top t → T.buckets (t.count * 2 / T.plistSize) = some n → n ≤ T.size top

/-- In the steps that are left, the operation returns the result of the map and
leaves the table with the map after it, unless a length leaves `int`. -/
theorem Solo.finish (plist : 2 ≤ T.plistSize) (elist : 1 ≤ T.elistSize) (pos : 1 ≤ top)
    (room : Room T root top) (alone : Solo T root pool op home σ τ m pc) (current : Current T m op pc) (within : Within T top m)
    {fuel : Nat} (enough : pc.rank T top m op < fuel) :
    (Iht.finish T root pool op fuel m pc = .error .intOverflow ∧
      ∃ t, Rehashes T root top t ∧ T.buckets (t.count * 2 / T.plistSize) = none) ∨
    ∃ home' m', Iht.finish T root pool op fuel m pc = .ok (m', (T.spec.apply σ op).2) ∧
      Between T root home' (T.spec.apply σ op).1 m' ∧ Within T top m' := by
  induction fuel generalizing home τ m pc with
  | zero => omega
  | succ fuel ih =>
    rcases step_safe op plist elist alone.shape alone.inv with
      ⟨⟨t, b, bb, e, rfl, none⟩, failed⟩ | ⟨m₁, next, _, _, stepped, _⟩
    · left
      exact ⟨by simp only [Iht.finish, failed], t, ⟨pool, op, home, σ, τ, m, b, bb, e, alone, current, within⟩, none⟩
    · obtain ⟨home₁, goes, returns⟩ := alone.next plist elist current stepped
      have within₁ : Within T top m₁ := within.step stepped (by
        rintro t b bb e n rfl buckets
        exact room t n ⟨pool, op, home, σ, τ, m, b, bb, e, alone, current, within⟩ buckets)
      cases next with
      | inl pc₁ =>
        obtain ⟨τ₁, alone₁⟩ := goes pc₁ rfl
        obtain ⟨current₁, closer⟩ := alone.progress current stepped
        have less := closer.rank_lt fun t at_ => within₁.depth_le plist pos (alone₁.inv.located at_)
        simp only [Iht.finish, stepped]
        exact ih alone₁ current₁ within₁ (by omega)
      | inr res =>
        obtain ⟨rfl, between⟩ := returns res rfl
        right
        exact ⟨home₁, m₁, by simp only [Iht.finish, stepped], between, within₁⟩

/-- Calls made in turn return the results of the map, unless a length leaves `int`. -/
theorem Between.operations (plist : 2 ≤ T.plistSize) (elist : 1 ≤ T.elistSize) (pos : 1 ≤ top)
    (room : Room T root top) (between : Between T root home σ m) (within : Within T top m) {fuel : Nat}
    (enough : top * T.lap + 1 < fuel) (ops : List (Nat × IhtOp K V)) :
    (Iht.operations T root fuel m ops = .error .intOverflow ∧
      ∃ t, Rehashes T root top t ∧ T.buckets (t.count * 2 / T.plistSize) = none) ∨
    ∃ home' σ' m', Iht.operations T root fuel m ops = .ok (m', T.spec.results σ (ops.map (·.2))) ∧
      Between T root home' σ' m' ∧ Within T top m' := by
  induction ops generalizing home σ m with
  | nil => exact .inr ⟨home, σ, m, rfl, between, within⟩
  | cons call rest ih =>
    obtain ⟨pool, op⟩ := call
    rcases (between.solo pool op).finish plist elist pos room trivial within enough with
      ⟨failed, overflow⟩ | ⟨home₁, m₁, done, between₁, within₁⟩
    · left
      exact ⟨by simp only [Iht.operations, failed, bind, Except.bind], overflow⟩
    · rcases ih between₁ within₁ with ⟨failed, overflow⟩ | ⟨home₂, σ₂, m₂, done', between₂, within₂⟩
      · left
        exact ⟨by simp only [Iht.operations, done, failed, bind, Except.bind], overflow⟩
      · right
        refine ⟨home₂, σ₂, m₂, ?_, between₂, within₂⟩
        simp only [Iht.operations, done, done', bind, Except.bind]
        rfl

theorem finish_mono {fuel more : Nat} (longer : fuel ≤ more) {res : HtRes V}
    (done : finish T root pool op fuel m pc = .ok (m', res)) : finish T root pool op more m pc = .ok (m', res) := by
  induction fuel generalizing more m pc with
  | zero => cases done
  | succ fuel ih =>
    obtain ⟨more, rfl⟩ : ∃ k, more = k + 1 := ⟨more - 1, by omega⟩
    simp only [finish] at done ⊢
    split at done
    · cases done
    · exact ih (by omega) done
    · exact done

theorem operations_mono {fuel more : Nat} (longer : fuel ≤ more) {ops : List (Nat × IhtOp K V)}
    {results : List (HtRes V)} (done : operations T root fuel m ops = .ok (m', results)) :
    operations T root more m ops = .ok (m', results) := by
  induction ops generalizing m results with
  | nil => exact done
  | cons call rest ih =>
    obtain ⟨pool, op⟩ := call
    obtain ⟨⟨m₁, res⟩, first, others⟩ := bind_eq_ok.mp done
    obtain ⟨⟨m₂, later⟩, tail, last⟩ := bind_eq_ok.mp others
    cases last
    have first' := finish_mono longer first
    have tail' := ih tail
    simp only [operations, first', tail', bind, Except.bind]
    rfl

theorem Solo.visits (plist : 2 ≤ T.plistSize) (elist : 1 ≤ T.elistSize) (room : Room T root top)
    (alone : Solo T root pool op home σ τ m pc) (current : Current T m op pc) (within : Within T top m) {pc' : Pc K V}
    (reached : Concurrency.Reachable (advance T root pool op) (m, pc) (m', pc')) :
    ∃ home' τ', Solo T root pool op home' σ τ' m' pc' ∧ Current T m' op pc' ∧ Within T top m' := by
  refine reached.invariant (P := fun at_ => ∃ home' τ', Solo T root pool op home' σ τ' at_.1 at_.2 ∧
    Current T at_.1 op at_.2 ∧ Within T top at_.1) ⟨home, τ, alone, current, within⟩ ?_
  rintro ⟨m₁, pc₁⟩ _ ⟨m₂, pc₂⟩ ⟨home₁, τ₁, alone₁, current₁, within₁⟩ _ enabled
  simp only [advance] at enabled
  split at enabled
  · next stepped =>
    cases enabled
    obtain ⟨home₂, goes, _⟩ := alone₁.next plist elist current₁ stepped
    obtain ⟨τ₂, alone₂⟩ := goes pc₂ rfl
    refine ⟨home₂, τ₂, alone₂, (alone₁.progress current₁ stepped).1, within₁.step stepped ?_⟩
    rintro t b bb e n rfl buckets
    exact room t n ⟨pool, op, home₁, σ, τ₁, m₁, b, bb, e, alone₁, current₁, within₁⟩ buckets
  · cases enabled

end Runs

/-! ## Refinement of the finite map -/

/-- What `int` can count bounds the tree. -/
theorem Template.size_of_buckets (plist : 2 ≤ T.plistSize) {mult n : Nat} (buckets : T.buckets mult = some n) :
    n ≤ T.size 31 := by
  have large : 2 * 2 ^ 30 ≤ T.size 31 := Nat.mul_le_mul_right _ plist
  simp only [Template.buckets] at buckets
  split at buckets
  · cases buckets
    omega
  · cases buckets

theorem Room.int [DecidableEq K] (plist : 2 ≤ T.plistSize) (root : RemotePtr) : Room T root 31 :=
  fun _ _ _ buckets => T.size_of_buckets plist buckets

theorem Within.start (T : Template K V) (host top : Nat) : Within T top (initAsFirst T host).2 := by
  intro p bs found
  simp only [initAsFirst, Mem.plists_newPlist] at found
  split at found
  · cases found
    rw [Mem.length_initBuckets]
    exact Nat.le_mul_of_pos_right _ (Nat.two_pow_pos _)
  · cases found

/-- Whatever pools the calls are made on, they end and return what a finite map
returns, while the lengths of the P-Lists stay within `int`. -/
theorem operations_refine_map {elistSize plistSize : Nat} (plist : 2 ≤ plistSize) (elist : 1 ≤ elistSize) (host : Nat)
    {fuel : Nat} (enough : 31 * (2 * elistSize + 30) + 1 < fuel)
    (calls : List (Nat × IhtOp (BitVec 32) (BitVec 32))) :
    operations (intTemplate elistSize plistSize) (initAsFirst (intTemplate elistSize plistSize) host).1 fuel
        (initAsFirst (intTemplate elistSize plistSize) host).2 calls = .error .intOverflow ∨
      ∃ m, operations (intTemplate elistSize plistSize) (initAsFirst (intTemplate elistSize plistSize) host).1 fuel
        (initAsFirst (intTemplate elistSize plistSize) host).2 calls =
          .ok (m, (mapSpec (BitVec 32) (0 : BitVec 32)).results .empty (calls.map (·.2))) := by
  have between := Between.start (intTemplate elistSize plistSize) host
  have room := Room.int (T := intTemplate elistSize plistSize) plist (initAsFirst (intTemplate elistSize plistSize) host).1
  rcases between.operations plist elist (by decide) room (.start _ host 31) enough calls with
    ⟨overflow, _⟩ | ⟨_, _, m, done, _⟩
  · exact .inl overflow
  · rw [(intTemplate elistSize plistSize).spec_eq fun _ => rfl] at done
    exact .inr ⟨m, done⟩

/-- Two clients fill one bucket of the smallest table and read each other's E-Lists. -/
def sharedBucket : List (Nat × IhtOp (BitVec 32) (BitVec 32)) :=
  [(0, .insert 1 10), (1, .insert 2 20), (1, .insert 1 30), (0, .contains 2), (1, .remove 1), (0, .contains 1)]

theorem operations_refine_map_sharedBucket : ∃ m,
    operations (intTemplate 1 2) (initAsFirst (intTemplate 1 2) 0).1 994 (initAsFirst (intTemplate 1 2) 0).2
      sharedBucket = .ok (m, [⟨.trueState, 0⟩, ⟨.trueState, 0⟩, ⟨.falseState, 10⟩, ⟨.trueState, 20⟩,
        ⟨.trueState, 10⟩, ⟨.falseState, 0⟩]) := by
  rcases @operations_refine_map 1 2 (by decide) (by decide) 0 994 (by decide) sharedBucket with overflow | done
  · have returns : (operations (intTemplate 1 2) (initAsFirst (intTemplate 1 2) 0).1 994
      (initAsFirst (intTemplate 1 2) 0).2 sharedBucket).isOk = true := by decide +kernel
    rw [overflow] at returns
    cases returns
  · exact done

end RdmaIht.Iht
