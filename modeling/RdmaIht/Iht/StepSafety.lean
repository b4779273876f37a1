import RdmaIht.Iht.Steps
import RdmaIht.Iht.ThreadInvariant

/-! One step of one thread.

From the shape of memory and the thread's own assertion, every step is enabled,
unless `int` arithmetic overflows, keeps the shape, establishes the assertion of
the next point, and touches nothing but the bucket it locks and the P-List it
builds. There is one lemma for each point of an operation.
-/

set_option autoImplicit false

namespace RdmaIht.Iht

variable {K V : Type}

def heldNext : Pc K V ⊕ HtRes V → Option (RemotePtr × Nat)
  | .inl pc => pc.held
  | .inr _ => none

def Pc.allocates : Pc K V → Option RemotePtr
  | .newElist t _ _ | .newPlist t _ _ _ => some t.beforeLocalizedCurr
  | .rehashMove _ _ _ _ newP _ _ => some newP
  | _ => none

def Pc.unlocks : Pc K V → Bool
  | .unlock _ _ _ _ | .unlockPlist _ _ _ _ _ => true
  | _ => false

/-- What a step from `pc` in `m` to `next` in `m'` guarantees. -/
structure Sound (T : Template K V) (root : RemotePtr) (pool : Nat) (home : Home) (m : Mem K V) (pc : Pc K V)
    (home' : Home) (touch : RemotePtr → Nat → Prop) (m' : Mem K V) (next : Pc K V ⊕ HtRes V) : Prop where
  shape : Shape T root home' m'
  inv : ∀ pc', next = .inl pc' → PcInv T root home' m' pool pc'
  change : Change touch home home' m m'
  owners : ∀ e x, home' e = some x → home e = some x ∨ (e = m.fresh pool ∧ pc.allocates = some x.1)
  touched : ∀ p b, touch p b → pc.held = some (p, b) ∨ pc.built = some p ∨
    (Published root home m p ∧ m.Word p b .eUnlocked ∧ heldNext next = some (p, b))
  locked : pc.unlocks = false → ∀ x, pc.held = some x → heldNext next = some x
  flow : ∀ q j, m'.Word q j .eLocked →
    heldNext next = some (q, j) ∨ (pc.held ≠ some (q, j) ∧ m.Word q j .eLocked)
  closes : ∀ q j, m'.Word q j .pUnlocked →
    m.Word q j .pUnlocked ∨ (pc.held = some (q, j) ∧ heldNext next = none)
  taken : ∀ p b, heldNext next = some (p, b) → pc.held = some (p, b) ∨ m.Word p b .eUnlocked
  keeps : ∀ p b pr bs, m.bucket p b = some pr → m.plists pr.base = some bs →
    ∃ pr', m'.bucket p b = some pr' ∧ pr'.base = pr.base
  emptied : ∀ p b pr pr', m.bucket p b = some pr → m'.bucket p b = some pr' → pr'.base = .null → pr.base = .null

/-- The length of the P-List that `rehash` is about to allocate leaves `int`. -/
def Pc.Overflows (T : Template K V) (pc : Pc K V) : Prop :=
  ∃ t b bb e, pc = .newPlist t b bb e ∧ T.buckets (t.count * 2 / T.plistSize) = none

/-- The step is enabled and sound, or it overflows an `int`. -/
def Safe [DecidableEq K] (T : Template K V) (pool : Nat) (root : RemotePtr) (op : IhtOp K V) (home : Home)
    (m : Mem K V) (pc : Pc K V) : Prop :=
  (pc.Overflows T ∧ step T pool root op m pc = .error .intOverflow) ∨
    ∃ m' next home' touch, step T pool root op m pc = .ok (m', next) ∧
      Sound T root pool home m pc home' touch m' next

variable {T : Template K V} {root : RemotePtr} {home home' : Home} {m m' : Mem K V} {pool : Nat}
  {pc : Pc K V} {next : Pc K V ⊕ HtRes V} {touch : RemotePtr → Nat → Prop}

theorem Sound.home_eq (sound : Sound T root pool home m pc home' touch m' next)
    (quiet : pc.allocates = none) : home' = home := by
  funext e
  cases owned : home' e with
  | some x =>
    rcases sound.owners e x owned with same | ⟨_, allocates⟩
    · exact same.symm
    · rw [quiet] at allocates
      cases allocates
  | none =>
    cases was : home e with
    | none => rfl
    | some x => rw [sound.change.homes was] at owned; cases owned

theorem Sound.open_ (sound : Sound T root pool home m pc home' touch m' next) (inv : PcInv T root home m pool pc)
    (p : RemotePtr) (b : Nat) (closed : m.Word p b .pUnlocked) : ¬ touch p b := by
  intro touched
  rcases sound.touched p b touched with holds | builds | ⟨_, open_, _⟩
  · cases closed.functional (inv.held holds).1
  · obtain ⟨_, _, _, unlocked⟩ := inv.built builds
    obtain ⟨pr, found, word⟩ := closed
    rw [unlocked found] at word
    cases word
  · cases closed.functional open_

theorem flow_of_words (words : ∀ q j, m'.Word q j .eLocked → m.Word q j .eLocked)
    (same : heldNext next = pc.held) (q : RemotePtr) (j : Nat) (word : m'.Word q j .eLocked) :
    heldNext next = some (q, j) ∨ (pc.held ≠ some (q, j) ∧ m.Word q j .eLocked) := by
  by_cases holds : pc.held = some (q, j)
  · exact .inl (same.trans holds)
  · exact .inr ⟨holds, words q j word⟩

theorem owners_update (home : Home) (fresh : RemotePtr) (x : RemotePtr × Nat) (e : RemotePtr)
    (y : RemotePtr × Nat) (owned : Function.update home fresh (some x) e = some y) :
    home e = some y ∨ (e = fresh ∧ some x.1 = some y.1) := by
  rw [Function.update_apply] at owned
  split at owned
  · next here => exact .inr ⟨here, congrArg (Option.map Prod.fst) owned⟩
  · exact .inl owned

theorem Sound.quiet (shape : Shape T root home m) (small : m' = m ∨ m' = m.bump)
    (inv : ∀ pc', next = .inl pc' → PcInv T root home m' pool pc') (same : heldNext next = pc.held) :
    Sound T root pool home m pc home (fun _ _ => False) m' next where
  shape := by rcases small with rfl | rfl; exacts [shape, shape.bump]
  inv := inv
  change := by rcases small with rfl | rfl; exacts [.refl _ _ _, .bump _ _ _]
  owners _ _ owned := .inl owned
  touched _ _ none := none.elim
  locked _ _ holds := same.trans holds
  flow := flow_of_words (by rcases small with rfl | rfl <;> exact fun _ _ word => word) same
  closes _ _ word := .inl (by rcases small with rfl | rfl <;> exact word)
  taken p b holds := .inl (same ▸ holds)
  keeps p b pr bs found _ := ⟨pr, by rcases small with rfl | rfl <;> exact found, rfl⟩
  emptied p b pr pr' found now null := by
    rcases small with rfl | rfl <;> cases found.symm.trans now <;> exact null

theorem Sound.lists (shape : Shape T root home' m')
    (change : Change (fun p b => pc.held = some (p, b)) home home' m m')
    (owners : ∀ e x, home' e = some x → home e = some x ∨ (e = m.fresh pool ∧ pc.allocates = some x.1))
    (plists : m'.plists = m.plists) (locks : m'.locks = m.locks)
    (inv : ∀ pc', next = .inl pc' → PcInv T root home' m' pool pc') (same : heldNext next = pc.held) :
    Sound T root pool home m pc home' (fun p b => pc.held = some (p, b)) m' next where
  shape := shape
  inv := inv
  change := change
  owners := owners
  touched _ _ holds := .inl holds
  locked _ _ holds := same.trans holds
  flow := flow_of_words (by simp [Mem.Word, Mem.bucket, plists, locks]) same
  closes _ _ word := .inl (by simpa [Mem.Word, Mem.bucket, plists, locks] using word)
  taken p b holds := .inl (same ▸ holds)
  keeps p b pr bs found _ := ⟨pr, by simpa [Mem.bucket, plists] using found, rfl⟩
  emptied p b pr pr' found now null := by
    rw [Mem.bucket, plists] at now
    cases found.symm.trans now
    exact null

theorem extendedRead_ok (T : Template K V) (pool : Nat) {ptr : RemotePtr} {bs : List PlistPair} {n : Nat}
    (found : m.plists ptr = some bs) (length : bs.length = T.plistSize * n) :
    extendedRead T pool m ptr n = .ok (.copied (m.fresh pool) bs, m.bump) := by
  simp [extendedRead, found, ← length]

theorem Located.of_copy (shape : Shape T root home m) {p : RemotePtr} {bs : List PlistPair} {depth : Nat}
    (pos : 1 ≤ depth) (found : m.plists p = some bs) (length : bs.length = T.size depth)
    (published : Published root home m p) (block : RemotePtr) (old : Bool) :
    Located T root home m ⟨.copied block bs, p, depth, T.size depth, old⟩ where
  depth_pos := pos
  count_eq := rfl
  plist := ⟨bs, found, length⟩
  published := published
  inPlace := by simp
  copied := by
    rintro block' buckets same
    cases same
    refine ⟨length, fun b pr at_ => ?_⟩
    have stored : m.bucket p b = some pr := Mem.bucket_eq_some.mpr ⟨bs, found, at_⟩
    exact ⟨pr, stored, rfl, shape.base_ok stored⟩

theorem Located.bump {t : Traversal} (located : Located T root home m t) : Located T root home m.bump t :=
  located.stable (.bump (fun _ _ => False) home m) (by simp)

/-- The copies that are freed are never the shared block. -/
theorem Located.free_eq {t : Traversal} (located : Located T root home m t) :
    (if t.oldBucketBase then t.curr.free m else m) = m := by
  cases curr : t.curr with
  | inPlace p => simp [(located.inPlace p curr).2]
  | copied block bs => simp [PlistRef.free]

theorem Located.release_eq {t : Traversal} (located : Located T root home m t) : t.release m = m := located.free_eq

theorem RefOk.free_eq {bb : RemotePtr} {e : ElistRef K V} (ref : RefOk T pool bb e) :
    (if bb.isLocal pool then m else e.free m) = m := by
  cases shape : e with
  | inPlace p => simp [(ref.inPlace p shape).2]
  | copied block el => simp [ElistRef.free]

theorem RefOk.release_eq {bb : RemotePtr} {e : ElistRef K V} (ref : RefOk T pool bb e) :
    releaseElist pool m (some (bb, e)) = m := ref.free_eq

theorem AtList.bump {t : Traversal} {b : Nat} {bb : RemotePtr} {e : ElistRef K V} {skip : Option RemotePtr}
    (at_ : AtList T root home m pool t b bb e skip) : AtList T root home m.bump pool t b bb e skip :=
  at_.stable (.bump (fun _ _ => False) home m) (by simp) (by simp)

/-- After a store, a local E-List is done with and a remote one is written back. -/
theorem afterStore_inv {t : Traversal} {b : Nat} {bb : RemotePtr} {e : ElistRef K V} {res : HtRes V}
    (at_ : AtList T root home m pool t b bb e none) :
    PcInv T root home m pool (afterStore pool t b bb e res) := by
  simp only [afterStore]
  split
  · exact ⟨at_.toHeld, by rintro bb' e' same; cases same; exact at_.ref⟩
  · next far => exact ⟨at_, by simpa using far⟩

theorem held_afterStore (t : Traversal) (b : Nat) (bb : RemotePtr) (e : ElistRef K V) (res : HtRes V) :
    (afterStore pool t b bb e res).held = some (t.beforeLocalizedCurr, b) := by
  simp only [afterStore]
  split <;> rfl

theorem Mem.word_setBase {p base q : RemotePtr} {b j : Nat} {w : LockType} :
    (m.setBase p b base).Word q j w ↔ m.Word q j w := by
  simp only [Mem.Word, Mem.bucket_setBase, Mem.locks_setBase]
  split
  · constructor
    · rintro ⟨pr, found, word⟩
      obtain ⟨old, was, rfl⟩ := Option.map_eq_some_iff.mp found
      exact ⟨old, was, word⟩
    · rintro ⟨pr, found, word⟩
      exact ⟨{ pr with base := base }, by rw [found]; rfl, word⟩
  · exact Iff.rfl

/-- A base is stored in the held bucket; a P-List that is already there may only be stored again. -/
theorem Sound.base (shape : Shape T root home m) {t : Traversal} {b : Nat} {base : RemotePtr}
    (holds : pc.held = some (t.beforeLocalizedCurr, b)) (word : m.Word t.beforeLocalizedCurr b .eLocked)
    (owned : home base = some (t.beforeLocalizedCurr, b))
    (again : ∀ q bs, home q = some (t.beforeLocalizedCurr, b) → m.plists q = some bs → q = base)
    (inv : ∀ pc', next = .inl pc' → PcInv T root home (m.setBase t.beforeLocalizedCurr b base) pool pc')
    (same : heldNext next = pc.held) :
    Sound T root pool home m pc home (fun p j => pc.held = some (p, j))
      (m.setBase t.beforeLocalizedCurr b base) next where
  shape := by
    obtain ⟨pr, found, locked⟩ := word
    exact shape.setBase found owned (by simp [locked])
  inv := inv
  change := .setBase holds base
  owners _ _ owned := .inl owned
  touched _ _ touched := .inl touched
  locked _ _ holds := same.trans holds
  flow := flow_of_words (fun _ _ => Mem.word_setBase.mp) same
  closes _ _ word := .inl (Mem.word_setBase.mp word)
  taken p j now := .inl (same ▸ now)
  emptied p j pr pr' found now null := by
    rw [Mem.bucket_setBase, found] at now
    split at now
    · cases now
      rw [show base = .null from null, shape.home_null] at owned
      cases owned
    · cases now
      exact null
  keeps p j pr bs found child := by
    rw [Mem.bucket_setBase]
    split
    · -- a P-List that hung here is stored again by `again`, so what hangs below stays
      next here =>
      obtain ⟨rfl, rfl⟩ := here
      refine ⟨_, by rw [found]; rfl, ?_⟩
      rcases shape.base_ok found with null | mine
      · rw [null, shape.plist_null] at child
        cases child
      · exact (again _ _ mine child).symm
    · exact ⟨pr, found, rfl⟩

theorem AtList.set {t : Traversal} {b : Nat} {bb : RemotePtr} {e : ElistRef K V}
    (at_ : AtList T root home m pool t b bb e none) (shape : Shape T root home m) (el : EList K V)
    (fits : T.Fits el) :
    Shape T root home (e.set m el).1 ∧
      Change (fun p j => some (t.beforeLocalizedCurr, b) = some (p, j)) home home m (e.set m el).1 ∧
      AtList T root home (e.set m el).1 pool t b bb (e.set m el).2 none ∧
      (e.set m el).2.get (e.set m el).1 = some el ∧
      (e.set m el).1.plists = m.plists ∧ (e.set m el).1.locks = m.locks := by
  obtain ⟨old, stored, _⟩ := at_.stored
  cases same : e with
  | copied block old =>
    have far := (at_.ref.copied block old same).2
    have ref : RefOk T pool bb (.copied block el) :=
      ⟨by simp, by rintro block' el' same; cases same; exact ⟨fits, far⟩⟩
    exact ⟨shape, .refl _ _ _, { at_ with ref := ref }, rfl, rfl, rfl⟩
  | inPlace p =>
    obtain ⟨rfl, near⟩ := at_.ref.inPlace p same
    refine ⟨shape.setElist stored fits, .setElist at_.base_home rfl el, ?_, by simp [ElistRef.set,
      ElistRef.get, Mem.elists_setElist], rfl, rfl⟩
    refine
      { located := ?_, word := at_.word, owned := ?_, base_home := at_.base_home,
        base_curr := at_.base_curr, base_skip := by simp,
        ref := ⟨by rintro q same; cases same; exact ⟨rfl, near⟩, by rintro block el' same; cases same⟩ }
    · have change : Change (fun q j => some (t.beforeLocalizedCurr, b) = some (q, j)) home home m
        (m.setElist p el) := .setElist at_.base_home rfl el
      refine at_.located.stable change ?_
      rintro q j closed same
      cases same
      cases closed.functional at_.word
    · intro e' owned _
      simp only [ElistRef.set, Mem.elists_setElist]
      split
      · exact ⟨el, rfl, fits⟩
      · exact at_.owned e' owned (by simp)

theorem insert_built (shape : Shape T root home m) {t : Traversal} {b j i : Nat} {newP dest : RemotePtr}
    {el : EList K V} (building : Building home m t b newP) (filled : Filled home m newP i)
    (room : i < T.elistSize) (owned : home dest = some (newP, j)) (stored : m.elists dest = some el)
    (fits : T.Fits el) (pair : Pair K V) :
    ∃ el', T.elistInsert el pair = some el' ∧ Shape T root home (m.setElist dest el') ∧
      Change (fun p _ => p = newP) home home m (m.setElist dest el') ∧
      Building home (m.setElist dest el') t b newP ∧ Filled home (m.setElist dest el') newP (i + 1) := by
  have short := filled j dest el owned stored
  have count : el.count < T.elistSize := by omega
  obtain ⟨el₁, inserted, fits₁, count₁, _⟩ := T.elistInsert_ok fits count pair
  refine ⟨el₁, inserted, shape.setElist stored fits₁, .setElist owned rfl _, ?_, ?_⟩
  · exact ⟨building.built_home, building.built_plist, building.unlocked, building.only⟩
  · intro j' e' el' owned' stored'
    rw [Mem.elists_setElist] at stored'
    split at stored'
    · cases stored'
      omega
    · exact Nat.le_succ_of_le (filled j' e' el' owned' stored')

theorem moveInto_ok (pool : Nat) (plist : 2 ≤ T.plistSize) (shape : Shape T root home m) {t : Traversal} {b i : Nat}
    {newP : RemotePtr} (located : Located T root home m t) (building : Building home m t b newP)
    (apart : t.beforeLocalizedCurr ≠ newP) (filled : Filled home m newP i) (room : i < T.elistSize)
    (pair : Pair K V) (depth : Nat) :
    ∃ m' home', moveInto T pool m newP depth (t.count * 2) pair = .ok m' ∧ Shape T root home' m' ∧
      Change (fun p _ => p = newP) home home' m m' ∧ Building home' m' t b newP ∧
      Filled home' m' newP (i + 1) ∧
      (∀ e x, home' e = some x → home e = some x ∨ (e = m.fresh pool ∧ some newP = some x.1)) ∧
      (∀ q j w, m'.Word q j w → m.Word q j w) ∧
      (∀ q j qr bs, m.bucket q j = some qr → m.plists qr.base = some bs →
        ∃ qr', m'.bucket q j = some qr' ∧ qr'.base = qr.base) ∧
      ∀ q j qr qr', m.bucket q j = some qr → m'.bucket q j = some qr' → qr'.base = .null → qr.base = .null := by
  obtain ⟨nbs, storedP, lengthP⟩ := building.built_plist
  have two := T.two_le_size plist t.depth
  have bound : T.levelHash pair.key depth (t.count * 2) < nbs.length := by
    rw [lengthP]
    exact T.levelHash_lt _ _ (by rw [located.count_eq]; omega)
  generalize target : T.levelHash pair.key depth (t.count * 2) = j at bound
  have found : m.bucket newP j = some nbs[j] :=
    Mem.bucket_eq_some.mpr ⟨nbs, storedP, List.getElem?_eq_getElem bound⟩
  have unlocked := building.unlocked found
  by_cases null : nbs[j].base = .null
  · -- the first pair of this bucket: a fresh E-List is linked in
    have empty : T.Fits ({} : EList K V) := T.fits_empty
    have shape₁ := shape.newElist pool empty found
    have found₁ : (m.newElist pool {}).bucket newP j = some nbs[j] := found
    have fresh : Function.update home (m.fresh pool) (some (newP, j)) (m.fresh pool) = some (newP, j) :=
      Function.update_self ..
    have shape₂ := shape₁.setBase found₁ fresh (by
      rw [show (m.newElist pool {}).locks = m.locks from rfl, unlocked]; simp)
    have change₁ : Change (fun p _ => p = newP) home _ m _ := .newElist shape pool {} (p := newP) (b := j) rfl
    have change₂ := change₁.trans (.setBase (p := newP) (b := j) rfl (m.fresh pool))
    have building₂ : Building (Function.update home (m.fresh pool) (some (newP, j)))
        ((m.newElist pool {}).setBase newP j (m.fresh pool)) t b newP := by
      refine ⟨change₂.homes building.built_home, ?_, ?_, ?_⟩
      · obtain ⟨bs', now, same⟩ := change₂.plists storedP
        exact ⟨bs', now, same.trans lengthP⟩
      · intro j' qr now
        obtain ⟨old, was, same, _⟩ := Mem.bucket_of_setBase now
        have unlocked : m.locks old.lock = some .eUnlocked := building.unlocked was
        exact same ▸ unlocked
      · intro q bs owned stored
        obtain ⟨bs', was⟩ := change₂.plistsBack owned apart stored
        exact building.only (change₂.homesBack owned apart) was
    have list₂ : ((m.newElist pool {}).setBase newP j (m.fresh pool)).elists (m.fresh pool) = some {} := by
      rw [Mem.elists_setBase, Mem.elists_newElist, if_pos rfl]
    have filled₂ : Filled (Function.update home (m.fresh pool) (some (newP, j)))
        ((m.newElist pool {}).setBase newP j (m.fresh pool)) newP i := by
      intro j' e el owned stored
      by_cases new : e = m.fresh pool
      · subst new
        cases list₂.symm.trans stored
        exact Nat.zero_le _
      · rw [Function.update_of_ne new] at owned
        rw [Mem.elists_setBase, Mem.elists_newElist, if_neg new] at stored
        exact filled j' e el owned stored
    obtain ⟨el', insert, shape₃, change₃, building₃, filled₃⟩ :=
      insert_built shape₂ building₂ filled₂ room fresh list₂ empty pair
    refine ⟨_, _, ?_, shape₃, change₂.trans change₃, building₃, filled₃, owners_update _ _ _, ?_, ?_, ?_⟩
    · rw [moveInto_eq_ok, target]
      exact .first found null insert
    · intro q j' w word
      exact Mem.word_setBase.mp (show ((m.newElist pool {}).setBase newP j (m.fresh pool)).Word q j' w from word)
    · -- the bucket that changed was null, so it had no P-List below it
      intro q j' qr bs was child
      simp only [Mem.bucket_setElist, Mem.bucket_setBase]
      split
      · next here =>
        obtain ⟨rfl, rfl⟩ := here
        cases found.symm.trans was
        rw [null, shape.plist_null] at child
        cases child
      · exact ⟨qr, was, rfl⟩
    · intro q j' qr qr' was now empty
      simp only [Mem.bucket_setElist, Mem.bucket_setBase] at now
      split at now
      · obtain ⟨old, _, rfl⟩ := Option.map_eq_some_iff.mp now
        exact absurd empty (shape.fresh_ne_null pool)
      · cases was.symm.trans now
        exact empty
  · have owned := (shape.base_ok found).resolve_left null
    obtain ⟨el, list, fits⟩ := shape.opened found unlocked _ owned
    obtain ⟨el', insert, shape', change, building', filled'⟩ :=
      insert_built shape building filled room owned list fits pair
    refine ⟨_, home, ?_, shape', change, building', filled', fun _ _ owned => .inl owned,
      fun _ _ _ word => word, fun _ _ qr _ was _ => ⟨qr, was, rfl⟩, fun _ _ _ _ was now null => ?_⟩
    swap
    · cases was.symm.trans now
      exact null
    rw [moveInto_eq_ok, target]
    exact .more found null list insert

theorem Located.setBase {t : Traversal} {b : Nat} (located : Located T root home m t)
    (word : m.Word t.beforeLocalizedCurr b .eLocked) (base : RemotePtr) :
    Located T root home (m.setBase t.beforeLocalizedCurr b base) t := by
  have change : Change (fun p j => p = t.beforeLocalizedCurr ∧ j = b) home home m _ :=
    .setBase ⟨rfl, rfl⟩ base
  refine located.stable change ?_
  rintro p j closed ⟨rfl, rfl⟩
  cases closed.functional word

theorem Building.setBase {t : Traversal} {b : Nat} {newP : RemotePtr} (building : Building home m t b newP)
    (apart : newP ≠ t.beforeLocalizedCurr) (base : RemotePtr) :
    Building home (m.setBase t.beforeLocalizedCurr b base) t b newP where
  built_home := building.built_home
  built_plist := by
    rw [Mem.plists_setBase, if_neg apart]
    exact building.built_plist
  unlocked := by
    intro j pr found
    rw [Mem.bucket_setBase, if_neg (fun here => apart here.1)] at found
    exact building.unlocked found
  only := by
    intro q bs owned stored
    rw [Mem.plists_setBase] at stored
    split at stored
    · obtain ⟨old, was, _⟩ := Option.map_eq_some_iff.mp stored
      exact building.only owned was
    · exact building.only owned stored

theorem unlockBucket_sound (pool : Nat) (pc : Pc K V) (next : Pc K V ⊕ HtRes V) (w : LockType)
    (shape : Shape T root home m) {t : Traversal} {b : Nat}
    (located : Located T root home m t) (word : m.Word t.beforeLocalizedCurr b .eLocked)
    (unlocking : pc.unlocks = true) (holds : pc.held = some (t.beforeLocalizedCurr, b))
    (free : heldNext next = none)
    (opens : w = .eUnlocked → ∀ e, home e = some (t.beforeLocalizedCurr, b) →
      ∃ el, m.elists e = some el ∧ T.Fits el)
    (closes : w = .pUnlocked → ∀ pr, m.bucket t.beforeLocalizedCurr b = some pr →
      home pr.base = some (t.beforeLocalizedCurr, b) ∧ ∃ bs child,
        m.plists t.beforeLocalizedCurr = some bs ∧ m.plists pr.base = some child ∧ child.length = 2 * bs.length)
    (unlocks : w ≠ .eLocked)
    (inv : ∀ m', Located T root home m' t → ∀ pc', next = .inl pc' → PcInv T root home m' pool pc') :
    ∃ m', unlockBucket t b w m = .ok m' ∧
      Sound T root pool home m pc home (fun p j => pc.held = some (p, j)) m' next := by
  obtain ⟨pr', found', locked⟩ := id word
  obtain ⟨pr, found⟩ := located.exists_bucket (located.word_lt word)
  obtain ⟨pr'', stored, lock, _⟩ := located.bucket shape found
  cases found'.symm.trans stored
  have change : Change (fun p j => pc.held = some (p, j)) home home m (m.setLock pr'.lock w) :=
    .setLock shape stored holds w
  -- the bucket being opened is locked, so it is none of those closed for good
  have open_ : ∀ p j, m.Word p j .pUnlocked → ¬ pc.held = some (p, j) := by
    rintro p j closed same
    cases holds.symm.trans same
    cases closed.functional word
  refine ⟨m.setLock pr'.lock w, by simp [unlockBucket, found, lock, locked],
    shape.setLock stored opens fun closed => closes closed _ stored, inv _ (located.stable change open_),
    change, fun _ _ owned => .inl owned, fun _ _ touched => .inl touched, by simp [unlocking], ?_, ?_, by simp [free],
    fun _ _ qr _ at_ _ => ⟨qr, at_, rfl⟩, fun _ _ qr qr' at_ now null => ?_⟩
  · -- a bucket that is still locked is another one
    rintro q j ⟨qr, at_, word'⟩
    rw [Mem.locks_setLock] at word'
    split at word'
    · exact absurd (Option.some.inj word') unlocks
    · next other =>
      refine .inr ⟨?_, qr, at_, word'⟩
      rw [holds]
      rintro same
      cases same
      cases at_.symm.trans stored
      exact other rfl
  · rintro q j ⟨qr, at_, word'⟩
    rw [Mem.locks_setLock] at word'
    split at word'
    · next same =>
      obtain ⟨rfl, rfl⟩ := shape.lock_inj at_ stored same
      exact .inr ⟨holds, free⟩
    · exact .inl ⟨qr, at_, word'⟩
  · cases at_.symm.trans now
    exact null

section Steps

variable [DecidableEq K] (op : IhtOp K V)

theorem readRoot_safe (shape : Shape T root home m) : Safe T pool root op home m .readRoot := by
  obtain ⟨bs, found, length⟩ := shape.root_size
  have size : T.size 1 = T.plistSize := by simp [Template.size]
  have read := extendedRead_ok T pool found (n := 1) (by simpa using length)
  refine .inr ⟨_, _, home, _, by simp only [step, read]; rfl, .quiet shape (.inr rfl) ?_ rfl⟩
  rintro pc' same
  cases same
  have located := Located.of_copy shape (Nat.le_refl 1) found (length.trans size.symm) (.inl rfl)
    (m.fresh pool) true
  rw [size] at located
  exact located.bump

theorem acquire_safe (plist : 2 ≤ T.plistSize) (shape : Shape T root home m) {t : Traversal}
    (located : Located T root home m t) : Safe T pool root op home m (.acquire t) := by
  have bound : T.levelHash op.key t.depth t.count < t.count :=
    T.levelHash_lt _ _ (located.count_eq ▸ T.two_le_size plist _)
  obtain ⟨pr, found⟩ := located.exists_bucket bound
  obtain ⟨pr', stored, lock, _⟩ := located.bucket shape found
  obtain ⟨w, word⟩ := shape.lock_exists stored
  cases w with
  | pUnlocked =>
    refine .inr ⟨m, _, home, _, by simp [step, found, Mem.compareAndSwap, lock, word]; rfl,
      .quiet shape (.inl rfl) ?_ rfl⟩
    rintro pc' same
    cases same
    exact ⟨located, pr', stored, word⟩
  | eLocked =>
    refine .inr ⟨m, _, home, _, by simp [step, found, Mem.compareAndSwap, lock, word]; rfl,
      .quiet shape (.inl rfl) ?_ rfl⟩
    rintro pc' same
    cases same
    exact located
  | eUnlocked =>
    -- the swap: the bucket is open, so all that was allocated for it is E-Lists
    let touch : RemotePtr → Nat → Prop := fun p b =>
      p = t.beforeLocalizedCurr ∧ b = T.levelHash op.key t.depth t.count
    have change : Change touch home home m (m.setLock pr'.lock .eLocked) :=
      .setLock shape stored ⟨rfl, rfl⟩ _
    have open_ : ∀ p b, m.Word p b .pUnlocked → ¬ touch p b := by
      rintro p b closed ⟨rfl, rfl⟩
      cases closed.functional ⟨pr', stored, word⟩
    refine .inr ⟨_, _, home, touch, by
      simp only [step, found, Mem.compareAndSwap, lock, word, Option.map_some, if_true]; rfl, ?_⟩
    refine ⟨shape.lock stored, ?_, change, fun _ _ owned => .inl owned, ?_, by simp [Pc.held], ?_, ?_, ?_, ?_, ?_⟩
    · rintro pc' same
      cases same
      exact ⟨located.stable change open_, ⟨pr', stored, by simp [Mem.locks_setLock]⟩,
        fun e owned _ => shape.opened stored word e owned⟩
    · rintro p b ⟨rfl, rfl⟩
      exact .inr (.inr ⟨located.published, ⟨pr', stored, word⟩, rfl⟩)
    · rintro q j ⟨qr, at_, locked⟩
      rw [Mem.locks_setLock] at locked
      split at locked
      · next same =>
        obtain ⟨rfl, rfl⟩ := shape.lock_inj at_ stored same
        exact .inl rfl
      · exact .inr ⟨by simp [Pc.held], qr, at_, locked⟩
    · rintro q j ⟨qr, at_, closed⟩
      rw [Mem.locks_setLock] at closed
      split at closed
      · cases closed
      · exact .inl ⟨qr, at_, closed⟩
    · rintro p b holds
      cases holds
      exact .inr ⟨pr', stored, word⟩
    · exact fun p b qr bs at_ _ => ⟨qr, at_, rfl⟩
    · rintro p b qr qr' at_ now null
      cases at_.symm.trans now
      exact null

theorem refetch_safe (shape : Shape T root home m) {t : Traversal} {b : Nat}
    (inv : PcInv T root home m pool (.refetch t b)) : Safe T pool root op home m (.refetch t b) := by
  obtain ⟨located, pr, found, word⟩ := inv
  obtain ⟨bs, stored, length⟩ := located.plist
  obtain ⟨bs', stored', at_⟩ := Mem.bucket_eq_some.mp found
  cases stored.symm.trans stored'
  have read := extendedRead_ok T pool stored (n := 2 ^ (t.depth - 1)) (length.trans located.count_eq)
  refine .inr ⟨_, _, home, _, by simp [step, read, PlistRef.bucket, at_, bind, Except.bind]; rfl,
    .quiet shape (.inr rfl) ?_ rfl⟩
  rintro pc' same
  cases same
  obtain ⟨owned, bs', child, storedP, storedC, double⟩ := shape.closed found word
  cases stored.symm.trans storedP
  exact ⟨located.bump, b, owned, ⟨pr, found, word⟩, child, storedC, by omega⟩

theorem descend_safe (shape : Shape T root home m) {t : Traversal} {bb : RemotePtr}
    (inv : PcInv T root home m pool (.descend t bb)) : Safe T pool root op home m (.descend t bb) := by
  obtain ⟨located, b, owned, word, child, stored, length⟩ := inv
  have notNull : bb ≠ .null := by rintro rfl; rw [shape.home_null] at owned; cases owned
  have published : Published root home m bb := .inr ⟨_, b, owned, word⟩
  have count : t.count * 2 = T.size (t.depth + 1) := by
    rw [T.size_succ located.depth_pos, located.count_eq]
  -- the child is used in place when it is local, and read into a copy of twice the size when not
  by_cases near : bb.isLocal pool = true
  · refine .inr ⟨m, _, home, _, by
      simp only [step, near, true_or, if_true, pure_bind, located.free_eq]; rfl,
      .quiet shape (.inl rfl) ?_ rfl⟩
    rintro pc' same
    cases same
    exact
      { depth_pos := Nat.le_add_left 1 _
        count_eq := count
        plist := ⟨child, stored, length⟩
        published := published
        inPlace := by rintro p same; cases same; exact ⟨rfl, by simp⟩
        copied := by simp }
  · have far : bb.isLocal pool = false := by simpa using near
    have read := extendedRead_ok T pool stored (n := 2 ^ t.depth) (by rw [length, count]; rfl)
    have free : (if t.oldBucketBase then t.curr.free m.bump else m.bump) = m.bump := located.bump.free_eq
    refine .inr ⟨m.bump, _, home, _, by
      simp only [step, far, notNull, or_self, if_false, read, bind, Except.bind, free, Bool.false_eq_true]; rfl,
      .quiet shape (.inr rfl) ?_ rfl⟩
    rintro pc' same
    cases same
    have copy := Located.of_copy shape (Nat.le_add_left 1 t.depth) stored (length.trans count) published
      (m.fresh pool) (!false)
    rw [← count] at copy
    exact copy.bump

theorem loadBase_safe (shape : Shape T root home m) {t : Traversal} {b : Nat}
    (held : Held T root home m t b none) : Safe T pool root op home m (.loadBase t b) := by
  obtain ⟨pr, found⟩ := held.located.exists_bucket (held.located.word_lt held.word)
  obtain ⟨_, _, _, base⟩ := held.located.bucket shape found
  -- an empty bucket answers for `contains` and `remove`; `insert` makes a first E-List
  by_cases null : pr.base = .null
  · refine .inr ⟨m, _, home, _, by simp only [step, found, null, if_true]; rfl,
      .quiet shape (.inl rfl) ?_ ?_⟩
    · rintro pc' same
      cases same
      cases op with
      | insert key value => exact held
      | contains key => exact ⟨held, by simp [HeldOk]⟩
      | remove key => exact ⟨held, by simp [HeldOk]⟩
    · cases op <;> rfl
  · have owned := base.resolve_left null
    by_cases near : pr.base.isLocal pool = true
    · refine .inr ⟨m, _, home, _, by simp only [step, found, null, if_false, near, if_true]; rfl,
        .quiet shape (.inl rfl) ?_ rfl⟩
      rintro pc' same
      cases same
      exact
        { held with
          base_home := owned
          base_curr := ⟨pr, found, rfl⟩
          base_skip := by simp
          ref := ⟨by rintro p same; cases same; exact ⟨rfl, near⟩, by simp⟩ }
    · refine .inr ⟨m, _, home, _, by simp only [step, found, null, if_false, near]; rfl,
        .quiet shape (.inl rfl) ?_ rfl⟩
      rintro pc' same
      cases same
      exact ⟨held, owned, ⟨pr, found, rfl⟩, by simpa using near⟩

theorem readElist_safe (shape : Shape T root home m) {t : Traversal} {b : Nat} {bb : RemotePtr}
    (inv : PcInv T root home m pool (.readElist t b bb)) : Safe T pool root op home m (.readElist t b bb) := by
  obtain ⟨held, owned, ⟨pr, found, base⟩, far⟩ := inv
  obtain ⟨el, stored, fits⟩ := held.owned bb owned (by simp)
  refine .inr ⟨m.bump, _, home, _, by simp only [step, readElist, stored, bind, Except.bind]; rfl,
    .quiet shape (.inr rfl) ?_ rfl⟩
  rintro pc' same
  cases same
  have at_ : AtList T root home m pool t b bb (.copied (m.fresh pool) el) none :=
    { held with
      base_home := owned
      base_curr := ⟨pr, found, base⟩
      base_skip := by simp
      ref := ⟨by simp, by rintro block el' same; cases same; exact ⟨fits, far⟩⟩ }
  exact at_.bump

theorem search_safe (shape : Shape T root home m) {t : Traversal} {b : Nat} {bb : RemotePtr}
    {e : ElistRef K V} {i : Nat} (at_ : AtList T root home m pool t b bb e none) :
    Safe T pool root op home m (.search t b bb e i) := by
  obtain ⟨el, got, fits⟩ := at_.get
  have kept : HeldOk T pool (some (bb, e)) := by rintro bb' e' same; cases same; exact at_.ref
  -- what follows the search depends on the operation: `onFound` and `onMissing`
  by_cases live : i < el.count
  · have inArray : i < el.pairs.length := Nat.lt_of_lt_of_le live fits.1
    by_cases hit : el.pairs[i].key = op.key
    · refine .inr ⟨m, _, home, _, by
        simp only [step, got, live, if_true, List.getElem?_eq_getElem inArray, hit]; rfl,
        .quiet shape (.inl rfl) ?_ ?_⟩
      · rintro pc' same
        cases same
        cases op with
        | contains key => exact ⟨at_.toHeld, kept⟩
        | insert key value => exact ⟨at_.toHeld, kept⟩
        | remove key =>
          simp only [onFound]
          split
          · next many => exact ⟨at_, el, got, live, many⟩
          · exact ⟨at_, el, got, by omega⟩
      · cases op <;> simp only [onFound] <;> try split
        all_goals rfl
    · refine .inr ⟨m, _, home, _, by
        simp only [step, got, live, if_true, List.getElem?_eq_getElem inArray, hit, if_false]; rfl,
        .quiet shape (.inl rfl) ?_ rfl⟩
      rintro pc' same
      cases same
      exact at_
  · refine .inr ⟨m, _, home, _, by simp only [step, got, live, if_false]; rfl,
      .quiet shape (.inl rfl) ?_ ?_⟩
    · rintro pc' same
      cases same
      cases op with
      | contains key => exact ⟨at_.toHeld, kept⟩
      | remove key => exact ⟨at_.toHeld, kept⟩
      | insert key value =>
        simp only [onMissing]
        split
        · next room => exact ⟨at_, el, got, room⟩
        · exact at_
    · cases op <;> simp only [onMissing] <;> try split
      all_goals rfl

theorem storePair_safe (shape : Shape T root home m) {t : Traversal} {b : Nat} {bb : RemotePtr}
    {e : ElistRef K V} {pair : Pair K V} (inv : PcInv T root home m pool (.storePair t b bb e pair)) :
    Safe T pool root op home m (.storePair t b bb e pair) := by
  obtain ⟨at_, el, got, room⟩ := inv
  obtain ⟨el', got', fits⟩ := at_.get
  cases got.symm.trans got'
  obtain ⟨shape', change, at', get', plists, locks⟩ :=
    at_.set shape _ (fits.store pair fits.1 room)
  refine .inr ⟨_, _, home, _, by simp only [step, got, room, if_true]; rfl,
    .lists shape' change (fun _ _ owned => .inl owned) plists locks ?_ rfl⟩
  rintro pc' same
  cases same
  refine ⟨at', _, get', ?_⟩
  rw [EList.length_store _ _ fits.1, EList.count_store]
  omega

theorem storeCount_safe (shape : Shape T root home m) {t : Traversal} {b : Nat} {bb : RemotePtr}
    {e : ElistRef K V} (inv : PcInv T root home m pool (.storeCount t b bb e)) :
    Safe T pool root op home m (.storeCount t b bb e) := by
  obtain ⟨at_, el, got, written⟩ := inv
  obtain ⟨el', got', fits⟩ := at_.get
  cases got.symm.trans got'
  obtain ⟨shape', change, at', _, plists, locks⟩ :=
    at_.set shape (el.withCount (el.count + 1)) ⟨written, fits.2⟩
  refine .inr ⟨_, _, home, _, by simp only [step, got]; rfl,
    .lists shape' change (fun _ _ owned => .inl owned) plists locks ?_ ?_⟩
  · rintro pc' same
    cases same
    exact afterStore_inv at'
  · exact held_afterStore ..

theorem swapLast_safe (shape : Shape T root home m) {t : Traversal} {b : Nat} {bb : RemotePtr}
    {e : ElistRef K V} {i : Nat} {result : K} (inv : PcInv T root home m pool (.swapLast t b bb e i result)) :
    Safe T pool root op home m (.swapLast t b bb e i result) := by
  obtain ⟨at_, el, got, live, many⟩ := inv
  obtain ⟨el', got', fits⟩ := at_.get
  cases got.symm.trans got'
  have last : el.count - 1 < el.pairs.length := by have := fits.1; omega
  obtain ⟨shape', change, at', get', plists, locks⟩ := at_.set shape _
    (fits.store (i := i) el.pairs[el.count - 1] (by have := fits.1; omega) (by have := fits.1; have := fits.2; omega))
  refine .inr ⟨_, _, home, _, by simp only [step, got, List.getElem?_eq_getElem last]; rfl,
    .lists shape' change (fun _ _ owned => .inl owned) plists locks ?_ rfl⟩
  rintro pc' same
  cases same
  exact ⟨at', _, get', Nat.le_of_lt many⟩

theorem dropCount_safe (shape : Shape T root home m) {t : Traversal} {b : Nat} {bb : RemotePtr}
    {e : ElistRef K V} {result : K} (inv : PcInv T root home m pool (.dropCount t b bb e result)) :
    Safe T pool root op home m (.dropCount t b bb e result) := by
  obtain ⟨at_, el, got, _⟩ := inv
  obtain ⟨el', got', fits⟩ := at_.get
  cases got.symm.trans got'
  obtain ⟨shape', change, at', _, plists, locks⟩ := at_.set shape
    (el.withCount (el.count - 1)) ⟨Nat.le_trans (Nat.sub_le _ _) fits.1, fits.2⟩
  refine .inr ⟨_, _, home, _, by simp only [step, got]; rfl,
    .lists shape' change (fun _ _ owned => .inl owned) plists locks ?_ ?_⟩
  · rintro pc' same
    cases same
    exact afterStore_inv at'
  · exact held_afterStore ..

theorem writeBack_safe (shape : Shape T root home m) {t : Traversal} {b : Nat} {bb : RemotePtr}
    {e : ElistRef K V} {res : HtRes V} (inv : PcInv T root home m pool (.writeBack t b bb e res)) :
    Safe T pool root op home m (.writeBack t b bb e res) := by
  obtain ⟨at_, far⟩ := inv
  obtain ⟨el, got, fits⟩ := at_.get
  obtain ⟨old, stored, _⟩ := at_.stored
  have change : Change (fun p j => some (t.beforeLocalizedCurr, b) = some (p, j)) home home m
      (m.setElist bb el) := .setElist at_.base_home rfl el
  refine .inr ⟨_, _, home, _, by simp only [step, got, stored]; rfl,
    .lists (shape.setElist stored fits) change (fun _ _ owned => .inl owned) rfl rfl ?_ rfl⟩
  rintro pc' same
  cases same
  refine ⟨⟨at_.located.stable change ?_, at_.word, ?_⟩, by rintro bb' e' same; cases same; exact at_.ref⟩
  · rintro q j closed same
    cases same
    cases closed.functional at_.word
  · intro e' owned _
    rw [Mem.elists_setElist]
    split
    · exact ⟨el, rfl, fits⟩
    · exact at_.owned e' owned (by simp)

theorem newElist_safe (room : 1 ≤ T.elistSize) (shape : Shape T root home m) {t : Traversal} {b : Nat}
    {pair : Pair K V} (held : Held T root home m t b none) :
    Safe T pool root op home m (.newElist t b pair) := by
  obtain ⟨pr, found, locked⟩ := held.word
  obtain ⟨el, insert, fits, _⟩ := T.elistInsert_ok T.fits_empty room pair
  have change : Change (fun p j => some (t.beforeLocalizedCurr, b) = some (p, j)) home _ m _ :=
    .newElist shape pool el rfl
  refine .inr ⟨_, _, _, _, by simp only [step, insert]; rfl,
    .lists (shape.newElist pool fits found) change (owners_update _ _ _) rfl rfl
      ?_ rfl⟩
  rintro pc' same
  cases same
  refine ⟨⟨held.located.stable change ?_, held.word, ?_⟩, Function.update_self ..⟩
  · rintro q j closed same
    cases same
    cases closed.functional held.word
  · intro e owned _
    rw [Mem.elists_newElist]
    split
    · exact ⟨el, rfl, fits⟩
    · next old =>
      rw [Function.update_of_ne old] at owned
      exact held.owned e owned (by simp)

theorem publishElist_safe (shape : Shape T root home m) {t : Traversal} {b : Nat} {eBase : RemotePtr}
    (inv : PcInv T root home m pool (.publishElist t b eBase)) :
    Safe T pool root op home m (.publishElist t b eBase) := by
  obtain ⟨held, owned⟩ := inv
  obtain ⟨pr, found, _⟩ := held.word
  refine .inr ⟨_, _, home, _, by simp only [step, changeBucketPointer, found, bind, Except.bind]; rfl,
    .base shape rfl held.word owned ?_ ?_ rfl⟩
  · -- all that was allocated for this bucket is E-Lists
    intro q bs mine stored
    obtain ⟨el, list, _⟩ := held.owned q mine (by simp)
    rw [shape.disjoint stored] at list
    cases list
  · rintro pc' same
    cases same
    exact ⟨⟨held.located.setBase held.word eBase, Mem.word_setBase.mpr held.word, held.owned⟩,
      by simp [HeldOk]⟩

theorem newPlist_safe (plist : 2 ≤ T.plistSize) (shape : Shape T root home m) {t : Traversal} {b : Nat}
    {bb : RemotePtr} {e : ElistRef K V} (at_ : AtList T root home m pool t b bb e none) :
    Safe T pool root op home m (.newPlist t b bb e) := by
  have buckets := at_.located.buckets plist
  by_cases fits : t.count * 2 < 2 ^ 31
  -- the doubled count leaves `int`: the step fails, and says at which E-List
  swap
  · have overflow : T.buckets (t.count * 2 / T.plistSize) = none := by rw [buckets, if_neg fits]
    exact .inl ⟨⟨t, b, bb, e, rfl, overflow⟩, by simp only [step, overflow]⟩
  obtain ⟨pr, found, locked⟩ := at_.word
  have change : Change (fun p j => some (t.beforeLocalizedCurr, b) = some (p, j)) home _ m
    (m.newPlist pool (t.count * 2)) := .newPlist shape pool _ rfl
  have shape' := shape.newPlist pool (t.count * 2) found (by simp [locked])
  have apart : t.beforeLocalizedCurr ≠ m.fresh pool := shape.ne_fresh_of_bucket found
  -- all the new locks are open, so no closed or held bucket is new
  have words : ∀ {q j w}, w ≠ .eUnlocked → (m.newPlist pool (t.count * 2)).Word q j w → m.Word q j w := by
    rintro q j w other ⟨qr, now, word⟩
    rcases Mem.bucket_of_newPlist now with ⟨_, bound, rfl⟩ | was
    · rw [Mem.locks_newPlist_fresh m pool _ bound] at word
      exact absurd (Option.some.inj word.symm) other
    · obtain ⟨w', stored⟩ := shape.lock_exists was
      rw [shape.locks_newPlist stored] at word
      exact ⟨qr, was, word ▸ stored⟩
  refine .inr ⟨m.newPlist pool (t.count * 2), .inl (.rehashSource t b bb e (m.fresh pool)), _, _, by
    simp only [step, buckets, fits, if_true],
    shape', ?_, change, owners_update _ _ _, fun _ _ touched => .inl touched, fun _ _ holds => holds,
    flow_of_words (fun _ _ => words (by simp)) rfl, fun _ _ closed => .inl (words (by simp) closed),
    fun _ _ now => .inl now, fun q j qr bs was _ => ⟨qr, shape.bucket_newPlist was, rfl⟩, ?_⟩
  · rintro pc' same
    cases same
    refine ⟨?_, ?_, ?_⟩
    · refine
        { located := at_.located.stable change ?_
          word := ⟨pr, shape.bucket_newPlist found, shape.locks_newPlist locked⟩
          owned := ?_
          base_home := change.homes at_.base_home
          base_curr := ?_
          base_skip := by simpa using shape.ne_fresh_of_home at_.base_home
          ref := at_.ref }
      · rintro q j closed same
        cases same
        cases closed.functional at_.word
      · intro e' owned other
        rw [Function.update_of_ne (by simpa using other)] at owned
        rw [Mem.elists_newPlist]
        exact at_.owned e' owned (by simp)
      · obtain ⟨pr', at', base⟩ := at_.base_curr
        refine ⟨pr', ?_, base⟩
        cases curr : t.curr with
        | inPlace p => rw [curr] at at'; exact shape.bucket_newPlist at'
        | copied block bs => rw [curr] at at'; exact at'
    · refine ⟨Function.update_self .., ?_, ?_, ?_⟩
      · exact ⟨_, by rw [Mem.plists_newPlist, if_pos rfl], by simp [Mem.length_initBuckets]⟩
      · intro j qr now
        rcases Mem.bucket_of_newPlist now with ⟨_, bound, rfl⟩ | was
        · exact Mem.locks_newPlist_fresh m pool _ bound
        · exact absurd rfl (shape.ne_fresh_of_bucket was)
      · -- no other P-List is built for this bucket: what it owns are E-Lists
        intro q bs owned stored
        by_contra other
        rw [Function.update_of_ne other] at owned
        rw [Mem.plists_newPlist, if_neg other] at stored
        obtain ⟨el, list, _⟩ := at_.owned q owned (by simp)
        rw [shape.disjoint stored] at list
        cases list
    · intro j e' el owned _
      rw [Function.update_apply] at owned
      split at owned
      · simp only [Option.some.injEq, Prod.mk.injEq] at owned
        exact absurd owned.1 apart
      · exact absurd owned shape.not_home_fresh
  · intro q j qr qr' was now null
    cases (shape.bucket_newPlist was).symm.trans now
    exact null

theorem rehashSource_safe (shape : Shape T root home m) {t : Traversal} {b : Nat} {bb : RemotePtr}
    {e : ElistRef K V} {newP : RemotePtr} (inv : PcInv T root home m pool (.rehashSource t b bb e newP)) :
    Safe T pool root op home m (.rehashSource t b bb e newP) := by
  obtain ⟨at_, building, filled⟩ := inv
  obtain ⟨pr, found, base⟩ := at_.base_curr
  obtain ⟨el, stored, fits⟩ := at_.stored
  by_cases near : bb.isLocal pool = true
  · refine .inr ⟨m, _, home, _, by simp only [step, found, base, near, if_true]; rfl,
      .quiet shape (.inl rfl) ?_ rfl⟩
    rintro pc' same
    cases same
    exact ⟨at_, building, filled, ⟨by rintro p same; cases same; exact ⟨rfl, near⟩, by simp⟩, el, stored,
      Nat.zero_le _⟩
  · have far : bb.isLocal pool = false := by simpa using near
    refine .inr ⟨m.bump, _, home, _, by
      simp only [step, found, base, far, Bool.false_eq_true, if_false, readElist, stored, bind, Except.bind]; rfl,
      .quiet shape (.inr rfl) ?_ rfl⟩
    rintro pc' same
    cases same
    exact ⟨at_.bump, building.stable (.bump (fun _ _ => False) home m) (by simp) (by simp),
      filled.stable (.bump (fun _ _ => False) home m) (by simp),
      ⟨by simp, by rintro block el' same; cases same; exact ⟨fits, far⟩⟩, el, rfl, Nat.zero_le _⟩

theorem rehashMove_safe (plist : 2 ≤ T.plistSize) (shape : Shape T root home m) {t : Traversal} {b : Nat}
    {bb : RemotePtr} {e source : ElistRef K V} {newP : RemotePtr} {i : Nat}
    (inv : PcInv T root home m pool (.rehashMove t b bb e newP source i)) :
    Safe T pool root op home m (.rehashMove t b bb e newP source i) := by
  have unpublished := inv.built_unpublished shape rfl
  obtain ⟨at_, building, filled, ref, el, got, done⟩ := inv
  obtain ⟨el', got', fits⟩ := ref.get at_.stored
  cases got.symm.trans got'
  -- the P-List being built is not yet in the tree, so the loop cannot touch the bucket it works for
  have apart : t.beforeLocalizedCurr ≠ newP := by
    rintro rfl
    exact unpublished at_.located.published
  by_cases more : i < el.count
  · have inArray : i < el.pairs.length := Nat.lt_of_lt_of_le more fits.1
    obtain ⟨m', home', moved, shape', change, building', filled', owners, words, keeps, emptied⟩ :=
      moveInto_ok pool plist shape at_.located building apart filled (Nat.lt_of_lt_of_le inArray fits.2)
        el.pairs[i] (t.depth + 1)
    have away : ∀ j, ¬ (fun p (_ : Nat) => p = newP) t.beforeLocalizedCurr j := fun _ => apart
    refine .inr ⟨m', .inl (.rehashMove t b bb e newP source (i + 1)), home', _, by
      simp only [step, got, more, if_true, List.getElem?_eq_getElem inArray, moved, bind, Except.bind]; rfl,
      shape', ?_, change, owners, ?_, fun _ _ holds => holds, flow_of_words (fun _ _ => words _ _ _) rfl,
      fun _ _ closed => .inl (words _ _ _ closed), fun _ _ now => .inl now, keeps, emptied⟩
    · rintro pc' same
      cases same
      refine ⟨at_.stable change ?_ (away b), building', filled', ref, el, ?_, more⟩
      · rintro p j ⟨pr, found, closed⟩ rfl
        rw [building.unlocked found] at closed
        cases closed
      · rw [ElistRef.get_stable change ref at_.base_home (away b), got]
    · rintro p j rfl
      exact .inr (.inl rfl)
  · refine .inr ⟨m, _, home, _, by simp only [step, got, more, if_false]; rfl,
      .quiet shape (.inl rfl) ?_ rfl⟩
    rintro pc' same
    cases same
    exact ⟨at_, building, ref⟩

theorem rehashFree_safe (shape : Shape T root home m) {t : Traversal} {b : Nat} {bb : RemotePtr}
    {e source : ElistRef K V} {newP : RemotePtr}
    (inv : PcInv T root home m pool (.rehashFree t b bb e newP source)) :
    Safe T pool root op home m (.rehashFree t b bb e newP source) := by
  obtain ⟨at_, building, ref⟩ := inv
  cases same : source with
  | copied block el =>
    refine .inr ⟨m, _, home, _, by simp only [step]; rfl, .quiet shape (.inl rfl) ?_ rfl⟩
    rintro pc' same
    cases same
    exact ⟨at_.located, at_.word, building, at_.ref⟩
  | inPlace p =>
    obtain ⟨rfl, _⟩ := ref.inPlace p same
    obtain ⟨pr, found, locked⟩ := at_.word
    have change : Change (fun p' j => some (t.beforeLocalizedCurr, b) = some (p', j)) home home m
      (m.freeElist p) := .freeElist at_.base_home rfl
    refine .inr ⟨m.freeElist p, _, home, _, by simp only [step]; rfl,
      .lists (shape.freeElist at_.base_home found (by simp [locked])) change (fun _ _ owned => .inl owned) rfl rfl ?_ rfl⟩
    rintro pc' same
    cases same
    refine ⟨at_.located.stable change ?_, at_.word, ?_, at_.ref⟩
    · rintro q j closed same
      cases same
      cases closed.functional at_.word
    · exact ⟨building.built_home, building.built_plist, building.unlocked, building.only⟩

theorem publishPlist_safe (shape : Shape T root home m) {t : Traversal} {b : Nat} {bb : RemotePtr}
    {e : ElistRef K V} {newP : RemotePtr}
    (inv : PcInv T root home m pool (.publishPlist t b bb e newP)) :
    Safe T pool root op home m (.publishPlist t b bb e newP) := by
  have unpublished := inv.built_unpublished shape rfl
  obtain ⟨located, word, building, ref⟩ := inv
  have apart : newP ≠ t.beforeLocalizedCurr := by rintro rfl; exact unpublished located.published
  obtain ⟨pr, found, _⟩ := id word
  refine .inr ⟨_, _, home, _, by simp only [step, changeBucketPointer, found, bind, Except.bind]; rfl,
    .base shape rfl word building.built_home (fun _ _ => building.only) ?_ rfl⟩
  rintro pc' same
  cases same
  exact ⟨located.setBase word newP, Mem.word_setBase.mpr word, building.setBase apart _, ref, by
    simp [Mem.bucket_setBase, found]⟩

theorem updateCurr_safe (shape : Shape T root home m) {t : Traversal} {b : Nat} {bb : RemotePtr}
    {e : ElistRef K V} {newP : RemotePtr} (inv : PcInv T root home m pool (.updateCurr t b bb e newP)) :
    Safe T pool root op home m (.updateCurr t b bb e newP) := by
  have unpublished := inv.built_unpublished shape rfl
  obtain ⟨located, word, building, ref, pr, found, base⟩ := inv
  have apart : newP ≠ t.beforeLocalizedCurr := by rintro rfl; exact unpublished located.published
  -- a local P-List is written in place, a remote one only in the copy
  cases curr : t.curr with
  | inPlace p =>
    obtain ⟨rfl, old⟩ := located.inPlace p curr
    refine .inr ⟨_, _, home, _, by simp only [step, curr, PlistRef.setBase]; rfl,
      .base shape rfl word building.built_home (fun _ _ => building.only) ?_ rfl⟩
    rintro pc' same
    cases same
    refine ⟨?_, Mem.word_setBase.mpr word, ?_, ref, by simp [Mem.bucket_setBase, found]⟩
    · rw [← curr]
      exact located.setBase word newP
    · rw [← curr]
      exact building.setBase apart _
  | copied block buckets =>
    refine .inr ⟨m, _, home, _, by simp only [step, curr, PlistRef.setBase]; rfl,
      .quiet shape (.inl rfl) ?_ rfl⟩
    rintro pc' same
    cases same
    obtain ⟨length, lookup⟩ := located.copied block buckets curr
    refine ⟨?_, word, { building with }, ref, pr, found, base⟩
    refine { located with inPlace := by simp, copied := ?_ }
    rintro block' buckets' same
    cases same
    refine ⟨by simp [length], fun j qr at_ => ?_⟩
    rw [List.getElem?_modify] at at_
    obtain ⟨old, was, rfl⟩ := Option.map_eq_some_iff.mp at_
    obtain ⟨pr', now, lock, oldBase⟩ := lookup j old was
    refine ⟨pr', now, ?_, ?_⟩
    · split <;> exact lock
    · split
      · next here => exact .inr (here ▸ building.built_home)
      · exact oldBase

theorem unlockPlist_safe (shape : Shape T root home m) {t : Traversal} {b : Nat} {bb : RemotePtr}
    {e : ElistRef K V} {newP : RemotePtr} (inv : PcInv T root home m pool (.unlockPlist t b bb e newP)) :
    Safe T pool root op home m (.unlockPlist t b bb e newP) := by
  obtain ⟨located, word, building, ref, pr, found, base⟩ := inv
  obtain ⟨m', done, sound⟩ := unlockBucket_sound pool (.unlockPlist t b bb e newP)
    (.inl (.afterRehash t bb e)) .pUnlocked shape located word rfl rfl rfl (by simp)
    (by
      rintro _ pr' found'
      cases found.symm.trans found'
      obtain ⟨bs, storedP, lengthP⟩ := located.plist
      obtain ⟨child, storedC, lengthC⟩ := building.built_plist
      exact ⟨base ▸ building.built_home, bs, child, storedP, base ▸ storedC, by omega⟩)
    (by simp) (by rintro m' located' pc' same; cases same; exact ⟨located', ref⟩)
  exact .inr ⟨m', _, home, _, by simp only [step, done, bind, Except.bind]; rfl, sound⟩

theorem afterRehash_safe (shape : Shape T root home m) {t : Traversal} {bb : RemotePtr} {e : ElistRef K V}
    (inv : PcInv T root home m pool (.afterRehash t bb e)) :
    Safe T pool root op home m (.afterRehash t bb e) := by
  obtain ⟨located, ref⟩ := inv
  refine .inr ⟨m, _, home, _, by simp only [step, ref.free_eq]; rfl, .quiet shape (.inl rfl) ?_ rfl⟩
  rintro pc' same
  cases same
  exact { located with inPlace := fun p curr => ⟨(located.inPlace p curr).1, rfl⟩ }

theorem unlock_safe (shape : Shape T root home m) {t : Traversal} {b : Nat}
    {held : Option (RemotePtr × ElistRef K V)} {res : HtRes V}
    (inv : PcInv T root home m pool (.unlock t b held res)) :
    Safe T pool root op home m (.unlock t b held res) := by
  obtain ⟨holds, kept⟩ := inv
  obtain ⟨m', done, sound⟩ := unlockBucket_sound pool (.unlock t b held res)
    (.inl (.leave t held res)) .eUnlocked shape holds.located holds.word rfl rfl rfl
    (fun _ e owned => holds.owned e owned (by simp)) (by simp) (by simp)
    (by rintro m' located' pc' same; cases same; exact ⟨located', kept⟩)
  exact .inr ⟨m', _, home, _, by simp only [step, done, bind, Except.bind]; rfl, sound⟩

theorem leave_safe (shape : Shape T root home m) {t : Traversal}
    {held : Option (RemotePtr × ElistRef K V)} {res : HtRes V}
    (inv : PcInv T root home m pool (.leave t held res)) :
    Safe T pool root op home m (.leave t held res) := by
  obtain ⟨located, kept⟩ := inv
  refine .inr ⟨m, .inr res, home, _, ?_, .quiet shape (.inl rfl) (by simp) rfl⟩
  cases held with
  | none => simp only [step, located.free_eq]
  | some pair => simp only [step, (kept _ _ rfl).free_eq, located.free_eq]

/-- Every step from a point whose assertion holds is safe. -/
theorem step_safe (plist : 2 ≤ T.plistSize) (elist : 1 ≤ T.elistSize) (shape : Shape T root home m)
    (inv : PcInv T root home m pool pc) : Safe T pool root op home m pc := by
  cases pc with
  | readRoot => exact readRoot_safe op shape
  | acquire t => exact acquire_safe op plist shape inv
  | refetch t b => exact refetch_safe op shape inv
  | descend t bb => exact descend_safe op shape inv
  | loadBase t b => exact loadBase_safe op shape inv
  | readElist t b bb => exact readElist_safe op shape inv
  | search t b bb e i => exact search_safe op shape inv
  | newElist t b pair => exact newElist_safe op elist shape inv
  | publishElist t b eBase => exact publishElist_safe op shape inv
  | storePair t b bb e pair => exact storePair_safe op shape inv
  | storeCount t b bb e => exact storeCount_safe op shape inv
  | swapLast t b bb e i result => exact swapLast_safe op shape inv
  | dropCount t b bb e result => exact dropCount_safe op shape inv
  | writeBack t b bb e res => exact writeBack_safe op shape inv
  | newPlist t b bb e => exact newPlist_safe op plist shape inv
  | rehashSource t b bb e newP => exact rehashSource_safe op shape inv
  | rehashMove t b bb e newP source i => exact rehashMove_safe op plist shape inv
  | rehashFree t b bb e newP source => exact rehashFree_safe op shape inv
  | publishPlist t b bb e newP => exact publishPlist_safe op shape inv
  | updateCurr t b bb e newP => exact updateCurr_safe op shape inv
  | unlockPlist t b bb e newP => exact unlockPlist_safe op shape inv
  | afterRehash t bb e => exact afterRehash_safe op shape inv
  | unlock t b held res => exact unlock_safe op shape inv
  | leave t held res => exact leave_safe op shape inv

end Steps

/-- The result a thread is about to return; it took effect already. -/
def Pc.answer : Pc K V → Option (HtRes V)
  | .leave _ _ res => some res
  | _ => none

theorem Pc.answer_eq_some {pc : Pc K V} {res : HtRes V} : pc.answer = some res ↔ ∃ t held, pc = .leave t held res := by
  cases pc <;> simp [answer]

/-- An operation goes on to the point before its return only by `unlock`, and then returns. -/
theorem Branch.answers [DecidableEq K] {op : IhtOp K V} (branch : Branch T pool root op m pc m' next) :
    (∃ res, pc.answer = some res ∧ next = .inr res) ∨
      (∃ t b held res, pc = .unlock t b held res ∧ next = .inl (.leave t held res)) ∨
      (pc.answer = none ∧ (∀ t b held res, pc ≠ .unlock t b held res) ∧ ∃ pc', next = .inl pc' ∧ pc'.answer = none) := by
  cases branch with
  | leave => exact .inl ⟨_, rfl, rfl⟩
  | unlock => exact .inr (.inl ⟨_, _, _, _, rfl, rfl⟩)
  | loadNull => exact .inr (.inr ⟨rfl, by simp, _, rfl, by cases op <;> rfl⟩)
  | found =>
    refine .inr (.inr ⟨rfl, by simp, _, rfl, ?_⟩)
    unfold onFound
    split
    · rfl
    · rfl
    · split <;> rfl
  | missing =>
    refine .inr (.inr ⟨rfl, by simp, _, rfl, ?_⟩)
    unfold onMissing
    split
    · split <;> rfl
    · rfl
    · rfl
  | storeCount | dropCount =>
    refine .inr (.inr ⟨rfl, by simp, _, rfl, ?_⟩)
    unfold afterStore
    split <;> rfl
  | _ => exact .inr (.inr ⟨rfl, by simp, _, rfl, rfl⟩)

end RdmaIht.Iht
