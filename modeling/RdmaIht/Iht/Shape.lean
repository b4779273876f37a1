import RdmaIht.Iht.Memory

/-! The shape of the blocks that hold at every step, also inside an operation.

`home` is auxiliary: it says of each E-List and each P-List below the root for
which bucket it was allocated. A bucket that is unlocked owns only allocated
E-Lists; a bucket that is permanently unlocked points to a P-List of twice the
length; nothing is said of a bucket whose lock is held.
-/

set_option autoImplicit false

namespace RdmaIht.Iht

variable {K V : Type}

abbrev Home := RemotePtr → Option (RemotePtr × Nat)

structure Shape (T : Template K V) (root : RemotePtr) (home : Home) (m : Mem K V) : Prop where
  next_pos : 1 ≤ m.next
  root_size : ∃ bs, m.plists root = some bs ∧ bs.length = T.plistSize
  home_root : home root = none
  home_null : home .null = none
  plist_null : m.plists .null = none
  plist_old : ∀ {p bs}, m.plists p = some bs → p.address < m.next
  elist_old : ∀ {e el}, m.elists e = some el → e.address < m.next
  disjoint : ∀ {p bs}, m.plists p = some bs → m.elists p = none
  lock_old : ∀ {l w}, m.locks l = some w → l.address < m.next
  home_old : ∀ {e x}, home e = some x → e.address < m.next
  home_bucket : ∀ {e p b}, home e = some (p, b) → ∃ pr, m.bucket p b = some pr
  lock_exists : ∀ {p b pr}, m.bucket p b = some pr → ∃ w, m.locks pr.lock = some w
  lock_inj : ∀ {p b pr q j qr}, m.bucket p b = some pr → m.bucket q j = some qr →
    pr.lock = qr.lock → p = q ∧ b = j
  base_ok : ∀ {p b pr}, m.bucket p b = some pr → pr.base = .null ∨ home pr.base = some (p, b)
  opened : ∀ {p b pr}, m.bucket p b = some pr → m.locks pr.lock = some .eUnlocked →
    ∀ e, home e = some (p, b) → ∃ el, m.elists e = some el ∧ T.Fits el
  closed : ∀ {p b pr}, m.bucket p b = some pr → m.locks pr.lock = some .pUnlocked →
    home pr.base = some (p, b) ∧ ∃ bs child, m.plists p = some bs ∧ m.plists pr.base = some child ∧
      child.length = 2 * bs.length

variable {T : Template K V} {root : RemotePtr} {home : Home} {m : Mem K V}

namespace Shape

theorem fresh_ne_null (shape : Shape T root home m) (self : Nat) : m.fresh self ≠ .null := by
  intro same
  have := congrArg RemotePtr.address same
  have := shape.next_pos
  simp only [Mem.fresh, RemotePtr.null] at *
  omega

theorem home_fresh (shape : Shape T root home m) (self : Nat) : home (m.fresh self) = none := by
  cases found : home (m.fresh self) with
  | none => rfl
  | some x => exact absurd (shape.home_old found) (Nat.lt_irrefl _)

theorem plists_fresh (shape : Shape T root home m) (self : Nat) : m.plists (m.fresh self) = none := by
  cases found : m.plists (m.fresh self) with
  | none => rfl
  | some x => exact absurd (shape.plist_old found) (Nat.lt_irrefl _)

theorem elists_fresh (shape : Shape T root home m) (self : Nat) : m.elists (m.fresh self) = none := by
  cases found : m.elists (m.fresh self) with
  | none => rfl
  | some x => exact absurd (shape.elist_old found) (Nat.lt_irrefl _)

theorem root_ne_fresh (shape : Shape T root home m) (self : Nat) : root ≠ m.fresh self := by
  obtain ⟨bs, found, _⟩ := shape.root_size
  intro same
  rw [same, shape.plists_fresh] at found
  cases found

theorem null_not_plist_child (shape : Shape T root home m) {p : RemotePtr} {b : Nat} {pr : PlistPair}
    (found : m.bucket p b = some pr) (lock : m.locks pr.lock = some .pUnlocked) : pr.base ≠ .null := by
  intro null
  have owned := (shape.closed found lock).1
  rw [null, shape.home_null] at owned
  cases owned

theorem bump (shape : Shape T root home m) : Shape T root home m.bump where
  next_pos := Nat.le_succ_of_le shape.next_pos
  root_size := shape.root_size
  home_root := shape.home_root
  home_null := shape.home_null
  plist_null := shape.plist_null
  plist_old found := Nat.lt_succ_of_lt (shape.plist_old found)
  elist_old found := Nat.lt_succ_of_lt (shape.elist_old found)
  disjoint := shape.disjoint
  lock_old found := Nat.lt_succ_of_lt (shape.lock_old found)
  home_old found := Nat.lt_succ_of_lt (shape.home_old found)
  home_bucket := shape.home_bucket
  lock_exists := shape.lock_exists
  lock_inj := shape.lock_inj
  base_ok := shape.base_ok
  opened := shape.opened
  closed := shape.closed

section Lock

variable {p : RemotePtr} {b : Nat} {pr : PlistPair} {w : LockType}

/-- Store a lock word of a bucket; the word stored must be true of the bucket. -/
theorem setLock (shape : Shape T root home m) (found : m.bucket p b = some pr)
    (opens : w = .eUnlocked → ∀ e, home e = some (p, b) → ∃ el, m.elists e = some el ∧ T.Fits el)
    (closes : w = .pUnlocked → home pr.base = some (p, b) ∧ ∃ bs child, m.plists p = some bs ∧
      m.plists pr.base = some child ∧ child.length = 2 * bs.length) :
    Shape T root home (m.setLock pr.lock w) where
  next_pos := shape.next_pos
  root_size := shape.root_size
  home_root := shape.home_root
  home_null := shape.home_null
  plist_null := shape.plist_null
  plist_old := shape.plist_old
  elist_old := shape.elist_old
  disjoint := shape.disjoint
  lock_old := by
    intro l w' stored
    rw [Mem.locks_setLock] at stored
    split at stored
    · next same =>
      obtain ⟨old, was⟩ := shape.lock_exists found
      subst same
      exact shape.lock_old was
    · exact shape.lock_old stored
  home_old := shape.home_old
  home_bucket := shape.home_bucket
  lock_exists := by
    intro q j qr other
    obtain ⟨old, was⟩ := shape.lock_exists other
    simp only [Mem.locks_setLock]
    split
    · exact ⟨w, rfl⟩
    · exact ⟨old, was⟩
  lock_inj := shape.lock_inj
  base_ok := shape.base_ok
  opened := by
    intro q j qr other stored
    rw [Mem.locks_setLock] at stored
    split at stored
    · next same =>
      -- one lock word, one bucket: the premises speak of the bucket at hand
      obtain ⟨rfl, rfl⟩ := shape.lock_inj other found same
      exact opens (Option.some.inj stored)
    · exact shape.opened other stored
  closed := by
    intro q j qr other stored
    rw [Mem.locks_setLock] at stored
    split at stored
    · next same =>
      obtain ⟨rfl, rfl⟩ := shape.lock_inj other found same
      have this : qr = pr := Option.some.inj (other.symm.trans found)
      subst this
      exact closes (Option.some.inj stored)
    · exact shape.closed other stored

theorem lock (shape : Shape T root home m) (found : m.bucket p b = some pr) :
    Shape T root home (m.setLock pr.lock .eLocked) :=
  shape.setLock found (by simp) (by simp)

end Lock

theorem setElist (shape : Shape T root home m) {e : RemotePtr} {old el : EList K V}
    (was : m.elists e = some old) (fits : T.Fits el) : Shape T root home (m.setElist e el) where
  next_pos := shape.next_pos
  root_size := shape.root_size
  home_root := shape.home_root
  home_null := shape.home_null
  plist_null := shape.plist_null
  plist_old := shape.plist_old
  elist_old := by
    intro e' el' now
    rw [Mem.elists_setElist] at now
    split at now
    · next same => subst same; exact shape.elist_old was
    · exact shape.elist_old now
  disjoint := by
    intro p bs stored
    have none := shape.disjoint stored
    rw [Mem.elists_setElist, if_neg, none]
    rintro rfl
    rw [was] at none
    cases none
  lock_old := shape.lock_old
  home_old := shape.home_old
  home_bucket := shape.home_bucket
  lock_exists := shape.lock_exists
  lock_inj := shape.lock_inj
  base_ok := shape.base_ok
  opened := by
    intro p b pr found lock e' owned
    rw [Mem.elists_setElist]
    split
    · exact ⟨el, rfl, fits⟩
    · exact shape.opened found lock e' owned
  closed := shape.closed

theorem freeElist (shape : Shape T root home m) {e p : RemotePtr} {b : Nat} {pr : PlistPair}
    (owned : home e = some (p, b)) (found : m.bucket p b = some pr)
    (locked : m.locks pr.lock ≠ some .eUnlocked) : Shape T root home (m.freeElist e) where
  next_pos := shape.next_pos
  root_size := shape.root_size
  home_root := shape.home_root
  home_null := shape.home_null
  plist_null := shape.plist_null
  plist_old := shape.plist_old
  elist_old := by
    intro e' el' now
    rw [Mem.elists_freeElist] at now
    split at now
    · cases now
    · exact shape.elist_old now
  disjoint := by
    intro p bs stored
    rw [Mem.elists_freeElist, shape.disjoint stored, ite_self]
  lock_old := shape.lock_old
  home_old := shape.home_old
  home_bucket := shape.home_bucket
  lock_exists := shape.lock_exists
  lock_inj := shape.lock_inj
  base_ok := shape.base_ok
  opened := by
    intro q j qr other lock e' owned'
    rw [Mem.elists_freeElist]
    split
    · next same =>
      subst same
      obtain ⟨rfl, rfl⟩ : p = q ∧ b = j := by simpa using owned.symm.trans owned'
      have this : qr = pr := Option.some.inj (other.symm.trans found)
      exact absurd (this ▸ lock) locked
    · exact shape.opened other lock e' owned'
  closed := shape.closed

theorem setBase (shape : Shape T root home m) {p base : RemotePtr} {b : Nat} {pr : PlistPair}
    (found : m.bucket p b = some pr) (owned : home base = some (p, b))
    (notClosed : m.locks pr.lock ≠ some .pUnlocked) : Shape T root home (m.setBase p b base) where
  next_pos := shape.next_pos
  root_size := by
    obtain ⟨bs, was, size⟩ := shape.root_size
    obtain ⟨bs', now, same⟩ := Mem.plists_setBase_of_some (p := p) (b := b) was
    exact ⟨bs', now, same.trans size⟩
  home_root := shape.home_root
  home_null := shape.home_null
  plist_null := by
    rw [Mem.plists_setBase, shape.plist_null]
    split <;> rfl
  plist_old := by
    intro q bs now
    obtain ⟨old, was⟩ := Mem.plists_of_setBase now
    exact shape.plist_old was
  elist_old := shape.elist_old
  disjoint := by
    intro q bs now
    obtain ⟨old, was⟩ := Mem.plists_of_setBase now
    exact shape.disjoint was
  lock_old := shape.lock_old
  home_old := shape.home_old
  home_bucket := by
    intro e q j owned'
    obtain ⟨qr, was⟩ := shape.home_bucket owned'
    rw [Mem.bucket_setBase, was]
    split
    · exact ⟨_, rfl⟩
    · exact ⟨qr, rfl⟩
  lock_exists := by
    intro q j qr other
    obtain ⟨old, was, same, _⟩ := Mem.bucket_of_setBase other
    exact same ▸ shape.lock_exists was
  lock_inj := by
    intro q j qr q' j' qr' other other' same
    obtain ⟨old, was, sameLock, _⟩ := Mem.bucket_of_setBase other
    obtain ⟨old', was', sameLock', _⟩ := Mem.bucket_of_setBase other'
    exact shape.lock_inj was was' (by rw [sameLock, sameLock', same])
  base_ok := by
    intro q j qr other
    obtain ⟨old, was, _, here | ⟨_, rfl⟩⟩ := Mem.bucket_of_setBase other
    · obtain ⟨rfl, rfl, rfl⟩ := here
      exact .inr owned
    · exact shape.base_ok was
  opened := by
    intro q j qr other lock
    obtain ⟨old, was, same, _⟩ := Mem.bucket_of_setBase other
    exact shape.opened was (same ▸ lock)
  -- a bucket that is closed is not the one written, and only one base changes
  closed := by
    intro q j qr other lock
    obtain ⟨old, was, same, here | ⟨_, rfl⟩⟩ := Mem.bucket_of_setBase other
    · obtain ⟨rfl, rfl, _⟩ := here
      have this : old = pr := Option.some.inj (was.symm.trans found)
      exact absurd (this ▸ same ▸ lock) notClosed
    · obtain ⟨home, bs, child, sizeP, sizeC, double⟩ := shape.closed was lock
      obtain ⟨bs', nowP, sameP⟩ := Mem.plists_setBase_of_some (p := p) (b := b) sizeP
      obtain ⟨child', nowC, sameC⟩ := Mem.plists_setBase_of_some (p := p) (b := b) sizeC
      exact ⟨home, bs', child', nowP, nowC, by rw [sameP, sameC, double]⟩

/-! ## Allocation -/

section Fresh

variable {self n : Nat} {q : RemotePtr} {j : Nat}

theorem ne_fresh_of_home (shape : Shape T root home m) {x : RemotePtr × Nat} (owned : home q = some x) : q ≠ m.fresh self := by
  rintro rfl
  rw [shape.home_fresh] at owned
  cases owned

theorem ne_fresh_of_plist (shape : Shape T root home m) {bs : List PlistPair} (stored : m.plists q = some bs) :
    q ≠ m.fresh self := by
  rintro rfl
  rw [shape.plists_fresh] at stored
  cases stored

theorem ne_fresh_of_bucket (shape : Shape T root home m) {pr : PlistPair} (found : m.bucket q j = some pr) :
    q ≠ m.fresh self := by
  obtain ⟨bs, stored, _⟩ := Mem.bucket_eq_some.mp found
  exact shape.ne_fresh_of_plist stored

theorem not_home_fresh (shape : Shape T root home m) : home q ≠ some (m.fresh self, j) := by
  intro owned
  obtain ⟨pr, found⟩ := shape.home_bucket owned
  exact shape.ne_fresh_of_bucket found rfl

theorem home_update (shape : Shape T root home m) {x y : RemotePtr × Nat} (owned : home q = some y) :
    Function.update home (m.fresh self) (some x) q = some y := by
  rw [Function.update_of_ne (shape.ne_fresh_of_home owned), owned]

theorem plists_newPlist (shape : Shape T root home m) {bs : List PlistPair} (was : m.plists q = some bs) :
    (m.newPlist self n).plists q = some bs := by
  rw [Mem.plists_newPlist, if_neg (shape.ne_fresh_of_plist was), was]

theorem bucket_newPlist (shape : Shape T root home m) {pr : PlistPair} (was : m.bucket q j = some pr) :
    (m.newPlist self n).bucket q j = some pr := by
  rw [Mem.bucket_newPlist, if_neg (shape.ne_fresh_of_bucket was), was]

theorem locks_newPlist (shape : Shape T root home m) {w : LockType} (was : m.locks q = some w) :
    (m.newPlist self n).locks q = some w := by
  have old := shape.lock_old was
  rw [Mem.locks_newPlist, if_neg (by omega), was]

theorem lock_ne_newPlist (shape : Shape T root home m) {pr : PlistPair} (found : m.bucket q j = some pr) (i : Nat) :
    pr.lock ≠ ⟨self, m.next + 1 + i⟩ := by
  intro same
  obtain ⟨w, stored⟩ := shape.lock_exists found
  have old := shape.lock_old stored
  rw [same] at old
  simp only at old
  omega

end Fresh

theorem newElist (shape : Shape T root home m) (self : Nat) {el : EList K V} (fits : T.Fits el)
    {p : RemotePtr} {b : Nat} {pr : PlistPair} (found : m.bucket p b = some pr) :
    Shape T root (Function.update home (m.fresh self) (some (p, b))) (m.newElist self el) where
  next_pos := Nat.le_succ_of_le shape.next_pos
  root_size := shape.root_size
  home_root := by rw [Function.update_of_ne (shape.root_ne_fresh self), shape.home_root]
  home_null := by rw [Function.update_of_ne (shape.fresh_ne_null self).symm, shape.home_null]
  plist_null := shape.plist_null
  plist_old found := Nat.lt_succ_of_lt (shape.plist_old found)
  elist_old := by
    intro e' el' now
    rw [Mem.elists_newElist] at now
    split at now
    · next same => subst same; exact Nat.lt_succ_self _
    · exact Nat.lt_succ_of_lt (shape.elist_old now)
  disjoint := by
    intro q bs stored
    have was : m.plists q = some bs := stored
    rw [Mem.elists_newElist, if_neg (shape.ne_fresh_of_plist was), shape.disjoint was]
  lock_old found := Nat.lt_succ_of_lt (shape.lock_old found)
  home_old := by
    intro e y owned
    rw [Function.update_apply] at owned
    split at owned
    · next same => subst same; exact Nat.lt_succ_self _
    · exact Nat.lt_succ_of_lt (shape.home_old owned)
  -- the new list is given to its bucket at once, before a pointer to it is stored
  home_bucket := by
    intro e q j owned
    rw [Function.update_apply] at owned
    split at owned
    · cases owned; exact ⟨pr, found⟩
    · exact shape.home_bucket owned
  lock_exists := shape.lock_exists
  lock_inj := shape.lock_inj
  base_ok found := (shape.base_ok found).imp_right shape.home_update
  opened := by
    intro q j qr other lock e owned
    rw [Mem.elists_newElist]
    split
    · exact ⟨el, rfl, fits⟩
    · next away =>
      rw [Function.update_of_ne away] at owned
      exact shape.opened other lock e owned
  closed found lock := ⟨shape.home_update (shape.closed found lock).1, (shape.closed found lock).2⟩

theorem newPlist (shape : Shape T root home m) (self n : Nat) {p : RemotePtr} {b : Nat} {pr : PlistPair}
    (found : m.bucket p b = some pr) (locked : m.locks pr.lock ≠ some .eUnlocked) :
    Shape T root (Function.update home (m.fresh self) (some (p, b))) (m.newPlist self n) where
  next_pos := by rw [Mem.next_newPlist]; omega
  root_size := by
    obtain ⟨bs, was, size⟩ := shape.root_size
    exact ⟨bs, shape.plists_newPlist was, size⟩
  home_root := by rw [Function.update_of_ne (shape.root_ne_fresh self), shape.home_root]
  home_null := by rw [Function.update_of_ne (shape.fresh_ne_null self).symm, shape.home_null]
  plist_null := by rw [Mem.plists_newPlist, if_neg (shape.fresh_ne_null self).symm, shape.plist_null]
  plist_old := by
    intro q bs now
    rw [Mem.next_newPlist]
    rw [Mem.plists_newPlist] at now
    split at now
    · next here => subst here; simp only [Mem.fresh]; omega
    · have := shape.plist_old now
      omega
  elist_old := by
    intro e el now
    rw [Mem.next_newPlist]
    rw [Mem.elists_newPlist] at now
    have := shape.elist_old now
    omega
  disjoint := by
    intro q bs now
    rw [Mem.elists_newPlist]
    rw [Mem.plists_newPlist] at now
    split at now
    · next here => subst here; exact shape.elists_fresh self
    · exact shape.disjoint now
  lock_old := by
    intro l w now
    rw [Mem.next_newPlist]
    rw [Mem.locks_newPlist] at now
    split at now
    · omega
    · have := shape.lock_old now
      omega
  home_old := by
    intro e y owned
    rw [Mem.next_newPlist]
    rw [Function.update_apply] at owned
    split at owned
    · next same => subst same; simp only [Mem.fresh]; omega
    · have := shape.home_old owned
      omega
  home_bucket := by
    intro e q j owned
    rw [Function.update_apply] at owned
    split at owned
    · cases owned
      exact ⟨pr, shape.bucket_newPlist found⟩
    · obtain ⟨qr, was⟩ := shape.home_bucket owned
      exact ⟨qr, shape.bucket_newPlist was⟩
  lock_exists := by
    intro q j qr other
    rcases Mem.bucket_of_newPlist other with ⟨_, bound, rfl⟩ | was
    · exact ⟨_, Mem.locks_newPlist_fresh m self n bound⟩
    · obtain ⟨w, stored⟩ := shape.lock_exists was
      exact ⟨w, shape.locks_newPlist stored⟩
  lock_inj := by
    intro q j qr q' j' qr' other other' same
    rcases Mem.bucket_of_newPlist other with ⟨rfl, bound, rfl⟩ | was <;>
      rcases Mem.bucket_of_newPlist other' with ⟨rfl, bound', rfl⟩ | was'
    · simp only [RemotePtr.mk.injEq] at same
      exact ⟨rfl, by omega⟩
    · exact absurd same.symm (shape.lock_ne_newPlist was' j)
    · exact absurd same (shape.lock_ne_newPlist was j')
    · exact shape.lock_inj was was' same
  base_ok := by
    intro q j qr other
    rcases Mem.bucket_of_newPlist other with ⟨_, _, rfl⟩ | was
    · exact .inl rfl
    · exact (shape.base_ok was).imp_right shape.home_update
  opened := by
    intro q j qr other unlocked e owned
    rw [Function.update_apply] at owned
    rw [Mem.elists_newPlist]
    rcases Mem.bucket_of_newPlist other with ⟨rfl, bound, rfl⟩ | was
    · -- the new buckets own nothing: the new block belongs to the bucket that is locked
      split at owned
      · cases owned
        exact absurd rfl (shape.ne_fresh_of_bucket found)
      · exact absurd owned shape.not_home_fresh
    · obtain ⟨w, stored⟩ := shape.lock_exists was
      rw [shape.locks_newPlist stored] at unlocked
      cases unlocked
      split at owned
      · cases owned
        cases was.symm.trans found
        exact absurd stored locked
      · exact shape.opened was stored e owned
  closed := by
    intro q j qr other unlocked
    rcases Mem.bucket_of_newPlist other with ⟨rfl, bound, rfl⟩ | was
    · rw [Mem.locks_newPlist_fresh m self n bound] at unlocked
      cases unlocked
    · obtain ⟨w, stored⟩ := shape.lock_exists was
      rw [shape.locks_newPlist stored] at unlocked
      cases unlocked
      obtain ⟨owned, bs, child, sizeP, sizeC, double⟩ := shape.closed was stored
      exact ⟨shape.home_update owned, bs, child, shape.plists_newPlist sizeP, shape.plists_newPlist sizeC, double⟩

end Shape

end RdmaIht.Iht
