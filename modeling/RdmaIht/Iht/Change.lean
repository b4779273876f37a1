import RdmaIht.Iht.Shape

/-! What a step may change, given the buckets it touches.

`Change touch` relates the blocks before and after a step that alters the base,
the lock and the E-Lists of touched buckets only. Whatever a thread asserts of
buckets that others do not touch survives their steps.
-/

set_option autoImplicit false

namespace RdmaIht.Iht

variable {K V : Type}

structure Change (touch : RemotePtr → Nat → Prop) (home home' : Home) (m m' : Mem K V) : Prop where
  plists : ∀ {p bs}, m.plists p = some bs → ∃ bs', m'.plists p = some bs' ∧ bs'.length = bs.length
  plistsBack : ∀ {q p b bs'}, home' q = some (p, b) → ¬ touch p b → m'.plists q = some bs' →
    ∃ bs, m.plists q = some bs
  bucket : ∀ {p b pr}, m.bucket p b = some pr →
    ∃ pr', m'.bucket p b = some pr' ∧ pr'.lock = pr.lock ∧ (¬ touch p b → pr' = pr)
  lock : ∀ {p b pr}, m.bucket p b = some pr → ¬ touch p b → m'.locks pr.lock = m.locks pr.lock
  homes : ∀ {e x}, home e = some x → home' e = some x
  homesBack : ∀ {e p b}, home' e = some (p, b) → ¬ touch p b → home e = some (p, b)
  elists : ∀ {e p b}, home e = some (p, b) → ¬ touch p b → m'.elists e = m.elists e

variable {T : Template K V} {root : RemotePtr} {touch : RemotePtr → Nat → Prop} {home home' home'' : Home}
  {m m' m'' : Mem K V}

namespace Change

theorem refl (touch : RemotePtr → Nat → Prop) (home : Home) (m : Mem K V) : Change touch home home m m where
  plists found := ⟨_, found, rfl⟩
  plistsBack _ _ found := ⟨_, found⟩
  bucket found := ⟨_, found, rfl, fun _ => rfl⟩
  lock _ _ := rfl
  homes owned := owned
  homesBack owned _ := owned
  elists _ _ := rfl

theorem bump (touch : RemotePtr → Nat → Prop) (home : Home) (m : Mem K V) :
    Change touch home home m m.bump := { refl touch home m with }

theorem trans (first : Change touch home home' m m') (rest : Change touch home' home'' m' m'') :
    Change touch home home'' m m'' where
  plists found := by
    obtain ⟨bs', now, same⟩ := first.plists found
    obtain ⟨bs'', later, same'⟩ := rest.plists now
    exact ⟨bs'', later, same'.trans same⟩
  plistsBack owned away found := by
    obtain ⟨bs', was⟩ := rest.plistsBack owned away found
    exact first.plistsBack (rest.homesBack owned away) away was
  bucket found := by
    obtain ⟨pr', now, same, keep⟩ := first.bucket found
    obtain ⟨pr'', later, same', keep'⟩ := rest.bucket now
    exact ⟨pr'', later, same'.trans same, fun away => (keep' away).trans (keep away)⟩
  lock found away := by
    obtain ⟨pr', now, same, keep⟩ := first.bucket found
    rw [← same, rest.lock now away, same, first.lock found away]
  homes owned := rest.homes (first.homes owned)
  homesBack owned away := first.homesBack (rest.homesBack owned away) away
  elists owned away := by rw [rest.elists (first.homes owned) away, first.elists owned away]

theorem setLock (shape : Shape T root home m) {p : RemotePtr} {b : Nat} {pr : PlistPair}
    (found : m.bucket p b = some pr) (touched : touch p b) (w : LockType) :
    Change touch home home m (m.setLock pr.lock w) :=
  { refl touch home m with
    lock := by
      intro q j qr other away
      rw [Mem.locks_setLock, if_neg]
      intro same
      obtain ⟨rfl, rfl⟩ := shape.lock_inj other found same
      exact away touched }

theorem setElist {e p : RemotePtr} {b : Nat} (owned : home e = some (p, b)) (touched : touch p b)
    (el : EList K V) : Change touch home home m (m.setElist e el) :=
  { refl touch home m with
    elists := by
      intro e' q j owned' away
      rw [Mem.elists_setElist, if_neg]
      rintro rfl
      cases owned.symm.trans owned'
      exact away touched }

theorem freeElist {e p : RemotePtr} {b : Nat} (owned : home e = some (p, b)) (touched : touch p b) :
    Change touch home home m (m.freeElist e) :=
  { refl touch home m with
    elists := by
      intro e' q j owned' away
      rw [Mem.elists_freeElist, if_neg]
      rintro rfl
      cases owned.symm.trans owned'
      exact away touched }

theorem setBase {p : RemotePtr} {b : Nat} (touched : touch p b) (base : RemotePtr) :
    Change touch home home m (m.setBase p b base) :=
  { refl touch home m with
    plists := Mem.plists_setBase_of_some
    plistsBack := fun _ _ found => Mem.plists_of_setBase found
    bucket := by
      intro q j pr found
      rw [Mem.bucket_setBase]
      split
      · next here =>
        refine ⟨{ pr with base := base }, by rw [found]; rfl, rfl, fun away => ?_⟩
        exact absurd (here.1 ▸ here.2 ▸ touched) away
      · exact ⟨pr, found, rfl, fun _ => rfl⟩ }

theorem newElist (shape : Shape T root home m) (self : Nat) (el : EList K V) {p : RemotePtr} {b : Nat}
    (touched : touch p b) :
    Change touch home (Function.update home (m.fresh self) (some (p, b))) m (m.newElist self el) :=
  { bump touch home m with
    plistsBack := fun _ _ found => ⟨_, found⟩
    homes := shape.home_update
    homesBack := by
      intro e q j owned away
      rw [Function.update_apply] at owned
      split at owned
      · cases owned; exact absurd touched away
      · exact owned
    elists := by
      intro e q j owned away
      rw [Mem.elists_newElist, if_neg (shape.ne_fresh_of_home owned)] }

theorem newPlist (shape : Shape T root home m) (self n : Nat) {p : RemotePtr} {b : Nat} (touched : touch p b) :
    Change touch home (Function.update home (m.fresh self) (some (p, b))) m (m.newPlist self n) where
  plists found := ⟨_, shape.plists_newPlist found, rfl⟩
  plistsBack := by
    intro q r j bs owned away found
    rw [Function.update_apply] at owned
    split at owned
    · cases owned; exact absurd touched away
    · next old => rw [Mem.plists_newPlist, if_neg old] at found; exact ⟨bs, found⟩
  bucket found := ⟨_, shape.bucket_newPlist found, rfl, fun _ => rfl⟩
  lock := by
    intro q j pr found _
    obtain ⟨w, stored⟩ := shape.lock_exists found
    rw [shape.locks_newPlist stored, stored]
  homes := shape.home_update
  homesBack := by
    intro e q j owned away
    rw [Function.update_apply] at owned
    split at owned
    · cases owned; exact absurd touched away
    · exact owned
  elists := by
    intro e q j _ _
    rw [Mem.elists_newPlist]

end Change

end RdmaIht.Iht
