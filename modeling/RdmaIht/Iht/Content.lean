import RdmaIht.Assoc
import RdmaIht.FiniteMap
import RdmaIht.Iht.StepSafety

/-! The finite map that a tree of P-Lists and E-Lists stands for.

The descent of a key goes from the root through permanently unlocked buckets. A
bucket that is open holds one E-List or none, and its pairs are the bindings of
the keys whose descent ends there.
-/

set_option autoImplicit false

namespace RdmaIht.Iht

variable {K V : Type}

/-- `p` is reached from the root by `d - 1` descents. -/
inductive Descent (root : RemotePtr) (m : Mem K V) : RemotePtr → Nat → Prop where
  | root : Descent root m root 1
  | down {p : RemotePtr} {d b : Nat} {pr : PlistPair} : Descent root m p d → m.bucket p b = some pr →
      m.locks pr.lock = some .pUnlocked → Descent root m pr.base (d + 1)

/-- The descent of `key` passes through `p`. -/
inductive Walk (T : Template K V) (root : RemotePtr) (m : Mem K V) (key : K) : RemotePtr → Nat → Prop where
  | root : Walk T root m key root 1
  | down {p : RemotePtr} {d : Nat} {pr : PlistPair} : Walk T root m key p d →
      m.bucket p (T.index key d) = some pr → m.locks pr.lock = some .pUnlocked →
      Walk T root m key pr.base (d + 1)

/-- The descent of `key` passes through bucket `b` of `p`. -/
def Leads (T : Template K V) (root : RemotePtr) (m : Mem K V) (p : RemotePtr) (d b : Nat) (key : K) : Prop :=
  Walk T root m key p d ∧ T.index key d = b

def Mem.content (m : Mem K V) (base : RemotePtr) : List (Pair K V) :=
  if base = .null then [] else ((m.elists base).map EList.live).getD []

@[simp] theorem Mem.content_null (m : Mem K V) : m.content .null = [] := rfl

theorem Mem.content_elist {m : Mem K V} {e : RemotePtr} {el : EList K V} (notNull : e ≠ .null)
    (stored : m.elists e = some el) : m.content e = el.live := by
  simp [content, notNull, stored]

/-- The map operations with their results as the template converts them. -/
def Template.spec [DecidableEq K] (T : Template K V) :
    Concurrency.SeqSpec (FiniteMap K V) (IhtOp K V) (HtRes V) where
  init := .empty
  apply m op := ((m.apply T.zero op).1, match m op.key with
    | some value => ⟨(m.apply T.zero op).2.status, T.toValue (T.toKey value)⟩
    | none => (m.apply T.zero op).2)

theorem Template.spec_eq [DecidableEq K] (T : Template K V) (faithful : ∀ v, T.toValue (T.toKey v) = v) :
    T.spec = mapSpec K T.zero := by
  simp only [spec, mapSpec, Concurrency.SeqSpec.mk.injEq, true_and]
  funext m op
  cases op with
  | contains k => cases found : m k <;> simp [FiniteMap.apply, IhtOp.key, found, faithful]
  | insert k v => cases found : m k <;> simp [FiniteMap.apply, IhtOp.key, found, faithful]
  | remove k => cases found : m k <;> simp [FiniteMap.apply, IhtOp.key, found, faithful]

section Walks

variable {T : Template K V} {root : RemotePtr} {home home' : Home} {m m' : Mem K V}
  {touch : RemotePtr → Nat → Prop}

theorem Walk.descent {key : K} {p : RemotePtr} {d : Nat} (walk : Walk T root m key p d) :
    Descent root m p d := by
  induction walk with
  | root => exact .root
  | down _ found closed ih => exact .down ih found closed

theorem Descent.pos {p : RemotePtr} {d : Nat} (descent : Descent root m p d) : 1 ≤ d := by
  cases descent <;> omega

theorem Descent.published (shape : Shape T root home m) {p : RemotePtr} {d : Nat}
    (descent : Descent root m p d) : Published root home m p := by
  cases descent with
  | root => exact .inl rfl
  | down _ found closed => exact .inr ⟨_, _, (shape.closed found closed).1, _, found, closed⟩

theorem Descent.functional (shape : Shape T root home m) {p : RemotePtr} {d d' : Nat}
    (first : Descent root m p d) (second : Descent root m p d') : d = d' := by
  induction first generalizing d' with
  | root =>
    generalize start : root = q at second
    cases second with
    | root => rfl
    | down _ found closed =>
      have owned := (shape.closed found closed).1
      rw [← start, shape.home_root] at owned
      cases owned
  | @down p d b pr _ found closed ih =>
    have owned := (shape.closed found closed).1
    generalize target : pr.base = q at second
    cases second with
    | root =>
      rw [target, shape.home_root] at owned
      cases owned
    | down before found' closed' =>
      have owned' := (shape.closed found' closed').1
      rw [← target] at owned'
      cases owned.symm.trans owned'
      rw [ih before]

theorem Walk.parent (shape : Shape T root home m) {key : K} {p q : RemotePtr} {d b : Nat}
    (walk : Walk T root m key q d) (owned : home q = some (p, b)) :
    ∃ n, d = n + 1 ∧ Leads T root m p n b key := by
  cases walk with
  | root =>
    rw [shape.home_root] at owned
    cases owned
  | down before found closed =>
    cases (shape.closed found closed).1.symm.trans owned
    exact ⟨_, rfl, before, rfl⟩

/-- At each depth a key passes through one P-List. -/
theorem Walk.functional {key : K} {p q : RemotePtr} {d : Nat} (first : Walk T root m key p d)
    (second : Walk T root m key q d) : p = q := by
  induction first generalizing q with
  | root =>
    cases second with
    | root => rfl
    | down before _ _ =>
      have := before.descent.pos
      omega
  | down before found _ ih =>
    cases second with
    | root =>
      have := before.descent.pos
      omega
    | down before' found' _ =>
      cases ih before'
      cases found.symm.trans found'
      rfl

/-- The descent of a key ends at the first bucket that is not permanently unlocked. -/
theorem Walk.le_of_stop {key : K} {p q : RemotePtr} {d n : Nat} (stop : Walk T root m key p d)
    (notClosed : ¬ m.Word p (T.index key d) .pUnlocked) (walk : Walk T root m key q n) : n ≤ d := by
  induction walk with
  | root => exact stop.descent.pos
  | @down q n pr before found closed ih =>
    rcases Nat.lt_or_eq_of_le ih with less | same
    · exact less
    · subst same
      cases stop.functional before
      exact absurd ⟨_, found, closed⟩ notClosed

theorem Leads.unique {key : K} {p q : RemotePtr} {d n b c : Nat} (first : Leads T root m p d b key)
    (second : Leads T root m q n c key) (stop : ¬ m.Word p b .pUnlocked) (stop' : ¬ m.Word q c .pUnlocked) :
    p = q ∧ d = n ∧ b = c := by
  obtain ⟨walk, rfl⟩ := first
  obtain ⟨walk', rfl⟩ := second
  obtain rfl := Nat.le_antisymm (walk'.le_of_stop stop' walk) (walk.le_of_stop stop walk')
  exact ⟨walk.functional walk', rfl, rfl⟩

section Stable

variable (change : Change touch home home' m m') (open_ : ∀ p b, m.Word p b .pUnlocked → ¬ touch p b)

include change

theorem Change.bucket_eq {p : RemotePtr} {b : Nat} (away : ¬ touch p b) {pr : PlistPair}
    (found : m.bucket p b = some pr) : m'.bucket p b = some pr ∧ m'.locks pr.lock = m.locks pr.lock := by
  obtain ⟨pr', now, _, keep⟩ := change.bucket found
  exact ⟨keep away ▸ now, change.lock found away⟩

theorem Change.bucket_back {p : RemotePtr} {b : Nat} {bs : List PlistPair} {pr' : PlistPair}
    (old : m.plists p = some bs) (found : m'.bucket p b = some pr') : ∃ pr, m.bucket p b = some pr := by
  obtain ⟨bs', now, length⟩ := change.plists old
  obtain ⟨bs'', now', at_⟩ := Mem.bucket_eq_some.mp found
  cases now.symm.trans now'
  have bound := (List.getElem?_eq_some_iff.mp at_).1
  exact ⟨bs[b], Mem.bucket_eq_some.mpr ⟨bs, old, List.getElem?_eq_getElem (length ▸ bound)⟩⟩

include open_

theorem Walk.stable {key : K} {p : RemotePtr} {d : Nat} (walk : Walk T root m key p d) :
    Walk T root m' key p d := by
  induction walk with
  | root => exact .root
  | down _ found closed ih =>
    obtain ⟨now, word⟩ := change.bucket_eq (open_ _ _ ⟨_, found, closed⟩) found
    exact .down ih now (word.trans closed)

variable (shape' : Shape T root home' m')

include shape'

/-- At a P-List that was reached before, no other keys arrive than before. -/
theorem Walk.back {key : K} {p : RemotePtr} {d : Nat} (old : Descent root m p d)
    (walk : Walk T root m' key p d) : Walk T root m key p d := by
  induction old with
  | root =>
    generalize start : root = q at walk
    cases walk with
    | root => rw [← start]; exact .root
    | down before found closed =>
      have := before.descent.pos
      omega
  | @down q d b pr before found closed ih =>
    obtain ⟨now, word⟩ := change.bucket_eq (open_ _ _ ⟨_, found, closed⟩) found
    have owned := (shape'.closed now (word.trans closed)).1
    generalize target : pr.base = r at walk
    cases walk with
    | root =>
      have := before.pos
      omega
    | down walked found' closed' =>
      have owned' := (shape'.closed found' closed').1
      rw [← target, owned] at owned'
      cases owned'
      cases now.symm.trans found'
      rw [← target]
      exact .down (ih walked) found closed

theorem Leads.stable_iff {key : K} {p : RemotePtr} {d b : Nat} (old : Descent root m p d) :
    Leads T root m' p d b key ↔ Leads T root m p d b key :=
  and_congr_left' ⟨fun walk => walk.back change open_ shape' old, fun walk => walk.stable change open_⟩

end Stable

end Walks

end RdmaIht.Iht
