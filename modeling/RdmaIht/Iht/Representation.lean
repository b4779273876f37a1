import RdmaIht.Iht.Progress

/-! The blocks of a table on which no operation runs.

The length of a P-List is recorded nowhere; it follows from the number of descents
that lead to it, and so does the bucket a key belongs in. After every sequence of
calls the tree of blocks has the form below, and a traversal computes the lengths
that the blocks have.
-/

set_option autoImplicit false

namespace RdmaIht.Iht

open Concurrency

variable {K V : Type}

inductive Under (m : Mem K V) (x : RemotePtr × Nat) : RemotePtr × Nat → Prop where
  | here : Under m x x
  | down {p : RemotePtr} {b : Nat} {pr : PlistPair} : Under m x (p, b) → m.bucket p b = some pr →
      m.locks pr.lock = some .pUnlocked → (j : Nat) → Under m x (pr.base, j)

structure Representation (T : Template K V) (root : RemotePtr) (m : Mem K V) : Prop where
  /-- The length of a P-List follows from its depth. -/
  size : ∀ {p d}, Descent root m p d → ∃ bs, m.plists p = some bs ∧ bs.length = T.plistSize * 2 ^ (d - 1)
  /-- A bucket is permanently unlocked exactly when it has a P-List, and no lock is held. -/
  bucket : ∀ {p d b pr}, Descent root m p d → m.bucket p b = some pr →
    (m.locks pr.lock = some .pUnlocked ∧ ∃ child, m.plists pr.base = some child) ∨
      (m.locks pr.lock = some .eUnlocked ∧ m.plists pr.base = none ∧
        (pr.base = .null ∨ ∃ el, m.elists pr.base = some el))
  /-- An E-List has no more pairs than slots, and one pair for each key. -/
  list : ∀ {p d b pr el}, Descent root m p d → m.bucket p b = some pr → pr.base ≠ .null →
    m.elists pr.base = some el → el.count ≤ T.elistSize ∧ el.live.length = el.count ∧ (el.live.map Pair.key).Nodup
  /-- A key is stored where its hash puts it, at every depth down to its E-List. -/
  placed : ∀ {p d b pr el q e j pair}, Descent root m p d → m.bucket p b = some pr → pr.base ≠ .null →
    m.elists pr.base = some el → pair ∈ el.live → Descent root m q e → Under m (q, j) (p, b) →
      T.levelHash pair.key e (T.plistSize * 2 ^ (e - 1)) = j
  /-- A block is in one bucket, and the root in none. -/
  sole : ∀ {p d b pr q e j qr}, Descent root m p d → m.bucket p b = some pr → Descent root m q e →
    m.bucket q j = some qr → pr.base = qr.base → pr.base ≠ .null → p = q ∧ b = j
  root : ∀ {p d b pr}, Descent root m p d → m.bucket p b = some pr → pr.base ≠ root

variable {T : Template K V} {root : RemotePtr} {home : Home} {m m' : Mem K V}

theorem Shape.size (shape : Shape T root home m) {p : RemotePtr} {d : Nat} (descent : Descent root m p d) :
    ∃ bs, m.plists p = some bs ∧ bs.length = T.size d := by
  induction descent with
  | root =>
    obtain ⟨bs, found, length⟩ := shape.root_size
    exact ⟨bs, found, by rw [length]; exact (Nat.mul_one _).symm⟩
  | down before found closed ih =>
    obtain ⟨bs, stored, length⟩ := ih
    obtain ⟨_, bs', child, stored', foundChild, double⟩ := shape.closed found closed
    cases stored.symm.trans stored'
    exact ⟨child, foundChild, by rw [double, length, T.size_succ before.pos, Nat.mul_comm]⟩

theorem Under.leads (shape : Shape T root home m) {x y : RemotePtr × Nat} (under : Under m x y) {key : K} {d : Nat}
    (leads : Leads T root m y.1 d y.2 key) : ∃ e, Leads T root m x.1 e x.2 key := by
  induction under generalizing d with
  | here => exact ⟨d, leads⟩
  | down above found closed j ih =>
    obtain ⟨n, _, before⟩ := leads.1.parent shape (shape.closed found closed).1
    exact ih before

variable [DecidableEq K] {σ : FiniteMap K V}

theorem Between.representation (between : Between T root home σ m) : Representation T root m := by
  have shape := between.shape
  -- between the operations nothing is locked, and a bucket that is permanently unlocked has a P-List
  have open_ : ∀ {p b pr el}, m.bucket p b = some pr → m.elists pr.base = some el →
      m.locks pr.lock = some .eUnlocked := by
    intro p b pr el found stored
    obtain ⟨w, word⟩ := shape.lock_exists found
    cases w with
    | eUnlocked => exact word
    | eLocked => exact absurd ⟨pr, found, word⟩ between.unlocked
    | pUnlocked =>
      obtain ⟨_, _, child, _, isPlist, _⟩ := shape.closed found word
      rw [shape.disjoint isPlist] at stored
      cases stored
  have settled : ∀ {p d b pr el}, Descent root m p d → m.bucket p b = some pr → pr.base ≠ .null →
      m.elists pr.base = some el → Assoc.Represents Pair.key Pair.val el.live σ (Leads T root m p d b) := by
    intro p d b pr el descent found notNull stored
    have agrees := (between.content.opened descent found (open_ found stored)).agrees
    rw [Mem.content_elist notNull stored] at agrees
    exact agrees
  refine ⟨fun descent => shape.size descent, ?_, ?_, ?_, ?_, ?_⟩
  · intro p d b pr descent found
    obtain ⟨w, word⟩ := shape.lock_exists found
    cases w with
    | eLocked => exact absurd ⟨pr, found, word⟩ between.unlocked
    | pUnlocked =>
      obtain ⟨_, _, child, _, isPlist, _⟩ := shape.closed found word
      exact .inl ⟨word, child, isPlist⟩
    | eUnlocked =>
      right
      refine ⟨word, ?_⟩
      rcases shape.base_ok found with null | owned
      · rw [null]
        exact ⟨shape.plist_null, .inl rfl⟩
      · obtain ⟨el, stored, _⟩ := shape.opened found word _ owned
        refine ⟨?_, .inr ⟨el, stored⟩⟩
        cases isPlist : m.plists pr.base with
        | none => rfl
        | some bs =>
          rw [shape.disjoint isPlist] at stored
          cases stored
  · intro p d b pr el descent found notNull stored
    obtain ⟨el', stored', fits⟩ :=
      shape.opened found (open_ found stored) _ ((shape.base_ok found).resolve_left notNull)
    cases stored.symm.trans stored'
    refine ⟨Nat.le_trans fits.1 fits.2, ?_, (settled descent found notNull stored).distinct⟩
    rw [EList.live, List.length_take, Nat.min_eq_left fits.1]
  · -- the descents of the keys of one E-List end at its bucket
    intro p d b pr el q e j pair descent found notNull stored member above under
    obtain ⟨n, leads⟩ := under.leads shape ((settled descent found notNull stored).inside pair member)
    obtain rfl := leads.1.descent.functional shape above
    exact leads.2
  · intro p d b pr q e j qr _ found _ found' same notNull
    have owned := (shape.base_ok found).resolve_left notNull
    have owned' := (shape.base_ok found').resolve_left (same ▸ notNull)
    rw [same, owned'] at owned
    cases owned
    exact ⟨rfl, rfl⟩
  · intro p d b pr _ found same
    obtain ⟨bs, isPlist, _⟩ := shape.root_size
    rcases shape.base_ok found with null | owned
    · rw [← same, null, shape.plist_null] at isPlist
      cases isPlist
    · rw [same, shape.home_root] at owned
      cases owned

/-- A traversal stands at a P-List of the length it counts with, which is the length of
its copy and `1 << (depth - 1)` times the length of the root. -/
structure Sized (T : Template K V) (m : Mem K V) (t : Traversal) : Prop where
  plist : ∃ bs, m.plists t.beforeLocalizedCurr = some bs ∧ bs.length = t.count
  count : t.count = T.plistSize * 2 ^ (t.depth - 1)
  copied : ∀ block copy, t.curr = .copied block copy → copy.length = t.count

/-- After every sequence of calls the blocks form a table, and whatever is called
next reads and frees blocks of the lengths they have. -/
theorem operations_representation (T : Template K V) (plist : 2 ≤ T.plistSize) (elist : 1 ≤ T.elistSize) (host fuel : Nat)
    (calls : List (Nat × IhtOp K V)) (m : Mem K V) (results : List (HtRes V))
    (ran : operations T (initAsFirst T host).1 fuel (initAsFirst T host).2 calls = .ok (m, results)) :
    Representation T (initAsFirst T host : RemotePtr × Mem K V).1 m ∧ ∀ pool op m' pc t,
      Reachable (advance T (initAsFirst T host).1 pool op) (m, .readRoot) (m', pc) → pc.traversal = some t →
        Sized T m' t := by
  have room := Room.int plist (initAsFirst T host : RemotePtr × Mem K V).1
  have longer := operations_mono (Nat.le_max_left fuel (31 * T.lap + 2)) ran
  rcases (Between.start T host).operations plist elist (by decide) room (.start T host 31)
      (show 31 * T.lap + 1 < max fuel (31 * T.lap + 2) by omega) calls with
    ⟨overflow, _⟩ | ⟨home, σ, m₁, done, between, within⟩
  · cases longer.symm.trans overflow
  · cases longer.symm.trans done
    refine ⟨between.representation, ?_⟩
    intro pool op m' pc t reached at_
    obtain ⟨home', τ, alone, _⟩ := (between.solo pool op).visits plist elist room trivial within reached
    have located := alone.inv.located at_
    exact ⟨located.plist, located.count_eq, fun block copy same => (located.copied block copy same).1⟩

theorem operations_representation_sharedBucket : ∃ m results,
    operations (intTemplate 1 2) (initAsFirst (intTemplate 1 2) 0).1 994 (initAsFirst (intTemplate 1 2) 0).2
      sharedBucket = .ok (m, results) ∧
    Representation (intTemplate 1 2)
      (initAsFirst (intTemplate 1 2) 0 : RemotePtr × Mem (BitVec 32) (BitVec 32)).1 m := by
  have returns : (operations (intTemplate 1 2) (initAsFirst (intTemplate 1 2) 0).1 994
    (initAsFirst (intTemplate 1 2) 0).2 sharedBucket).isOk = true := by decide +kernel
  cases ran : operations (intTemplate 1 2) (initAsFirst (intTemplate 1 2) 0).1 994
      (initAsFirst (intTemplate 1 2) 0).2 sharedBucket with
  | error fault =>
    rw [ran] at returns
    cases returns
  | ok done =>
    exact ⟨done.1, done.2, rfl, (operations_representation (intTemplate 1 2) (by decide) (by decide) 0 994
      sharedBucket done.1 done.2 ran).1⟩

end RdmaIht.Iht
