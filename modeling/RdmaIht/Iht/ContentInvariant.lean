import RdmaIht.Iht.Content

/-! What a thread may assert of the finite map at each point of an operation.

While a thread holds a bucket, the bucket's bindings are those it found there
until it unlocks the bucket again, and its stores are described by the bindings
they will amount to. A copy of a P-List may be old: where it shows no base, the
map had no binding for the key at some time since the operation began.
-/

set_option autoImplicit false

namespace RdmaIht.Iht

variable {K V : Type} [DecidableEq K]

/-- Bucket `b` of `p` has this base, which apart from `extra` is all that was
ever allocated for it, and these pairs are its bindings. -/
structure Settled (T : Template K V) (root : RemotePtr) (home : Home) (m : Mem K V) (σ : FiniteMap K V)
    (p : RemotePtr) (d b : Nat) (base : RemotePtr) (extra : Option RemotePtr) (pairs : List (Pair K V)) :
    Prop where
  found : ∃ pr, m.bucket p b = some pr ∧ pr.base = base
  sole : ∀ e, home e = some (p, b) → e = base ∨ some e = extra
  agrees : Assoc.Represents Pair.key Pair.val pairs σ (Leads T root m p d b)

abbrev SettledAt (T : Template K V) (root : RemotePtr) (home : Home) (m : Mem K V) (σ : FiniteMap K V)
    (t : Traversal) (b : Nat) (base : RemotePtr) (extra : Option RemotePtr) (pairs : List (Pair K V)) : Prop :=
  Settled T root home m σ t.beforeLocalizedCurr t.depth b base extra pairs

/-- The map `σ` is what the open buckets hold. -/
structure Content (T : Template K V) (root : RemotePtr) (home : Home) (m : Mem K V) (σ : FiniteMap K V) :
    Prop where
  opened : ∀ {p d b pr}, Descent root m p d → m.bucket p b = some pr → m.locks pr.lock = some .eUnlocked →
    Settled T root home m σ p d b pr.base none (m.content pr.base)
  empty : ∀ {p d b pr}, Descent root m p d → m.bucket p b = some pr → pr.base = .null →
    ∀ key, Leads T root m p d b key → σ key = none

/-- The buckets of the P-List being built hold these pairs, each in its own bucket. -/
def Rehashed (T : Template K V) (home : Home) (m : Mem K V) (newP : RemotePtr) (depth : Nat)
    (pairs : List (Pair K V)) : Prop :=
  ∀ j pr, m.bucket newP j = some pr →
    m.content pr.base = pairs.filter (fun pair => decide (T.index pair.key depth = j)) ∧
      ∀ e, home e = some (newP, j) → e = pr.base

/-- A copied P-List shows no base for the key only if the key was absent when it was copied. -/
def NullSeen (T : Template K V) (seen : FiniteMap K V → Prop) (op : IhtOp K V) (t : Traversal) : Prop :=
  ∀ block buckets pr, t.curr = .copied block buckets → buckets[T.index op.key t.depth]? = some pr →
    pr.base = .null → ∃ s, seen s ∧ s op.key = none

def PcContent (T : Template K V) (root : RemotePtr) (home : Home) (m : Mem K V) (σ : FiniteMap K V)
    (seen : FiniteMap K V → Prop) (op : IhtOp K V) : Pc K V → Prop
  | .readRoot | .leave _ _ _ => True
  | .acquire t | .afterRehash t _ _ =>
      Walk T root m op.key t.beforeLocalizedCurr t.depth ∧ NullSeen T seen op t
  | .refetch t b => Leads T root m t.beforeLocalizedCurr t.depth b op.key
  | .descend t bb => Walk T root m op.key bb (t.depth + 1)
  | .loadBase t b => Leads T root m t.beforeLocalizedCurr t.depth b op.key ∧ NullSeen T seen op t ∧
      ∃ base, SettledAt T root home m σ t b base none (m.content base) ∧
        ∀ k v, op = .insert k v → ∀ pr, t.curr.bucket m b = some pr → pr.base = .null → base = .null
  | .readElist t b bb => Leads T root m t.beforeLocalizedCurr t.depth b op.key ∧
      SettledAt T root home m σ t b bb none (m.content bb)
  | .search t b bb e i => Leads T root m t.beforeLocalizedCurr t.depth b op.key ∧
      ∃ el, m.elists bb = some el ∧ e.get m = some el ∧ SettledAt T root home m σ t b bb none el.live ∧
        ∀ pair ∈ el.live.take i, pair.key ≠ op.key
  | .newElist t b pair => Leads T root m t.beforeLocalizedCurr t.depth b op.key ∧
      SettledAt T root home m σ t b .null none [] ∧ op = .insert pair.key pair.val
  | .publishElist t b eBase => Leads T root m t.beforeLocalizedCurr t.depth b op.key ∧
      SettledAt T root home m σ t b .null (some eBase) [] ∧
      ∃ pair, m.content eBase = [pair] ∧ op = .insert pair.key pair.val
  | .storePair t b bb e pair => Leads T root m t.beforeLocalizedCurr t.depth b op.key ∧
      ∃ el, e.get m = some el ∧ SettledAt T root home m σ t b bb none el.live ∧
        (∀ other ∈ el.live, other.key ≠ op.key) ∧ op = .insert pair.key pair.val
  | .storeCount t b bb e => Leads T root m t.beforeLocalizedCurr t.depth b op.key ∧
      ∃ el, e.get m = some el ∧
        SettledAt T root home m (T.spec.apply σ op).1 t b bb none (el.withCount (el.count + 1)).live ∧
        (T.spec.apply σ op).2 = ⟨.trueState, T.zero⟩
  | .swapLast t b bb e i result => Leads T root m t.beforeLocalizedCurr t.depth b op.key ∧
      ∃ el pair, e.get m = some el ∧ SettledAt T root home m σ t b bb none el.live ∧
        op = .remove pair.key ∧ el.live[i]? = some pair ∧ result = T.toKey pair.val
  | .dropCount t b bb e result => Leads T root m t.beforeLocalizedCurr t.depth b op.key ∧
      ∃ el, e.get m = some el ∧
        SettledAt T root home m (T.spec.apply σ op).1 t b bb none (el.withCount (el.count - 1)).live ∧
        (T.spec.apply σ op).2 = ⟨.trueState, T.toValue result⟩
  | .writeBack t b bb e res => Leads T root m t.beforeLocalizedCurr t.depth b op.key ∧
      ∃ el, e.get m = some el ∧ SettledAt T root home m (T.spec.apply σ op).1 t b bb none el.live ∧
        (T.spec.apply σ op).2 = res
  | .newPlist t b bb e => Leads T root m t.beforeLocalizedCurr t.depth b op.key ∧
      ∃ el, m.elists bb = some el ∧ e.get m = some el ∧ SettledAt T root home m σ t b bb none el.live
  | .rehashSource t b bb _ newP => Leads T root m t.beforeLocalizedCurr t.depth b op.key ∧
      ∃ el, m.elists bb = some el ∧ SettledAt T root home m σ t b bb (some newP) el.live ∧
        Rehashed T home m newP (t.depth + 1) []
  | .rehashMove t b bb _ newP source i => Leads T root m t.beforeLocalizedCurr t.depth b op.key ∧
      ∃ el, source.get m = some el ∧ SettledAt T root home m σ t b bb (some newP) el.live ∧
        Rehashed T home m newP (t.depth + 1) (el.live.take i)
  | .rehashFree t b bb _ newP _ | .publishPlist t b bb _ newP =>
      Leads T root m t.beforeLocalizedCurr t.depth b op.key ∧
      ∃ pairs, SettledAt T root home m σ t b bb (some newP) pairs ∧
        Rehashed T home m newP (t.depth + 1) pairs
  | .updateCurr t b bb _ newP => Leads T root m t.beforeLocalizedCurr t.depth b op.key ∧
      ∃ pairs, SettledAt T root home m σ t b newP (some bb) pairs ∧
        Rehashed T home m newP (t.depth + 1) pairs
  | .unlockPlist t b bb _ newP => Leads T root m t.beforeLocalizedCurr t.depth b op.key ∧ NullSeen T seen op t ∧
      ∃ pairs, SettledAt T root home m σ t b newP (some bb) pairs ∧
        Rehashed T home m newP (t.depth + 1) pairs
  | .unlock t b _ res => Leads T root m t.beforeLocalizedCurr t.depth b op.key ∧
      ∃ base, (SettledAt T root home m (T.spec.apply σ op).1 t b base none (m.content base) ∧
          (T.spec.apply σ op).2 = res) ∨
        (SettledAt T root home m σ t b base none (m.content base) ∧
          ∃ s, seen s ∧ T.spec.apply s op = (s, res))

variable {T : Template K V} {root : RemotePtr} {home home' : Home} {m m' : Mem K V} {σ σ' : FiniteMap K V}
  {seen seen' : FiniteMap K V → Prop} {op : IhtOp K V} {touch : RemotePtr → Nat → Prop} {pool : Nat}

theorem Template.spec_congr (T : Template K V) {dom : K → Prop} (same : ∀ k, dom k → σ' k = σ k)
    (here : dom op.key) : (T.spec.apply σ' op).2 = (T.spec.apply σ op).2 ∧
      ∀ k, dom k → (T.spec.apply σ' op).1 k = (T.spec.apply σ op).1 k := by
  obtain ⟨result, binding⟩ := FiniteMap.apply_congr T.zero (same _ here)
  refine ⟨?_, fun k inside => ?_⟩
  · simp only [Template.spec, same _ here, result]
  · by_cases isKey : k = op.key
    · subst isKey
      exact binding
    · simp only [Template.spec, FiniteMap.apply_of_ne T.zero _ op isKey, same k inside]

omit [DecidableEq K] in
theorem NullSeen.mono {t : Traversal} (null : NullSeen T seen op t) (more : ∀ s, seen s → seen' s) :
    NullSeen T seen' op t := by
  intro block buckets pr curr at_ empty
  obtain ⟨s, before, absent⟩ := null block buckets pr curr at_ empty
  exact ⟨s, more s before, absent⟩

section Stable

variable (change : Change touch home home' m m') (open_ : ∀ p b, m.Word p b .pUnlocked → ¬ touch p b)
  (shape' : Shape T root home' m')

include change open_ shape'

theorem Settled.stable {p : RemotePtr} {d b : Nat} {base : RemotePtr} {extra : Option RemotePtr}
    {pairs : List (Pair K V)} (settled : Settled T root home m σ p d b base extra pairs)
    (old : Descent root m p d) (away : ¬ touch p b) (same : ∀ k, Leads T root m p d b k → σ' k = σ k) :
    Settled T root home' m' σ' p d b base extra pairs where
  found := by
    obtain ⟨pr, found, eq⟩ := settled.found
    exact ⟨pr, (change.bucket_eq away found).1, eq⟩
  sole e owned := settled.sole e (change.homesBack owned away)
  agrees := settled.agrees.congr (fun k => Leads.stable_iff change open_ shape' old) same

omit open_ shape' [DecidableEq K] in
theorem Mem.content_stable (shape : Shape T root home m) {p : RemotePtr} {b : Nat} {pr : PlistPair}
    (found : m.bucket p b = some pr) (away : ¬ touch p b) : m'.content pr.base = m.content pr.base := by
  rcases shape.base_ok found with null | owned
  · simp [null]
  · simp only [Mem.content, change.elists owned away]

omit open_ shape' in
theorem Settled.content_stable (shape : Shape T root home m) {p : RemotePtr} {d b : Nat} {base : RemotePtr}
    {extra : Option RemotePtr} {pairs : List (Pair K V)}
    (settled : Settled T root home m σ p d b base extra pairs) (away : ¬ touch p b) :
    m'.content base = m.content base := by
  obtain ⟨pr, found, rfl⟩ := settled.found
  exact Mem.content_stable change shape found away

omit [DecidableEq K] open_ shape' in
theorem Rehashed.stable (shape : Shape T root home m) {newP : RemotePtr} {depth : Nat}
    {pairs : List (Pair K V)} (rehashed : Rehashed T home m newP depth pairs) {bs : List PlistPair}
    (stored : m.plists newP = some bs) (apart : ∀ j, ¬ touch newP j) :
    Rehashed T home' m' newP depth pairs := by
  intro j pr' found'
  obtain ⟨pr, found⟩ := change.bucket_back stored found'
  obtain ⟨now, _⟩ := change.bucket_eq (apart j) found
  cases now.symm.trans found'
  obtain ⟨content, sole⟩ := rehashed j _ found
  refine ⟨?_, fun e owned => sole e (change.homesBack owned (apart j))⟩
  rw [Mem.content_stable change shape found (apart j), content]

omit [DecidableEq K] shape' in
theorem Leads.stable {p : RemotePtr} {d b : Nat} {key : K} (leads : Leads T root m p d b key) :
    Leads T root m' p d b key :=
  ⟨leads.1.stable change open_, leads.2⟩

/-- What a thread asserts of the map survives the steps of others, also those
that change bindings outside the bucket it holds. -/
theorem PcContent.stable {pc : Pc K V} (shape : Shape T root home m) (inv : PcInv T root home m pool pc)
    (content : PcContent T root home m σ seen op pc)
    (away : ∀ p b, pc.held = some (p, b) → ¬ touch p b)
    (apart : ∀ newP, pc.built = some newP → ∀ j, ¬ touch newP j)
    (same : ∀ p b, pc.held = some (p, b) → ∀ d k, Leads T root m p d b k → σ' k = σ k)
    (more : ∀ s, seen s → seen' s) : PcContent T root home' m' σ' seen' op pc := by
  -- nobody else touches the bucket that is held, so it stays settled
  have settle : ∀ {t : Traversal} {b base extra pairs}, Leads T root m t.beforeLocalizedCurr t.depth b op.key →
      pc.held = some (t.beforeLocalizedCurr, b) → SettledAt T root home m σ t b base extra pairs →
      SettledAt T root home' m' σ' t b base extra pairs := fun leads holds settled =>
    settled.stable change open_ shape' leads.1.descent (away _ _ holds) (same _ _ holds _)
  -- after the store the bucket shows what the operation makes of the map
  have settle' : ∀ {t : Traversal} {b base extra pairs}, Leads T root m t.beforeLocalizedCurr t.depth b op.key →
      pc.held = some (t.beforeLocalizedCurr, b) →
      SettledAt T root home m (T.spec.apply σ op).1 t b base extra pairs →
      SettledAt T root home' m' (T.spec.apply σ' op).1 t b base extra pairs := fun leads holds settled =>
    settled.stable change open_ shape' leads.1.descent (away _ _ holds)
      (T.spec_congr (same _ _ holds _) leads).2
  have result : ∀ {t : Traversal} {b}, Leads T root m t.beforeLocalizedCurr t.depth b op.key →
      pc.held = some (t.beforeLocalizedCurr, b) → (T.spec.apply σ' op).2 = (T.spec.apply σ op).2 :=
    fun leads holds => (T.spec_congr (same _ _ holds _) leads).1
  have get : ∀ {t : Traversal} {b bb} {e : ElistRef K V}, RefOk T pool bb e →
      home bb = some (t.beforeLocalizedCurr, b) → pc.held = some (t.beforeLocalizedCurr, b) →
      e.get m' = e.get m := fun ref owned holds => ElistRef.get_stable change ref owned (away _ _ holds)
  have list : ∀ {t : Traversal} {b bb}, home bb = some (t.beforeLocalizedCurr, b) →
      pc.held = some (t.beforeLocalizedCurr, b) → m'.elists bb = m.elists bb :=
    fun owned holds => change.elists owned (away _ _ holds)
  -- the P-List that is being built is not published yet
  have rehash : ∀ {t : Traversal} {b newP depth pairs}, Building home m t b newP → pc.built = some newP →
      Rehashed T home m newP depth pairs → Rehashed T home' m' newP depth pairs := by
    intro t b newP depth pairs building builds rehashed
    obtain ⟨bs, stored, _⟩ := building.built_plist
    exact rehashed.stable change shape stored (apart _ builds)
  cases pc with
  | readRoot | leave => trivial
  | acquire | afterRehash => exact ⟨content.1.stable change open_, content.2.mono more⟩
  | refetch => exact Leads.stable change open_ content
  | descend => exact Walk.stable change open_ content
  | loadBase t b =>
    obtain ⟨leads, null, base, settled, fresh⟩ := content
    have held : Held T root home m t b none := inv
    refine ⟨leads.stable change open_, null.mono more, base, ?_, ?_⟩
    · rw [settled.content_stable change shape (away _ _ rfl)]
      exact settle leads rfl settled
    · intro k v isInsert pr found
      obtain ⟨pr', was⟩ := held.located.exists_bucket (held.located.word_lt held.word)
      have now := PlistRef.bucket_stable change held.located (away _ _ rfl) was
      cases now.symm.trans found
      exact fresh k v isInsert _ was
  | readElist t b bb =>
    obtain ⟨leads, settled⟩ := content
    refine ⟨leads.stable change open_, ?_⟩
    rw [settled.content_stable change shape (away _ _ rfl)]
    exact settle leads rfl settled
  | search t b bb e i =>
    obtain ⟨leads, el, stored, got, settled, missing⟩ := content
    exact ⟨leads.stable change open_, el, (list inv.base_home rfl).trans stored,
      (get inv.ref inv.base_home rfl).trans got, settle leads rfl settled, missing⟩
  | newElist t b pair =>
    exact ⟨content.1.stable change open_, settle content.1 rfl content.2.1, content.2.2⟩
  | publishElist t b eBase =>
    obtain ⟨leads, settled, pair, one, isInsert⟩ := content
    refine ⟨leads.stable change open_, settle leads rfl settled, pair, ?_, isInsert⟩
    simpa only [Mem.content, list inv.2 rfl] using one
  | storePair t b bb e pair =>
    obtain ⟨leads, el, got, settled, rest⟩ := content
    exact ⟨leads.stable change open_, el, (get inv.1.ref inv.1.base_home rfl).trans got,
      settle leads rfl settled, rest⟩
  | storeCount t b bb e =>
    obtain ⟨leads, el, got, settled, res⟩ := content
    exact ⟨leads.stable change open_, el, (get inv.1.ref inv.1.base_home rfl).trans got,
      settle' leads rfl settled, (result leads rfl).trans res⟩
  | swapLast t b bb e i key =>
    obtain ⟨leads, el, pair, got, settled, rest⟩ := content
    exact ⟨leads.stable change open_, el, pair, (get inv.1.ref inv.1.base_home rfl).trans got,
      settle leads rfl settled, rest⟩
  | dropCount t b bb e key =>
    obtain ⟨leads, el, got, settled, res⟩ := content
    exact ⟨leads.stable change open_, el, (get inv.1.ref inv.1.base_home rfl).trans got,
      settle' leads rfl settled, (result leads rfl).trans res⟩
  | writeBack t b bb e res =>
    obtain ⟨leads, el, got, settled, res⟩ := content
    exact ⟨leads.stable change open_, el, (get inv.1.ref inv.1.base_home rfl).trans got,
      settle' leads rfl settled, (result leads rfl).trans res⟩
  | newPlist t b bb e =>
    obtain ⟨leads, el, stored, got, settled⟩ := content
    exact ⟨leads.stable change open_, el, (list inv.base_home rfl).trans stored,
      (get inv.ref inv.base_home rfl).trans got, settle leads rfl settled⟩
  | rehashSource t b bb e newP =>
    obtain ⟨leads, el, stored, settled, rehashed⟩ := content
    exact ⟨leads.stable change open_, el, (list inv.1.base_home rfl).trans stored, settle leads rfl settled,
      rehash inv.2.1 rfl rehashed⟩
  | rehashMove t b bb e newP source i =>
    obtain ⟨leads, el, got, settled, rehashed⟩ := content
    exact ⟨leads.stable change open_, el, (get inv.2.2.2.1 inv.1.base_home rfl).trans got,
      settle leads rfl settled, rehash inv.2.1 rfl rehashed⟩
  | rehashFree t b bb e newP source =>
    obtain ⟨leads, pairs, settled, rehashed⟩ := content
    exact ⟨leads.stable change open_, pairs, settle leads rfl settled, rehash inv.2.1 rfl rehashed⟩
  | publishPlist t b bb e newP =>
    obtain ⟨leads, pairs, settled, rehashed⟩ := content
    exact ⟨leads.stable change open_, pairs, settle leads rfl settled, rehash inv.2.2.1 rfl rehashed⟩
  | updateCurr t b bb e newP =>
    obtain ⟨leads, pairs, settled, rehashed⟩ := content
    exact ⟨leads.stable change open_, pairs, settle leads rfl settled, rehash inv.2.2.1 rfl rehashed⟩
  | unlockPlist t b bb e newP =>
    obtain ⟨leads, null, pairs, settled, rehashed⟩ := content
    exact ⟨leads.stable change open_, null.mono more, pairs, settle leads rfl settled,
      rehash inv.2.2.1 rfl rehashed⟩
  | unlock t b held res =>
    obtain ⟨leads, base, ⟨settled, res⟩ | ⟨settled, s, before, past⟩⟩ := content
    · refine ⟨leads.stable change open_, base, .inl ⟨?_, (result leads rfl).trans res⟩⟩
      rw [settled.content_stable change shape (away _ _ rfl)]
      exact settle' leads rfl settled
    · refine ⟨leads.stable change open_, base, .inr ⟨?_, s, more s before, past⟩⟩
      rw [settled.content_stable change shape (away _ _ rfl)]
      exact settle leads rfl settled

end Stable

end RdmaIht.Iht
