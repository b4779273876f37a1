import RdmaIht.Iht.Inserts
import RdmaIht.Iht.Shipped
import RdmaIht.Trie

/-! The form of a tree that is built by inserts.

It is the trie of the keys: a bucket becomes a P-List once more keys lead to it than
an E-List can take, and that depends on the keys alone. Two orders of the same
inserts therefore give trees of one form, with the same keys in the same places.
-/

set_option autoImplicit false

namespace RdmaIht.Iht

open Concurrency Trie

variable {K V : Type}

section Memory

variable [DecidableEq K]

/-- What a base points to; an E-List stands for the set of its keys. -/
def Mem.slot (m : Mem K V) (base : RemotePtr) : Option (Slot K) :=
  if base = .null then some .empty
  else
    match m.plists base, m.elists base with
    | some _, _ => some .node
    | none, some el => some (.leaf (el.live.map Pair.key).toFinset)
    | none, none => none

def Mem.slotAt (m : Mem K V) (base : RemotePtr) : List Nat → Option (Slot K)
  | [] => m.slot base
  | b :: path => (m.bucket base b).bind fun pr => m.slotAt pr.base path

theorem Mem.slot_plist {m : Mem K V} {p : RemotePtr} {bs : List PlistPair} (notNull : p ≠ .null) (stored : m.plists p = some bs) :
    m.slot p = some .node := by
  simp [slot, notNull, stored]

theorem Mem.slotAt_of_elist {m : Mem K V} {base : RemotePtr} (none : m.plists base = none) (b : Nat) (path : List Nat) :
    m.slotAt base (b :: path) = Option.none := by
  simp [slotAt, Mem.bucket, none]

end Memory

variable {T : Template K V} {root : RemotePtr} {home : Home} {m : Mem K V} {σ : FiniteMap K V} {keys : Finset K}

theorem Shape.bucket_iff (shape : Shape T root home m) {p : RemotePtr} {d : Nat} (descent : Descent root m p d) (b : Nat) :
    (∃ pr, m.bucket p b = some pr) ↔ b < T.size d := by
  obtain ⟨bs, stored, length⟩ := shape.size descent
  rw [← length]
  constructor
  · rintro ⟨pr, found⟩
    obtain ⟨bs', stored', at_⟩ := Mem.bucket_eq_some.mp found
    cases stored.symm.trans stored'
    exact (List.getElem?_eq_some_iff.mp at_).1
  · intro bound
    exact ⟨bs[b], Mem.bucket_eq_some.mpr ⟨bs, stored, List.getElem?_eq_getElem bound⟩⟩

theorem Shape.walk_iff (shape : Shape T root home m) {p : RemotePtr} {d b : Nat} {pr : PlistPair}
    (found : m.bucket p b = some pr) (closed : m.locks pr.lock = some .pUnlocked) (key : K) :
    Walk T root m key pr.base (d + 1) ↔ Leads T root m p d b key := by
  constructor
  · intro walk
    obtain ⟨n, same, leads⟩ := walk.parent shape (shape.closed found closed).1
    cases same
    exact leads
  · rintro ⟨walk, rfl⟩
    exact .down walk found closed

variable [DecidableEq K]

namespace Grown

section Bucket

variable {p : RemotePtr} {d b : Nat} {pr : PlistPair} {here : Finset K}

/-- In a bucket that is closed lie more keys than an E-List can take. -/
theorem crowd (grown : Grown T root home σ m) (descent : Descent root m p d) (found : m.bucket p b = some pr)
    (closed : m.locks pr.lock = some .pUnlocked)
    (leads : ∀ k, k ∈ here ↔ (σ k).isSome ∧ Leads T root m p d b k) : T.elistSize < here.card := by
  obtain ⟨n, list, distinct, many, lead⟩ := grown.crowded p b ⟨pr, found, closed⟩
  have inside : list.toFinset ⊆ here := by
    intro k mem
    obtain ⟨isSome, walk, index⟩ := lead k (List.mem_toFinset.mp mem)
    obtain rfl := walk.descent.functional grown.between.shape descent
    exact (leads k).mpr ⟨isSome, walk, index⟩
  calc
    T.elistSize < list.length := many
    _ = list.toFinset.card := (List.toFinset_card_of_nodup distinct).symm
    _ ≤ here.card := Finset.card_le_card inside

theorem open_base (grown : Grown T root home σ m) (descent : Descent root m p d) (found : m.bucket p b = some pr)
    (open_ : m.locks pr.lock = some .eUnlocked) : m.plists pr.base = none := by
  rcases grown.between.representation.bucket descent found with ⟨closed, _⟩ | ⟨_, none, _⟩
  · rw [open_] at closed
    cases closed
  · exact none

theorem open_slot (grown : Grown T root home σ m) (descent : Descent root m p d) (found : m.bucket p b = some pr)
    (open_ : m.locks pr.lock = some .eUnlocked)
    (leads : ∀ k, k ∈ here ↔ (σ k).isSome ∧ Leads T root m p d b k) :
    m.slot pr.base = some (slot T.elistSize here) ∧ here.card ≤ T.elistSize := by
  have shape := grown.between.shape
  by_cases null : pr.base = .null
  · have nothing : here = ∅ := by
      refine Finset.eq_empty_of_forall_notMem fun k mem => ?_
      obtain ⟨isSome, lead⟩ := (leads k).mp mem
      rw [grown.between.content.empty descent found null k lead] at isSome
      cases isSome
    simp [Mem.slot, null, nothing, slot]
  · obtain ⟨el, stored, fits⟩ := shape.opened found open_ _ ((shape.base_ok found).resolve_left null)
    have agrees := (grown.between.content.opened descent found open_).agrees
    rw [Mem.content_elist null stored] at agrees
    -- the keys of the list are the keys that lead here, so its length does not depend on the order
    have same : (el.live.map Pair.key).toFinset = here := by
      ext k
      rw [List.mem_toFinset, leads]
      constructor
      · intro mem
        obtain ⟨pair, live, rfl⟩ := List.mem_map.mp mem
        exact ⟨by rw [agrees.lookup_eq live]; rfl, agrees.inside pair live⟩
      · rintro ⟨isSome, lead⟩
        by_contra missing
        rw [agrees.absent lead fun pair live isKey => missing (List.mem_map.mpr ⟨pair, live, isKey⟩)] at isSome
        cases isSome
    have card : here.card = el.count := by
      rw [← same, List.toFinset_card_of_nodup agrees.distinct, List.length_map, EList.length_live fits]
    have few : el.count ≤ T.elistSize := Nat.le_trans fits.1 fits.2
    have some_ : 1 ≤ el.count := grown.occupied _ el stored
    refine ⟨?_, by omega⟩
    rw [slot, if_neg (by omega), if_pos (by omega)]
    simp [Mem.slot, null, grown.open_base descent found open_, stored, same]

end Bucket

/-- Below a bucket lies the trie of the keys that lead to it. -/
theorem slotAt_eq (grown : Grown T root home σ m) (path : List Nat) {p : RemotePtr} {d b : Nat} {pr : PlistPair}
    {here : Finset K} (descent : Descent root m p d) (found : m.bucket p b = some pr)
    (leads : ∀ k, k ∈ here ↔ (σ k).isSome ∧ Leads T root m p d b k) :
    m.slotAt pr.base path = slotAt T.index T.size T.elistSize here (d + 1) path := by
  have shape := grown.between.shape
  induction path generalizing p d b pr here with
  | nil =>
    obtain ⟨w, word⟩ := shape.lock_exists found
    cases w with
    | eLocked => exact absurd ⟨pr, found, word⟩ grown.between.unlocked
    | eUnlocked => exact (grown.open_slot descent found word leads).1
    | pUnlocked =>
      obtain ⟨_, _, child, _, stored, _⟩ := shape.closed found word
      have many := grown.crowd descent found word leads
      rw [Mem.slotAt, Mem.slot_plist (shape.null_not_plist_child found word) stored, slotAt, slot_eq_node.mpr many]
  | cons c path ih =>
    obtain ⟨w, word⟩ := shape.lock_exists found
    cases w with
    | eLocked => exact absurd ⟨pr, found, word⟩ grown.between.unlocked
    | eUnlocked =>
      -- no path goes on below an E-List, nor below few keys
      obtain ⟨_, few⟩ := grown.open_slot descent found word leads
      rw [Mem.slotAt_of_elist (grown.open_base descent found word), slotAt, if_neg]
      omega
    | pUnlocked =>
      have many := grown.crowd descent found word leads
      have below : Descent root m pr.base (d + 1) := .down descent found word
      rw [Mem.slotAt, slotAt]
      by_cases bound : c < T.size (d + 1)
      · obtain ⟨qr, found'⟩ := (shape.bucket_iff below c).mpr bound
        rw [found', if_pos ⟨many, bound⟩]
        refine ih below found' fun k => ?_
        have arrives : Walk T root m k pr.base (d + 1) ↔ Leads T root m p d b k := shape.walk_iff found word k
        rw [branch, Finset.mem_filter, leads, ← arrives, and_assoc]
        rfl
      · rw [if_neg fun both => bound both.2]
        cases found' : m.bucket pr.base c with
        | none => rfl
        | some qr => exact absurd ((shape.bucket_iff below c).mp ⟨qr, found'⟩) bound

theorem rootAt_eq (grown : Grown T root home σ m) (bound : ∀ k, k ∈ keys ↔ (σ k).isSome) (path : List Nat) :
    m.slotAt root path = rootAt T.index T.size T.elistSize keys path := by
  have shape := grown.between.shape
  cases path with
  | nil =>
    obtain ⟨bs, stored, _⟩ := shape.root_size
    have notNull : root ≠ .null := by
      rintro rfl
      rw [shape.plist_null] at stored
      cases stored
    exact Mem.slot_plist notNull stored
  | cons b path =>
    rw [Mem.slotAt, rootAt]
    by_cases inside : b < T.size 1
    · obtain ⟨pr, found⟩ := (shape.bucket_iff .root b).mpr inside
      rw [found, if_pos inside]
      refine grown.slotAt_eq path .root found fun k => ?_
      rw [branch, Finset.mem_filter, bound]
      exact and_congr_right fun _ => ⟨fun index => ⟨.root, index⟩, And.right⟩
    · rw [if_neg inside]
      cases found : m.bucket root b with
      | none => rfl
      | some pr => exact absurd ((shape.bucket_iff .root b).mp ⟨pr, found⟩) inside

end Grown

/-! ## Orders of insertion -/

structure Orders (calls : List (Nat × K × V)) (keys : Finset K) : Prop where
  distinct : (insertedKeys calls).Nodup
  all : ∀ k, k ∈ keys ↔ k ∈ insertedKeys calls

/-- Whoever inserts them in whatever order, the tree is the trie of the keys. -/
theorem Orders.rootAt_eq (plist : 2 ≤ T.plistSize) (elist : 1 ≤ T.elistSize) {host fuel : Nat} {calls : List (Nat × K × V)}
    (order : Orders calls keys) {results : List (HtRes V)}
    (ran : operations T (initAsFirst T host).1 fuel (initAsFirst T host).2 (inserts calls) = .ok (m, results))
    (path : List Nat) : m.slotAt (initAsFirst T host : RemotePtr × Mem K V).1 path = rootAt T.index T.size T.elistSize keys path := by
  obtain ⟨home, σ, grown, bound⟩ := (Grown.start T host).inserts plist elist calls (fun _ _ => rfl) order.distinct ran
  refine grown.rootAt_eq (fun k => ?_) path
  rw [order.all, bound]
  simp [FiniteMap.empty]

/-- Two orders of inserting the same keys into the shipped table give trees of one form:
a bucket of a P-List holds a P-List if more than 7 of the keys hash to its path, an
E-List with these keys if 1 to 7 of them do, and null if none does. -/
theorem insert_order_irrelevant (keys : Finset (BitVec 32)) {fuel : Nat} (enough : 1057 < fuel) (host host' : Nat)
    (calls calls' : List (Nat × BitVec 32 × BitVec 32)) (order : Orders calls keys) (order' : Orders calls' keys) :
    ∃ m results m' results',
      operations shipped (initAsFirst shipped host).1 fuel (initAsFirst shipped host).2 (inserts calls) =
        .ok (m, results) ∧
      operations shipped (initAsFirst shipped host').1 fuel (initAsFirst shipped host').2 (inserts calls') =
        .ok (m', results') ∧
      (∀ path, m.slotAt (initAsFirst shipped host : RemotePtr × Mem (BitVec 32) (BitVec 32)).1 path =
        m'.slotAt (initAsFirst shipped host' : RemotePtr × Mem (BitVec 32) (BitVec 32)).1 path) ∧
      m.slotAt (initAsFirst shipped host : RemotePtr × Mem (BitVec 32) (BitVec 32)).1 [] = some .node ∧
      ∀ path b, m.slotAt (initAsFirst shipped host : RemotePtr × Mem (BitVec 32) (BitVec 32)).1 (path ++ [b]) =
        if m.slotAt (initAsFirst shipped host : RemotePtr × Mem (BitVec 32) (BitVec 32)).1 path = some .node ∧
            b < shipped.size (path.length + 1) then
          some (slot 7 (keys.filter fun k => Along shipped.index k 1 (path ++ [b])))
        else none := by
  obtain ⟨_, _, m, results, ran, _⟩ := shipped_returns host enough (inserts calls)
  obtain ⟨_, _, m', results', ran', _⟩ := shipped_returns host' enough (inserts calls')
  have trie := order.rootAt_eq (by decide) (by decide) ran
  have trie' := order'.rootAt_eq (by decide) (by decide) ran'
  refine ⟨m, results, m', results', ran, ran', fun path => (trie path).trans (trie' path).symm, trie [], ?_⟩
  intro path b
  rw [trie, trie, rootAt_concat]
  rfl

/-- Eight keys that share bucket 0 of the root. -/
def eightKeys : List (BitVec 32) := [1, 126, 255, 380, 509, 634, 763, 888]

/-- Inserted in order by client 0, and in reverse order by client 1. -/
theorem insert_order_irrelevant_reversed : ∃ m results m' results',
    operations shipped (initAsFirst shipped 0).1 1058 (initAsFirst shipped 0).2
      (inserts (eightKeys.map fun k => (0, k, k))) = .ok (m, results) ∧
    operations shipped (initAsFirst shipped 0).1 1058 (initAsFirst shipped 0).2
      (inserts (eightKeys.reverse.map fun k => (1, k, k))) = .ok (m', results') ∧
    m.slotAt (initAsFirst shipped 0 : RemotePtr × Mem (BitVec 32) (BitVec 32)).1 [0] = some .node ∧
    m'.slotAt (initAsFirst shipped 0 : RemotePtr × Mem (BitVec 32) (BitVec 32)).1 [0] = some .node := by
  have order : Orders (eightKeys.map fun k => (0, k, k)) eightKeys.toFinset := ⟨by decide, by simp [insertedKeys]⟩
  have order' : Orders (eightKeys.reverse.map fun k => (1, k, k)) eightKeys.toFinset := ⟨by decide, by simp [insertedKeys]⟩
  obtain ⟨m, results, m', results', ran, ran', same, isRoot, below⟩ :=
    @insert_order_irrelevant eightKeys.toFinset 1058 (by decide) 0 0 _ _ order order'
  have split : m.slotAt (initAsFirst shipped 0 : RemotePtr × Mem (BitVec 32) (BitVec 32)).1 [0] = some .node := by
    have here := below [] 0
    rw [if_pos ⟨isRoot, by decide⟩] at here
    refine here.trans (congrArg some ?_)
    decide +kernel
  exact ⟨m, results, m', results', ran, ran', split, same [0] ▸ split⟩

end RdmaIht.Iht
