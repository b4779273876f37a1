import RdmaIht.Assoc
import RdmaIht.FiniteMap
import RdmaIht.Hashtable.Branches

/-! What a `Hashtable` holds, as a function of the operations.

A `LinkedSet` holds its bundles of pairs in the order of the nodes, together with
the total length its first node claims. An operation that has won the lock of the
set is one step on the bundles. During a resize the pairs that are not added to
the new buckets yet are pending. A table without repeated keys, as long as no
operation meets a pending key or inserts a key that it cannot see, is a finite map.
-/

set_option autoImplicit false

namespace RdmaIht.Hashtable

variable {K V : Type}

/-! ## One `LinkedSet` -/

structure Bundles (K V : Type) where
  total : BitVec 32
  nodes : List (List (Pair K V))
  deriving DecidableEq, Repr

namespace Bundles

def empty : Bundles K V := ⟨0, [[]]⟩

def pairs (b : Bundles K V) : List (Pair K V) := b.nodes.flatten

def changeTotal (b : Bundles K V) (isIncrement : Bool) : Bundles K V :=
  { b with total := b.total + if isIncrement then 1 else -1 }

/-- An operation on the nodes: the nodes after it, the change of the count and the result. -/
def applyNodes [DecidableEq K] (T : Template K V) (op : IhtOp K V) :
    List (List (Pair K V)) → List (List (Pair K V)) × Option Bool × HtRes V
  | [] => ([], none, ⟨.falseState, T.zero⟩)
  | pairs :: rest =>
    match visit T op pairs rest.isEmpty with
    | .next => (pairs :: (applyNodes T op rest).1, (applyNodes T op rest).2)
    | .unlock res => (pairs :: rest, none, res)
    | .write pairs isIncrement res => (pairs :: rest, some isIncrement, res)
    | .append pair res => (pairs :: [pair] :: rest, some true, res)

/-- An operation that has won the lock. -/
def apply [DecidableEq K] (T : Template K V) (b : Bundles K V) (op : IhtOp K V) : Bundles K V × HtRes V :=
  match applyNodes T op b.nodes with
  | (nodes, none, res) => (⟨b.total, nodes⟩, res)
  | (nodes, some isIncrement, res) => (changeTotal ⟨b.total, nodes⟩ isIncrement, res)

/-- The keys in the nodes after the first one with room, where `insert` does not look. -/
def Hidden [DecidableEq K] (nodes : List (List (Pair K V))) (key : K) : Prop :=
  ∃ pair ∈ (nodes.dropWhile fun pairs => decide (pairs.length = nodeBundleSize)).tail.flatten, pair.key = key

instance [DecidableEq K] (nodes : List (List (Pair K V))) (key : K) : Decidable (Hidden nodes key) :=
  inferInstanceAs (Decidable (∃ pair ∈ _, _))

end Bundles

section Visits

variable [DecidableEq K] {T : Template K V} {key : K}

theorem findPair_eq_none {pairs : List (Pair K V)} : findPair key pairs = none ↔ ∀ pair ∈ pairs, pair.key ≠ key := by
  simp [findPair]

theorem findPair_eq_some {pairs : List (Pair K V)} {pair : Pair K V} (found : findPair key pairs = some pair) :
    pair ∈ pairs ∧ pair.key = key :=
  ⟨List.mem_of_find?_eq_some found, by simpa using List.find?_some found⟩

theorem findPair_append (first rest : List (Pair K V)) :
    findPair key (first ++ rest) = (findPair key first).or (findPair key rest) := by
  simp [findPair, List.find?_append]

theorem removePair_perm {pairs : List (Pair K V)} {pair : Pair K V} (found : findPair key pairs = some pair) :
    pairs.Perm (pair :: removePair key pairs) := by
  obtain ⟨front, back, rfl⟩ : ∃ front back, pairs = front ++ [back] :=
    ⟨pairs.dropLast, pairs.getLast (by rintro rfl; cases found), (List.dropLast_append_getLast _).symm⟩
  simp only [removePair, List.getLast?_append, List.getLast?_singleton, Option.some_or]
  rw [findPair_append] at found
  rw [List.findIdx_append]
  cases inner : findPair key front with
  | none =>
    -- the pair is the last one
    have past : List.findIdx (fun pair => decide (pair.key = key)) front = front.length :=
      List.findIdx_eq_length.mpr fun a member => by simpa using findPair_eq_none.mp inner a member
    rw [inner, Option.none_or] at found
    obtain ⟨member, _⟩ := findPair_eq_some found
    obtain rfl := List.mem_singleton.mp member
    have here : decide (pair.key = key) = true := by simpa using (findPair_eq_some found).2
    rw [past, if_neg (Nat.lt_irrefl _), List.findIdx_cons, here]
    simp
  | some pair' =>
    rw [inner, Option.some_or] at found
    cases found
    have bound : List.findIdx (fun pair => decide (pair.key = key)) front < front.length :=
      List.findIdx_lt_length_of_exists ⟨pair, (findPair_eq_some inner).1, by simpa using (findPair_eq_some inner).2⟩
    have slot : front[List.findIdx (fun pair => decide (pair.key = key)) front] = pair := by
      have same := inner
      rw [findPair, List.find?_eq_getElem?_findIdx, List.getElem?_eq_getElem bound] at same
      exact Option.some.inj same
    rw [if_pos bound, List.set_append_left _ _ bound, List.dropLast_concat]
    have split := List.getElem_cons_eraseIdx_perm bound
    rw [slot] at split
    have moved : (front ++ [back]).Perm (pair :: back :: front.eraseIdx _) :=
      (split.symm.append_right [back]).trans ((List.perm_append_singleton _ _).cons _)
    exact moved.trans ((List.set_perm_cons_eraseIdx bound back).symm.cons _)

def Visit.result : Visit K V → Option (HtRes V)
  | .next => none
  | .unlock res | .write _ _ res | .append _ res => some res

theorem visit_status {op : IhtOp K V} {pairs : List (Pair K V)} {isLast : Bool} {res : HtRes V}
    (ends : (visit T op pairs isLast).result = some res) : res.status ≠ .rehashDeleted := by
  cases op with
  | contains key =>
    simp only [visit, containsVisit] at ends
    split at ends <;> cases ends
    simp
  | insert key value =>
    simp only [visit, insertVisit] at ends
    split at ends
    · cases ends
      simp
    · split at ends
      · split at ends <;> cases ends
        simp
      · cases ends
        simp
  | remove key =>
    simp only [visit, removeVisit] at ends
    split at ends <;> cases ends
    simp

theorem applyNodes_status (op : IhtOp K V) (nodes : List (List (Pair K V))) :
    (Bundles.applyNodes T op nodes).2.2.status ≠ .rehashDeleted := by
  induction nodes with
  | nil => simp [Bundles.applyNodes]
  | cons pairs rest ih =>
    simp only [Bundles.applyNodes]
    cases visited : visit T op pairs rest.isEmpty with
    | next => exact ih
    | _ => exact @visit_status K V _ T op pairs rest.isEmpty _ (by rw [visited]; rfl)

theorem Bundles.apply_status (b : Bundles K V) (op : IhtOp K V) : (b.apply T op).2.status ≠ .rehashDeleted := by
  have status := applyNodes_status (T := T) op b.nodes
  unfold Bundles.apply
  split <;> next _ _ _ applied => rw [applied] at status; exact status

/-! The three operations on the nodes. -/

theorem applyNodes_contains (nodes : List (List (Pair K V))) :
    Bundles.applyNodes T (.contains key) nodes = (nodes, none,
      match findPair key nodes.flatten with
      | some pair => ⟨.trueState, pair.val⟩
      | none => ⟨.falseState, T.zero⟩) := by
  induction nodes with
  | nil => rfl
  | cons pairs rest ih =>
    simp only [Bundles.applyNodes, visit, containsVisit, List.flatten_cons, findPair_append]
    cases found : findPair key pairs with
    | none => simp [ih]
    | some pair => simp

theorem applyNodes_remove_absent {nodes : List (List (Pair K V))} (absent : findPair key nodes.flatten = none) :
    Bundles.applyNodes T (.remove key) nodes = (nodes, none, ⟨.falseState, T.zero⟩) := by
  induction nodes with
  | nil => rfl
  | cons pairs rest ih =>
    simp only [List.flatten_cons, findPair_append, Option.or_eq_none_iff] at absent
    simp only [Bundles.applyNodes, visit, removeVisit, absent.1, ih absent.2]

theorem applyNodes_remove {nodes : List (List (Pair K V))} {pair : Pair K V}
    (found : findPair key nodes.flatten = some pair) : ∃ nodes',
    Bundles.applyNodes T (.remove key) nodes = (nodes', some false, ⟨.trueState, pair.val⟩) ∧
      nodes.flatten.Perm (pair :: nodes'.flatten) ∧ nodes'.length = nodes.length := by
  induction nodes with
  | nil => cases found
  | cons pairs rest ih =>
    simp only [Bundles.applyNodes, visit, removeVisit]
    rw [List.flatten_cons, findPair_append] at found
    cases here : findPair key pairs with
    | some pair' =>
      rw [here, Option.some_or] at found
      cases found
      exact ⟨_, rfl, (removePair_perm here).append_right _, rfl⟩
    | none =>
      rw [here, Option.none_or] at found
      obtain ⟨rest', applied, perm, length⟩ := ih found
      refine ⟨pairs :: rest', by simp [applied], ?_, by simp [length]⟩
      exact (perm.append_left pairs).trans List.perm_middle

/-- An insert that meets the key before a node with room, or nowhere. -/
theorem applyNodes_insert_found {value : V} {nodes : List (List (Pair K V))} {pair : Pair K V}
    (found : findPair key nodes.flatten = some pair) (seen : ¬ Bundles.Hidden nodes key) :
    Bundles.applyNodes T (.insert key value) nodes = (nodes, none, ⟨.falseState, pair.val⟩) := by
  induction nodes with
  | nil => cases found
  | cons pairs rest ih =>
    simp only [Bundles.applyNodes, visit, insertVisit]
    rw [List.flatten_cons, findPair_append] at found
    cases here : findPair key pairs with
    | some pair' =>
      rw [here, Option.some_or] at found
      cases found
      rfl
    | none =>
      rw [here, Option.none_or] at found
      have more : rest.isEmpty = false := by
        cases rest with
        | nil => cases found
        | cons => rfl
      by_cases full : pairs.length = nodeBundleSize
      · have seen' : ¬ Bundles.Hidden rest key := by
          simpa [Bundles.Hidden, List.dropWhile_cons, full] using seen
        simp [full, more, ih found seen']
      · -- the key is behind this node
        exact absurd ⟨pair, by simpa [List.dropWhile_cons, full] using (findPair_eq_some found).1,
          (findPair_eq_some found).2⟩ seen

/-- An insert that does not meet the key before a node with room adds the pair. -/
theorem applyNodes_insert_new (key : K) (value : V) {nodes : List (List (Pair K V))} (nonempty : nodes ≠ [])
    (unseen : ∀ pairs ∈ nodes.takeWhile fun pairs => decide (pairs.length = nodeBundleSize), findPair key pairs = none)
    (room : ∀ pairs, (nodes.dropWhile fun pairs => decide (pairs.length = nodeBundleSize)).head? = some pairs →
      findPair key pairs = none) : ∃ nodes',
    Bundles.applyNodes T (.insert key value) nodes = (nodes', some true, ⟨.trueState, T.zero⟩) ∧
      nodes'.flatten.Perm (nodes.flatten ++ [⟨key, value⟩]) ∧ nodes.length ≤ nodes'.length := by
  induction nodes with
  | nil => exact absurd rfl nonempty
  | cons pairs rest ih =>
    simp only [Bundles.applyNodes, visit, insertVisit]
    by_cases full : pairs.length = nodeBundleSize
    · simp only [List.takeWhile_cons, full, decide_true, if_true, List.mem_cons, forall_eq_or_imp] at unseen
      simp only [List.dropWhile_cons, full, decide_true, if_true] at room
      cases rest with
      | nil => exact ⟨[pairs, [⟨key, value⟩]], by simp [unseen.1, full], by simp, by simp⟩
      | cons next rest =>
        obtain ⟨nodes', applied, perm, length⟩ := ih (by simp) unseen.2 room
        refine ⟨pairs :: nodes', by simp [unseen.1, full, applied], ?_, by simpa using length⟩
        rw [List.flatten_cons, List.flatten_cons, List.append_assoc]
        exact perm.append_left pairs
    · have here := room pairs (by simp [full])
      refine ⟨(pairs ++ [⟨key, value⟩]) :: rest, by simp [here, full], ?_, by simp⟩
      rw [List.flatten_cons, List.flatten_cons, List.append_assoc, List.append_assoc]
      exact List.perm_append_comm.append_left pairs

theorem applyNodes_insert_absent (key : K) (value : V) {nodes : List (List (Pair K V))} (nonempty : nodes ≠ [])
    (absent : ∀ pair ∈ nodes.flatten, pair.key ≠ key) : ∃ nodes',
    Bundles.applyNodes T (.insert key value) nodes = (nodes', some true, ⟨.trueState, T.zero⟩) ∧
      nodes'.flatten.Perm (nodes.flatten ++ [⟨key, value⟩]) ∧ nodes' ≠ [] := by
  have nowhere : ∀ pairs ∈ nodes, findPair key pairs = none := fun pairs member =>
    findPair_eq_none.mpr fun pair inside => absent pair (List.mem_flatten_of_mem member inside)
  obtain ⟨nodes', applied, perm, length⟩ := applyNodes_insert_new (T := T) key value nonempty
    (fun pairs member => nowhere pairs (List.takeWhile_subset _ member))
    (fun pairs head => nowhere pairs (List.dropWhile_subset _ (List.mem_of_head? head)))
  refine ⟨nodes', applied, perm, ?_⟩
  rintro rfl
  rw [List.length_nil, Nat.le_zero, List.length_eq_zero_iff] at length
  exact nonempty length

end Visits

namespace Bundles

variable [DecidableEq K] {T : Template K V} {b : Bundles K V} {σ : FiniteMap K V} {dom : K → Prop}

omit [DecidableEq K] in
@[simp] theorem pairs_changeTotal (isIncrement : Bool) : (b.changeTotal isIncrement).pairs = b.pairs := rfl
omit [DecidableEq K] in
@[simp] theorem nodes_changeTotal (isIncrement : Bool) : (b.changeTotal isIncrement).nodes = b.nodes := rfl

/-- Only an insert that does not see the key is wrong about it. -/
theorem apply_map (op : IhtOp K V) (rep : Assoc.Represents Pair.key Pair.val b.pairs σ dom) (nonempty : b.nodes ≠ [])
    (here : dom op.key) (seen : op.isInsert = true → ¬ Hidden b.nodes op.key) :
    Assoc.Represents Pair.key Pair.val (b.apply T op).1.pairs (σ.apply T.zero op).1 dom ∧
      (b.apply T op).2 = (σ.apply T.zero op).2 ∧ (b.apply T op).1.nodes ≠ [] := by
  have value : σ op.key = (findPair op.key b.nodes.flatten).map (·.val) := rep.binds op.key here
  cases op with
  | contains key =>
    simp only [IhtOp.key] at value
    simp only [apply, applyNodes_contains, FiniteMap.apply, value]
    cases findPair key b.nodes.flatten with
    | none => exact ⟨rep, rfl, nonempty⟩
    | some pair => exact ⟨rep, rfl, nonempty⟩
  -- `insert` looks at a node only as long as the nodes before are full, hence `seen`
  | insert key new =>
    simp only [IhtOp.key] at value here seen
    cases found : findPair key b.nodes.flatten with
    | some pair =>
      rw [found] at value
      simp only [apply, applyNodes_insert_found found (seen rfl), FiniteMap.apply, value, Option.map_some]
      exact ⟨rep, trivial, nonempty⟩
    | none =>
      rw [found] at value
      have absent := findPair_eq_none.mp found
      obtain ⟨nodes', applied, perm, some_⟩ := applyNodes_insert_absent (T := T) key new nonempty absent
      simp only [apply, applied, FiniteMap.apply, value, Option.map_none]
      exact ⟨(rep.append (a := ⟨key, new⟩) here absent).perm perm.symm, trivial, some_⟩
  | remove key =>
    simp only [IhtOp.key] at value
    cases found : findPair key b.nodes.flatten with
    | none =>
      rw [found] at value
      simp only [apply, applyNodes_remove_absent found, FiniteMap.apply, value, Option.map_none]
      exact ⟨rep, trivial, nonempty⟩
    | some pair =>
      rw [found] at value
      obtain ⟨nodes', applied, perm, length⟩ := applyNodes_remove (T := T) found
      simp only [apply, applied, FiniteMap.apply, value, Option.map_some]
      refine ⟨?_, trivial, ?_⟩
      · have first := (rep.perm perm).eraseIdx (i := 0) (a := pair) rfl
        rw [(findPair_eq_some found).2] at first
        exact first
      · intro gone
        rw [show nodes' = [] from gone, eq_comm, List.length_nil, List.length_eq_zero_iff] at length
        exact nonempty length

theorem apply_hidden {key : K} {value : V} (distinct : (b.pairs.map Pair.key).Nodup) (hidden : Hidden b.nodes key) :
    (b.apply T (.insert key value)).2 = ⟨.trueState, T.zero⟩ := by
  obtain ⟨pair, behind, same⟩ := hidden
  have split := List.takeWhile_append_dropWhile (p := fun pairs => decide (pairs.length = nodeBundleSize)) (l := b.nodes)
  obtain ⟨room, rest, at_⟩ : ∃ room rest, b.nodes.dropWhile (fun pairs => decide (pairs.length = nodeBundleSize)) =
      room :: rest := by
    cases at_ : b.nodes.dropWhile fun pairs => decide (pairs.length = nodeBundleSize) with
    | nil =>
      rw [at_] at behind
      cases behind
    | cons room rest => exact ⟨room, rest, rfl⟩
  rw [at_, List.tail_cons] at behind
  -- the key is in the last part only
  rw [pairs, ← split, at_, List.flatten_append, List.flatten_cons, List.map_append, List.map_append] at distinct
  have apart := (List.nodup_append.mp distinct).2.2
  have apart' := (List.nodup_append.mp (List.nodup_append.mp distinct).2.1).2.2
  have late : key ∈ rest.flatten.map Pair.key := same ▸ List.mem_map_of_mem behind
  have nonempty : b.nodes ≠ [] := by
    intro none
    rw [none] at at_
    cases at_
  obtain ⟨nodes', applied, _⟩ := applyNodes_insert_new (T := T) key value nonempty
    (fun pairs member => findPair_eq_none.mpr fun other inside sameKey =>
      apart key (sameKey ▸ List.mem_map_of_mem (List.mem_flatten_of_mem member inside)) key
        (List.mem_append_right _ late) rfl)
    (fun pairs head => findPair_eq_none.mpr fun other inside sameKey => by
      rw [at_] at head
      cases head
      exact apart' key (sameKey ▸ List.mem_map_of_mem inside) key late rfl)
  simp only [apply, applied]

end Bundles

/-! ## The table -/

structure Table (K V : Type) where
  count : Nat
  buckets : Nat → Bundles K V
  /-- what a resize has still to add -/
  pending : List (Pair K V)

theorem Template.keyhash_lt (T : Template K V) (key : K) {count : Nat} (pos : 0 < count) :
    T.keyhash key count < count := Nat.mod_lt _ pos

namespace Table

section Operations

variable [DecidableEq K] (T : Template K V)

def apply (t : Table K V) (op : IhtOp K V) : Table K V × HtRes V :=
  let i := T.keyhash op.key t.count
  ({ t with buckets := Function.update t.buckets i ((t.buckets i).apply T op).1 }, ((t.buckets i).apply T op).2)

/-- The operation meets no pending key, and an insert sees its key. -/
def Clear (t : Table K V) (op : IhtOp K V) : Prop :=
  (∀ pair ∈ t.pending, pair.key ≠ op.key) ∧
    (op.isInsert = true → ¬ Bundles.Hidden (t.buckets (T.keyhash op.key t.count)).nodes op.key)

instance (t : Table K V) (op : IhtOp K V) : Decidable (t.Clear T op) := inferInstanceAs (Decidable (_ ∧ _))

def readd (t : Table K V) (pair : Pair K V) (rest : List (Pair K V)) : Table K V :=
  { (t.apply T (.insert pair.key pair.val)).1 with pending := rest }

end Operations

def all (t : Table K V) : List (Pair K V) := (List.range t.count).flatMap fun i => (t.buckets i).pairs

/-- The new root is published. -/
def doubled (t : Table K V) : Table K V where
  count := t.count * 2
  buckets := fun _ => .empty
  pending := t.all

structure Holds [DecidableEq K] (T : Template K V) (t : Table K V) (σ : FiniteMap K V) : Prop where
  pos : 0 < t.count
  nonempty : ∀ i, (t.buckets i).nodes ≠ []
  bucket : ∀ i < t.count, Assoc.Represents Pair.key Pair.val (t.buckets i).pairs σ fun k =>
    T.keyhash k t.count = i ∧ ∀ pair ∈ t.pending, pair.key ≠ k
  distinct : (t.pending.map Pair.key).Nodup
  bound : ∀ pair ∈ t.pending, σ pair.key = some pair.val

variable [DecidableEq K] {T : Template K V} {t : Table K V} {σ : FiniteMap K V}

theorem Holds.apply (holds : Holds T t σ) {op : IhtOp K V} (clear : t.Clear T op) :
    Holds T (t.apply T op).1 (σ.apply T.zero op).1 ∧ (t.apply T op).2 = (σ.apply T.zero op).2 := by
  have bound := T.keyhash_lt op.key holds.pos
  obtain ⟨rep, result, nonempty⟩ := Bundles.apply_map (T := T) op (holds.bucket _ bound) (holds.nonempty _)
    ⟨rfl, clear.1⟩ clear.2
  refine ⟨⟨holds.pos, ?_, ?_, holds.distinct, ?_⟩, result⟩
  · intro i
    simp only [Table.apply, Function.update_apply]
    split
    · exact nonempty
    · exact holds.nonempty i
  · intro i inside
    simp only [Table.apply, Function.update_apply]
    split
    · next here =>
      subst here
      exact rep
    · next other =>
      refine (holds.bucket i inside).congr (fun _ => Iff.rfl) fun k here => ?_
      -- another bucket's keys are not the key of the operation
      refine FiniteMap.apply_of_ne T.zero σ op ?_
      rintro rfl
      exact other here.1.symm
  · intro pair member
    rw [FiniteMap.apply_of_ne T.zero σ op (clear.1 pair member)]
    exact holds.bound pair member

theorem Holds.readd (holds : Holds T t σ) {pair : Pair K V} {rest : List (Pair K V)} (next : t.pending = pair :: rest) :
    Holds T (t.readd T pair rest) σ := by
  have bound := T.keyhash_lt pair.key holds.pos
  have rep := holds.bucket _ bound
  have distinct := holds.distinct
  rw [next, List.map_cons, List.nodup_cons] at distinct
  have head : pair ∈ t.pending := by simp [next]
  -- the keys that are still to come are in no bucket
  have absent : ∀ other ∈ (t.buckets (T.keyhash pair.key t.count)).nodes.flatten, other.key ≠ pair.key :=
    fun other member same => (rep.inside other member).2 pair head same.symm
  obtain ⟨nodes', applied, perm, nonempty⟩ :=
    applyNodes_insert_absent (T := T) pair.key pair.val (holds.nonempty _) absent
  refine ⟨holds.pos, ?_, ?_, distinct.2, fun other member => holds.bound other (by simp only [next]; exact .tail _ member)⟩
  · intro i
    simp only [Table.readd, Table.apply, Function.update_apply, Bundles.apply, IhtOp.key, applied]
    split
    · exact nonempty
    · exact holds.nonempty i
  · intro i inside
    simp only [Table.readd, Table.apply, Function.update_apply, Bundles.apply, IhtOp.key, applied]
    split
    · next here =>
      subst here
      refine (rep.extend (a := pair) (fun k => ?_) (holds.bound pair head) absent).perm perm.symm
      rw [next]
      constructor
      · rintro ⟨hash, apart⟩
        by_cases same : k = pair.key
        · exact .inr same
        · exact .inl ⟨hash, fun other member => (List.mem_cons.mp member).elim
            (fun first => first ▸ fun sameKey => same sameKey.symm) (apart other)⟩
      · rintro (⟨hash, apart⟩ | rfl)
        · exact ⟨hash, fun other member => apart other (List.mem_cons_of_mem _ member)⟩
        · exact ⟨rfl, fun other member same => distinct.1 (same ▸ List.mem_map_of_mem member)⟩
    · next elsewhere =>
      refine (holds.bucket i inside).congr (fun k => ?_) fun _ _ => rfl
      rw [next]
      constructor
      · rintro ⟨hash, apart⟩
        refine ⟨hash, fun other member => (List.mem_cons.mp member).elim ?_ (apart other)⟩
        rintro rfl rfl
        exact elsewhere hash.symm
      · rintro ⟨hash, apart⟩
        exact ⟨hash, fun other member => apart other (List.mem_cons_of_mem _ member)⟩

theorem Holds.mem_all (holds : Holds T t σ) (settled : t.pending = []) {k : K} {v : V} :
    σ k = some v ↔ ⟨k, v⟩ ∈ t.all := by
  have dom : ∀ k i, T.keyhash k t.count = i → T.keyhash k t.count = i ∧ ∀ pair ∈ t.pending, pair.key ≠ k :=
    fun k i hash => ⟨hash, by simp [settled]⟩
  simp only [all, List.mem_flatMap, List.mem_range]
  constructor
  · intro bound
    have inside := T.keyhash_lt k holds.pos
    refine ⟨_, inside, ?_⟩
    rw [(holds.bucket _ inside).binds k (dom k _ rfl)] at bound
    obtain ⟨pair, found, rfl⟩ := Option.map_eq_some_iff.mp bound
    obtain ⟨member, rfl⟩ := findPair_eq_some found
    exact member
  · rintro ⟨i, inside, member⟩
    exact (holds.bucket i inside).lookup_eq member

theorem Holds.doubled (holds : Holds T t σ) (settled : t.pending = []) : Holds T t.doubled σ where
  pos := Nat.mul_pos holds.pos (by decide)
  nonempty := fun i => by simp [Table.doubled, Bundles.empty]
  bucket := fun i _ => by
    refine .nil fun k here => ?_
    cases bound : σ k with
    | none => rfl
    | some v => exact absurd rfl (here.2 _ ((holds.mem_all settled).mp bound))
  distinct := by
    simp only [Table.doubled, all, List.map_flatMap]
    rw [List.nodup_flatMap]
    refine ⟨fun i member => (holds.bucket i (List.mem_range.mp member)).distinct, ?_⟩
    refine List.nodup_range.imp_of_mem ?_
    intro i j memberI memberJ apart k inI inJ
    obtain ⟨pair, inPairs, rfl⟩ := List.mem_map.mp inI
    obtain ⟨pair', inPairs', same⟩ := List.mem_map.mp inJ
    have hash := ((holds.bucket i (List.mem_range.mp memberI)).inside pair inPairs).1
    have hash' := ((holds.bucket j (List.mem_range.mp memberJ)).inside pair' inPairs').1
    rw [same, hash] at hash'
    exact apart hash'
  bound := fun pair member => (holds.mem_all settled).mpr member

end Table

end RdmaIht.Hashtable
