import RdmaIht.Hashtable.Calls
import RdmaIht.IntHash

/-! How large a table of `int` keys can grow.

A bucket gets a second node only after seven keys of its index. From 2^30 buckets on
no bucket has so many, so that the load factor is never reached and the number of
buckets stays within `int`.
-/

set_option autoImplicit false

namespace RdmaIht.Hashtable

variable {K V : Type} [DecidableEq K] {T : Template K V}

/-! ## One operation on the nodes -/

/-- An operation leaves the nodes alone, adds its pair or takes out a pair of its key. -/
theorem applyNodes_cases (op : IhtOp K V) (nodes : List (List (Pair K V))) :
    (∃ res, Bundles.applyNodes T op nodes = (nodes, none, res)) ∨
    (∃ key value nodes' res, op = .insert key value ∧ Bundles.applyNodes T op nodes = (nodes', some true, res) ∧
      nodes'.flatten.Perm (⟨key, value⟩ :: nodes.flatten) ∧ nodes' ≠ []) ∨
    ∃ key pair nodes' res, op = .remove key ∧ Bundles.applyNodes T op nodes = (nodes', some false, res) ∧ pair.key = key ∧
      nodes.flatten.Perm (pair :: nodes'.flatten) ∧ nodes'.length = nodes.length := by
  cases op with
  | contains key => exact .inl ⟨_, applyNodes_contains nodes⟩
  | remove key =>
    cases found : findPair key nodes.flatten with
    | none => exact .inl ⟨_, applyNodes_remove_absent found⟩
    | some pair =>
      obtain ⟨nodes', applied, perm, length⟩ := applyNodes_remove (T := T) found
      exact .inr (.inr ⟨key, pair, nodes', _, rfl, applied, (findPair_eq_some found).2, perm, length⟩)
  | insert key value =>
    induction nodes with
    | nil => exact .inl ⟨_, rfl⟩
    | cons pairs rest ih =>
      simp only [Bundles.applyNodes, visit, insertVisit]
      cases here : findPair key pairs with
      | some pair => exact .inl ⟨_, rfl⟩
      | none =>
        -- only a full node sends the insert on to the next one
        by_cases full : pairs.length = nodeBundleSize
        · cases rest with
          | nil =>
            refine .inr (.inl ⟨key, value, [pairs, [⟨key, value⟩]], ⟨.trueState, T.zero⟩, rfl, by simp [full], ?_, by simp⟩)
            simp
          | cons next rest =>
            simp only [full, if_true, List.isEmpty_cons, Bool.false_eq_true, if_false]
            rcases ih with ⟨res, applied⟩ | ⟨_, _, nodes', res, same, applied, perm, _⟩ | ⟨_, _, _, _, same, _⟩
            · exact .inl ⟨res, by rw [applied]⟩
            · cases same
              refine .inr (.inl ⟨key, value, pairs :: nodes', res, rfl, by rw [applied], ?_, by simp⟩)
              exact (perm.append_left pairs).trans List.perm_middle
            · cases same
        · refine .inr (.inl ⟨key, value, (pairs ++ [⟨key, value⟩]) :: rest, ⟨.trueState, T.zero⟩, rfl, by simp [full], ?_,
            by simp⟩)
          simp only [List.flatten_cons, List.append_assoc, List.singleton_append]
          exact List.perm_middle

namespace Bundles

variable {b : Bundles K V}

/-- The first node of a bundle has distinct keys, and a second node only behind seven of them. -/
def Filled (b : Bundles K V) (mine : K → Prop) : Prop :=
  ∃ first rest, b.nodes = first :: rest ∧ (first.map Pair.key).Nodup ∧ first.length ≤ nodeBundleSize ∧
    (rest ≠ [] → ∃ keys : List K, keys.Nodup ∧ keys.length = nodeBundleSize ∧ ∀ key ∈ keys, mine key)

/-- What every bucket keeps: its pairs are at their place, and their number is the total length. -/
structure Kept (b : Bundles K V) (mine : K → Prop) : Prop where
  placed : ∀ pair ∈ b.pairs, mine pair.key
  total : b.total = BitVec.ofNat 32 b.pairs.length
  filled : b.Filled mine

omit [DecidableEq K] in
theorem Kept.empty (mine : K → Prop) : (Bundles.empty : Bundles K V).Kept mine where
  placed := by simp [Bundles.empty, pairs]
  total := by simp [Bundles.empty, pairs]
  filled := ⟨[], [], rfl, by simp, by simp, by simp⟩

theorem nodup_removePair {key : K} {pairs : List (Pair K V)} {pair : Pair K V} (found : findPair key pairs = some pair)
    (distinct : (pairs.map Pair.key).Nodup) :
    ((removePair key pairs).map Pair.key).Nodup ∧ (removePair key pairs).length ≤ pairs.length := by
  have perm := removePair_perm found
  have distinct' := (perm.map Pair.key).nodup_iff.mp distinct
  rw [List.map_cons, List.nodup_cons] at distinct'
  have length := perm.length_eq
  rw [List.length_cons] at length
  exact ⟨distinct'.2, by omega⟩

theorem filled_applyNodes (op : IhtOp K V) {mine : K → Prop} (here : mine op.key) {first : List (Pair K V)}
    {rest : List (List (Pair K V))} (total total' : BitVec 32) (placed : ∀ pair ∈ first, mine pair.key)
    (filled : Filled ⟨total, first :: rest⟩ mine) : Filled ⟨total', (applyNodes T op (first :: rest)).1⟩ mine := by
  obtain ⟨_, _, split, distinct, small, behind⟩ := filled
  cases split
  cases op with
  | contains key =>
    rw [applyNodes_contains]
    exact ⟨first, rest, rfl, distinct, small, behind⟩
  | remove key =>
    simp only [applyNodes, visit, removeVisit]
    cases found : findPair key first with
    | some pair =>
      obtain ⟨distinct', length⟩ := nodup_removePair found distinct
      exact ⟨_, rest, rfl, distinct', by omega, behind⟩
    | none =>
      refine ⟨first, _, rfl, distinct, small, fun more => behind fun none => more ?_⟩
      rw [none, applyNodes]
  | insert key value =>
    simp only [applyNodes, visit, insertVisit]
    cases found : findPair key first with
    | some pair => exact ⟨first, rest, rfl, distinct, small, behind⟩
    | none =>
      by_cases full : first.length = nodeBundleSize
      · have seven : ∃ keys : List K, keys.Nodup ∧ keys.length = nodeBundleSize ∧ ∀ key ∈ keys, mine key := by
          refine ⟨first.map Pair.key, distinct, by rw [List.length_map, full], fun key member => ?_⟩
          obtain ⟨pair, inside, rfl⟩ := List.mem_map.mp member
          exact placed pair inside
        -- the first node stays, whether or not it is the last one
        simp only [full, if_true]
        cases rest with
        | nil => exact ⟨first, [[⟨key, value⟩]], rfl, distinct, small, fun _ => seven⟩
        | cons next rest => exact ⟨first, _, rfl, distinct, small, fun _ => seven⟩
      · simp only [full, if_false]
        refine ⟨first ++ [⟨key, value⟩], rest, rfl, ?_, by simp; omega, behind⟩
        rw [List.map_append, List.nodup_append]
        refine ⟨distinct, by simp, fun a member b last => ?_⟩
        obtain ⟨pair, inside, rfl⟩ := List.mem_map.mp member
        rw [show b = key by simpa using last]
        exact findPair_eq_none.mp found pair inside

theorem total_apply (op : IhtOp K V) (total : b.total = BitVec.ofNat 32 b.pairs.length) :
    (b.apply T op).1.total = BitVec.ofNat 32 (b.apply T op).1.pairs.length := by
  rcases applyNodes_cases (T := T) op b.nodes with ⟨res, applied⟩ | ⟨key, value, nodes', res, rfl, applied, perm, _⟩ |
      ⟨key, pair, nodes', res, rfl, applied, _, perm, _⟩
  · simp only [Bundles.apply, applied]
    exact total
  · have length := perm.length_eq
    rw [List.length_cons] at length
    simp only [Bundles.apply, applied, changeTotal, pairs, total, length, if_true]
    rw [BitVec.ofNat_add]
    rfl
  · have length := perm.length_eq
    rw [List.length_cons] at length
    simp only [Bundles.apply, applied, changeTotal, pairs, total, length, Bool.false_eq_true, if_false]
    rw [BitVec.ofNat_add, BitVec.add_assoc]
    simp

theorem Kept.apply {mine : K → Prop} (kept : b.Kept mine) {op : IhtOp K V} (here : mine op.key) :
    (b.apply T op).1.Kept mine := by
  -- the invariant of the nodes does not read the counter
  have filled : ∀ total, Filled ⟨total, (applyNodes T op b.nodes).1⟩ mine := by
    obtain ⟨first, rest, split, _⟩ := kept.filled
    intro total
    rw [split]
    refine filled_applyNodes op here b.total total (fun pair member => kept.placed pair ?_) ?_
    · rw [pairs, split]
      exact List.mem_append_left _ member
    · rw [← split]
      exact kept.filled
  have total := total_apply (T := T) op kept.total
  rcases applyNodes_cases (T := T) op b.nodes with ⟨res, applied⟩ | ⟨key, value, nodes', res, rfl, applied, perm, _⟩ |
      ⟨key, pair, nodes', res, rfl, applied, same, perm, _⟩
  · simp only [Bundles.apply, applied]
    exact kept
  · rw [applied] at filled
    simp only [Bundles.apply, applied] at total ⊢
    refine ⟨fun pair member => ?_, total, filled _⟩
    rcases List.mem_cons.mp (perm.mem_iff.mp member) with rfl | old
    · exact here
    · exact kept.placed pair old
  · rw [applied] at filled
    simp only [Bundles.apply, applied] at total ⊢
    exact ⟨fun pair' member => kept.placed pair' (perm.mem_iff.mpr (List.mem_cons_of_mem _ member)), total, filled _⟩

end Bundles

namespace Table

structure Kept (T : Template K V) (t : Table K V) : Prop where
  pos : 0 < t.count
  bucket : ∀ i, (t.buckets i).Kept fun key => T.keyhash key t.count = i

variable {t : Table K V}

omit [DecidableEq K] in
theorem Kept.init (positive : 1 ≤ T.initialSize) : (Table.init T).Kept T := ⟨positive, fun _ => .empty _⟩

theorem Kept.apply (kept : t.Kept T) (op : IhtOp K V) : (t.apply T op).1.Kept T := by
  refine ⟨kept.pos, fun i => ?_⟩
  simp only [Table.apply, Function.update_apply]
  split
  · next here =>
    subst here
    exact (kept.bucket _).apply rfl
  · exact kept.bucket i

theorem Kept.add (kept : t.Kept T) (pairs : List (Pair K V)) : (t.add T pairs).Kept T := by
  induction pairs generalizing t with
  | nil => exact kept
  | cons pair rest ih => exact ih (kept.apply _)

theorem Kept.rehashed (kept : t.Kept T) : (t.rehashed T).Kept T := by
  have doubled : t.doubled.Kept T := ⟨Nat.mul_pos kept.pos (by decide), fun _ => .empty _⟩
  have added := doubled.add t.all
  exact ⟨added.pos, added.bucket⟩

theorem Kept.perform (kept : t.Kept T) (isHost : Bool) (call : Call K V) : (t.perform T isHost call).1.Kept T := by
  cases call with
  | operation op => exact kept.apply op
  | tryRehash =>
    simp only [Table.perform, tryRehash]
    split
    · split
      · exact kept.rehashed
      · exact kept
    · exact kept

omit [DecidableEq K] in
theorem load_le {c : Nat} (few : ∀ i, (t.buckets i).total.toInt ≤ c) (n : Nat) : t.load n ≤ n * c := by
  induction n with
  | zero => simp [load]
  | succ n ih =>
    rw [load_succ]
    have last := few n
    rw [Int.natCast_add, Int.add_mul]
    omega

end Table

section IntKeys

variable {initialSize : Nat} {V : Type}

theorem length_le_of_keyhash {T : Template (BitVec 32) V} (hash : T.preHash = fun key => key.signExtend 64) {count i q : Nat}
    (blocks : 2 ^ 31 ≤ count * q) {keys : List (BitVec 32)} (distinct : keys.Nodup)
    (placed : ∀ key ∈ keys, T.keyhash key count = i) : keys.length ≤ 2 * q := by
  refine length_le_of_residue blocks (fun _ _ => signExtend_injective) signExtend_inWindows (r := i) distinct ?_
  intro key member
  have residue := placed key member
  simp only [Template.keyhash, hash] at residue
  exact residue

end IntKeys

theorem ofNat_toInt_le (n : Nat) : (BitVec.ofNat 32 n).toInt ≤ n := by
  rw [BitVec.toInt_eq_toNat_cond, BitVec.toNat_ofNat]
  have := Nat.mod_le n (2 ^ 32)
  split <;> omega

/-- A table of `int` keys is resized only as long as the number of its buckets stays within `int`. -/
theorem Table.Kept.small {initialSize : Nat} {t : Table (BitVec 32) (BitVec 32)} (kept : t.Kept (intTemplate initialSize))
    (full : t.Full) : t.count * 2 < 2 ^ 31 := by
  by_contra large
  refine full ?_
  have blocks : 2 ^ 31 ≤ t.count * 2 := by omega
  -- so many buckets leave at most four `int` keys to a bucket, less than a bundle
  have few : ∀ i, (t.buckets i).total.toInt ≤ (4 : Nat) := by
    intro i
    have at_ := kept.bucket i
    obtain ⟨first, rest, split, distinct, _, behind⟩ := at_.filled
    have alone : rest = [] := by
      by_contra more
      obtain ⟨keys, apart, seven, placed⟩ := behind more
      have := length_le_of_keyhash (T := intTemplate initialSize) rfl blocks apart placed
      rw [seven, nodeBundleSize] at this
      omega
    have pairs : (t.buckets i).pairs = first := by simp [Bundles.pairs, split, alone]
    have length := length_le_of_keyhash (T := intTemplate initialSize) rfl blocks distinct (i := i)
      (by
        intro key member
        obtain ⟨pair, inside, rfl⟩ := List.mem_map.mp member
        exact at_.placed pair (pairs ▸ inside))
    rw [List.length_map] at length
    rw [at_.total, pairs]
    have := ofNat_toInt_le first.length
    omega
  have := Table.load_le few t.count
  push_cast at this
  have pos := kept.pos
  omega

end RdmaIht.Hashtable
