import Mathlib.Algebra.BigOperators.Group.Finset.Piecewise
import Mathlib.Algebra.Order.BigOperators.Group.Finset
import RdmaIht.Hashtable.Lookups

/-! How far a `Hashtable` is resized.

A `try_rehash` doubles the buckets only when there are ten pairs for each of them. So
there are never more buckets than a fifth of the inserts that were called, and calls of
`try_rehash` one after the other soon leave the table as it is.
-/

set_option autoImplicit false

namespace RdmaIht.Hashtable

variable {K V : Type} [DecidableEq K] {T : Template K V}

/-! ## The number of pairs -/

theorem Bundles.length_apply_le (b : Bundles K V) (op : IhtOp K V) :
    (b.apply T op).1.pairs.length ≤ b.pairs.length + if op.isInsert then 1 else 0 := by
  have nodes : ((applyNodes T op b.nodes).1).flatten.length ≤ b.nodes.flatten.length + if op.isInsert then 1 else 0 := by
    rcases applyNodes_cases (T := T) op b.nodes with ⟨res, same⟩ | ⟨key, value, nodes', res, rfl, same, perm, _⟩ |
      ⟨key, pair, nodes', res, rfl, same, _, perm, _⟩
    · rw [same]
      exact Nat.le_add_right _ _
    · rw [same, perm.length_eq]
      exact Nat.le_refl _
    · rw [same, perm.length_eq]
      exact Nat.le_add_right_of_le (Nat.le_succ _)
  rw [pairs, pairs_apply]
  exact nodes

namespace Table

def size (t : Table K V) : Nat := ∑ i ∈ Finset.range t.count, (t.buckets i).pairs.length

theorem size_apply_le (t : Table K V) (op : IhtOp K V) : (t.apply T op).1.size ≤ t.size + if op.isInsert then 1 else 0 := by
  have each : ∀ i, ((t.apply T op).1.buckets i).pairs.length ≤
      (t.buckets i).pairs.length + if i = T.keyhash op.key t.count then (if op.isInsert then 1 else 0) else 0 := by
    intro i
    simp only [Table.apply, Function.update_apply]
    split
    · next here =>
      rw [here]
      exact Bundles.length_apply_le _ op
    · exact Nat.le_refl _
  calc (t.apply T op).1.size
      ≤ ∑ i ∈ Finset.range t.count, ((t.buckets i).pairs.length +
          if i = T.keyhash op.key t.count then (if op.isInsert then 1 else 0) else 0) := Finset.sum_le_sum fun i _ => each i
    _ ≤ t.size + if op.isInsert then 1 else 0 := by
      rw [Finset.sum_add_distrib, Finset.sum_ite_eq']
      exact Nat.add_le_add_left (by split <;> omega) _

theorem size_add_le (pairs : List (Pair K V)) (t : Table K V) : (t.add T pairs).size ≤ t.size + pairs.length := by
  induction pairs generalizing t with
  | nil => exact Nat.le_refl _
  | cons pair rest ih =>
    have first := t.size_apply_le (T := T) (.insert pair.key pair.val)
    have others := ih (t.apply T (.insert pair.key pair.val)).1
    rw [List.length_cons]
    simp only [IhtOp.isInsert, if_true] at first
    exact Nat.le_trans others (by omega)

omit [DecidableEq K] in
theorem length_all (t : Table K V) : t.all.length = t.size := by
  have upTo : ∀ n, ((List.range n).flatMap fun i => (t.buckets i).pairs).length =
      ∑ i ∈ Finset.range n, (t.buckets i).pairs.length := by
    intro n
    induction n with
    | zero => rfl
    | succ n ih =>
      rw [List.range_succ, List.flatMap_append, List.length_append, ih, List.flatMap_singleton, Finset.sum_range_succ]
  exact upTo t.count

theorem size_rehashed_le (t : Table K V) : (t.rehashed T).size ≤ t.size := by
  have added := size_add_le (T := T) t.all t.doubled
  have empty : t.doubled.size = 0 := Finset.sum_eq_zero fun _ _ => rfl
  rw [length_all, empty, Nat.zero_add] at added
  exact added

omit [DecidableEq K] in
theorem Kept.load_le_size {t : Table K V} (kept : t.Kept T) : t.load t.count ≤ t.size := by
  have upTo : ∀ n, t.load n ≤ ∑ i ∈ Finset.range n, (t.buckets i).pairs.length := by
    intro n
    induction n with
    | zero => simp [load]
    | succ n ih =>
      rw [load_succ, Finset.sum_range_succ, (kept.bucket n).total]
      have last := ofNat_toInt_le (t.buckets n).pairs.length
      push_cast at ih ⊢
      omega
  exact upTo t.count

/-! ## The number of buckets -/

structure Grown (T : Template K V) (inserts : Nat) (t : Table K V) : Prop where
  kept : t.Kept T
  size : t.size ≤ inserts
  count : ∃ k, t.count = T.initialSize * 2 ^ k ∧ (k = 0 ∨ t.count * 5 ≤ inserts)

variable {t : Table K V} {n : Nat}

omit [DecidableEq K] in
theorem Grown.full_le (grown : t.Grown T n) (full : t.Full) : t.count * 10 ≤ n := by
  have reaches := Int.not_lt.mp full
  have load := grown.kept.load_le_size
  have size := grown.size
  omega

theorem Grown.rehashed (grown : t.Grown T n) (full : t.Full) : (t.rehashed T).Grown T n := by
  obtain ⟨k, power, _⟩ := grown.count
  refine ⟨grown.kept.rehashed, Nat.le_trans t.size_rehashed_le grown.size, k + 1, ?_, .inr ?_⟩
  · rw [count_rehashed, power, Nat.pow_succ, Nat.mul_assoc]
  · have reached := grown.full_le full
    rw [count_rehashed]
    omega

theorem Grown.tryRehash (grown : t.Grown T n) : (t.tryRehash T).Grown T n := by
  unfold Table.tryRehash
  split
  · next full => exact grown.rehashed full
  · exact grown

omit [DecidableEq K] in
theorem Grown.init (positive : 1 ≤ T.initialSize) : (Table.init T).Grown T 0 where
  kept := .init positive
  size := Nat.le_of_eq (Finset.sum_eq_zero fun _ _ => rfl)
  count := ⟨0, by simp [Table.init], .inl rfl⟩

def inserts (cs : List (Nat × Call K V)) : Nat := cs.countP fun call => call.2.op?.any IhtOp.isInsert

theorem Grown.perform (grown : t.Grown T n) (isHost : Bool) (call : Call K V) :
    (t.perform T isHost call).1.Grown T (n + if call.op?.any IhtOp.isInsert then 1 else 0) := by
  cases call with
  | operation op =>
    obtain ⟨k, power, few⟩ := grown.count
    refine ⟨grown.kept.apply op, Nat.le_trans (t.size_apply_le op) (Nat.add_le_add_right grown.size _), k, power, ?_⟩
    exact few.imp_right fun few => Nat.le_add_right_of_le few
  | tryRehash =>
    change (if isHost then t.tryRehash T else t).Grown T n
    split
    · exact grown.tryRehash
    · exact grown

theorem Grown.calls (host : Nat) (grown : t.Grown T n) (cs : List (Nat × Call K V)) :
    (t.calls T host cs).1.Grown T (n + inserts cs) := by
  induction cs generalizing t n with
  | nil => exact grown
  | cons call rest ih =>
    obtain ⟨pool, call⟩ := call
    have after := ih (grown.perform (host == pool) call)
    rw [inserts, List.countP_cons, Nat.add_comm (List.countP _ rest), ← Nat.add_assoc]
    exact after

/-! ## Calls of `try_rehash` one after the other -/

theorem calls_append (host : Nat) (t : Table K V) (cs more : List (Nat × Call K V)) :
    (t.calls T host (cs ++ more)).1 = ((t.calls T host cs).1.calls T host more).1 := by
  induction cs generalizing t with
  | nil => rfl
  | cons call rest ih => exact ih _

theorem calls_tryRehash_succ (host n : Nat) (t : Table K V) :
    (t.calls T host (List.replicate (n + 1) (host, .tryRehash))).1 =
      ((t.tryRehash T).calls T host (List.replicate n (host, .tryRehash))).1 := by
  simp [List.replicate_succ, Table.calls, Table.perform]

theorem calls_tryRehash_idle (host n : Nat) (idle : ¬ t.Full) :
    (t.calls T host (List.replicate n (host, .tryRehash))).1 = t := by
  induction n with
  | zero => rfl
  | succ n ih =>
    rw [calls_tryRehash_succ, Table.tryRehash, if_neg idle]
    exact ih

/-- Each of the calls has doubled the buckets, or the last of them would find nothing to do. -/
theorem calls_tryRehash (host n : Nat) (t : Table K V) :
    ¬ (t.calls T host (List.replicate n (host, .tryRehash))).1.Full ∨
      (t.calls T host (List.replicate n (host, .tryRehash))).1.count = t.count * 2 ^ n := by
  induction n generalizing t with
  | zero => exact .inr (Nat.mul_one _).symm
  | succ n ih =>
    by_cases full : t.Full
    · rw [calls_tryRehash_succ, Table.tryRehash, if_pos full]
      have rest := ih (t.rehashed T)
      rw [count_rehashed, Nat.mul_assoc, ← Nat.pow_succ'] at rest
      exact rest
    · rw [calls_tryRehash_idle host (n + 1) full]
      exact .inl full

theorem Grown.resized (host k : Nat) (grown : t.Grown T n) :
    (t.calls T host (List.replicate k (host, .tryRehash))).1.Grown T n := by
  induction k generalizing t with
  | zero => exact grown
  | succ k ih =>
    rw [calls_tryRehash_succ]
    exact ih grown.tryRehash

theorem Grown.settles (host : Nat) {inserts k : Nat} (grown : t.Grown T inserts)
    (enough : inserts < T.initialSize * 10 * 2 ^ k) :
    ¬ (t.calls T host (List.replicate k (host, .tryRehash))).1.Full := by
  intro full
  have many := (grown.resized host k).full_le full
  rw [(calls_tryRehash host k t).resolve_left (not_not.mpr full)] at many
  obtain ⟨j, power, _⟩ := grown.count
  have least : T.initialSize ≤ t.count := power ▸ Nat.le_mul_of_pos_right _ (Nat.two_pow_pos j)
  have scaled : T.initialSize * 10 * 2 ^ k ≤ t.count * 2 ^ k * 10 := by
    calc T.initialSize * 10 * 2 ^ k ≤ t.count * 10 * 2 ^ k := Nat.mul_le_mul_right _ (Nat.mul_le_mul_right _ least)
      _ = t.count * 2 ^ k * 10 := Nat.mul_right_comm ..
  omega

end Table

/-! ## The calls of the machine -/

section IntKeys

variable {initialSize : Nat}

/-- After any calls, as many further ones of `try_rehash` as double the initial size past a tenth of the
inserts bring the load under its limit, so that each later one finds nothing to do. The buckets
are the initial ones doubled so many times, and but for those never more than a fifth of the inserts. -/
theorem resizes_settle (positive : 1 ≤ initialSize) (host : Nat) (cs : List (Nat × Call (BitVec 32) (BitVec 32))) (k : Nat)
    (enough : Table.inserts cs < initialSize * 10 * 2 ^ k) : ∃ fuel m results sets,
      calls (intTemplate initialSize) (initial (intTemplate initialSize) host).root fuel
        (initial (intTemplate initialSize) host).mem (cs ++ List.replicate k (host, .tryRehash)) = .ok (m, results) ∧
      m.arrays m.root.bucketStart = some sets ∧ m.totalElements sets < m.root.count * 10 ∧
      (∃ j, m.root.count = initialSize * 2 ^ j ∧ (j = 0 ∨ m.root.count * 5 ≤ Table.inserts cs)) ∧
      ∃ fuel', perform (intTemplate initialSize) (initial (intTemplate initialSize) host).root fuel' m host .tryRehash =
        .ok (m, none) := by
  obtain ⟨fuel, m, done, between, _⟩ := Between.run positive host (cs ++ List.replicate k (host, .tryRehash))
  have before := (Table.Grown.init (T := intTemplate initialSize) positive).calls host cs
  rw [Nat.zero_add] at before
  have settled := before.settles host enough
  have after := before.resized host k
  rw [Table.calls_append] at between
  revert between settled after
  generalize (((Table.init (intTemplate initialSize)).calls (intTemplate initialSize) host cs).1.calls
    (intTemplate initialSize) host (List.replicate k (host, .tryRehash))).1 = t
  intro between settled after
  obtain ⟨sets, stored, _, count⟩ := between.root_sets
  obtain ⟨fuel', m', done', _, same, _⟩ := between.tryRehash host after.kept.small
  refine ⟨fuel, m, _, sets, done, stored, ?_, ?_, fuel', ?_⟩
  · rw [between.totalElements_eq stored, count]
    exact not_not.mp settled
  · rw [count]
    exact after.count
  · rw [same settled] at done'
    exact perform_host done'

/-- Ten inserts into one bucket, and two calls of `try_rehash`. -/
theorem resizes_settle_tenCalls : ∃ fuel m results,
    calls (intTemplate 1) (initial (intTemplate 1) 0).root fuel (initial (intTemplate 1) 0).mem
      (tenCalls ++ List.replicate 2 (0, .tryRehash)) = .ok (m, results) ∧
    ∃ fuel', perform (intTemplate 1) (initial (intTemplate 1) 0).root fuel' m 0 .tryRehash = .ok (m, none) := by
  obtain ⟨fuel, m, results, _, done, _, _, _, last⟩ := resizes_settle (Nat.le_refl 1) 0 tenCalls 2 (by decide)
  exact ⟨fuel, m, results, done, last⟩

end IntKeys

end RdmaIht.Hashtable
