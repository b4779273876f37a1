import RdmaIht.Iht.Representation
import RdmaIht.IntHash

/-! The depth of the shipped table, `RdmaIHT<int, int, 7, 128>`.

A hash is an `int` converted to 64 bits, so it lies in one of two windows of 2^31
numbers each, also after the level is mixed in. A P-List at depth 24 takes it modulo
2^30 - 1, so at most three numbers of a window share a bucket, and the seven slots of
an E-List are never all taken.
-/

set_option autoImplicit false

namespace RdmaIht.Iht

open Concurrency

theorem mixed_inWindows (level : Nat) (small : level < 2 ^ 31) (key : BitVec 32) :
    InWindows (BitVec.ofNat 64 level ^^^ key.signExtend 64).toNat := by
  have high : (BitVec.ofNat 64 level ^^^ key.signExtend 64).toNat / 2 ^ 31 = (key.signExtend 64).toNat / 2 ^ 31 := by
    rw [BitVec.toNat_xor, Nat.xor_div_two_pow, BitVec.toNat_ofNat, Nat.mod_eq_of_lt (by omega),
      Nat.div_eq_of_lt small, Nat.zero_xor]
  unfold InWindows
  rcases signExtend_windows key with low | top
  · left
    omega
  · right
    omega

/-! ## The shipped table -/

/-- `typedef RdmaIHT<int, int, CNF_ELIST_SIZE, CNF_PLIST_SIZE> IHT`. -/
def shipped : Template (BitVec 32) (BitVec 32) := intTemplate 7 128

theorem shipped_size : shipped.size 24 = 2 ^ 30 := rfl

/-- At most six keys share a bucket at depth 24. -/
theorem length_le_of_index {b : Nat} {keys : List (BitVec 32)} (distinct : keys.Nodup)
    (placed : ∀ key ∈ keys, shipped.index key 24 = b) : keys.length ≤ 6 := by
  have residue : ∀ key ∈ keys, (BitVec.ofNat 64 24 ^^^ key.signExtend 64).toNat % (2 ^ 30 - 1) = b := placed
  exact length_le_of_residue (q := 3) (by decide) (fun x y same => signExtend_injective ((BitVec.xor_right_inj _).mp same))
    (mixed_inWindows 24 (by decide)) distinct residue

theorem shipped_rehashes {root : RemotePtr} {t : Traversal} (rehashes : Rehashes shipped root 24 t) : t.depth < 24 := by
  obtain ⟨pool, op, home, σ, τ, m, b, bb, e, alone, full, within⟩ := rehashes
  have at_ : AtList shipped root home m pool t b bb e none := alone.inv
  refine Nat.lt_of_le_of_ne (within.depth_le (by decide) (by decide) at_.located) ?_
  intro deepest
  obtain ⟨_, el, stored, isCopy, settled⟩ := alone.point
  obtain ⟨el', stored', fits⟩ := at_.stored
  cases stored.symm.trans stored'
  have live : el.live.length = el.count := by
    rw [EList.live, List.length_take, Nat.min_eq_left fits.1]
  have few := length_le_of_index settled.agrees.distinct (b := b) (by
    intro key member
    obtain ⟨pair, inside, rfl⟩ := List.mem_map.mp member
    have leads := settled.agrees.inside pair inside
    rw [← deepest]
    exact leads.2)
  have many : 7 ≤ el.count := full el isCopy
  rw [List.length_map, live] at few
  omega

theorem shipped_size_le {t : Traversal} (deep : t.depth < 24) : shipped.size (t.depth + 1) ≤ 2 ^ 30 := by
  rw [← shipped_size]
  exact Nat.mul_le_mul_left _ (Nat.pow_le_pow_right (by decide) (by omega))

theorem shipped_buckets {root : RemotePtr} {t : Traversal} (rehashes : Rehashes shipped root 24 t) :
    shipped.buckets (t.count * 2 / 128) = some (shipped.size (t.depth + 1)) := by
  have small := shipped_size_le (shipped_rehashes rehashes)
  obtain ⟨pool, op, home, σ, τ, m, b, bb, e, alone, _⟩ := rehashes
  have at_ : AtList shipped root home m pool t b bb e none := alone.inv
  have count : t.count * 2 = shipped.size (t.depth + 1) := by
    rw [at_.located.count_eq, shipped.size_succ at_.located.depth_pos]
  rw [← count] at small ⊢
  exact (at_.located.buckets (by decide)).trans (if_pos (by omega))

theorem shipped_room (root : RemotePtr) : Room shipped root 24 := by
  intro t n rehashes buckets
  cases (shipped_buckets rehashes).symm.trans buckets
  exact shipped_size_le (shipped_rehashes rehashes)

/-- What the shipped table computes in `int` at a point with the traversal `t`. -/
structure InInt (m : Mem (BitVec 32) (BitVec 32)) (pc : Pc (BitVec 32) (BitVec 32)) (t : Traversal) : Prop where
  depth : t.depth ≤ 24
  shifts : 2 ^ (t.depth - 1) < 2 ^ 31 ∧ 2 ^ t.depth < 2 ^ 31
  rehash : ∀ b bb e, pc = .newPlist t b bb e →
    t.depth < 24 ∧ t.count * 2 / 128 < 2 ^ 31 ∧ 128 * (t.count * 2 / 128) < 2 ^ 31
  plists : ∀ p bs, m.plists p = some bs → bs.length ≤ shipped.size 24

theorem shipped_returns (host : Nat) {fuel : Nat} (enough : 1057 < fuel)
    (calls : List (Nat × IhtOp (BitVec 32) (BitVec 32))) :
    ∃ home σ m results, operations shipped (initAsFirst shipped host).1 fuel (initAsFirst shipped host).2 calls =
        .ok (m, results) ∧
      Between shipped (initAsFirst shipped host : RemotePtr × Mem (BitVec 32) (BitVec 32)).1 home σ m ∧
        Within shipped 24 m := by
  rcases (Between.start shipped host).operations (by decide) (by decide) (by decide) (shipped_room _)
      (.start shipped host 24) enough calls with ⟨_, t, rehashes, overflow⟩ | ⟨home, σ, m, done, between, within⟩
  · cases (shipped_buckets rehashes).symm.trans overflow
  · exact ⟨home, σ, m, _, done, between, within⟩

/-- In the shipped table every call returns, no P-List lies deeper than 24, and the
lengths and shifts that a call computes stay within `int`. -/
theorem shipped_in_int (host : Nat) {fuel : Nat} (enough : 1057 < fuel)
    (calls : List (Nat × IhtOp (BitVec 32) (BitVec 32))) :
    ∃ m results, operations shipped (initAsFirst shipped host).1 fuel (initAsFirst shipped host).2 calls =
        .ok (m, results) ∧
      ∀ pool op m' pc t, Reachable (advance shipped (initAsFirst shipped host).1 pool op) (m, .readRoot) (m', pc) →
        pc.traversal = some t → InInt m' pc t := by
  have room := shipped_room (initAsFirst shipped host : RemotePtr × Mem (BitVec 32) (BitVec 32)).1
  obtain ⟨home, σ, m, results, done, between, within⟩ := shipped_returns host enough calls
  refine ⟨m, results, done, ?_⟩
  intro pool op m' pc t reached at_
  obtain ⟨home', τ, alone, current, within'⟩ :=
    (between.solo pool op).visits (by decide) (by decide) room trivial within reached
  have located := alone.inv.located at_
  have deep : t.depth ≤ 24 := within'.depth_le (by decide) (by decide) located
  refine ⟨deep, ⟨Nat.pow_lt_pow_right (by decide) (by omega), Nat.pow_lt_pow_right (by decide) (by omega)⟩, ?_, within'⟩
  rintro b bb e rfl
  have rehashes : Rehashes shipped (initAsFirst shipped host : RemotePtr × Mem (BitVec 32) (BitVec 32)).1 24 t :=
    ⟨pool, op, home', σ, τ, m', b, bb, e, alone, current, within'⟩
  have product := shipped_buckets rehashes
  simp only [Template.buckets] at product
  split at product
  · next small =>
    have small : 128 * (t.count * 2 / 128) < 2 ^ 31 := small
    exact ⟨shipped_rehashes rehashes, by omega, small⟩
  · cases product

/-- The keys -1 and -2 hash into the upper window. -/
theorem shipped_in_int_negative : ∃ m results m' t,
    operations shipped (initAsFirst shipped 0).1 1058 (initAsFirst shipped 0).2 [(0, .insert (-1) 10)] =
      .ok (m, results) ∧
    Reachable (advance shipped (initAsFirst shipped 0).1 1 (.insert (-2) 20)) (m, .readRoot) (m', .acquire t) ∧
    InInt m' (.acquire t) t := by
  obtain ⟨m, results, done, points⟩ := @shipped_in_int 0 1058 (by decide) [(0, .insert (-1) 10)]
  have ran : ((operations shipped (initAsFirst shipped 0).1 1058 (initAsFirst shipped 0).2
      [(0, .insert (-1) 10)]).toOption.bind fun done =>
        advance shipped (initAsFirst shipped 0).1 1 (.insert (-2) 20) (done.1, .readRoot) ()).any
      (fun at_ => at_.2.acquiring.isSome) = true := by decide +kernel
  rw [done] at ran
  obtain ⟨⟨m', pc⟩, enabled, point⟩ := (Option.any_eq_true _ _).mp ran
  obtain ⟨t, acquires⟩ := Option.isSome_iff_exists.mp point
  obtain rfl := Pc.acquiring_eq_some.mp acquires
  have reached : Reachable (advance shipped (initAsFirst shipped 0).1 1 (.insert (-2) 20)) (m, .readRoot)
      (m', .acquire t) := .step () (.refl _) trivial enabled
  exact ⟨m, results, m', t, done, reached, points 1 _ m' _ t reached rfl⟩

end RdmaIht.Iht
