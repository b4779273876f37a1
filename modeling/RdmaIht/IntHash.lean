import Mathlib.Data.List.Nodup
import Mathlib.Data.List.Perm.Subperm
import Mathlib.Data.Nat.ModEq

/-! How many `int` keys share a bucket.

`std::hash<int>` converts an `int` to 64 bits, so that a hash lies in one of two
windows of 2^31 numbers each. A window has no more numbers of one residue than it
has blocks of the modulus.
-/

set_option autoImplicit false

namespace RdmaIht

theorem eq_of_mod_of_div {n start x y : Nat} (fromX : start ≤ x) (fromY : start ≤ y)
    (residue : x % n = y % n) (block : (x - start) / n = (y - start) / n) : x = y := by
  have same : (x - start) % n = (y - start) % n := by
    have shifted : Nat.ModEq n (x - start) (y - start) := by
      refine Nat.ModEq.add_right_cancel' start ?_
      rw [Nat.sub_add_cancel fromX, Nat.sub_add_cancel fromY]
      exact residue
    exact shifted
  have split := Nat.div_add_mod (x - start) n
  rw [block, same, Nat.div_add_mod] at split
  omega

def InWindows (x : Nat) : Prop := x < 2 ^ 31 ∨ 2 ^ 64 - 2 ^ 31 ≤ x

/-- A number of the windows by its window and its block of `n` there, where a window has `q` blocks. -/
def spread (n q x : Nat) : Nat := if x < 2 ^ 31 then x / n else q + (x - (2 ^ 64 - 2 ^ 31)) / n

theorem spread_lt {n q x : Nat} (blocks : 2 ^ 31 ≤ n * q) (bound : x < 2 ^ 64) : spread n q x < 2 * q := by
  unfold spread
  split
  · have inside : x / n < q := Nat.div_lt_of_lt_mul (by omega)
    omega
  · have inside : (x - (2 ^ 64 - 2 ^ 31)) / n < q := Nat.div_lt_of_lt_mul (by omega)
    omega

theorem spread_inj {n q x y : Nat} (blocks : 2 ^ 31 ≤ n * q) (inX : InWindows x) (inY : InWindows y)
    (residue : x % n = y % n) (same : spread n q x = spread n q y) : x = y := by
  have low : ∀ z, z < 2 ^ 31 → z / n < q := fun z small => Nat.div_lt_of_lt_mul (by omega)
  unfold spread at same
  unfold InWindows at inX inY
  by_cases lowX : x < 2 ^ 31 <;> by_cases lowY : y < 2 ^ 31
  · rw [if_pos lowX, if_pos lowY] at same
    exact eq_of_mod_of_div (Nat.zero_le _) (Nat.zero_le _) residue same
  · rw [if_pos lowX, if_neg lowY] at same
    exact absurd same (Nat.ne_of_lt (Nat.lt_add_right _ (low x lowX)))
  · rw [if_neg lowX, if_pos lowY] at same
    exact absurd same (Nat.ne_of_gt (Nat.lt_add_right _ (low y lowY)))
  · rw [if_neg lowX, if_neg lowY] at same
    exact eq_of_mod_of_div (inX.resolve_left lowX) (inY.resolve_left lowY) residue (by omega)

theorem length_le_of_residue {n q r : Nat} (blocks : 2 ^ 31 ≤ n * q) {hash : BitVec 32 → BitVec 64}
    (injective : ∀ x y, hash x = hash y → x = y) (windows : ∀ key, InWindows (hash key).toNat) {keys : List (BitVec 32)}
    (distinct : keys.Nodup) (residue : ∀ key ∈ keys, (hash key).toNat % n = r) : keys.length ≤ 2 * q := by
  have apart : (keys.map fun key => spread n q (hash key).toNat).Nodup := by
    refine List.Nodup.map_on ?_ distinct
    intro x inX y inY same
    have equal := spread_inj blocks (windows x) (windows y) ((residue x inX).trans (residue y inY).symm) same
    exact injective x y (BitVec.eq_of_toNat_eq equal)
  have inside : (keys.map fun key => spread n q (hash key).toNat) ⊆ List.range (2 * q) := by
    intro code member
    obtain ⟨key, _, rfl⟩ := List.mem_map.mp member
    exact List.mem_range.mpr (spread_lt blocks (BitVec.isLt _))
  simpa using (List.Nodup.subperm apart inside).length_le

theorem signExtend_windows (key : BitVec 32) :
    (key.signExtend 64).toNat / 2 ^ 31 = 0 ∨ (key.signExtend 64).toNat / 2 ^ 31 = 2 ^ 33 - 1 := by
  have bound := key.isLt
  rw [BitVec.toNat_signExtend, BitVec.toNat_setWidth, BitVec.msb_eq_decide]
  simp only [decide_eq_true_eq]
  split <;> omega

theorem signExtend_inWindows (key : BitVec 32) : InWindows (key.signExtend 64).toNat := by
  unfold InWindows
  rcases signExtend_windows key with low | top
  · omega
  · omega

theorem signExtend_injective {x y : BitVec 32} (same : x.signExtend 64 = y.signExtend 64) : x = y := by
  have ints := congrArg BitVec.toInt same
  rw [BitVec.toInt_signExtend_of_le (by decide), BitVec.toInt_signExtend_of_le (by decide)] at ints
  exact BitVec.eq_of_toInt_eq ints

end RdmaIht
