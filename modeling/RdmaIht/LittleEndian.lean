import Mathlib.Tactic.Ring

/-! Numbers as bytes, the lowest byte first. -/

set_option autoImplicit false

namespace LittleEndian

/-- The lowest `n` bytes of a number. -/
def bytes : Nat → Nat → List (BitVec 8)
  | 0, _ => []
  | n + 1, x => BitVec.ofNat 8 x :: bytes n (x / 256)

def number : List (BitVec 8) → Nat
  | [] => 0
  | b :: rest => b.toNat + 256 * number rest

@[simp] theorem length_bytes (n x : Nat) : (bytes n x).length = n := by
  induction n generalizing x with
  | zero => rfl
  | succ n ih => simp [bytes, ih]

theorem number_bytes {n x : Nat} (small : x < 256 ^ n) : number (bytes n x) = x := by
  induction n generalizing x with
  | zero => simp only [Nat.pow_zero, Nat.lt_one_iff] at small; simp [bytes, number, small]
  | succ n ih =>
    have high : x / 256 < 256 ^ n := Nat.div_lt_of_lt_mul (by rwa [Nat.pow_succ, Nat.mul_comm] at small)
    simp only [bytes, number, ih high, BitVec.toNat_ofNat]
    omega

theorem bytes_number (l : List (BitVec 8)) : bytes l.length (number l) = l := by
  induction l with
  | nil => rfl
  | cons b rest ih =>
    have low : BitVec.ofNat 8 (b.toNat + 256 * number rest) = b := by
      apply BitVec.eq_of_toNat_eq
      rw [BitVec.toNat_ofNat]
      have := b.isLt
      omega
    have high : (b.toNat + 256 * number rest) / 256 = number rest := by
      have := b.isLt
      omega
    rw [List.length_cons, bytes, number, low, high, ih]

end LittleEndian
