import Mathlib.Algebra.Order.Ring.Int

/-! Integer types of a fixed width, and the conversions between them.

A conversion keeps the number modulo two to the width of its target: it cuts bits
off, or repeats the sign of a signed source. A value that is converted and then
converted back is the same if the bits that were cut off can be told from the rest.
A loop whose counter is too narrow for its bound does not end.
-/

set_option autoImplicit false

namespace FixedWidth

structure IntType where
  signed : Bool
  width : Nat
  pos : 0 < width
  deriving DecidableEq, Repr

namespace IntType

def Range (ty : IntType) (n : Int) : Prop :=
  if ty.signed then -2 ^ (ty.width - 1) ≤ n ∧ n < 2 ^ (ty.width - 1) else 0 ≤ n ∧ n < 2 ^ ty.width

instance (ty : IntType) (n : Int) : Decidable (ty.Range n) :=
  inferInstanceAs (Decidable (if ty.signed = true then _ ∧ _ else _ ∧ _))

def reading {width : Nat} (ty : IntType) (x : BitVec width) : Int := if ty.signed then x.toInt else x.toNat

def convert (source target : IntType) (x : BitVec source.width) : BitVec target.width :=
  if source.signed then x.signExtend target.width else x.setWidth target.width

/-- A value of `ty` has a place in `narrow`: that type is no narrower, or the number
that `narrow` reads from the bits of the value is one of its numbers. -/
def Holds (narrow ty : IntType) (x : BitVec ty.width) : Prop :=
  ty.width ≤ narrow.width ∨ narrow.Range (narrow.reading x)

instance (narrow ty : IntType) (x : BitVec ty.width) : Decidable (narrow.Holds ty x) := by
  unfold Holds
  infer_instance

theorem holds_of_le {narrow ty : IntType} (wide : ty.width ≤ narrow.width) (x : BitVec ty.width) : narrow.Holds ty x :=
  .inl wide

variable {source target : IntType}

theorem convert_of_le (narrows : target.width ≤ source.width) (x : BitVec source.width) :
    source.convert target x = x.setWidth target.width := by
  unfold convert
  split
  · exact x.signExtend_eq_setWidth_of_le narrows
  · rfl

theorem convert_convert_of_le (wide : source.width ≤ target.width) (x : BitVec source.width) :
    target.convert source (source.convert target x) = x := by
  rw [convert_of_le wide]
  unfold convert
  split
  · apply BitVec.eq_of_getLsbD_eq
    intro i inside
    rw [BitVec.getLsbD_setWidth, BitVec.getLsbD_signExtend]
    have kept : i < target.width := by omega
    simp [inside, kept]
  · rw [BitVec.setWidth_setWidth_of_le x wide, BitVec.setWidth_eq]

theorem signExtend_setWidth_iff {v k : Nat} (narrower : k < v) (pos : 0 < k) (x : BitVec v) :
    (x.setWidth k).signExtend v = x ↔ -2 ^ (k - 1) ≤ x.toInt ∧ x.toInt < 2 ^ (k - 1) := by
  have half : (2 : Nat) ^ k = 2 * 2 ^ (k - 1) := by
    rw [← Nat.pow_succ', Nat.succ_eq_add_one, Nat.sub_add_cancel pos]
  have low : (x.setWidth k).toInt = x.toInt.bmod (2 ^ k) := by
    rw [BitVec.toInt_setWidth, BitVec.toInt_eq_toNat_bmod]
    exact (Int.bmod_bmod_of_dvd (Nat.pow_dvd_pow 2 (Nat.le_of_lt narrower))).symm
  have cast : ((2 ^ (k - 1) : Nat) : Int) = 2 ^ (k - 1) := by push_cast; rfl
  rw [← BitVec.toInt_inj, BitVec.toInt_signExtend_of_le (Nat.le_of_lt narrower), low, half, ← cast]
  have positive : 0 < 2 ^ (k - 1) := Nat.two_pow_pos _
  constructor
  · intro same
    have least := Int.le_bmod (x := x.toInt) (m := 2 * 2 ^ (k - 1)) (by omega)
    have most := Int.bmod_lt (x := x.toInt) (m := 2 * 2 ^ (k - 1)) (by omega)
    rw [same] at least most
    omega
  · rintro ⟨least, most⟩
    exact Int.bmod_eq_of_le (by omega) (by omega)

theorem setWidth_setWidth_iff {v k : Nat} (narrower : k < v) (x : BitVec v) :
    (x.setWidth k).setWidth v = x ↔ x.toNat < 2 ^ k := by
  have smaller : (2 : Nat) ^ k < 2 ^ v := Nat.pow_lt_pow_right (by decide) narrower
  rw [← BitVec.toNat_inj, BitVec.toNat_setWidth, BitVec.toNat_setWidth]
  have low : x.toNat % 2 ^ k < 2 ^ k := Nat.mod_lt _ (Nat.two_pow_pos k)
  rw [Nat.mod_eq_of_lt (Nat.lt_trans low smaller)]
  constructor
  · intro same
    rw [← same]
    exact low
  · exact Nat.mod_eq_of_lt

/-- A value survives a conversion and the conversion back just when the type in between holds it. -/
theorem convert_convert_iff (narrow ty : IntType) (x : BitVec ty.width) :
    narrow.convert ty (ty.convert narrow x) = x ↔ narrow.Holds ty x := by
  by_cases wide : ty.width ≤ narrow.width
  · exact iff_of_true (convert_convert_of_le wide x) (holds_of_le wide x)
  · have narrower : narrow.width < ty.width := by omega
    rw [convert_of_le (Nat.le_of_lt narrower)]
    simp only [Holds, wide, false_or, Range, reading, convert]
    cases narrow.signed with
    | true => exact signExtend_setWidth_iff narrower narrow.pos x
    | false =>
      simp only [Bool.false_eq_true, if_false]
      rw [setWidth_setWidth_iff narrower]
      constructor
      · intro small
        exact ⟨Int.natCast_nonneg _, by exact_mod_cast small⟩
      · rintro ⟨_, small⟩
        exact_mod_cast small

end IntType

/-! ## Loops with a counter -/

section Loop

variable {S ε : Type} {w : Nat}

/-- `for (uint n = 0; n < bound; n++)` from `n` on, where the bound is of a wider type and
the counter wraps. `none` when the loop has not ended after `fuel` passes. -/
def countLoop (bound : Int) (body : BitVec w → S → Except ε S) : Nat → BitVec w → S → Option (Except ε S)
  | 0, _, _ => none
  | fuel + 1, n, s =>
    if n.toNat < bound then
      match body n s with
      | .error e => some (.error e)
      | .ok s => countLoop bound body fuel (n + 1) s
    else some (.ok s)

variable {bound : Int} {body : BitVec w → S → Except ε S}

theorem countLoop_fuel {fuel : Nat} {n : BitVec w} {s : S} {r : Except ε S}
    (ended : countLoop bound body fuel n s = some r) (more : Nat) : countLoop bound body (fuel + more) n s = some r := by
  induction fuel generalizing n s with
  | zero => cases ended
  | succ fuel ih =>
    rw [Nat.succ_add]
    unfold countLoop at ended ⊢
    split at ended
    · next less =>
      rw [if_pos less]
      cases went : body n s with
      | error e =>
        rw [went] at ended
        exact ended
      | ok s' =>
        rw [went] at ended
        exact ih ended
    · next past =>
      rw [if_neg past]
      exact ended

theorem countLoop_unique {fuel fuel' : Nat} {n : BitVec w} {s : S} {r r' : Except ε S}
    (ended : countLoop bound body fuel n s = some r) (ended' : countLoop bound body fuel' n s = some r') : r = r' := by
  have long := countLoop_fuel ended fuel'
  rw [Nat.add_comm, countLoop_fuel ended' fuel] at long
  exact (Option.some.inj long).symm

theorem countLoop_inv {I : Nat → S → Prop} (small : bound < 2 ^ w)
    (step : ∀ k s, k < bound.toNat → I k s → ∃ s', body (.ofNat w k) s = .ok s' ∧ I (k + 1) s') {s : S} (start : I 0 s) :
    ∃ fuel s', countLoop bound body fuel 0 s = some (.ok s') ∧ I bound.toNat s' := by
  have low : ∀ k, k ≤ bound.toNat → (BitVec.ofNat w k).toNat = k := by
    intro k le
    rw [BitVec.toNat_ofNat, Nat.mod_eq_of_lt]
    have cast : ((2 ^ w : Nat) : Int) = 2 ^ w := by push_cast; rfl
    have positive := Nat.two_pow_pos w
    omega
  -- from pass `k` on, with `left` passes to go
  have rest : ∀ left k s, k + left = bound.toNat → I k s →
      ∃ s', countLoop bound body (left + 1) (.ofNat w k) s = some (.ok s') ∧ I bound.toNat s' := by
    intro left
    induction left with
    | zero =>
      intro k s here inv
      refine ⟨s, ?_, by rw [← here]; exact inv⟩
      unfold countLoop
      rw [if_neg]
      rw [low k (Nat.le_of_eq here)]
      omega
    | succ left ih =>
      intro k s here inv
      obtain ⟨s', went, inv'⟩ := step k s (by omega) inv
      obtain ⟨s'', ended, last⟩ := ih (k + 1) s' (by omega) inv'
      refine ⟨s'', ?_, last⟩
      unfold countLoop
      rw [if_pos (by rw [low k (by omega)]; omega), went]
      have next : BitVec.ofNat w k + 1 = BitVec.ofNat w (k + 1) := (BitVec.ofNat_add ..).symm
      rw [next]
      exact ended
  obtain ⟨s', ended, last⟩ := rest bound.toNat 0 s (Nat.zero_add _) start
  exact ⟨bound.toNat + 1, s', ended, last⟩

/-- A counter that cannot reach the bound never ends the loop. -/
theorem countLoop_wraps (large : 2 ^ w ≤ bound) (fuel : Nat) (n : BitVec w) (s s' : S) :
    countLoop bound body fuel n s ≠ some (.ok s') := by
  induction fuel generalizing n s with
  | zero => simp [countLoop]
  | succ fuel ih =>
    have less : (n.toNat : Int) < bound := by
      have low : (n.toNat : Int) < 2 ^ w := by exact_mod_cast n.isLt
      exact Int.lt_of_lt_of_le low large
    unfold countLoop
    rw [if_pos less]
    cases body n s with
    | error e => simp
    | ok s₁ => exact ih (n + 1) s₁

end Loop

end FixedWidth
