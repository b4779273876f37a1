import RdmaIht.FixedWidth
import RdmaIht.Iht.Progress

/-! The values that `RdmaIHT` returns, for keys and values of any two integer types.

The three operations keep the value they found in a variable of the type of the
keys, `K result = e->pairs[i].val`, and return it as a value. Nothing else on the
way of a value changes it, so that a value is returned as it was stored just when
the type of the keys holds it.
-/

set_option autoImplicit false

namespace RdmaIht.Iht

open FixedWidth

variable {K V : Type} [DecidableEq K]

/-- `RdmaIHT<K, V, ELIST_SIZE, PLIST_SIZE>` for integer types, with any `std::hash<K>`. -/
def integerTemplate (key value : IntType) (hash : BitVec key.width → BitVec 64) (elistSize plistSize : Nat) :
    Template (BitVec key.width) (BitVec value.width) where
  elistSize := elistSize
  plistSize := plistSize
  preHash := hash
  toKey := value.convert key
  toValue := key.convert value
  zero := 0

/-! ## What calls report and what they read -/

def Reports : IhtOp K V → HtRes V → Prop
  | .contains _, res | .remove _, res => res.status = .trueState
  | .insert _ _, res => res.status = .falseState

/-- The value that the last successful insert of each key was passed, after one more call. -/
def noteInsert (last : FiniteMap K V) : IhtOp K V → HtRes V → FiniteMap K V
  | .insert key value, res => if res.status = .trueState then Function.update last key (some value) else last
  | .contains _, _ | .remove _, _ => last

/-- In these calls with their answers, every value reported is the one that the last
successful insert of the key was passed; `last` gives it for the calls before. -/
def Exact (last : FiniteMap K V) : List (IhtOp K V × HtRes V) → Prop
  | [] => True
  | (op, res) :: rest =>
    (Reports op res → last op.key = some res.result) ∧ Exact (noteInsert last op res) rest

/-- The keys with their values after one more call. A key that is present keeps its value. -/
def FiniteMap.after (present : FiniteMap K V) : IhtOp K V → FiniteMap K V
  | .contains _ => present
  | .insert key value => if (present key).isSome then present else Function.update present key (some value)
  | .remove key => Function.update present key none

/-- Calls on a key that is present only meet values with `ok`. -/
def MeetsOnly (ok : V → Prop) (present : FiniteMap K V) : List (IhtOp K V) → Prop
  | [] => True
  | op :: rest => (∀ value ∈ present op.key, ok value) ∧ MeetsOnly ok (FiniteMap.after present op) rest

instance decidableMeetsOnly (ok : V → Prop) [DecidablePred ok] :
    (present : FiniteMap K V) → (ops : List (IhtOp K V)) → Decidable (MeetsOnly ok present ops)
  | _, [] => .isTrue trivial
  | present, op :: rest =>
    have := decidableMeetsOnly ok (FiniteMap.after present op) rest
    inferInstanceAs (Decidable (_ ∧ _))

theorem FiniteMap.apply_fst (zero : V) (present : FiniteMap K V) (op : IhtOp K V) :
    (present.apply zero op).1 = FiniteMap.after present op := by
  cases op with
  | contains key => cases found : present key <;> simp [FiniteMap.apply, FiniteMap.after, found]
  | insert key value => cases found : present key <;> simp [FiniteMap.apply, FiniteMap.after, found]
  | remove key =>
    cases found : present key with
    | none =>
      have gone : Function.update present key none = present := by rw [← found, Function.update_eq_self]
      simp [FiniteMap.apply, FiniteMap.after, found, gone]
    | some value => simp [FiniteMap.apply, FiniteMap.after, found]

section Step

variable {T : Template K V} {present last : FiniteMap K V} {op : IhtOp K V}

theorem reports_present {value : V} (found : present op.key = some value) :
    Reports op (T.spec.apply present op).2 ∧ (T.spec.apply present op).2.result = T.toValue (T.toKey value) := by
  cases op with
  | contains key | insert key new | remove key =>
    simp only [IhtOp.key] at found
    simp [Reports, Template.spec, FiniteMap.apply, IhtOp.key, found]

theorem reports_absent (none : present op.key = none) : ¬ Reports op (T.spec.apply present op).2 := by
  cases op with
  | contains key | insert key new | remove key =>
    simp only [IhtOp.key] at none
    simp [Reports, Template.spec, FiniteMap.apply, IhtOp.key, none]

/-- The value of a key that is present is the one its last successful insert was passed. -/
theorem noteInsert_present (agree : ∀ key value, present key = some value → last key = some value) :
    ∀ key value, FiniteMap.after present op key = some value →
      noteInsert last op (T.spec.apply present op).2 key = some value := by
  intro key value found
  cases op with
  | contains k => exact agree key value found
  | insert k new =>
    cases old : present k with
    | some v =>
      simp only [FiniteMap.after, old, Option.isSome_some, if_true] at found
      have stays : noteInsert last (.insert k new) (T.spec.apply present (.insert k new)).2 = last := by
        simp [noteInsert, Template.spec, FiniteMap.apply, IhtOp.key, old]
      rw [stays]
      exact agree key value found
    | none =>
      simp only [FiniteMap.after, old, Option.isSome_none, Bool.false_eq_true, if_false, Function.update_apply] at found
      simp only [noteInsert, Template.spec, FiniteMap.apply, IhtOp.key, old, if_true, Function.update_apply]
      split at found
      · next here => rw [if_pos here]; exact found
      · next other => rw [if_neg other]; exact agree key value found
  | remove k =>
    simp only [FiniteMap.after, Function.update_apply] at found
    split at found
    · cases found
    · exact agree key value found

/-- The answers of the map are exact just when no call meets a value that the conversions change. -/
theorem exact_iff_meetsOnly (ops : List (IhtOp K V))
    (agree : ∀ key value, present key = some value → last key = some value) :
    Exact last (ops.zip (T.spec.results present ops)) ↔ MeetsOnly (fun value => T.toValue (T.toKey value) = value) present ops := by
  induction ops generalizing present last with
  | nil => exact Iff.rfl
  | cons op rest ih =>
    have kept : ∀ key value, FiniteMap.after present op key = some value →
        noteInsert last op (T.spec.apply present op).2 key = some value := noteInsert_present agree
    have tail := ih kept
    have next : (T.spec.apply present op).1 = FiniteMap.after present op := FiniteMap.apply_fst T.zero present op
    simp only [Concurrency.SeqSpec.results, List.zip_cons_cons, Exact, MeetsOnly, next, tail]
    refine and_congr_left fun _ => ?_
    cases found : present op.key with
    | none =>
      simp [reports_absent found]
    | some value =>
      obtain ⟨reports, result⟩ := reports_present (T := T) found
      rw [agree _ _ found, result]
      constructor
      · intro exact_ stored same
        cases same
        exact (Option.some.inj (exact_ reports)).symm
      · intro kept _
        rw [kept value rfl]

end Step

theorem MeetsOnly.congr {ok ok' : V → Prop} (same : ∀ value, ok value ↔ ok' value) {present : FiniteMap K V}
    {ops : List (IhtOp K V)} : MeetsOnly ok present ops ↔ MeetsOnly ok' present ops := by
  rw [funext fun value => propext (same value)]

/-! ## Calls made in turn -/

section Calls

variable {key value : IntType}

/-- Calls made in turn, on any pools, return exactly the stored values just when
the type of the keys holds every value that a call meets, while the lengths of
the P-Lists stay within `int`. -/
theorem results_exact_iff (hash : BitVec key.width → BitVec 64) {elistSize plistSize : Nat} (plist : 2 ≤ plistSize)
    (elist : 1 ≤ elistSize) (host : Nat) {fuel : Nat} (enough : 31 * (2 * elistSize + 30) + 1 < fuel)
    (calls : List (Nat × IhtOp (BitVec key.width) (BitVec value.width))) :
    operations (integerTemplate key value hash elistSize plistSize)
        (initAsFirst (integerTemplate key value hash elistSize plistSize) host).1 fuel
        (initAsFirst (integerTemplate key value hash elistSize plistSize) host).2 calls = .error .intOverflow ∨
      ∃ m results, operations (integerTemplate key value hash elistSize plistSize)
          (initAsFirst (integerTemplate key value hash elistSize plistSize) host).1 fuel
          (initAsFirst (integerTemplate key value hash elistSize plistSize) host).2 calls = .ok (m, results) ∧
        (Exact .empty ((calls.map (·.2)).zip results) ↔ MeetsOnly (key.Holds value) .empty (calls.map (·.2))) := by
  have between := Between.start (integerTemplate key value hash elistSize plistSize) host
  have room := Room.int (T := integerTemplate key value hash elistSize plistSize) plist
    (initAsFirst (integerTemplate key value hash elistSize plistSize) host).1
  rcases between.operations plist elist (by decide) room (.start _ host 31) enough calls with
    ⟨overflow, _⟩ | ⟨_, _, m, done, _⟩
  · exact .inl overflow
  · refine .inr ⟨m, _, done, ?_⟩
    rw [exact_iff_meetsOnly _ fun _ _ found => found]
    exact MeetsOnly.congr fun stored => IntType.convert_convert_iff key value stored

end Calls

def int32 : IntType := ⟨true, 32, by decide⟩

def int64 : IntType := ⟨true, 64, by decide⟩

/-- `RdmaIHT<int32_t, int64_t, 1, 2>` -/
def wideValues : Template (BitVec 32) (BitVec 64) := integerTemplate int32 int64 (fun key => key.signExtend 64) 1 2

/-- A small value, read through a copy by the client of another pool. -/
def smallValue : List (Nat × IhtOp (BitVec 32) (BitVec 64)) := [(0, .insert 1 (-5)), (1, .insert 1 7), (1, .remove 1)]

theorem results_exact_iff_smallValue : ∃ m results,
    operations wideValues (initAsFirst wideValues 0).1 994 (initAsFirst wideValues 0).2 smallValue = .ok (m, results) ∧
      Exact .empty ((smallValue.map (·.2)).zip results) := by
  have returns : (operations wideValues (initAsFirst wideValues 0).1 994 (initAsFirst wideValues 0).2 smallValue).isOk =
      true := by decide +kernel
  rcases @results_exact_iff int32 int64 (fun key => key.signExtend 64) 1 2 (by decide) (by decide) 0 994 (by decide)
    smallValue with overflow | ⟨m, results, done, exact_⟩
  · have failed : operations wideValues (initAsFirst wideValues 0).1 994 (initAsFirst wideValues 0).2 smallValue =
      .error .intOverflow := overflow
    rw [failed] at returns
    cases returns
  · exact ⟨m, results, done, exact_.mpr (by decide +kernel)⟩

/-- The value 2^32, whose low 32 bits are 0. -/
def wideValue : List (Nat × IhtOp (BitVec 32) (BitVec 64)) := [(0, .insert 1 4294967296), (0, .contains 1)]

theorem results_not_exact : ∃ m,
    operations wideValues (initAsFirst wideValues 0).1 994 (initAsFirst wideValues 0).2 wideValue =
      .ok (m, [⟨.trueState, 0⟩, ⟨.trueState, 0⟩]) ∧
    ¬ Exact .empty ((wideValue.map (·.2)).zip [⟨.trueState, 0⟩, ⟨.trueState, 0⟩]) := by
  have ran : ((operations wideValues (initAsFirst wideValues 0).1 994 (initAsFirst wideValues 0).2 wideValue).toOption.map
      (·.2)) = some [⟨.trueState, 0⟩, ⟨.trueState, 0⟩] := by decide +kernel
  cases same : operations wideValues (initAsFirst wideValues 0).1 994 (initAsFirst wideValues 0).2 wideValue with
  | error fault => rw [same] at ran; cases ran
  | ok final =>
    obtain ⟨m, results⟩ := final
    rw [same] at ran
    cases ran
    refine ⟨m, rfl, ?_⟩
    intro exact_
    have reads := exact_.2.1 rfl
    cases reads

end RdmaIht.Iht
