import RdmaIht.Iht.Shipped

/-! `Client::Operations`, the test cases a client runs on its table.

A test case is an operation with the result it should have. `test_output` reports one
only when both the status and the value are not the expected ones.
-/

set_option autoImplicit false

namespace RdmaIht.Iht

open Concurrency

/-! ## Test cases -/

def fromStateValue : StateValue → String
  | .falseState => "FALSE"
  | .trueState => "TRUE"
  | .rehashDeleted => "REHASH DELETED"

/-- What `test_output` logs. -/
def testOutput (showPassing : Bool) (actual expected : HtRes (BitVec 32)) (message : String) :
    Option String :=
  if actual.status ≠ expected.status ∧ actual.result ≠ expected.result then
    some ("[-] " ++ message ++ " func():(" ++ fromStateValue actual.status ++ "," ++
      toString actual.result.toInt ++ ") != expected:(" ++ fromStateValue expected.status ++ "," ++
      toString expected.result.toInt ++ ")")
  else if showPassing then some ("[+] Test Case " ++ message ++ " Passed!")
  else none

structure TestCase where
  op : IhtOp (BitVec 32) (BitVec 32)
  expected : HtRes (BitVec 32)
  message : String

def containsFalse (i : Nat) (message : String) : TestCase :=
  ⟨.contains (.ofNat 32 i), ⟨.falseState, 0⟩, message⟩

def containsTrue (i : Nat) (message : String) : TestCase :=
  ⟨.contains (.ofNat 32 i), ⟨.trueState, .ofNat 32 i⟩, message⟩

def insertCases (i : Nat) : List TestCase :=
  [containsFalse i ("Contains " ++ toString i ++ " false"),
    ⟨.insert (.ofNat 32 i) (.ofNat 32 i), ⟨.trueState, 0⟩, "Insert " ++ toString i⟩,
    containsTrue i ("Contains " ++ toString i ++ " true")]

def maintainsTrueCases (i : Nat) : List TestCase :=
  [containsTrue i ("Contains " ++ toString i ++ " maintains true")]

def removeCases (i : Nat) : List TestCase :=
  [⟨.remove (.ofNat 32 i), ⟨.trueState, .ofNat 32 i⟩, "Removes " ++ toString i⟩,
    containsFalse i ("Contains " ++ toString i ++ " false")]

def maintainsFalseCases (i : Nat) : List TestCase :=
  [containsFalse i ("Contains " ++ toString i ++ " maintains false")]

/-- The four loops of `Operations(true)`. -/
def scaleCases (scaleSize : Nat) : List TestCase :=
  (List.range scaleSize).flatMap insertCases ++ (List.range scaleSize).flatMap maintainsTrueCases ++
    (List.range scaleSize).flatMap removeCases ++ (List.range scaleSize).flatMap maintainsFalseCases

/-- The cases of `Operations(false)`; the first insert is expected to fail. -/
def fewCases : List TestCase :=
  [⟨.contains 5, ⟨.falseState, 0⟩, "Contains 5"⟩, ⟨.contains 4, ⟨.falseState, 0⟩, "Contains 4"⟩,
    ⟨.insert 5 10, ⟨.falseState, 0⟩, "Insert 5"⟩, ⟨.insert 5 11, ⟨.falseState, 10⟩, "Insert 5 again should fail"⟩,
    ⟨.contains 5, ⟨.trueState, 10⟩, "Contains 5"⟩, ⟨.contains 4, ⟨.falseState, 0⟩, "Contains 4"⟩,
    ⟨.remove 5, ⟨.trueState, 10⟩, "Remove 5"⟩, ⟨.remove 4, ⟨.falseState, 0⟩, "Remove 4"⟩,
    ⟨.contains 5, ⟨.falseState, 0⟩, "Contains 5"⟩, ⟨.contains 4, ⟨.falseState, 0⟩, "Contains 4"⟩]

/-- The test cases of `Operations`, where `scaleSize` is `(CNF_PLIST_SIZE * CNF_ELIST_SIZE) * 8`. -/
def testCases (atScale : Bool) (scaleSize : Nat) : List TestCase :=
  if atScale then scaleCases scaleSize else fewCases

def TestKey (atScale : Bool) (scaleSize : Nat) (key : BitVec 32) : Prop :=
  if atScale then key.toNat < scaleSize else key = 4 ∨ key = 5

/-- The log of the test cases for these results; passing cases are shown only when there are few. -/
def testLog (atScale : Bool) (cases : List TestCase) (results : List (HtRes (BitVec 32))) : List String :=
  (cases.zip results).filterMap fun done => testOutput (!atScale) done.2 done.1.expected done.1.message

/-! ## Test cases on a map -/

abbrev IntMap := FiniteMap (BitVec 32) (BitVec 32)

abbrev intSpec := mapSpec (BitVec 32) (0 : BitVec 32)

def Passes (actual expected : HtRes (BitVec 32)) : Prop :=
  actual.status = expected.status ∨ actual.result = expected.result

def Passing (τ : IntMap) : IntMap → List TestCase → Prop
  | σ, [] => σ = τ
  | σ, test :: rest => Passes (σ.apply 0 test.op).2 test.expected ∧ Passing τ (σ.apply 0 test.op).1 rest

theorem Passing.append {σ τ υ : IntMap} {cases more : List TestCase} (first : Passing τ σ cases)
    (rest : Passing υ τ more) : Passing υ σ (cases ++ more) := by
  induction cases generalizing σ with
  | nil =>
    cases first
    exact rest
  | cons test cases ih => exact ⟨first.1, ih first.2⟩

theorem Passing.loop {n : Nat} {body : Nat → List TestCase} (mapAt : Nat → IntMap)
    (pass : ∀ i < n, Passing (mapAt (i + 1)) (mapAt i) (body i)) :
    Passing (mapAt n) (mapAt 0) ((List.range n).flatMap body) := by
  induction n with
  | zero => rfl
  | succ n ih =>
    rw [List.range_succ, List.flatMap_append, List.flatMap_singleton]
    exact (ih fun i less => pass i (Nat.lt_succ_of_lt less)).append (pass n (Nat.lt_succ_self n))

def filled (σ : IntMap) (low high : Nat) : IntMap := fun key =>
  if low ≤ key.toNat ∧ key.toNat < high then some key else σ key

section Filled

variable {σ : IntMap} {low high i : Nat}

theorem filled_empty (σ : IntMap) (i : Nat) : filled σ i i = σ := by
  funext key
  exact if_neg (by omega)

theorem filled_at (bound : i < 2 ^ 31) : filled σ low high (.ofNat 32 i) =
    if low ≤ i ∧ i < high then some (.ofNat 32 i) else σ (.ofNat 32 i) := by
  have value : (BitVec.ofNat 32 i).toNat = i := by
    rw [BitVec.toNat_ofNat, Nat.mod_eq_of_lt (by omega)]
  simp only [filled, value]

theorem filled_insert (bound : i < 2 ^ 31) (le : low ≤ i) :
    Function.update (filled σ low i) (.ofNat 32 i) (some (.ofNat 32 i)) = filled σ low (i + 1) := by
  funext key
  have value : (BitVec.ofNat 32 i).toNat = i := by
    rw [BitVec.toNat_ofNat, Nat.mod_eq_of_lt (by omega)]
  rw [Function.update_apply]
  split
  · next same =>
    subst same
    rw [filled_at bound, if_pos (by omega)]
  · next other =>
    have apart : key.toNat ≠ i := fun same => other (BitVec.eq_of_toNat_eq (same.trans value.symm))
    unfold filled
    by_cases inside : low ≤ key.toNat ∧ key.toNat < i
    · rw [if_pos inside, if_pos (by omega)]
    · rw [if_neg inside, if_neg (by omega)]

theorem filled_remove (bound : i < 2 ^ 31) (absent : σ (.ofNat 32 i) = none) :
    Function.update (filled σ i high) (.ofNat 32 i) none = filled σ (i + 1) high := by
  funext key
  have value : (BitVec.ofNat 32 i).toNat = i := by
    rw [BitVec.toNat_ofNat, Nat.mod_eq_of_lt (by omega)]
  rw [Function.update_apply]
  split
  · next same =>
    subst same
    rw [filled_at bound, if_neg (by omega), absent]
  · next other =>
    have apart : key.toNat ≠ i := fun same => other (BitVec.eq_of_toNat_eq (same.trans value.symm))
    unfold filled
    by_cases inside : i ≤ key.toNat ∧ key.toNat < high
    · rw [if_pos inside, if_pos (by omega)]
    · rw [if_neg inside, if_neg (by omega)]

end Filled

/-- The loops of `Operations(true)` pass on a map that has none of their keys, and leave it as it was. -/
theorem passing_scale {σ : IntMap} {n : Nat} (small : n ≤ 2 ^ 31) (absent : ∀ i < n, σ (.ofNat 32 i) = none) :
    Passing σ σ (scaleCases n) := by
  have inserts : Passing (filled σ 0 n) (filled σ 0 0) ((List.range n).flatMap insertCases) := by
    refine Passing.loop (filled σ 0) fun i less => ?_
    have bound : i < 2 ^ 31 := by omega
    have before : filled σ 0 i (.ofNat 32 i) = none := by
      rw [filled_at bound, if_neg (by omega), absent i less]
    have after : filled σ 0 (i + 1) (.ofNat 32 i) = some (.ofNat 32 i) := by
      rw [filled_at bound, if_pos (by omega)]
    simp only [insertCases, containsFalse, containsTrue, Passing, FiniteMap.apply, before, filled_insert bound (Nat.zero_le i),
      after]
    exact ⟨.inl rfl, .inl rfl, .inl rfl, trivial⟩
  have maintainsTrue : Passing (filled σ 0 n) (filled σ 0 n) ((List.range n).flatMap maintainsTrueCases) := by
    refine Passing.loop (fun _ => filled σ 0 n) fun i less => ?_
    have there : filled σ 0 n (.ofNat 32 i) = some (.ofNat 32 i) := by
      rw [filled_at (by omega), if_pos (by omega)]
    simp only [maintainsTrueCases, containsTrue, Passing, FiniteMap.apply, there]
    exact ⟨.inl rfl, trivial⟩
  have removes : Passing (filled σ n n) (filled σ 0 n) ((List.range n).flatMap removeCases) := by
    refine Passing.loop (fun i => filled σ i n) fun i less => ?_
    have bound : i < 2 ^ 31 := by omega
    have before : filled σ i n (.ofNat 32 i) = some (.ofNat 32 i) := by
      rw [filled_at bound, if_pos (by omega)]
    have after : filled σ (i + 1) n (.ofNat 32 i) = none := by
      rw [filled_at bound, if_neg (by omega), absent i less]
    simp only [removeCases, containsFalse, Passing, FiniteMap.apply, before, filled_remove bound (absent i less), after]
    exact ⟨.inl rfl, .inl rfl, trivial⟩
  have maintainsFalse : Passing (filled σ n n) (filled σ n n) ((List.range n).flatMap maintainsFalseCases) := by
    refine Passing.loop (fun _ => filled σ n n) fun i less => ?_
    have gone : filled σ n n (.ofNat 32 i) = none := by
      rw [filled_empty, absent i less]
    simp only [maintainsFalseCases, containsFalse, Passing, FiniteMap.apply, gone]
    exact ⟨.inl rfl, trivial⟩
  have all := ((inserts.append maintainsTrue).append removes).append maintainsFalse
  rw [filled_empty, filled_empty] at all
  exact all

/-- So do the cases of `Operations(false)`, though the first insert succeeds: its value is the expected one. -/
theorem passing_few {σ : IntMap} (four : σ 4 = none) (five : σ 5 = none) : Passing σ σ fewCases := by
  have back : Function.update (Function.update σ 5 (some 10)) 5 none = σ := by
    rw [Function.update_idem, Function.update_eq_self_iff, five]
  have four' : Function.update σ 5 (some 10) 4 = none := by
    rw [Function.update_of_ne (by decide), four]
  simp only [fewCases, Passing, FiniteMap.apply, four, five, four', Function.update_self, back]
  exact ⟨.inl rfl, .inl rfl, .inr rfl, .inl rfl, .inl rfl, .inl rfl, .inl rfl, .inl rfl, .inl rfl, .inl rfl, trivial⟩

theorem passing_cases {atScale : Bool} {scaleSize : Nat} (small : scaleSize ≤ 2 ^ 31) {σ : IntMap}
    (absent : ∀ key, TestKey atScale scaleSize key → σ key = none) : Passing σ σ (testCases atScale scaleSize) := by
  cases atScale with
  | true =>
    refine passing_scale small fun i less => absent _ ?_
    change (BitVec.ofNat 32 i).toNat < scaleSize
    rw [BitVec.toNat_ofNat, Nat.mod_eq_of_lt (by omega)]
    exact less
  | false => exact passing_few (absent 4 (.inl rfl)) (absent 5 (.inr rfl))

/-! ## Test cases on the table -/

def contents (σ : IntMap) (ops : List (IhtOp (BitVec 32) (BitVec 32))) : IntMap :=
  ops.foldl (fun σ op => (σ.apply 0 op).1) σ

theorem results_append (σ : IntMap) (ops more : List (IhtOp (BitVec 32) (BitVec 32))) :
    intSpec.results σ (ops ++ more) = intSpec.results σ ops ++ intSpec.results (contents σ ops) more := by
  induction ops generalizing σ with
  | nil => rfl
  | cons op ops ih => exact congrArg _ (ih _)

theorem Passing.contents_eq {σ τ : IntMap} {cases : List TestCase} (passing : Passing τ σ cases) :
    contents σ (cases.map TestCase.op) = τ := by
  induction cases generalizing σ with
  | nil => exact passing
  | cons test cases ih => exact ih passing.2

theorem testOutput_of_passes {actual expected : HtRes (BitVec 32)} (passes : Passes actual expected) (showPassing : Bool)
    (message : String) : testOutput showPassing actual expected message =
      if showPassing then some ("[+] Test Case " ++ message ++ " Passed!") else none := by
  unfold testOutput
  rw [if_neg]
  rintro ⟨status, result⟩
  exact passes.elim status result

def passedLog (atScale : Bool) (cases : List TestCase) : List String :=
  if atScale then [] else cases.map fun test => "[+] Test Case " ++ test.message ++ " Passed!"

theorem Passing.log {σ τ : IntMap} {cases : List TestCase} (passing : Passing τ σ cases) (atScale : Bool) :
    testLog atScale cases (intSpec.results σ (cases.map TestCase.op)) = passedLog atScale cases := by
  induction cases generalizing σ with
  | nil => cases atScale <;> rfl
  | cons test cases ih =>
    have rest := ih passing.2
    have first : testOutput (!atScale) (intSpec.apply σ test.op).2 test.expected test.message = _ :=
      testOutput_of_passes passing.1 (!atScale) test.message
    unfold testLog at rest
    simp only [testLog, List.map_cons, SeqSpec.results, List.zip_cons_cons, List.filterMap_cons]
    rw [first]
    cases atScale with
    | true => exact rest
    | false => exact congrArg _ rest

theorem length_results (σ : IntMap) (ops : List (IhtOp (BitVec 32) (BitVec 32))) :
    (intSpec.results σ ops).length = ops.length := by
  induction ops generalizing σ with
  | nil => rfl
  | cons op ops ih => exact congrArg Nat.succ (ih _)

theorem contents_append (σ : IntMap) (ops more : List (IhtOp (BitVec 32) (BitVec 32))) :
    contents σ (ops ++ more) = contents (contents σ ops) more := List.foldl_append

theorem shipped_results (host : Nat) {fuel : Nat} (enough : 1057 < fuel)
    (calls : List (Nat × IhtOp (BitVec 32) (BitVec 32))) :
    ∃ m, operations shipped (initAsFirst shipped host).1 fuel (initAsFirst shipped host).2 calls =
      .ok (m, intSpec.results .empty (calls.map (·.2))) := by
  rcases (Between.start shipped host).operations (by decide) (by decide) (by decide) (shipped_room _)
      (.start shipped host 24) enough calls with ⟨_, t, rehashes, overflow⟩ | ⟨home, σ, m, done, _⟩
  · cases (shipped_buckets rehashes).symm.trans overflow
  · rw [shipped.spec_eq fun _ => rfl] at done
    exact ⟨m, done⟩

/-- Whatever calls the clients have made before, if they have left none of the keys of the test
cases in the table, `Operations` finds nothing wrong, and all later calls return what they would
have returned without it. -/
theorem operations_unnoticed (host pool : Nat) {fuel : Nat} (enough : 1057 < fuel) (atScale : Bool) {scaleSize : Nat}
    (small : scaleSize ≤ 2 ^ 31) (before later : List (Nat × IhtOp (BitVec 32) (BitVec 32)))
    (absent : ∀ key, TestKey atScale scaleSize key → contents .empty (before.map (·.2)) key = none) :
    ∃ m m' first results rest,
      operations shipped (initAsFirst shipped host).1 fuel (initAsFirst shipped host).2
        (before ++ (testCases atScale scaleSize).map (fun test => (pool, test.op)) ++ later) =
          .ok (m, first ++ results ++ rest) ∧
      operations shipped (initAsFirst shipped host).1 fuel (initAsFirst shipped host).2 (before ++ later) =
        .ok (m', first ++ rest) ∧
      first.length = before.length ∧ rest.length = later.length ∧
      testLog atScale (testCases atScale scaleSize) results = passedLog atScale (testCases atScale scaleSize) := by
  have passing := passing_cases small absent
  obtain ⟨m, done⟩ := shipped_results host enough
    (before ++ (testCases atScale scaleSize).map (fun test => (pool, test.op)) ++ later)
  obtain ⟨m', done'⟩ := shipped_results host enough (before ++ later)
  have ops : ((testCases atScale scaleSize).map fun test => (pool, test.op)).map (·.2) =
      (testCases atScale scaleSize).map TestCase.op := by rw [List.map_map]; rfl
  rw [List.map_append, List.map_append, ops, results_append, results_append, contents_append, passing.contents_eq] at done
  rw [List.map_append, results_append] at done'
  refine ⟨m, m', _, _, _, done, done', ?_, ?_, passing.log atScale⟩
  · rw [length_results, List.length_map]
  · rw [length_results, List.length_map]

/-- Another client has left key -1 in the table and looks it up afterwards. -/
theorem operations_unnoticed_negative : ∃ m m' first results rest,
    operations shipped (initAsFirst shipped 0).1 1058 (initAsFirst shipped 0).2
      ([(1, .insert (-1) 7)] ++ (testCases true 7168).map (fun test => (0, test.op)) ++ [(1, .contains (-1))]) =
        .ok (m, first ++ results ++ rest) ∧
    operations shipped (initAsFirst shipped 0).1 1058 (initAsFirst shipped 0).2
      ([(1, .insert (-1) 7)] ++ [(1, .contains (-1))]) = .ok (m', first ++ rest) ∧
    first.length = 1 ∧ rest.length = 1 ∧
    testLog true (testCases true 7168) results = passedLog true (testCases true 7168) :=
  operations_unnoticed 0 0 (by decide) true (by decide) [(1, .insert (-1) 7)] [(1, .contains (-1))]
    fun key small =>
      Function.update_of_ne (fun same => absurd (show key.toNat < 7168 from small) (by rw [same]; decide)) _ _

end RdmaIht.Iht
