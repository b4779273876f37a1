import RdmaIht.Hashtable.Overlap
import RdmaIht.Provenance

/-! The values that `Hashtable` tells, in runs of any kind.

Resizes that overlap break the locks of the `LinkedSet`s and lose pairs. No pair is
made up by that: the nodes, the copies of the clients and those of the resizes hold
pairs of inserts that have succeeded or are about to.
-/

set_option autoImplicit false

namespace RdmaIht.Hashtable

open Concurrency

variable {K V : Type}

def Node.All (ok : Pair K V → Prop) (data : Node K V) : Prop := ∀ pair ∈ data.pairs, ok pair

def Mem.All (ok : Pair K V → Prop) (m : Mem K V) : Prop := ∀ node data, m.nodes node = some data → data.All ok

def SetPc.All (ok : Pair K V → Prop) (op : IhtOp K V) : SetPc K V → Prop
  | .acquire | .walk _ => True
  | .writeNode _ data _ res | .writeFirst data res => data.All ok ∧ ToldFrom id ok op res
  | .readFirst _ res | .unlock res => ToldFrom id ok op res

def Pc.All (ok : Pair K V → Prop) (op : IhtOp K V) : Pc K V → Prop
  | .readRoot | .readBucket _ => True
  | .inSet _ pc => pc.All ok op

def RehashPc.All (ok : Pair K V → Prop) : RehashPc K V → Prop
  | .pairs _ _ _ _ rest => ∀ pair ∈ rest, ok pair
  | .insert _ _ _ _ pair rest _ pc => ok pair ∧ (∀ other ∈ rest, ok other) ∧ pc.All ok (.insert pair.key pair.val)
  | _ => True

/-- The insert has decided to store its pair, or has stored it. -/
def SetPc.effective (op : IhtOp K V) : SetPc K V → Bool
  | .acquire | .walk _ => false
  | .writeNode _ _ _ res | .readFirst _ res | .writeFirst _ res | .unlock res =>
    op.isInsert && decide (res.status = .trueState)

def Pc.effective (op : IhtOp K V) : Pc K V → Bool
  | .readRoot | .readBucket _ => false
  | .inSet _ pc => pc.effective op

/-- Resizes are no calls of the history. -/
def Thread.shows : Thread K V → Option (Nat × IhtOp K V × Bool)
  | .idle | .resizing _ => none
  | .running id op pc => some (id, op, pc.effective op)

def Thread.All (ok : Pair K V → Prop) : Thread K V → Prop
  | .idle => True
  | .running _ op pc => pc.All ok op
  | .resizing pc => pc.All ok

def Visit.All (ok : Pair K V → Prop) (op : IhtOp K V) : Visit K V → Prop
  | .next => True
  | .unlock res => ToldFrom id ok op res
  | .write pairs _ res => (∀ pair ∈ pairs, ok pair) ∧ ToldFrom id ok op res
  | .append pair res => ok pair ∧ ToldFrom id ok op res

def Visit.stores : Visit K V → Bool
  | .next | .unlock _ => false
  | .write _ _ _ | .append _ _ => true

def SetAll (ok : Pair K V → Prop) (op : IhtOp K V) : SetPc K V ⊕ HtRes V → Prop
  | .inl pc => pc.All ok op
  | .inr res => ToldFrom id ok op res

def SetEffective (op : IhtOp K V) : SetPc K V ⊕ HtRes V → Prop
  | .inl pc => pc.effective op = true
  | .inr res => op.isInsert = true ∧ Succeeded res

def NextAll (ok : Pair K V → Prop) (op : IhtOp K V) : Pc K V ⊕ HtRes V → Prop
  | .inl pc => pc.All ok op
  | .inr res => ToldFrom id ok op res

def NextEffective (op : IhtOp K V) : Pc K V ⊕ HtRes V → Prop
  | .inl pc => pc.effective op = true
  | .inr res => op.isInsert = true ∧ Succeeded res

section Mono

variable {op : IhtOp K V} {ok ok' : Pair K V → Prop} {m : Mem K V} {data : Node K V}

theorem Node.All.mono (imp : ∀ pair, ok pair → ok' pair) (all : data.All ok) : data.All ok' :=
  fun pair member => imp pair (all pair member)

theorem Mem.All.mono (imp : ∀ pair, ok pair → ok' pair) (all : m.All ok) : m.All ok' :=
  fun node data stored => (all node data stored).mono imp

theorem SetPc.All.mono {pc : SetPc K V} (imp : ∀ pair, ok pair → ok' pair) (point : pc.All ok op) : pc.All ok' op := by
  cases pc with
  | acquire | walk => trivial
  | writeNode | writeFirst => exact ⟨point.1.mono imp, point.2.mono imp⟩
  | readFirst | unlock => exact ToldFrom.mono imp point

theorem Thread.All.mono {thread : Thread K V} (imp : ∀ pair, ok pair → ok' pair) (all : thread.All ok) :
    thread.All ok' := by
  cases thread with
  | idle => trivial
  | running id op pc =>
    cases pc with
    | readRoot | readBucket => trivial
    | inSet set pc => exact SetPc.All.mono imp all
  | resizing pc =>
    cases pc with
    | pairs => exact fun pair member => imp pair (all pair member)
    | insert => exact ⟨imp _ all.1, fun other member => imp other (all.2.1 other member), all.2.2.mono imp⟩
    | _ => trivial

end Mono

section Stores

variable {ok : Pair K V → Prop} {m m' : Mem K V}

theorem Mem.All.of_nodes (all : m.All ok) (same : m'.nodes = m.nodes) : m'.All ok := by
  rw [Mem.All, same]
  exact all

theorem Mem.All.setNode (all : m.All ok) (node : RemotePtr) {data : Node K V} (good : data.All ok) :
    (m.setNode node data).All ok := by
  intro q data' stored
  rw [Mem.nodes_setNode] at stored
  split at stored
  · cases stored
    exact good
  · exact all q data' stored

theorem Mem.All.newNode (all : m.All ok) (self : Nat) {data : Node K V} (good : data.All ok) :
    (m.newNode self data).All ok := (all.setNode (m.fresh self) good).of_nodes rfl

theorem Mem.All.newArray (all : m.All ok) (self n : Nat) : (m.newArray self n).2.All ok := by
  have sets : (Mem.newSets self n m.bump).2.All ok := by
    induction n with
    | zero => exact all.of_nodes rfl
    | succ n ih =>
      have empty : Node.All ok ({} : Node K V) := fun pair member => by cases member
      simp only [Mem.newSets, Mem.newSet]
      refine Mem.All.newNode ?_ self empty
      exact ih.of_nodes rfl
  exact sets.of_nodes rfl

end Stores

section Step

variable [DecidableEq K] {T : Template K V} {self : Nat} {set : LinkedSet} {op : IhtOp K V} {m m' : Mem K V}
  {ok : Pair K V → Prop}

theorem visit_all {pairs : List (Pair K V)} {isLast : Bool} (good : ∀ pair ∈ pairs, ok pair)
    (stores : ∀ key value, op = .insert key value → (visit T op pairs isLast).stores = true → ok ⟨key, value⟩) :
    (visit T op pairs isLast).All ok op := by
  cases op with
  | contains key =>
    simp only [visit, containsVisit]
    split
    · next pair found =>
      obtain ⟨member, same⟩ := findPair_eq_some found
      exact fun _ => ⟨pair, good pair member, same, rfl⟩
    · trivial
  | insert key value =>
    have inserted := stores key value rfl
    simp only [visit, insertVisit] at inserted ⊢
    split
    · next pair found =>
      obtain ⟨member, same⟩ := findPair_eq_some found
      exact fun _ => ⟨pair, good pair member, same, rfl⟩
    · next absent =>
      rw [absent] at inserted
      split
      · next full =>
        split
        · next last =>
          rw [if_pos full, if_pos last] at inserted
          exact ⟨inserted rfl, fun tells => by cases tells⟩
        · trivial
      · next room =>
        rw [if_neg room] at inserted
        refine ⟨fun pair member => ?_, fun tells => by cases tells⟩
        rcases List.mem_append.mp member with old | new
        · exact good pair old
        · cases List.mem_singleton.mp new
          exact inserted rfl
  | remove key =>
    simp only [visit, removeVisit]
    split
    · next pair found =>
      obtain ⟨member, same⟩ := findPair_eq_some found
      refine ⟨fun other kept => good other ?_, fun _ => ⟨pair, good pair member, same, rfl⟩⟩
      exact (removePair_perm found).mem_iff.mpr (List.mem_cons_of_mem _ kept)
    · trivial

theorem visit_stores {key : K} {value : V} {pairs : List (Pair K V)} {isLast : Bool} {res : HtRes V}
    (ends : (visit T (.insert key value) pairs isLast).result = some res)
    (stores : (visit T (.insert key value) pairs isLast).stores = true) : res.status = .trueState := by
  simp only [visit, insertVisit] at ends stores
  split at ends
  · next pair found =>
    rw [found] at stores
    cases stores
  · split at ends
    · split at ends <;> cases ends
      rfl
    · cases ends
      rfl

theorem not_tells_last {pairs : List (Pair K V)} (passes : visit T op pairs true = .next) (zero : V) :
    ¬ Tells op ⟨.falseState, zero⟩ := by
  intro tells
  cases op with
  | contains key | remove key => cases tells
  | insert key value =>
    simp only [visit, insertVisit] at passes
    split at passes
    · cases passes
    · split at passes <;> cases passes

omit [DecidableEq K] in
theorem told_deleted : ToldFrom id ok op (deletedResult T op) := by
  intro tells
  cases op <;> cases tells

/-- What holds of the pairs keeps holding of them, if it holds of the pair the operation has decided to store. -/
theorem SetBranch.all {pc : SetPc K V} {next : SetPc K V ⊕ HtRes V} (branch : SetBranch T self set op m pc m' next)
    (memory : m.All ok) (point : pc.All ok op)
    (stores : ∀ pc', next = .inl pc' → pc'.effective op = true → ∀ key value, op = .insert key value → ok ⟨key, value⟩) :
    m'.All ok ∧ SetAll ok op next := by
  -- a visit that stores decides the answer of an insert
  have decided : ∀ {pairs isLast res node data isIncrement}, (visit T op pairs isLast).result = some res →
      next = .inl (.writeNode node data isIncrement res) →
      ∀ key value, op = .insert key value → (visit T op pairs isLast).stores = true → ok ⟨key, value⟩ := by
    rintro pairs isLast res node data isIncrement ends rfl key value rfl visits
    refine stores _ rfl ?_ key value rfl
    simp [SetPc.effective, IhtOp.isInsert, visit_stores ends visits]
  cases branch with
  | locks => exact ⟨memory.of_nodes rfl, trivial⟩
  | spins => exact ⟨memory, trivial⟩
  | deleted => exact ⟨memory, told_deleted⟩
  | last stored passes last =>
    rw [decide_eq_true last] at passes
    exact ⟨memory, fun tells => absurd tells (not_tells_last passes _)⟩
  | further => exact ⟨memory, trivial⟩
  | @found node data res stored passes =>
    have all : (visit T op data.pairs (decide (data.next = .null))).All ok op :=
      visit_all (memory node data stored) fun key value _ visits => by rw [passes] at visits; cases visits
    rw [passes] at all
    exact ⟨memory, all⟩
  | @write node data pairs isIncrement res stored passes =>
    have all := visit_all (memory node data stored) (decided (by rw [passes]; rfl) rfl)
    rw [passes] at all
    exact ⟨memory, all⟩
  | @append node data pair res stored passes =>
    have all := visit_all (memory node data stored) (decided (by rw [passes]; rfl) rfl)
    rw [passes] at all
    refine ⟨memory.newNode self ?_, memory node data stored, all.2⟩
    intro other member
    cases List.mem_singleton.mp member
    exact all.1
  | writeNode => exact ⟨memory.setNode _ point.1, point.2⟩
  | readFirst stored =>
    have good := memory _ _ stored
    exact ⟨memory, good, point⟩
  | writeFirst => exact ⟨memory.setNode _ point.1, point.2⟩
  | unlock => exact ⟨memory.of_nodes rfl, point⟩

theorem SetBranch.stays_effective {pc : SetPc K V} {next : SetPc K V ⊕ HtRes V}
    (branch : SetBranch T self set op m pc m' next) (effective : pc.effective op = true) : SetEffective op next := by
  cases branch with
  | writeNode | readFirst | writeFirst => exact effective
  | unlock =>
    obtain ⟨inserts, success⟩ := Bool.and_eq_true_iff.mp effective
    have succeeded := of_decide_eq_true success
    exact ⟨inserts, succeeded⟩
  | _ => cases effective

omit [DecidableEq K] in
theorem report_all {res : HtRes V} (told : ToldFrom id ok op res) : NextAll ok op (report res) := by
  obtain ⟨status, result⟩ := res
  cases status with
  | rehashDeleted => trivial
  | trueState | falseState => exact told

theorem ClientBranch.all {pc : Pc K V} {next : Pc K V ⊕ HtRes V} (branch : ClientBranch T self op m pc m' next)
    (memory : m.All ok) (point : pc.All ok op)
    (stores : ∀ pc', next = .inl pc' → pc'.effective op = true → ∀ key value, op = .insert key value → ok ⟨key, value⟩) :
    m'.All ok ∧ NextAll ok op next := by
  cases branch with
  | readRoot | readBucket => exact ⟨memory, trivial⟩
  | goesOn went =>
    refine (setStep_branch went).all memory point fun pc' same => ?_
    cases same
    exact stores _ rfl
  | returns went =>
    obtain ⟨memory', told⟩ := (setStep_branch went).all memory point fun _ none => by cases none
    exact ⟨memory', report_all told⟩

theorem ClientBranch.stays_effective {pc : Pc K V} {next : Pc K V ⊕ HtRes V}
    (branch : ClientBranch T self op m pc m' next) (effective : pc.effective op = true) : NextEffective op next := by
  cases branch with
  | readRoot | readBucket => cases effective
  | goesOn went => exact (setStep_branch went).stays_effective effective
  | @returns set pc m' res went =>
    have success : op.isInsert = true ∧ Succeeded res := (setStep_branch went).stays_effective effective
    rw [report_result (by rw [success.2]; simp)]
    exact success

/-- A resize moves pairs of the nodes it has read, and no others. -/
theorem RehashBranch.all {pc : RehashPc K V} {next : Option (RehashPc K V)}
    (branch : RehashBranch T self m pc m' next) (memory : m.All ok) (point : pc.All ok) :
    m'.All ok ∧ ∀ pc' ∈ next, pc'.All ok := by
  cases branch with
  | readRoot | readBuckets | full | listLength | frozen | waits | added | bucket | chainEnd | nodeEnd =>
    exact ⟨memory, fun pc' same => by cases same; trivial⟩
  | few | melted => exact ⟨memory, fun pc' none => by cases none⟩
  | freezes | melts => exact ⟨memory.of_nodes rfl, fun pc' same => by cases same; trivial⟩
  | publish => exact ⟨(memory.newArray self _).of_nodes rfl, fun pc' same => by cases same; trivial⟩
  | node notNull stored =>
    have good := memory _ _ stored
    exact ⟨memory, fun pc' same => by cases same; exact good⟩
  | pair found =>
    refine ⟨memory, fun pc' same => ?_⟩
    cases same
    exact ⟨point _ List.mem_cons_self, fun other member => point other (List.mem_cons_of_mem _ member), trivial⟩
  | inserts went =>
    obtain ⟨memory', all⟩ := (setStep_branch went).all memory point.2.2 fun _ _ _ key value same => by
      cases same
      exact point.1
    exact ⟨memory', fun pc' same => by cases same; exact ⟨point.1, point.2.1, all⟩⟩
  | inserted went =>
    obtain ⟨memory', _⟩ := (setStep_branch went).all memory point.2.2 fun _ _ _ key value same => by
      cases same
      exact point.1
    exact ⟨memory', fun pc' same => by cases same; exact point.2.1⟩

end Step

/-! ## Runs -/

/-- Where the pairs in the memory and in the copies of the threads come from. -/
structure Traced (s : State K V) : Prop where
  sources : Sources id s.history s.ops (Thread.shows ∘ s.threads)
  memory : s.mem.All (Stored s.history (Thread.shows ∘ s.threads))
  points : ∀ c, (s.threads c).All (Stored s.history (Thread.shows ∘ s.threads))

section Runs

variable {T : Template K V} {peer : Nat → Nat} {s s' : State K V} {c : Nat}

theorem shows_running {id : Nat} {op : IhtOp K V} {pc : Pc K V} (runs : s.threads c = .running id op pc) :
    (Thread.shows ∘ s.threads) c = some (id, op, pc.effective op) := by
  rw [Function.comp_apply, runs]
  rfl

theorem all_update {ok ok' : Pair K V → Prop} {thread : Thread K V} (points : ∀ c, (s.threads c).All ok)
    (grows : ∀ pair, ok pair → ok' pair) (all : thread.All ok') (c' : Nat) :
    (Function.update s.threads c thread c').All ok' := by
  rw [Function.update_apply]
  split
  · exact all
  · exact (points c').mono grows

theorem Traced.start (T : Template K V) (host : Nat) : Traced (initial T host) where
  sources := .start
  memory := by
    have nothing : (Mem.empty : Mem K V).bump.All (Stored [] (Thread.shows ∘ (initial T host).threads)) :=
      fun _ _ stored => by cases stored
    exact (nothing.newArray host T.initialSize).of_nodes rfl
  points _ := trivial

theorem Traced.invoked (traced : Traced s) (idle : s.threads c = .idle) (op : IhtOp K V) :
    Traced { s with
      threads := Function.update s.threads c (.running s.ops op .readRoot)
      history := s.history ++ [.inv s.ops op]
      ops := s.ops + 1 } := by
  have none : (Thread.shows ∘ s.threads) c = none := by rw [Function.comp_apply, idle]; rfl
  have grows : ∀ pair, _ → Stored (s.history ++ [.inv s.ops op]) _ pair := fun pair stored =>
    Stored.invoke stored none s.ops op
  refine ⟨?_, ?_, ?_⟩ <;> dsimp only <;> rw [Function.comp_update]
  · exact traced.sources.invoke none op
  · exact traced.memory.mono grows
  · exact all_update traced.points grows trivial

theorem Traced.quiet (traced : Traced s) {m : Mem K V} {thread : Thread K V}
    (memory : m.All (Stored s.history (Thread.shows ∘ s.threads)))
    (all : thread.All (Stored s.history (Thread.shows ∘ s.threads))) (before : (s.threads c).shows = none)
    (after : thread.shows = none) : Traced { s with mem := m, threads := Function.update s.threads c thread } := by
  have same : Function.update (Thread.shows ∘ s.threads) c thread.shows = Thread.shows ∘ s.threads := by
    rw [after, ← before]
    exact Function.update_eq_self c _
  refine ⟨?_, ?_, ?_⟩ <;> dsimp only <;> rw [Function.comp_update, same]
  · exact traced.sources
  · exact memory
  · exact all_update traced.points (fun _ stored => stored) all

variable [DecidableEq K]

omit [DecidableEq K] in
theorem Traced.running (traced : Traced s) {id : Nat} {op : IhtOp K V} {pc : Pc K V}
    (runs : s.threads c = .running id op pc) : pc.All (Stored s.history (Thread.shows ∘ s.threads)) op := by
  have point := traced.points c
  rw [runs] at point
  exact point

theorem Traced.continued (traced : Traced s) {id : Nat} {op : IhtOp K V} {pc pc' : Pc K V} {m : Mem K V}
    (runs : s.threads c = .running id op pc) (branch : ClientBranch T (peer c) op s.mem pc m (.inl pc')) :
    Traced { s with mem := m, threads := Function.update s.threads c (.running id op pc') } := by
  have shown := shows_running runs
  have stays : pc.effective op = true → pc'.effective op = true := branch.stays_effective
  have grows : ∀ pair, _ → Stored s.history _ pair := fun pair stored => Stored.proceed stored shown stays
  have point : (Thread.running id op pc).All (Stored s.history (Function.update (Thread.shows ∘ s.threads) c
    (some (id, op, pc'.effective op)))) := Thread.All.mono grows (traced.running runs)
  obtain ⟨memory, all⟩ := branch.all (traced.memory.mono grows) point fun pc₁ same effective key value insert => by
    cases same
    subst insert
    rw [effective]
    exact traced.sources.stores shown
  refine ⟨?_, ?_, ?_⟩ <;> dsimp only <;> rw [Function.comp_update]
  · exact traced.sources.proceed shown stays
  · exact memory
  · exact all_update traced.points grows all

theorem Traced.returned (traced : Traced s) {id : Nat} {op : IhtOp K V} {pc : Pc K V} {m : Mem K V} {res : HtRes V}
    (runs : s.threads c = .running id op pc) (branch : ClientBranch T (peer c) op s.mem pc m (.inr res)) :
    Traced { s with
      mem := m
      threads := Function.update s.threads c .idle
      history := s.history ++ [.res id res] } := by
  have shown := shows_running runs
  have keeps : pc.effective op = true → Succeeded res := fun effective => (branch.stays_effective effective).2
  have grows : ∀ pair, _ → Stored (s.history ++ [.res id res]) _ pair := fun pair stored =>
    Stored.respond stored shown keeps
  obtain ⟨memory, told⟩ := branch.all traced.memory (traced.running runs) fun _ none => by cases none
  refine ⟨?_, ?_, ?_⟩ <;> dsimp only <;> rw [Function.comp_update]
  · exact traced.sources.respond shown keeps told
  · exact memory.mono grows
  · exact all_update traced.points grows trivial

theorem Traced.next (traced : Traced s) {action : Action K V} (enabled : exec T peer s action = some s') : Traced s' := by
  rcases exec_cases enabled with ⟨c, op, rfl, idle, rfl⟩ | ⟨c, rfl, idle, _, rfl⟩ | ⟨c, _, _, rfl⟩ |
    ⟨c, id, op, pc, m, next, rfl, runs, stepped, rfl⟩ | ⟨c, pc, m, next, rfl, runs, stepped, rfl⟩
  · exact traced.invoked idle op
  · exact traced.quiet traced.memory trivial (by rw [idle]; rfl) rfl
  · exact traced
  · cases next with
    | inl pc' => simpa only [Thread.after, responses, List.append_nil] using traced.continued runs (clientStep_branch stepped)
    | inr res => exact traced.returned runs (clientStep_branch stepped)
  · have point : pc.All (Stored s.history (Thread.shows ∘ s.threads)) := by
      have at_ := traced.points c
      rw [runs] at at_
      exact at_
    obtain ⟨memory, all⟩ := (rehashStep_branch stepped).all traced.memory point
    refine traced.quiet memory ?_ (by rw [runs]; rfl) ?_
    · cases next with
      | none => trivial
      | some pc' => exact all pc' rfl
    · cases next <;> rfl

/-- In every run, with any number of resizes that may overlap: a value that an operation tells was inserted
at its key by an earlier call that does not fail. -/
theorem overlapping_tells_inserted (T : Template K V) (peer : Nat → Nat) (host : Nat) {s : State K V}
    (reachable : Reachable (exec T peer) (initial T host) s) : Sourced id s.history := by
  have traced : Traced s :=
    reachable.invariant (P := Traced) (.start T host) fun _ _ _ traced _ enabled => traced.next enabled
  exact traced.sources.sourced

/-- While one resize waits for a lock that the other one has deleted, a key is found with its value. -/
theorem overlapping_tells_inserted_earlyCopy : ∃ s, runAll (exec (intTemplate 1) fun _ => 0) (initial (intTemplate 1) 0)
      (twoResizes 4 1 ++ .invoke 2 (.contains 3) :: List.replicate 5 (.step 2)) = some s ∧
    .res 10 ⟨.trueState, 3⟩ ∈ s.history ∧ Sourced id s.history := by
  have ran : (runAll (exec (intTemplate 1) fun _ => 0) (initial (intTemplate 1) 0)
      (twoResizes 4 1 ++ .invoke 2 (.contains 3) :: List.replicate 5 (.step 2))).any
        (fun s => decide (.res 10 ⟨.trueState, 3⟩ ∈ s.history)) = true := by decide +kernel
  obtain ⟨s, final, answered⟩ := (Option.any_eq_true _ _).mp ran
  exact ⟨s, final, of_decide_eq_true answered, overlapping_tells_inserted _ _ 0 (reachable_of_runAll _ final)⟩

end Runs

end RdmaIht.Hashtable
