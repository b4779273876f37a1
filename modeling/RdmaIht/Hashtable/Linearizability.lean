import RdmaIht.Hashtable.Serial

/-! When clients do not notice a resize of `Hashtable`, and a run in which one does.

Once the new root is published a client can lock a bucket to which the resize has
not added all its pairs yet, and misses the pairs that are still to come. An insert
also misses a key in the nodes after the first one with room. A run in which no
operation wins a lock in such a moment is linearizable.
-/

set_option autoImplicit false

namespace RdmaIht.Hashtable

open Concurrency

variable {K V : Type}

/-! ## The pairs a resize has still to add -/

def Mem.pairsFrom (m : Mem K V) (p : RemotePtr) : List (Pair K V) := (m.chain m.next p).flatMap (·.pairs)

def Mem.pairsOf (m : Mem K V) (buckets : List LinkedSet) : List (Pair K V) :=
  buckets.flatMap fun set => m.pairsFrom set.first

/-- What a resize that has published the new root has still to add to it. -/
def RehashPc.pending (m : Mem K V) : RehashPc K V → List (Pair K V)
  | .bucket buckets _ i => m.pairsOf (buckets.drop i)
  | .foreach buckets _ i node => m.pairsFrom node ++ m.pairsOf (buckets.drop (i + 1))
  | .pairs buckets _ i next rest => rest ++ (m.pairsFrom next ++ m.pairsOf (buckets.drop (i + 1)))
  | .insert buckets _ i next pair rest _ pc =>
    (if pc.inside then rest else pair :: rest) ++ (m.pairsFrom next ++ m.pairsOf (buckets.drop (i + 1)))
  | .readRoot | .readBuckets _ | .listLength _ _ _ _ | .freeze _ _ _ | .publish _ _ | .melt _ _ => []

def Thread.pending (m : Mem K V) : Thread K V → List (Pair K V)
  | .resizing pc => pc.pending m
  | .idle | .running _ _ _ => []

section Pending

variable {home : Home} {m : Mem K V} {mine : RemotePtr → Prop} {a : RemotePtr} {buckets : List LinkedSet} {i : Nat}

theorem Shape.chain_eq (shape : Shape home m) {p : RemotePtr} {l : List (RemotePtr × Node K V)}
    (path : m.Path mine p l .null) : m.chain m.next p = l.map (·.2) := by
  refine path.chain_eq (path.length_le fun r n member => shape.nodes_lt r ?_)
  simp [(path.mem member).2.1]

theorem Shape.pairsFrom_eq (shape : Shape home m) {p : RemotePtr} {l : List (RemotePtr × Node K V)}
    (path : m.Path mine p l .null) : m.pairsFrom p = l.flatMap (·.2.pairs) := by
  rw [Mem.pairsFrom, shape.chain_eq path, List.flatMap_map]

theorem Shape.bundles_eq (shape : Shape home m) {p : RemotePtr} {b : Bundles K V} (rep : m.Represents mine p b) :
    (m.chain m.next p).map (·.pairs) = b.nodes := by
  obtain ⟨l, path, rfl⟩ := rep
  rw [shape.chain_eq path, List.map_map]
  rfl

theorem flatMap_range' {A B : Type} {f : A → List B} {g : Nat → List B} (l : List A) (i : Nat)
    (same : ∀ k a, l[k]? = some a → f a = g (i + k)) : l.flatMap f = (List.range' i l.length).flatMap g := by
  induction l generalizing i with
  | nil => rfl
  | cons a l ih =>
    rw [List.flatMap_cons, List.length_cons, List.range'_succ, List.flatMap_cons, same 0 a rfl]
    rw [ih (i + 1) fun k a' at_ => by rw [same (k + 1) a' at_, Nat.add_right_comm, Nat.add_assoc]]
    rfl

theorem Rest.eq (shape : Shape home m) {pairs : List (Pair K V)} (rest : Rest home m a buckets i pairs) :
    m.pairsOf (buckets.drop i) = pairs := by
  obtain ⟨old, reps, rfl⟩ := rest
  rw [Mem.pairsOf, flatMap_range' (g := fun j => (old j).pairs) (buckets.drop i) i, List.length_drop]
  intro k set at_
  rw [List.getElem?_drop] at at_
  obtain ⟨l, path, shown⟩ := reps (i + k) set (Nat.le_add_right i k) at_
  rw [shape.pairsFrom_eq path, ← shown, Bundles.pairs, contents_nodes, List.flatMap_def]

theorem From.eq (shape : Shape home m) {node : RemotePtr} {pairs : List (Pair K V)}
    (from_ : From home m a buckets i node pairs) :
    m.pairsFrom node ++ m.pairsOf (buckets.drop (i + 1)) = pairs := by
  obtain ⟨l, later, path, rest, rfl⟩ := from_
  rw [shape.pairsFrom_eq path, rest.eq shape]

variable [DecidableEq K] {T : Template K V} {t : Table K V} {res : HtRes V}

theorem RehashInv.pending_eq (shape : Shape home m) {pc : RehashPc K V} (inv : RehashInv T t home m res pc) :
    pc.pending m = t.pending := by
  cases pc with
  | readRoot => exact inv.symm
  | readBuckets | listLength => exact inv.2.symm
  | freeze | publish => exact inv.2.1.symm
  | melt => exact inv.1.symm
  | bucket buckets new i =>
    obtain ⟨a, _, rest⟩ := inv
    exact rest.eq shape
  | foreach buckets new i node =>
    obtain ⟨_, a, _, from_⟩ := inv
    exact from_.eq shape
  | pairs buckets new i next rest =>
    obtain ⟨_, a, _, later, from_, split⟩ := inv
    rw [split, RehashPc.pending, from_.eq shape]
  | insert buckets new i next pair rest set pc =>
    obtain ⟨_, _, _, a, _, later, from_, split⟩ := inv
    rw [split, RehashPc.pending, from_.eq shape]

end Pending

/-! ## The condition -/

variable [DecidableEq K]

/-- The operation that wins a lock with this action, and the first node it will look at. -/
def State.winning (s : State K V) : Action K V → Option (IhtOp K V × RemotePtr)
  | .invoke _ _ | .tryRehash _ => none
  | .step client =>
    match s.threads client with
    | .running _ op (.inSet set .acquire) =>
      if s.mem.locks set.lock = some .unlocked then some (op, set.first) else none
    | _ => none

/-- The operation is not about the pairs `pending`, and an insert meets its key if it is in the nodes. -/
def Meets (m : Mem K V) (pending : List (Pair K V)) (op : IhtOp K V) (first : RemotePtr) : Prop :=
  (∀ pair ∈ pending, pair.key ≠ op.key) ∧
    (op.isInsert = true → ¬ Bundles.Hidden ((m.chain m.next first).map (·.pairs)) op.key)

instance (m : Mem K V) (pending : List (Pair K V)) (op : IhtOp K V) (first : RemotePtr) :
    Decidable (Meets m pending op first) := inferInstanceAs (Decidable (_ ∧ _))

/-- No operation wins a lock while its key is among the pairs a resize has still to
add, and no insert wins the lock of a bucket that has its key after a node with room. -/
def WinsSeen (s : State K V) (action : Action K V) : Prop :=
  ∀ winning ∈ s.winning action, ∀ c, Meets s.mem ((s.threads c).pending s.mem) winning.1 winning.2

variable {T : Template K V} {peer : Nat → Nat} {s s' : State K V} {t : Table K V} {home : Home} {answer : Nat → HtRes V}
  {action : Action K V}

theorem Inv.pending_eq (inv : Inv T t home answer s) (c : Nat) : (s.threads c).pending s.mem = t.pending ∨
    (s.threads c).pending s.mem = [] ∧ ∀ pc, s.threads c ≠ .resizing pc := by
  have own := inv.threads c
  cases at_ : s.threads c with
  | idle | running => exact .inr ⟨rfl, by simp⟩
  | resizing pc =>
    rw [at_] at own
    exact .inl (own.2.pending_eq inv.ground.shape)

theorem Inv.clear (inv : Inv T t home answer s) {c id : Nat} {op : IhtOp K V} {set : LinkedSet}
    (win : Win T t s c id op set) (seen : WinsSeen s (.step c)) : t.Clear T op := by
  have winning : s.winning (.step c) = some (op, set.first) := by
    simp [State.winning, win.runs, win.open_]
  have meets := seen _ winning
  constructor
  · by_cases resizing : ∃ c' pc, s.threads c' = .resizing pc
    · obtain ⟨c', pc, there⟩ := resizing
      rcases inv.pending_eq c' with same | ⟨_, never⟩
      · rw [← same]
        exact (meets c').1
      · exact absurd there (never pc)
    · rw [inv.settled fun c' pc there => resizing ⟨c', pc, there⟩]
      simp
  · intro isInsert
    have bundles := inv.ground.shape.bundles_eq (inv.ground.opened win.here win.open_)
    rw [← bundles]
    exact (meets c).2 isInsert

/-! ## Linearizability -/

theorem Table.Holds.start (positive : 1 ≤ T.initialSize) :
    (⟨T.initialSize, fun _ => .empty, []⟩ : Table K V).Holds T .empty where
  pos := positive
  nonempty _ := by simp [Bundles.empty]
  bucket _ _ := .nil fun _ _ => rfl
  distinct := .nil
  bound _ member := by cases member

theorem Table.Holds.resized {t' : Table K V} {σ : FiniteMap K V} (holds : t.Holds T σ) (resized : Resized T t t') :
    t'.Holds T σ := by
  cases resized with
  | keep => exact holds
  | readd next => exact holds.readd next
  | double settled => exact holds.doubled settled

abbrev Template.mapAfter (T : Template K V) (order : List (Entry Nat (IhtOp K V) (HtRes V))) : FiniteMap K V :=
  (mapSpec K T.zero).final (mapSpec K T.zero).init order

theorem Inv.linearizable (positive : 1 ≤ T.initialSize) {host : Nat}
    (run : Steps (exec T peer) (fun s action => Alone peer s action ∧ WinsSeen s action) (initial T host) s) :
    ∃ t home answer order, Inv T t home answer s ∧ t.Holds T (T.mapAfter order) ∧
      Record (mapSpec K T.zero) s.history s.ops order (s.view answer) := by
  refine run.invariant (P := fun s => ∃ t home answer order, Inv T t home answer s ∧ t.Holds T (T.mapAfter order) ∧
    Record (mapSpec K T.zero) s.history s.ops order (s.view answer)) ?_ ?_
  · obtain ⟨home, inv⟩ := start T positive host
    exact ⟨_, home, _, [], inv, .start positive, .start _⟩
  · rintro s action s' ⟨t, home, answer, order, inv, holds, record⟩ ⟨alone, seen⟩ enabled
    obtain ⟨t', home', answer', inv', move⟩ := inv.next alone enabled
    rcases move.record record enabled with ⟨_, resized, record'⟩ | ⟨c, id, op, set, rfl, win, rfl, record'⟩
    · exact ⟨t', home', answer', order, inv', holds.resized resized, record'⟩
    · obtain ⟨holds', agrees⟩ := holds.apply (inv.clear win seen)
      refine ⟨_, home', answer', _, inv', ?_, record' agrees.symm⟩
      rw [Template.mapAfter, SeqSpec.final_append]
      exact holds'

/-- A run of clients and resizes, one at a time, in which no operation wins a lock
while its key is still to be added and no insert misses its key, is linearizable. -/
theorem linearizable_of_seen {initialSize : Nat} (positive : 1 ≤ initialSize) (peer : Nat → Nat) (host : Nat)
    {s : State (BitVec 32) (BitVec 32)}
    (run : Steps (exec (intTemplate initialSize) peer) (fun s action => Alone peer s action ∧ WinsSeen s action)
      (initial (intTemplate initialSize) host) s) :
    Linearizable (mapSpec (BitVec 32) (0 : BitVec 32)) s.history ∧ InsertsKept s.history := by
  obtain ⟨t, home, answer, order, _, _, record⟩ := Inv.linearizable positive run
  have linearizable : Linearizable (mapSpec (BitVec 32) (0 : BitVec 32)) s.history := ⟨order, record.lin⟩
  exact ⟨linearizable, insertsKept_of_linearizable (fun _ _ _ => record.once) linearizable⟩

def HostSeen (host : Nat) (s : State K V) (action : Action K V) : Prop :=
  ∀ winning ∈ s.winning action, Meets s.mem ((s.threads host).pending s.mem) winning.1 winning.2

instance (host : Nat) (s : State K V) (action : Action K V) : Decidable (HostSeen host s action) :=
  inferInstanceAs (Decidable (∀ winning ∈ s.winning action, Meets s.mem ((s.threads host).pending s.mem) winning.1 winning.2))

theorem winsSeen_of_host {host : Nat} (only : ∀ c pc, s.threads c = .resizing pc → c ∈ [host])
    (seen : HostSeen host s action) : WinsSeen s action := by
  intro winning member c
  have meets := seen winning member
  by_cases resizing : ∃ pc, s.threads c = .resizing pc
  · obtain ⟨pc, there⟩ := resizing
    rw [List.mem_singleton.mp (only c pc there)]
    exact meets
  · refine ⟨?_, meets.2⟩
    cases at_ : s.threads c with
    | resizing pc => exact absurd ⟨pc, at_⟩ resizing
    | idle | running => simp [Thread.pending]

/-- Client 0 inserts ten keys into the one bucket of a table, calls `try_rehash` and publishes the new root. -/
def untilPublished : List (Action (BitVec 32) (BitVec 32)) :=
  ((List.range 10).flatMap fun k => .invoke 0 (.insert (.ofNat 32 k) (.ofNat 32 (k + 20))) ::
    List.replicate (if k < 8 then 8 else 9) (.step 0)) ++ .tryRehash 0 :: List.replicate 7 (.step 0)

def tenInserts : List (Event Nat (IhtOp (BitVec 32) (BitVec 32)) (HtRes (BitVec 32))) :=
  (List.range 10).flatMap fun k => [.inv k (.insert (.ofNat 32 k) (.ofNat 32 (k + 20))), .res k ⟨.trueState, 0⟩]

/-- Client 1 looks for the first key when the resize has added it, with nine keys still to be added. -/
def readAdded : List (Action (BitVec 32) (BitVec 32)) :=
  untilPublished ++ List.replicate 9 (.step 0) ++ .invoke 1 (.contains 0) :: List.replicate 5 (.step 1)

theorem linearizable_of_seen_readAdded : ∃ s : State (BitVec 32) (BitVec 32),
    s.history = tenInserts ++ [.inv 10 (.contains 0), .res 10 ⟨.trueState, 20⟩] ∧
    Linearizable (mapSpec (BitVec 32) (0 : BitVec 32)) s.history ∧ InsertsKept s.history := by
  have ran : (runAll (fun s action => if CalledBy [0] action ∧ HostSeen 0 s action then
      exec (intTemplate 1) (fun c => c) s action else none) (initial (intTemplate 1) 0) readAdded).map
      (·.history) = some (tenInserts ++ [.inv 10 (.contains 0), .res 10 ⟨.trueState, 20⟩]) := by decide +kernel
  obtain ⟨s, final, history⟩ := Option.map_eq_some_iff.mp ran
  have run : Steps (exec (intTemplate 1) fun c => c) (fun s action => Alone (fun c => c) s action ∧ WinsSeen s action)
      (initial (intTemplate 1) 0) s :=
    steps_of_calledBy (fun _ _ _ only enabled called seen =>
      ⟨alone_of_calledBy only enabled called, winsSeen_of_host only seen⟩) (fun _ => rfl) (steps_of_runAll readAdded final)
  exact ⟨s, history, linearizable_of_seen (Nat.le_refl 1) (fun c => c) 0 run⟩

/-- Client 1 looks for the first key before the resize adds it. -/
def readEarly : List (Action (BitVec 32) (BitVec 32)) :=
  untilPublished ++ .invoke 1 (.contains 0) :: List.replicate 5 (.step 1)

theorem not_linearizable_readEarly : ¬ ∀ s,
    Steps (exec (intTemplate 1) fun c => c) (Alone fun c => c) (initial (intTemplate 1) 0) s →
      Linearizable (mapSpec (BitVec 32) (0 : BitVec 32)) s.history := by
  intro claimed
  have ran : (runAll (fun s action => if CalledBy [0] action ∧ True then exec (intTemplate 1) (fun c => c) s action
      else none) (initial (intTemplate 1) 0) readEarly).map (·.history) =
      some (tenInserts ++ [.inv 10 (.contains 0), .res 10 ⟨.falseState, 0⟩]) := by decide +kernel
  obtain ⟨s, final, history⟩ := Option.map_eq_some_iff.mp ran
  have linearizable := claimed s (steps_of_calledBy (fun _ _ _ only enabled called _ =>
    alone_of_calledBy only enabled called) (fun _ => rfl) (steps_of_runAll readEarly final))
  rw [history] at linearizable
  have invoked : ∀ i op, Event.inv i op ∈ tenInserts ++ [.inv 10 (.contains 0), .res 10 ⟨.falseState, 0⟩] →
      op = if i < 10 then .insert (.ofNat 32 i) (.ofNat 32 (i + 20)) else .contains 0 := by
    intro i op member
    simp only [tenInserts, List.mem_append, List.mem_flatMap, List.mem_range, List.mem_cons, Event.inv.injEq,
      reduceCtorEq, List.not_mem_nil, or_false] at member
    rcases member with ⟨k, bound, rfl, rfl⟩ | ⟨rfl, rfl⟩
    · rw [if_pos bound]
    · rfl
  have kept := insertsKept_of_linearizable
    (fun i op op' first second => (invoked i op first).trans (invoked i op' second).symm) linearizable
  -- operation 0 inserted key 0 before operation 10 looked for it, and nothing was removed
  have found := (kept 0 10 0 20 (.contains 0) 0 ⟨.falseState, 0⟩ (by decide +kernel) (by decide +kernel)
    (by decide +kernel) (by decide +kernel) ⟨⟨.trueState, 0⟩, .contains 0, by decide +kernel⟩
    fun r member => absurd member (by simp [tenInserts])).1 rfl
  cases found

end RdmaIht.Hashtable
