import RdmaIht.Hashtable.Lookups

/-! One `LinkedSet` and the count in its first node.

The calls are made in turn on a set that its constructor has built, in a memory
that may hold anything else. A node that is written back keeps its link, so that
the chain only grows; the total length is changed after the node was written, by
a read and a write of its own, and is the number of pairs as an `int`.
-/

set_option autoImplicit false

namespace RdmaIht.Hashtable

variable {K V : Type}

/-! ## Links -/

namespace Mem

/-- Every link of the first memory is in the second. -/
def LinksKept (m m' : Mem K V) : Prop :=
  ∀ p n, m.nodes p = some n → ∃ n', m'.nodes p = some n' ∧ (n.next ≠ .null → n'.next = n.next)

/-- The pairs that `foreach` passes to its function, at most `fuel` nodes long. -/
def foreach (m : Mem K V) : Nat → RemotePtr → Except Fault (List (Pair K V))
  | 0, _ => .error .outOfFuel
  | fuel + 1, node =>
    if node = .null then .ok []
    else
      match m.nodes node with
      | none => .error .badAccess
      | some data => do
        let rest ← m.foreach fuel data.next
        return data.pairs ++ rest

variable {m m' m'' : Mem K V} {mine mine' : RemotePtr → Prop} {p : RemotePtr} {l l' : List (RemotePtr × Node K V)}

theorem LinksKept.refl (m : Mem K V) : m.LinksKept m := fun _ n stored => ⟨n, stored, fun _ => rfl⟩

theorem LinksKept.trans (first : m.LinksKept m') (second : m'.LinksKept m'') : m.LinksKept m'' := by
  intro p n stored
  obtain ⟨n', stored', kept⟩ := first p n stored
  obtain ⟨n'', stored'', kept'⟩ := second p n' stored'
  refine ⟨n'', stored'', fun linked => ?_⟩
  have same := kept linked
  rw [kept' (by rw [same]; exact linked), same]

theorem LinksKept.setNode {data : Node K V} (keeps : ∀ n, m.nodes p = some n → n.next ≠ .null → data.next = n.next) :
    m.LinksKept (m.setNode p data) := by
  intro q n stored
  rw [nodes_setNode]
  by_cases here : q = p
  · subst here
    rw [if_pos rfl]
    exact ⟨data, rfl, keeps n stored⟩
  · rw [if_neg here]
    exact ⟨n, stored, fun _ => rfl⟩

theorem LinksKept.newNode (allocated : m.Allocated) (self : Nat) (data : Node K V) : m.LinksKept (m.newNode self data) := by
  refine LinksKept.setNode fun n stored => ?_
  have low := allocated.nodes_lt _ (Option.ne_none_iff_exists'.mpr ⟨n, stored⟩)
  exact absurd low (Nat.lt_irrefl _)

theorem Allocated.setLock (allocated : m.Allocated) (l : RemotePtr) (w : LockType) : (m.setLock l w).Allocated :=
  ⟨allocated.pos, allocated.nodes_lt⟩

/-- The nodes of a chain stay on it, in their order and before all that come later. -/
theorem Path.isPrefix (kept : m.LinksKept m') (path : m.Path mine p l .null) (path' : m'.Path mine' p l' .null) :
    l.map Prod.fst <+: l'.map Prod.fst := by
  induction l generalizing p l' with
  | nil => exact List.nil_prefix
  | cons head rest ih =>
    obtain ⟨r, n⟩ := head
    obtain ⟨rfl, notNull, _, stored, _, tail⟩ := path
    cases l' with
    | nil => exact absurd path' notNull
    | cons head' rest' =>
      obtain ⟨r', n'⟩ := head'
      obtain ⟨rfl, _, _, stored', _, tail'⟩ := path'
      obtain ⟨data, now, link⟩ := kept _ n stored
      cases stored'.symm.trans now
      rw [List.map_cons, List.map_cons, List.prefix_cons_inj]
      cases rest with
      | nil => exact List.nil_prefix
      | cons next more =>
        rw [link tail.2.1] at tail'
        exact ih tail tail'

theorem Path.foreach_eq (path : m.Path mine p l .null) {fuel : Nat} (enough : l.length < fuel) :
    m.foreach fuel p = .ok (l.flatMap (·.2.pairs)) := by
  induction l generalizing p fuel with
  | nil =>
    obtain ⟨fuel, rfl⟩ : ∃ k, fuel = k + 1 := ⟨fuel - 1, by omega⟩
    rw [show p = .null from path]
    simp [foreach]
  | cons head rest ih =>
    obtain ⟨r, n⟩ := head
    obtain ⟨rfl, notNull, _, stored, _, tail⟩ := path
    rw [List.length_cons] at enough
    obtain ⟨fuel, rfl⟩ : ∃ k, fuel = k + 1 := ⟨fuel - 1, by omega⟩
    have further : m.foreach fuel n.next = .ok (rest.flatMap (·.2.pairs)) := ih tail (by omega)
    simp only [foreach, notNull, if_false, stored, further, bind, Except.bind]
    rfl

end Mem

/-! ## Operations on the bundles -/

variable [DecidableEq K] {T : Template K V} {op : IhtOp K V}

theorem length_removePair {key : K} {pairs : List (Pair K V)} {pair : Pair K V} (found : findPair key pairs = some pair) :
    (removePair key pairs).length ≤ pairs.length := by
  have length := (removePair_perm found).length_eq
  rw [List.length_cons] at length
  omega

theorem length_visit {pairs pairs' : List (Pair K V)} {isLast isIncrement : Bool} {res : HtRes V}
    (small : pairs.length ≤ nodeBundleSize) (writes : visit T op pairs isLast = .write pairs' isIncrement res) :
    pairs'.length ≤ nodeBundleSize := by
  cases op with
  | contains key =>
    simp only [visit, containsVisit] at writes
    split at writes <;> cases writes
  | insert key value =>
    simp only [visit, insertVisit] at writes
    split at writes
    · cases writes
    · split at writes
      · split at writes <;> cases writes
      · cases writes
        rw [List.length_append, List.length_singleton]
        omega
  | remove key =>
    simp only [visit, removeVisit] at writes
    split at writes
    · next found =>
      cases writes
      exact Nat.le_trans (length_removePair found) small
    · cases writes

theorem length_applyNodes (op : IhtOp K V) {nodes : List (List (Pair K V))}
    (small : ∀ pairs ∈ nodes, pairs.length ≤ nodeBundleSize) :
    ∀ pairs ∈ (Bundles.applyNodes T op nodes).1, pairs.length ≤ nodeBundleSize := by
  induction nodes with
  | nil => exact small
  | cons first rest ih =>
    obtain ⟨here, later⟩ := List.forall_mem_cons.mp small
    simp only [Bundles.applyNodes]
    cases visited : visit T op first rest.isEmpty with
    | next => exact List.forall_mem_cons.mpr ⟨here, ih later⟩
    | unlock res => exact small
    | write pairs isIncrement res => exact List.forall_mem_cons.mpr ⟨length_visit here visited, later⟩
    | append pair res =>
      refine List.forall_mem_cons.mpr ⟨here, List.forall_mem_cons.mpr ⟨?_, later⟩⟩
      rw [List.length_singleton]
      decide

namespace Bundles

structure Counted (b : Bundles K V) : Prop where
  small : ∀ pairs ∈ b.nodes, pairs.length ≤ nodeBundleSize
  total : b.total = BitVec.ofNat 32 b.pairs.length

omit [DecidableEq K] in
theorem Counted.empty : (Bundles.empty : Bundles K V).Counted where
  small := by simp [Bundles.empty]
  total := by simp [Bundles.empty, pairs]

theorem Counted.apply {b : Bundles K V} (counted : b.Counted) (op : IhtOp K V) : (b.apply T op).1.Counted where
  small := by
    rw [pairs_apply]
    exact length_applyNodes op counted.small
  total := total_apply op counted.total

theorem Counted.applyAll {b : Bundles K V} (counted : b.Counted) (ops : List (IhtOp K V)) :
    (b.applyAll T ops).Counted := by
  induction ops generalizing b with
  | nil => exact counted
  | cons op rest ih => exact ih (counted.apply op)

end Bundles

/-! ## Calls on one set -/

section Run

variable (T)

/-- The rest of a call on `set`, in at most `fuel` steps. -/
def finishSet (set : LinkedSet) (pool : Nat) (op : IhtOp K V) : Nat → Mem K V → SetPc K V → Except Fault (Mem K V × HtRes V)
  | 0, _, _ => .error .outOfFuel
  | fuel + 1, m, pc =>
    match setStep T pool set op m pc with
    | .error fault => .error fault
    | .ok (m, .inl pc) => finishSet set pool op fuel m pc
    | .ok (m, .inr res) => .ok (m, res)

/-- Calls on `set` made in turn, each on the pool of the thread that makes it. -/
def setCalls (set : LinkedSet) (fuel : Nat) (m : Mem K V) :
    List (Nat × IhtOp K V) → Except Fault (Mem K V × List (HtRes V))
  | [] => .ok (m, [])
  | (pool, op) :: rest => do
    let (m, res) ← finishSet T set pool op fuel m .acquire
    let (m, results) ← setCalls set fuel m rest
    return (m, res :: results)

end Run

variable {set : LinkedSet} {m m' : Mem K V} {pool : Nat} {pc : SetPc K V}

theorem finishSet_mono {fuel more : Nat} (longer : fuel ≤ more) {res : HtRes V}
    (done : finishSet T set pool op fuel m pc = .ok (m', res)) : finishSet T set pool op more m pc = .ok (m', res) := by
  induction fuel generalizing more m pc with
  | zero => cases done
  | succ fuel ih =>
    obtain ⟨more, rfl⟩ : ∃ k, more = k + 1 := ⟨more - 1, by omega⟩
    simp only [finishSet] at done ⊢
    split at done
    · cases done
    · exact ih (by omega) done
    · exact done

theorem setCalls_mono {fuel more : Nat} (longer : fuel ≤ more) {calls : List (Nat × IhtOp K V)} {results : List (HtRes V)}
    (done : setCalls T set fuel m calls = .ok (m', results)) : setCalls T set more m calls = .ok (m', results) := by
  induction calls generalizing m results with
  | nil => exact done
  | cons call rest ih =>
    obtain ⟨pool, op⟩ := call
    obtain ⟨⟨m₁, res⟩, first, others⟩ := bind_eq_ok.mp done
    obtain ⟨⟨m₂, later⟩, tail, last⟩ := bind_eq_ok.mp others
    cases last
    exact bind_eq_ok.mpr ⟨_, finishSet_mono longer first, bind_eq_ok.mpr ⟨_, ih tail, rfl⟩⟩

def SetPc.KeepsLink (m : Mem K V) (set : LinkedSet) : SetPc K V → Prop
  | .writeNode node data _ _ => ∀ n, m.nodes node = some n → n.next ≠ .null → data.next = n.next
  | .writeFirst data _ => ∀ n, m.nodes set.first = some n → n.next ≠ .null → data.next = n.next
  | .acquire | .walk _ | .readFirst _ _ | .unlock _ => True

theorem setStep_links {next : SetPc K V ⊕ HtRes V} (allocated : m.Allocated) (keeps : pc.KeepsLink m set)
    (stepped : setStep T pool set op m pc = .ok (m', next)) :
    m.LinksKept m' ∧ ∀ pc', next = .inl pc' → pc'.KeepsLink m' set := by
  cases setStep_branch stepped with
  | locks | spins | last | further | found => exact ⟨.refl m, fun pc' goes => by cases goes; trivial⟩
  | deleted | unlock => exact ⟨.refl m, fun pc' goes => by cases goes⟩
  | write stored | readFirst stored =>
    refine ⟨.refl m, fun pc' goes => ?_⟩
    cases goes
    intro n same _
    cases stored.symm.trans same
    rfl
  | @append node data pair res stored visited =>
    -- only the last node gets a node after it, and it has no link yet
    have last : data.next = .null := by
      by_contra more
      rw [decide_eq_false more] at visited
      exact visit_not_append _ visited
    refine ⟨.newNode allocated pool _, fun pc' goes => ?_⟩
    cases goes
    intro n same linked
    have old : m.fresh pool ≠ node := by
      rintro rfl
      exact Nat.lt_irrefl _ (allocated.nodes_lt _ (Option.ne_none_iff_exists'.mpr ⟨data, stored⟩))
    rw [Mem.nodes_newNode, if_neg old.symm, stored] at same
    cases same
    exact absurd last linked
  | writeNode | writeFirst => exact ⟨.setNode keeps, fun pc' goes => by cases goes; trivial⟩

/-- No call is under way on the set, and it holds the bundles `b`. -/
structure Idle (m : Mem K V) (set : LinkedSet) (b : Bundles K V) : Prop where
  allocated : m.Allocated
  notNull : set.first ≠ .null
  unlocked : m.locks set.lock = some .unlocked
  represents : m.Represents (fun _ => True) set.first b

/-- A call that has the lock of its set ends, and leaves and returns what was decided when it won the lock. -/
theorem finishSet_of_outcome (pool : Nat) {home : Home} {q : Place} {fin : Bundles K V} {res : HtRes V}
    (allocated : m.Allocated) (own : home set.first = q) (stored : m.nodes set.first ≠ none) (notNull : set.first ≠ .null)
    (word : m.locks set.lock ≠ none) (keeps : pc.KeepsLink m set)
    (outcome : Outcome T m (home · = q) set op fin res pc) :
    ∃ fuel m', finishSet T set pool op fuel m pc = .ok (m', res) ∧ Idle m' set fin ∧ m.LinksKept m' := by
  generalize size : pc.rank m = n
  induction n using Nat.strongRecOn generalizing home m pc with
  | ind n ih =>
    rcases outcome_step pool allocated own stored notNull word outcome with
      ⟨home', m', pc', stepped, outcome', change, locks⟩ | ⟨rfl, stepped, rep⟩
    · obtain ⟨links, goes⟩ := setStep_links allocated keeps stepped
      have closer := outcome.rank_lt allocated stepped
      have own' : home' set.first = q := (change.places _ (allocated.nodes_lt _ stored)).trans own
      obtain ⟨fuel, m'', done, idle, links'⟩ := ih _ (size ▸ closer) (allocated.change change) own'
        (change.stored _ stored) (by rw [locks]; exact word) (goes pc' rfl) outcome' rfl
      exact ⟨fuel + 1, m'', by simp only [finishSet, stepped]; exact done, idle, links.trans links'⟩
    · obtain ⟨links, _⟩ := setStep_links allocated keeps stepped
      refine ⟨1, m.setLock set.lock .unlocked, by simp only [finishSet, stepped],
        ⟨allocated.setLock _ _, notNull, ?_, ?_⟩, links⟩
      · rw [Mem.locks_setLock, if_pos rfl]
      · exact rep.frame fun r _ _ => ⟨rfl, trivial⟩

namespace Idle

variable {b : Bundles K V}

omit [DecidableEq K] in
theorem stored (idle : Idle m set b) : m.nodes set.first ≠ none := by
  obtain ⟨l, path, _⟩ := idle.represents
  cases l with
  | nil => exact absurd path idle.notNull
  | cons head rest =>
    obtain ⟨r, n⟩ := head
    obtain ⟨rfl, _, _, stored, _⟩ := path
    simp [stored]

theorem call (idle : Idle m set b) (pool : Nat) (op : IhtOp K V) :
    ∃ fuel m', finishSet T set pool op fuel m .acquire = .ok (m', (b.apply T op).2) ∧
      Idle m' set (b.apply T op).1 ∧ m.LinksKept m' := by
  -- all blocks count as blocks of the set
  have rep : (m.setLock set.lock .locked).Represents (fun _ => ((RemotePtr.null, 0) : Place) = (.null, 0)) set.first b :=
    idle.represents.frame fun r _ _ => ⟨rfl, rfl⟩
  have outcome : Outcome T _ _ set op (b.apply T op).1 (b.apply T op).2 (.walk set.first) := .start rep idle.notNull
  have word : (m.setLock set.lock .locked).locks set.lock ≠ none := by
    rw [Mem.locks_setLock, if_pos rfl]
    simp
  have stored : (m.setLock set.lock .locked).nodes set.first ≠ none := idle.stored
  have keeps : (SetPc.walk set.first : SetPc K V).KeepsLink (m.setLock set.lock .locked) set := trivial
  obtain ⟨fuel, m', done, after, links⟩ := finishSet_of_outcome pool (idle.allocated.setLock _ _) rfl stored
    idle.notNull word keeps outcome
  refine ⟨fuel + 1, m', ?_, after, links⟩
  simp only [finishSet, setStep, Mem.compareAndSwap, idle.unlocked, Option.map_some, if_true]
  exact done

theorem calls (idle : Idle m set b) (calls : List (Nat × IhtOp K V)) :
    ∃ fuel m' results, setCalls T set fuel m calls = .ok (m', results) ∧
      Idle m' set (b.applyAll T (calls.map (·.2))) ∧ m.LinksKept m' := by
  induction calls generalizing m b with
  | nil => exact ⟨0, m, [], rfl, idle, .refl m⟩
  | cons first rest ih =>
    obtain ⟨pool, op⟩ := first
    obtain ⟨fuel, m₁, done, idle₁, links₁⟩ := idle.call (T := T) pool op
    obtain ⟨fuel', m', results, done', idle', links'⟩ := ih idle₁
    have done := finishSet_mono (Nat.le_max_left fuel fuel') done
    have done' := setCalls_mono (Nat.le_max_right fuel fuel') done'
    exact ⟨_, m', _, bind_eq_ok.mpr ⟨_, done, bind_eq_ok.mpr ⟨_, done', rfl⟩⟩, idle', links₁.trans links'⟩

theorem called (idle : Idle m set b) {fuel : Nat} {calls : List (Nat × IhtOp K V)} {results : List (HtRes V)}
    (done : setCalls T set fuel m calls = .ok (m', results)) :
    Idle m' set (b.applyAll T (calls.map (·.2))) ∧ m.LinksKept m' := by
  obtain ⟨fuel', m'', results', done', after, links⟩ := idle.calls (T := T) calls
  have same := setCalls_mono (Nat.le_max_left fuel fuel') done
  rw [setCalls_mono (Nat.le_max_right fuel fuel') done'] at same
  cases same
  exact ⟨after, links⟩

omit [DecidableEq K] in
theorem start {m₀ : Mem K V} (allocated : m₀.Allocated) (host : Nat) :
    Idle (m₀.newSet host).2 (m₀.newSet host).1 Bundles.empty := by
  have stored : (m₀.newSet host).2.nodes (m₀.newSet host).1.first = some {} := by
    simp [Mem.newSet, Mem.nodes_newNode]
  have notNull : (m₀.newSet host).1.first ≠ .null := by
    intro null
    injection null with _ zero
    cases zero
  refine ⟨⟨Nat.succ_pos _, fun p some => ?_⟩, notNull, ?_, ?_⟩
  · simp only [Mem.newSet, Mem.nodes_newNode, Mem.nodes_setLock, Mem.nodes_bump] at some
    simp only [Mem.newSet, Mem.next_newNode, Mem.next_setLock, Mem.next_bump]
    split at some
    · next here =>
      rw [here]
      exact Nat.lt_succ_self _
    · have low := allocated.nodes_lt p some
      omega
  · simp [Mem.newSet, Mem.locks_setLock]
  · exact ⟨[((m₀.newSet host).1.first, {})], ⟨rfl, notNull, trivial, stored, by simp, rfl⟩, rfl⟩

end Idle

/-! ## The chain and its count -/

/-- `chain` is the chain of nodes from `first`: it ends, meets no node twice and has
no node with more pairs than there is room for; `foreach` visits its pairs, and
`total_length` is their number as an `int`. -/
structure Bookkept (m : Mem K V) (set : LinkedSet) (chain : List (RemotePtr × Node K V)) : Prop where
  linked : m.Path (fun _ => True) set.first chain .null
  acyclic : (chain.map Prod.fst).Nodup
  lengths : ∀ link ∈ chain, link.2.pairs.length ≤ nodeBundleSize
  visits : m.foreach (chain.length + 1) set.first = .ok (chain.flatMap (·.2.pairs))
  total : m.listLength set = BitVec.ofNat 32 (chain.map (·.2.pairs.length)).sum

omit [DecidableEq K] in
theorem Idle.bookkept {b : Bundles K V} (idle : Idle m set b) (counted : b.Counted) :
    ∃ chain, Bookkept m set chain ∧ chain.flatMap (·.2.pairs) = b.pairs := by
  obtain ⟨chain, path, shown⟩ := idle.represents
  have pairs : chain.flatMap (·.2.pairs) = b.pairs := by
    rw [← shown, Bundles.pairs, contents_nodes, List.flatMap_def]
  refine ⟨chain, ⟨path, ?_, ?_, path.foreach_eq (Nat.lt_succ_self _), ?_⟩, pairs⟩
  · exact List.pairwise_map.mpr (path.sorted.imp fun less same => Nat.ne_of_lt less (congrArg RemotePtr.address same))
  · intro link inside
    refine counted.small _ ?_
    rw [← shown, contents_nodes]
    exact List.mem_map_of_mem inside
  · rw [idle.represents.listLength_eq idle.notNull, counted.total, ← pairs, List.length_flatMap]

theorem setCalls_append {fuel : Nat} {earlier later : List (Nat × IhtOp K V)} {results : List (HtRes V)}
    (done : setCalls T set fuel m (earlier ++ later) = .ok (m', results)) : ∃ m₁ results₁ results₂,
      setCalls T set fuel m earlier = .ok (m₁, results₁) ∧ setCalls T set fuel m₁ later = .ok (m', results₂) := by
  induction earlier generalizing m results with
  | nil => exact ⟨m, [], results, rfl, done⟩
  | cons call rest ih =>
    obtain ⟨pool, op⟩ := call
    obtain ⟨⟨m₁, res⟩, first, others⟩ := bind_eq_ok.mp done
    obtain ⟨⟨m₂, results'⟩, tail, last⟩ := bind_eq_ok.mp others
    cases last
    obtain ⟨m₃, results₁, results₂, before, after⟩ := ih tail
    exact ⟨m₃, _, results₂, bind_eq_ok.mpr ⟨_, first, bind_eq_ok.mpr ⟨_, before, rfl⟩⟩, after⟩

/-- After any calls in turn on a set that its constructor has built, the chain is in
order, no node that was on it has left it, and the total length is the number of
pairs as long as an `int` can count them. -/
theorem linkedSet_bookkept (T : Template K V) {m₀ : Mem K V} (allocated : m₀.Allocated) (host : Nat)
    (calls : List (Nat × IhtOp K V)) : ∃ fuel m results chain,
      setCalls T (m₀.newSet host).1 fuel (m₀.newSet host).2 calls = .ok (m, results) ∧
      Bookkept m (m₀.newSet host).1 chain ∧
      ((chain.map (·.2.pairs.length)).sum < 2 ^ 31 →
        (m.listLength (m₀.newSet host).1).toInt = (chain.map (·.2.pairs.length)).sum) ∧
      ∀ earlier later, calls = earlier ++ later → ∃ m₁ results₁ chain₁,
        setCalls T (m₀.newSet host).1 fuel (m₀.newSet host).2 earlier = .ok (m₁, results₁) ∧
        Bookkept m₁ (m₀.newSet host).1 chain₁ ∧ chain₁.map Prod.fst <+: chain.map Prod.fst := by
  have start := Idle.start allocated host
  obtain ⟨fuel, m, results, done, idle, _⟩ := start.calls (T := T) calls
  obtain ⟨chain, bookkept, _⟩ := idle.bookkept (Bundles.Counted.empty.applyAll _)
  refine ⟨fuel, m, results, chain, done, bookkept, ?_, ?_⟩
  · intro small
    rw [bookkept.total, BitVec.toInt_ofNat']
    exact Int.bmod_eq_of_le (by omega) (by omega)
  · rintro earlier later rfl
    obtain ⟨m₁, results₁, results₂, before, after⟩ := setCalls_append done
    obtain ⟨idle₁, _⟩ := start.called before
    obtain ⟨chain₁, bookkept₁, _⟩ := idle₁.bookkept (Bundles.Counted.empty.applyAll _)
    exact ⟨m₁, results₁, chain₁, before, bookkept₁, bookkept₁.linked.isPrefix (idle₁.called after).2 bookkept.linked⟩

/-- A new `LinkedSet<int, int>`, alone in the pools. -/
def intSet : LinkedSet × Mem (BitVec 32) (BitVec 32) := Mem.empty.newSet 0

/-- One insert more than a node has room for, then a remove from the first node. -/
def secondNode : List (Nat × IhtOp (BitVec 32) (BitVec 32)) :=
  ((List.range 8).map fun i => (0, .insert (BitVec.ofNat 32 i) 5)) ++ [(1, .remove 3), (1, .contains 7)]

theorem linkedSet_bookkept_secondNode : ∃ fuel m results chain,
    setCalls (intTemplate 1) intSet.1 fuel intSet.2 secondNode = .ok (m, results) ∧
      Bookkept m intSet.1 chain ∧ (m.listLength intSet.1).toInt = 7 := by
  have ran : ((setCalls (intTemplate 1) intSet.1 40 intSet.2 secondNode).toOption.map fun final =>
      (final.1.listLength intSet.1).toInt) = some 7 := by decide +kernel
  obtain ⟨fuel, m, results, chain, done, bookkept, _⟩ :=
    linkedSet_bookkept (intTemplate 1) Mem.allocated_empty 0 secondNode
  have done : setCalls (intTemplate 1) intSet.1 fuel intSet.2 secondNode = .ok (m, results) := done
  cases short : setCalls (intTemplate 1) intSet.1 40 intSet.2 secondNode with
  | error fault => rw [short] at ran; cases ran
  | ok final =>
    -- the two runs are one, whichever has more fuel
    have one : (m, results) = final :=
      Except.ok.inj ((setCalls_mono (Nat.le_max_left fuel 40) done).symm.trans (setCalls_mono (Nat.le_max_right fuel 40) short))
    rw [short, ← one] at ran
    exact ⟨fuel, m, results, chain, done, bookkept, Option.some.inj ran⟩

/-! ## More pairs than an `int` can count -/

def insertsBelow (n : Nat) : List (Nat × IhtOp (BitVec 32) (BitVec 32)) :=
  (List.range n).map fun i => (0, .insert (BitVec.ofNat 32 i) 0)

theorem insertsBelow_total {n : Nat} (keys : n ≤ 2 ^ 32) : ∃ fuel m results chain,
    setCalls (intTemplate 1) intSet.1 fuel intSet.2 (insertsBelow n) = .ok (m, results) ∧
      Bookkept m intSet.1 chain ∧ (chain.map (·.2.pairs.length)).sum = n := by
  obtain ⟨fuel, m, results, done, idle, _⟩ := (Idle.start Mem.allocated_empty 0).calls (T := intTemplate 1) (insertsBelow n)
  obtain ⟨chain, bookkept, pairs⟩ := idle.bookkept (Bundles.Counted.empty.applyAll _)
  refine ⟨fuel, m, results, chain, done, bookkept, ?_⟩
  have ops : (insertsBelow n).map (·.2) = (pairsBelow n).map fun pair => .insert pair.key pair.val := by
    rw [insertsBelow, pairsBelow, List.map_map, List.map_map]
    rfl
  have all : ((pairsBelow n).filter fun pair => (findPair pair.key ([] : List (Pair (BitVec 32) (BitVec 32)))).isNone) =
      pairsBelow n := List.filter_eq_self.mpr fun _ _ => rfl
  have none : (Bundles.empty : Bundles (BitVec 32) (BitVec 32)).pairs = [] := rfl
  rw [ops, applyAll_inserts Compact.empty _ (nodup_pairsBelow keys), none, List.nil_append, all] at pairs
  rw [← List.length_flatMap, pairs, pairsBelow, List.length_map, List.length_range]

/-- 2^31 pairs make the `int` negative. -/
theorem linkedSet_not_bookkept : ∃ fuel m results chain,
    setCalls (intTemplate 1) intSet.1 fuel intSet.2 (insertsBelow (2 ^ 31)) = .ok (m, results) ∧
      Bookkept m intSet.1 chain ∧ (chain.map (·.2.pairs.length)).sum = 2 ^ 31 ∧
        (m.listLength intSet.1).toInt = -2 ^ 31 := by
  obtain ⟨fuel, m, results, chain, done, bookkept, sum⟩ := insertsBelow_total (n := 2 ^ 31) (by decide)
  refine ⟨fuel, m, results, chain, done, bookkept, sum, ?_⟩
  rw [bookkept.total, sum]
  decide

end RdmaIht.Hashtable
