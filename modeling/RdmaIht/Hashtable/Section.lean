import RdmaIht.Hashtable.Chain

/-! An operation on a `LinkedSet` between its acquire and its unlock.

When the lock is won, the bundles say what the operation will leave and return.
`Outcome` says this at every later point of the operation, of the memory as it is
then, and each step keeps it. `home` gives the bucket that a lock or a node belongs
to, and a step changes blocks of one bucket only.
-/

set_option autoImplicit false

namespace RdmaIht.Hashtable

variable {K V : Type}

/-- A bucket: the start of its array and its index. -/
abbrev Place := RemotePtr × Nat

abbrev Home := RemotePtr → Place

structure Shape (home : Home) (m : Mem K V) : Prop where
  pos : 0 < m.next
  nodes_lt : ∀ p, m.nodes p ≠ none → p.address < m.next
  locks_lt : ∀ p, m.locks p ≠ none → p.address < m.next
  arrays_lt : ∀ p, m.arrays p ≠ none → p.address < m.next
  lock : ∀ {a i set}, m.bucketAt a i = some set → home set.lock = (a, i) ∧ m.locks set.lock ≠ none
  first : ∀ {a i set}, m.bucketAt a i = some set → home set.first = (a, i) ∧ m.nodes set.first ≠ none ∧ set.first ≠ .null
  root : ∃ sets, m.arrays m.root.bucketStart = some sets ∧ sets.length = m.root.count ∧ 0 < m.root.count
  /-- Only the buckets of the root can be locked. -/
  retired : ∀ {a i set}, m.bucketAt a i = some set → a ≠ m.root.bucketStart → m.locks set.lock ≠ some .unlocked

structure Mem.Allocated (m : Mem K V) : Prop where
  pos : 0 < m.next
  nodes_lt : ∀ p, m.nodes p ≠ none → p.address < m.next

theorem Shape.allocated {home : Home} {m : Mem K V} (shape : Shape home m) : m.Allocated := ⟨shape.pos, shape.nodes_lt⟩

theorem Mem.allocated_empty : (Mem.empty : Mem K V).Allocated := ⟨Nat.one_pos, fun _ some => absurd rfl some⟩

/-- Blocks of the bucket `q` changed, or new blocks were given to it. -/
structure Change (q : Place) (home : Home) (m : Mem K V) (home' : Home) (m' : Mem K V) : Prop where
  root : m'.root = m.root
  arrays : m'.arrays = m.arrays
  next : m.next ≤ m'.next
  places : ∀ p, p.address < m.next → home' p = home p
  nodes : ∀ p, p.address < m.next → home p ≠ q → m'.nodes p = m.nodes p
  locks : ∀ p, home p ≠ q → m'.locks p = m.locks p
  stored : ∀ p, m.nodes p ≠ none → m'.nodes p ≠ none
  words : ∀ p, m.locks p ≠ none ↔ m'.locks p ≠ none
  allocated : ∀ p, m'.nodes p ≠ none → m.nodes p ≠ none ∨ p.address < m'.next
  opened : ∀ p, m'.locks p = some .unlocked → m.locks p = some .unlocked ∨ q.1 = m.root.bucketStart

section Changes

variable {q : Place} {home home' : Home} {m m' : Mem K V}

theorem Change.refl (q : Place) (home : Home) (m : Mem K V) : Change q home m home m where
  root := rfl
  arrays := rfl
  next := Nat.le_refl _
  places _ _ := rfl
  nodes _ _ _ := rfl
  locks _ _ := rfl
  stored _ := id
  words _ := Iff.rfl
  allocated _ := .inl
  opened _ := .inl

theorem Change.setLock {l : RemotePtr} {w : LockType} (here : home l = q) (stored : m.locks l ≠ none)
    (opened : w = .unlocked → q.1 = m.root.bucketStart) : Change q home m home (m.setLock l w) where
  root := rfl
  arrays := rfl
  next := Nat.le_refl _
  places _ _ := rfl
  nodes _ _ _ := rfl
  locks p away := by
    rw [Mem.locks_setLock, if_neg]
    rintro rfl
    exact away here
  stored _ := id
  words p := by
    rw [Mem.locks_setLock]
    split
    · next same => simp [same, stored]
    · rfl
  allocated _ := .inl
  opened p open_ := by
    rw [Mem.locks_setLock] at open_
    split at open_
    · exact .inr (opened (Option.some.inj open_))
    · exact .inl open_

theorem Change.setNode {p : RemotePtr} {data : Node K V} (here : home p = q) (stored : m.nodes p ≠ none) :
    Change q home m home (m.setNode p data) where
  root := rfl
  arrays := rfl
  next := Nat.le_refl _
  places _ _ := rfl
  nodes r _ away := by
    rw [Mem.nodes_setNode, if_neg]
    rintro rfl
    exact away here
  locks _ _ := rfl
  stored r some := by
    rw [Mem.nodes_setNode]
    split
    · simp
    · exact some
  words _ := Iff.rfl
  allocated r some := by
    rw [Mem.nodes_setNode] at some
    split at some
    · next same => exact .inl (same ▸ stored)
    · exact .inl some
  opened _ := .inl

theorem Change.newNode (q : Place) (home : Home) (m : Mem K V) (self : Nat) (data : Node K V) :
    Change q home m (Function.update home (m.fresh self) q) (m.newNode self data) where
  root := rfl
  arrays := rfl
  next := Nat.le_succ _
  places p low := by
    rw [Function.update_of_ne]
    rintro rfl
    exact Nat.lt_irrefl _ low
  nodes p low _ := by
    rw [Mem.nodes_newNode, if_neg]
    rintro rfl
    exact Nat.lt_irrefl _ low
  locks _ _ := rfl
  stored p some := by
    rw [Mem.nodes_newNode]
    split
    · simp
    · exact some
  words _ := Iff.rfl
  allocated p some := by
    rw [Mem.nodes_newNode] at some
    split at some
    · next same => exact .inr (by rw [same]; exact Nat.lt_succ_self _)
    · exact .inl some
  opened _ := .inl

theorem Change.bucketAt (change : Change q home m home' m') (a : RemotePtr) (i : Nat) :
    m'.bucketAt a i = m.bucketAt a i := by
  simp only [Mem.bucketAt, change.arrays]

theorem Mem.Allocated.change (allocated : m.Allocated) (change : Change q home m home' m') : m'.Allocated where
  pos := Nat.lt_of_lt_of_le allocated.pos change.next
  nodes_lt p some := (change.allocated p some).elim
    (fun old => Nat.lt_of_lt_of_le (allocated.nodes_lt p old) change.next) id

theorem Shape.change (shape : Shape home m) (change : Change q home m home' m') : Shape home' m' where
  pos := (shape.allocated.change change).pos
  nodes_lt := (shape.allocated.change change).nodes_lt
  locks_lt p some := Nat.lt_of_lt_of_le (shape.locks_lt p ((change.words p).mpr some)) change.next
  arrays_lt p some := Nat.lt_of_lt_of_le (shape.arrays_lt p (by rw [← change.arrays]; exact some)) change.next
  lock at_ := by
    rw [change.bucketAt] at at_
    obtain ⟨here, word⟩ := shape.lock at_
    exact ⟨(change.places _ (shape.locks_lt _ word)).trans here, (change.words _).mp word⟩
  first at_ := by
    rw [change.bucketAt] at at_
    obtain ⟨here, stored, notNull⟩ := shape.first at_
    exact ⟨(change.places _ (shape.nodes_lt _ stored)).trans here, change.stored _ stored, notNull⟩
  root := by
    rw [change.root, change.arrays]
    exact shape.root
  retired := by
    intro a i set at_ other open_
    rw [change.bucketAt] at at_
    rw [change.root] at other
    obtain ⟨here, _⟩ := shape.lock at_
    by_cases away : home set.lock = q
    · rcases change.opened _ open_ with before | inRoot
      · exact shape.retired at_ other before
      · rw [← away, here] at inRoot
        exact other inRoot
    · rw [change.locks _ away] at open_
      exact shape.retired at_ other open_

/-- Two buckets with one lock are one bucket. -/
theorem Shape.same_place (shape : Shape home m) {a a' : RemotePtr} {i i' : Nat} {set set' : LinkedSet}
    (at_ : m.bucketAt a i = some set) (at_' : m.bucketAt a' i' = some set') (lock : set.lock = set'.lock) :
    a = a' ∧ i = i' := by
  have here := (shape.lock at_).1
  rw [lock, (shape.lock at_').1] at here
  cases here
  exact ⟨rfl, rfl⟩

theorem Change.represents (change : Change q home m home' m') (shape : Shape home m) {q' : Place} (away : q' ≠ q)
    {p : RemotePtr} {b : Bundles K V} (rep : m.Represents (home · = q') p b) : m'.Represents (home' · = q') p b := by
  refine rep.frame fun r own some => ?_
  have low := shape.nodes_lt r some
  exact ⟨change.nodes r low (own.symm ▸ away), (change.places r low).trans own⟩

end Changes

/-! ## The steps of an operation on a `LinkedSet` -/

variable [DecidableEq K] {T : Template K V}

/-- At this point of an operation that has the lock of `set`, it will leave `fin` and return `res`. -/
def Outcome (T : Template K V) (m : Mem K V) (mine : RemotePtr → Prop) (set : LinkedSet) (op : IhtOp K V)
    (fin : Bundles K V) (res : HtRes V) : SetPc K V → Prop
  | .acquire => False
  | .walk node => ∃ pre post, m.Path mine set.first pre node ∧ m.Path mine node post .null ∧ post ≠ [] ∧
      (∀ a ∈ pre, visit T op a.2.pairs false = .next) ∧ (Mem.contents (pre ++ post)).apply T op = (fin, res)
  | .writeNode node data isIncrement res' => res' = res ∧ mine node ∧ m.nodes node ≠ none ∧
      ∃ b, (m.setNode node data).Represents mine set.first b ∧ b.changeTotal isIncrement = fin
  | .readFirst isIncrement res' => res' = res ∧ ∃ b, m.Represents mine set.first b ∧ b.changeTotal isIncrement = fin
  | .writeFirst data res' => res' = res ∧ (m.setNode set.first data).Represents mine set.first fin
  | .unlock res' => res' = res ∧ m.Represents mine set.first fin

theorem applyNodes_skip {op : IhtOp K V} {pre post : List (List (Pair K V))}
    (passed : ∀ pairs ∈ pre, visit T op pairs false = .next) (nonempty : post ≠ []) :
    Bundles.applyNodes T op (pre ++ post) =
      (pre ++ (Bundles.applyNodes T op post).1, (Bundles.applyNodes T op post).2) := by
  induction pre with
  | nil => rfl
  | cons pairs rest ih =>
    have more : (rest ++ post).isEmpty = false := by
      cases rest with
      | nil =>
        cases post with
        | nil => exact absurd rfl nonempty
        | cons => rfl
      | cons => rfl
    simp only [List.cons_append, Bundles.applyNodes, more, passed pairs (by simp)]
    rw [ih fun other member => passed other (List.mem_cons_of_mem _ member)]

theorem visit_not_append {op : IhtOp K V} {pair : Pair K V} {res : HtRes V} (pairs : List (Pair K V)) :
    visit T op pairs false ≠ .append pair res := by
  cases op with
  | contains key =>
    simp only [visit, containsVisit]
    split <;> simp
  | insert key value =>
    simp only [visit, insertVisit]
    split
    · simp
    · split <;> simp
  | remove key =>
    simp only [visit, removeVisit]
    split <;> simp

section Contents

variable {pre : List (RemotePtr × Node K V)} {r : RemotePtr} {n : Node K V}

omit [DecidableEq K] in
theorem contents_nodes (l : List (RemotePtr × Node K V)) : (Mem.contents l).nodes = l.map (·.2.pairs) := rfl

omit [DecidableEq K] in
theorem contents_replace (data : Node K V) (post : List (RemotePtr × Node K V)) {post' : List (RemotePtr × Node K V)}
    (total : data.totalLength = n.totalLength) :
    Mem.contents (pre ++ (r, data) :: post') =
      ⟨(Mem.contents (pre ++ (r, n) :: post)).total, pre.map (·.2.pairs) ++ data.pairs :: post'.map (·.2.pairs)⟩ := by
  cases pre with
  | nil => simp [Mem.contents, total]
  | cons head rest => simp [Mem.contents]

end Contents

section Steps

variable {home : Home} {q : Place} {m : Mem K V} {set : LinkedSet} {op : IhtOp K V} {fin : Bundles K V} {res : HtRes V}

def Keeps (T : Template K V) (self : Nat) (home : Home) (q : Place) (m : Mem K V) (set : LinkedSet) (op : IhtOp K V)
    (fin : Bundles K V) (res : HtRes V) (pc : SetPc K V) : Prop :=
  ∃ home' m' pc', setStep T self set op m pc = .ok (m', .inl pc') ∧ Outcome T m' (home' · = q) set op fin res pc' ∧
    Change q home m home' m' ∧ m'.locks = m.locks

theorem walk_keeps {node : RemotePtr} (self : Nat) (allocated : m.Allocated)
    (outcome : Outcome T m (home · = q) set op fin res (.walk node)) : Keeps T self home q m set op fin res (.walk node) := by
  obtain ⟨pre, post, before, after, nonempty, passed, applied⟩ := outcome
  obtain ⟨⟨r, n⟩, post, rfl⟩ := List.exists_cons_of_ne_nil nonempty
  obtain ⟨rfl, notNull, own, stored, grows, tail⟩ := id after
  have whole := Mem.path_append.mpr ⟨_, before, after⟩
  have isLast : decide (n.next = .null) = post.isEmpty := by
    cases post with
    | nil => simpa using show n.next = .null from tail
    | cons head rest => simpa using tail.2.1
  have skipped : ∀ pairs ∈ pre.map (·.2.pairs), visit T op pairs false = .next := by
    intro pairs member
    obtain ⟨a, inPre, rfl⟩ := List.mem_map.mp member
    exact passed a inPre
  have nodes : Bundles.applyNodes T op (Mem.contents (pre ++ (r, n) :: post)).nodes =
      (pre.map (·.2.pairs) ++ (Bundles.applyNodes T op (n.pairs :: post.map (·.2.pairs))).1,
        (Bundles.applyNodes T op (n.pairs :: post.map (·.2.pairs))).2) := by
    rw [contents_nodes, List.map_append, List.map_cons, applyNodes_skip skipped (by simp)]
  have isEmpty : (post.map (·.2.pairs)).isEmpty = post.isEmpty := by cases post <;> rfl
  simp only [Keeps, setStep, stored, isLast]
  rw [Bundles.apply, nodes, Bundles.applyNodes, isEmpty] at applied
  cases visited : visit T op n.pairs post.isEmpty with
  | next =>
    rw [visited] at applied
    refine ⟨home, m, _, rfl, ?_, .refl _ _ _, rfl⟩
    cases post with
    | nil =>
      rw [if_pos (show n.next = .null from tail)]
      cases applied
      exact ⟨rfl, _, whole, by simp [Mem.contents, Bundles.applyNodes]⟩
    | cons head rest =>
      rw [if_neg tail.2.1]
      have further : m.Path (home · = q) set.first (pre ++ [(r, n)]) n.next :=
        Mem.path_append.mpr ⟨_, before, rfl, notNull, own, stored, grows, rfl⟩
      refine ⟨pre ++ [(r, n)], head :: rest, further, tail, by simp, ?_, ?_⟩
      · intro a member
        rcases List.mem_append.mp member with old | new
        · exact passed a old
        · cases List.mem_singleton.mp new
          exact visited
      · rw [← applied, List.append_assoc, List.singleton_append, Bundles.apply, nodes, Bundles.applyNodes, isEmpty, visited]
  | unlock res' =>
    rw [visited] at applied
    refine ⟨home, m, _, rfl, ?_, .refl _ _ _, rfl⟩
    cases applied
    exact ⟨rfl, _, whole, by simp [Mem.contents]⟩
  | write pairs isIncrement res' =>
    rw [visited] at applied
    refine ⟨home, m, _, rfl, ?_, .refl _ _ _, rfl⟩
    cases applied
    refine ⟨rfl, own, by simp [stored], _, ⟨_, whole.setNode _ _ rfl, rfl⟩, ?_⟩
    rw [contents_replace { n with pairs := pairs } (n := n) post rfl]
  | append pair res' =>
    rw [visited] at applied
    -- the new node is linked to the last one by the write that follows
    have last : post = [] := by
      cases post with
      | nil => rfl
      | cons head rest =>
        exact absurd visited (visit_not_append _)
    subst last
    refine ⟨_, _, _, rfl, ?_, .newNode q home m self _, rfl⟩
    cases applied
    have low : ∀ r' n', (r', n') ∈ pre ++ [(r, n)] → r'.address < m.next := fun r' n' member =>
      allocated.nodes_lt r' (by simp [(whole.mem member).2.1])
    have ne_fresh : ∀ r' : RemotePtr, r'.address < m.next → r' ≠ m.fresh self := by
      rintro r' less rfl
      exact Nat.lt_irrefl _ less
    have kept : (m.newNode self { pairs := [pair] }).Path (Function.update home (m.fresh self) q · = q) set.first
        (pre ++ [(r, n)]) .null := by
      refine whole.frame fun r' n' member => ?_
      have other := ne_fresh r' (low r' n' member)
      refine ⟨by rw [Mem.nodes_newNode, if_neg other], fun own' => ?_⟩
      rw [Function.update_of_ne other]
      exact own'
    have here := ne_fresh r (low r n (by simp))
    refine ⟨rfl, by dsimp only; rw [Function.update_of_ne here]; exact own, ?_, _, ⟨_, kept.link
      { n with next := m.fresh self } { pairs := [pair] } (f := m.fresh self) (by simp [Mem.nodes_newNode]) rfl ?_ (by simp) low rfl, rfl⟩, ?_⟩
    · rw [Mem.nodes_newNode, if_neg here, stored]
      simp
    · intro null
      have positive := allocated.pos
      rw [Mem.fresh, RemotePtr.null] at null
      injection null with _ zero
      omega
    · rw [contents_replace { n with next := m.fresh self } (n := n) [] rfl]
      simp

theorem writeNode_keeps {node : RemotePtr} {data : Node K V} {isIncrement : Bool} {res' : HtRes V} (self : Nat)
    (outcome : Outcome T m (home · = q) set op fin res (.writeNode node data isIncrement res')) :
    Keeps T self home q m set op fin res (.writeNode node data isIncrement res') := by
  obtain ⟨rfl, own, some, b, rep, total⟩ := outcome
  obtain ⟨n, stored⟩ := Option.ne_none_iff_exists'.mp some
  exact ⟨home, m.setNode node data, .readFirst isIncrement res', by simp only [setStep, stored], ⟨rfl, b, rep, total⟩,
    .setNode own some, rfl⟩

theorem readFirst_keeps {isIncrement : Bool} {res' : HtRes V} (self : Nat) (notNull : set.first ≠ .null)
    (outcome : Outcome T m (home · = q) set op fin res (.readFirst isIncrement res')) :
    Keeps T self home q m set op fin res (.readFirst isIncrement res') := by
  obtain ⟨rfl, b, ⟨l, path, rfl⟩, rfl⟩ := outcome
  cases l with
  | nil => exact absurd path notNull
  | cons head rest =>
    obtain ⟨r, n⟩ := head
    obtain ⟨rfl, _, _, stored, _⟩ := id path
    have changed := path.setNode [] (n.changeTotal isIncrement) rfl
    exact ⟨home, m, .writeFirst (n.changeTotal isIncrement) res', by simp only [setStep, stored], ⟨rfl, _, changed, rfl⟩,
      .refl _ _ _, rfl⟩

theorem writeFirst_keeps {data : Node K V} {res' : HtRes V} (self : Nat) (own : home set.first = q)
    (some : m.nodes set.first ≠ none) (outcome : Outcome T m (home · = q) set op fin res (.writeFirst data res')) :
    Keeps T self home q m set op fin res (.writeFirst data res') := by
  obtain ⟨rfl, rep⟩ := outcome
  obtain ⟨n, stored⟩ := Option.ne_none_iff_exists'.mp some
  exact ⟨home, m.setNode set.first data, .unlock res', by simp only [setStep, stored], ⟨rfl, rep⟩, .setNode own some, rfl⟩

/-- What a step does after the lock is won. -/
theorem outcome_step (self : Nat) (allocated : m.Allocated) (own : home set.first = q) (stored : m.nodes set.first ≠ none)
    (notNull : set.first ≠ .null) (word : m.locks set.lock ≠ none) {pc : SetPc K V}
    (outcome : Outcome T m (home · = q) set op fin res pc) :
    Keeps T self home q m set op fin res pc ∨ pc = .unlock res ∧
      setStep T self set op m pc = .ok (m.setLock set.lock .unlocked, .inr res) ∧
        m.Represents (home · = q) set.first fin := by
  cases pc with
  | acquire => exact outcome.elim
  | walk node => exact .inl (walk_keeps self allocated outcome)
  | writeNode node data isIncrement res' => exact .inl (writeNode_keeps self outcome)
  | readFirst isIncrement res' => exact .inl (readFirst_keeps self notNull outcome)
  | writeFirst data res' => exact .inl (writeFirst_keeps self own stored outcome)
  | unlock res' =>
    obtain ⟨rfl, rep⟩ := outcome
    obtain ⟨w, word⟩ := Option.ne_none_iff_exists'.mp word
    exact .inr ⟨rfl, by simp only [setStep, word], rep⟩

theorem section_step (self : Nat) (shape : Shape home m) {a : RemotePtr} {i : Nat} (at_ : m.bucketAt a i = some set)
    {pc : SetPc K V} (outcome : Outcome T m (home · = (a, i)) set op fin res pc) :
    Keeps T self home (a, i) m set op fin res pc ∨ pc = .unlock res ∧
      setStep T self set op m pc = .ok (m.setLock set.lock .unlocked, .inr res) ∧
        m.Represents (home · = (a, i)) set.first fin := by
  obtain ⟨own, stored, notNull⟩ := shape.first at_
  exact outcome_step self shape.allocated own stored notNull (shape.lock at_).2 outcome

theorem acquire_step (op : IhtOp K V) (self : Nat) (shape : Shape home m) {a : RemotePtr} {i : Nat} (at_ : m.bucketAt a i = some set) :
    (m.locks set.lock = some .unlocked ∧
      setStep T self set op m .acquire = .ok (m.setLock set.lock .locked, .inl (.walk set.first))) ∨
    (m.locks set.lock = some .locked ∧ setStep T self set op m .acquire = .ok (m, .inl .acquire)) ∨
    m.locks set.lock = some .deleted ∧ setStep T self set op m .acquire = .ok (m, .inr (deletedResult T op)) := by
  obtain ⟨w, word⟩ := Option.ne_none_iff_exists'.mp (shape.lock at_).2
  simp only [setStep, Mem.compareAndSwap, word, Option.map_some]
  cases w with
  | unlocked => exact .inl ⟨rfl, rfl⟩
  | locked => exact .inr (.inl ⟨rfl, rfl⟩)
  | deleted => exact .inr (.inr ⟨rfl, rfl⟩)

/-- The bundles found when the lock is won decide the outcome. -/
theorem Outcome.start {b : Bundles K V} {mine : RemotePtr → Prop} (rep : m.Represents mine set.first b)
    (notNull : set.first ≠ .null) :
    Outcome T m mine set op (b.apply T op).1 (b.apply T op).2 (.walk set.first) := by
  obtain ⟨l, path, rfl⟩ := rep
  refine ⟨[], l, rfl, path, ?_, by simp, rfl⟩
  rintro rfl
  exact notNull path

omit [DecidableEq K] in
theorem Change.path {home' : Home} {m' : Mem K V} {q' : Place} (change : Change q home m home' m') (shape : Shape home m)
    (away : q' ≠ q) {p p' : RemotePtr} {l : List (RemotePtr × Node K V)} (path : m.Path (home · = q') p l p') :
    m'.Path (home' · = q') p l p' := by
  refine path.frame fun r n member => ?_
  obtain ⟨own, stored, _⟩ := path.mem member
  have low := shape.nodes_lt r (by simp [stored])
  exact ⟨change.nodes r low (own.symm ▸ away), fun own => (change.places r low).trans own⟩

omit [DecidableEq K] in
theorem Change.setNode_represents {home' : Home} {m' : Mem K V} {q' : Place} (change : Change q home m home' m')
    (shape : Shape home m) (away : q' ≠ q) {node p : RemotePtr} {data : Node K V} {b : Bundles K V}
    (stored : m.nodes node ≠ none) (rep : (m.setNode node data).Represents (home · = q') p b) :
    (m'.setNode node data).Represents (home' · = q') p b := by
  refine rep.frame fun r own some => ?_
  have low : r.address < m.next := by
    rw [Mem.nodes_setNode] at some
    split at some
    · next same => exact shape.nodes_lt r (same ▸ stored)
    · exact shape.nodes_lt r some
  refine ⟨?_, (change.places r low).trans own⟩
  rw [Mem.nodes_setNode, Mem.nodes_setNode, change.nodes r low (own.symm ▸ away)]

/-- A change of another bucket does not matter to the operation. -/
theorem Outcome.stable {home' : Home} {m' : Mem K V} {q' : Place} (change : Change q home m home' m')
    (shape : Shape home m) (away : q' ≠ q) (stored : m.nodes set.first ≠ none) {pc : SetPc K V}
    (outcome : Outcome T m (home · = q') set op fin res pc) : Outcome T m' (home' · = q') set op fin res pc := by
  cases pc with
  | acquire => exact outcome.elim
  | walk node =>
    obtain ⟨pre, post, before, after, rest⟩ := outcome
    exact ⟨pre, post, change.path shape away before, change.path shape away after, rest⟩
  | writeNode node data isIncrement res' =>
    obtain ⟨same, own, some, b, rep, total⟩ := outcome
    have low := shape.nodes_lt node some
    exact ⟨same, (change.places node low).trans own, change.stored node some, b,
      change.setNode_represents shape away some rep, total⟩
  | readFirst isIncrement res' =>
    obtain ⟨same, b, rep, total⟩ := outcome
    exact ⟨same, b, change.represents shape away rep, total⟩
  | writeFirst data res' =>
    obtain ⟨same, rep⟩ := outcome
    exact ⟨same, change.setNode_represents shape away stored rep⟩
  | unlock res' =>
    obtain ⟨same, rep⟩ := outcome
    exact ⟨same, change.represents shape away rep⟩

end Steps

end RdmaIht.Hashtable
