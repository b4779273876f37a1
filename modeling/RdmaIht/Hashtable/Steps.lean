import RdmaIht.Hashtable.Invariant

/-! The steps of a thread, except the one that publishes a new root.

`Sound` says what a step of a thread does to one bucket: a thread touches a bucket
only if it holds the lock or wins it, and when the lock is given back the bucket
holds the bundles that the table says.
-/

set_option autoImplicit false

namespace RdmaIht.Hashtable

variable {K V : Type} [DecidableEq K]

/-- The step of a thread from `thread` to `thread'`, which touches the bucket `q`. -/
structure Sound (T : Template K V) (q : Place) (t : Table K V) (home : Home) (m : Mem K V) (thread : Thread K V)
    (t' : Table K V) (home' : Home) (m' : Mem K V) (res' : HtRes V) (thread' : Thread K V) : Prop where
  change : Change q home m home' m'
  count : t'.count = t.count
  buckets : ∀ j, (m.root.bucketStart, j) ≠ q → t'.buckets j = t.buckets j
  pending : (∀ pc, thread ≠ .resizing pc) → t'.pending = t.pending
  settled : (∀ pc, thread' ≠ .resizing pc) → (∃ pc, thread = .resizing pc) → t'.pending = []
  inv : ThreadInv T t' home' m' res' thread'
  touched : ∀ {set}, m.bucketAt q.1 q.2 = some set → thread.Holds set.lock ∨ m.locks set.lock = some .unlocked
  taken : ∀ {p}, thread'.Holds p → thread.Holds p ∨ home p = q ∧ m.locks p = some .unlocked
  kept : ∀ {p}, thread.Holds p → thread'.Holds p ∨ home p = q
  live : ∀ {set}, m.bucketAt q.1 q.2 = some set → q.1 = m.root.bucketStart → m'.locks set.lock ≠ some .deleted
  holder : ∀ {set}, m.bucketAt q.1 q.2 = some set → m'.locks set.lock = some .locked → thread'.Holds set.lock
  opened : ∀ {set}, m.bucketAt q.1 q.2 = some set → q.1 = m.root.bucketStart → m'.locks set.lock = some .unlocked →
    m'.Represents (home' · = q) set.first (t'.buckets q.2)

variable {T : Template K V} {t : Table K V} {home : Home} {m : Mem K V} {res : HtRes V}

/-- What the steps rely on besides the assertion of their thread. -/
structure Ground (t : Table K V) (home : Home) (m : Mem K V) : Prop where
  shape : Shape home m
  count : t.count = m.root.count
  live : ∀ {i set}, m.bucketAt m.root.bucketStart i = some set → m.locks set.lock ≠ some .deleted
  opened : ∀ {i set}, m.bucketAt m.root.bucketStart i = some set → m.locks set.lock = some .unlocked →
    m.Represents (home · = (m.root.bucketStart, i)) set.first (t.buckets i)

def nowhere (m : Mem K V) : Place := (⟨0, m.next⟩, 0)

omit [DecidableEq K] in
theorem Shape.nowhere (shape : Shape home m) {i : Nat} : m.bucketAt (nowhere m).1 i = none := by
  cases stored : m.arrays (Hashtable.nowhere m).1 with
  | none => simp [Mem.bucketAt, stored]
  | some sets => exact absurd (shape.arrays_lt (Hashtable.nowhere m).1 (by simp [stored])) (Nat.lt_irrefl _)

theorem Sound.quiet (shape : Shape home m) {thread thread' : Thread K V} (inv : ThreadInv T t home m res thread')
    (same : ∀ p, thread'.Holds p ↔ thread.Holds p)
    (settled : (∀ pc, thread' ≠ .resizing pc) → (∃ pc, thread = .resizing pc) → t.pending = []) :
    Sound T (nowhere m) t home m thread t home m res thread' where
  change := .refl _ _ _
  count := rfl
  buckets _ _ := rfl
  pending _ := rfl
  settled := settled
  inv := inv
  touched at_ := by rw [shape.nowhere] at at_; cases at_
  taken holds := .inl ((same _).mp holds)
  kept holds := .inl ((same _).mpr holds)
  live at_ := by rw [shape.nowhere] at at_; cases at_
  holder at_ := by rw [shape.nowhere] at at_; cases at_
  opened at_ := by rw [shape.nowhere] at at_; cases at_

/-! ## Operations on a `LinkedSet` -/

omit [DecidableEq K] in
theorem Found.inRoot (ground : Ground t home m) {op : IhtOp K V} {set : LinkedSet} (found : Found T m op set)
    (open_ : m.locks set.lock = some .unlocked) :
    m.bucketAt m.root.bucketStart (T.keyhash op.key t.count) = some set := by
  obtain ⟨start, sets, stored, at_⟩ := found
  obtain ⟨sets', stored', length, _⟩ := ground.shape.root
  have here := m.bucketAt_eq_some.mpr ⟨sets, stored, at_⟩
  obtain rfl : start = m.root.bucketStart := by
    by_contra other
    exact ground.shape.retired here other open_
  rw [stored] at stored'
  cases stored'
  rw [ground.count, ← length]
  exact here

inductive SetStep (T : Template K V) (self : Nat) (t : Table K V) (home : Home) (m : Mem K V) (res : HtRes V)
    (set : LinkedSet) (op : IhtOp K V) : SetPc K V → Prop where
  | spin (found : Found T m op set) (stepped : setStep T self set op m .acquire = .ok (m, .inl .acquire)) :
      SetStep T self t home m res set op .acquire
  | deleted (found : Found T m op set) (word : m.locks set.lock = some .deleted)
      (stepped : setStep T self set op m .acquire = .ok (m, .inr (deletedResult T op))) :
      SetStep T self t home m res set op .acquire
  | win (here : m.bucketAt m.root.bucketStart (T.keyhash op.key t.count) = some set)
      (open_ : m.locks set.lock = some .unlocked)
      (stepped : setStep T self set op m .acquire = .ok (m.setLock set.lock .locked, .inl (.walk set.first))) :
      SetStep T self t home m res set op .acquire
  | keeps {pc : SetPc K V} (inSection : InSection T t home m res set op pc)
      (keeps : Keeps T self home (m.root.bucketStart, T.keyhash op.key t.count) m set op
        (t.buckets (T.keyhash op.key t.count)) res pc) :
      SetStep T self t home m res set op pc
  | unlock (inSection : InSection T t home m res set op (.unlock res))
      (stepped : setStep T self set op m (.unlock res) = .ok (m.setLock set.lock .unlocked, .inr res))
      (rep : m.Represents (home · = (m.root.bucketStart, T.keyhash op.key t.count)) set.first
        (t.buckets (T.keyhash op.key t.count))) :
      SetStep T self t home m res set op (.unlock res)

theorem AtSet.step (self : Nat) (ground : Ground t home m) {set : LinkedSet} {op : IhtOp K V} {pc : SetPc K V}
    (at_ : AtSet T t home m res set op pc) : SetStep T self t home m res set op pc := by
  rcases at_ with ⟨rfl, found⟩ | section_
  · obtain ⟨start, sets, stored, inArray⟩ := id found
    rcases acquire_step (T := T) op self ground.shape (m.bucketAt_eq_some.mpr ⟨sets, stored, inArray⟩) with
      ⟨word, stepped⟩ | ⟨_, stepped⟩ | ⟨word, stepped⟩
    · exact .win (found.inRoot ground word) word stepped
    · exact .spin found stepped
    · exact .deleted found word stepped
  · rcases section_step self ground.shape section_.1 section_.2.2.2 with keeps | ⟨rfl, stepped, rep⟩
    · exact .keeps section_ keeps
    · exact .unlock section_ stepped rep

section InSet

variable {set : LinkedSet} {op : IhtOp K V} {pc pc' : SetPc K V} {home' : Home} {m' : Mem K V} {i : Nat}
  {thread thread' : Thread K V}

theorem InSection.change (section_ : InSection T t home m res set op pc) {q : Place} (change : Change q home m home' m')
    (locks : m'.locks = m.locks) (outcome : Outcome T m' (home' · = (m.root.bucketStart, T.keyhash op.key t.count)) set op
      (t.buckets (T.keyhash op.key t.count)) res pc') : InSection T t home' m' res set op pc' := by
  obtain ⟨at_, locked, answers, _⟩ := section_
  rw [InSection, change.bucketAt, change.root, locks]
  exact ⟨at_, locked, answers, outcome⟩

theorem Sound.inside (ground : Ground t home m) (here : m.bucketAt m.root.bucketStart i = some set)
    (locked : m.locks set.lock = some .locked) (change : Change (m.root.bucketStart, i) home m home' m')
    (locks : m'.locks = m.locks) (holds : thread.Holds set.lock) (same : ∀ p, thread'.Holds p ↔ thread.Holds p)
    (goes : (∃ pc, thread' = .resizing pc) ∨ ∀ pc, thread ≠ .resizing pc) (inv : ThreadInv T t home' m' res thread') :
    Sound T (m.root.bucketStart, i) t home m thread t home' m' res thread' where
  change := change
  count := rfl
  buckets _ _ := rfl
  pending _ := rfl
  settled stays was := by
    rcases goes with ⟨pc, goes⟩ | never
    · exact absurd goes (stays pc)
    · exact absurd was.choose_spec (never _)
  inv := inv
  touched at_ := by
    rw [here] at at_
    cases at_
    exact .inl holds
  taken holds' := .inl ((same _).mp holds')
  kept holds' := .inl ((same _).mpr holds')
  live at_ _ := by
    rw [locks]
    exact ground.live at_
  holder at_ _ := by
    rw [here] at at_
    cases at_
    exact (same _).mpr holds
  opened at_ _ open_ := by
    rw [here] at at_
    cases at_
    rw [locks, locked] at open_
    cases open_

theorem Sound.win {t' : Table K V} {res' : HtRes V} (ground : Ground t home m)
    (here : m.bucketAt m.root.bucketStart i = some set) (open_ : m.locks set.lock = some .unlocked)
    (count : t'.count = t.count) (buckets : ∀ j, j ≠ i → t'.buckets j = t.buckets j)
    (pending : (∀ pc, thread ≠ .resizing pc) → t'.pending = t.pending)
    (goes : (∃ pc, thread' = .resizing pc) ∨ ∀ pc, thread ≠ .resizing pc)
    (holds : ∀ p, thread'.Holds p ↔ thread.Holds p ∨ p = set.lock)
    (inv : ThreadInv T t' home (m.setLock set.lock .locked) res' thread') :
    Sound T (m.root.bucketStart, i) t home m thread t' home (m.setLock set.lock .locked) res' thread' where
  change := .setLock (ground.shape.lock here).1 (ground.shape.lock here).2 (by simp)
  count := count
  buckets j away := buckets j (by rintro rfl; exact away rfl)
  pending := pending
  settled stays was := by
    rcases goes with ⟨pc, goes⟩ | never
    · exact absurd goes (stays pc)
    · exact absurd was.choose_spec (never _)
  inv := inv
  touched at_ := by
    rw [here] at at_
    cases at_
    exact .inr open_
  taken holds' := ((holds _).mp holds').imp_right fun same => by rw [same]; exact ⟨(ground.shape.lock here).1, open_⟩
  kept holds' := .inl ((holds _).mpr (.inl holds'))
  live at_ _ := by
    rw [here] at at_
    cases at_
    simp [Mem.locks_setLock]
  holder at_ _ := by
    rw [here] at at_
    cases at_
    exact (holds _).mpr (.inr rfl)
  opened at_ _ open' := by
    rw [here] at at_
    cases at_
    simp [Mem.locks_setLock] at open'

theorem Sound.release (ground : Ground t home m) (here : m.bucketAt m.root.bucketStart i = some set)
    (rep : m.Represents (home · = (m.root.bucketStart, i)) set.first (t.buckets i)) (holds : thread.Holds set.lock)
    (same : ∀ p, thread.Holds p ↔ thread'.Holds p ∨ p = set.lock)
    (goes : (∃ pc, thread' = .resizing pc) ∨ ∀ pc, thread ≠ .resizing pc)
    (inv : ThreadInv T t home (m.setLock set.lock .unlocked) res thread') :
    Sound T (m.root.bucketStart, i) t home m thread t home (m.setLock set.lock .unlocked) res thread' where
  change := .setLock (ground.shape.lock here).1 (ground.shape.lock here).2 fun _ => rfl
  count := rfl
  buckets _ _ := rfl
  pending _ := rfl
  settled stays was := by
    rcases goes with ⟨pc, goes⟩ | never
    · exact absurd goes (stays pc)
    · exact absurd was.choose_spec (never _)
  inv := inv
  touched at_ := by
    rw [here] at at_
    cases at_
    exact .inl holds
  taken holds' := .inl ((same _).mpr (.inl holds'))
  kept holds' := ((same _).mp holds').imp_right fun lock => by rw [lock]; exact (ground.shape.lock here).1
  live at_ _ := by
    rw [here] at at_
    cases at_
    simp [Mem.locks_setLock]
  holder at_ locked := by
    rw [here] at at_
    cases at_
    simp [Mem.locks_setLock] at locked
  opened at_ _ _ := by
    rw [here] at at_
    cases at_
    exact rep.frame fun r own _ => ⟨rfl, own⟩

end InSet

/-! ## Steps of a client -/

omit [DecidableEq K] in
@[simp] theorem holds_running {id : Nat} {op : IhtOp K V} {set : LinkedSet} {pc : SetPc K V} {p : RemotePtr} :
    (Thread.running id op (.inSet set pc)).Holds p ↔ pc.inside = true ∧ p = set.lock := by
  simp [Thread.Holds, Thread.frozen, Thread.set]

omit [DecidableEq K] in
theorem not_holds_readRoot {id : Nat} {op : IhtOp K V} {p : RemotePtr} :
    ¬ (Thread.running id op .readRoot).Holds p := by
  simp [Thread.Holds, Thread.frozen, Thread.set]

omit [DecidableEq K] in
theorem not_holds_readBucket {id : Nat} {op : IhtOp K V} {arr : HashArray} {p : RemotePtr} :
    ¬ (Thread.running id op (.readBucket arr)).Holds p := by
  simp [Thread.Holds, Thread.frozen, Thread.set]

omit [DecidableEq K] in
theorem not_holds_idle {p : RemotePtr} : ¬ (Thread.idle : Thread K V).Holds p := by
  simp [Thread.Holds, Thread.frozen, Thread.set]

def Pc.inside : Pc K V → Bool
  | .inSet _ pc => pc.inside
  | _ => false

def Thread.after (id : Nat) (op : IhtOp K V) : Pc K V ⊕ HtRes V → Thread K V
  | .inl pc => .running id op pc
  | .inr _ => .idle

/-- What a step of an operation means for the table: the operation takes effect
when it wins the lock, and returns what the table answered then. -/
inductive ClientEffect (T : Template K V) (t : Table K V) (m : Mem K V) (op : IhtOp K V) (res : HtRes V) :
    Pc K V → Table K V → HtRes V → Pc K V ⊕ HtRes V → Prop where
  | outside {pc pc' : Pc K V} (before : pc.inside = false) (after : pc'.inside = false) :
      ClientEffect T t m op res pc t res (.inl pc')
  | win {set : LinkedSet} (here : m.bucketAt m.root.bucketStart (T.keyhash op.key t.count) = some set)
      (open_ : m.locks set.lock = some .unlocked) :
      ClientEffect T t m op res (.inSet set .acquire) (t.apply T op).1 (t.apply T op).2 (.inl (.inSet set (.walk set.first)))
  | inner {pc pc' : Pc K V} (before : pc.inside = true) (after : pc'.inside = true) :
      ClientEffect T t m op res pc t res (.inl pc')
  | done {pc : Pc K V} (before : pc.inside = true) : ClientEffect T t m op res pc t res (.inr res)

omit [DecidableEq K] in
theorem report_deleted (op : IhtOp K V) : report (deletedResult T op) = (.inl .readRoot : Pc K V ⊕ HtRes V) := by
  cases op <;> rfl

omit [DecidableEq K] in
theorem report_result (answers : res.status ≠ .rehashDeleted) : report res = (.inr res : Pc K V ⊕ HtRes V) := by
  obtain ⟨status, result⟩ := res
  cases status with
  | rehashDeleted => exact absurd rfl answers
  | trueState | falseState => rfl

theorem InSection.start (op : IhtOp K V) (t' : Table K V) (ground : Ground t home m) {set : LinkedSet}
    (here : m.bucketAt m.root.bucketStart (T.keyhash op.key t.count) = some set)
    (open_ : m.locks set.lock = some .unlocked) (count : t'.count = t.count)
    (bucket : t'.buckets (T.keyhash op.key t.count) = ((t.buckets (T.keyhash op.key t.count)).apply T op).1) :
    InSection T t' home (m.setLock set.lock .locked) ((t.buckets (T.keyhash op.key t.count)).apply T op).2 set op
      (.walk set.first) := by
  have rep := ground.opened here open_
  refine ⟨by rw [count]; exact here, by simp [Mem.locks_setLock], Bundles.apply_status _ _, ?_⟩
  rw [count, bucket]
  exact Outcome.start (m := m.setLock set.lock .locked) (rep.frame fun r own _ => ⟨rfl, own⟩)
    (ground.shape.first here).2.2

theorem client_sound (self id : Nat) (ground : Ground t home m) {op : IhtOp K V} {pc : Pc K V}
    (inv : PcInv T t home m res op pc) : ∃ q t' home' m' res' next, clientStep T self op m pc = .ok (m', next) ∧
      Sound T q t home m (.running id op pc) t' home' m' res' (.after id op next) ∧
      ClientEffect T t m op res pc t' res' next := by
  cases pc with
  | readRoot =>
    refine ⟨_, t, home, m, res, _, rfl, .quiet ground.shape ?_ ?_ (by simp), .outside rfl rfl⟩
    · obtain ⟨sets, stored, length, positive⟩ := ground.shape.root
      exact ⟨positive, sets, stored, length⟩
    · simp [Thread.after, not_holds_readRoot, not_holds_readBucket]
  | readBucket arr =>
    obtain ⟨positive, sets, stored, length⟩ := inv
    have bound : T.keyhash op.key arr.count < sets.length := by
      rw [length]
      exact T.keyhash_lt op.key positive
    have inArray : sets[T.keyhash op.key arr.count]? = some sets[T.keyhash op.key arr.count] :=
      List.getElem?_eq_getElem bound
    have here := m.bucketAt_eq_some.mpr ⟨sets, stored, inArray⟩
    refine ⟨_, t, home, m, res, .inl (.inSet sets[T.keyhash op.key arr.count] .acquire), by simp only [clientStep, here],
      .quiet ground.shape ?_ ?_ (by simp), .outside rfl rfl⟩
    · exact Or.inl ⟨rfl, arr.bucketStart, sets, stored, by rw [length]; exact inArray⟩
    · simp [Thread.after, not_holds_readBucket, SetPc.inside]
  | inSet set pc =>
    have at_ : AtSet T t home m res set op pc := inv
    cases at_.step self ground with
    | spin found stepped =>
      exact ⟨_, t, home, m, res, .inl (.inSet set .acquire), by simp only [clientStep, stepped],
        .quiet ground.shape (Or.inl ⟨rfl, found⟩) (fun _ => Iff.rfl) (by simp), .outside rfl rfl⟩
    | deleted found word stepped =>
      refine ⟨_, t, home, m, res, .inl .readRoot, by simp only [clientStep, stepped, report_deleted],
        .quiet ground.shape trivial ?_ (by simp), .outside rfl rfl⟩
      simp [Thread.after, not_holds_readRoot, SetPc.inside]
    | win here open_ stepped =>
      have start := InSection.start op (t.apply T op).1 ground here open_ rfl (by simp [Table.apply])
      refine ⟨_, (t.apply T op).1, home, _, (t.apply T op).2, .inl (.inSet set (.walk set.first)),
        by simp only [clientStep, stepped], .win ground here open_ rfl ?_ (fun _ => rfl) (.inr (by simp)) ?_ (Or.inr start),
        .win here open_⟩
      · intro j away
        simp only [Table.apply]
        rw [Function.update_of_ne away]
      · simp [Thread.after, SetPc.inside]
    | keeps section_ keeps =>
      obtain ⟨home', m', pc', stepped, outcome, change, locks⟩ := keeps
      have inside := section_.2.2.2.inside
      have inside' := outcome.inside
      refine ⟨_, t, home', m', res, .inl (.inSet set pc'), by simp only [clientStep, stepped],
        .inside ground section_.1 section_.2.1 change locks ?_ ?_ (.inr (by simp))
          (Or.inr (section_.change change locks outcome)), .inner inside inside'⟩
      · simp [inside]
      · simp [Thread.after, inside, inside']
    | unlock section_ stepped rep =>
      refine ⟨_, t, home, _, res, .inr res, by simp only [clientStep, stepped, report_result section_.2.2.1],
        .release ground section_.1 rep ?_ ?_ (.inr (by simp)) trivial, .done rfl⟩
      · simp [SetPc.inside]
      · simp [Thread.after, not_holds_idle, SetPc.inside]

end RdmaIht.Hashtable
