import RdmaIht.Hashtable.Section

/-! What holds at each point of a thread, and what another thread's step leaves of it.

An operation that has the lock of its bucket works on a bucket of the root. A
resize first holds the locks of the root's buckets, then publishes the new root
and goes through the old buckets, which it still holds; the pairs it has not come
to are the pending ones of the table.
-/

set_option autoImplicit false

namespace RdmaIht.Hashtable

variable {K V : Type}

/-! ## The locks of a thread -/

def SetPc.inside : SetPc K V → Bool
  | .acquire => false
  | _ => true

def RehashPc.frozen : RehashPc K V → List LinkedSet
  | .readRoot | .readBuckets _ | .listLength _ _ _ _ => []
  | .freeze _ buckets i => buckets.take i
  | .publish _ buckets | .bucket buckets _ _ | .foreach buckets _ _ _ | .pairs buckets _ _ _ _
  | .insert buckets _ _ _ _ _ _ _ => buckets
  | .melt buckets i => buckets.drop i

def Thread.frozen : Thread K V → List LinkedSet
  | .resizing pc => pc.frozen
  | _ => []

def Thread.set : Thread K V → Option (LinkedSet × SetPc K V)
  | .running _ _ (.inSet set pc) => some (set, pc)
  | .resizing (.insert _ _ _ _ _ _ set pc) => some (set, pc)
  | _ => none

def Thread.Holds (thread : Thread K V) (p : RemotePtr) : Prop :=
  (∃ set ∈ thread.frozen, p = set.lock) ∨ ∃ set pc, thread.set = some (set, pc) ∧ pc.inside = true ∧ p = set.lock

/-! ## Assertions -/

section Assertions

variable [DecidableEq K] (T : Template K V) (t : Table K V) (home : Home) (m : Mem K V) (res : HtRes V)

/-- The operation has the lock of the key's bucket of the root and will return `res`. -/
def InSection (set : LinkedSet) (op : IhtOp K V) (pc : SetPc K V) : Prop :=
  m.bucketAt m.root.bucketStart (T.keyhash op.key t.count) = some set ∧ m.locks set.lock = some .locked ∧
    res.status ≠ .rehashDeleted ∧ Outcome T m (home · = (m.root.bucketStart, T.keyhash op.key t.count)) set op
      (t.buckets (T.keyhash op.key t.count)) res pc

def Found (op : IhtOp K V) (set : LinkedSet) : Prop :=
  ∃ start sets, m.arrays start = some sets ∧ sets[T.keyhash op.key sets.length]? = some set

def AtSet (set : LinkedSet) (op : IhtOp K V) (pc : SetPc K V) : Prop :=
  (pc = .acquire ∧ Found T m op set) ∨ InSection T t home m res set op pc

def PcInv (op : IhtOp K V) : Pc K V → Prop
  | .readRoot => True
  | .readBucket arr => 0 < arr.count ∧ ∃ sets, m.arrays arr.bucketStart = some sets ∧ sets.length = arr.count
  | .inSet set pc => AtSet T t home m res set op pc

def Current (hashtable : HashArray) (buckets : List LinkedSet) : Prop :=
  hashtable = m.root ∧ m.arrays m.root.bucketStart = some buckets

/-- The buckets are those of an array at `a` that was the root before. -/
def Old (new : HashArray) (a : RemotePtr) (buckets : List LinkedSet) : Prop :=
  new = m.root ∧ a ≠ m.root.bucketStart ∧ m.arrays a = some buckets

def Rest (a : RemotePtr) (buckets : List LinkedSet) (i : Nat) (pairs : List (Pair K V)) : Prop :=
  ∃ old : Nat → Bundles K V,
    (∀ j set, i ≤ j → buckets[j]? = some set → m.Represents (home · = (a, j)) set.first (old j)) ∧
      pairs = (List.range' i (buckets.length - i)).flatMap fun j => (old j).pairs

def From (a : RemotePtr) (buckets : List LinkedSet) (i : Nat) (node : RemotePtr) (pairs : List (Pair K V)) : Prop :=
  ∃ l later, m.Path (home · = (a, i)) node l .null ∧ Rest home m a buckets (i + 1) later ∧
    pairs = l.flatMap (·.2.pairs) ++ later

def RehashInv : RehashPc K V → Prop
  | .readRoot => t.pending = []
  | .readBuckets hashtable => hashtable = m.root ∧ t.pending = []
  | .listLength hashtable buckets _ _ => Current m hashtable buckets ∧ t.pending = []
  | .freeze hashtable buckets i => Current m hashtable buckets ∧ t.pending = [] ∧ ∀ j set, j < i →
      buckets[j]? = some set → m.Represents (home · = (m.root.bucketStart, j)) set.first (t.buckets j)
  | .publish hashtable buckets => Current m hashtable buckets ∧ t.pending = [] ∧ ∀ j set,
      buckets[j]? = some set → m.Represents (home · = (m.root.bucketStart, j)) set.first (t.buckets j)
  | .bucket buckets new i => ∃ a, Old m new a buckets ∧ Rest home m a buckets i t.pending
  | .foreach buckets new i node => i < buckets.length ∧ ∃ a, Old m new a buckets ∧ From home m a buckets i node t.pending
  | .pairs buckets new i next rest => i < buckets.length ∧ ∃ a, Old m new a buckets ∧ ∃ later,
      From home m a buckets i next later ∧ t.pending = rest ++ later
  | .insert buckets new i next pair rest set pc => i < buckets.length ∧
      m.bucketAt m.root.bucketStart (T.keyhash pair.key t.count) = some set ∧
      AtSet T t home m res set (.insert pair.key pair.val) pc ∧ ∃ a, Old m new a buckets ∧ ∃ later,
        From home m a buckets i next later ∧ t.pending = (if pc.inside then rest else pair :: rest) ++ later
  | .melt buckets _ => t.pending = [] ∧ ∃ a, Old m m.root a buckets

def ThreadInv : Thread K V → Prop
  | .idle => True
  | .running _ op pc => PcInv T t home m res op pc
  | .resizing pc => (∀ set ∈ pc.frozen, m.locks set.lock = some .locked) ∧ RehashInv T t home m res pc

end Assertions

variable [DecidableEq K] {T : Template K V} {t t' : Table K V} {home home' : Home} {m m' : Mem K V} {res : HtRes V}

theorem Outcome.inside {mine : RemotePtr → Prop} {set : LinkedSet} {op : IhtOp K V} {fin : Bundles K V} {pc : SetPc K V}
    (outcome : Outcome T m mine set op fin res pc) : pc.inside = true := by
  cases pc with
  | acquire => exact outcome.elim
  | _ => rfl

theorem AtSet.section {set : LinkedSet} {op : IhtOp K V} {pc : SetPc K V} (at_ : AtSet T t home m res set op pc)
    (inside : pc.inside = true) : InSection T t home m res set op pc := by
  rcases at_ with ⟨rfl, _⟩ | section_
  · cases inside
  · exact section_

omit [DecidableEq K] in
theorem bucketAt_of_mem {a : RemotePtr} {buckets : List LinkedSet} (stored : m.arrays a = some buckets) {set : LinkedSet}
    (member : set ∈ buckets) : ∃ i, m.bucketAt a i = some set := by
  obtain ⟨i, at_⟩ := List.mem_iff_getElem?.mp member
  exact ⟨i, m.bucketAt_eq_some.mpr ⟨buckets, stored, at_⟩⟩

theorem RehashInv.frozen {pc : RehashPc K V} (inv : RehashInv T t home m res pc) {set : LinkedSet}
    (member : set ∈ pc.frozen) : ∃ a i, m.bucketAt a i = some set := by
  have found : ∃ a buckets, m.arrays a = some buckets ∧ set ∈ buckets := by
    cases pc with
    | readRoot | readBuckets | listLength => cases member
    | freeze hashtable buckets i => exact ⟨_, _, inv.1.2, List.mem_of_mem_take member⟩
    | publish hashtable buckets => exact ⟨_, _, inv.1.2, member⟩
    | bucket buckets new i => exact ⟨_, _, inv.choose_spec.1.2.2, member⟩
    | foreach buckets new i node => exact ⟨_, _, inv.2.choose_spec.1.2.2, member⟩
    | pairs buckets new i next rest => exact ⟨_, _, inv.2.choose_spec.1.2.2, member⟩
    | insert buckets new i next pair rest set pc => exact ⟨_, _, inv.2.2.2.choose_spec.1.2.2, member⟩
    | melt buckets i => exact ⟨_, _, inv.2.choose_spec.2.2, List.mem_of_mem_drop member⟩
  obtain ⟨a, buckets, stored, inside⟩ := found
  obtain ⟨i, at_⟩ := bucketAt_of_mem stored inside
  exact ⟨a, i, at_⟩

theorem ThreadInv.holds {thread : Thread K V} (inv : ThreadInv T t home m res thread) {p : RemotePtr}
    (holds : thread.Holds p) : m.locks p = some .locked ∧ ∃ a i set, m.bucketAt a i = some set ∧ p = set.lock := by
  rcases holds with ⟨set, member, rfl⟩ | ⟨set, pc, here, inside, rfl⟩
  · cases thread with
    | idle => cases member
    | running => cases member
    | resizing pc =>
      obtain ⟨locked, inv⟩ := inv
      obtain ⟨a, i, at_⟩ := inv.frozen member
      exact ⟨locked set member, a, i, set, at_, rfl⟩
  · have section_ : ∃ op, InSection T t home m res set op pc := by
      cases thread with
      | idle => cases here
      | running id op pc =>
        cases pc with
        | inSet => cases here; exact ⟨op, AtSet.section inv inside⟩
        | _ => cases here
      | resizing pc =>
        cases pc with
        | insert => cases here; exact ⟨_, inv.2.2.2.1.section inside⟩
        | _ => cases here
    obtain ⟨op, at_, locked, _⟩ := section_
    exact ⟨locked, _, _, set, at_, rfl⟩

/-! ## Steps of other threads -/

section Stable

variable {q : Place}

theorem InSection.stable (change : Change q home m home' m') (shape : Shape home m) (count : t'.count = t.count)
    (buckets : ∀ j, (m.root.bucketStart, j) ≠ q → t'.buckets j = t.buckets j) {set : LinkedSet} {op : IhtOp K V}
    {pc : SetPc K V} (away : home set.lock ≠ q) (section_ : InSection T t home m res set op pc) :
    InSection T t' home' m' res set op pc := by
  obtain ⟨at_, locked, answers, outcome⟩ := section_
  have here := (shape.lock at_).1
  rw [here] at away
  refine ⟨by rw [change.bucketAt, change.root, count]; exact at_, by rw [change.locks _ (here ▸ away)]; exact locked,
    answers, ?_⟩
  rw [change.root, count, buckets _ away]
  exact outcome.stable change shape away (shape.first at_).2.1

theorem AtSet.stable (change : Change q home m home' m') (shape : Shape home m) (count : t'.count = t.count)
    (buckets : ∀ j, (m.root.bucketStart, j) ≠ q → t'.buckets j = t.buckets j) {set : LinkedSet} {op : IhtOp K V}
    {pc : SetPc K V} (away : pc.inside = true → home set.lock ≠ q) (at_ : AtSet T t home m res set op pc) :
    AtSet T t' home' m' res set op pc := by
  rcases at_ with ⟨here, start, sets, stored, inArray⟩ | section_
  · exact .inl ⟨here, start, sets, by rw [change.arrays]; exact stored, inArray⟩
  · exact .inr (section_.stable change shape count buckets (away section_.2.2.2.inside))

omit [DecidableEq K] in
theorem Rest.stable (change : Change q home m home' m') (shape : Shape home m) {a : RemotePtr} {buckets : List LinkedSet}
    (stored : m.arrays a = some buckets) (away : ∀ set ∈ buckets, home set.lock ≠ q) {i : Nat} {pairs : List (Pair K V)}
    (rest : Rest home m a buckets i pairs) : Rest home' m' a buckets i pairs := by
  obtain ⟨old, reps, same⟩ := rest
  refine ⟨old, fun j set later at_ => change.represents shape ?_ (reps j set later at_), same⟩
  rw [← (shape.lock (m.bucketAt_eq_some.mpr ⟨buckets, stored, at_⟩)).1]
  exact away set (List.mem_of_getElem? at_)

omit [DecidableEq K] in
theorem From.stable (change : Change q home m home' m') (shape : Shape home m) {a : RemotePtr} {buckets : List LinkedSet}
    (stored : m.arrays a = some buckets) (away : ∀ set ∈ buckets, home set.lock ≠ q) {i : Nat} (bound : i < buckets.length)
    {node : RemotePtr} {pairs : List (Pair K V)} (from_ : From home m a buckets i node pairs) :
    From home' m' a buckets i node pairs := by
  obtain ⟨l, later, path, rest, same⟩ := from_
  refine ⟨l, later, change.path shape ?_ path, rest.stable change shape stored away, same⟩
  have at_ : buckets[i]? = some buckets[i] := List.getElem?_eq_getElem bound
  rw [← (shape.lock (m.bucketAt_eq_some.mpr ⟨buckets, stored, at_⟩)).1]
  exact away _ (List.mem_of_getElem? at_)

omit [DecidableEq K] in
theorem Old.stable (change : Change q home m home' m') {new : HashArray} {a : RemotePtr} {buckets : List LinkedSet}
    (old : Old m new a buckets) : Old m' new a buckets := by
  rw [Old, change.root, change.arrays]
  exact old

omit [DecidableEq K] in
theorem Current.stable (change : Change q home m home' m') {hashtable : HashArray} {buckets : List LinkedSet}
    (current : Current m hashtable buckets) : Current m' hashtable buckets := by
  rw [Current, change.root, change.arrays]
  exact current

omit [DecidableEq K] in
theorem frozen_stable (change : Change q home m home' m') (shape : Shape home m)
    (same : ∀ j, (m.root.bucketStart, j) ≠ q → t'.buckets j = t.buckets j) {buckets : List LinkedSet}
    (stored : m.arrays m.root.bucketStart = some buckets) {j : Nat} {set : LinkedSet} (at_ : buckets[j]? = some set)
    (away : home set.lock ≠ q) (rep : m.Represents (home · = (m.root.bucketStart, j)) set.first (t.buckets j)) :
    m'.Represents (home' · = (m'.root.bucketStart, j)) set.first (t'.buckets j) := by
  rw [(shape.lock (m.bucketAt_eq_some.mpr ⟨buckets, stored, at_⟩)).1] at away
  rw [change.root, same j away]
  exact change.represents shape away rep

theorem RehashInv.stable (change : Change q home m home' m') (shape : Shape home m) (count : t'.count = t.count)
    (same : ∀ j, (m.root.bucketStart, j) ≠ q → t'.buckets j = t.buckets j) (pending : t'.pending = t.pending)
    {pc : RehashPc K V} (away : ∀ p, (Thread.resizing pc).Holds p → home p ≠ q) (inv : RehashInv T t home m res pc) :
    RehashInv T t' home' m' res pc := by
  -- a frozen set is locked by this resize, so it is not the place that changes
  have frozen : ∀ set ∈ pc.frozen, home set.lock ≠ q := fun set member => away _ (.inl ⟨set, member, rfl⟩)
  cases pc with
  | readRoot => exact pending.trans inv
  | readBuckets hashtable => exact ⟨inv.1.trans change.root.symm, pending.trans inv.2⟩
  | listLength hashtable buckets i totalElements => exact ⟨inv.1.stable change, pending.trans inv.2⟩
  | freeze hashtable buckets i =>
    obtain ⟨current, settled, reps⟩ := inv
    refine ⟨current.stable change, pending.trans settled, fun j set before at_ => ?_⟩
    exact frozen_stable change shape same current.2 at_
      (frozen set (List.mem_of_getElem? ((List.getElem?_take_of_lt before).trans at_))) (reps j set before at_)
  | publish hashtable buckets =>
    obtain ⟨current, settled, reps⟩ := inv
    refine ⟨current.stable change, pending.trans settled, fun j set at_ => ?_⟩
    exact frozen_stable change shape same current.2 at_ (frozen set (List.mem_of_getElem? at_)) (reps j set at_)
  | bucket buckets new i =>
    obtain ⟨a, old, rest⟩ := inv
    exact ⟨a, old.stable change, by rw [pending]; exact rest.stable change shape old.2.2 frozen⟩
  | foreach buckets new i node =>
    obtain ⟨bound, a, old, from_⟩ := inv
    exact ⟨bound, a, old.stable change, by rw [pending]; exact from_.stable change shape old.2.2 frozen bound⟩
  | pairs buckets new i next rest =>
    obtain ⟨bound, a, old, later, from_, split⟩ := inv
    exact ⟨bound, a, old.stable change, later, from_.stable change shape old.2.2 frozen bound, pending.trans split⟩
  | insert buckets new i next pair rest set pc =>
    obtain ⟨bound, here, at_, a, old, later, from_, split⟩ := inv
    refine ⟨bound, by rw [change.bucketAt, change.root, count]; exact here, ?_, a, old.stable change, later,
      from_.stable change shape old.2.2 frozen bound, pending.trans split⟩
    exact at_.stable change shape count same fun inside => away _ (.inr ⟨set, pc, rfl, inside, rfl⟩)
  | melt buckets i =>
    obtain ⟨settled, a, old⟩ := inv
    refine ⟨pending.trans settled, a, ?_⟩
    rw [change.root]
    exact old.stable change

/-- What a thread asserts is still true after a change of a bucket whose lock it does not hold. -/
theorem ThreadInv.stable (change : Change q home m home' m') (shape : Shape home m) (count : t'.count = t.count)
    (same : ∀ j, (m.root.bucketStart, j) ≠ q → t'.buckets j = t.buckets j) {thread : Thread K V}
    (pending : (∃ pc, thread = .resizing pc) → t'.pending = t.pending) (away : ∀ p, thread.Holds p → home p ≠ q)
    (inv : ThreadInv T t home m res thread) : ThreadInv T t' home' m' res thread := by
  cases thread with
  | idle => trivial
  | running id op pc =>
    cases pc with
    | readRoot => trivial
    | readBucket arr =>
      obtain ⟨positive, sets, stored, length⟩ := inv
      exact ⟨positive, sets, by rw [change.arrays]; exact stored, length⟩
    | inSet set pc =>
      have at_ : AtSet T t home m res set op pc := inv
      exact at_.stable change shape count same fun inside => away _ (.inr ⟨set, pc, rfl, inside, rfl⟩)
  | resizing pc =>
    obtain ⟨locked, inv⟩ := inv
    refine ⟨fun set member => ?_, inv.stable change shape count same (pending ⟨pc, rfl⟩) away⟩
    rw [change.locks _ (away _ (.inl ⟨set, member, rfl⟩))]
    exact locked set member

end Stable

end RdmaIht.Hashtable
