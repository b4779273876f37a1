import RdmaIht.Hashtable.Machine

/-! The branches of `setStep`, `clientStep` and `rehashStep`.

There is one constructor for each way a step can end, with what the source has
checked on the way there. Case analyses of a step that was taken go through these
branches and do not unfold the steps again.
-/

set_option autoImplicit false

namespace RdmaIht.Hashtable

variable {K V : Type} [DecidableEq K]

inductive SetBranch (T : Template K V) (self : Nat) (set : LinkedSet) (op : IhtOp K V) (m : Mem K V) :
    SetPc K V → Mem K V → SetPc K V ⊕ HtRes V → Prop where
  | locks : m.locks set.lock = some .unlocked →
      SetBranch T self set op m .acquire (m.setLock set.lock .locked) (.inl (.walk set.first))
  | spins : m.locks set.lock = some .locked → SetBranch T self set op m .acquire m (.inl .acquire)
  | deleted : m.locks set.lock = some .deleted →
      SetBranch T self set op m .acquire m (.inr (deletedResult T op))
  | last {node : RemotePtr} {data : Node K V} : m.nodes node = some data →
      visit T op data.pairs (decide (data.next = .null)) = .next → data.next = .null →
      SetBranch T self set op m (.walk node) m (.inl (.unlock ⟨.falseState, T.zero⟩))
  | further {node : RemotePtr} {data : Node K V} : m.nodes node = some data →
      visit T op data.pairs (decide (data.next = .null)) = .next → data.next ≠ .null →
      SetBranch T self set op m (.walk node) m (.inl (.walk data.next))
  | found {node : RemotePtr} {data : Node K V} {res : HtRes V} : m.nodes node = some data →
      visit T op data.pairs (decide (data.next = .null)) = .unlock res →
      SetBranch T self set op m (.walk node) m (.inl (.unlock res))
  | write {node : RemotePtr} {data : Node K V} {pairs : List (Pair K V)} {isIncrement : Bool} {res : HtRes V} :
      m.nodes node = some data →
      visit T op data.pairs (decide (data.next = .null)) = .write pairs isIncrement res →
      SetBranch T self set op m (.walk node) m (.inl (.writeNode node { data with pairs := pairs } isIncrement res))
  | append {node : RemotePtr} {data : Node K V} {pair : Pair K V} {res : HtRes V} : m.nodes node = some data →
      visit T op data.pairs (decide (data.next = .null)) = .append pair res →
      SetBranch T self set op m (.walk node) (m.newNode self { pairs := [pair] })
        (.inl (.writeNode node { data with next := m.fresh self } true res))
  | writeNode {node : RemotePtr} {data old : Node K V} {isIncrement : Bool} {res : HtRes V} : m.nodes node = some old →
      SetBranch T self set op m (.writeNode node data isIncrement res) (m.setNode node data)
        (.inl (.readFirst isIncrement res))
  | readFirst {data : Node K V} {isIncrement : Bool} {res : HtRes V} : m.nodes set.first = some data →
      SetBranch T self set op m (.readFirst isIncrement res) m (.inl (.writeFirst (data.changeTotal isIncrement) res))
  | writeFirst {data old : Node K V} {res : HtRes V} : m.nodes set.first = some old →
      SetBranch T self set op m (.writeFirst data res) (m.setNode set.first data) (.inl (.unlock res))
  | unlock {w : LockType} {res : HtRes V} : m.locks set.lock = some w →
      SetBranch T self set op m (.unlock res) (m.setLock set.lock .unlocked) (.inr res)

inductive ClientBranch (T : Template K V) (self : Nat) (op : IhtOp K V) (m : Mem K V) :
    Pc K V → Mem K V → Pc K V ⊕ HtRes V → Prop where
  | readRoot : ClientBranch T self op m .readRoot m (.inl (.readBucket m.root))
  | readBucket {arr : HashArray} {set : LinkedSet} : m.bucketAt arr.bucketStart (T.keyhash op.key arr.count) = some set →
      ClientBranch T self op m (.readBucket arr) m (.inl (.inSet set .acquire))
  | goesOn {set : LinkedSet} {pc pc' : SetPc K V} {m' : Mem K V} : setStep T self set op m pc = .ok (m', .inl pc') →
      ClientBranch T self op m (.inSet set pc) m' (.inl (.inSet set pc'))
  | returns {set : LinkedSet} {pc : SetPc K V} {m' : Mem K V} {res : HtRes V} :
      setStep T self set op m pc = .ok (m', .inr res) → ClientBranch T self op m (.inSet set pc) m' (report res)

inductive RehashBranch (T : Template K V) (self : Nat) (m : Mem K V) :
    RehashPc K V → Mem K V → Option (RehashPc K V) → Prop where
  | readRoot : RehashBranch T self m .readRoot m (some (.readBuckets m.root))
  | readBuckets {hashtable : HashArray} {sets : List LinkedSet} : m.arrays hashtable.bucketStart = some sets →
      hashtable.count ≤ sets.length →
      RehashBranch T self m (.readBuckets hashtable) m (some (.listLength hashtable (sets.take hashtable.count) 0 0))
  | few {hashtable : HashArray} {buckets : List LinkedSet} {i : Nat} {totalElements : Int} : buckets[i]? = none →
      totalElements < hashtable.count * 10 →
      RehashBranch T self m (.listLength hashtable buckets i totalElements) m none
  | full {hashtable : HashArray} {buckets : List LinkedSet} {i : Nat} {totalElements : Int} : buckets[i]? = none →
      ¬ totalElements < hashtable.count * 10 →
      RehashBranch T self m (.listLength hashtable buckets i totalElements) m (some (.freeze hashtable buckets 0))
  | listLength {hashtable : HashArray} {buckets : List LinkedSet} {i : Nat} {totalElements : Int} {set : LinkedSet}
      {data : Node K V} : buckets[i]? = some set → m.nodes set.first = some data →
      RehashBranch T self m (.listLength hashtable buckets i totalElements) m
        (some (.listLength hashtable buckets (i + 1) (totalElements + data.totalLength.toInt)))
  | frozen {hashtable : HashArray} {buckets : List LinkedSet} {i : Nat} : buckets[i]? = none →
      RehashBranch T self m (.freeze hashtable buckets i) m (some (.publish hashtable buckets))
  | freezes {hashtable : HashArray} {buckets : List LinkedSet} {i : Nat} {set : LinkedSet} : buckets[i]? = some set →
      m.locks set.lock = some .unlocked →
      RehashBranch T self m (.freeze hashtable buckets i) (m.setLock set.lock .locked)
        (some (.freeze hashtable buckets (i + 1)))
  | waits {hashtable : HashArray} {buckets : List LinkedSet} {i : Nat} {set : LinkedSet} {w : LockType} :
      buckets[i]? = some set → m.locks set.lock = some w → w ≠ .unlocked →
      RehashBranch T self m (.freeze hashtable buckets i) m (some (.freeze hashtable buckets i))
  | publish {hashtable : HashArray} {buckets : List LinkedSet} : hashtable.count * 2 < 2 ^ 31 →
      RehashBranch T self m (.publish hashtable buckets)
        { (m.newArray self (hashtable.count * 2)).2 with root := (m.newArray self (hashtable.count * 2)).1 }
        (some (.bucket buckets (m.newArray self (hashtable.count * 2)).1 0))
  | added {buckets : List LinkedSet} {new : HashArray} {i : Nat} : buckets[i]? = none →
      RehashBranch T self m (.bucket buckets new i) m (some (.melt buckets 0))
  | bucket {buckets : List LinkedSet} {new : HashArray} {i : Nat} {set : LinkedSet} : buckets[i]? = some set →
      RehashBranch T self m (.bucket buckets new i) m (some (.foreach buckets new i set.first))
  | chainEnd {buckets : List LinkedSet} {new : HashArray} {i : Nat} :
      RehashBranch T self m (.foreach buckets new i .null) m (some (.bucket buckets new (i + 1)))
  | node {buckets : List LinkedSet} {new : HashArray} {i : Nat} {node : RemotePtr} {data : Node K V} : node ≠ .null →
      m.nodes node = some data →
      RehashBranch T self m (.foreach buckets new i node) m (some (.pairs buckets new i data.next data.pairs))
  | nodeEnd {buckets : List LinkedSet} {new : HashArray} {i : Nat} {next : RemotePtr} :
      RehashBranch T self m (.pairs buckets new i next []) m (some (.foreach buckets new i next))
  | pair {buckets : List LinkedSet} {new : HashArray} {i : Nat} {next : RemotePtr} {pair : Pair K V}
      {rest : List (Pair K V)} {set : LinkedSet} :
      m.bucketAt new.bucketStart (T.keyhash pair.key new.count) = some set →
      RehashBranch T self m (.pairs buckets new i next (pair :: rest)) m
        (some (.insert buckets new i next pair rest set .acquire))
  | inserts {buckets : List LinkedSet} {new : HashArray} {i : Nat} {next : RemotePtr} {pair : Pair K V}
      {rest : List (Pair K V)} {set : LinkedSet} {pc pc' : SetPc K V} {m' : Mem K V} :
      setStep T self set (.insert pair.key pair.val) m pc = .ok (m', .inl pc') →
      RehashBranch T self m (.insert buckets new i next pair rest set pc) m'
        (some (.insert buckets new i next pair rest set pc'))
  | inserted {buckets : List LinkedSet} {new : HashArray} {i : Nat} {next : RemotePtr} {pair : Pair K V}
      {rest : List (Pair K V)} {set : LinkedSet} {pc : SetPc K V} {m' : Mem K V} {res : HtRes V} :
      setStep T self set (.insert pair.key pair.val) m pc = .ok (m', .inr res) →
      RehashBranch T self m (.insert buckets new i next pair rest set pc) m' (some (.pairs buckets new i next rest))
  | melted {buckets : List LinkedSet} {i : Nat} : buckets[i]? = none → RehashBranch T self m (.melt buckets i) m none
  | melts {buckets : List LinkedSet} {i : Nat} {set : LinkedSet} {w : LockType} : buckets[i]? = some set →
      m.locks set.lock = some w →
      RehashBranch T self m (.melt buckets i) (m.setLock set.lock .deleted) (some (.melt buckets (i + 1)))

variable {T : Template K V} {self : Nat} {set : LinkedSet} {op : IhtOp K V} {m m' : Mem K V}

omit [DecidableEq K] in
theorem Mem.compareAndSwap_eq {p : RemotePtr} {w : LockType} (swapped : m.compareAndSwap p = some (w, m')) :
    m.locks p = some w ∧ m' = if w = .unlocked then m.setLock p .locked else m := by
  unfold compareAndSwap at swapped
  obtain ⟨w', word, same⟩ := Option.map_eq_some_iff.mp swapped
  cases same
  exact ⟨word, rfl⟩

theorem setStep_branch {pc : SetPc K V} {next : SetPc K V ⊕ HtRes V} (stepped : setStep T self set op m pc = .ok (m', next)) :
    SetBranch T self set op m pc m' next := by
  cases pc with
  | acquire =>
    simp only [setStep] at stepped
    -- the word found was open, locked by another thread, or deleted
    split at stepped <;> cases stepped
    · next swapped =>
      obtain ⟨word, rfl⟩ := Mem.compareAndSwap_eq swapped
      exact .locks word
    · next swapped =>
      obtain ⟨word, rfl⟩ := Mem.compareAndSwap_eq swapped
      exact .spins word
    · next swapped =>
      obtain ⟨word, rfl⟩ := Mem.compareAndSwap_eq swapped
      exact .deleted word
  | walk node =>
    simp only [setStep] at stepped
    split at stepped
    · cases stepped
    · next data stored =>
      split at stepped <;> cases stepped
      · next passes =>
        split
        · next last => exact .last stored passes last
        · next more => exact .further stored passes more
      · next passes => exact .found stored passes
      · next passes => exact .write stored passes
      · next passes => exact .append stored passes
  | writeNode node data isIncrement res =>
    simp only [setStep] at stepped
    split at stepped <;> cases stepped
    next stored => exact .writeNode stored
  | readFirst isIncrement res =>
    simp only [setStep] at stepped
    split at stepped <;> cases stepped
    next stored => exact .readFirst stored
  | writeFirst data res =>
    simp only [setStep] at stepped
    split at stepped <;> cases stepped
    next stored => exact .writeFirst stored
  | unlock res =>
    simp only [setStep] at stepped
    split at stepped <;> cases stepped
    next word => exact .unlock word

theorem clientStep_branch {pc : Pc K V} {next : Pc K V ⊕ HtRes V} (stepped : clientStep T self op m pc = .ok (m', next)) :
    ClientBranch T self op m pc m' next := by
  cases pc with
  | readRoot =>
    cases stepped
    exact .readRoot
  | readBucket arr =>
    simp only [clientStep] at stepped
    split at stepped <;> cases stepped
    next found => exact .readBucket found
  | inSet set pc =>
    simp only [clientStep] at stepped
    split at stepped <;> cases stepped
    · next went => exact .goesOn went
    · next went => exact .returns went

theorem rehashStep_branch {pc : RehashPc K V} {next : Option (RehashPc K V)}
    (stepped : rehashStep T self m pc = .ok (m', next)) : RehashBranch T self m pc m' next := by
  cases pc with
  | readRoot =>
    cases stepped
    exact .readRoot
  | readBuckets hashtable =>
    simp only [rehashStep] at stepped
    split at stepped
    · cases stepped
    · next sets stored =>
      split at stepped <;> cases stepped
      next long => exact .readBuckets stored long
  | listLength hashtable buckets i totalElements =>
    simp only [rehashStep] at stepped
    split at stepped
    · next past =>
      split at stepped <;> cases stepped
      · next less => exact .few past less
      · next more => exact .full past more
    · next set at_ =>
      split at stepped <;> cases stepped
      next stored => exact .listLength at_ stored
  -- the exchange is modelled as one step: it either freezes the set or is tried again
  | freeze hashtable buckets i =>
    simp only [rehashStep] at stepped
    split at stepped
    · next past =>
      cases stepped
      exact .frozen past
    · next set at_ =>
      split at stepped <;> cases stepped
      · next swapped =>
        obtain ⟨word, rfl⟩ := Mem.compareAndSwap_eq swapped
        exact .freezes at_ word
      · next w taken swapped =>
        obtain ⟨word, rfl⟩ := Mem.compareAndSwap_eq swapped
        rw [if_neg taken]
        exact .waits at_ word taken
  | publish hashtable buckets =>
    simp only [rehashStep] at stepped
    split at stepped <;> cases stepped
    next small => exact .publish small
  | bucket buckets new i =>
    simp only [rehashStep] at stepped
    split at stepped <;> cases stepped
    · next past => exact .added past
    · next at_ => exact .bucket at_
  | foreach buckets new i node =>
    simp only [rehashStep] at stepped
    split at stepped
    · next last =>
      cases stepped
      subst last
      exact .chainEnd
    · next notNull =>
      split at stepped <;> cases stepped
      next stored => exact .node notNull stored
  | pairs buckets new i next rest =>
    cases rest with
    | nil =>
      cases stepped
      exact .nodeEnd
    | cons pair rest =>
      simp only [rehashStep] at stepped
      split at stepped <;> cases stepped
      next found => exact .pair found
  -- one step of the insert that carries the pair over, in the new array
  | insert buckets new i next pair rest set pc =>
    simp only [rehashStep] at stepped
    split at stepped <;> cases stepped
    · next went => exact .inserts went
    · next went => exact .inserted went
  | melt buckets i =>
    simp only [rehashStep] at stepped
    split at stepped
    · next past =>
      cases stepped
      exact .melted past
    · next set at_ =>
      split at stepped <;> cases stepped
      next word => exact .melts at_ word

end RdmaIht.Hashtable
