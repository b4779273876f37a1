import Mathlib.Data.List.Dedup
import RdmaIht.Hashtable.Growth
import RdmaIht.Hashtable.Linearizability

/-! A resize that runs alone keeps every lookup.

The new buckets are filled by inserts alone, so that all nodes of a new bucket but
the last are full and an insert meets every key. A key that the old bucket holds
twice is inserted once, with the value that `contains` found.
-/

set_option autoImplicit false

namespace RdmaIht.Hashtable

variable {K V : Type} [DecidableEq K] {T : Template K V}

/-! ## Buckets filled by inserts -/

/-- All nodes but the last are full. -/
def Compact (nodes : List (List (Pair K V))) : Prop :=
  ∃ full last, nodes = full ++ [last] ∧ ∀ pairs ∈ full, pairs.length = nodeBundleSize

theorem applyNodes_compact (key : K) (value : V) {nodes : List (List (Pair K V))} (compact : Compact nodes) :
    Compact (Bundles.applyNodes T (.insert key value) nodes).1 ∧
      (Bundles.applyNodes T (.insert key value) nodes).1.flatten =
        nodes.flatten ++ if findPair key nodes.flatten = none then [⟨key, value⟩] else [] := by
  obtain ⟨full, last, rfl, filled⟩ := compact
  induction full with
  | nil =>
    simp only [List.nil_append, Bundles.applyNodes, visit, insertVisit, List.flatten_singleton]
    cases here : findPair key last with
    | some pair => exact ⟨⟨[], last, rfl, filled⟩, by simp⟩
    | none =>
      by_cases room : last.length = nodeBundleSize
      · simp only [room, if_true, List.isEmpty_nil]
        exact ⟨⟨[last], [⟨key, value⟩], rfl, by simpa using room⟩, by simp⟩
      · simp only [room, if_false]
        exact ⟨⟨[], last ++ [⟨key, value⟩], rfl, by simp⟩, by simp⟩
  -- every node but the last is full, so the insert looks at the next one too
  | cons pairs full ih =>
    obtain ⟨compact, flat⟩ := ih fun other member => filled other (List.mem_cons_of_mem _ member)
    have whole : pairs.length = nodeBundleSize := filled pairs List.mem_cons_self
    have more : (full ++ [last]).isEmpty = false := by simp
    simp only [List.cons_append, Bundles.applyNodes, visit, insertVisit, List.flatten_cons, findPair_append]
    cases here : findPair key pairs with
    | some pair => exact ⟨⟨pairs :: full, last, rfl, filled⟩, by simp⟩
    | none =>
      simp only [whole, if_true, more, Bool.false_eq_true, if_false, List.flatten_cons, flat, Option.none_or,
        List.append_assoc]
      obtain ⟨full', last', same, filled'⟩ := compact
      rw [same]
      refine ⟨⟨pairs :: full', last', rfl, fun other member => ?_⟩, rfl⟩
      rcases List.mem_cons.mp member with rfl | later
      · exact whole
      · exact filled' other later

theorem pairs_apply (b : Bundles K V) (op : IhtOp K V) :
    (b.apply T op).1.nodes = (Bundles.applyNodes T op b.nodes).1 := by
  unfold Bundles.apply
  split
  · next applied => rw [applied]
  · next applied =>
    rw [applied]
    rfl

theorem findPair_singleton (key : K) (pair : Pair K V) :
    findPair key [pair] = if pair.key = key then some pair else none := by
  simp [findPair, List.find?_cons]
  split <;> simp_all

theorem pairs_insert {b : Bundles K V} (compact : Compact b.nodes) (pair : Pair K V) :
    (b.apply T (.insert pair.key pair.val)).1.pairs =
      b.pairs ++ if findPair pair.key b.pairs = none then [pair] else [] := by
  rw [Bundles.pairs, pairs_apply, (applyNodes_compact (T := T) pair.key pair.val compact).2]
  rfl

def Bundles.applyAll (T : Template K V) (b : Bundles K V) (ops : List (IhtOp K V)) : Bundles K V :=
  ops.foldl (fun b op => (b.apply T op).1) b

/-- Inserts of distinct keys add those that are not there yet. -/
theorem applyAll_inserts {b : Bundles K V} (compact : Compact b.nodes) (pairs : List (Pair K V))
    (distinct : (pairs.map Pair.key).Nodup) :
    (b.applyAll T (pairs.map fun pair => .insert pair.key pair.val)).pairs =
      b.pairs ++ pairs.filter fun pair => (findPair pair.key b.pairs).isNone := by
  induction pairs generalizing b with
  | nil => exact (List.append_nil _).symm
  | cons pair rest ih =>
    obtain ⟨new, distinct'⟩ := List.nodup_cons.mp distinct
    have further := ih (b := (b.apply T (.insert pair.key pair.val)).1)
      (by rw [pairs_apply]; exact (applyNodes_compact _ _ compact).1) distinct'
    -- the pair hides none of the later ones
    have same : (rest.filter fun other => (findPair other.key (b.apply T (.insert pair.key pair.val)).1.pairs).isNone) =
        rest.filter fun other => (findPair other.key b.pairs).isNone := by
      refine List.filter_congr fun other member => ?_
      have apart : pair.key ≠ other.key := fun equal => new (equal ▸ List.mem_map_of_mem member)
      rw [pairs_insert compact, findPair_append]
      split
      · rw [findPair_singleton, if_neg apart, Option.or_none]
      · rw [findPair, findPair, List.find?_nil, Option.or_none]
    rw [same, pairs_insert compact] at further
    rw [List.map_cons, Bundles.applyAll, List.foldl_cons, List.filter_cons]
    refine further.trans ?_
    cases found : findPair pair.key b.pairs <;> simp

/-- The bucket holds, once each, the keys of `pairs` with the first value. -/
structure Gathered (b : Bundles K V) (pairs : List (Pair K V)) : Prop where
  compact : Compact b.nodes
  distinct : (b.pairs.map Pair.key).Nodup
  finds : ∀ key, findPair key b.pairs = findPair key pairs

omit [DecidableEq K] in
theorem Compact.empty : Compact (Bundles.empty : Bundles K V).nodes := ⟨[], [], rfl, by simp⟩

theorem Gathered.empty : Gathered (Bundles.empty : Bundles K V) [] where
  compact := .empty
  distinct := by simp [Bundles.empty, Bundles.pairs]
  finds key := by simp [Bundles.empty, Bundles.pairs]

theorem Gathered.insert {b : Bundles K V} {pairs : List (Pair K V)} (gathered : Gathered b pairs) (pair : Pair K V) :
    Gathered (b.apply T (.insert pair.key pair.val)).1 (pairs ++ [pair]) := by
  have same := pairs_insert (T := T) gathered.compact pair
  refine ⟨by rw [pairs_apply]; exact (applyNodes_compact _ _ gathered.compact).1, ?_, fun key => ?_⟩
  · rw [same]
    split
    · next absent =>
      rw [List.map_append, List.nodup_append]
      refine ⟨gathered.distinct, by simp, fun k member k' last => ?_⟩
      obtain ⟨other, inside, rfl⟩ := List.mem_map.mp member
      rw [show k' = pair.key by simpa using last]
      exact findPair_eq_none.mp absent other inside
    · rw [List.append_nil]
      exact gathered.distinct
  · rw [same, findPair_append, findPair_append, ← gathered.finds key]
    -- the first pair of a key stays the one that is found
    by_cases hit : pair.key = key
    · subst hit
      cases found : findPair pair.key b.pairs <;> simp
    · have miss : findPair key [pair] = none := by rw [findPair_singleton, if_neg hit]
      rw [miss]
      split
      · rw [miss]
      · rfl

/-! ## The table -/

namespace Table

variable {t : Table K V}

@[simp] theorem count_apply (t : Table K V) (op : IhtOp K V) : (t.apply T op).1.count = t.count := rfl

theorem count_add (pairs : List (Pair K V)) (t : Table K V) : (t.add T pairs).count = t.count := by
  induction pairs generalizing t with
  | nil => rfl
  | cons pair rest ih => exact ih _

theorem count_rehashed (t : Table K V) : (t.rehashed T).count = t.count * 2 := count_add _ _

theorem gathered_add (rest done : List (Pair K V))
    (gathered : ∀ i, Gathered (t.buckets i) (done.filter fun pair => T.keyhash pair.key t.count == i)) (i : Nat) :
    Gathered ((t.add T rest).buckets i)
      ((done ++ rest).filter fun pair => T.keyhash pair.key t.count == i) := by
  induction rest generalizing t done with
  | nil =>
    rw [List.append_nil]
    exact gathered i
  | cons pair rest ih =>
    have next := ih (t := (t.apply T (.insert pair.key pair.val)).1) (done ++ [pair]) fun j => by
      simp only [Table.apply, Function.update_apply, List.filter_append, IhtOp.key]
      split
      · next here =>
        subst here
        have added := (gathered (T.keyhash pair.key t.count)).insert (T := T) pair
        simpa using added
      · next other =>
        have elsewhere : ¬ T.keyhash pair.key t.count = j := fun same => other same.symm
        simpa [elsewhere] using gathered j
    rw [List.append_assoc, List.singleton_append] at next
    exact next

theorem gathered_rehashed (t : Table K V) (i : Nat) : Gathered ((t.rehashed T).buckets i)
    (t.all.filter fun pair => T.keyhash pair.key (t.count * 2) == i) :=
  gathered_add (t := t.doubled) t.all [] (fun _ => Gathered.empty) i

theorem findPair_all (kept : t.Kept T) (key : K) :
    findPair key t.all = findPair key (t.buckets (T.keyhash key t.count)).pairs := by
  have bound := T.keyhash_lt key kept.pos
  have elsewhere : ∀ i, i ≠ T.keyhash key t.count → findPair key (t.buckets i).pairs = none := by
    intro i other
    refine findPair_eq_none.mpr fun pair member same => other ?_
    rw [← same]
    exact ((kept.bucket i).placed pair member).symm
  have upTo : ∀ n, findPair key ((List.range n).flatMap fun i => (t.buckets i).pairs) =
      if T.keyhash key t.count < n then findPair key (t.buckets (T.keyhash key t.count)).pairs else none := by
    intro n
    induction n with
    | zero => rfl
    | succ n ih =>
      rw [List.range_succ, List.flatMap_append, findPair_append, ih, List.flatMap_singleton]
      by_cases here : n = T.keyhash key t.count
      · simp [← here]
      · rw [elsewhere n here, Option.or_none]
        have same : T.keyhash key t.count < n + 1 ↔ T.keyhash key t.count < n := by omega
        simp only [same]
  rw [all, upTo, if_pos bound]

theorem lookup_rehashed (kept : t.Kept T) (key : K) :
    findPair key ((t.rehashed T).buckets (T.keyhash key (t.count * 2))).pairs =
      findPair key (t.buckets (T.keyhash key t.count)).pairs := by
  rw [(gathered_rehashed t _).finds, ← findPair_all kept, findPair, List.find?_filter, findPair]
  congr 1
  funext pair
  by_cases same : pair.key = key
  · simp [same]
  · simp [same]

/-- A `contains` returns the same before and after a `try_rehash`. -/
theorem contains_tryRehash (kept : t.Kept T) (key : K) :
    ((t.tryRehash T).apply T (.contains key)).2 = (t.apply T (.contains key)).2 := by
  unfold tryRehash
  split
  · have same := lookup_rehashed kept key
    simp only [Bundles.pairs] at same
    simp only [Table.apply, IhtOp.key, count_rehashed, Bundles.apply, applyNodes_contains, same]
  · rfl

end Table

/-! ## The memory -/

/-- `list_length` -/
def Mem.listLength (m : Mem K V) (set : LinkedSet) : BitVec 32 := ((m.nodes set.first).map (·.totalLength)).getD 0

/-- `total_elements` -/
def Mem.totalElements (m : Mem K V) (sets : List LinkedSet) : Int := (sets.map fun set => (m.listLength set).toInt).sum

omit [DecidableEq K] in
theorem Mem.Represents.listLength_eq {m : Mem K V} {mine : RemotePtr → Prop} {set : LinkedSet} {b : Bundles K V}
    (rep : m.Represents mine set.first b) (notNull : set.first ≠ .null) : m.listLength set = b.total := by
  obtain ⟨l, path, rfl⟩ := rep
  cases l with
  | nil => exact absurd path notNull
  | cons head rest =>
    obtain ⟨r, n⟩ := head
    obtain ⟨rfl, _, _, stored, _⟩ := path
    simp [Mem.listLength, stored, Mem.contents]

namespace Between

variable {t : Table K V} {root : RemotePtr} {m m' : Mem K V}

theorem root_sets (between : Between T root t m) : ∃ sets, m.arrays m.root.bucketStart = some sets ∧
    sets.length = t.count ∧ m.root.count = t.count := by
  obtain ⟨_, home, answer, inv⟩ := between
  have ground : Ground t home m := inv.ground
  obtain ⟨sets, stored, length, _⟩ := ground.shape.root
  exact ⟨sets, stored, length.trans ground.count.symm, ground.count.symm⟩

theorem contents (between : Between T root t m) {i : Nat} {set : LinkedSet}
    (at_ : m.bucketAt m.root.bucketStart i = some set) :
    (m.chain m.next set.first).map (·.pairs) = (t.buckets i).nodes ∧ m.listLength set = (t.buckets i).total := by
  obtain ⟨_, home, answer, inv⟩ := between
  have ground : Ground t home m := inv.ground
  have rep := ground.opened at_ (inv.unlocked at_ not_holds_idle)
  exact ⟨ground.shape.bundles_eq rep, rep.listLength_eq (ground.shape.first at_).2.2⟩

theorem pairsFrom_eq (between : Between T root t m) {i : Nat} {set : LinkedSet}
    (at_ : m.bucketAt m.root.bucketStart i = some set) : m.pairsFrom set.first = (t.buckets i).pairs := by
  rw [Bundles.pairs, ← (between.contents at_).1, Mem.pairsFrom, List.flatMap_def]

theorem totalElements_eq (between : Between T root t m) {sets : List LinkedSet}
    (stored : m.arrays m.root.bucketStart = some sets) : m.totalElements sets = t.load t.count := by
  obtain ⟨sets', stored', length, _⟩ := between.root_sets
  cases stored.symm.trans stored'
  rw [Mem.totalElements, Table.load, ← length]
  congr 1
  refine List.ext_getElem (by simp) fun i inSets inRange => ?_
  have bound : i < sets.length := by simpa using inSets
  have at_ : m.bucketAt m.root.bucketStart i = some sets[i] :=
    m.bucketAt_eq_some.mpr ⟨sets, stored, List.getElem?_eq_getElem bound⟩
  simp [(between.contents at_).2]

end Between

/-- The pool of the root is that of the host. -/
theorem perform_host {host fuel : Nat} {m m' : Mem K V} (done : finishRehash T host fuel m .readRoot = .ok m') :
    perform T (initial T host).root fuel m host .tryRehash = .ok (m', none) := by
  unfold perform
  rw [if_pos (by simp [RemotePtr.isLocal, initial, initArray, Mem.fresh])]
  exact bind_eq_ok.mpr ⟨m', done, rfl⟩

/-! ## Tables of `int` keys -/

section IntKeys

variable {initialSize : Nat}

theorem Between.run (positive : 1 ≤ initialSize) (host : Nat) (cs : List (Nat × Call (BitVec 32) (BitVec 32))) :
    let after := (Table.init (intTemplate initialSize)).calls (intTemplate initialSize) host cs
    ∃ fuel m, Hashtable.calls (intTemplate initialSize) (initial (intTemplate initialSize) host).root fuel
        (initial (intTemplate initialSize) host).mem cs = .ok (m, after.2) ∧
      Between (intTemplate initialSize) (initial (intTemplate initialSize) host).root after.1 m ∧
      after.1.Kept (intTemplate initialSize) := by
  have keep : ∀ (t : Table (BitVec 32) (BitVec 32)) isHost call, t.Kept (intTemplate initialSize) →
      (t.perform (intTemplate initialSize) isHost call).1.Kept (intTemplate initialSize) :=
    fun _ isHost call kept => kept.perform isHost call
  obtain ⟨fuel, m, done, between⟩ := (Between.start (intTemplate initialSize) positive host).calls keep
    (fun _ kept => kept.small) (.init positive) cs
  exact ⟨fuel, m, done, between, Table.calls_invariant _ keep (.init positive) cs⟩

theorem Between.reached (positive : 1 ≤ initialSize) {host fuel : Nat} {cs : List (Nat × Call (BitVec 32) (BitVec 32))}
    {m : Mem (BitVec 32) (BitVec 32)} {results : List (HtRes (BitVec 32))}
    (reached : Hashtable.calls (intTemplate initialSize) (initial (intTemplate initialSize) host).root fuel
      (initial (intTemplate initialSize) host).mem cs = .ok (m, results)) :
    let after := (Table.init (intTemplate initialSize)).calls (intTemplate initialSize) host cs
    Between (intTemplate initialSize) (initial (intTemplate initialSize) host).root after.1 m ∧
      after.1.Kept (intTemplate initialSize) ∧ results = after.2 := by
  obtain ⟨fuel', m', done, between, kept⟩ := Between.run positive host cs
  obtain ⟨rfl, rfl⟩ := calls_functional reached done
  exact ⟨between, kept, rfl⟩

/-- What a resize leaves in the array `sets` of the root. -/
structure Resize (T : Template K V) (m : Mem K V) (sets : List LinkedSet) : Prop where
  count : sets.length = m.root.count
  placed : ∀ i set, sets[i]? = some set → ∀ pair ∈ m.pairsFrom set.first, T.keyhash pair.key m.root.count = i
  distinct : ∀ set ∈ sets, ((m.pairsFrom set.first).map Pair.key).Nodup
  length : ∀ set ∈ sets, m.listLength set = BitVec.ofNat 32 (m.pairsFrom set.first).length
  /-- only 2^31 pairs in one bucket have a number that is not an `int` -/
  exact : ∀ set ∈ sets, (m.pairsFrom set.first).length ≠ 2 ^ 31 →
    (m.listLength set).toInt = (m.pairsFrom set.first).length

theorem Between.resize {t : Table (BitVec 32) (BitVec 32)} {root : RemotePtr}
    {m : Mem (BitVec 32) (BitVec 32)} {sets : List LinkedSet} (kept : t.Kept (intTemplate initialSize))
    (between : Between (intTemplate initialSize) root (t.rehashed (intTemplate initialSize)) m)
    (stored : m.arrays m.root.bucketStart = some sets) : Resize (intTemplate initialSize) m sets := by
  have kept' := kept.rehashed
  obtain ⟨sets', stored', length, count⟩ := between.root_sets
  cases stored.symm.trans stored'
  have at_ : ∀ (i : Nat) set, sets[i]? = some set → m.bucketAt m.root.bucketStart i = some set :=
    fun i set slot => m.bucketAt_eq_some.mpr ⟨sets, stored, slot⟩
  have total : ∀ (i : Nat) set, sets[i]? = some set → m.listLength set = BitVec.ofNat 32 (m.pairsFrom set.first).length := by
    intro i set slot
    rw [(between.contents (at_ i set slot)).2, between.pairsFrom_eq (at_ i set slot)]
    exact (kept'.bucket i).total
  have distinct : ∀ (i : Nat) set, sets[i]? = some set → ((m.pairsFrom set.first).map Pair.key).Nodup := by
    intro i set slot
    rw [between.pairsFrom_eq (at_ i set slot)]
    exact (Table.gathered_rehashed t i).distinct
  have placed : ∀ (i : Nat) set, sets[i]? = some set → ∀ pair ∈ m.pairsFrom set.first,
      (intTemplate initialSize).keyhash pair.key m.root.count = i := by
    intro i set slot pair member
    rw [between.pairsFrom_eq (at_ i set slot)] at member
    rw [count]
    exact (kept'.bucket i).placed pair member
  refine ⟨length.trans count.symm, placed, ?_, ?_, ?_⟩
  · intro set member
    obtain ⟨i, slot⟩ := List.mem_iff_getElem?.mp member
    exact distinct i set slot
  · intro set member
    obtain ⟨i, slot⟩ := List.mem_iff_getElem?.mp member
    exact total i set slot
  · intro set member fits
    obtain ⟨i, slot⟩ := List.mem_iff_getElem?.mp member
    -- there are two buckets at least, so that a bucket has at most half of the keys
    have double : 2 ≤ m.root.count := by
      rw [count, Table.count_rehashed]
      have := kept.pos
      omega
    have half := length_le_of_keyhash (T := intTemplate initialSize) rfl (q := 2 ^ 30) (i := i)
      (show 2 ^ 31 ≤ m.root.count * 2 ^ 30 by omega) (distinct i set slot) (by
        intro key inside
        obtain ⟨pair, member, rfl⟩ := List.mem_map.mp inside
        exact placed i set slot pair member)
    rw [List.length_map] at half
    rw [total i set slot, BitVec.toInt_eq_toNat_cond, BitVec.toNat_ofNat, Nat.mod_eq_of_lt (by omega)]
    rw [if_pos (by omega)]

/-- After any calls a `try_rehash` of the host returns, and `contains` returns for
every key what it returned before. If the load was below the limit nothing has
changed; otherwise the number of buckets is doubled, every pair is in its bucket, no
key is there twice, `list_length` is the number of pairs as an `int`, and the old
buckets are deleted. -/
theorem tryRehash_keeps_lookups (positive : 1 ≤ initialSize) (host : Nat) {fuel : Nat}
    {cs : List (Nat × Call (BitVec 32) (BitVec 32))} {m : Mem (BitVec 32) (BitVec 32)} {results : List (HtRes (BitVec 32))}
    (reached : calls (intTemplate initialSize) (initial (intTemplate initialSize) host).root fuel
      (initial (intTemplate initialSize) host).mem cs = .ok (m, results)) :
    ∃ fuel' m' old new,
      perform (intTemplate initialSize) (initial (intTemplate initialSize) host).root fuel' m host .tryRehash =
        .ok (m', none) ∧
      m.arrays m.root.bucketStart = some old ∧ m'.arrays m'.root.bucketStart = some new ∧
      (∀ key pool pool', ∃ fuel'' m₁ m₂ res,
        perform (intTemplate initialSize) (initial (intTemplate initialSize) host).root fuel'' m pool
          (.operation (.contains key)) = .ok (m₁, some res) ∧
        perform (intTemplate initialSize) (initial (intTemplate initialSize) host).root fuel'' m' pool'
          (.operation (.contains key)) = .ok (m₂, some res)) ∧
      if m.totalElements old < m.root.count * 10 then m' = m
      else m'.root.count = m.root.count * 2 ∧ Resize (intTemplate initialSize) m' new ∧
        ∀ set ∈ old, m'.locks set.lock = some .deleted := by
  obtain ⟨between, kept, _⟩ := Between.reached positive reached
  revert between kept
  generalize ((Table.init (intTemplate initialSize)).calls (intTemplate initialSize) host cs).1 = t
  intro between kept
  obtain ⟨old, stored, length, count⟩ := between.root_sets
  obtain ⟨fuel', m', done, between', few, full⟩ := between.tryRehash host kept.small
  obtain ⟨new, stored', length', count'⟩ := between'.root_sets
  refine ⟨fuel', m', old, new, ?_, stored, stored', ?_, ?_⟩
  · exact perform_host done
  · intro key pool pool'
    obtain ⟨before, m₁, found, _⟩ := between.operation pool (.contains key)
    obtain ⟨after, m₂, found', _⟩ := between'.operation pool' (.contains key)
    rw [Table.contains_tryRehash kept key] at found'
    -- one fuel for both calls: each result stays when the fuel grows
    exact ⟨max before after, m₁, m₂, _, bind_eq_ok.mpr ⟨_, finish_mono (Nat.le_max_left _ _) found, rfl⟩,
      bind_eq_ok.mpr ⟨_, finish_mono (Nat.le_max_right _ _) found', rfl⟩⟩
  · rw [between.totalElements_eq stored, count]
    split
    · next below => exact few fun reaches => reaches below
    · next reaches =>
      have resized : t.tryRehash (intTemplate initialSize) = t.rehashed (intTemplate initialSize) := if_pos reaches
      rw [resized] at between' count'
      rw [count', Table.count_rehashed]
      refine ⟨rfl, between'.resize kept stored', fun set member => ?_⟩
      obtain ⟨i, slot⟩ := List.mem_iff_getElem?.mp member
      exact full reaches i set (m.bucketAt_eq_some.mpr ⟨old, stored, slot⟩)

/-- Ten inserts reach the load limit of one bucket. -/
def tenCalls : List (Nat × Call (BitVec 32) (BitVec 32)) :=
  (List.range 10).map fun k => (k, .operation (.insert (.ofNat 32 k) (.ofNat 32 (k + 20))))

theorem tryRehash_keeps_lookups_tenCalls : ∃ m results fuel m' old new,
    calls (intTemplate 1) (initial (intTemplate 1) 0).root 20 (initial (intTemplate 1) 0).mem tenCalls = .ok (m, results) ∧
    perform (intTemplate 1) (initial (intTemplate 1) 0).root fuel m 0 .tryRehash = .ok (m', none) ∧
    m.arrays m.root.bucketStart = some old ∧ m'.arrays m'.root.bucketStart = some new ∧
    m'.root.count = m.root.count * 2 ∧ Resize (intTemplate 1) m' new := by
  have ran : ((calls (intTemplate 1) (initial (intTemplate 1) 0).root 20 (initial (intTemplate 1) 0).mem
      tenCalls).toOption.bind fun done => (done.1.arrays done.1.root.bucketStart).map fun sets =>
        decide (done.1.totalElements sets < done.1.root.count * 10)) = some false := by decide +kernel
  cases reached : calls (intTemplate 1) (initial (intTemplate 1) 0).root 20 (initial (intTemplate 1) 0).mem tenCalls with
  | error fault =>
    rw [reached] at ran
    cases ran
  | ok done =>
    obtain ⟨m, results⟩ := done
    obtain ⟨fuel, m', old, new, resized, stored, stored', _, outcome⟩ := tryRehash_keeps_lookups (Nat.le_refl 1) 0 reached
    rw [reached] at ran
    simp only [Except.toOption, Option.bind_some, stored, Option.map_some, Option.some.injEq, decide_eq_false_iff_not] at ran
    rw [if_neg ran] at outcome
    exact ⟨m, results, fuel, m', old, new, rfl, resized, stored, stored', outcome.1, outcome.2.1⟩

/-! ## More pairs than an `int` can count -/

def pairsBelow (n : Nat) : List (Pair (BitVec 32) (BitVec 32)) := (List.range n).map fun i => ⟨.ofNat 32 i, 0⟩

theorem nodup_ofNat {n : Nat} {f : Nat → Nat} (small : ∀ i < n, f i < 2 ^ 32) (injective : Function.Injective f) :
    ((List.range n).map fun i => BitVec.ofNat 32 (f i)).Nodup := by
  refine List.Nodup.map_on (fun i below j below' same => injective ?_) List.nodup_range
  have equal := congrArg BitVec.toNat same
  rw [BitVec.toNat_ofNat, BitVec.toNat_ofNat, Nat.mod_eq_of_lt (small i (List.mem_range.mp below)),
    Nat.mod_eq_of_lt (small j (List.mem_range.mp below'))] at equal
  exact equal

theorem nodup_pairsBelow {n : Nat} (keys : n ≤ 2 ^ 32) : ((pairsBelow n).map Pair.key).Nodup := by
  rw [pairsBelow, List.map_map]
  exact nodup_ofNat (f := id) (fun i below => Nat.lt_of_lt_of_le below keys) Function.injective_id

theorem length_of_parity {n r : Nat} (half : n * 2 = 2 ^ 32) (bit : r < 2) {keys : List (BitVec 32)} (distinct : keys.Nodup)
    (parity : ∀ key : BitVec 32, key ∈ keys ↔ key.toNat % 2 = r) : keys.length = n := by
  have apart : ((List.range n).map fun i => BitVec.ofNat 32 (2 * i + r)).Nodup :=
    nodup_ofNat (fun i below => by omega) fun i j same => by omega
  have same : keys.Perm ((List.range n).map fun i => BitVec.ofNat 32 (2 * i + r)) := by
    refine (List.perm_ext_iff_of_nodup distinct apart).mpr fun key => ?_
    have bound := key.isLt
    rw [parity, List.mem_map]
    constructor
    · intro residue
      exact ⟨key.toNat / 2, List.mem_range.mpr (by omega), by rw [← residue, Nat.div_add_mod, BitVec.ofNat_toNat]; simp⟩
    · rintro ⟨i, below, rfl⟩
      have below := List.mem_range.mp below
      rw [BitVec.toNat_ofNat]
      omega
  rw [same.length_eq, List.length_map, List.length_range]

theorem keyhash_two (key : BitVec 32) : (intTemplate 1).keyhash key 2 = key.toNat % 2 := by
  change (key.signExtend 64).toNat % 2 = key.toNat % 2
  rw [BitVec.toNat_signExtend, BitVec.toNat_setWidth]
  have bound := key.isLt
  split <;> omega

theorem mem_pairsBelow {n : Nat} (every : n = 2 ^ 32) (key : BitVec 32) : ∃ pair ∈ pairsBelow n, pair.key = key :=
  ⟨⟨key, 0⟩, List.mem_map.mpr ⟨key.toNat, List.mem_range.mpr (every ▸ key.isLt), by simp⟩, rfl⟩

/-- Of all keys, those that are in `pairs` are the keys of `pairs`. -/
theorem keys_present {n : Nat} (every : n = 2 ^ 32) (pairs : List (Pair (BitVec 32) (BitVec 32))) :
    (((pairsBelow n).filter fun pair => !(findPair pair.key pairs).isNone).map Pair.key).Perm
      (pairs.map Pair.key).dedup := by
  have distinct := (nodup_pairsBelow (Nat.le_of_eq every)).sublist ((List.filter_sublist
    (p := fun pair => !(findPair pair.key pairs).isNone)).map Pair.key)
  refine (List.perm_ext_iff_of_nodup distinct (List.nodup_dedup _)).mpr fun key => ?_
  rw [List.mem_dedup, List.mem_map]
  constructor
  · rintro ⟨pair, member, rfl⟩
    obtain ⟨_, found⟩ := List.mem_filter.mp member
    cases here : findPair pair.key pairs with
    | none => simp [here] at found
    | some other =>
      obtain ⟨inside, same⟩ := findPair_eq_some here
      exact same ▸ List.mem_map_of_mem inside
  · intro member
    obtain ⟨pair, inside, rfl⟩ := mem_pairsBelow every key
    refine ⟨pair, List.mem_filter.mpr ⟨inside, ?_⟩, rfl⟩
    obtain ⟨other, held, same⟩ := List.mem_map.mp member
    cases here : findPair pair.key pairs with
    | none => exact absurd same (findPair_eq_none.mp here other held)
    | some => rfl

section InsertAll

variable {T : Template (BitVec 32) (BitVec 32)} {b : Bundles (BitVec 32) (BitVec 32)} {n : Nat}

/-- Inserts of all keys that there are, into nodes where some are there already. -/
theorem length_insertAll (compact : Compact b.nodes) (every : n = 2 ^ 32) :
    (b.applyAll T ((pairsBelow n).map fun pair => .insert pair.key pair.val)).pairs.length +
      (b.pairs.map Pair.key).dedup.length = b.pairs.length + n := by
  have length : (pairsBelow n).length = n := by rw [pairsBelow, List.length_map, List.length_range]
  have split := List.length_eq_length_filter_add (l := pairsBelow n) fun pair => (findPair pair.key b.pairs).isNone
  have present := (keys_present every b.pairs).length_eq
  rw [List.length_map] at present
  rw [applyAll_inserts compact _ (nodup_pairsBelow (Nat.le_of_eq every)), List.length_append]
  omega

theorem find_insertAll (compact : Compact b.nodes) (every : n = 2 ^ 32) (key : BitVec 32) :
    findPair key (b.applyAll T ((pairsBelow n).map fun pair => .insert pair.key pair.val)).pairs ≠ none := by
  intro absent
  obtain ⟨pair, inside, rfl⟩ := mem_pairsBelow every key
  rw [applyAll_inserts compact _ (nodup_pairsBelow (Nat.le_of_eq every)), findPair_append, Option.or_eq_none_iff] at absent
  have new : pair ∈ (pairsBelow n).filter fun pair => (findPair pair.key b.pairs).isNone :=
    List.mem_filter.mpr ⟨inside, by rw [absent.1]; rfl⟩
  exact findPair_eq_none.mp absent.2 pair new rfl

end InsertAll

theorem Table.calls_alone {T : Template K V} {t : Table K V} (alone : t.count = 1) (host : Nat) (ops : List (IhtOp K V)) :
    (t.calls T host (ops.map fun op => (0, .operation op))).1.count = 1 ∧
      (t.calls T host (ops.map fun op => (0, .operation op))).1.buckets 0 = (t.buckets 0).applyAll T ops := by
  induction ops generalizing t with
  | nil => exact ⟨alone, rfl⟩
  | cons op rest ih =>
    have place : T.keyhash op.key t.count = 0 := by
      have bound := T.keyhash_lt op.key (Nat.lt_of_lt_of_eq Nat.zero_lt_one alone.symm)
      omega
    obtain ⟨count, bucket⟩ := ih (t := (t.apply T op).1) alone
    refine ⟨count, bucket.trans ?_⟩
    simp only [Table.apply, place, Function.update_self]
    rfl

/-- Ten full nodes and key 70 behind them; then a key is taken out of each full node, the last
one first, so that an insert of key 70 finds room before it finds the key. -/
def copies : List (IhtOp (BitVec 32) (BitVec 32)) :=
  ((List.range 71).map fun i => .insert (.ofNat 32 i) 0) ++
    (List.range 10).flatMap fun j => [.remove (.ofNat 32 (63 - 7 * j)), .insert 70 0]

/-- The copies, and then an insert of each key below `n`. -/
def copiesAndAll (n : Nat) : List (IhtOp (BitVec 32) (BitVec 32)) :=
  copies ++ (pairsBelow n).map fun pair => .insert pair.key pair.val

omit [DecidableEq K] in
theorem compact_of_dropLast {nodes : List (List (Pair K V))} (some : nodes ≠ [])
    (filled : ∀ pairs ∈ nodes.dropLast, pairs.length = nodeBundleSize) : Compact nodes :=
  ⟨nodes.dropLast, nodes.getLast some, (List.dropLast_append_getLast some).symm, filled⟩

/-- Ten pairs more than there are keys. -/
theorem length_copiesAndAll {n : Nat} (every : n = 2 ^ 32) :
    (Bundles.empty.applyAll (intTemplate 1) (copiesAndAll n)).pairs.length = n + 10 ∧
      ∀ key, findPair key (Bundles.empty.applyAll (intTemplate 1) (copiesAndAll n)).pairs ≠ none := by
  have shape : let b := (Bundles.empty : Bundles (BitVec 32) (BitVec 32)).applyAll (intTemplate 1) copies
      b.nodes ≠ [] ∧ (∀ pairs ∈ b.nodes.dropLast, pairs.length = nodeBundleSize) ∧ b.pairs.length = 71 ∧
        (b.pairs.map Pair.key).dedup.length = 61 := by decide +kernel
  obtain ⟨some, filled, length, keys⟩ := shape
  have compact := compact_of_dropLast some filled
  have sum := length_insertAll (T := intTemplate 1) compact every
  rw [length, keys] at sum
  rw [copiesAndAll, Bundles.applyAll, List.foldl_append]
  exact ⟨Nat.add_right_cancel (m := 61) (sum.trans (by omega)), find_insertAll compact every⟩

/-- A table with one bucket that holds all keys is split in halves. -/
theorem Table.length_halves {t : Table (BitVec 32) (BitVec 32)} (alone : t.count = 1)
    (every : ∀ key, findPair key (t.buckets 0).pairs ≠ none) {n i : Nat} (half : n * 2 = 2 ^ 32) (bit : i < 2) :
    ((t.rehashed (intTemplate 1)).buckets i).pairs.length = n := by
  have gathered := t.gathered_rehashed (T := intTemplate 1) i
  have all : t.all = (t.buckets 0).pairs := by simp [Table.all, alone]
  have keys := length_of_parity half bit gathered.distinct fun key => ?_
  · rw [← keys, List.length_map]
  · have held : key ∈ ((t.rehashed (intTemplate 1)).buckets i).pairs.map Pair.key ↔
        findPair key ((t.rehashed (intTemplate 1)).buckets i).pairs ≠ none := by
      rw [ne_eq, findPair_eq_none, List.mem_map]
      simp
    rw [held, gathered.finds, all, alone, ne_eq, findPair_eq_none]
    simp only [Nat.one_mul, keyhash_two]
    constructor
    · intro some
      by_contra other
      exact some fun pair member same => other (same ▸ by simpa using (List.mem_filter.mp member).2)
    · intro parity none
      cases found : findPair key (t.buckets 0).pairs with
      | none => exact every key found
      | some pair =>
        obtain ⟨member, rfl⟩ := findPair_eq_some found
        exact none pair (List.mem_filter.mpr ⟨member, by simpa using parity⟩) rfl

theorem Table.full_of_wrapped {t : Table (BitVec 32) (BitVec 32)} (kept : t.Kept (intTemplate 1)) (alone : t.count = 1)
    {n : Nat} (every : n = 2 ^ 32) (length : (t.buckets 0).pairs.length = n + 10) : t.Full := by
  have total : (t.buckets 0).total = 10 := by
    rw [(kept.bucket 0).total, length, every]
    decide
  simp [Table.Full, Table.load, alone, total]

theorem resize_copiesAndAll {n k : Nat} (every : n = 2 ^ 32) (half : k * 2 = n) : ∃ fuel m results fuel' m' new,
    calls (intTemplate 1) (initial (intTemplate 1) 0).root fuel (initial (intTemplate 1) 0).mem
      ((copiesAndAll n).map fun op => (0, .operation op)) = .ok (m, results) ∧
    perform (intTemplate 1) (initial (intTemplate 1) 0).root fuel' m 0 .tryRehash = .ok (m', none) ∧
    m.root.count = 1 ∧ m'.root.count = 2 ∧ m'.arrays m'.root.bucketStart = some new ∧ new.length = 2 ∧
    ∀ set ∈ new, (m'.pairsFrom set.first).length = k ∧ m'.listLength set = .ofNat 32 k := by
  obtain ⟨fuel, m, done, between, kept⟩ := Between.run (Nat.le_refl 1) 0 ((copiesAndAll n).map fun op => (0, .operation op))
  obtain ⟨alone, bucket⟩ := Table.calls_alone (T := intTemplate 1) (t := .init (intTemplate 1)) rfl 0 (copiesAndAll n)
  obtain ⟨length, found⟩ := length_copiesAndAll every
  obtain ⟨results, ran⟩ : ∃ results, calls _ _ fuel _ _ = .ok (m, results) := ⟨_, done⟩
  clear done
  revert between kept alone bucket
  generalize ((Table.init (intTemplate 1)).calls (intTemplate 1) 0 ((copiesAndAll n).map fun op => (0, .operation op))).1 = t
  intro between kept alone bucket
  change (t.buckets 0) = Bundles.empty.applyAll (intTemplate 1) (copiesAndAll n) at bucket
  rw [← bucket] at length found
  have full := Table.full_of_wrapped kept alone every length
  have halves : ∀ i < 2, ((t.rehashed (intTemplate 1)).buckets i).pairs.length = k :=
    fun i bit => Table.length_halves alone found (half.trans every) bit
  obtain ⟨fuel', m', resized, between', _⟩ := between.tryRehash 0 kept.small
  rw [Table.tryRehash, if_pos full] at between'
  obtain ⟨_, _, _, count⟩ := between.root_sets
  obtain ⟨new, stored, two, count'⟩ := between'.root_sets
  rw [Table.count_rehashed, alone] at two count'
  refine ⟨fuel, m, results, fuel', m', new, ran, ?_, count.trans alone, count', stored, two, fun set member => ?_⟩
  · exact perform_host resized
  · obtain ⟨i, slot⟩ := List.mem_iff_getElem?.mp member
    have at_ : m'.bucketAt m'.root.bucketStart i = some set := m'.bucketAt_eq_some.mpr ⟨new, stored, slot⟩
    have bit : i < 2 := Nat.lt_of_lt_of_eq (List.getElem?_eq_some_iff.mp slot).1 two
    rw [between'.pairsFrom_eq at_, (between'.contents at_).2, (kept.rehashed.bucket i).total, halves i bit]
    exact ⟨rfl, rfl⟩

/-- All `int` keys are in one bucket, whose 2^32 + 10 pairs count as 10, and the resize puts half of the keys
into each new bucket: 2^31 pairs, which an `int` cannot count. -/
theorem tryRehash_not_counted : ∃ fuel m results fuel' m' new,
    calls (intTemplate 1) (initial (intTemplate 1) 0).root fuel (initial (intTemplate 1) 0).mem
      ((copiesAndAll (2 ^ 32)).map fun op => (0, .operation op)) = .ok (m, results) ∧
    perform (intTemplate 1) (initial (intTemplate 1) 0).root fuel' m 0 .tryRehash = .ok (m', none) ∧
    m.root.count = 1 ∧ m'.root.count = 2 ∧ m'.arrays m'.root.bucketStart = some new ∧ new.length = 2 ∧
    ∀ set ∈ new, (m'.pairsFrom set.first).length = 2 ^ 31 ∧ (m'.listLength set).toInt = -2 ^ 31 := by
  obtain ⟨fuel, m, results, fuel', m', new, done, resized, count, count', stored, two, counted⟩ :=
    resize_copiesAndAll (n := 2 ^ 32) (k := 2 ^ 31) rfl (by decide)
  refine ⟨fuel, m, results, fuel', m', new, done, resized, count, count', stored, two, fun set member => ?_⟩
  obtain ⟨length, total⟩ := counted set member
  refine ⟨length, ?_⟩
  rw [total]
  decide

end IntKeys

end RdmaIht.Hashtable
