import RdmaIht.Hashtable.Lookups

/-! When calls made in turn are the operations of a finite map, and calls that are not.

A remove leaves room in a node, and an insert stops at the first node with room. It
does not meet a key behind that node and stores it a second time. As long as no
insert is about such a key, the table is a finite map.
-/

set_option autoImplicit false

namespace RdmaIht.Hashtable

variable {K V : Type} [DecidableEq K] {T : Template K V}

/-! ## The table -/

namespace Table

/-- Every operation meets its key, on the table that the calls before it leave. -/
def Sees (T : Template K V) (host : Nat) (t : Table K V) : List (Nat × Call K V) → Prop
  | [] => True
  | (pool, call) :: rest => (∀ op ∈ call.op?, t.Clear T op) ∧ (t.perform T (host == pool) call).1.Sees T host rest

instance decidableSees (T : Template K V) (host : Nat) : (t : Table K V) → (cs : List (Nat × Call K V)) →
    Decidable (t.Sees T host cs)
  | _, [] => isTrue trivial
  | t, (pool, call) :: rest =>
    have := decidableSees T host (t.perform T (host == pool) call).1 rest
    inferInstanceAs (Decidable ((∀ op ∈ call.op?, t.Clear T op) ∧ _))

variable {t : Table K V} {σ : FiniteMap K V} {host : Nat}

theorem sees_iff (cs : List (Nat × Call K V)) : t.Sees T host cs ↔
    ∀ before pool op after, cs = before ++ (pool, .operation op) :: after → (t.calls T host before).1.Clear T op := by
  induction cs generalizing t with
  | nil => simp [Sees]
  | cons call rest ih =>
    obtain ⟨pool, call⟩ := call
    rw [Sees, ih]
    constructor
    · rintro ⟨first, later⟩ before pool' op after split
      cases before with
      | nil =>
        cases split
        exact first op rfl
      | cons call' before =>
        cases split
        exact later before pool' op after rfl
    · intro all
      refine ⟨fun op isOp => ?_, fun before pool' op after split => ?_⟩
      · cases call with
        | operation op' =>
          cases isOp
          exact all [] pool op rest rfl
        | tryRehash => cases isOp
      · exact all ((pool, call) :: before) pool' op after (by rw [split]; rfl)

theorem Sees.prefix_ {before after : List (Nat × Call K V)} (sees : t.Sees T host (before ++ after)) :
    t.Sees T host before := by
  rw [sees_iff] at sees ⊢
  intro before' pool op after' split
  exact sees before' pool op (after' ++ after) (by rw [split, List.append_assoc]; rfl)

theorem Holds.tryRehash (holds : t.Holds T σ) (settled : t.pending = []) : (t.tryRehash T).Holds T σ := by
  have added : ∀ (rest : List (Pair K V)) (t' : Table K V), Adding T t t' → t'.Holds T σ → t'.pending = rest →
      (t.rehashed T).Holds T σ := by
    intro rest
    induction rest with
    | nil =>
      intro t' adding holds done
      rw [← adding.done done]
      exact holds
    | cons pair rest ih => exact fun t' adding holds first => ih _ (adding.readd first) (holds.readd first) rfl
  unfold Table.tryRehash
  split
  · exact added t.all t.doubled ⟨[], rfl, rfl⟩ (holds.doubled settled) rfl
  · exact holds

theorem Holds.not_clear (holds : t.Holds T σ) (settled : t.pending = []) {op : IhtOp K V} (unclear : ¬ t.Clear T op) :
    (t.apply T op).2 ≠ (σ.apply T.zero op).2 := by
  have hidden : op.isInsert = true ∧ Bundles.Hidden (t.buckets (T.keyhash op.key t.count)).nodes op.key := by
    by_contra none
    refine unclear ⟨by simp [settled], fun isInsert hidden => none ⟨isInsert, hidden⟩⟩
  cases op with
  | contains | remove => cases hidden.1
  | insert key value =>
    have rep := holds.bucket _ (T.keyhash_lt key holds.pos)
    obtain ⟨pair, behind, rfl⟩ := hidden.2
    have member : pair ∈ (t.buckets (T.keyhash pair.key t.count)).pairs := by
      obtain ⟨nodes, inNodes, inside⟩ := List.mem_flatten.mp behind
      exact List.mem_flatten_of_mem (List.dropWhile_subset _ (List.mem_of_mem_tail inNodes)) inside
    have taken : (t.apply T (.insert pair.key value)).2 = ⟨.trueState, T.zero⟩ :=
      Bundles.apply_hidden rep.distinct hidden.2
    rw [taken]
    simp [FiniteMap.apply, rep.lookup_eq member]

theorem Holds.perform (holds : t.Holds T σ) (settled : t.pending = []) (isHost : Bool) {call : Call K V}
    (clear : ∀ op ∈ call.op?, t.Clear T op) :
    (t.perform T isHost call).1.Holds T (call.op?.elim σ fun op => (σ.apply T.zero op).1) ∧
      (t.perform T isHost call).1.pending = [] := by
  cases call with
  | operation op => exact ⟨(holds.apply (clear op rfl)).1, settled⟩
  | tryRehash =>
    simp only [Table.perform]
    split
    · exact ⟨holds.tryRehash settled, t.pending_tryRehash T settled⟩
    · exact ⟨holds, settled⟩

/-- The calls return what the map returns if and only if every operation meets its key. -/
theorem Holds.results_iff (holds : t.Holds T σ) (settled : t.pending = []) (cs : List (Nat × Call K V)) :
    (t.calls T host cs).2 = (mapSpec K T.zero).results σ (cs.filterMap (·.2.op?)) ↔ t.Sees T host cs := by
  induction cs generalizing t σ with
  | nil => simp [Table.calls, Sees, Concurrency.SeqSpec.results]
  | cons call rest ih =>
    obtain ⟨pool, call⟩ := call
    rw [Sees]
    by_cases clear : ∀ op ∈ call.op?, t.Clear T op
    · obtain ⟨after, settled'⟩ := holds.perform settled (host == pool) clear
      rw [and_iff_right clear, ← ih after settled']
      cases call with
      | operation op =>
        have agrees : (t.apply T op).2 = (σ.apply T.zero op).2 := (holds.apply (clear op rfl)).2
        simp [Table.calls, Table.perform, Concurrency.SeqSpec.results, Call.op?, mapSpec, agrees]
      | tryRehash => simp [Table.calls, Table.perform, Call.op?]
    · refine iff_of_false ?_ fun sees => clear sees.1
      cases call with
      | operation op =>
        have unclear : ¬ t.Clear T op := fun only => clear fun op' same => by cases same; exact only
        have differs := holds.not_clear settled unclear
        intro same
        simp only [Table.calls, Table.perform, Call.op?, List.filterMap_cons, Concurrency.SeqSpec.results,
          Option.toList_some, List.singleton_append, List.cons.injEq] at same
        exact differs same.1
      | tryRehash => exact absurd (fun op none => by cases none) clear

theorem Holds.calls (holds : t.Holds T σ) (settled : t.pending = []) {cs : List (Nat × Call K V)}
    (sees : t.Sees T host cs) : ∃ τ, (t.calls T host cs).1.Holds T τ := by
  induction cs generalizing t σ with
  | nil => exact ⟨σ, holds⟩
  | cons call rest ih =>
    obtain ⟨pool, call⟩ := call
    obtain ⟨after, settled'⟩ := holds.perform settled (host == pool) sees.1
    exact ih after settled' sees.2

end Table

/-! ## The machine -/

/-- Every insert meets its key if its bucket has it, on the memory that the calls before it leave. -/
def InsertsMeet (T : Template K V) (root : RemotePtr) (m₀ : Mem K V) (cs : List (Nat × Call K V)) : Prop :=
  ∀ before pool key value after fuel m results set, cs = before ++ (pool, .operation (.insert key value)) :: after →
    calls T root fuel m₀ before = .ok (m, results) →
    m.bucketAt m.root.bucketStart (T.keyhash key m.root.count) = some set →
    ¬ Bundles.Hidden ((m.chain m.next set.first).map (·.pairs)) key

/-- The calls return what a finite map returns, and no bucket ever has a key twice. -/
structure RefinesMap (T : Template K V) (root : RemotePtr) (m₀ : Mem K V) (cs : List (Nat × Call K V))
    (results : List (HtRes V)) : Prop where
  results : results = (mapSpec K T.zero).results .empty (cs.filterMap (·.2.op?))
  distinct : ∀ before after fuel m returned i set, cs = before ++ after → calls T root fuel m₀ before = .ok (m, returned) →
    m.bucketAt m.root.bucketStart i = some set → ((m.pairsFrom set.first).map Pair.key).Nodup

section IntKeys

variable {initialSize : Nat}

theorem insertsMeet_iff (positive : 1 ≤ initialSize) (host : Nat) (cs : List (Nat × Call (BitVec 32) (BitVec 32))) :
    InsertsMeet (intTemplate initialSize) (initial (intTemplate initialSize) host).root
        (initial (intTemplate initialSize) host).mem cs ↔
      (Table.init (intTemplate initialSize)).Sees (intTemplate initialSize) host cs := by
  rw [Table.sees_iff]
  constructor
  · intro meets before pool op after split
    obtain ⟨fuel, m, done, between, kept⟩ := Between.run positive host before
    refine ⟨by simp [between.1], fun isInsert => ?_⟩
    cases op with
    | contains | remove => cases isInsert
    | insert key value =>
      obtain ⟨set, mine, at_, _⟩ := between.bucket ((intTemplate initialSize).keyhash_lt key kept.pos)
      obtain ⟨_, _, _, count⟩ := between.root_sets
      have seen := meets before pool key value after fuel m _ set split done (by rw [count]; exact at_)
      rw [(between.contents at_).1] at seen
      exact seen
  · intro sees before pool key value after fuel m results set split done at_
    obtain ⟨between, _, _⟩ := Between.reached positive done
    obtain ⟨_, _, _, count⟩ := between.root_sets
    rw [count] at at_
    rw [(between.contents at_).1]
    exact (sees before pool (.insert key value) after split).2 rfl

/-- The calls return, and they are the operations of a finite map exactly if every insert meets its key. -/
theorem calls_refine_map_iff (positive : 1 ≤ initialSize) (host : Nat) (cs : List (Nat × Call (BitVec 32) (BitVec 32))) :
    ∃ fuel m results, calls (intTemplate initialSize) (initial (intTemplate initialSize) host).root fuel
        (initial (intTemplate initialSize) host).mem cs = .ok (m, results) ∧
      (RefinesMap (intTemplate initialSize) (initial (intTemplate initialSize) host).root
          (initial (intTemplate initialSize) host).mem cs results ↔
        InsertsMeet (intTemplate initialSize) (initial (intTemplate initialSize) host).root
          (initial (intTemplate initialSize) host).mem cs) := by
  have holds : (Table.init (intTemplate initialSize)).Holds (intTemplate initialSize) .empty := .start positive
  obtain ⟨fuel, m, done, _⟩ := Between.run positive host cs
  refine ⟨fuel, m, _, done, ?_⟩
  rw [insertsMeet_iff positive]
  constructor
  · intro refines
    exact (holds.results_iff rfl cs).mp refines.results
  · intro sees
    refine ⟨(holds.results_iff rfl cs).mpr sees, ?_⟩
    intro before after fuel' m' returned i set split done' at_
    rw [split] at sees
    obtain ⟨between, _, _⟩ := Between.reached positive done'
    obtain ⟨τ, holds'⟩ := holds.calls rfl sees.prefix_
    rw [between.pairsFrom_eq at_]
    obtain ⟨sets, stored, slot⟩ := m'.bucketAt_eq_some.mp at_
    obtain ⟨sets', stored', length, _⟩ := between.root_sets
    cases stored.symm.trans stored'
    refine (holds'.bucket i ?_).distinct
    rw [← length]
    exact (List.getElem?_eq_some_iff.mp slot).1

/-- Twelve keys in one bucket, one of them removed and inserted again, and a resize. -/
def refilled : List (Nat × Call (BitVec 32) (BitVec 32)) :=
  (List.range 12).map (fun k => (k, .operation (.insert (.ofNat 32 k) (.ofNat 32 (k + 20))))) ++
    [(1, .operation (.remove 3)), (2, .operation (.insert 3 50)), (0, .tryRehash), (1, .operation (.contains 3))]

theorem calls_refine_map_iff_refilled : ∃ fuel m results,
    calls (intTemplate 1) (initial (intTemplate 1) 0).root fuel (initial (intTemplate 1) 0).mem refilled =
      .ok (m, results) ∧
    RefinesMap (intTemplate 1) (initial (intTemplate 1) 0).root (initial (intTemplate 1) 0).mem refilled results := by
  obtain ⟨fuel, m, results, done, iff⟩ := calls_refine_map_iff (Nat.le_refl 1) 0 refilled
  exact ⟨fuel, m, results, done, iff.mpr ((insertsMeet_iff (Nat.le_refl 1) 0 refilled).mpr (by decide +kernel))⟩

/-- Eight keys in one bucket. The first one is removed, and the last one, which is in the second node, inserted again. -/
def behindRoom : List (Nat × Call (BitVec 32) (BitVec 32)) :=
  (List.range 8).map (fun k => (0, .operation (.insert (.ofNat 32 k) (.ofNat 32 (k + 20))))) ++
    [(0, .operation (.remove 0)), (0, .operation (.insert 7 99))]

theorem not_refinesMap_behindRoom : ¬ ∀ fuel m results,
    calls (intTemplate 1) (initial (intTemplate 1) 0).root fuel (initial (intTemplate 1) 0).mem behindRoom =
      .ok (m, results) →
    RefinesMap (intTemplate 1) (initial (intTemplate 1) 0).root (initial (intTemplate 1) 0).mem behindRoom results := by
  intro claimed
  have ran : ((calls (intTemplate 1) (initial (intTemplate 1) 0).root 20 (initial (intTemplate 1) 0).mem
      behindRoom).toOption.map fun done => done.2.getLast?) = some (some ⟨.trueState, 0⟩) := by decide +kernel
  cases done : calls (intTemplate 1) (initial (intTemplate 1) 0).root 20 (initial (intTemplate 1) 0).mem behindRoom with
  | error fault =>
    rw [done] at ran
    cases ran
  | ok returned =>
    obtain ⟨m, results⟩ := returned
    rw [done] at ran
    have mapped := (claimed 20 m results done).results
    -- the map answers the last insert with the value of the first insert of the key
    have answer : ((mapSpec (BitVec 32) (0 : BitVec 32)).results .empty (behindRoom.filterMap (·.2.op?))).getLast? =
        some ⟨.falseState, 27⟩ := by decide +kernel
    rw [show results = _ from mapped] at ran
    simp only [Except.toOption, Option.map_some, Option.some.injEq] at ran
    rw [show (intTemplate 1).zero = 0 from rfl, answer] at ran
    cases ran

end IntKeys

end RdmaIht.Hashtable
