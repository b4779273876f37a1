import RdmaIht.Hashtable.SoloResize

/-! Calls made in turn are the calls of the table.

Each call that runs alone ends and does to the memory what it does to the table,
as long as the number of buckets of a resized table stays within `int`.
-/

set_option autoImplicit false

namespace RdmaIht.Hashtable

variable {K V : Type} [DecidableEq K]

namespace Table

variable (T : Template K V)

def perform (isHost : Bool) (t : Table K V) : Call K V → Table K V × Option (HtRes V)
  | .operation op => ((t.apply T op).1, some (t.apply T op).2)
  | .tryRehash => (if isHost then t.tryRehash T else t, none)

def calls (host : Nat) (t : Table K V) : List (Nat × Call K V) → Table K V × List (HtRes V)
  | [] => (t, [])
  | (pool, call) :: rest =>
    let after := t.perform T (host == pool) call
    ((after.1.calls host rest).1, after.2.toList ++ (after.1.calls host rest).2)

def init : Table K V := ⟨T.initialSize, fun _ => .empty, []⟩

theorem calls_invariant {P : Table K V → Prop} {host : Nat} (keep : ∀ t isHost call, P t → P (t.perform T isHost call).1)
    {t : Table K V} (start : P t) (cs : List (Nat × Call K V)) : P (t.calls T host cs).1 := by
  induction cs generalizing t with
  | nil => exact start
  | cons call rest ih =>
    obtain ⟨pool, call⟩ := call
    exact ih (keep _ _ _ start)

omit [DecidableEq K] in
theorem pending_tryRehash [DecidableEq K] (t : Table K V) (settled : t.pending = []) : (t.tryRehash T).pending = [] := by
  unfold tryRehash
  split
  · rfl
  · exact settled

end Table

variable {T : Template K V} {root : RemotePtr} {m m' : Mem K V} {op : IhtOp K V}

/-! ## More fuel -/

theorem finish_mono {pool fuel more : Nat} {pc : Pc K V} (longer : fuel ≤ more) {res : HtRes V}
    (done : finish T pool op fuel m pc = .ok (m', res)) : finish T pool op more m pc = .ok (m', res) := by
  induction fuel generalizing more m pc with
  | zero => cases done
  | succ fuel ih =>
    obtain ⟨more, rfl⟩ : ∃ k, more = k + 1 := ⟨more - 1, by omega⟩
    simp only [finish] at done ⊢
    split at done
    · cases done
    · exact ih (by omega) done
    · exact done

theorem finishRehash_mono {pool fuel more : Nat} {pc : RehashPc K V} (longer : fuel ≤ more)
    (done : finishRehash T pool fuel m pc = .ok m') : finishRehash T pool more m pc = .ok m' := by
  induction fuel generalizing more m pc with
  | zero => cases done
  | succ fuel ih =>
    obtain ⟨more, rfl⟩ : ∃ k, more = k + 1 := ⟨more - 1, by omega⟩
    simp only [finishRehash] at done ⊢
    split at done
    · cases done
    · exact ih (by omega) done
    · exact done

theorem perform_mono {pool fuel more : Nat} (longer : fuel ≤ more) {call : Call K V} {res : Option (HtRes V)}
    (done : perform T root fuel m pool call = .ok (m', res)) : perform T root more m pool call = .ok (m', res) := by
  cases call with
  | operation op =>
    obtain ⟨⟨m₁, res₁⟩, first, last⟩ := bind_eq_ok.mp done
    exact bind_eq_ok.mpr ⟨_, finish_mono longer first, last⟩
  | tryRehash =>
    unfold perform at done ⊢
    by_cases host : root.isLocal pool = true
    · rw [if_pos host] at done ⊢
      obtain ⟨m₁, first, last⟩ := bind_eq_ok.mp done
      exact bind_eq_ok.mpr ⟨_, finishRehash_mono longer first, last⟩
    · rw [if_neg host] at done ⊢
      exact done

theorem calls_mono {fuel more : Nat} (longer : fuel ≤ more) {cs : List (Nat × Call K V)} {results : List (HtRes V)}
    (done : calls T root fuel m cs = .ok (m', results)) : calls T root more m cs = .ok (m', results) := by
  induction cs generalizing m results with
  | nil => exact done
  | cons call rest ih =>
    obtain ⟨pool, call⟩ := call
    obtain ⟨⟨m₁, res⟩, first, others⟩ := bind_eq_ok.mp done
    obtain ⟨⟨m₂, later⟩, tail, last⟩ := bind_eq_ok.mp others
    cases last
    exact bind_eq_ok.mpr ⟨_, perform_mono longer first, bind_eq_ok.mpr ⟨_, ih tail, rfl⟩⟩

/-- Enough fuel gives one result. -/
theorem calls_functional {fuel fuel' : Nat} {cs : List (Nat × Call K V)} {m₁ m₂ : Mem K V} {results results' : List (HtRes V)}
    (first : calls T root fuel m cs = .ok (m₁, results)) (second : calls T root fuel' m cs = .ok (m₂, results')) :
    m₁ = m₂ ∧ results = results' := by
  have first := calls_mono (Nat.le_max_left fuel fuel') first
  have second := calls_mono (Nat.le_max_right fuel fuel') second
  rw [first] at second
  cases second
  exact ⟨rfl, rfl⟩

/-! ## The calls of the machine -/

/-- No call runs, and the memory holds the table. -/
def Between (T : Template K V) (root : RemotePtr) (t : Table K V) (m : Mem K V) : Prop :=
  t.pending = [] ∧ ∃ home answer, Inv T t home answer (solo root m .idle)

namespace Between

variable {t : Table K V}

theorem start (T : Template K V) (positive : 1 ≤ T.initialSize) (host : Nat) :
    Between T (initial T host).root (.init T) (initial T host).mem := by
  obtain ⟨home, inv⟩ := Inv.start T positive host
  refine ⟨rfl, home, fun _ => ⟨.falseState, T.zero⟩, ⟨inv.ground, fun _ => ?_, ?_, ?_, ?_, fun _ => rfl⟩⟩
  · simp only [solo, Function.update_apply, ite_self]
    trivial
  · intro c c' p holds
    simp only [solo, Function.update_apply, ite_self] at holds
    exact absurd holds not_holds_idle
  · intro a i set at_ locked
    obtain ⟨c, holds⟩ := inv.holder at_ locked
    exact absurd holds not_holds_idle
  · intro c c' pc pc' resizes
    simp only [solo, Function.update_apply, ite_self] at resizes
    cases resizes

theorem bucket (between : Between T root t m) {i : Nat} (inside : i < t.count) : ∃ set mine,
    m.bucketAt m.root.bucketStart i = some set ∧ m.locks set.lock = some .unlocked ∧ set.first ≠ .null ∧
      m.Represents mine set.first (t.buckets i) := by
  obtain ⟨_, home, answer, inv⟩ := between
  have ground : Ground t home m := inv.ground
  obtain ⟨sets, stored, length, _⟩ := ground.shape.root
  rw [ground.count, ← length] at inside
  have at_ : m.bucketAt m.root.bucketStart i = some sets[i] :=
    m.bucketAt_eq_some.mpr ⟨sets, stored, List.getElem?_eq_getElem inside⟩
  have open_ := inv.unlocked at_ not_holds_idle
  exact ⟨sets[i], _, at_, open_, (ground.shape.first at_).2.2, ground.opened at_ open_⟩

theorem operation (between : Between T root t m) (pool : Nat) (op : IhtOp K V) :
    ∃ fuel m', finish T pool op fuel m .readRoot = .ok (m', (t.apply T op).2) ∧ Between T root (t.apply T op).1 m' := by
  obtain ⟨settled, home, answer, inv⟩ := between
  obtain ⟨fuel, m', home', answer', done, after⟩ := inv.operation pool op
  exact ⟨fuel, m', done, settled, home', answer', after⟩

theorem tryRehash (between : Between T root t m) (pool : Nat) (small : t.Full → t.count * 2 < 2 ^ 31) :
    ∃ fuel m', finishRehash T pool fuel m .readRoot = .ok m' ∧ Between T root (t.tryRehash T) m' ∧
      (¬ t.Full → m' = m) ∧ (t.Full → ∀ i set, m.bucketAt m.root.bucketStart i = some set → m'.locks set.lock = some .deleted) := by
  obtain ⟨settled, home, answer, inv⟩ := between
  obtain ⟨sets, stored, _⟩ := inv.ground.shape.root
  have found : m.arrays m.root.bucketStart = some sets := stored
  have began := inv.begin_ (.resizing .readRoot) ⟨by simp [RehashPc.frozen], settled⟩ fun p holds => by
    rw [holds_resizing rfl] at holds
    simp [RehashPc.frozen] at holds
  obtain ⟨fuel, t', m', home', answer', done, after, ended⟩ := began.finishRehash pool small
    (show Resizing T t m sets t m .readRoot from ⟨rfl, rfl, found⟩)
  rcases ended with ⟨few, rfl, rfl⟩ | ⟨full, rfl, melted⟩
  · refine ⟨fuel, m', done, ?_, fun _ => rfl, fun full => absurd full few⟩
    rw [Table.tryRehash, if_neg few]
    exact ⟨settled, home', answer', after⟩
  · refine ⟨fuel, m', done, ?_, fun few => absurd full few, fun _ i set at_ => ?_⟩
    · rw [Table.tryRehash, if_pos full]
      exact ⟨rfl, home', answer', after⟩
    · obtain ⟨sets', stored', slot⟩ := m.bucketAt_eq_some.mp at_
      rw [found] at stored'
      cases stored'
      exact melted set (List.mem_of_getElem? slot)

theorem perform (between : Between T root t m) (pool : Nat) (call : Call K V) (small : t.Full → t.count * 2 < 2 ^ 31) :
    ∃ fuel m', Hashtable.perform T root fuel m pool call = .ok (m', (t.perform T (root.isLocal pool) call).2) ∧
      Between T root (t.perform T (root.isLocal pool) call).1 m' := by
  cases call with
  | operation op =>
    obtain ⟨fuel, m', done, after⟩ := between.operation pool op
    exact ⟨fuel, m', bind_eq_ok.mpr ⟨_, done, rfl⟩, after⟩
  | tryRehash =>
    simp only [Hashtable.perform, Table.perform]
    split
    · obtain ⟨fuel, m', done, after, _⟩ := between.tryRehash pool small
      exact ⟨fuel, m', bind_eq_ok.mpr ⟨_, done, rfl⟩, after⟩
    · exact ⟨0, m, rfl, between⟩

/-- Calls made in turn end, return what the table returns, and leave the memory as the table. -/
theorem calls {P : Table K V → Prop} (keep : ∀ t isHost call, P t → P (t.perform T isHost call).1)
    (small : ∀ t, P t → t.Full → t.count * 2 < 2 ^ 31) (between : Between T root t m) (start : P t)
    (cs : List (Nat × Call K V)) : ∃ fuel m', Hashtable.calls T root fuel m cs = .ok (m', (t.calls T root.id cs).2) ∧
      Between T root (t.calls T root.id cs).1 m' := by
  induction cs generalizing t m with
  | nil => exact ⟨0, m, rfl, between⟩
  | cons call rest ih =>
    obtain ⟨pool, call⟩ := call
    obtain ⟨fuel, m₁, first, between₁⟩ := between.perform pool call (small t start)
    obtain ⟨fuel', m₂, others, between₂⟩ := ih between₁ (keep _ _ _ start)
    refine ⟨max fuel fuel', m₂, bind_eq_ok.mpr ⟨_, perform_mono (Nat.le_max_left _ _) first, bind_eq_ok.mpr
      ⟨_, calls_mono (Nat.le_max_right _ _) others, rfl⟩⟩, between₂⟩

end Between

end RdmaIht.Hashtable
