import Mathlib.Data.List.Basic
import Mathlib.Data.List.Nodup

/-! Linearizability of finite histories, and rules for growing a linearization.

A history is the sequence of invocation and response events of operations with
unique identifiers. A linearization is a sequential order of operations, legal
for the specification, that contains every completed operation with its result
and keeps the order of any two operations that do not overlap. The rules below
extend a linearization along one more event of the history, so that a
simulation can carry one through a run.
-/

set_option autoImplicit false

namespace Concurrency

variable {σ ι Op Ret : Type}

/-- A deterministic sequential object. -/
structure SeqSpec (σ Op Ret : Type) where
  init : σ
  apply : σ → Op → σ × Ret

inductive Event (ι Op Ret : Type) where
  | inv : ι → Op → Event ι Op Ret
  | res : ι → Ret → Event ι Op Ret
  deriving DecidableEq, Repr

structure Entry (ι Op Ret : Type) where
  id : ι
  op : Op
  ret : Ret
  deriving DecidableEq, Repr

def SeqSpec.Legal (spec : SeqSpec σ Op Ret) : σ → List (Entry ι Op Ret) → Prop
  | _, [] => True
  | s, entry :: rest =>
    (spec.apply s entry.op).2 = entry.ret ∧ spec.Legal (spec.apply s entry.op).1 rest

def SeqSpec.final (spec : SeqSpec σ Op Ret) (s : σ) (order : List (Entry ι Op Ret)) : σ :=
  order.foldl (fun s entry => (spec.apply s entry.op).1) s

def SeqSpec.results (spec : SeqSpec σ Op Ret) : σ → List Op → List Ret
  | _, [] => []
  | s, op :: rest => (spec.apply s op).2 :: spec.results (spec.apply s op).1 rest

theorem SeqSpec.final_append (spec : SeqSpec σ Op Ret) (s : σ) (first rest : List (Entry ι Op Ret)) :
    spec.final s (first ++ rest) = spec.final (spec.final s first) rest := by
  simp [SeqSpec.final]

theorem SeqSpec.legal_append (spec : SeqSpec σ Op Ret) (s : σ) (first rest : List (Entry ι Op Ret)) :
    spec.Legal s (first ++ rest) ↔ spec.Legal s first ∧ spec.Legal (spec.final s first) rest := by
  induction first generalizing s with
  | nil => simp [SeqSpec.Legal, SeqSpec.final]
  | cons entry first ih =>
    simp only [List.cons_append, SeqSpec.Legal, ih, and_assoc]
    rfl

def Precedes (history : List (Event ι Op Ret)) (i j : ι) : Prop :=
  ∃ ret op, [Event.res i ret, Event.inv j op].Sublist history

def Invoked (history : List (Event ι Op Ret)) (i : ι) : Prop := ∃ op, Event.inv i op ∈ history

def Responded (history : List (Event ι Op Ret)) (i : ι) : Prop := ∃ ret, Event.res i ret ∈ history

structure Linearization (spec : SeqSpec σ Op Ret) (history : List (Event ι Op Ret))
    (order : List (Entry ι Op Ret)) : Prop where
  legal : spec.Legal spec.init order
  nodup : (order.map (·.id)).Nodup
  invoked : ∀ entry ∈ order, Event.inv entry.id entry.op ∈ history
  completed : ∀ i ret, Event.res i ret ∈ history → ∃ entry ∈ order, entry.id = i ∧ entry.ret = ret
  realTime : ∀ first ∈ order, ∀ second ∈ order, Precedes history first.id second.id →
    [first, second].Sublist order

/-- Some sequential order of the operations explains every result of the history. -/
def Linearizable (spec : SeqSpec σ Op Ret) (history : List (Event ι Op Ret)) : Prop :=
  ∃ order, Linearization spec history order

theorem Precedes.responded {history : List (Event ι Op Ret)} {i j : ι} (before : Precedes history i j) :
    Responded history i := by
  obtain ⟨ret, op, sub⟩ := before
  exact ⟨ret, sub.subset (by simp)⟩

theorem sublist_pair_concat {A : Type} {a b c : A} {l : List A} :
    [a, b].Sublist (l ++ [c]) ↔ [a, b].Sublist l ∨ (a ∈ l ∧ b = c) := by
  rw [List.sublist_append_iff]
  constructor
  · rintro ⟨first, rest, split, inFirst, inRest⟩
    match first, split with
    | [], split =>
      have short := inRest.length_le
      rw [List.nil_append] at split
      simp [← split] at short
    | [x], split =>
      obtain ⟨rfl, rfl⟩ : a = x ∧ [b] = rest := by simpa using split
      right
      exact ⟨List.singleton_sublist.mp inFirst, by simpa using List.singleton_sublist.mp inRest⟩
    | [x, y], split =>
      obtain ⟨rfl, rfl, _⟩ : a = x ∧ b = y ∧ [] = rest := by simpa using split
      exact .inl inFirst
    | _ :: _ :: _ :: _, split => simp at split
  · rintro (sub | ⟨member, rfl⟩)
    · exact ⟨[a, b], [], by simp, sub, by simp⟩
    · exact ⟨[a], [b], by simp, by simpa using member, by simp⟩

/-- A new event creates a precedence only by invoking the later operation. -/
theorem Precedes.of_concat {history : List (Event ι Op Ret)} {event : Event ι Op Ret} {i j : ι}
    (before : Precedes (history ++ [event]) i j) (other : ∀ op, event ≠ .inv j op) :
    Precedes history i j := by
  obtain ⟨ret, op, sub⟩ := before
  rcases sublist_pair_concat.mp sub with old | ⟨_, last⟩
  · exact ⟨ret, op, old⟩
  · exact absurd last.symm (other op)

/-- The abstract state `s` held at some point since `i` was invoked: it is the
state after a prefix of the order that contains every operation done before `i`. -/
def Seen (spec : SeqSpec σ Op Ret) (history : List (Event ι Op Ret)) (order : List (Entry ι Op Ret))
    (i : ι) (s : σ) : Prop :=
  ∃ k ≤ order.length, (∀ entry ∈ order, Precedes history entry.id i → entry ∈ order.take k) ∧
    spec.final spec.init (order.take k) = s

theorem Seen.now (spec : SeqSpec σ Op Ret) (history : List (Event ι Op Ret))
    (order : List (Entry ι Op Ret)) (i : ι) :
    Seen spec history order i (spec.final spec.init order) :=
  ⟨order.length, (Nat.le_refl _), fun _ member _ => by simpa using member, by simp⟩

theorem Seen.concat {spec : SeqSpec σ Op Ret} {history : List (Event ι Op Ret)}
    {order : List (Entry ι Op Ret)} {i : ι} {s : σ} {event : Event ι Op Ret}
    (seen : Seen spec history order i s) (other : ∀ op, event ≠ .inv i op) :
    Seen spec (history ++ [event]) order i s := by
  obtain ⟨k, bound, covers, state⟩ := seen
  exact ⟨k, bound, fun entry member before => covers entry member (before.of_concat other), state⟩

section Insert

variable {spec : SeqSpec σ Op Ret} {history : List (Event ι Op Ret)} {order : List (Entry ι Op Ret)}

theorem mem_insertAt {A : Type} {l : List A} {k : Nat} {x y : A} :
    y ∈ l.take k ++ x :: l.drop k ↔ y = x ∨ y ∈ l := by
  rw [List.mem_append, List.mem_cons, or_left_comm, ← List.mem_append, List.take_append_drop]

theorem sublist_insertAt {A : Type} (l : List A) (k : Nat) (x : A) :
    l.Sublist (l.take k ++ x :: l.drop k) := by
  conv_lhs => rw [← List.take_append_drop k l]
  exact (List.Sublist.refl _).append (List.sublist_cons_self _ _)

/-- Place an operation right after the first `k`; it must not have returned yet
and must leave the state as it finds it, unless it goes to the very end. -/
theorem Linearization.insertAt (lin : Linearization spec history order) (k : Nat) (entry : Entry ι Op Ret)
    (started : Event.inv entry.id entry.op ∈ history) (absent : entry.id ∉ order.map (·.id))
    (covers : ∀ other ∈ order, Precedes history other.id entry.id → other ∈ order.take k)
    (result : spec.apply (spec.final spec.init (order.take k)) entry.op =
      (spec.final spec.init (order.take k), entry.ret) ∨
      (order.length ≤ k ∧ (spec.apply (spec.final spec.init order) entry.op).2 = entry.ret)) :
    Linearization spec history (order.take k ++ entry :: order.drop k) := by
  have pending : ¬ Responded history entry.id := by
    rintro ⟨ret, responded⟩
    obtain ⟨other, member, same, _⟩ := lin.completed _ _ responded
    exact absent (same ▸ List.mem_map_of_mem member)
  refine ⟨?_, ?_, ?_, ?_, ?_⟩
  · have parts := (spec.legal_append spec.init (order.take k) (order.drop k)).mp
      (by rw [List.take_append_drop]; exact lin.legal)
    rw [spec.legal_append]
    -- in the middle the entry must not change the state, at the end it may
    rcases result with same | ⟨bound, last⟩
    · exact ⟨parts.1, by rw [same], by rw [same]; exact parts.2⟩
    · rw [List.take_of_length_le bound, List.drop_of_length_le bound]
      exact ⟨lin.legal, last, trivial⟩
  · have perm : (order.take k ++ entry :: order.drop k).Perm (entry :: order) := by
      have middle : (order.take k ++ entry :: order.drop k).Perm (entry :: (order.take k ++ order.drop k)) :=
        List.perm_middle
      rwa [List.take_append_drop] at middle
    rw [(perm.map (·.id)).nodup_iff, List.map_cons, List.nodup_cons]
    exact ⟨absent, lin.nodup⟩
  · intro other member
    rcases mem_insertAt.mp member with rfl | member
    · exact started
    · exact lin.invoked other member
  · intro i ret responded
    obtain ⟨other, member, same⟩ := lin.completed i ret responded
    exact ⟨other, mem_insertAt.mpr (.inr member), same⟩
  · intro first firstMember second secondMember before
    rcases mem_insertAt.mp firstMember with rfl | inFirst
    · -- what has not returned precedes nothing
      exact absurd before.responded pending
    · rcases mem_insertAt.mp secondMember with rfl | inSecond
      · have early := List.singleton_sublist.mpr (covers first inFirst before)
        exact early.append (List.singleton_sublist.mpr List.mem_cons_self)
      · exact (lin.realTime first inFirst second inSecond before).trans (sublist_insertAt _ _ _)

theorem Seen.insertAt {i : ι} {s : σ} (k : Nat) (entry : Entry ι Op Ret)
    (seen : Seen spec history order i s) (pending : ¬ Responded history entry.id)
    (quiet : (spec.apply (spec.final spec.init (order.take k)) entry.op).1 =
      spec.final spec.init (order.take k) ∨ order.length ≤ k) :
    Seen spec history (order.take k ++ entry :: order.drop k) i s := by
  obtain ⟨n, bound, covers, state⟩ := seen
  -- the state was seen before the place of the new entry, or after it
  by_cases early : n ≤ k
  · have same : (order.take k ++ entry :: order.drop k).take n = order.take n := by
      rw [List.take_append_of_le_length (by rw [List.length_take]; omega), List.take_take,
        Nat.min_eq_left early]
    refine ⟨n, by simp; omega, ?_, by rw [same, state]⟩
    intro other member before
    rcases mem_insertAt.mp member with rfl | member
    · exact absurd before.responded pending
    · rw [same]; exact covers other member before
  · have long : (order.take k).length = k := by rw [List.length_take]; omega
    have same : (order.take k ++ entry :: order.drop k).take (n + 1) =
        order.take k ++ entry :: (order.drop k).take (n - k) := by
      rw [List.take_append, long, List.take_of_length_le (by omega), Nat.sub_add_comm (by omega),
        List.take_succ_cons]
    have split : order.take n = order.take k ++ (order.drop k).take (n - k) := by
      conv_lhs => rw [← Nat.add_sub_cancel' (show k ≤ n by omega), List.take_add]
    refine ⟨n + 1, by simp; omega, ?_, ?_⟩
    · intro other member before
      rcases mem_insertAt.mp member with rfl | member
      · exact absurd before.responded pending
      · have old := covers other member before
        rw [split, List.mem_append] at old
        rw [same, List.mem_append, List.mem_cons]
        exact old.imp_right .inr
    · rcases quiet with quiet | past
      · rw [same, spec.final_append, ← state, split, spec.final_append]
        simp only [SeqSpec.final, List.foldl_cons] at quiet ⊢
        rw [quiet]
      · omega

end Insert

section Rules

variable {spec : SeqSpec σ Op Ret} {history : List (Event ι Op Ret)} {order : List (Entry ι Op Ret)}

theorem Linearization.nil : Linearization spec ([] : List (Event ι Op Ret)) [] :=
  ⟨trivial, by simp, by simp, by simp, by simp⟩

theorem Linearization.not_responded (lin : Linearization spec history order) {i : ι}
    (absent : i ∉ order.map (·.id)) : ¬ Responded history i := by
  rintro ⟨ret, responded⟩
  obtain ⟨other, member, same, _⟩ := lin.completed _ _ responded
  exact absent (same ▸ List.mem_map_of_mem member)

theorem Linearization.invoke (lin : Linearization spec history order) {i : ι} (op : Op)
    (fresh : ¬ Invoked history i) : Linearization spec (history ++ [.inv i op]) order := by
  refine ⟨lin.legal, lin.nodup, ?_, ?_, ?_⟩
  · intro entry member
    exact List.mem_append_left _ (lin.invoked entry member)
  · intro j ret responded
    exact lin.completed j ret (by simpa using responded)
  · intro first firstMember second secondMember before
    refine lin.realTime first firstMember second secondMember (before.of_concat ?_)
    intro op' same
    cases same
    exact fresh ⟨_, lin.invoked second secondMember⟩

theorem Linearization.respond (lin : Linearization spec history order) {entry : Entry ι Op Ret}
    (member : entry ∈ order) : Linearization spec (history ++ [.res entry.id entry.ret]) order := by
  refine ⟨lin.legal, lin.nodup, ?_, ?_, ?_⟩
  · intro other otherMember
    exact List.mem_append_left _ (lin.invoked other otherMember)
  · intro j ret responded
    rcases List.mem_append.mp responded with old | new
    · exact lin.completed j ret old
    · obtain ⟨rfl, rfl⟩ : j = entry.id ∧ ret = entry.ret := by simpa using new
      exact ⟨entry, member, rfl, rfl⟩
  · intro first firstMember second secondMember before
    exact lin.realTime first firstMember second secondMember (before.of_concat (by simp))

theorem Linearization.commit (lin : Linearization spec history order) {i : ι} {op : Op}
    (started : Event.inv i op ∈ history) (absent : i ∉ order.map (·.id)) :
    Linearization spec history
      (order ++ [⟨i, op, (spec.apply (spec.final spec.init order) op).2⟩]) := by
  have placed := lin.insertAt order.length
    ⟨i, op, (spec.apply (spec.final spec.init order) op).2⟩ started absent
    (fun other member _ => by simpa using member) (.inr ⟨(Nat.le_refl _), rfl⟩)
  simpa using placed

theorem Seen.commit {i j : ι} {op : Op} {ret : Ret} {s : σ} (seen : Seen spec history order i s)
    (pending : ¬ Responded history j) : Seen spec history (order ++ [⟨j, op, ret⟩]) i s := by
  have placed := seen.insertAt order.length ⟨j, op, ret⟩ pending (.inr (Nat.le_refl _))
  simpa using placed

/-- An invoked operation that changes nothing took effect at a state seen since
its invocation: the order grows in the middle and the final state is kept. -/
theorem Linearization.commitPast (lin : Linearization spec history order) {i : ι} {op : Op} {ret : Ret}
    {s : σ} (started : Event.inv i op ∈ history) (absent : i ∉ order.map (·.id))
    (seen : Seen spec history order i s) (quiet : spec.apply s op = (s, ret)) :
    ∃ longer, Linearization spec history longer ∧ spec.final spec.init longer = spec.final spec.init order ∧
      (∀ entry, entry ∈ longer ↔ entry = ⟨i, op, ret⟩ ∨ entry ∈ order) ∧
      (∀ j t, Seen spec history order j t → Seen spec history longer j t) := by
  obtain ⟨k, bound, covers, state⟩ := seen
  refine ⟨order.take k ++ ⟨i, op, ret⟩ :: order.drop k, ?_, ?_, ?_, ?_⟩
  · exact lin.insertAt k ⟨i, op, ret⟩ started absent covers (.inl (by rw [state]; exact quiet))
  · conv_rhs => rw [← List.take_append_drop k order]
    simp only [spec.final_append, state]
    simp only [SeqSpec.final, List.foldl_cons, quiet]
  · intro entry
    exact mem_insertAt
  · intro j t seenOther
    exact seenOther.insertAt k ⟨i, op, ret⟩ (lin.not_responded absent) (.inl (by rw [state, quiet]))

end Rules

section Between

variable {spec : SeqSpec σ Op Ret} {history : List (Event ι Op Ret)} {order : List (Entry ι Op Ret)}

theorem not_sublist_swap {A : Type} {a b : A} {l : List A} (nodup : l.Nodup) (forth : [a, b].Sublist l) :
    ¬ [b, a].Sublist l := by
  induction l with
  | nil => simp at forth
  | cons c l ih =>
    obtain ⟨fresh, distinct⟩ := List.nodup_cons.mp nodup
    intro back
    rcases List.sublist_cons_iff.mp forth with old | ⟨_, same, inside⟩ <;>
      rcases List.sublist_cons_iff.mp back with old' | ⟨_, same', inside'⟩
    · exact ih distinct old old'
    · cases same'
      exact fresh (old.subset (by simp))
    · cases same
      exact fresh (old'.subset (by simp))
    · cases same
      cases same'
      exact fresh (List.singleton_sublist.mp inside)

/-- What stands between two operations that do not overlap came neither before the
first nor after the second. -/
theorem Linearization.between (lin : Linearization spec history order) {first second : Entry ι Op Ret}
    (inFirst : first ∈ order) (inSecond : second ∈ order) (before : Precedes history first.id second.id) :
    ∃ earlier middle later, order = earlier ++ first :: (middle ++ second :: later) ∧
      ∀ entry ∈ middle, ¬ Precedes history entry.id first.id ∧ ¬ Precedes history second.id entry.id := by
  have nodup : order.Nodup := lin.nodup.of_map
  obtain ⟨front, back, split, inFront, inBack⟩ :=
    List.cons_sublist_iff.mp (lin.realTime first inFirst second inSecond before)
  obtain ⟨earlier, after, rfl⟩ := List.append_of_mem inFront
  obtain ⟨until_, later, rfl⟩ := List.append_of_mem (List.singleton_sublist.mp inBack)
  have whole : order = earlier ++ first :: ((after ++ until_) ++ second :: later) := by
    rw [split]
    simp
  refine ⟨earlier, after ++ until_, later, whole, ?_⟩
  intro entry inMiddle
  have member : entry ∈ order := by
    rw [whole]
    simp only [List.mem_append, List.mem_cons]
    exact .inr (.inr (.inl (List.mem_append.mp inMiddle)))
  have placed : [first, entry, second].Sublist order := by
    rw [whole]
    refine List.Sublist.trans ?_ (List.sublist_append_right _ _)
    refine List.Sublist.cons_cons _ ?_
    exact (List.singleton_sublist.mpr inMiddle).append (List.singleton_sublist.mpr List.mem_cons_self)
  constructor
  · intro ahead
    refine not_sublist_swap nodup (lin.realTime entry member first inFirst ahead) (.trans ?_ placed)
    simp
  · intro behind
    refine not_sublist_swap nodup (lin.realTime second inSecond entry member behind) (.trans ?_ placed)
    simp

end Between

end Concurrency
