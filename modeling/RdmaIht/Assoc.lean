import Mathlib.Data.List.Nodup
import Mathlib.Data.List.Perm.Basic
import Mathlib.Logic.Function.Basic

/-! Lists of pairs with distinct keys as finite maps on a set of keys.

`Represents pairs bindings dom` says that the pairs are exactly the bindings of
the keys in `dom`. The rules follow the ways an array of pairs is changed: a pair
is appended, a pair is overwritten by the last one and the array shortened, the
pairs are distributed by a function of the key.
-/

set_option autoImplicit false

namespace Assoc

variable {A K V : Type} [DecidableEq K] (key : A → K) (val : A → V)

def lookup (pairs : List A) (k : K) : Option V := (pairs.find? fun a => decide (key a = k)).map val

structure Represents (pairs : List A) (bindings : K → Option V) (dom : K → Prop) : Prop where
  distinct : (pairs.map key).Nodup
  inside : ∀ a ∈ pairs, dom (key a)
  binds : ∀ k, dom k → bindings k = lookup key val pairs k

variable {key : A → K} {val : A → V} {pairs : List A} {bindings : K → Option V} {dom : K → Prop}

theorem lookup_eq_none {k : K} : lookup key val pairs k = none ↔ ∀ a ∈ pairs, key a ≠ k := by
  simp [lookup]

theorem lookup_of_mem (distinct : (pairs.map key).Nodup) {a : A} (member : a ∈ pairs) :
    lookup key val pairs (key a) = some (val a) := by
  induction pairs with
  | nil => cases member
  | cons b rest ih =>
    rw [List.map_cons, List.nodup_cons] at distinct
    rcases List.mem_cons.mp member with rfl | later
    · simp [lookup]
    · have other : key b ≠ key a := fun same => distinct.1 (same ▸ List.mem_map_of_mem later)
      simpa [lookup, other] using ih distinct.2 later

theorem lookup_append_singleton (a : A) (k : K) :
    lookup key val (pairs ++ [a]) k = (lookup key val pairs k).or (if key a = k then some (val a) else none) := by
  rw [lookup, List.find?_append, lookup]
  by_cases same : key a = k <;> cases pairs.find? _ <;> simp [same]

theorem lookup_perm {other : List A} (distinct : (pairs.map key).Nodup) (perm : pairs.Perm other) (k : K) :
    lookup key val other k = lookup key val pairs k := by
  by_cases bound : ∃ a ∈ pairs, key a = k
  · obtain ⟨a, member, rfl⟩ := bound
    rw [lookup_of_mem distinct member,
      lookup_of_mem ((perm.map key).nodup_iff.mp distinct) (perm.mem_iff.mp member)]
  · have absent : ∀ a ∈ pairs, key a ≠ k := fun a member same => bound ⟨a, member, same⟩
    rw [lookup_eq_none.mpr absent, lookup_eq_none.mpr fun a member => absent a (perm.mem_iff.mpr member)]

namespace Represents

theorem lookup_eq (rep : Represents key val pairs bindings dom) {a : A} (member : a ∈ pairs) :
    bindings (key a) = some (val a) := by
  rw [rep.binds _ (rep.inside a member), lookup_of_mem rep.distinct member]

theorem absent (rep : Represents key val pairs bindings dom) {k : K} (here : dom k)
    (missing : ∀ a ∈ pairs, key a ≠ k) : bindings k = none := by
  rw [rep.binds k here, lookup_eq_none.mpr missing]

theorem nil (empty : ∀ k, dom k → bindings k = none) : Represents key val [] bindings dom where
  distinct := List.nodup_nil
  inside := by simp
  binds := by simpa [lookup] using empty

theorem congr (rep : Represents key val pairs bindings dom) {bindings' : K → Option V} {dom' : K → Prop}
    (here : ∀ k, dom' k ↔ dom k) (same : ∀ k, dom k → bindings' k = bindings k) :
    Represents key val pairs bindings' dom' where
  distinct := rep.distinct
  inside a member := (here _).mpr (rep.inside a member)
  binds k inside := by rw [same k ((here k).mp inside), rep.binds k ((here k).mp inside)]

theorem perm (rep : Represents key val pairs bindings dom) {other : List A} (perm : pairs.Perm other) :
    Represents key val other bindings dom where
  distinct := (perm.map key).nodup_iff.mp rep.distinct
  inside a member := rep.inside a (perm.mem_iff.mpr member)
  binds k here := by rw [rep.binds k here, lookup_perm rep.distinct perm]

theorem append (rep : Represents key val pairs bindings dom) {a : A} (here : dom (key a))
    (missing : ∀ b ∈ pairs, key b ≠ key a) :
    Represents key val (pairs ++ [a]) (Function.update bindings (key a) (some (val a))) dom where
  distinct := by
    rw [List.map_append, List.nodup_append]
    refine ⟨rep.distinct, by simp, ?_⟩
    intro k member k' last
    obtain ⟨b, inside, rfl⟩ := List.mem_map.mp member
    rw [show k' = key a by simpa using last]
    exact missing b inside
  inside b member := by
    rcases List.mem_append.mp member with old | new
    · exact rep.inside b old
    · rw [List.mem_singleton.mp new]
      exact here
  binds k inside := by
    rw [lookup_append_singleton, Function.update_apply]
    by_cases same : k = key a
    · subst same
      simp [lookup_eq_none.mpr missing]
    · simp [same, Ne.symm same, rep.binds k inside]

theorem extend (rep : Represents key val pairs bindings dom) {a : A} {dom' : K → Prop}
    (here : ∀ k, dom' k ↔ dom k ∨ k = key a) (bound : bindings (key a) = some (val a))
    (missing : ∀ b ∈ pairs, key b ≠ key a) : Represents key val (pairs ++ [a]) bindings dom' where
  distinct := by
    rw [List.map_append, List.nodup_append]
    refine ⟨rep.distinct, by simp, ?_⟩
    intro k member k' last
    obtain ⟨b, inside, rfl⟩ := List.mem_map.mp member
    rw [show k' = key a by simpa using last]
    exact missing b inside
  inside b member := by
    rcases List.mem_append.mp member with old | new
    · exact (here _).mpr (.inl (rep.inside b old))
    · rw [List.mem_singleton.mp new]
      exact (here _).mpr (.inr rfl)
  binds k inside := by
    rw [lookup_append_singleton]
    by_cases same : k = key a
    · subst same
      simp [lookup_eq_none.mpr missing, bound]
    · rw [rep.binds k (((here k).mp inside).resolve_right same)]
      simp [Ne.symm same]

theorem eraseIdx (rep : Represents key val pairs bindings dom) {i : Nat} {a : A} (slot : pairs[i]? = some a) :
    Represents key val (pairs.eraseIdx i) (Function.update bindings (key a) none) dom := by
  obtain ⟨bound, rfl⟩ := List.getElem?_eq_some_iff.mp slot
  have split : (pairs[i] :: pairs.eraseIdx i).Perm pairs := List.getElem_cons_eraseIdx_perm bound
  have rep' := rep.perm split.symm
  have distinct := rep'.distinct
  rw [List.map_cons, List.nodup_cons] at distinct
  refine ⟨distinct.2, fun a member => rep'.inside a (List.mem_cons_of_mem _ member), ?_⟩
  intro k here
  rw [Function.update_apply]
  by_cases same : k = key pairs[i]
  · rw [if_pos same, lookup_eq_none.mpr]
    intro a member sameKey
    exact distinct.1 (same ▸ sameKey ▸ List.mem_map_of_mem member)
  · rw [if_neg same, rep'.binds k here]
    simp [lookup, Ne.symm same]

theorem swapLast (rep : Represents key val pairs bindings dom) {i n : Nat} {a last : A}
    (slot : pairs[i]? = some a) (final : pairs[n]? = some last) (length : pairs.length = n + 1) :
    Represents key val ((pairs.set i last).take n) (Function.update bindings (key a) none) dom := by
  refine (rep.eraseIdx slot).perm ?_
  obtain ⟨bound, _⟩ := List.getElem?_eq_some_iff.mp slot
  obtain ⟨front, back, rfl⟩ : ∃ front back, pairs = front ++ [back] :=
    ⟨pairs.dropLast, pairs.getLast (by rintro rfl; simp at length), (List.dropLast_append_getLast _).symm⟩
  obtain rfl : front.length = n := by simpa using length
  obtain rfl : back = last := by simpa using final
  by_cases inner : i < front.length
  · rw [List.set_append_left _ _ inner, List.take_left' (by simp),
      List.eraseIdx_append_of_lt_length inner]
    exact (List.perm_append_singleton _ _).trans (List.set_perm_cons_eraseIdx inner back).symm
  · obtain rfl : i = front.length := by simp at bound; omega
    rw [List.set_append_right _ _ (Nat.le_refl _), List.eraseIdx_append_of_length_le (Nat.le_refl _)]
    simp

theorem filter (rep : Represents key val pairs bindings dom) (part : K → Bool) :
    Represents key val (pairs.filter fun a => part (key a)) bindings (fun k => dom k ∧ part k = true) where
  distinct := (List.filter_sublist.map key).nodup rep.distinct
  inside a member := by
    obtain ⟨inside, holds⟩ := List.mem_filter.mp member
    exact ⟨rep.inside a inside, holds⟩
  binds k here := by
    rw [rep.binds k here.1, lookup, lookup, List.find?_filter]
    congr 2
    funext a
    by_cases same : key a = k
    · simp [same, here.2]
    · simp [same]

end Represents

end Assoc
