import Mathlib.Data.List.Perm.Subperm
import RdmaIht.Hashtable.Table

/-! The chain of nodes of a `LinkedSet`.

`m.Path mine p l q` says that the nodes `l` lead from `p` to `q`, all of them in
`mine`. A node is linked after it was allocated, so that the addresses grow along
a path and no node occurs twice on it. `Represents` reads the bundles off a path
from the first node to the null pointer.
-/

set_option autoImplicit false

namespace RdmaIht.Hashtable

variable {K V : Type}

namespace Mem

def Path (m : Mem K V) (mine : RemotePtr → Prop) : RemotePtr → List (RemotePtr × Node K V) → RemotePtr → Prop
  | p, [], q => p = q
  | p, (r, n) :: rest, q => r = p ∧ p ≠ .null ∧ mine p ∧ m.nodes p = some n ∧
      (n.next ≠ .null → p.address < n.next.address) ∧ m.Path mine n.next rest q

def contents (l : List (RemotePtr × Node K V)) : Bundles K V :=
  ⟨(l.head?.map (·.2.totalLength)).getD 0, l.map (·.2.pairs)⟩

def Represents (m : Mem K V) (mine : RemotePtr → Prop) (first : RemotePtr) (b : Bundles K V) : Prop :=
  ∃ l, m.Path mine first l .null ∧ contents l = b

variable {m m' : Mem K V} {mine mine' : RemotePtr → Prop} {p q : RemotePtr} {l l' : List (RemotePtr × Node K V)}

theorem path_append : m.Path mine p (l ++ l') q ↔ ∃ r, m.Path mine p l r ∧ m.Path mine r l' q := by
  induction l generalizing p with
  | nil =>
    constructor
    · exact fun path => ⟨p, rfl, path⟩
    · rintro ⟨r, rfl, path⟩
      exact path
  | cons head rest ih =>
    obtain ⟨r, n⟩ := head
    simp only [List.cons_append, Path, ih]
    constructor
    · rintro ⟨rfl, notNull, own, stored, grows, r', first, second⟩
      exact ⟨r', ⟨rfl, notNull, own, stored, grows, first⟩, second⟩
    · rintro ⟨r', ⟨rfl, notNull, own, stored, grows, first⟩, second⟩
      exact ⟨rfl, notNull, own, stored, grows, r', first, second⟩

theorem Path.frame (path : m.Path mine p l q) (same : ∀ r n, (r, n) ∈ l → m'.nodes r = m.nodes r ∧ (mine r → mine' r)) :
    m'.Path mine' p l q := by
  induction l generalizing p with
  | nil => exact path
  | cons head rest ih =>
    obtain ⟨r, n⟩ := head
    obtain ⟨rfl, notNull, own, stored, grows, tail⟩ := path
    obtain ⟨kept, stays⟩ := same r n (by simp)
    exact ⟨rfl, notNull, stays own, kept.trans stored, grows, ih tail fun r' n' member => same r' n' (.tail _ member)⟩

theorem Path.mem (path : m.Path mine p l q) {r : RemotePtr} {n : Node K V} (member : (r, n) ∈ l) :
    mine r ∧ m.nodes r = some n ∧ r ≠ .null := by
  induction l generalizing p with
  | nil => cases member
  | cons head rest ih =>
    obtain ⟨r', n'⟩ := head
    obtain ⟨rfl, notNull, own, stored, _, tail⟩ := path
    rcases List.mem_cons.mp member with same | later
    · cases same
      exact ⟨own, stored, notNull⟩
    · exact ih tail later

theorem Path.address_le (path : m.Path mine p l q) {r : RemotePtr} {n : Node K V} (member : (r, n) ∈ l) :
    p.address ≤ r.address := by
  induction l generalizing p with
  | nil => cases member
  | cons head rest ih =>
    obtain ⟨r', n'⟩ := head
    obtain ⟨rfl, _, _, _, grows, tail⟩ := path
    rcases List.mem_cons.mp member with same | later
    · cases same
      exact Nat.le_refl _
    · have further := ih tail later
      cases rest with
      | nil => cases later
      | cons head' rest' =>
        obtain ⟨_, n''⟩ := head'
        have notNull := tail.2.1
        exact Nat.le_trans (Nat.le_of_lt (grows notNull)) further

theorem Path.tail_lt {r : RemotePtr} {n : Node K V} (path : m.Path mine p ((r, n) :: l) q) {r' : RemotePtr} {n' : Node K V}
    (member : (r', n') ∈ l) : r.address < r'.address := by
  obtain ⟨rfl, _, _, _, grows, tail⟩ := path
  cases l with
  | nil => cases member
  | cons head rest =>
    obtain ⟨_, n''⟩ := head
    exact Nat.lt_of_lt_of_le (grows tail.2.1) (tail.address_le member)

theorem Path.sorted (path : m.Path mine p l q) : l.Pairwise fun a b => a.1.address < b.1.address := by
  induction l generalizing p with
  | nil => exact .nil
  | cons head rest ih =>
    obtain ⟨r, n⟩ := head
    exact .cons (fun a member => path.tail_lt member) (ih path.2.2.2.2.2)

theorem Path.apart {pre post : List (RemotePtr × Node K V)} {r : RemotePtr} {n : Node K V}
    (path : m.Path mine p (pre ++ (r, n) :: post) q) {r' : RemotePtr} {n' : Node K V} (member : (r', n') ∈ pre ∨ (r', n') ∈ post) :
    r' ≠ r := by
  obtain ⟨_, later, apart⟩ := List.pairwise_append.mp path.sorted
  rcases member with before | after
  · have less := apart _ before _ List.mem_cons_self
    rintro rfl
    exact Nat.lt_irrefl _ less
  · have less := (List.pairwise_cons.mp later).1 _ after
    rintro rfl
    exact Nat.lt_irrefl _ less

theorem Path.setNode_other (path : m.Path mine p l q) {r : RemotePtr} (data : Node K V) (other : ∀ n, (r, n) ∉ l) :
    (m.setNode r data).Path mine p l q := by
  refine path.frame fun r' n' member => ⟨?_, id⟩
  rw [nodes_setNode, if_neg]
  rintro rfl
  exact other _ member

theorem Path.setNode (pre : List (RemotePtr × Node K V)) (data : Node K V) {post : List (RemotePtr × Node K V)}
    {r : RemotePtr} {n : Node K V}
    (path : m.Path mine p (pre ++ (r, n) :: post) q) (next : data.next = n.next) :
    (m.setNode r data).Path mine p (pre ++ (r, data) :: post) q := by
  have before : ∀ n', (r, n') ∉ pre := fun n' member => path.apart (.inl member) rfl
  have after : ∀ n', (r, n') ∉ post := fun n' member => path.apart (.inr member) rfl
  obtain ⟨r', first, rfl, notNull, own, stored, grows, rest⟩ := path_append.mp path
  rw [← next] at grows rest
  exact path_append.mpr ⟨_, first.setNode_other data before, rfl, notNull, own, by simp [nodes_setNode], grows,
    rest.setNode_other data after⟩

theorem Path.link (data new : Node K V) {pre : List (RemotePtr × Node K V)} {r f : RemotePtr} {n : Node K V}
    (path : m.Path mine p (pre ++ [(r, n)]) q) (stored : m.nodes f = some new) (last : new.next = .null)
    (notNull : f ≠ .null) (own : mine f) (later : ∀ r' n', (r', n') ∈ pre ++ [(r, n)] → r'.address < f.address)
    (next : data.next = f) : (m.setNode r data).Path mine p (pre ++ [(r, data), (f, new)]) .null := by
  have before : ∀ n', (r, n') ∉ pre := fun n' member => path.apart (.inl member) rfl
  have grows := later r n (by simp)
  obtain ⟨r', first, rfl, notNull', own', _, _, _⟩ := path_append.mp path
  refine path_append.mpr ⟨_, first.setNode_other data before, rfl, notNull', own', by simp [nodes_setNode],
    fun _ => by rw [next]; exact grows, ?_⟩
  rw [next]
  refine ⟨rfl, notNull, own, ?_, fun some => absurd last some, last⟩
  rw [nodes_setNode, if_neg]
  · exact stored
  · rintro rfl
    exact Nat.lt_irrefl _ grows

theorem Represents.frame {b : Bundles K V} (rep : m.Represents mine p b)
    (same : ∀ r, mine r → m.nodes r ≠ none → m'.nodes r = m.nodes r ∧ mine' r) : m'.Represents mine' p b := by
  obtain ⟨l, path, shown⟩ := rep
  refine ⟨l, path.frame fun r n member => ?_, shown⟩
  obtain ⟨own, stored, _⟩ := path.mem member
  have kept := same r own (by simp [stored])
  exact ⟨kept.1, fun _ => kept.2⟩

/-! A chain read from the memory. -/

def chain (m : Mem K V) : Nat → RemotePtr → List (Node K V)
  | 0, _ => []
  | fuel + 1, p =>
    if p = .null then []
    else
      match m.nodes p with
      | none => []
      | some n => n :: m.chain fuel n.next

theorem Path.chain_eq (path : m.Path mine p l .null) {fuel : Nat} (enough : l.length ≤ fuel) :
    m.chain fuel p = l.map (·.2) := by
  induction l generalizing p fuel with
  | nil =>
    rw [show p = .null from path]
    cases fuel <;> simp [chain]
  | cons head rest ih =>
    obtain ⟨r, n⟩ := head
    obtain ⟨rfl, notNull, _, stored, _, tail⟩ := path
    obtain ⟨fuel, rfl⟩ : ∃ k, fuel = k + 1 := ⟨fuel - 1, by simp at enough; omega⟩
    simp only [List.length_cons, Nat.add_le_add_iff_right] at enough
    simp [chain, notNull, stored, ih tail enough]

theorem Path.length_le (path : m.Path mine p l q) (allocated : ∀ r n, (r, n) ∈ l → r.address < m.next) :
    l.length ≤ m.next := by
  have nodup : (l.map fun a => a.1.address).Nodup :=
    List.pairwise_map.mpr (path.sorted.imp fun less => Nat.ne_of_lt less)
  have inside : (l.map fun a => a.1.address) ⊆ List.range m.next := by
    intro a member
    obtain ⟨⟨r, n⟩, inPath, rfl⟩ := List.mem_map.mp member
    exact List.mem_range.mpr (allocated r n inPath)
  simpa using (List.Nodup.subperm nodup inside).length_le

end Mem

end RdmaIht.Hashtable
