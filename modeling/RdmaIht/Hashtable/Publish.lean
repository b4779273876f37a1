import RdmaIht.Hashtable.Safety

/-! The step that publishes the new root, and the table that `InitArray` builds.

The buckets of a new array are empty and unlocked, and their blocks are new. The
locks of the old buckets are all held by the resize, so that no operation is in
one of them.
-/

set_option autoImplicit false

namespace RdmaIht.Hashtable

open Concurrency

variable {K V : Type}

namespace Mem

/-- `*std::to_address(root) = hashArrayTemp` for a new array of `n` buckets. -/
def publish (m : Mem K V) (self n : Nat) : Mem K V := { (m.newArray self n).2 with root := (m.newArray self n).1 }

variable (m : Mem K V) (self n : Nat)

theorem root_publish : (m.publish self n).root = ⟨n, m.fresh self⟩ := rfl

theorem next_publish : (m.publish self n).next = m.next + 1 + 2 * n := by
  simp [publish, newArray, next_newSets]

theorem arrays_publish (a : RemotePtr) : (m.publish self n).arrays a =
    if a = m.fresh self then some (newSets self n m.bump).1 else m.arrays a := by
  simp [publish, newArray, Function.update_apply, arrays_newSets]

theorem bucketAt_publish (i : Nat) : (m.publish self n).bucketAt (m.fresh self) i =
    if i < n then some ⟨⟨self, m.next + 1 + 2 * i⟩, ⟨self, m.next + 1 + 2 * i + 1⟩⟩ else none := by
  simp [bucketAt, arrays_publish, getElem?_newSets]

theorem bucketAt_publish_of_ne {a : RemotePtr} (old : a ≠ m.fresh self) (i : Nat) :
    (m.publish self n).bucketAt a i = m.bucketAt a i := by
  simp only [bucketAt, arrays_publish, if_neg old]

theorem blocks_publish {p : RemotePtr} (low : p.address < m.next) :
    (m.publish self n).locks p = m.locks p ∧ (m.publish self n).nodes p = m.nodes p :=
  (m.bump.newSets_blocks self n).1 p (Nat.lt_succ_of_lt low)

theorem set_publish {i : Nat} (bound : i < n) :
    (m.publish self n).locks ⟨self, m.next + 1 + 2 * i⟩ = some .unlocked ∧
      (m.publish self n).nodes ⟨self, m.next + 1 + 2 * i + 1⟩ = some {} :=
  (m.bump.newSets_blocks self n).2 i bound

theorem only_publish (p : RemotePtr) :
    ((m.publish self n).locks p ≠ none → m.locks p ≠ none ∨ p.address < m.next + 1 + 2 * n) ∧
      ((m.publish self n).nodes p ≠ none → m.nodes p ≠ none ∨ p.address < m.next + 1 + 2 * n) :=
  m.bump.newSets_only self n p

theorem cases_publish {a : RemotePtr} {i : Nat} {set : LinkedSet} (at_ : (m.publish self n).bucketAt a i = some set) :
    (a ≠ m.fresh self ∧ m.bucketAt a i = some set) ∨
      a = m.fresh self ∧ i < n ∧ set = ⟨⟨self, m.next + 1 + 2 * i⟩, ⟨self, m.next + 1 + 2 * i + 1⟩⟩ := by
  by_cases new : a = m.fresh self
  · subst new
    rw [m.bucketAt_publish] at at_
    split at at_
    · next bound => exact .inr ⟨rfl, bound, (Option.some.inj at_).symm⟩
    · cases at_
  · rw [m.bucketAt_publish_of_ne self n new] at at_
    exact .inl ⟨new, at_⟩

end Mem

/-- The blocks of the new buckets come in pairs, a lock and a first node. -/
def publishHome (home : Home) (m : Mem K V) (self : Nat) : Home := fun p =>
  if p.address < m.next then home p else (m.fresh self, (p.address - (m.next + 1)) / 2)

variable {home : Home} {m : Mem K V}

theorem publishHome_old {self : Nat} {p : RemotePtr} (low : p.address < m.next) :
    publishHome home m self p = home p := if_pos low

structure Laid (home : Home) (m : Mem K V) : Prop where
  pos : 0 < m.next
  nodes_lt : ∀ p, m.nodes p ≠ none → p.address < m.next
  locks_lt : ∀ p, m.locks p ≠ none → p.address < m.next
  arrays_lt : ∀ p, m.arrays p ≠ none → p.address < m.next
  lock : ∀ {a i set}, m.bucketAt a i = some set → home set.lock = (a, i) ∧ m.locks set.lock ≠ none
  first : ∀ {a i set}, m.bucketAt a i = some set → home set.first = (a, i) ∧ m.nodes set.first ≠ none ∧ set.first ≠ .null

theorem Shape.laid (shape : Shape home m) : Laid home m :=
  ⟨shape.pos, shape.nodes_lt, shape.locks_lt, shape.arrays_lt, shape.lock, shape.first⟩

namespace Laid

variable (laid : Laid home m) (self : Nat) {n : Nat}

include laid

theorem publish (positive : 0 < n) (closed : ∀ {a i set}, m.bucketAt a i = some set → m.locks set.lock ≠ some .unlocked) :
    Shape (publishHome home m self) (m.publish self n) where
  pos := by rw [m.next_publish]; omega
  nodes_lt p some := by
    rw [m.next_publish]
    rcases (m.only_publish self n p).2 some with old | new
    · have low := laid.nodes_lt p old
      omega
    · exact new
  locks_lt p some := by
    rw [m.next_publish]
    rcases (m.only_publish self n p).1 some with old | new
    · have low := laid.locks_lt p old
      omega
    · exact new
  arrays_lt p some := by
    rw [m.next_publish]
    rw [m.arrays_publish] at some
    split at some
    · next new =>
      rw [new, Mem.fresh]
      dsimp only
      omega
    · have low := laid.arrays_lt p some
      omega
  lock := by
    intro a i set at_
    rcases m.cases_publish self n at_ with ⟨_, old⟩ | ⟨rfl, bound, rfl⟩
    · obtain ⟨here, word⟩ := laid.lock old
      have low := laid.locks_lt _ word
      exact ⟨(publishHome_old low).trans here, by rw [(m.blocks_publish self n low).1]; exact word⟩
    · refine ⟨?_, by simp [(m.set_publish self n bound).1]⟩
      rw [publishHome, if_neg (by dsimp only; omega)]
      dsimp only
      rw [show m.next + 1 + 2 * i - (m.next + 1) = 2 * i by omega, Nat.mul_div_cancel_left _ (by decide)]
  first := by
    intro a i set at_
    rcases m.cases_publish self n at_ with ⟨_, old⟩ | ⟨rfl, bound, rfl⟩
    · obtain ⟨here, stored, notNull⟩ := laid.first old
      have low := laid.nodes_lt _ stored
      exact ⟨(publishHome_old low).trans here, by rw [(m.blocks_publish self n low).2]; exact stored, notNull⟩
    · refine ⟨?_, by simp [(m.set_publish self n bound).2], ?_⟩
      · rw [publishHome, if_neg (by dsimp only; omega)]
        dsimp only
        rw [show m.next + 1 + 2 * i + 1 - (m.next + 1) = 1 + 2 * i by omega, Nat.add_mul_div_left _ _ (by decide)]
        simp
      · intro null
        injection null with _ zero
        omega
  root := ⟨_, by rw [m.root_publish, m.arrays_publish, if_pos rfl], by simp [m.root_publish, Mem.length_newSets], positive⟩
  retired := by
    intro a i set at_ other
    rcases m.cases_publish self n at_ with ⟨_, old⟩ | ⟨rfl, _⟩
    · rw [(m.blocks_publish self n (laid.locks_lt _ (laid.lock old).2)).1]
      exact closed old
    · exact absurd rfl other

theorem represents_publish {q : Place} {p : RemotePtr} {b : Bundles K V} (rep : m.Represents (home · = q) p b) :
    (m.publish self n).Represents (publishHome home m self · = q) p b := by
  refine rep.frame fun r own some => ?_
  have low := laid.nodes_lt r some
  exact ⟨(m.blocks_publish self n low).2, (publishHome_old low).trans own⟩

theorem ground_publish (positive : 0 < n)
    (closed : ∀ {a i set}, m.bucketAt a i = some set → m.locks set.lock ≠ some .unlocked) (pending : List (Pair K V)) :
    Ground ⟨n, fun _ => .empty, pending⟩ (publishHome home m self) (m.publish self n) where
  shape := laid.publish self positive closed
  count := rfl
  live := by
    intro i set at_
    rcases m.cases_publish self n at_ with ⟨old, _⟩ | ⟨_, bound, rfl⟩
    · exact absurd rfl old
    · simp [(m.set_publish self n bound).1]
  opened := by
    intro i set at_ _
    obtain ⟨here, _, notNull⟩ := (laid.publish self positive closed).first at_
    rcases m.cases_publish self n at_ with ⟨old, _⟩ | ⟨_, bound, rfl⟩
    · exact absurd rfl old
    · exact ⟨[(_, {})], ⟨rfl, notNull, here, (m.set_publish self n bound).2, fun some => absurd rfl some, rfl⟩, rfl⟩

end Laid

variable [DecidableEq K] {T : Template K V} {t : Table K V} {answer : Nat → HtRes V} {s : State K V}

omit [DecidableEq K] in
theorem arrays_publish_of_some (shape : Shape home m) (self n : Nat) {a : RemotePtr} {sets : List LinkedSet}
    (stored : m.arrays a = some sets) : (m.publish self n).arrays a = some sets := by
  rw [m.arrays_publish, if_neg]
  · exact stored
  · rintro rfl
    exact Nat.lt_irrefl _ (shape.arrays_lt (m.fresh self) (by simp [stored]))

theorem PcInv.publish {t' : Table K V} {home' : Home} {res : HtRes V} {op : IhtOp K V} {pc : Pc K V} (shape : Shape home m)
    (self n : Nat) (outside : pc.inside = false) (inv : PcInv T t home m res op pc) :
    PcInv T t' home' (m.publish self n) res op pc := by
  cases pc with
  | readRoot => trivial
  | readBucket arr =>
    obtain ⟨positive, sets, stored, length⟩ := inv
    exact ⟨positive, sets, arrays_publish_of_some shape self n stored, length⟩
  | inSet set pc =>
    rcases inv with ⟨rfl, start, sets, stored, inArray⟩ | section_
    · exact .inl ⟨rfl, start, sets, arrays_publish_of_some shape self n stored, inArray⟩
    · have inside := section_.2.2.2.inside
      rw [show pc.inside = false from outside] at inside
      cases inside

namespace Inv

theorem publish (self : Nat) (s' : State K V) (inv : Inv T t home answer s) {c : Nat} {hashtable : HashArray} {buckets : List LinkedSet}
    (here : s.threads c = .resizing (.publish hashtable buckets))
    (mem : s'.mem = s.mem.publish self (hashtable.count * 2))
    (threads : s'.threads = Function.update s.threads c (.resizing (.bucket buckets s'.mem.root 0))) :
    t.pending = [] ∧ Inv T t.doubled (publishHome home s.mem self) answer s' := by
  have shape := inv.ground.shape
  have own := inv.threads c
  rw [here] at own
  obtain ⟨locked, ⟨rfl, stored⟩, settled, reps⟩ := own
  obtain ⟨sets, stored', length, positive⟩ := shape.root
  obtain rfl : buckets = sets := by
    rw [stored] at stored'
    exact Option.some.inj stored'
  have count : t.count = s.mem.root.count := inv.ground.count
  have double : 0 < s.mem.root.count * 2 := by omega
  -- the locks of the root are held by this resize
  have closed : ∀ {a i set}, s.mem.bucketAt a i = some set → s.mem.locks set.lock ≠ some .unlocked := by
    intro a i set at_
    by_cases inRoot : a = s.mem.root.bucketStart
    · subst inRoot
      obtain ⟨sets, inArray, slot⟩ := s.mem.bucketAt_eq_some.mp at_
      rw [stored] at inArray
      cases inArray
      rw [locked set (List.mem_of_getElem? slot)]
      simp
    · exact shape.retired at_ inRoot
  have mine : s'.threads c = .resizing (.bucket buckets s'.mem.root 0) := by rw [threads, Function.update_self]
  have theirs : ∀ c', c' ≠ c → s'.threads c' = s.threads c' := fun c' other => by
    rw [threads, Function.update_of_ne other]
  have holds : ∀ c' p, (s'.threads c').Holds p ↔ (s.threads c').Holds p := by
    intro c' p
    by_cases same : c' = c
    · rw [same, mine, here, holds_resizing rfl, holds_resizing rfl]
      rfl
    · rw [theirs c' same]
  have low : ∀ {a i set}, s.mem.bucketAt a i = some set → set.lock.address < s.mem.next := fun at_ =>
    shape.locks_lt _ (shape.lock at_).2
  refine ⟨settled, ⟨?_, ?_, ?_, ?_, ?_, ?_⟩⟩
  · have ground := shape.laid.ground_publish self double closed t.all
    rw [mem, Table.doubled, count]
    exact ground
  · intro c'
    by_cases same : c' = c
    · subst same
      rw [mine, mem]
      refine ⟨fun set member => ?_, s.mem.root.bucketStart, ⟨rfl, ?_, ?_⟩, t.buckets, ?_, ?_⟩
      · obtain ⟨i, at_⟩ := bucketAt_of_mem stored member
        rw [(s.mem.blocks_publish self _ (low at_)).1]
        exact locked set member
      · intro fresh
        have less := shape.arrays_lt s.mem.root.bucketStart (by simp [stored])
        rw [fresh, s.mem.root_publish] at less
        exact Nat.lt_irrefl _ less
      · exact arrays_publish_of_some shape self _ stored
      · exact fun j set _ at_ => shape.laid.represents_publish self (reps j set at_)
      · rw [Nat.sub_zero, ← List.range_eq_range', length, ← count]
        rfl
    · rw [theirs c' same]
      have before := inv.threads c'
      cases at_ : s.threads c' with
      | idle => trivial
      | resizing pc => exact absurd (inv.single at_ here) same
      | running id op pc =>
        rw [at_] at before
        rw [mem]
        refine PcInv.publish (T := T) shape self _ ?_ before
        -- a lock of the root is held by `c`
        cases pc with
        | readRoot | readBucket => rfl
        | inSet set pc =>
          by_contra inside
          have won : pc.inside = true := by simpa [Pc.inside] using inside
          have section_ : InSection T t home s.mem (answer c') set op pc := AtSet.section before won
          obtain ⟨sets, inArray, slot⟩ := s.mem.bucketAt_eq_some.mp section_.1
          rw [stored] at inArray
          cases inArray
          refine same (inv.exclusive (p := set.lock) ?_ ?_)
          · rw [at_, holds_running]
            exact ⟨won, rfl⟩
          · rw [here, holds_resizing rfl]
            exact ⟨set, List.mem_of_getElem? slot, rfl⟩
  · intro c₁ c₂ p holds₁ holds₂
    exact inv.exclusive ((holds c₁ p).mp holds₁) ((holds c₂ p).mp holds₂)
  · intro a i set at_ locked'
    rw [mem] at at_ locked'
    rcases s.mem.cases_publish self _ at_ with ⟨_, old⟩ | ⟨_, bound, rfl⟩
    · rw [(s.mem.blocks_publish self _ (low old)).1] at locked'
      obtain ⟨c', held⟩ := inv.holder old locked'
      exact ⟨c', (holds c' _).mpr held⟩
    · rw [(s.mem.set_publish self _ bound).1] at locked'
      cases locked'
  · intro c₁ c₂ pc₁ pc₂ resizes₁ resizes₂
    have was : ∀ {c' pc}, s'.threads c' = .resizing pc → c' = c := by
      intro c' pc resizes
      by_contra other
      rw [theirs c' other] at resizes
      exact other (inv.single resizes here)
    rw [was resizes₁, was resizes₂]
  · exact fun none => absurd mine (none c _)

end Inv

end RdmaIht.Hashtable
