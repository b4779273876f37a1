import RdmaIht.Hashtable.Sequential

/-! A `try_rehash` that runs alone.

It sums the lengths of the buckets, and if there are enough elements it goes over
the buckets, the nodes of each bucket and the pairs of each node. What is left to do
decreases in this order, and the table it leaves is that of inserting all pairs into
empty buckets.
-/

set_option autoImplicit false

namespace RdmaIht.Hashtable

open Concurrency

variable {K V : Type}

namespace Table

/-- The sum of `list_length` over the buckets before `i`. -/
def load (t : Table K V) (i : Nat) : Int := ((List.range i).map fun j => (t.buckets j).total.toInt).sum

/-- `total_elements` reaches the load factor. -/
def Full (t : Table K V) : Prop := ¬ t.load t.count < t.count * 10

instance (t : Table K V) : Decidable t.Full := inferInstanceAs (Decidable (¬ _))

variable [DecidableEq K] (T : Template K V)

def add (t : Table K V) (pairs : List (Pair K V)) : Table K V :=
  pairs.foldl (fun t pair => (t.apply T (.insert pair.key pair.val)).1) t

def rehashed (t : Table K V) : Table K V := { t.doubled.add T t.all with pending := [] }

/-- The table after `try_rehash` on the pool of the root. -/
def tryRehash (t : Table K V) : Table K V := if t.Full then t.rehashed T else t

omit [DecidableEq K] in
theorem load_succ (t : Table K V) (i : Nat) : t.load (i + 1) = t.load i + (t.buckets i).total.toInt := by
  simp [load, List.range_succ]

def Adding (t₀ t : Table K V) : Prop :=
  ∃ done, t₀.all = done ++ t.pending ∧ t = { t₀.doubled.add T done with pending := t.pending }

variable {T} {t₀ t : Table K V}

theorem Adding.readd (adding : Adding T t₀ t) {pair : Pair K V} {rest : List (Pair K V)} (first : t.pending = pair :: rest) :
    Adding T t₀ (t.readd T pair rest) := by
  obtain ⟨done, split, same⟩ := adding
  refine ⟨done ++ [pair], by rw [split, first]; simp [Table.readd], ?_⟩
  conv_lhs => rw [same]
  simp only [Table.readd, add, List.foldl_append, List.foldl_cons, List.foldl_nil]
  rfl

theorem Adding.done (adding : Adding T t₀ t) (settled : t.pending = []) : t = t₀.rehashed T := by
  obtain ⟨done, split, same⟩ := adding
  rw [settled, List.append_nil] at split
  rw [same, rehashed, settled, split]

end Table

/-! ## What is left to do -/

section Rank

/-- How far `p` is from the end of the memory; the null pointer ends every chain. -/
def left (next : Nat) (p : RemotePtr) : Nat := if p = .null then 0 else next - p.address

def RehashPc.rank (t : Table K V) (m : Mem K V) : RehashPc K V → Nat × Nat × Nat × Nat
  | .readRoot => (6, 0, 0, 0)
  | .readBuckets _ => (5, 0, 0, 0)
  | .listLength _ buckets i _ => (4, buckets.length - i, 0, 0)
  | .freeze _ buckets i => (3, buckets.length - i, 0, 0)
  | .publish _ _ => (2, 0, 0, 0)
  | .bucket buckets _ i => (1, t.pending.length, 2 * (buckets.length - i) + 2, 0)
  | .foreach buckets _ i node => (1, t.pending.length, 2 * (buckets.length - i) + 1, 2 * left m.next node + 1)
  | .pairs buckets _ i next _ => (1, t.pending.length, 2 * (buckets.length - i) + 1, 2 * left m.next next + 2)
  | .insert _ _ _ _ _ _ _ pc => (1, t.pending.length + if pc.inside then 1 else 0, 0, pc.rank m)
  | .melt buckets i => (0, buckets.length - i, 0, 0)

def Closer (a b : Nat × Nat × Nat × Nat) : Prop :=
  a.1 < b.1 ∨ a.1 = b.1 ∧ (a.2.1 < b.2.1 ∨ a.2.1 = b.2.1 ∧ (a.2.2.1 < b.2.2.1 ∨ a.2.2.1 = b.2.2.1 ∧ a.2.2.2 < b.2.2.2))

theorem closer_wf : WellFounded Closer := by
  have lex := (Prod.lex Nat.lt_wfRel (Prod.lex Nat.lt_wfRel (Prod.lex Nat.lt_wfRel Nat.lt_wfRel))).wf
  refine Subrelation.wf (fun {a b} closer => ?_) lex
  exact Prod.lex_def.mpr (closer.imp_right fun rest => ⟨rest.1, Prod.lex_def.mpr (rest.2.imp_right fun rest =>
    ⟨rest.1, Prod.lex_def.mpr rest.2⟩)⟩)

end Rank

variable [DecidableEq K] {T : Template K V} {t t₀ : Table K V} {home : Home} {answer : Nat → HtRes V} {root : RemotePtr}
  {m m₀ : Mem K V} {pc : RehashPc K V}

/-- What a `try_rehash` that runs alone has done so far to the table `t₀` in the memory `m₀`. -/
def Resizing (T : Template K V) (t₀ : Table K V) (m₀ : Mem K V) (sets : List LinkedSet) (t : Table K V) (m : Mem K V) :
    RehashPc K V → Prop
  | .readRoot | .readBuckets _ => m = m₀ ∧ t = t₀ ∧ m.arrays m.root.bucketStart = some sets
  | .listLength _ buckets i totalElements => m = m₀ ∧ t = t₀ ∧ buckets = sets ∧ i ≤ sets.length ∧ totalElements = t₀.load i
  | .freeze _ buckets _ | .publish _ buckets => t = t₀ ∧ buckets = sets ∧ t₀.Full
  | .bucket buckets _ _ | .foreach buckets _ _ _ | .pairs buckets _ _ _ _ | .insert buckets _ _ _ _ _ _ _ =>
    buckets = sets ∧ t₀.Full ∧ Table.Adding T t₀ t
  | .melt buckets i => buckets = sets ∧ t₀.Full ∧ Table.Adding T t₀ t ∧ ∀ j set, j < i → sets[j]? = some set →
    m.locks set.lock = some .deleted

def Ended (T : Template K V) (t₀ : Table K V) (m₀ : Mem K V) (sets : List LinkedSet) (t : Table K V) (m : Mem K V) : Prop :=
  (¬ t₀.Full ∧ t = t₀ ∧ m = m₀) ∨ t₀.Full ∧ t = t₀.rehashed T ∧ ∀ set ∈ sets, m.locks set.lock = some .deleted

def GoesOn (T : Template K V) (t₀ : Table K V) (m₀ : Mem K V) (sets : List LinkedSet) (t : Table K V) (m : Mem K V)
    (pc : RehashPc K V) (t' : Table K V) (m' : Mem K V) : Option (RehashPc K V) → Prop
  | some pc' => Resizing T t₀ m₀ sets t' m' pc' ∧ Closer (pc'.rank t' m') (pc.rank t m)
  | none => Ended T t₀ m₀ sets t' m'

section Steps

variable {pool : Nat} {t' : Table K V} {m' : Mem K V} {next : Option (RehashPc K V)} {sets : List LinkedSet}

omit [DecidableEq K] in
theorem Represents.total {mine : RemotePtr → Prop} {p : RemotePtr} {b : Bundles K V} {n : Node K V}
    (rep : m.Represents mine p b) (notNull : p ≠ .null) (stored : m.nodes p = some n) : b.total = n.totalLength := by
  obtain ⟨l, path, rfl⟩ := rep
  cases l with
  | nil => exact absurd path notNull
  | cons head rest =>
    obtain ⟨r, n'⟩ := head
    obtain ⟨rfl, _, _, stored', _⟩ := path
    rw [stored] at stored'
    cases stored'
    rfl

theorem listLength_goes {hashtable : HashArray} {buckets : List LinkedSet} {i : Nat} {totalElements : Int}
    (inv : Inv T t home answer (solo root m (.resizing (.listLength hashtable buckets i totalElements))))
    (resizing : Resizing T t₀ m₀ sets t m (.listLength hashtable buckets i totalElements))
    (stepped : rehashStep T pool m (.listLength hashtable buckets i totalElements) = .ok (m', next))
    (effect : RehashEffect T t m m' (.listLength hashtable buckets i totalElements) t') :
    GoesOn T t₀ m₀ sets t m (.listLength hashtable buckets i totalElements) t' m' next := by
  obtain ⟨rfl, rfl, rfl, bound, rfl⟩ := resizing
  obtain ⟨_, ⟨rfl, stored⟩, _⟩ := inv.own
  have ground : Ground t home m := inv.ground
  obtain ⟨sets', stored', length, _⟩ := ground.shape.root
  obtain rfl : buckets = sets' := Option.some.inj (stored.symm.trans stored')
  cases effect
  have count := ground.count
  cases rehashStep_branch stepped with
  | few past few =>
    have end_ := List.getElem?_eq_none_iff.mp past
    obtain rfl : i = t.count := by omega
    rw [← count] at few
    exact .inl ⟨fun full => full few, rfl, rfl⟩
  | full past many =>
    have end_ := List.getElem?_eq_none_iff.mp past
    obtain rfl : i = t.count := by omega
    rw [← count] at many
    exact ⟨⟨rfl, rfl, many⟩, .inl (by decide : 3 < 4)⟩
  | listLength at_ found =>
    have here := m.bucketAt_eq_some.mpr ⟨buckets, stored, at_⟩
    obtain ⟨_, _, notNull⟩ := ground.shape.first here
    -- alone, the set is open, and an open set keeps its count in the first node
    have open_ := inv.unlocked here (by simp [Thread.Holds, Thread.frozen, RehashPc.frozen, Thread.set])
    have total := Represents.total (ground.opened here open_) notNull found
    have inside := (List.getElem?_eq_some_iff.mp at_).1
    refine ⟨⟨rfl, rfl, rfl, inside, ?_⟩, ?_⟩
    · rw [Table.load_succ, total]
    · unfold Closer RehashPc.rank
      dsimp only
      omega

theorem freeze_goes {hashtable : HashArray} {buckets : List LinkedSet} {i : Nat}
    (inv : Inv T t home answer (solo root m (.resizing (.freeze hashtable buckets i))))
    (resizing : Resizing T t₀ m₀ sets t m (.freeze hashtable buckets i))
    (stepped : rehashStep T pool m (.freeze hashtable buckets i) = .ok (m', next))
    (effect : RehashEffect T t m m' (.freeze hashtable buckets i) t') :
    GoesOn T t₀ m₀ sets t m (.freeze hashtable buckets i) t' m' next := by
  obtain ⟨rfl, rfl, full⟩ := resizing
  obtain ⟨_, ⟨rfl, stored⟩, _⟩ := inv.own
  have ground : Ground t home m := inv.ground
  cases effect
  cases rehashStep_branch stepped with
  | frozen => exact ⟨⟨rfl, rfl, full⟩, .inl (by decide : 2 < 3)⟩
  | freezes at_ =>
    have inside := (List.getElem?_eq_some_iff.mp at_).1
    refine ⟨⟨rfl, rfl, full⟩, ?_⟩
    unfold Closer RehashPc.rank
    dsimp only
    omega
  | @waits _ _ _ set w at_ word taken =>
    -- no thread but this one has locks, and it has locked the buckets before `i` only
    have here := m.bucketAt_eq_some.mpr ⟨buckets, stored, at_⟩
    have open_ : m.locks set.lock = some .unlocked := by
      refine inv.unlocked here fun holds => ?_
      obtain ⟨set', member, same⟩ := (holds_resizing rfl).mp holds
      obtain ⟨j, inTake⟩ := List.mem_iff_getElem?.mp member
      rw [RehashPc.frozen, List.getElem?_take] at inTake
      split at inTake
      · next less =>
        have place := ground.shape.same_place here (m.bucketAt_eq_some.mpr ⟨buckets, stored, inTake⟩) same
        omega
      · cases inTake
    exact absurd (Option.some.inj (word.symm.trans open_)) taken

omit [DecidableEq K] in
theorem left_lt {mine : RemotePtr → Prop} {r : RemotePtr} {n : Node K V} {l : List (RemotePtr × Node K V)} {p : RemotePtr}
    (shape : Shape home m) (path : m.Path mine p ((r, n) :: l) .null) : left m.next n.next < left m.next p := by
  obtain ⟨rfl, notNull, _, stored, grows, _⟩ := path
  have low := shape.nodes_lt r (by simp [stored])
  unfold left
  rw [if_neg notNull]
  split
  · omega
  · next more =>
    have further := grows more
    omega

theorem foreach_goes {buckets : List LinkedSet} {new : HashArray} {i : Nat} {node : RemotePtr}
    (inv : Inv T t home answer (solo root m (.resizing (.foreach buckets new i node))))
    (resizing : Resizing T t₀ m₀ sets t m (.foreach buckets new i node))
    (stepped : rehashStep T pool m (.foreach buckets new i node) = .ok (m', next))
    (effect : RehashEffect T t m m' (.foreach buckets new i node) t') :
    GoesOn T t₀ m₀ sets t m (.foreach buckets new i node) t' m' next := by
  obtain ⟨_, bound, a, _, l, later, path, _⟩ := inv.own
  cases effect
  cases rehashStep_branch stepped with
  | chainEnd =>
    refine ⟨resizing, ?_⟩
    unfold Closer RehashPc.rank
    dsimp only
    omega
  | @node _ _ _ _ data notNull found =>
    cases l with
    | nil => exact absurd path notNull
    | cons head l =>
      obtain ⟨r, n⟩ := head
      have nearer := left_lt (show Shape home m from inv.ground.shape) path
      obtain ⟨rfl, _, _, stored, _⟩ := path
      obtain rfl : n = data := Option.some.inj (stored.symm.trans found)
      refine ⟨resizing, ?_⟩
      unfold Closer RehashPc.rank
      dsimp only
      omega

theorem pairs_goes {buckets : List LinkedSet} {new : HashArray} {i : Nat} {after : RemotePtr} {rest : List (Pair K V)}
    (resizing : Resizing T t₀ m₀ sets t m (.pairs buckets new i after rest))
    (stepped : rehashStep T pool m (.pairs buckets new i after rest) = .ok (m', next))
    (effect : RehashEffect T t m m' (.pairs buckets new i after rest) t') :
    GoesOn T t₀ m₀ sets t m (.pairs buckets new i after rest) t' m' next := by
  cases effect
  cases rehashStep_branch stepped with
  | nodeEnd =>
    refine ⟨resizing, ?_⟩
    unfold Closer RehashPc.rank
    dsimp only
    omega
  | pair =>
    refine ⟨resizing, ?_⟩
    unfold Closer RehashPc.rank
    simp [SetPc.inside]

theorem insert_goes {buckets : List LinkedSet} {new : HashArray} {i : Nat} {after : RemotePtr} {pair : Pair K V}
    {rest : List (Pair K V)} {set : LinkedSet} {pc : SetPc K V}
    (inv : Inv T t home answer (solo root m (.resizing (.insert buckets new i after pair rest set pc))))
    (resizing : Resizing T t₀ m₀ sets t m (.insert buckets new i after pair rest set pc))
    (stepped : rehashStep T pool m (.insert buckets new i after pair rest set pc) = .ok (m', next))
    (effect : RehashEffect T t m m' (.insert buckets new i after pair rest set pc) t') :
    GoesOn T t₀ m₀ sets t m (.insert buckets new i after pair rest set pc) t' m' next := by
  obtain ⟨rfl, full, adding⟩ := resizing
  obtain ⟨_, _, here, at_, a, old, later, _, split⟩ := inv.own
  have ground : Ground t home m := inv.ground
  have open_ : pc.inside = false → m.locks set.lock = some .unlocked := by
    intro outside
    refine inv.unlocked here fun holds => ?_
    rcases holds_insert.mp holds with ⟨set', member, same⟩ | ⟨inside, _⟩
    · exact old.away ground.shape _ set' member (same ▸ (ground.shape.lock here).1)
    · rw [outside] at inside
      cases inside
  -- with no one else running the lock is free: the insert neither waits nor meets a retired set
  cases at_.step pool ground with
  | spin _ spins =>
    simp [setStep, Mem.compareAndSwap, open_ rfl] at spins
  | deleted _ word _ =>
    rw [open_ rfl] at word
    cases word
  | win _ word went =>
    simp only [rehashStep, went] at stepped
    cases stepped
    cases effect with
    | keep waits =>
      have same := congrFun (congrArg Mem.locks (waits rfl)) set.lock
      simp [Mem.locks_setLock, word] at same
    -- the exchange that wins the lock is the step in which the pair comes back into the table
    | readd first =>
      refine ⟨⟨rfl, full, adding.readd first⟩, ?_⟩
      have nearer := walk_rank_lt m set.first set.lock .locked
      unfold Closer RehashPc.rank
      simp only [Table.readd, first, List.length_cons, SetPc.inside]
      exact .inr ⟨trivial, .inr ⟨rfl, .inr ⟨trivial, nearer⟩⟩⟩
  | keeps section_ keeps =>
    obtain ⟨home', m₁, pc', went, outcome, _, _⟩ := keeps
    have nearer := section_.2.2.2.rank_lt ground.shape.allocated went
    have inside := section_.2.2.2.inside
    simp only [rehashStep, went] at stepped
    cases stepped
    cases effect with
    | readd => cases inside
    | keep =>
      refine ⟨⟨rfl, full, adding⟩, ?_⟩
      unfold Closer RehashPc.rank
      simp only [inside, outcome.inside]
      exact .inr ⟨trivial, .inr ⟨trivial, .inr ⟨trivial, nearer⟩⟩⟩
  | unlock section_ went rep =>
    simp only [rehashStep, went] at stepped
    cases stepped
    cases effect
    refine ⟨⟨rfl, full, adding⟩, ?_⟩
    unfold Closer RehashPc.rank
    simp [SetPc.inside]

theorem bucket_goes {buckets : List LinkedSet} {new : HashArray} {i : Nat}
    (resizing : Resizing T t₀ m₀ sets t m (.bucket buckets new i))
    (stepped : rehashStep T pool m (.bucket buckets new i) = .ok (m', next))
    (effect : RehashEffect T t m m' (.bucket buckets new i) t') :
    GoesOn T t₀ m₀ sets t m (.bucket buckets new i) t' m' next := by
  obtain ⟨rfl, full, adding⟩ := resizing
  cases effect
  cases rehashStep_branch stepped with
  | added => exact ⟨⟨rfl, full, adding, fun j set before => absurd before (Nat.not_lt_zero j)⟩, .inl (by decide : 0 < 1)⟩
  | bucket at_ =>
    have inside := (List.getElem?_eq_some_iff.mp at_).1
    refine ⟨⟨rfl, full, adding⟩, ?_⟩
    unfold Closer RehashPc.rank
    dsimp only
    omega

theorem melt_goes {buckets : List LinkedSet} {i : Nat}
    (inv : Inv T t home answer (solo root m (.resizing (.melt buckets i))))
    (resizing : Resizing T t₀ m₀ sets t m (.melt buckets i))
    (stepped : rehashStep T pool m (.melt buckets i) = .ok (m', next))
    (effect : RehashEffect T t m m' (.melt buckets i) t') :
    GoesOn T t₀ m₀ sets t m (.melt buckets i) t' m' next := by
  obtain ⟨rfl, full, adding, melted⟩ := resizing
  obtain ⟨_, settled, _⟩ := inv.own
  cases effect
  cases rehashStep_branch stepped with
  | melted past =>
    refine .inr ⟨full, adding.done settled, fun set member => ?_⟩
    obtain ⟨j, at_⟩ := List.mem_iff_getElem?.mp member
    refine melted j set ?_ at_
    have inside := (List.getElem?_eq_some_iff.mp at_).1
    have end_ := List.getElem?_eq_none_iff.mp past
    omega
  | melts at_ =>
    refine ⟨⟨rfl, full, adding, fun j set' before at_' => ?_⟩, ?_⟩
    · rw [Mem.locks_setLock]
      split
      · rfl
      · next other =>
        refine melted j set' (Nat.lt_of_le_of_ne (Nat.le_of_lt_succ before) ?_) at_'
        rintro rfl
        rw [at_] at at_'
        cases at_'
        exact other rfl
    · have inside := (List.getElem?_eq_some_iff.mp at_).1
      unfold Closer RehashPc.rank
      dsimp only
      omega

end Steps

namespace Inv

variable {sets : List LinkedSet}

theorem solo_rehash (pool : Nat) (inv : Inv T t home answer (solo root m (.resizing pc)))
    (resizing : Resizing T t₀ m₀ sets t m pc) (small : t₀.Full → t₀.count * 2 < 2 ^ 31) :
    ∃ t' home' answer' m' next, rehashStep T pool m pc = .ok (m', next) ∧
      Inv T t' home' answer' (solo root m' (.resume next)) ∧ GoesOn T t₀ m₀ sets t m pc t' m' next := by
  have ground : Ground t home m := inv.ground
  -- the step that replaces the root has an invariant lemma of its own
  by_cases inner : ∀ hashtable buckets, pc ≠ .publish hashtable buckets
  · obtain ⟨q, t', home', m', res', next, stepped, sound, effect⟩ := rehash_sound pool ground inv.own inner
    refine ⟨t', home', _, m', next, stepped, inv.solo_sound sound, ?_⟩
    cases pc with
    | readRoot =>
      obtain ⟨rfl, rfl, stored⟩ := resizing
      cases effect
      cases rehashStep_branch stepped
      exact ⟨⟨rfl, rfl, stored⟩, .inl (by decide : 5 < 6)⟩
    | readBuckets hashtable =>
      obtain ⟨rfl, rfl, stored⟩ := resizing
      obtain ⟨_, rfl, _⟩ := inv.own
      obtain ⟨sets', stored', length, _⟩ := ground.shape.root
      obtain rfl : sets = sets' := Option.some.inj (stored.symm.trans stored')
      cases effect
      cases rehashStep_branch stepped with
      | readBuckets found =>
        cases found.symm.trans stored
        exact ⟨⟨rfl, rfl, by rw [← length, List.take_length], Nat.zero_le _, rfl⟩, .inl (by decide : 4 < 5)⟩
    | listLength => exact listLength_goes inv resizing stepped effect
    | freeze => exact freeze_goes inv resizing stepped effect
    | publish hashtable buckets => exact absurd rfl (inner hashtable buckets)
    | bucket => exact bucket_goes resizing stepped effect
    | foreach => exact foreach_goes inv resizing stepped effect
    | pairs => exact pairs_goes resizing stepped effect
    | insert => exact insert_goes inv resizing stepped effect
    | melt => exact melt_goes inv resizing stepped effect
  · push Not at inner
    obtain ⟨hashtable, buckets, rfl⟩ := inner
    obtain ⟨rfl, rfl, full⟩ := resizing
    obtain ⟨_, ⟨rfl, _⟩, _⟩ := inv.own
    have less : m.root.count * 2 < 2 ^ 31 := ground.count ▸ small full
    obtain ⟨settled, after⟩ := inv.publish pool (solo root (m.publish pool (m.root.count * 2))
      (.resizing (.bucket buckets (m.newArray pool (m.root.count * 2)).1 0))) (c := 0) (solo_self _ _ _) rfl
      (solo_threads root m _ _ _)
    refine ⟨_, _, _, m.publish pool (m.root.count * 2),
      some (.bucket buckets (m.newArray pool (m.root.count * 2)).1 0), ?_, after, ⟨rfl, full, [], rfl, rfl⟩, .inl (by decide : 1 < 2)⟩
    simp only [rehashStep, if_pos less]
    rfl

theorem finishRehash (pool : Nat) (small : t₀.Full → t₀.count * 2 < 2 ^ 31)
    (inv : Inv T t home answer (solo root m (.resizing pc))) (resizing : Resizing T t₀ m₀ sets t m pc) :
    ∃ fuel t' m' home' answer', Hashtable.finishRehash T pool fuel m pc = .ok m' ∧
      Inv T t' home' answer' (solo root m' .idle) ∧ Ended T t₀ m₀ sets t' m' := by
  generalize size : pc.rank t m = n
  induction n using closer_wf.induction generalizing t home answer m pc with
  | h n ih =>
    obtain ⟨t', home', answer', m', next, stepped, inv', goes⟩ := inv.solo_rehash pool resizing small
    cases next with
    | none => exact ⟨1, t', m', home', answer', by simp only [Hashtable.finishRehash, stepped], inv', goes⟩
    | some pc' =>
      obtain ⟨fuel, t'', m'', home'', answer'', done, after⟩ := ih _ (size ▸ goes.2) inv' goes.1 rfl
      exact ⟨fuel + 1, t'', m'', home'', answer'', by simp only [Hashtable.finishRehash, stepped]; exact done, after⟩

end Inv

end RdmaIht.Hashtable
