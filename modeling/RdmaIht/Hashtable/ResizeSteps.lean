import RdmaIht.Hashtable.Steps

/-! The steps of `try_rehash`, except the one that publishes the new root.

A resize freezes the buckets of the root one by one and, once the new root is
published, takes the pairs of the old buckets from the table's pending pairs one
by one, each when it has won the lock of the pair's new bucket.
-/

set_option autoImplicit false

namespace RdmaIht.Hashtable

variable {K V : Type} [DecidableEq K] {T : Template K V} {t : Table K V} {home : Home} {m : Mem K V} {res : HtRes V}

def Thread.resume : Option (RehashPc K V) → Thread K V
  | some pc => .resizing pc
  | none => .idle

def RehashPc.adds : RehashPc K V → Bool
  | .insert _ _ _ _ _ _ _ .acquire => true
  | _ => false

/-- What a step of a resize means for the table: a pair is added when the lock of its bucket is won. -/
inductive RehashEffect (T : Template K V) (t : Table K V) (m m' : Mem K V) : RehashPc K V → Table K V → Prop where
  | keep {pc : RehashPc K V} (waits : pc.adds = true → m' = m) : RehashEffect T t m m' pc t
  | readd {buckets : List LinkedSet} {new : HashArray} {i : Nat} {next : RemotePtr} {pair : Pair K V}
      {rest later : List (Pair K V)} {set : LinkedSet} (first : t.pending = pair :: later) :
      RehashEffect T t m m' (.insert buckets new i next pair rest set .acquire) (t.readd T pair later)

def RehashSound (T : Template K V) (self : Nat) (t : Table K V) (home : Home) (m : Mem K V) (pc : RehashPc K V) : Prop :=
  ∃ q t' home' m' res' next, rehashStep T self m pc = .ok (m', next) ∧
    Sound T q t home m (.resizing pc) t' home' m' res' (.resume next) ∧ RehashEffect T t m m' pc t'

omit [DecidableEq K] in
theorem holds_resizing {pc : RehashPc K V} (outside : (Thread.resizing pc).set = none) {p : RemotePtr} :
    (Thread.resizing pc).Holds p ↔ ∃ set ∈ pc.frozen, p = set.lock := by
  simp [Thread.Holds, Thread.frozen, outside]

theorem RehashSound.quiet {self : Nat} (res : HtRes V) (pc' : RehashPc K V) (shape : Shape home m) {pc : RehashPc K V}
    (stepped : rehashStep T self m pc = .ok (m, some pc')) (frozen : pc'.frozen = pc.frozen)
    (outside : ∀ set pc'', (Thread.resizing pc').set = some (set, pc'') → pc''.inside = false)
    (outside' : ∀ set pc'', (Thread.resizing pc).set = some (set, pc'') → pc''.inside = false)
    (locked : ∀ set ∈ pc.frozen, m.locks set.lock = some .locked) (inv : RehashInv T t home m res pc') :
    RehashSound T self t home m pc := by
  refine ⟨_, t, home, m, res, some pc', stepped, .quiet shape ⟨by rw [frozen]; exact locked, inv⟩ ?_ ?_, .keep fun _ => rfl⟩
  · intro p
    have idle : ∀ {pc : RehashPc K V}, (∀ set pc'', (Thread.resizing pc).set = some (set, pc'') → pc''.inside = false) →
        ((Thread.resizing pc).Holds p ↔ ∃ set ∈ pc.frozen, p = set.lock) := by
      intro pc never
      simp only [Thread.Holds, Thread.frozen]
      constructor
      · rintro (frozen | ⟨set, pc'', at_, inside, _⟩)
        · exact frozen
        · rw [never set pc'' at_] at inside
          cases inside
      · exact .inl
    simp only [Thread.resume]
    rw [idle outside, idle outside', frozen]
  · intro done _
    exact absurd rfl (done pc')

theorem RehashSound.finish {self : Nat} (shape : Shape home m) {pc : RehashPc K V}
    (stepped : rehashStep T self m pc = .ok (m, none)) (outside : (Thread.resizing pc).set = none)
    (nothing : pc.frozen = []) (settled : t.pending = []) : RehashSound T self t home m pc := by
  refine ⟨_, t, home, m, ⟨.falseState, T.zero⟩, none, stepped, .quiet shape trivial ?_ fun _ _ => settled, .keep fun _ => rfl⟩
  intro p
  rw [holds_resizing outside, nothing]
  simp [Thread.resume, not_holds_idle]

omit [DecidableEq K] in
theorem Rest.from_ {a : RemotePtr} {buckets : List LinkedSet} {i : Nat} {pairs : List (Pair K V)}
    (rest : Rest home m a buckets i pairs) {set : LinkedSet} (at_ : buckets[i]? = some set) :
    From home m a buckets i set.first pairs := by
  obtain ⟨old, reps, rfl⟩ := rest
  obtain ⟨l, path, shown⟩ := reps i set (Nat.le_refl _) at_
  have bound := (List.getElem?_eq_some_iff.mp at_).1
  refine ⟨l, _, path, ⟨old, fun j set' later at_' => reps j set' (by omega) at_', rfl⟩, ?_⟩
  have split : buckets.length - i = (buckets.length - (i + 1)) + 1 := by omega
  rw [split, List.range'_succ, List.flatMap_cons, ← shown]
  simp [Bundles.pairs, contents_nodes, List.flatMap_def]

section Steps

variable (self : Nat) (ground : Ground t home m)

include ground

section Reading

theorem readRoot_sound (inv : RehashInv T t home m res .readRoot) : RehashSound T self t home m .readRoot :=
  .quiet res (.readBuckets m.root) ground.shape rfl rfl (by simp [Thread.set]) (by simp [Thread.set]) (by simp [RehashPc.frozen])
    (⟨rfl, inv⟩ : RehashInv T t home m res (.readBuckets m.root))

theorem readBuckets_sound {hashtable : HashArray} (inv : RehashInv T t home m res (.readBuckets hashtable)) :
    RehashSound T self t home m (.readBuckets hashtable) := by
  obtain ⟨rfl, settled⟩ := inv
  obtain ⟨sets, stored, length, _⟩ := ground.shape.root
  refine .quiet res (.listLength m.root sets 0 0) ground.shape ?_ rfl (by simp [Thread.set])
    (by simp [Thread.set]) (by simp [RehashPc.frozen]) ⟨⟨rfl, stored⟩, settled⟩
  simp only [rehashStep, stored]
  rw [if_pos (Nat.le_of_eq length.symm), ← length, List.take_length]

theorem listLength_sound {hashtable : HashArray} {buckets : List LinkedSet} {i : Nat} {totalElements : Int}
    (inv : RehashInv T t home m res (.listLength hashtable buckets i totalElements)) :
    RehashSound T self t home m (.listLength hashtable buckets i totalElements) := by
  obtain ⟨current, settled⟩ := inv
  cases at_ : buckets[i]? with
  | none =>
    by_cases few : totalElements < hashtable.count * 10
    · exact .finish ground.shape (by simp only [rehashStep, at_, if_pos few]) rfl rfl settled
    · refine .quiet res (.freeze hashtable buckets 0) ground.shape
        (by simp only [rehashStep, at_, if_neg few]) (by simp [RehashPc.frozen]) (by simp [Thread.set]) (by simp [Thread.set])
        (by simp [RehashPc.frozen]) ⟨current, settled, fun j set before => absurd before (Nat.not_lt_zero _)⟩
  | some set =>
    obtain ⟨n, stored⟩ := Option.ne_none_iff_exists'.mp
      (ground.shape.first (m.bucketAt_eq_some.mpr ⟨buckets, current.2, at_⟩)).2.1
    exact .quiet res (.listLength hashtable buckets (i + 1) (totalElements + n.totalLength.toInt))
      ground.shape (by simp only [rehashStep, at_, stored]) rfl (by simp [Thread.set]) (by simp [Thread.set])
      (by simp [RehashPc.frozen]) ⟨current, settled⟩

end Reading

section Freezing

theorem freeze_sound {hashtable : HashArray} {buckets : List LinkedSet} {i : Nat}
    (locked : ∀ set ∈ buckets.take i, m.locks set.lock = some .locked)
    (inv : RehashInv T t home m res (.freeze hashtable buckets i)) :
    RehashSound T self t home m (.freeze hashtable buckets i) := by
  obtain ⟨current, settled, reps⟩ := inv
  cases at_ : buckets[i]? with
  | none =>
    have all : buckets.take i = buckets := List.take_of_length_le (List.getElem?_eq_none_iff.mp at_)
    refine .quiet res (.publish hashtable buckets) ground.shape (by simp only [rehashStep, at_])
      (by simp [RehashPc.frozen, all]) (by simp [Thread.set]) (by simp [Thread.set]) locked
      ⟨current, settled, fun j set at_' => reps j set ?_ at_'⟩
    have bound := (List.getElem?_eq_some_iff.mp at_').1
    have past := List.getElem?_eq_none_iff.mp at_
    omega
  | some set =>
    have here := m.bucketAt_eq_some.mpr ⟨buckets, current.2, at_⟩
    obtain ⟨w, word⟩ := Option.ne_none_iff_exists'.mp (ground.shape.lock here).2
    cases w with
    | deleted => exact absurd word (ground.live here)
    | locked =>
      -- the swap is tried again
      exact .quiet res (.freeze hashtable buckets i) ground.shape
        (by simp [rehashStep, at_, Mem.compareAndSwap, word]) rfl (by simp [Thread.set]) (by simp [Thread.set]) locked
        ⟨current, settled, reps⟩
    | unlocked =>
      have grown : buckets.take (i + 1) = buckets.take i ++ [set] := by
        rw [List.take_add_one, at_]
        rfl
      refine ⟨_, t, home, m.setLock set.lock .locked, res, some (.freeze hashtable buckets (i + 1)),
        by simp [rehashStep, at_, Mem.compareAndSwap, word], .win ground here word rfl (fun _ _ => rfl)
          (fun _ => rfl) (.inl ⟨_, rfl⟩) ?_ ⟨?_, ?_⟩, .keep fun adds => by cases adds⟩
      · intro p
        simp only [Thread.resume]
        rw [holds_resizing rfl, holds_resizing rfl]
        simp only [RehashPc.frozen, grown, List.mem_append, List.mem_singleton]
        constructor
        · rintro ⟨set', member | rfl, same⟩
          · exact .inl ⟨set', member, same⟩
          · exact .inr same
        · rintro (⟨set', member, same⟩ | same)
          · exact ⟨set', .inl member, same⟩
          · exact ⟨set, .inr rfl, same⟩
      · intro set' member
        rw [Mem.locks_setLock]
        split
        · rfl
        · next other =>
          simp only [RehashPc.frozen, grown, List.mem_append, List.mem_singleton] at member
          rcases member with old | rfl
          · exact locked set' old
          · exact absurd rfl other
      · refine ⟨current, settled, fun j set' before at_' => ?_⟩
        -- nobody was in bucket `i`, so it holds what the table says
        have rep : m.Represents (home · = (m.root.bucketStart, j)) set'.first (t.buckets j) := by
          by_cases last : j = i
          · subst last
            rw [at_] at at_'
            cases at_'
            exact ground.opened here word
          · exact reps j set' (by omega) at_'
        exact rep.frame fun r own _ => ⟨rfl, own⟩

end Freezing

section Adding

theorem bucket_sound {buckets : List LinkedSet} {new : HashArray} {i : Nat}
    (locked : ∀ set ∈ buckets, m.locks set.lock = some .locked)
    (inv : RehashInv T t home m res (.bucket buckets new i)) :
    RehashSound T self t home m (.bucket buckets new i) := by
  obtain ⟨a, old, rest⟩ := inv
  cases at_ : buckets[i]? with
  | none =>
    obtain ⟨_, _, none⟩ := rest
    have past : buckets.length - i = 0 := Nat.sub_eq_zero_of_le (List.getElem?_eq_none_iff.mp at_)
    rw [past] at none
    refine .quiet res (.melt buckets 0) ground.shape (by simp only [rehashStep, at_]) rfl
      (by simp [Thread.set]) (by simp [Thread.set]) locked ⟨none, a, ?_⟩
    obtain ⟨_, away, stored⟩ := old
    exact ⟨rfl, away, stored⟩
  | some set =>
    exact .quiet res (.foreach buckets new i set.first) ground.shape (by simp only [rehashStep, at_])
      rfl (by simp [Thread.set]) (by simp [Thread.set]) locked
      ⟨(List.getElem?_eq_some_iff.mp at_).1, a, old, rest.from_ at_⟩

theorem foreach_sound {buckets : List LinkedSet} {new : HashArray} {i : Nat} {node : RemotePtr}
    (locked : ∀ set ∈ buckets, m.locks set.lock = some .locked)
    (inv : RehashInv T t home m res (.foreach buckets new i node)) :
    RehashSound T self t home m (.foreach buckets new i node) := by
  obtain ⟨bound, a, old, l, later, path, rest, split⟩ := inv
  cases l with
  | nil =>
    have last : node = .null := path
    refine .quiet res (.bucket buckets new (i + 1)) ground.shape (by simp only [rehashStep, if_pos last])
      rfl (by simp [Thread.set]) (by simp [Thread.set]) locked ⟨a, old, ?_⟩
    rw [split]
    exact rest
  | cons head l =>
    obtain ⟨r, n⟩ := head
    obtain ⟨rfl, notNull, _, stored, _, tail⟩ := path
    refine .quiet res (.pairs buckets new i n.next n.pairs) ground.shape
      (by simp only [rehashStep, if_neg notNull, stored]) rfl (by simp [Thread.set]) (by simp [Thread.set]) locked
      ⟨bound, a, old, _, ⟨l, later, tail, rest, rfl⟩, ?_⟩
    rw [split, List.flatMap_cons, List.append_assoc]

theorem pairs_sound {buckets : List LinkedSet} {new : HashArray} {i : Nat} {next : RemotePtr} {rest : List (Pair K V)}
    (locked : ∀ set ∈ buckets, m.locks set.lock = some .locked)
    (inv : RehashInv T t home m res (.pairs buckets new i next rest)) :
    RehashSound T self t home m (.pairs buckets new i next rest) := by
  obtain ⟨bound, a, old, later, from_, split⟩ := inv
  cases rest with
  | nil =>
    refine .quiet res (.foreach buckets new i next) ground.shape rfl rfl (by simp [Thread.set])
      (by simp [Thread.set]) locked ⟨bound, a, old, ?_⟩
    rw [split]
    exact from_
  | cons pair rest =>
    obtain ⟨sets, stored, length, positive⟩ := ground.shape.root
    have inside : T.keyhash pair.key sets.length < sets.length := T.keyhash_lt pair.key (by omega)
    have inArray : sets[T.keyhash pair.key sets.length]? = some sets[T.keyhash pair.key sets.length] :=
      List.getElem?_eq_getElem inside
    have here : m.bucketAt m.root.bucketStart (T.keyhash pair.key t.count) =
        some sets[T.keyhash pair.key sets.length] := by
      rw [ground.count, ← length]
      exact m.bucketAt_eq_some.mpr ⟨sets, stored, inArray⟩
    obtain ⟨rfl, _, _⟩ := id old
    refine .quiet res (.insert buckets m.root i next pair rest sets[T.keyhash pair.key sets.length] .acquire)
      ground.shape ?_ rfl
      (by simp [Thread.set, SetPc.inside]) (by simp [Thread.set]) locked
      ⟨bound, here, .inl ⟨rfl, _, sets, stored, inArray⟩, a, old, later, from_, by simpa [SetPc.inside] using split⟩
    rw [ground.count] at here
    simp only [rehashStep, here]

omit [DecidableEq K] ground in
theorem Old.away (shape : Shape home m) {new : HashArray} {a : RemotePtr} {buckets : List LinkedSet}
    (old : Old m new a buckets) (i : Nat) : ∀ set ∈ buckets, home set.lock ≠ (m.root.bucketStart, i) := by
  intro set member here
  obtain ⟨j, at_⟩ := bucketAt_of_mem old.2.2 member
  rw [(shape.lock at_).1] at here
  cases here
  exact old.2.1 rfl

theorem insert_inv {t' : Table K V} {home' : Home} {m' : Mem K V} {res' : HtRes V} {buckets : List LinkedSet}
    {new : HashArray} {i : Nat} {next : RemotePtr} {pair : Pair K V} {rest : List (Pair K V)} {set : LinkedSet}
    {pc' : SetPc K V} {a : RemotePtr} {later : List (Pair K V)} {index : Nat}
    (change : Change (m.root.bucketStart, index) home m home' m')
    (locked : ∀ set ∈ buckets, m.locks set.lock = some .locked) (bound : i < buckets.length) (old : Old m new a buckets)
    (from_ : From home m a buckets i next later) (count : t'.count = t.count)
    (here : m.bucketAt m.root.bucketStart (T.keyhash pair.key t.count) = some set)
    (section_ : InSection T t' home' m' res' set (.insert pair.key pair.val) pc')
    (split : t'.pending = rest ++ later) :
    ThreadInv T t' home' m' res' (.resizing (.insert buckets new i next pair rest set pc')) := by
  have away := old.away ground.shape index
  refine ⟨fun set' member => ?_, bound, ?_, .inr section_, a, old.stable change, later,
    from_.stable change ground.shape old.2.2 away bound, ?_⟩
  · rw [change.locks _ (away set' member)]
    exact locked set' member
  · rw [change.bucketAt, change.root, count]
    exact here
  · rw [section_.2.2.2.inside]
    exact split

omit [DecidableEq K] ground in
theorem holds_insert {buckets : List LinkedSet} {new : HashArray} {i : Nat} {next : RemotePtr} {pair : Pair K V}
    {rest : List (Pair K V)} {set : LinkedSet} {pc : SetPc K V} {p : RemotePtr} :
    (Thread.resizing (.insert buckets new i next pair rest set pc)).Holds p ↔
      (∃ set ∈ buckets, p = set.lock) ∨ pc.inside = true ∧ p = set.lock := by
  simp [Thread.Holds, Thread.frozen, RehashPc.frozen, Thread.set]

theorem insert_sound {buckets : List LinkedSet} {new : HashArray} {i : Nat} {next : RemotePtr} {pair : Pair K V}
    {rest : List (Pair K V)} {set : LinkedSet} {pc : SetPc K V}
    (locked : ∀ set ∈ buckets, m.locks set.lock = some .locked)
    (inv : RehashInv T t home m res (.insert buckets new i next pair rest set pc)) :
    RehashSound T self t home m (.insert buckets new i next pair rest set pc) := by
  obtain ⟨bound, here, at_, a, old, later, from_, split⟩ := inv
  cases at_.step self ground with
  | spin found stepped =>
    exact .quiet res (.insert buckets new i next pair rest set .acquire) ground.shape
      (by simp only [rehashStep, stepped]) rfl (by simp [Thread.set, SetPc.inside]) (by simp [Thread.set, SetPc.inside])
      locked ⟨bound, here, .inl ⟨rfl, found⟩, a, old, later, from_, split⟩
  | deleted found word stepped => exact absurd word (ground.live here)
  | win _ open_ stepped =>
    -- the pair is no longer pending
    have next_ : t.pending = pair :: (rest ++ later) := by simpa [SetPc.inside] using split
    have start := InSection.start (.insert pair.key pair.val) (t.readd T pair (rest ++ later)) ground here
      open_ rfl (by simp [Table.readd, Table.apply, IhtOp.key])
    have change : Change (m.root.bucketStart, T.keyhash pair.key t.count) home m home (m.setLock set.lock .locked) :=
      .setLock (ground.shape.lock here).1 (ground.shape.lock here).2 (by simp)
    refine ⟨_, t.readd T pair (rest ++ later), home, m.setLock set.lock .locked, _,
      some (.insert buckets new i next pair rest set (.walk set.first)), by simp only [rehashStep, stepped],
      .win ground here open_ rfl ?_ (fun never => absurd rfl (never _)) (.inl ⟨_, rfl⟩) ?_
        (insert_inv ground change locked bound old from_ rfl here start rfl), .readd next_⟩
    · intro j away
      simp only [Table.readd, Table.apply, IhtOp.key]
      rw [Function.update_of_ne away]
    · intro p
      simp only [Thread.resume]
      rw [holds_insert, holds_insert]
      simp [SetPc.inside]
  | keeps section_ keeps =>
    obtain ⟨home', m', pc', stepped, outcome, change, locks⟩ := keeps
    have inside := section_.2.2.2.inside
    have inside' := outcome.inside
    rw [inside] at split
    refine ⟨_, t, home', m', res, some (.insert buckets new i next pair rest set pc'),
      by simp only [rehashStep, stepped], .inside ground section_.1 section_.2.1 change locks ?_ ?_ (.inl ⟨_, rfl⟩)
        (insert_inv ground change locked bound old from_ rfl here (section_.change change locks outcome) split), .keep ?_⟩
    · exact holds_insert.mpr (.inr ⟨inside, rfl⟩)
    · intro p
      simp only [Thread.resume]
      rw [holds_insert, holds_insert, inside, inside']
    · intro adds
      unfold RehashPc.adds at adds
      split at adds
      · next same =>
        cases same
        cases inside
      · cases adds
  | unlock section_ stepped rep =>
    have change : Change (m.root.bucketStart, T.keyhash pair.key t.count) home m home (m.setLock set.lock .unlocked) :=
      .setLock (ground.shape.lock here).1 (ground.shape.lock here).2 fun _ => rfl
    have away := old.away ground.shape (T.keyhash pair.key t.count)
    refine ⟨_, t, home, m.setLock set.lock .unlocked, res, some (.pairs buckets new i next rest),
      by simp only [rehashStep, stepped], .release ground section_.1 rep (holds_insert.mpr (.inr ⟨rfl, rfl⟩)) ?_
        (.inl ⟨_, rfl⟩) ⟨fun set' member => ?_, bound, a, old.stable change, later,
          from_.stable change ground.shape old.2.2 away bound, split⟩, .keep fun adds => by cases adds⟩
    · intro p
      simp only [Thread.resume]
      rw [holds_insert, holds_resizing rfl]
      simp [SetPc.inside, RehashPc.frozen]
    · rw [change.locks _ (away set' member)]
      exact locked set' member

end Adding

theorem melt_sound {buckets : List LinkedSet} {i : Nat} (locked : ∀ set ∈ buckets.drop i, m.locks set.lock = some .locked)
    (inv : RehashInv T t home m res (.melt buckets i)) : RehashSound T self t home m (.melt buckets i) := by
  obtain ⟨settled, a, old⟩ := inv
  cases at_ : buckets[i]? with
  | none =>
    have past : buckets.drop i = [] := List.drop_of_length_le (List.getElem?_eq_none_iff.mp at_)
    exact .finish ground.shape (by simp only [rehashStep, at_]) rfl past settled
  | some set =>
    have here := m.bucketAt_eq_some.mpr ⟨buckets, old.2.2, at_⟩
    obtain ⟨own, stored⟩ := ground.shape.lock here
    obtain ⟨w, word⟩ := Option.ne_none_iff_exists'.mp stored
    have change : Change (a, i) home m home (m.setLock set.lock .deleted) := .setLock own stored (by simp)
    have front : buckets.drop i = set :: buckets.drop (i + 1) := by
      obtain ⟨bound, rfl⟩ := List.getElem?_eq_some_iff.mp at_
      exact List.drop_eq_getElem_cons bound
    have holds : ∀ p, (Thread.resizing (.melt buckets i) : Thread K V).Holds p ↔
        p = set.lock ∨ ∃ set' ∈ buckets.drop (i + 1), p = set'.lock := by
      intro p
      rw [holds_resizing rfl]
      simp [RehashPc.frozen, front]
    -- the buckets that are still to be melted are others
    have later : ∀ set' ∈ buckets.drop (i + 1), set'.lock ≠ set.lock := by
      intro set' member same
      obtain ⟨j, inDrop⟩ := List.mem_iff_getElem?.mp member
      rw [List.getElem?_drop] at inDrop
      have place := ground.shape.same_place (m.bucketAt_eq_some.mpr ⟨buckets, old.2.2, inDrop⟩) here same
      omega
    refine ⟨(a, i), t, home, m.setLock set.lock .deleted, res, some (.melt buckets (i + 1)),
      by simp only [rehashStep, at_, word], ?_, .keep fun adds => by cases adds⟩
    exact
      { change := change
        count := rfl
        buckets := fun _ _ => rfl
        pending := fun _ => rfl
        settled := fun never => absurd rfl (never _)
        inv := by
          refine ⟨fun set' member => ?_, settled, a, old.stable change⟩
          rw [Mem.locks_setLock, if_neg (later set' member)]
          exact locked set' (by rw [front]; exact List.mem_cons_of_mem _ member)
        touched := fun at_' => by
          rw [here] at at_'
          cases at_'
          exact .inl ((holds _).mpr (.inl rfl))
        taken := fun holds' => .inl ((holds _).mpr (.inr ((holds_resizing rfl).mp holds')))
        kept := fun holds' => ((holds _).mp holds').symm.imp (holds_resizing rfl).mpr fun same => by rw [same]; exact own
        live := fun _ inRoot => absurd inRoot old.2.1
        holder := fun at_' locked' => by
          rw [here] at at_'
          cases at_'
          simp [Mem.locks_setLock] at locked'
        opened := fun _ inRoot => absurd inRoot old.2.1 }

end Steps

/-- Every step of a resize before and after it publishes. -/
theorem rehash_sound (self : Nat) (ground : Ground t home m) {pc : RehashPc K V} (inv : ThreadInv T t home m res (.resizing pc))
    (inner : ∀ hashtable buckets, pc ≠ .publish hashtable buckets) : RehashSound T self t home m pc := by
  obtain ⟨locked, inv⟩ := inv
  cases pc with
  | readRoot => exact readRoot_sound self ground inv
  | readBuckets hashtable => exact readBuckets_sound self ground inv
  | listLength hashtable buckets i totalElements => exact listLength_sound self ground inv
  | freeze hashtable buckets i => exact freeze_sound self ground locked inv
  | publish hashtable buckets => exact absurd rfl (inner hashtable buckets)
  | bucket buckets new i => exact bucket_sound self ground locked inv
  | foreach buckets new i node => exact foreach_sound self ground locked inv
  | pairs buckets new i next rest => exact pairs_sound self ground locked inv
  | insert buckets new i next pair rest set pc => exact insert_sound self ground locked inv
  | melt buckets i => exact melt_sound self ground locked inv

end RdmaIht.Hashtable
