import RdmaIht.Iht.Alone

/-! `rehash` as a function of its own.

From any memory and for any source E-List with room for its pairs, its keys
repeated or not, `rehash` moves the pairs into a new P-List of twice the size. The
invariant of its loop says of every new bucket which of the pairs moved so far it
holds. The points of the machine between the call and the return run it.
-/

set_option autoImplicit false

namespace RdmaIht.Iht

variable {K V : Type}

section Source

variable (T : Template K V) (self : Nat)

/-- The loop of `rehash` from slot `i` on, in at most `fuel` turns. -/
def rehashLoop (newP : RemotePtr) (depth count : Nat) (source : ElistRef K V) : Nat → Nat → Mem K V → Except Fault (Mem K V)
  | 0, _, _ => .error .outOfFuel
  | fuel + 1, i, m =>
    match source.get m with
    | none => .error .badAccess
    | some el =>
      if i < el.count then
        match el.pairs[i]? with
        | none => .error .badAccess
        | some pair => do
          let m ← moveInto T self m newP depth count pair
          rehashLoop newP depth count source fuel (i + 1) m
      else .ok m

/-- `rehash(parent, pcount, pdepth, pidx)`: the memory after it, and the P-List it returns. -/
def rehash (fuel : Nat) (m : Mem K V) (parent : PlistRef) (pcount pdepth pidx : Nat) :
    Except Fault (Mem K V × RemotePtr) :=
  match T.buckets (pcount * 2 / T.plistSize) with
  | none => .error .intOverflow
  | some n =>
    let newP := m.fresh self
    let m := m.newPlist self n
    match parent.bucket m pidx with
    | none => .error .badAccess
    | some pr => do
      let (source, m) ← if pr.base.isLocal self then pure (.inPlace pr.base, m) else readElist self m pr.base
      let m ← rehashLoop T self newP (pdepth + 1) (pcount * 2) source fuel 0 m
      return (source.free m, newP)

end Source

/-! ## What the loop keeps -/

structure Mem.Allocated (m : Mem K V) : Prop where
  pos : 1 ≤ m.next
  plists_lt : ∀ {p bs}, m.plists p = some bs → p.address < m.next
  elists_lt : ∀ {e el}, m.elists e = some el → e.address < m.next

theorem Shape.allocated {T : Template K V} {root : RemotePtr} {home : Home} {m : Mem K V} (shape : Shape T root home m) :
    m.Allocated := ⟨shape.next_pos, shape.plist_old, shape.elist_old⟩

theorem Mem.Allocated.fresh_ne_null {m : Mem K V} (allocated : m.Allocated) (self : Nat) : m.fresh self ≠ .null := by
  intro same
  have zero : m.next = 0 := congrArg RemotePtr.address same
  have pos := allocated.pos
  omega

def Template.share (T : Template K V) (depth count : Nat) (pairs : List (Pair K V)) (j : Nat) : List (Pair K V) :=
  pairs.filter fun pair => decide (T.levelHash pair.key depth count = j)

/-- The new P-List after the pairs `done` were moved: a bucket without pairs is null,
and the others have an E-List each, at an address from `low` on. -/
structure Spread (T : Template K V) (m : Mem K V) (newP : RemotePtr) (low depth count : Nat) (done : List (Pair K V)) :
    Prop where
  allocated : m.Allocated
  later : low ≤ m.next
  length : ∃ bs, m.plists newP = some bs ∧ bs.length = count
  unlocked : ∀ {j pr}, m.bucket newP j = some pr → m.locks pr.lock = some .eUnlocked
  null : ∀ {j pr}, m.bucket newP j = some pr → pr.base = .null → T.share depth count done j = []
  filled : ∀ {j pr}, m.bucket newP j = some pr → pr.base ≠ .null → low ≤ pr.base.address ∧
    ∃ el, m.elists pr.base = some el ∧ T.Fits el ∧ el.live = T.share depth count done j ∧ el.live ≠ []
  apart : ∀ {i j pr qr}, m.bucket newP i = some pr → m.bucket newP j = some qr → pr.base = qr.base → pr.base ≠ .null → i = j

variable {T : Template K V} {m m' : Mem K V} {newP : RemotePtr} {low depth count : Nat} {done : List (Pair K V)}
  {pair : Pair K V}

theorem Template.share_append (j : Nat) : T.share depth count (done ++ [pair]) j =
    T.share depth count done j ++ if T.levelHash pair.key depth count = j then [pair] else [] := by
  rw [share, List.filter_append]
  by_cases here : T.levelHash pair.key depth count = j <;> simp [share, here]

theorem Spread.put (spread : Spread T m newP low depth count done) {pr : PlistPair} {e : RemotePtr} {el : EList K V}
    (found : m.bucket newP (T.levelHash pair.key depth count) = some pr) (allocated : m'.Allocated) (next : m.next ≤ m'.next)
    (plist : ∃ bs, m'.plists newP = some bs ∧ bs.length = count)
    (buckets : ∀ j, m'.bucket newP j =
      if j = T.levelHash pair.key depth count then some { pr with base := e } else m.bucket newP j)
    (locks : m'.locks = m.locks) (elists : ∀ q, q ≠ e → m'.elists q = m.elists q) (stored : m'.elists e = some el)
    (notNull : e ≠ .null) (high : low ≤ e.address) (fits : T.Fits el)
    (live : el.live = T.share depth count done (T.levelHash pair.key depth count) ++ [pair])
    (others : ∀ j qr, j ≠ T.levelHash pair.key depth count → m.bucket newP j = some qr → qr.base ≠ e) :
    Spread T m' newP low depth count (done ++ [pair]) where
  allocated := allocated
  later := Nat.le_trans spread.later next
  length := plist
  unlocked := by
    intro j qr now
    rw [buckets j] at now
    rw [locks]
    split at now
    · cases now
      have word : m.locks pr.lock = some .eUnlocked := spread.unlocked found
      exact word
    · exact spread.unlocked now
  null := by
    intro j qr now null
    rw [buckets j] at now
    split at now
    · cases now
      exact absurd null notNull
    · next other => rw [T.share_append, if_neg (Ne.symm other), List.append_nil, spread.null now null]
  filled := by
    intro j qr now some_
    rw [buckets j] at now
    split at now
    · next here =>
      cases now
      subst here
      refine ⟨high, el, stored, fits, ?_, ?_⟩
      · rw [T.share_append, if_pos rfl]
        exact live
      · rw [live]
        simp
    · next other =>
      obtain ⟨above, el', stored', fits', live', nonempty⟩ := spread.filled now some_
      refine ⟨above, el', ?_, fits', ?_, nonempty⟩
      · rw [elists _ (others j qr other now)]
        exact stored'
      · rw [T.share_append, if_neg (Ne.symm other), List.append_nil]
        exact live'
  apart := by
    intro i j qr rr first second same some_
    rw [buckets i] at first
    rw [buckets j] at second
    split at first <;> split at second
    · next here there => rw [here, there]
    · next other =>
      cases first
      exact absurd same.symm (others j rr other second)
    · next other _ =>
      cases second
      exact absurd same (others i qr other first)
    · exact spread.apart first second same some_

theorem Spread.first (self : Nat) (spread : Spread T m newP low depth count done) (room : 0 < T.elistSize) {pr : PlistPair}
    (found : m.bucket newP (T.levelHash pair.key depth count) = some pr) (null : pr.base = .null) :
    ∃ m', Moved T self m newP (T.levelHash pair.key depth count) pair m' ∧ Spread T m' newP low depth count (done ++ [pair]) ∧
      ∀ q, q.address < low → m'.elists q = m.elists q := by
  obtain ⟨bs, plist, length⟩ := spread.length
  obtain ⟨el, inserted, fits, _, live⟩ := T.elistInsert_ok T.fits_empty room pair
  have elsewhere : ∀ q, q ≠ m.fresh self →
      (m.linkElist self newP (T.levelHash pair.key depth count) el).elists q = m.elists q := by
    intro q other
    rw [Mem.elists_linkElist, if_neg other]
  refine ⟨_, .first found null inserted, ?_, ?_⟩
  · refine spread.put found (e := m.fresh self) ⟨Nat.le_succ_of_le spread.allocated.pos, ?_, ?_⟩ (Nat.le_succ _) ?_ ?_ rfl
      elsewhere (by rw [Mem.elists_linkElist, if_pos rfl]) ?_ spread.later fits (by rw [live, spread.null found null]; rfl) ?_
    · intro p bs' at_
      rw [Mem.plists_linkElist] at at_
      split at at_
      · next here =>
        rw [here]
        exact Nat.lt_succ_of_lt (spread.allocated.plists_lt plist)
      · exact Nat.lt_succ_of_lt (spread.allocated.plists_lt at_)
    · intro q el' at_
      by_cases new : q = m.fresh self
      · rw [new]
        exact Nat.lt_succ_self _
      · rw [elsewhere q new] at at_
        exact Nat.lt_succ_of_lt (spread.allocated.elists_lt at_)
    · rw [Mem.plists_linkElist, if_pos rfl, plist]
      refine ⟨_, rfl, ?_⟩
      rw [List.length_modify]
      exact length
    · intro j
      rw [Mem.bucket_linkElist]
      by_cases here : j = T.levelHash pair.key depth count
      · rw [if_pos ⟨rfl, here⟩, if_pos here, here, found]
        rfl
      · rw [if_neg fun both => here both.2, if_neg here]
    · exact spread.allocated.fresh_ne_null self
    · -- no bucket has the new E-List yet
      intro j qr _ at_ same
      by_cases free : qr.base = .null
      · exact spread.allocated.fresh_ne_null self (same.symm.trans free)
      · obtain ⟨_, old, stored, _⟩ := spread.filled at_ free
        rw [same] at stored
        exact absurd (spread.allocated.elists_lt stored) (Nat.lt_irrefl _)
  · intro q below
    refine elsewhere q ?_
    rintro rfl
    exact absurd (Nat.lt_of_lt_of_le below spread.later) (Nat.lt_irrefl _)

/-- A bucket has room because it got only a part of the pairs before. -/
theorem Spread.more (self : Nat) (spread : Spread T m newP low depth count done) (room : done.length < T.elistSize)
    {pr : PlistPair} (found : m.bucket newP (T.levelHash pair.key depth count) = some pr) (notNull : pr.base ≠ .null) :
    ∃ m', Moved T self m newP (T.levelHash pair.key depth count) pair m' ∧ Spread T m' newP low depth count (done ++ [pair]) ∧
      ∀ q, q.address < low → m'.elists q = m.elists q := by
  obtain ⟨above, el, stored, fits, live, nonempty⟩ := spread.filled found notNull
  have part : el.count ≤ done.length := by
    rw [← EList.length_live fits, live]
    exact List.length_filter_le _ _
  obtain ⟨el', inserted, fits', _, live'⟩ := T.elistInsert_ok fits (Nat.lt_of_le_of_lt part room) pair
  have elsewhere : ∀ q, q ≠ pr.base → (m.setElist pr.base el').elists q = m.elists q := by
    intro q other
    rw [Mem.elists_setElist, if_neg other]
  refine ⟨_, .more found notNull stored inserted, ?_, ?_⟩
  · refine spread.put found (e := pr.base) ⟨spread.allocated.pos, spread.allocated.plists_lt, ?_⟩ (Nat.le_refl _)
      spread.length ?_ rfl elsewhere (by rw [Mem.elists_setElist, if_pos rfl]) notNull above fits' (by rw [live', live]) ?_
    · intro q list at_
      by_cases here : q = pr.base
      · rw [here]
        exact spread.allocated.elists_lt stored
      · rw [elsewhere q here] at at_
        exact spread.allocated.elists_lt at_
    · intro j
      split
      · next here =>
        rw [here]
        exact found
      · rfl
    · intro j qr other at_ same
      exact other (spread.apart at_ found same (same ▸ notNull))
  · intro q below
    refine elsewhere q ?_
    rintro rfl
    omega

theorem Spread.move (self : Nat) (pair : Pair K V) (two : 2 ≤ count) (spread : Spread T m newP low depth count done)
    (room : done.length < T.elistSize) : ∃ m', moveInto T self m newP depth count pair = .ok m' ∧
      Spread T m' newP low depth count (done ++ [pair]) ∧ ∀ q, q.address < low → m'.elists q = m.elists q := by
  obtain ⟨bs, plist, length⟩ := spread.length
  have inside : T.levelHash pair.key depth count < bs.length := by
    rw [length]
    exact T.levelHash_lt _ _ two
  have found : m.bucket newP (T.levelHash pair.key depth count) = some bs[T.levelHash pair.key depth count] :=
    Mem.bucket_eq_some.mpr ⟨bs, plist, List.getElem?_eq_getElem inside⟩
  by_cases null : bs[T.levelHash pair.key depth count].base = .null
  · obtain ⟨m', moved, after⟩ := spread.first self (Nat.lt_of_le_of_lt (Nat.zero_le _) room) found null
    exact ⟨m', moveInto_eq_ok.mpr moved, after⟩
  · obtain ⟨m', moved, after⟩ := spread.more self room found null
    exact ⟨m', moveInto_eq_ok.mpr moved, after⟩

theorem Spread.bump (spread : Spread T m newP low depth count done) : Spread T m.bump newP low depth count done where
  allocated := ⟨Nat.le_succ_of_le spread.allocated.pos, fun at_ => Nat.lt_succ_of_lt (spread.allocated.plists_lt at_),
    fun at_ => Nat.lt_succ_of_lt (spread.allocated.elists_lt at_)⟩
  later := Nat.le_succ_of_le spread.later
  length := spread.length
  unlocked := spread.unlocked
  null := spread.null
  filled := spread.filled
  apart := spread.apart

theorem Spread.start (T : Template K V) (self depth n : Nat) (allocated : m.Allocated) :
    Spread T (m.newPlist self n) (m.fresh self) m.next depth n [] where
  allocated := by
    refine ⟨?_, ?_, ?_⟩
    · rw [Mem.next_newPlist]
      omega
    · intro p bs at_
      rw [Mem.plists_newPlist] at at_
      rw [Mem.next_newPlist]
      split at at_
      · next here =>
        rw [here, show (m.fresh self).address = m.next from rfl]
        omega
      · have below := allocated.plists_lt at_
        omega
    · intro e el at_
      rw [Mem.elists_newPlist] at at_
      rw [Mem.next_newPlist]
      have below := allocated.elists_lt at_
      omega
  later := by
    rw [Mem.next_newPlist]
    omega
  length := ⟨_, by rw [Mem.plists_newPlist, if_pos rfl], Mem.length_initBuckets _ _ _⟩
  unlocked := by
    intro j pr found
    rw [Mem.bucket_newPlist, if_pos rfl] at found
    split at found
    · next inside =>
      cases found
      rw [Mem.locks_newPlist, if_pos ⟨rfl, by dsimp only; omega, by dsimp only; omega⟩]
    · cases found
  null _ _ := rfl
  filled := by
    intro j pr found some_
    rw [Mem.bucket_newPlist, if_pos rfl] at found
    split at found
    · cases found
      exact absurd rfl some_
    · cases found
  apart := by
    intro i j pr qr found _ _ some_
    rw [Mem.bucket_newPlist, if_pos rfl] at found
    split at found
    · cases found
      exact absurd rfl some_
    · cases found

/-- The loop ends, with every pair moved. -/
theorem rehashLoop_spread (self : Nat) (two : 2 ≤ count) {source : ElistRef K V} {el : EList K V} (fits : T.Fits el)
    (old : ∀ e, source = .inPlace e → e.address < low) {fuel i : Nat} (got : source.get m = some el)
    (spread : Spread T m newP low depth count (el.live.take i)) (within : i ≤ el.count) (enough : el.count - i < fuel) :
    ∃ m', rehashLoop T self newP depth count source fuel i m = .ok m' ∧
      Spread T m' newP low depth count el.live ∧ ∀ q, q.address < low → m'.elists q = m.elists q := by
  induction fuel generalizing m i with
  | zero => omega
  | succ fuel ih =>
    by_cases more : i < el.count
    · have inArray : i < el.pairs.length := Nat.lt_of_lt_of_le more fits.1
      have slot : el.live[i]? = some el.pairs[i] :=
        EList.getElem?_live more (List.getElem?_eq_getElem inArray)
      -- fewer pairs went over than the source holds, so `elist_insert` has room without a check
      have room : (el.live.take i).length < T.elistSize := by
        rw [List.length_take, EList.length_live fits]
        have := fits.2
        omega
      obtain ⟨m₁, moved, spread₁, same₁⟩ := spread.move self el.pairs[i] two room
      -- the source is older than the new P-List, so the loop does not write to it
      have got₁ : source.get m₁ = some el := by
        cases source with
        | copied block copy => exact got
        | inPlace e => exact (same₁ e (old e rfl)).trans got
      have further : Spread T m₁ newP low depth count (el.live.take (i + 1)) := by
        rw [List.take_add_one, slot]
        exact spread₁
      obtain ⟨m', ended, spread', same'⟩ := ih got₁ further (by omega) (by omega)
      refine ⟨m', ?_, spread', fun q below => (same' q below).trans (same₁ q below)⟩
      simp only [rehashLoop, got, more, if_true, List.getElem?_eq_getElem inArray, moved, bind, Except.bind]
      exact ended
    · rw [List.take_of_length_le (by rw [EList.length_live fits]; omega)] at spread
      exact ⟨m, by simp only [rehashLoop, got, more, if_false], spread, fun _ _ => rfl⟩

theorem Spread.free (spread : Spread T m newP low depth count done) {source : ElistRef K V}
    (old : ∀ e, source = .inPlace e → e.address < low) : Spread T (source.free m) newP low depth count done := by
  cases source with
  | copied block copy => exact spread
  | inPlace e =>
    have below := old e rfl
    refine ⟨⟨spread.allocated.pos, spread.allocated.plists_lt, ?_⟩, spread.later, spread.length, spread.unlocked,
      spread.null, ?_, spread.apart⟩
    · intro q el at_
      rw [ElistRef.free, Mem.elists_freeElist] at at_
      split at at_
      · cases at_
      · exact spread.allocated.elists_lt at_
    · intro j pr found some_
      obtain ⟨high, el, stored, rest⟩ := spread.filled found some_
      refine ⟨high, el, ?_, rest⟩
      rw [ElistRef.free, Mem.elists_freeElist, if_neg]
      · exact stored
      · intro same
        rw [same] at high
        omega

theorem Spread.content (spread : Spread T m newP low depth count done) {j : Nat} {pr : PlistPair}
    (found : m.bucket newP j = some pr) : m.content pr.base = T.share depth count done j := by
  by_cases null : pr.base = .null
  · rw [null, Mem.content_null, spread.null found null]
  · obtain ⟨_, el, stored, _, live, _⟩ := spread.filled found null
    rw [Mem.content_elist null stored, live]

/-! ## What is returned -/

theorem flatMap_filter_perm {A : Type} (place : A → Nat) (items : List A) (n : Nat) (inside : ∀ a ∈ items, place a < n) :
    ((List.range n).flatMap fun j => items.filter fun a => decide (place a = j)).Perm items := by
  suffices below : ((List.range n).flatMap fun j => items.filter fun a => decide (place a = j)).Perm
      (items.filter fun a => decide (place a < n)) by
    rw [List.filter_eq_self.mpr fun a member => decide_eq_true (inside a member)] at below
    exact below
  clear inside
  induction n with
  | zero => simp
  | succ n ih =>
    rw [List.range_succ, List.flatMap_append, List.flatMap_singleton]
    have split := List.filter_append_perm (fun a => decide (place a < n)) (items.filter fun a => decide (place a < n + 1))
    rw [List.filter_filter, List.filter_filter] at split
    have first : (fun a => decide (place a < n) && decide (place a < n + 1)) = fun a => decide (place a < n) := by
      funext a
      by_cases low : place a < n
      · simp [low, Nat.lt_succ_of_lt low]
      · simp [low]
    have last : (fun a => !decide (place a < n) && decide (place a < n + 1)) = fun a => decide (place a = n) := by
      funext a
      rw [← decide_not, ← Bool.decide_and]
      exact decide_eq_decide.mpr (by omega)
    rw [first, last] at split
    exact (ih.append_right _).trans split

/-- The P-List `newP` at `depth` has the buckets `bs`, that hold `pairs` between them. -/
structure Redistributed (T : Template K V) (m : Mem K V) (newP : RemotePtr) (depth : Nat) (bs : List PlistPair)
    (pairs : List (Pair K V)) : Prop where
  stored : m.plists newP = some bs
  unlocked : ∀ pr ∈ bs, m.locks pr.lock = some .eUnlocked
  moved : (bs.flatMap fun pr => m.content pr.base).Perm pairs
  placed : ∀ (j : Nat) (pr : PlistPair), bs[j]? = some pr → ∀ pair ∈ m.content pr.base, T.levelHash pair.key depth bs.length = j
  inside : ∀ pair ∈ pairs, T.levelHash pair.key depth bs.length < bs.length
  room : ∀ pr ∈ bs, pr.base ≠ .null → ∃ el, m.elists pr.base = some el ∧ T.Fits el
  apart : ∀ (i j : Nat) (pr qr : PlistPair), bs[i]? = some pr → bs[j]? = some qr → pr.base = qr.base → pr.base ≠ .null → i = j
  empty : ∀ (j : Nat) (pr : PlistPair), bs[j]? = some pr → (∀ pair ∈ pairs, T.levelHash pair.key depth bs.length ≠ j) → pr.base = .null

theorem Spread.redistributed (spread : Spread T m newP low depth count done) (two : 2 ≤ count) :
    ∃ bs, Redistributed T m newP depth bs done ∧ bs.length = count := by
  obtain ⟨bs, stored, rfl⟩ := spread.length
  have found : ∀ {j : Nat} {pr : PlistPair}, bs[j]? = some pr → m.bucket newP j = some pr := fun at_ => Mem.bucket_eq_some.mpr ⟨bs, stored, at_⟩
  have inside : ∀ pair ∈ done, T.levelHash pair.key depth bs.length < bs.length := fun pair _ => T.levelHash_lt _ _ two
  refine ⟨bs, ⟨stored, ?_, ?_, ?_, inside, ?_, ?_, ?_⟩, rfl⟩
  · intro pr member
    obtain ⟨j, at_⟩ := List.mem_iff_getElem?.mp member
    exact spread.unlocked (found at_)
  · -- bucket by bucket the content is a share, and the shares make up all the pairs
    have shares : (bs.flatMap fun pr => m.content pr.base) =
        (List.range bs.length).flatMap fun j => T.share depth bs.length done j := by
      rw [List.flatMap_def, List.flatMap_def]
      congr 1
      refine List.ext_getElem (by simp) fun j inBuckets inRange => ?_
      rw [List.length_map] at inBuckets
      rw [List.getElem_map, List.getElem_map, List.getElem_range]
      exact spread.content (found (List.getElem?_eq_getElem inBuckets))
    rw [shares]
    exact flatMap_filter_perm _ done bs.length inside
  · intro j pr at_ pair member
    rw [spread.content (found at_), Template.share, List.mem_filter] at member
    exact of_decide_eq_true member.2
  · intro pr member some_
    obtain ⟨j, at_⟩ := List.mem_iff_getElem?.mp member
    obtain ⟨_, el, list, fits, _⟩ := spread.filled (found at_) some_
    exact ⟨el, list, fits⟩
  · intro i j pr qr first second same some_
    exact spread.apart (found first) (found second) same some_
  · intro j pr at_ none
    -- an E-List is made for a pair only, so none of them is empty
    by_contra some_
    obtain ⟨_, el, _, _, live, nonempty⟩ := spread.filled (found at_) some_
    refine nonempty (live.trans (List.filter_eq_nil_iff.mpr fun pair member => ?_))
    rw [decide_eq_true_eq]
    exact none pair member

theorem rehash_spread (T : Template K V) (plist : 2 ≤ T.plistSize) (self : Nat) {m : Mem K V} (allocated : m.Allocated)
    {parent : PlistRef} {d b : Nat} (depth : 1 ≤ d) (inInt : T.plistSize * 2 ^ d < 2 ^ 31) {pr : PlistPair}
    (found : parent.bucket m b = some pr) {el : EList K V} (stored : m.elists pr.base = some el) (fits : T.Fits el)
    {fuel : Nat} (enough : el.count < fuel) : ∃ m',
      rehash T self fuel m parent (T.plistSize * 2 ^ (d - 1)) d b = .ok (m', m.fresh self) ∧
        Spread T m' (m.fresh self) m.next (d + 1) (T.plistSize * 2 ^ d) el.live := by
  have double : T.plistSize * 2 ^ (d - 1) * 2 = T.plistSize * 2 ^ d := by
    rw [Nat.mul_assoc, ← Nat.pow_succ, Nat.succ_eq_add_one, Nat.sub_add_cancel depth]
  have factor : T.plistSize * 2 ^ d / T.plistSize = 2 ^ d := Nat.mul_div_cancel_left _ (by omega)
  have two : 2 ≤ T.plistSize * 2 ^ d := Nat.le_trans plist (Nat.le_mul_of_pos_right _ (Nat.two_pow_pos _))
  have buckets : T.buckets (T.plistSize * 2 ^ d / T.plistSize) = some (T.plistSize * 2 ^ d) := by
    rw [factor, Template.buckets, if_pos inInt]
  -- the bucket is read after the allocation of the new P-List
  have still : parent.bucket (m.newPlist self (T.plistSize * 2 ^ d)) b = some pr := by
    cases parent with
    | copied block bs => exact found
    | inPlace p =>
      have found : m.bucket p b = some pr := found
      obtain ⟨bs, at_, _⟩ := Mem.bucket_eq_some.mp found
      have below := allocated.plists_lt at_
      rw [PlistRef.bucket, Mem.bucket_newPlist, if_neg]
      · exact found
      · rintro rfl
        exact Nat.lt_irrefl _ below
  have list : (m.newPlist self (T.plistSize * 2 ^ d)).elists pr.base = some el := by
    rw [Mem.elists_newPlist]
    exact stored
  have start := Spread.start T self (d + 1) (T.plistSize * 2 ^ d) allocated
  by_cases near : pr.base.isLocal self = true
  · -- the source is used in place, below all new blocks
    have old : ∀ e, (ElistRef.inPlace pr.base : ElistRef K V) = .inPlace e → e.address < m.next := by
      intro e same
      cases same
      exact allocated.elists_lt stored
    obtain ⟨m', ended, spread, _⟩ := rehashLoop_spread self two fits old (i := 0) list start (Nat.zero_le _) enough
    refine ⟨_, ?_, spread.free old⟩
    simp only [rehash, double, buckets, still, near, if_true, pure, Except.pure, bind, Except.bind, ended]
  · have old : ∀ e, (ElistRef.copied ((m.newPlist self (T.plistSize * 2 ^ d)).fresh self) el : ElistRef K V) = .inPlace e →
        e.address < m.next := by
      intro e same
      cases same
    obtain ⟨m', ended, spread, _⟩ := rehashLoop_spread self two fits old (i := 0) rfl start.bump (Nat.zero_le _) enough
    refine ⟨_, ?_, spread.free old⟩
    simp only [rehash, double, buckets, still, near, Bool.false_eq_true, if_false, readElist, list, pure, Except.pure, bind,
      Except.bind, ended]

/-- `rehash` of a bucket at depth `d` returns a P-List of twice the size, with the
pairs of the source, that is any E-List of this or another pool. -/
theorem rehash_redistributes (T : Template K V) (plist : 2 ≤ T.plistSize) (self : Nat) {m : Mem K V} (allocated : m.Allocated)
    {parent : PlistRef} {d b : Nat} (depth : 1 ≤ d) (inInt : T.plistSize * 2 ^ d < 2 ^ 31) {pr : PlistPair}
    (found : parent.bucket m b = some pr) {el : EList K V} (stored : m.elists pr.base = some el) (fits : T.Fits el)
    {fuel : Nat} (enough : el.count < fuel) : ∃ m' newP bs,
      rehash T self fuel m parent (T.plistSize * 2 ^ (d - 1)) d b = .ok (m', newP) ∧
        Redistributed T m' newP (d + 1) bs el.live ∧ bs.length = T.plistSize * 2 ^ d := by
  obtain ⟨m', returns, spread⟩ := rehash_spread T plist self allocated depth inInt found stored fits enough
  have two : 2 ≤ T.plistSize * 2 ^ d := Nat.le_trans plist (Nat.le_mul_of_pos_right _ (Nat.two_pow_pos _))
  obtain ⟨bs, redistributed, length⟩ := spread.redistributed two
  exact ⟨m', m.fresh self, bs, returns, redistributed, length⟩

/-- A root with a full E-List of the pool 1, two of whose keys share a bucket at depth 2. -/
def fullRemote : Mem (BitVec 32) (BitVec 32) where
  plists p := if p = ⟨0, 1⟩ then some [⟨⟨1, 4⟩, ⟨0, 2⟩⟩, ⟨.null, ⟨0, 3⟩⟩] else none
  elists e := if e = ⟨1, 4⟩ then some ⟨3, [⟨0, 10⟩, ⟨3, 11⟩, ⟨6, 12⟩]⟩ else none
  locks l := if l = ⟨0, 2⟩ then some .eLocked else if l = ⟨0, 3⟩ then some .eUnlocked else none
  next := 5

theorem fullRemote_allocated : fullRemote.Allocated where
  pos := by decide
  plists_lt {p bs} found := by
    have here : p = ⟨0, 1⟩ := by
      by_contra other
      exact absurd found (by simp [fullRemote, other])
    rw [here]
    decide
  elists_lt {e el} found := by
    have here : e = ⟨1, 4⟩ := by
      by_contra other
      exact absurd found (by simp [fullRemote, other])
    rw [here]
    decide

theorem rehash_redistributes_fullRemote : ∃ m' newP bs,
    rehash (intTemplate 3 2) 0 4 fullRemote (.inPlace ⟨0, 1⟩) 2 1 0 = .ok (m', newP) ∧
      Redistributed (intTemplate 3 2) m' newP 2 bs [⟨0, 10⟩, ⟨3, 11⟩, ⟨6, 12⟩] ∧ bs.length = 4 :=
  rehash_redistributes (intTemplate 3 2) (by decide) 0 fullRemote_allocated (d := 1) (by decide) (by decide)
    (show _ = some ⟨⟨1, 4⟩, ⟨0, 2⟩⟩ from rfl) (show _ = some ⟨3, [⟨0, 10⟩, ⟨3, 11⟩, ⟨6, 12⟩]⟩ from rfl)
    ⟨by decide, by decide⟩ (by decide)

/-! ## The machine -/

section Machine

open Concurrency

variable [DecidableEq K] {self : Nat} {root : RemotePtr} {op : IhtOp K V} {t : Traversal} {b : Nat} {bb : RemotePtr}
  {e : ElistRef K V}

theorem rehashLoop_reached {source : ElistRef K V} {fuel i : Nat}
    (done : rehashLoop T self newP (t.depth + 1) (t.count * 2) source fuel i m = .ok m') :
    Reachable (advance T root self op) (m, .rehashMove t b bb e newP source i) (m', .rehashFree t b bb e newP source) := by
  induction fuel generalizing m i with
  | zero => cases done
  | succ fuel ih =>
    simp only [rehashLoop] at done
    split at done
    · cases done
    · next el got =>
      split at done
      · next more =>
        split at done
        · cases done
        · next pair slot =>
          obtain ⟨m₁, moved, rest⟩ := bind_eq_ok.mp done
          -- a turn of the loop of `rehash` is one step of the machine
          have turn : step T self root op m (.rehashMove t b bb e newP source i) =
              .ok (m₁, .inl (.rehashMove t b bb e newP source (i + 1))) := by
            simp only [step, got, more, if_true, slot, moved, bind, Except.bind]
            rfl
          exact (goesOn turn).trans (ih rest)
      · next past =>
        have ends : step T self root op m (.rehashMove t b bb e newP source i) =
            .ok (m, .inl (.rehashFree t b bb e newP source)) := by
          simp only [step, got, past, if_false]
        cases done
        exact goesOn ends

theorem rehash_reached {fuel : Nat} (done : rehash T self fuel m t.curr t.count t.depth b = .ok (m', newP)) :
    Reachable (advance T root self op) (m, .newPlist t b bb e) (m', .publishPlist t b bb e newP) := by
  -- allocation, load of the source, loop and free are consecutive stretches of one run
  have run : ∀ {n pr source m₁}, T.buckets (t.count * 2 / T.plistSize) = some n → t.curr.bucket (m.newPlist self n) b = some pr →
      (if pr.base.isLocal self then pure (.inPlace pr.base, m.newPlist self n) else readElist self (m.newPlist self n) pr.base) =
        .ok (source, m₁) →
      ∀ {m₂}, rehashLoop T self (m.fresh self) (t.depth + 1) (t.count * 2) source fuel 0 m₁ = .ok m₂ →
        Reachable (advance T root self op) (m, .newPlist t b bb e)
          (source.free m₂, .publishPlist t b bb e (m.fresh self)) := by
    intro n pr source m₁ buckets found sourced m₂ looped
    have allocates : step T self root op m (.newPlist t b bb e) =
        .ok (m.newPlist self n, .inl (.rehashSource t b bb e (m.fresh self))) := by
      simp only [step, buckets]
    have loads : step T self root op (m.newPlist self n) (.rehashSource t b bb e (m.fresh self)) =
        .ok (m₁, .inl (.rehashMove t b bb e (m.fresh self) source 0)) := by
      simp only [step, found]
      split at sourced
      · next near =>
        cases sourced
        rw [if_pos near]
      · next far =>
        rw [if_neg far, sourced]
        rfl
    have frees : step T self root op m₂ (.rehashFree t b bb e (m.fresh self) source) =
        .ok (source.free m₂, .inl (.publishPlist t b bb e (m.fresh self))) := rfl
    exact (((goesOn allocates).trans (goesOn loads)).trans (rehashLoop_reached looped)).trans (goesOn frees)
  simp only [rehash] at done
  split at done
  · cases done
  · next n buckets =>
    split at done
    · cases done
    · next pr found =>
      by_cases near : pr.base.isLocal self = true
      · rw [if_pos near] at done
        obtain ⟨⟨source, m₁⟩, sourced, rest⟩ := bind_eq_ok.mp done
        obtain ⟨m₂, looped, last⟩ := bind_eq_ok.mp rest
        cases last
        exact run buckets found (by rw [if_pos near]; exact sourced) looped
      · rw [if_neg near] at done
        obtain ⟨⟨source, m₁⟩, sourced, rest⟩ := bind_eq_ok.mp done
        obtain ⟨m₂, looped, last⟩ := bind_eq_ok.mp rest
        cases last
        exact run buckets found (by rw [if_neg near]; exact sourced) looped

/-- A bucket of the tree that is rehashed becomes a P-List with its pairs. -/
theorem newPlist_redistributes (plist : 2 ≤ T.plistSize) {home : Home} (shape : Shape T root home m)
    (inv : PcInv T root home m self (.newPlist t b bb e)) (inInt : T.plistSize * 2 ^ t.depth < 2 ^ 31) :
    ∃ m' newP el bs, Reachable (advance T root self op) (m, .newPlist t b bb e) (m', .publishPlist t b bb e newP) ∧
      m.elists bb = some el ∧ Redistributed T m' newP (t.depth + 1) bs el.live ∧ bs.length = t.count * 2 := by
  have at_ : AtList T root home m self t b bb e none := inv
  obtain ⟨pr, found, rfl⟩ := at_.base_curr
  obtain ⟨el, stored, fits⟩ := at_.owned _ at_.base_home at_.base_skip
  obtain ⟨m', returns, spread⟩ := rehash_spread T plist self shape.allocated at_.located.depth_pos inInt found stored fits
    (Nat.lt_succ_self _)
  have count : T.plistSize * 2 ^ (t.depth - 1) = t.count := at_.located.count_eq.symm
  rw [count] at returns
  have two : 2 ≤ T.plistSize * 2 ^ t.depth := Nat.le_trans plist (Nat.le_mul_of_pos_right _ (Nat.two_pow_pos _))
  obtain ⟨bs, redistributed, length⟩ := spread.redistributed two
  refine ⟨m', _, el, bs, rehash_reached returns, stored, redistributed, ?_⟩
  rw [length, at_.located.count_eq, ← T.size_succ at_.located.depth_pos, Template.size, Nat.add_sub_cancel]

end Machine

end RdmaIht.Iht
