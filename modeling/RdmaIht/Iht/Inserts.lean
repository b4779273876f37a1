import RdmaIht.Iht.Phases

/-! Tables that are built by inserts alone.

Nothing is ever removed from them, so no E-List is empty, and a bucket is closed
only once more keys are known to lead to it than its E-List can take. An `insert`
that runs alone keeps both, while the key it inserts is new.
-/

set_option autoImplicit false

namespace RdmaIht.Iht

open Concurrency

variable {K V : Type}

def Mem.Occupied (m : Mem K V) : Prop := ∀ e el, m.elists e = some el → 1 ≤ el.count

def ElistRef.Occupied : ElistRef K V → Prop
  | .inPlace _ => True
  | .copied _ el => 1 ≤ el.count

def Pc.Occupied : Pc K V → Prop
  | .search _ _ _ e _ | .storePair _ _ _ e _ | .storeCount _ _ _ e | .writeBack _ _ _ e _ => e.Occupied
  | .swapLast _ _ _ _ _ _ | .dropCount _ _ _ _ _ => False
  | _ => True

/-- More keys of `known` lead to bucket `b` of `p` than its E-List can take. -/
def Crowd (T : Template K V) (root : RemotePtr) (m : Mem K V) (known : K → Prop) (p : RemotePtr) (b : Nat) : Prop :=
  ∃ d, ∃ keys : List K, keys.Nodup ∧ T.elistSize < keys.length ∧ ∀ k ∈ keys, known k ∧ Leads T root m p d b k

def Crowded (T : Template K V) (root : RemotePtr) (m : Mem K V) (known : K → Prop) : Prop :=
  ∀ p b, m.Word p b .pUnlocked → Crowd T root m known p b

def Pc.Crowd (T : Template K V) (root : RemotePtr) (m : Mem K V) (known : K → Prop) (pc : Pc K V) : Prop :=
  pc.growing = true → ∀ p b, pc.held = some (p, b) → Iht.Crowd T root m known p b

variable {T : Template K V} {root : RemotePtr} {pool : Nat} {op : IhtOp K V} {home home' : Home} {m m' : Mem K V}
  {pc pc' : Pc K V} {touch : RemotePtr → Nat → Prop} {known : K → Prop}

section Occupied

variable {el : EList K V} {e : ElistRef K V}

theorem Mem.Occupied.setElist (occupied : m.Occupied) (ptr : RemotePtr) (some_ : 1 ≤ el.count) :
    (m.setElist ptr el).Occupied := by
  intro q el' stored
  rw [Mem.elists_setElist] at stored
  split at stored
  · cases stored; exact some_
  · exact occupied q el' stored

theorem Mem.Occupied.of_elists (occupied : m.Occupied) (same : m'.elists = m.elists) : m'.Occupied := by
  rw [Mem.Occupied, same]
  exact occupied

theorem ElistRef.Occupied.get (copy : e.Occupied) (occupied : m.Occupied) (stored : e.get m = some el) : 1 ≤ el.count := by
  cases e with
  | inPlace ptr => exact occupied ptr el stored
  | copied block el' => cases stored; exact copy

theorem ElistRef.Occupied.set (copy : e.Occupied) (occupied : m.Occupied) (some_ : 1 ≤ el.count) :
    (e.set m el).1.Occupied ∧ (e.set m el).2.Occupied := by
  cases e with
  | inPlace ptr => exact ⟨occupied.setElist ptr some_, trivial⟩
  | copied block el' => exact ⟨occupied, some_⟩

theorem Mem.Occupied.free (occupied : m.Occupied) (e : ElistRef K V) : (e.free m).Occupied := by
  cases e with
  | copied block el => exact occupied
  | inPlace ptr =>
    intro q el stored
    rw [ElistRef.free, Mem.elists_freeElist] at stored
    split at stored
    · cases stored
    · exact occupied q el stored

theorem Mem.Occupied.releaseElist (occupied : m.Occupied) (held : Option (RemotePtr × ElistRef K V)) :
    (releaseElist pool m held).Occupied := by
  rcases held with _ | ⟨bb, e⟩
  · exact occupied
  · simp only [Iht.releaseElist]
    split
    · exact occupied
    · exact occupied.free e

theorem Template.elistInsert_count {pair : Pair K V} {el' : EList K V} (inserted : T.elistInsert el pair = some el') :
    el'.count = el.count + 1 := by
  simp only [elistInsert] at inserted
  split at inserted <;> cases inserted
  rfl

theorem Branch.occupied [DecidableEq K] (inserts : op.isInsert = true) {next : Pc K V ⊕ HtRes V}
    (branch : Branch T pool root op m pc m' next) (occupied : m.Occupied) (point : pc.Occupied) :
    m'.Occupied ∧ ∀ pc', next = .inl pc' → pc'.Occupied := by
  have goes : ∀ {pc₁ : Pc K V}, pc₁.Occupied → ∀ pc', (Sum.inl pc₁ : Pc K V ⊕ HtRes V) = .inl pc' → pc'.Occupied := by
    rintro pc₁ point pc' ⟨⟩
    exact point
  cases branch with
  | readRoot | closed | locks | spins | refetch | loadRemote => exact ⟨occupied, goes trivial⟩
  | descendLocal | descendRemote => exact ⟨occupied.of_elists (Traversal.elists_release _ _), goes trivial⟩
  | loadNull =>
    refine ⟨occupied, goes ?_⟩
    cases op <;> trivial
  | loadLocal => exact ⟨occupied, goes trivial⟩
  | readElist stored => exact ⟨occupied, goes (occupied _ _ stored)⟩
  | found stored live at_ same =>
    refine ⟨occupied, goes ?_⟩
    cases op with
    | contains key | remove key => cases inserts
    | insert key value => trivial
  | turn => exact ⟨occupied, goes point⟩
  | missing =>
    refine ⟨occupied, goes ?_⟩
    cases op with
    | contains key | remove key => cases inserts
    | insert key value =>
      simp only [onMissing]
      split
      · exact point
      · trivial
  | newElist inserted =>
    -- the E-List has its first pair when it comes into being
    have count := T.elistInsert_count inserted
    exact ⟨(occupied.setElist _ (by omega)).of_elists rfl, goes trivial⟩
  | publishElist | publishPlist => exact ⟨occupied.of_elists rfl, goes trivial⟩
  | @storePair t b bb e pair el stored room =>
    have live : 1 ≤ el.count := point.get occupied stored
    have some_ : 1 ≤ (el.store el.count pair).count := live
    obtain ⟨memory, copy⟩ := point.set occupied some_
    exact ⟨memory, goes copy⟩
  | @storeCount t b bb e el stored =>
    have some_ : 1 ≤ (el.withCount (el.count + 1)).count := Nat.le_add_left _ _
    obtain ⟨memory, copy⟩ := point.set occupied some_
    refine ⟨memory, goes ?_⟩
    unfold afterStore
    split
    · trivial
    · exact copy
  | swapLast | dropCount => cases point
  | writeBack copy stored => exact ⟨occupied.setElist _ (point.get occupied copy), goes trivial⟩
  | newPlist => exact ⟨occupied.of_elists (Mem.elists_newPlist _ _ _), goes trivial⟩
  | sourceLocal | sourceRemote | moved => exact ⟨occupied, goes trivial⟩
  | move stored live at_ moved =>
    refine ⟨fun q el' stored' => ?_, goes trivial⟩
    rcases moveInto_elists moved stored' with same | ⟨el, _, inserted⟩
    · exact occupied q el' same
    · have count := T.elistInsert_count inserted
      omega
  | rehashFree => exact ⟨occupied.free _, goes trivial⟩
  | updateCurr => exact ⟨occupied.of_elists (PlistRef.elists_setBase _ _ _ _), goes trivial⟩
  | unlockPlist | unlock => exact ⟨occupied, goes trivial⟩
  | afterRehash => exact ⟨occupied.releaseElist _, goes trivial⟩
  | leave => exact ⟨(occupied.releaseElist _).of_elists (Traversal.elists_release _ _), by simp⟩

end Occupied

section Crowded

theorem Crowd.stable {p : RemotePtr} {b : Nat} (crowd : Crowd T root m known p b) (change : Change touch home home' m m')
    (open_ : ∀ p b, m.Word p b .pUnlocked → ¬ touch p b) : Crowd T root m' known p b := by
  obtain ⟨d, keys, distinct, many, lead⟩ := crowd
  refine ⟨d, keys, distinct, many, fun k mem => ?_⟩
  obtain ⟨isKnown, walk, index⟩ := lead k mem
  exact ⟨isKnown, walk.stable change open_, index⟩

theorem Crowd.mono {known' : K → Prop} {p : RemotePtr} {b : Nat} (crowd : Crowd T root m known p b)
    (more : ∀ k, known k → known' k) : Crowd T root m known' p b := by
  obtain ⟨d, keys, distinct, many, lead⟩ := crowd
  exact ⟨d, keys, distinct, many, fun k mem => (lead k mem).imp_left (more k)⟩

/-- A lock that is given back is one of a bucket that is open, or the bucket of a new P-List. -/
theorem Branch.gives [DecidableEq K] (shape : Shape T root home m) (inv : PcInv T root home m pool pc)
    {next : Pc K V ⊕ HtRes V} (branch : Branch T pool root op m pc m' next) {p : RemotePtr} {b : Nat}
    (held : pc.held = some (p, b)) (gives : heldNext next = none) : pc.growing = true ∨ m'.Word p b .eUnlocked := by
  cases branch <;> try cases held
  case loadNull => cases (held_onEmpty _ _).symm.trans gives
  case found => cases (held_onFound _ _ _ _ _ _ _).symm.trans gives
  case missing => cases (held_onMissing _ _ _ _ _).symm.trans gives
  case storeCount => cases (held_afterStore _ _ _ _ _).symm.trans gives
  case dropCount => cases (held_afterStore _ _ _ _ _).symm.trans gives
  case unlockPlist => exact .inl rfl
  case unlock t held res pr stored found =>
    obtain ⟨pr', shared, lock, _⟩ := inv.1.located.bucket shape found
    exact .inr ⟨pr', shared, by rw [Mem.locks_setLock, if_pos lock.symm]⟩
  all_goals cases gives

theorem Crowded.next [DecidableEq K] (crowded : Crowded T root m known) (point : pc.Crowd T root m known)
    (shape : Shape T root home m) (inv : PcInv T root home m pool pc) {next : Pc K V ⊕ HtRes V}
    (branch : Branch T pool root op m pc m' next) (sound : Sound T root pool home m pc home' touch m' next) :
    Crowded T root m' known := by
  have open_ := sound.open_ inv
  intro p b word
  rcases sound.closes p b word with was | ⟨held, gives⟩
  · exact (crowded p b was).stable sound.change open_
  · rcases branch.gives shape inv held gives with growing | opened
    · exact (point growing p b held).stable sound.change open_
    · cases word.functional opened

theorem Branch.grows [DecidableEq K] (branch : Branch T pool root op m pc m' (.inl pc')) (growing : pc'.growing = true)
    {x : RemotePtr × Nat} (held : pc'.held = some x) : (pc.growing = true ∧ pc.held = some x) ∨
      ∃ t b bb e i el, pc = .search t b bb e i ∧ e.get m = some el ∧ T.elistSize ≤ el.count ∧
        x = (t.beforeLocalizedCurr, b) := by
  generalize goes : (Sum.inl pc' : Pc K V ⊕ HtRes V) = next at branch
  cases branch <;> cases goes <;>
    try first | exact .inl ⟨rfl, held⟩ | (cases growing; done) | cases held
  case loadNull => cases op <;> cases growing
  case found =>
    cases op <;> simp only [onFound] at growing <;> first | cases growing | (split at growing <;> cases growing)
  case missing t b bb e i el stored through =>
    cases op with
    | contains key | remove key => cases growing
    | insert key value =>
      simp only [onMissing] at growing held
      split at growing
      · cases growing
      · next full =>
        rw [if_neg full] at held
        cases held
        exact .inr ⟨t, b, bb, e, i, el, rfl, stored, Nat.le_of_not_lt full, rfl⟩
  case storeCount | dropCount =>
    unfold afterStore at growing
    split at growing <;> cases growing

end Crowded

/-! ## Runs -/

structure Grown (T : Template K V) [DecidableEq K] (root : RemotePtr) (home : Home) (σ : FiniteMap K V) (m : Mem K V) :
    Prop where
  between : Between T root home σ m
  crowded : Crowded T root m fun k => (σ k).isSome
  occupied : m.Occupied

def Known (σ : FiniteMap K V) (key k : K) : Prop := k = key ∨ (σ k).isSome

structure Growing (T : Template K V) [DecidableEq K] (root : RemotePtr) (pool : Nat) (key : K) (value : V) (home : Home)
    (σ τ : FiniteMap K V) (m : Mem K V) (pc : Pc K V) : Prop where
  solo : Solo T root pool (.insert key value) home σ τ m pc
  current : Current T m (.insert key value) pc
  crowded : Crowded T root m (Known σ key)
  point : pc.Crowd T root m (Known σ key)
  occupied : m.Occupied
  copy : pc.Occupied

section Runs

variable [DecidableEq K] {σ τ : FiniteMap K V} {key : K} {value : V}

theorem Grown.start (T : Template K V) (host : Nat) :
    Grown T (initial T host).root (fun _ => none) .empty (initial T host).mem where
  between := .start T host
  crowded := by
    rintro p b ⟨pr, found, word⟩
    simp only [initial, initAsFirst, Mem.locks_newPlist] at word
    split at word <;> cases word
  occupied := by
    intro e el stored
    simp only [initial, initAsFirst, Mem.elists_newPlist] at stored
    cases stored

theorem Grown.growing (grown : Grown T root home σ m) (pool : Nat) (key : K) (value : V) :
    Growing T root pool key value home σ σ m .readRoot where
  solo := grown.between.solo pool _
  current := trivial
  crowded p b word := (grown.crowded p b word).mono fun _ isSome => .inr isSome
  point grows := by cases grows
  occupied := grown.occupied
  copy := trivial

theorem Growing.full (growing : Growing T root pool key value home σ τ m pc) (new : σ key = none) {t : Traversal}
    {b i : Nat} {bb : RemotePtr} {e : ElistRef K V} {el : EList K V} (here : pc = .search t b bb e i)
    (stored : e.get m = some el) (full : T.elistSize ≤ el.count) :
    Crowd T root m (Known σ key) t.beforeLocalizedCurr b := by
  subst here
  obtain rfl := growing.solo.before rfl
  have at_ : AtList T root home m pool t b bb e none := growing.solo.inv
  obtain ⟨leads, el', _, got, settled, _⟩ := growing.solo.point
  cases stored.symm.trans got
  obtain ⟨el', stored', fits⟩ := at_.get
  cases stored.symm.trans stored'
  refine ⟨t.depth, key :: el.live.map Pair.key, ?_, ?_, ?_⟩
  · refine List.nodup_cons.mpr ⟨fun mem => ?_, settled.agrees.distinct⟩
    obtain ⟨pair, live, same⟩ := List.mem_map.mp mem
    have bound := settled.agrees.lookup_eq live
    rw [same, new] at bound
    cases bound
  · rw [List.length_cons, List.length_map, EList.length_live fits]
    omega
  · intro k mem
    rcases List.mem_cons.mp mem with rfl | old
    · exact ⟨.inl rfl, leads⟩
    · obtain ⟨pair, live, rfl⟩ := List.mem_map.mp old
      exact ⟨.inr (by rw [settled.agrees.lookup_eq live]; rfl), settled.agrees.inside pair live⟩

theorem Growing.next (plist : 2 ≤ T.plistSize) (elist : 1 ≤ T.elistSize)
    (growing : Growing T root pool key value home σ τ m pc) (new : σ key = none)
    (stepped : step T pool root (.insert key value) m pc = .ok (m', .inl pc')) :
    ∃ home' τ', Growing T root pool key value home' σ τ' m' pc' := by
  have branch := step_branch stepped
  obtain ⟨home₁, touch, sound⟩ := growing.solo.safe.sound plist elist (solo_threads _) stepped
  obtain ⟨home', goes, _⟩ := growing.solo.next plist elist growing.current stepped
  obtain ⟨τ', solo⟩ := goes pc' rfl
  obtain ⟨occupied, copy⟩ := branch.occupied rfl growing.occupied growing.copy
  refine ⟨home', τ', solo, (growing.solo.progress growing.current stepped).1, ?_, ?_, occupied, copy pc' rfl⟩
  · exact growing.crowded.next growing.point growing.solo.shape growing.solo.inv branch sound
  · intro grows p b held
    have crowd : Crowd T root m (Known σ key) p b := by
      rcases branch.grows grows held with ⟨was, held⟩ | ⟨t, b, bb, e, i, el, here, stored, full, same⟩
      · exact growing.point was p b held
      · cases same
        exact growing.full new here stored full
    exact crowd.stable sound.change (sound.open_ growing.solo.inv)

theorem Growing.reached (plist : 2 ≤ T.plistSize) (elist : 1 ≤ T.elistSize)
    (growing : Growing T root pool key value home σ τ m pc) (new : σ key = none)
    (reached : Reachable (advance T root pool (.insert key value)) (m, pc) (m', pc')) :
    ∃ home' τ', Growing T root pool key value home' σ τ' m' pc' := by
  refine reached.invariant (P := fun at_ => ∃ home' τ', Growing T root pool key value home' σ τ' at_.1 at_.2)
    ⟨home, τ, growing⟩ ?_
  rintro ⟨m₁, pc₁⟩ _ ⟨m₂, pc₂⟩ ⟨home₁, τ₁, growing₁⟩ _ enabled
  exact growing₁.next plist elist new (advance_eq_some.mp enabled)

theorem Grown.insert (plist : 2 ≤ T.plistSize) (elist : 1 ≤ T.elistSize) (grown : Grown T root home σ m)
    (new : σ key = none) {fuel : Nat} {res : HtRes V}
    (done : finish T root pool (.insert key value) fuel m .readRoot = .ok (m', res)) :
    ∃ home', Grown T root home' (Function.update σ key (some value)) m' := by
  obtain ⟨m₁, pc₁, reached, returns⟩ := finish_reached done
  obtain ⟨home₁, τ, growing⟩ := (grown.growing pool key value).reached plist elist new reached
  obtain ⟨_, touch, sound⟩ := growing.solo.safe.sound plist elist (solo_threads _) returns
  obtain ⟨home', _, ends⟩ := growing.solo.next plist elist growing.current returns
  obtain ⟨_, between⟩ := ends res rfl
  have branch := step_branch returns
  rw [T.spec_insert value new] at between
  have crowded := growing.crowded.next growing.point growing.solo.shape growing.solo.inv branch sound
  refine ⟨home', between, fun p b word => (crowded p b word).mono ?_, (branch.occupied rfl growing.occupied growing.copy).1⟩
  rintro k (rfl | before)
  · simp
  · rw [Function.update_apply]
    split
    · rfl
    · exact before

def inserts (calls : List (Nat × K × V)) : List (Nat × IhtOp K V) :=
  calls.map fun (pool, key, value) => (pool, .insert key value)

def insertedKeys (calls : List (Nat × K × V)) : List K := calls.map fun (_, key, _) => key

theorem Grown.inserts (plist : 2 ≤ T.plistSize) (elist : 1 ≤ T.elistSize) {fuel : Nat} (calls : List (Nat × K × V))
    (grown : Grown T root home σ m) (new : ∀ key ∈ insertedKeys calls, σ key = none) (distinct : (insertedKeys calls).Nodup)
    {results : List (HtRes V)} (done : operations T root fuel m (Iht.inserts calls) = .ok (m', results)) :
    ∃ home' σ', Grown T root home' σ' m' ∧ ∀ k, (σ' k).isSome ↔ (σ k).isSome ∨ k ∈ insertedKeys calls := by
  induction calls generalizing home σ m results with
  | nil =>
    cases done
    exact ⟨home, σ, grown, fun k => by simp [insertedKeys]⟩
  | cons call rest ih =>
    obtain ⟨pool, key, value⟩ := call
    obtain ⟨⟨m₁, res⟩, first, others⟩ := bind_eq_ok.mp done
    obtain ⟨⟨m₂, later⟩, tail, last⟩ := bind_eq_ok.mp others
    cases last
    obtain ⟨absent, distinct'⟩ := List.nodup_cons.mp distinct
    obtain ⟨home₁, grown₁⟩ := grown.insert plist elist (new key (List.mem_cons_self ..)) first
    -- the keys are distinct, so the rest of them are new in the map after this insert too
    have new' : ∀ k ∈ insertedKeys rest, Function.update σ key (some value) k = none := by
      intro k mem
      have other : k ≠ key := by
        rintro rfl
        exact absent mem
      rw [Function.update_of_ne other]
      exact new k (List.mem_cons_of_mem _ mem)
    obtain ⟨home₂, σ₂, grown₂, bound⟩ := ih grown₁ new' distinct' tail
    refine ⟨home₂, σ₂, grown₂, fun k => ?_⟩
    rw [bound, Function.update_apply]
    by_cases same : k = key
    · simp [same, insertedKeys]
    · simp [same, insertedKeys]

end Runs

end RdmaIht.Iht
