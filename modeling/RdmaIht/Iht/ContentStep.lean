import RdmaIht.Iht.ContentInvariant

/-! One step of one thread and the finite map.

All steps but two leave the map as it is: the pairs they store are in a bucket
whose lock the thread holds, or in a P-List that nobody knows yet. Unlocking a
permanently unlocked bucket publishes the P-List below it, which holds the same
bindings. Unlocking an open bucket is where an operation takes effect.
-/

set_option autoImplicit false

namespace RdmaIht.Iht

variable {K V : Type} [DecidableEq K]

variable {T : Template K V} {root : RemotePtr} {home home' : Home} {m m' : Mem K V} {σ σ' : FiniteMap K V}
  {seen : FiniteMap K V → Prop} {op : IhtOp K V} {touch : RemotePtr → Nat → Prop} {pool : Nat}
  {pc : Pc K V} {next : Pc K V ⊕ HtRes V}

/-! ## The open buckets -/

section Open

omit [DecidableEq K]

theorem Descent.plist (shape : Shape T root home m) {p : RemotePtr} {d : Nat} (descent : Descent root m p d) :
    ∃ bs, m.plists p = some bs := by
  cases descent with
  | root =>
    obtain ⟨bs, stored, _⟩ := shape.root_size
    exact ⟨bs, stored⟩
  | down _ found closed =>
    obtain ⟨_, _, child, _, stored, _⟩ := shape.closed found closed
    exact ⟨child, stored⟩

theorem Sound.bucket_back (sound : Sound T root pool home m pc home' touch m' next)
    (shape : Shape T root home m) {p : RemotePtr} {d b : Nat} (descent : Descent root m p d) {pr : PlistPair}
    (found : m'.bucket p b = some pr) : ∃ pr', m.bucket p b = some pr' := by
  obtain ⟨bs, stored⟩ := descent.plist shape
  exact sound.change.bucket_back stored found

theorem Sound.touched_locked (sound : Sound T root pool home m pc home' touch m' next)
    (shape : Shape T root home m) (inv : PcInv T root home m pool pc)
    (keeps : ∀ x, pc.held = some x → heldNext next = some x) {p : RemotePtr} {d b : Nat}
    (descent : Descent root m p d) (open_ : m'.Word p b .eUnlocked) : ¬ touch p b := by
  have locked : heldNext next ≠ some (p, b) := by
    intro holds
    cases next with
    | inl pc' => cases open_.functional ((sound.inv pc' rfl).held holds).1
    | inr res => cases holds
  intro touched
  rcases sound.touched p b touched with holds | builds | ⟨_, _, holds⟩
  · exact locked (keeps _ holds)
  · exact inv.built_unpublished shape builds (descent.published shape)
  · exact locked holds

theorem Descent.back (sound : Sound T root pool home m pc home' touch m' next)
    (inv : PcInv T root home m pool pc) (shape : Shape T root home m)
    (keeps : ∀ x, pc.held = some x → heldNext next = some x) {p : RemotePtr} {d : Nat}
    (descent : Descent root m' p d) : Descent root m p d := by
  induction descent with
  | root => exact .root
  | down _ found closed ih =>
    obtain ⟨pr, was⟩ := sound.bucket_back shape ih found
    rcases sound.closes _ _ ⟨_, found, closed⟩ with word | ⟨holds, none⟩
    · obtain ⟨now, same⟩ := sound.change.bucket_eq (sound.open_ inv _ _ word) was
      cases now.symm.trans found
      exact .down ih was (same ▸ closed)
    · rw [keeps _ holds] at none
      cases none

end Open

/-- How a step carries the map over: a bucket is left alone, or what it holds is given. -/
theorem Content.change (content : Content T root home m σ) (shape : Shape T root home m)
    (inv : PcInv T root home m pool pc) (sound : Sound T root pool home m pc home' touch m' next)
    (opened : ∀ {p d b}, Descent root m' p d → m'.Word p b .eUnlocked → (Descent root m p d ∧ ¬ touch p b) ∨
      ∃ base, Settled T root home' m' σ' p d b base none (m'.content base))
    (empty : ∀ {p d b}, Descent root m' p d → Descent root m p d ∨ ∀ pr, m'.bucket p b = some pr →
      ∃ base, Settled T root home' m' σ' p d b base none (m'.content base))
    (same : ∀ {p d b}, Descent root m p d → ¬ m.Word p b .pUnlocked →
      (∀ key, Leads T root m p d b key → σ' key = σ key) ∨
        ∃ base, Settled T root home' m' σ' p d b base none (m'.content base)) :
    Content T root home' m' σ' := by
  have open_ := sound.open_ inv
  have back : ∀ {p d b key}, Descent root m p d → (Leads T root m' p d b key ↔ Leads T root m p d b key) :=
    fun old => Leads.stable_iff sound.change open_ sound.shape old
  -- a bucket that is settled for some base is settled for the base it shows
  have given : ∀ {p d b pr}, m'.bucket p b = some pr →
      (∃ base, Settled T root home' m' σ' p d b base none (m'.content base)) →
      Settled T root home' m' σ' p d b pr.base none (m'.content pr.base) := by
    rintro p d b pr found ⟨base, settled⟩
    obtain ⟨pr', found', rfl⟩ := settled.found
    cases found.symm.trans found'
    exact settled
  refine ⟨?_, ?_⟩
  · intro p d b pr descent found word
    rcases opened descent ⟨pr, found, word⟩ with ⟨old, away⟩ | settled
    · obtain ⟨pr', was⟩ := sound.bucket_back shape old found
      obtain ⟨now, lock⟩ := sound.change.bucket_eq away was
      cases now.symm.trans found
      have before := content.opened old was (lock ▸ word)
      have notClosed : ¬ m.Word p b .pUnlocked := by
        intro closed
        cases closed.functional ⟨pr, was, lock ▸ word⟩
      rcases same old notClosed with same | settled
      · rw [Mem.content_stable sound.change shape was away]
        exact before.stable sound.change open_ sound.shape old away same
      · exact given found settled
    · exact given found settled
  · intro p d b pr descent found null key leads
    have absent : (∃ base, Settled T root home' m' σ' p d b base none (m'.content base)) → σ' key = none := by
      intro settled
      have now := given found settled
      rw [null, Mem.content_null] at now
      exact now.agrees.absent leads (by simp)
    rcases empty descent with old | settled
    · obtain ⟨pr', was⟩ := sound.bucket_back shape old found
      have nullBefore := sound.emptied p b pr' pr was found null
      have notClosed : ¬ m.Word p b .pUnlocked := by
        rintro ⟨qr, was', closed⟩
        cases was.symm.trans was'
        exact shape.null_not_plist_child was closed nullBefore
      rcases same old notClosed with same | settled
      · rw [same key ((back old).mp leads)]
        exact content.empty old was nullBefore key ((back old).mp leads)
      · exact absent settled
    · exact absent (settled pr found)

theorem Content.keep (content : Content T root home m σ) (shape : Shape T root home m)
    (inv : PcInv T root home m pool pc) (sound : Sound T root pool home m pc home' touch m' next)
    (keeps : ∀ x, pc.held = some x → heldNext next = some x) : Content T root home' m' σ := by
  refine content.change shape inv sound (fun descent word => .inl ?_) (fun descent => .inl ?_)
    (fun _ _ => .inl fun _ _ => rfl)
  · have old := descent.back sound inv shape keeps
    exact ⟨old, sound.touched_locked shape inv keeps old word⟩
  · exact descent.back sound inv shape keeps

/-! ## Bindings and results -/

section Spec

variable (T)

theorem Template.spec_insert {key : K} (value : V) (absent : σ key = none) :
    T.spec.apply σ (.insert key value) = (Function.update σ key (some value), ⟨.trueState, T.zero⟩) := by
  simp [spec, FiniteMap.apply, IhtOp.key, absent]

theorem Template.spec_remove {key : K} {value : V} (present : σ key = some value) :
    T.spec.apply σ (.remove key) = (Function.update σ key none, ⟨.trueState, T.toValue (T.toKey value)⟩) := by
  simp [spec, FiniteMap.apply, IhtOp.key, present]

theorem Template.spec_absent (absent : σ op.key = none) (reads : ∀ k v, op ≠ .insert k v) :
    T.spec.apply σ op = (σ, ⟨.falseState, T.zero⟩) := by
  simp only [spec, FiniteMap.apply_absent T.zero absent reads, absent]

theorem Template.spec_contains {key : K} {value : V} (present : σ key = some value) :
    T.spec.apply σ (.contains key) = (σ, ⟨.trueState, T.toValue (T.toKey value)⟩) := by
  simp [spec, FiniteMap.apply, IhtOp.key, present]

theorem Template.spec_insert_present {key : K} (value : V) {old : V} (present : σ key = some old) :
    T.spec.apply σ (.insert key value) = (σ, ⟨.falseState, T.toValue (T.toKey old)⟩) := by
  simp [spec, FiniteMap.apply, IhtOp.key, present]

omit [DecidableEq K] in
theorem Template.elistInsert_live {T : Template K V} {el el' : EList K V} (fits : T.Fits el) {pair : Pair K V}
    (inserted : T.elistInsert el pair = some el') : el'.live = el.live ++ [pair] := by
  simp only [elistInsert] at inserted
  split at inserted
  · cases inserted
    exact el.live_insert pair fits.1
  · cases inserted

end Spec

omit [DecidableEq K] in
theorem EList.length_live {T : Template K V} {el : EList K V} (fits : T.Fits el) : el.live.length = el.count := by
  rw [live, List.length_take, Nat.min_eq_left fits.1]

omit [DecidableEq K] in
theorem EList.live_swapLast {el : EList K V} {i : Nat} (live : i < el.count) (bound : el.count ≤ el.pairs.length)
    (last : Pair K V) : ((el.store i last).withCount (el.count - 1)).live = (el.live.set i last).take (el.count - 1) := by
  have split : el.pairs.take i ++ last :: el.pairs.drop (i + 1) = el.pairs.set i last := by
    rw [List.set_eq_take_append_cons_drop, if_pos (by omega)]
  simp only [EList.live, store, withCount, split, List.take_set, List.take_take]
  rw [Nat.min_eq_left (Nat.sub_le _ _)]

theorem Settled.of_agrees (inv : PcInv T root home m pool pc)
    (sound : Sound T root pool home m pc home' touch m' next) {p base : RemotePtr} {d b : Nat}
    {extra : Option RemotePtr} {pairs : List (Pair K V)}
    (agrees : Assoc.Represents Pair.key Pair.val pairs σ (Leads T root m p d b)) (old : Descent root m p d)
    (found : ∃ pr, m'.bucket p b = some pr ∧ pr.base = base)
    (sole : ∀ e, home' e = some (p, b) → e = base ∨ some e = extra) :
    Settled T root home' m' σ p d b base extra pairs where
  found := found
  sole := sole
  agrees := agrees.congr (fun _ => Leads.stable_iff sound.change (sound.open_ inv) sound.shape old) fun _ _ => rfl

end RdmaIht.Iht
