import RdmaIht.Iht.ContentPoints

/-! The bindings while a bucket is rehashed, and where operations take effect.

`rehash` distributes the pairs of a full E-List over the buckets of a new P-List,
one pair a turn; publishing that P-List changes no binding. An operation takes
effect when it unlocks the bucket its key leads to.
-/

set_option autoImplicit false

namespace RdmaIht.Iht

variable {K V : Type} [DecidableEq K]

variable {T : Template K V} {root : RemotePtr} {home home' : Home} {m m' : Mem K V} {σ : FiniteMap K V}
  {seen : FiniteMap K V → Prop} {op : IhtOp K V} {touch : RemotePtr → Nat → Prop} {pool : Nat}
  {pc' : Pc K V} {next : Pc K V ⊕ HtRes V}

section Rehash

omit [DecidableEq K] in
theorem Building.apart (shape : Shape T root home m) {t : Traversal} {b : Nat} {newP : RemotePtr}
    (building : Building home m t b newP) (word : m.Word t.beforeLocalizedCurr b .eLocked)
    (published : Published root home m t.beforeLocalizedCurr) : newP ≠ t.beforeLocalizedCurr := by
  rintro rfl
  rcases published with same | ⟨q, j, owned, closed⟩
  · have owned := building.built_home
    rw [same, shape.home_root] at owned
    cases owned
  · cases building.built_home.symm.trans owned
    cases closed.functional word

theorem newPlist_content (shape : Shape T root home m) {t : Traversal} {b : Nat} {bb : RemotePtr}
    {e : ElistRef K V} (inv : PcInv T root home m pool (.newPlist t b bb e))
    (mine : PcContent T root home m σ seen op (.newPlist t b bb e))
    (branch : Branch T pool root op m (.newPlist t b bb e) m' (.inl pc'))
    (sound : Sound T root pool home m (.newPlist t b bb e) home' touch m' (.inl pc')) :
    PcContent T root home' m' σ seen op pc' := by
  have at_ : AtList T root home m pool t b bb e none := inv
  obtain ⟨leads, el, stored, got, settled⟩ := mine
  cases branch with
  | @newPlist _ _ _ _ n _ =>
    have building : Building home' (m.newPlist pool n) t b (m.fresh pool) := (sound.inv _ rfl).2.1
    obtain ⟨pr, found, base⟩ := settled.found
    have apart : t.beforeLocalizedCurr ≠ m.fresh pool := shape.ne_fresh_of_bucket found
    refine ⟨leads.stable sound.change (sound.open_ inv), el, by rw [Mem.elists_newPlist]; exact stored,
      .of_agrees inv sound settled.agrees leads.1.descent ?_ ?_, ?_⟩
    · exact ⟨pr, shape.bucket_newPlist found, base⟩
    · intro e' owned
      rcases sound.owners e' _ owned with old | ⟨rfl, _⟩
      · exact .inl ((settled.sole e' old).resolve_right (by simp))
      · exact .inr rfl
    · intro j pr found
      rcases Mem.bucket_of_newPlist found with ⟨_, _, rfl⟩ | was
      · refine ⟨rfl, fun e' owned => ?_⟩
        rcases sound.owners e' _ owned with old | ⟨rfl, _⟩
        · exact absurd old shape.not_home_fresh
        · exact absurd (congrArg Prod.fst (Option.some.inj (building.built_home.symm.trans owned))) apart
      · exact absurd rfl (shape.ne_fresh_of_bucket was)

theorem rehashSource_content {t : Traversal} {b : Nat} {bb : RemotePtr} {e : ElistRef K V} {newP : RemotePtr}
    (inv : PcInv T root home m pool (.rehashSource t b bb e newP))
    (mine : PcContent T root home m σ seen op (.rehashSource t b bb e newP))
    (branch : Branch T pool root op m (.rehashSource t b bb e newP) m' (.inl pc'))
    (sound : Sound T root pool home m (.rehashSource t b bb e newP) home' touch m' (.inl pc')) :
    PcContent T root home' m' σ seen op pc' := by
  obtain ⟨at_, _, _⟩ := id inv
  obtain ⟨pr, found, rfl⟩ := at_.base_curr
  obtain ⟨leads, el, stored, settled, rehashed⟩ := mine
  obtain rfl := sound.home_eq rfl
  cases branch with
  | sourceLocal found' =>
    cases found.symm.trans found'
    exact ⟨leads, el, stored, settled, rehashed⟩
  | sourceRemote found' _ stored' =>
    cases found.symm.trans found'
    cases stored.symm.trans stored'
    exact ⟨leads.stable sound.change (sound.open_ inv), el, rfl,
      .of_agrees inv sound settled.agrees leads.1.descent settled.found settled.sole, rehashed⟩

section Move

variable {t : Traversal} {b depth : Nat} {newP : RemotePtr} {pairs : List (Pair K V)} {pair : Pair K V} {pr : PlistPair}
  {el el' : EList K V}

omit [DecidableEq K]

theorem filter_index_append (j : Nat) : (pairs ++ [pair]).filter (fun other => decide (T.index other.key depth = j)) =
    pairs.filter (fun other => decide (T.index other.key depth = j)) ++ if T.index pair.key depth = j then [pair] else [] := by
  rw [List.filter_append]
  by_cases here : T.index pair.key depth = j <;> simp [here]

theorem Rehashed.first (shape : Shape T root home m)
    (shape' : Shape T root home' (m.linkElist pool newP (T.index pair.key depth) el))
    (owners : ∀ e x, home' e = some x → home e = some x ∨ e = m.fresh pool)
    (rehashed : Rehashed T home m newP depth pairs) (found : m.bucket newP (T.index pair.key depth) = some pr)
    (null : pr.base = .null) (one : el.live = [pair]) :
    Rehashed T home' (m.linkElist pool newP (T.index pair.key depth) el) newP depth (pairs ++ [pair]) := by
  intro j pr' found'
  rw [Mem.bucket_linkElist] at found'
  rw [filter_index_append j]
  by_cases here : j = T.index pair.key depth
  · subst here
    rw [if_pos ⟨rfl, rfl⟩] at found'
    obtain ⟨old, was, rfl⟩ := Option.map_eq_some_iff.mp found'
    obtain rfl : pr = old := Option.some.inj (found.symm.trans was)
    obtain ⟨before, sole⟩ := rehashed _ pr found
    rw [null, Mem.content_null] at before
    refine ⟨?_, ?_⟩
    · rw [if_pos rfl, ← before, Mem.content_elist (shape.fresh_ne_null pool)
        (by rw [Mem.elists_linkElist, if_pos rfl]), one]
      rfl
    · intro e owned
      -- an E-List from before would be the base, which was null
      rcases owners e _ owned with old | same
      · have isNull := sole e old
        rw [null] at isNull
        rw [isNull, shape.home_null] at old
        cases old
      · exact same
  · rw [if_neg fun both => here both.2] at found'
    obtain ⟨before, sole⟩ := rehashed j pr' found'
    rw [if_neg (Ne.symm here), List.append_nil, ← before]
    refine ⟨?_, ?_⟩
    · rcases shape.base_ok found' with null' | owned
      · rw [null']
        rfl
      · simp only [Mem.content, Mem.elists_linkElist, if_neg (shape.ne_fresh_of_home owned)]
    · intro e owned
      rcases owners e _ owned with old | rfl
      · exact sole e old
      · -- the new E-List belongs to the bucket it was linked in
        have linked : (m.linkElist pool newP (T.index pair.key depth) el).bucket newP (T.index pair.key depth) =
            some { pr with base := m.fresh pool } := by
          rw [Mem.bucket_linkElist, if_pos ⟨rfl, rfl⟩, found]
          rfl
        have mine := (shape'.base_ok linked).resolve_left (shape.fresh_ne_null pool)
        cases mine.symm.trans owned
        exact absurd rfl here

theorem Rehashed.more (shape : Shape T root home m) (shape' : Shape T root home' (m.setElist pr.base el'))
    (building : Building home m t b newP) (owners : ∀ e x, home' e = some x → home e = some x ∨ e = m.fresh pool)
    (rehashed : Rehashed T home m newP depth pairs) (found : m.bucket newP (T.index pair.key depth) = some pr)
    (null : pr.base ≠ .null) (stored : m.elists pr.base = some el) (grown : el'.live = el.live ++ [pair]) :
    Rehashed T home' (m.setElist pr.base el') newP depth (pairs ++ [pair]) := by
  have owned := (shape.base_ok found).resolve_left null
  intro j pr' found'
  have found' : m.bucket newP j = some pr' := found'
  obtain ⟨before, sole⟩ := rehashed j pr' found'
  rw [filter_index_append j]
  refine ⟨?_, ?_⟩
  · by_cases here : j = T.index pair.key depth
    · subst here
      obtain rfl : pr = pr' := Option.some.inj (found.symm.trans found')
      rw [if_pos rfl, ← before, Mem.content_elist null stored,
        Mem.content_elist null (by rw [Mem.elists_setElist, if_pos rfl]), grown]
    · rw [if_neg (Ne.symm here), List.append_nil, ← before]
      rcases shape.base_ok found' with null' | owned'
      · rw [null']
        rfl
      · have other : pr'.base ≠ pr.base := by
          intro same
          rw [same, owned] at owned'
          cases owned'
          exact here rfl
        simp only [Mem.content, Mem.elists_setElist, other, if_false]
  · intro e owned'
    rcases owners e _ owned' with old | rfl
    · exact sole e old
    · -- this turn allocates nothing
      obtain ⟨list, stored', _⟩ := shape'.opened (show (m.setElist pr.base el').bucket newP j = some pr' from found')
        (building.unlocked found') _ owned'
      rw [Mem.elists_setElist, if_neg (shape.ne_fresh_of_home owned).symm, shape.elists_fresh] at stored'
      cases stored'

/-- One turn of the loop of `rehash`: the pair is added to its bucket, the other blocks stay. -/
theorem moveInto_content (shape : Shape T root home m) (shape' : Shape T root home' m') {count : Nat}
    (building : Building home m t b newP) (size : T.levelHash pair.key depth count = T.index pair.key depth)
    (owners : ∀ e x, home' e = some x → home e = some x ∨ e = m.fresh pool)
    (rehashed : Rehashed T home m newP depth pairs)
    (moved : moveInto T pool m newP depth count pair = .ok m') :
    Rehashed T home' m' newP depth (pairs ++ [pair]) ∧
      (∀ p j, p ≠ newP → m'.bucket p j = m.bucket p j) ∧
      ∀ e p j, home e = some (p, j) → p ≠ newP → m'.elists e = m.elists e := by
  rw [moveInto_eq_ok, size] at moved
  cases moved with
  | first found null inserted =>
    refine ⟨rehashed.first shape shape' owners found null (Template.elistInsert_live T.fits_empty inserted), ?_, ?_⟩
    · intro p j other
      rw [Mem.bucket_linkElist, if_neg fun both => other both.1]
    · intro e p j owned _
      rw [Mem.elists_linkElist, if_neg (shape.ne_fresh_of_home owned)]
  | @more pr el el' found null stored inserted =>
    have owned := (shape.base_ok found).resolve_left null
    obtain ⟨_, stored', fits⟩ := shape.opened found (building.unlocked found) _ owned
    cases stored.symm.trans stored'
    have grown := Template.elistInsert_live fits inserted
    refine ⟨rehashed.more shape shape' building owners found null stored grown, fun _ _ _ => rfl, ?_⟩
    intro e p j owned' other
    rw [Mem.elists_setElist, if_neg]
    rintro rfl
    rw [owned] at owned'
    cases owned'
    exact other rfl

end Move

theorem rehashMove_content (shape : Shape T root home m) {t : Traversal} {b i : Nat} {bb newP : RemotePtr}
    {e source : ElistRef K V} (inv : PcInv T root home m pool (.rehashMove t b bb e newP source i))
    (mine : PcContent T root home m σ seen op (.rehashMove t b bb e newP source i))
    (branch : Branch T pool root op m (.rehashMove t b bb e newP source i) m' (.inl pc'))
    (sound : Sound T root pool home m (.rehashMove t b bb e newP source i) home' touch m' (.inl pc')) :
    PcContent T root home' m' σ seen op pc' := by
  obtain ⟨at_, building, _, ref, _⟩ := id inv
  obtain ⟨leads, el, got, settled, rehashed⟩ := mine
  obtain ⟨el', got', fits⟩ := ref.get at_.stored
  cases got.symm.trans got'
  have length := EList.length_live fits
  have apart := building.apart shape at_.word at_.located.published
  have sole : ∀ e', home' e' = some (t.beforeLocalizedCurr, b) → e' = bb ∨ some e' = some newP := by
    intro e' owned
    rcases sound.owners e' _ owned with old | ⟨_, inside⟩
    · exact settled.sole e' old
    · exact absurd (Option.some.inj inside) apart
  cases branch with
  | @move _ _ _ _ _ _ _ _ pair _ got' live slot moved =>
    cases got.symm.trans got'
    have size : T.levelHash pair.key (t.depth + 1) (t.count * 2) = T.index pair.key (t.depth + 1) := by
      rw [Template.index, T.size_succ at_.located.depth_pos, at_.located.count_eq]
    obtain ⟨grown, buckets, lists⟩ := moveInto_content shape sound.shape building size
      (fun e x owned => (sound.owners e x owned).imp_right And.left) rehashed moved
    have same : source.get m' = source.get m := by
      cases kind : source with
      | copied block old => rfl
      | inPlace p =>
        obtain ⟨rfl, _⟩ := ref.inPlace p kind
        exact lists p _ _ at_.base_home apart.symm
    refine ⟨leads.stable sound.change (sound.open_ inv), el, same.trans got,
      .of_agrees inv sound settled.agrees leads.1.descent ?_ sole, ?_⟩
    · rw [buckets _ _ apart.symm]
      exact settled.found
    · rw [List.take_add_one, EList.getElem?_live live slot]
      exact grown
  | moved got' through =>
    cases got.symm.trans got'
    rw [List.take_of_length_le (by omega)] at rehashed
    refine ⟨leads.stable sound.change (sound.open_ inv), el.live,
      .of_agrees inv sound settled.agrees leads.1.descent settled.found sole, ?_⟩
    intro j pr found
    obtain ⟨content, only⟩ := rehashed j pr found
    refine ⟨content, fun e' owned => ?_⟩
    rcases sound.owners e' _ owned with old | ⟨rfl, _⟩
    · exact only e' old
    · -- nothing was allocated in the last turn
      obtain ⟨list, stored, _⟩ := sound.shape.opened found (building.unlocked found) _ owned
      rw [shape.elists_fresh] at stored
      cases stored

theorem rehashFree_content (shape : Shape T root home m) {t : Traversal} {b : Nat} {bb newP : RemotePtr}
    {e source : ElistRef K V} (inv : PcInv T root home m pool (.rehashFree t b bb e newP source))
    (mine : PcContent T root home m σ seen op (.rehashFree t b bb e newP source))
    (branch : Branch T pool root op m (.rehashFree t b bb e newP source) m' (.inl pc'))
    (sound : Sound T root pool home m (.rehashFree t b bb e newP source) home' touch m' (.inl pc')) :
    PcContent T root home' m' σ seen op pc' := by
  obtain ⟨at_, building, ref⟩ := id inv
  obtain ⟨leads, pairs, settled, rehashed⟩ := mine
  obtain rfl := sound.home_eq rfl
  cases branch
  cases kind : source with
  | copied block old =>
    subst kind
    exact ⟨leads, pairs, settled, rehashed⟩
  | inPlace p =>
    obtain ⟨rfl, _⟩ := ref.inPlace p kind
    subst kind
    have apart := building.apart shape at_.word at_.located.published
    have change : Change (fun q j => (q, j) = (t.beforeLocalizedCurr, b)) home' home' m (m.freeElist p) :=
      .freeElist at_.base_home rfl
    obtain ⟨bs, stored, _⟩ := building.built_plist
    refine ⟨leads.stable sound.change (sound.open_ inv), pairs,
      .of_agrees inv sound settled.agrees leads.1.descent settled.found settled.sole,
      rehashed.stable change shape stored fun j same => apart (congrArg Prod.fst same)⟩

theorem publishPlist_content (shape : Shape T root home m) {t : Traversal} {b : Nat} {bb newP : RemotePtr}
    {e : ElistRef K V} (inv : PcInv T root home m pool (.publishPlist t b bb e newP))
    (mine : PcContent T root home m σ seen op (.publishPlist t b bb e newP))
    (branch : Branch T pool root op m (.publishPlist t b bb e newP) m' (.inl pc'))
    (sound : Sound T root pool home m (.publishPlist t b bb e newP) home' touch m' (.inl pc')) :
    PcContent T root home' m' σ seen op pc' := by
  obtain ⟨located, word, building, ref⟩ := id inv
  obtain ⟨leads, pairs, settled, rehashed⟩ := mine
  obtain ⟨pr, found, _⟩ := settled.found
  have apart := building.apart shape word located.published
  obtain rfl := sound.home_eq rfl
  cases branch
  refine ⟨leads.stable sound.change (sound.open_ inv), pairs, ?_, ?_⟩
  · refine .of_agrees inv sound settled.agrees leads.1.descent (by simp [Mem.bucket_setBase, found]) ?_
    intro e' owned
    rcases settled.sole e' owned with rfl | same
    · exact .inr rfl
    · exact .inl (Option.some.inj same)
  · intro j qr found
    rw [Mem.bucket_setBase, if_neg fun both => apart both.1] at found
    exact rehashed j qr found

theorem updateCurr_content (shape : Shape T root home m) {t : Traversal} {b : Nat} {bb newP : RemotePtr}
    {e : ElistRef K V} (inv : PcInv T root home m pool (.updateCurr t b bb e newP))
    (mine : PcContent T root home m σ seen op (.updateCurr t b bb e newP))
    (branch : Branch T pool root op m (.updateCurr t b bb e newP) m' (.inl pc'))
    (sound : Sound T root pool home m (.updateCurr t b bb e newP) home' touch m' (.inl pc')) :
    PcContent T root home' m' σ seen op pc' := by
  obtain ⟨located, word, building, ref, _⟩ := id inv
  obtain ⟨leads, pairs, settled, rehashed⟩ := mine
  have apart := building.apart shape word located.published
  obtain rfl := sound.home_eq rfl
  cases branch
  cases curr : t.curr with
  | inPlace p =>
    obtain ⟨rfl, _⟩ := located.inPlace p curr
    obtain ⟨pr, found, _⟩ := settled.found
    simp only [curr, PlistRef.setBase] at sound ⊢
    refine ⟨leads.stable sound.change (sound.open_ inv), ?_, pairs, ?_, ?_⟩
    · intro block buckets qr copy
      cases copy
    · exact .of_agrees inv sound settled.agrees leads.1.descent (by simp [Mem.bucket_setBase, found]) settled.sole
    · intro j qr found
      rw [Mem.bucket_setBase, if_neg fun both => apart both.1] at found
      exact rehashed j qr found
  | copied block buckets =>
    refine ⟨leads, ?_, pairs, settled, rehashed⟩
    -- the copy shows the new P-List in the bucket of the key
    intro block' buckets' qr copy at_ null
    cases copy
    rw [List.getElem?_modify] at at_
    obtain ⟨old, _, rfl⟩ := Option.map_eq_some_iff.mp at_
    dsimp only at null
    rw [if_pos leads.2.symm] at null
    obtain rfl : newP = .null := null
    have owned := building.built_home
    rw [shape.home_null] at owned
    cases owned

theorem afterRehash_content {t : Traversal} {bb : RemotePtr} {e : ElistRef K V}
    (inv : PcInv T root home m pool (.afterRehash t bb e))
    (mine : PcContent T root home m σ seen op (.afterRehash t bb e))
    (branch : Branch T pool root op m (.afterRehash t bb e) m' (.inl pc'))
    (sound : Sound T root pool home m (.afterRehash t bb e) home' touch m' (.inl pc')) :
    PcContent T root home' m' σ seen op pc' := by
  cases branch
  rw [inv.2.release_eq] at sound ⊢
  exact ⟨mine.1.stable sound.change (sound.open_ inv), mine.2⟩

end Rehash

/-! ## Unlocking -/

section Unlock

omit [DecidableEq K] in
/-- After `unlock(.., P_UNLOCKED)` a descent reaches what it reached before, or the new P-List. -/
theorem Descent.of_closed (shape : Shape T root home m) {t : Traversal} {b : Nat} {newP : RemotePtr}
    {pr : PlistPair} (before : Descent root m t.beforeLocalizedCurr t.depth)
    (building : Building home m t b newP) (found : m.bucket t.beforeLocalizedCurr b = some pr)
    (base : pr.base = newP) (apart : newP ≠ t.beforeLocalizedCurr) {p : RemotePtr} {d : Nat}
    (descent : Descent root (m.setLock pr.lock .pUnlocked) p d) :
    Descent root m p d ∨ (p = newP ∧ d = t.depth + 1) := by
  induction descent with
  | root => exact .inl .root
  | @down q n j qr _ at_ closed ih =>
    have at_ : m.bucket q j = some qr := at_
    rw [Mem.locks_setLock] at closed
    split at closed
    · next same =>
      obtain ⟨rfl, rfl⟩ := shape.lock_inj at_ found same
      cases at_.symm.trans found
      rcases ih with old | ⟨here, _⟩
      · rw [old.functional shape before]
        exact .inr ⟨base, rfl⟩
      · exact absurd here.symm apart
    · rcases ih with old | ⟨rfl, _⟩
      · exact .inl (.down old at_ closed)
      · rw [building.unlocked at_] at closed
        cases closed

theorem unlockPlist_content (shape : Shape T root home m) (content : Content T root home m σ) {t : Traversal}
    {b : Nat} {bb newP : RemotePtr} {e : ElistRef K V}
    (inv : PcInv T root home m pool (.unlockPlist t b bb e newP))
    (mine : PcContent T root home m σ seen op (.unlockPlist t b bb e newP))
    (branch : Branch T pool root op m (.unlockPlist t b bb e newP) m' (.inl pc'))
    (sound : Sound T root pool home m (.unlockPlist t b bb e newP) home' touch m' (.inl pc')) :
    Content T root home' m' σ ∧ PcContent T root home' m' σ seen op pc' := by
  obtain ⟨located, word, building, _⟩ := id inv
  obtain ⟨leads, null, pairs, settled, rehashed⟩ := mine
  obtain rfl := sound.home_eq rfl
  have apart := building.apart shape word located.published
  have open_ := sound.open_ inv
  obtain ⟨pr, found, base⟩ := settled.found
  cases branch with
  | unlockPlist copied =>
    obtain ⟨pr', found', lock, _⟩ := located.bucket shape copied
    cases found.symm.trans found'
    rw [lock] at sound ⊢
    have closed : (m.setLock pr.lock .pUnlocked).locks pr.lock = some .pUnlocked := by
      rw [Mem.locks_setLock, if_pos rfl]
    -- the new P-List holds the pairs of the bucket, each where its key now leads
    have child : ∀ j qr, m.bucket newP j = some qr →
        Settled T root home' (m.setLock pr.lock .pUnlocked) σ newP (t.depth + 1) j qr.base none
          ((m.setLock pr.lock .pUnlocked).content qr.base) := by
      intro j qr at_
      obtain ⟨held, sole⟩ := rehashed j qr at_
      have held : (m.setLock pr.lock .pUnlocked).content qr.base = _ := held
      rw [held]
      refine ⟨⟨qr, at_, rfl⟩, fun e owned => .inl (sole e owned), ?_⟩
      refine (settled.agrees.filter fun key => decide (T.index key (t.depth + 1) = j)).congr ?_ fun _ _ => rfl
      intro key
      simp only [decide_eq_true_eq]
      constructor
      · rintro ⟨walk, here⟩
        obtain ⟨n, same, before⟩ := walk.parent sound.shape building.built_home
        obtain rfl : t.depth = n := Nat.add_right_cancel same
        exact ⟨(Leads.stable_iff sound.change open_ sound.shape leads.1.descent).mp before, here⟩
      · rintro ⟨⟨walk, rfl⟩, here⟩
        refine ⟨?_, here⟩
        rw [← base]
        exact .down (walk.stable sound.change open_) found closed
    refine ⟨content.change shape inv sound ?_ ?_ (fun _ _ => .inl fun _ _ => rfl), ?_⟩
    · intro p d j descent open'
      rcases Descent.of_closed shape leads.1.descent building found base apart descent with old | ⟨rfl, rfl⟩
      · refine .inl ⟨old, fun touched => ?_⟩
        rcases sound.touched p j touched with holds | builds | ⟨_, _, none⟩
        · cases holds
          cases open'.functional ⟨pr, found, closed⟩
        · exact inv.built_unpublished shape builds (old.published shape)
        · cases none
      · obtain ⟨qr, at_, _⟩ := open'
        exact .inr ⟨qr.base, child j qr at_⟩
    · intro p d j descent
      rcases Descent.of_closed shape leads.1.descent building found base apart descent with old | ⟨rfl, rfl⟩
      · exact .inl old
      · exact .inr fun qr at_ => ⟨qr.base, child j qr at_⟩
    · exact ⟨leads.1.stable sound.change open_, null⟩

/-- The map after a step: an operation takes effect at its `unlock`, now or, if it
found nothing in an old copy, at a time since it began. -/
inductive Effect (T : Template K V) (σ : FiniteMap K V) (seen : FiniteMap K V → Prop) (op : IhtOp K V) :
    Pc K V → FiniteMap K V → Prop where
  | keep {pc : Pc K V} : (∀ t b held res, pc ≠ .unlock t b held res) → Effect T σ seen op pc σ
  | now (t : Traversal) (b : Nat) (held : Option (RemotePtr × ElistRef K V)) :
      Effect T σ seen op (.unlock t b held (T.spec.apply σ op).2) (T.spec.apply σ op).1
  | past (t : Traversal) (b : Nat) (held : Option (RemotePtr × ElistRef K V)) {s : FiniteMap K V} {res : HtRes V} :
      seen s → T.spec.apply s op = (s, res) → Effect T σ seen op (.unlock t b held res) σ

theorem Effect.of_ne {pc : Pc K V} {σ' : FiniteMap K V} (effect : Effect T σ seen op pc σ') {key : K}
    (other : key ≠ op.key) : σ' key = σ key := by
  cases effect with
  | keep | past => rfl
  | now => exact FiniteMap.apply_of_ne T.zero σ op other

theorem Effect.same_or_unlock {pc : Pc K V} {σ' : FiniteMap K V} (effect : Effect T σ seen op pc σ') :
    σ' = σ ∨ ∃ t b held res, pc = .unlock t b held res := by
  cases effect with
  | keep | past => exact .inl rfl
  | now t b held => exact .inr ⟨t, b, held, _, rfl⟩

/-- The bucket that is unlocked holds the bindings of `σ'`, the others those they had. -/
theorem Content.unlocked (content : Content T root home m σ) (shape : Shape T root home m) {t : Traversal}
    {b : Nat} {held : Option (RemotePtr × ElistRef K V)} {res : HtRes V}
    (inv : PcInv T root home m pool (.unlock t b held res))
    (leads : Leads T root m t.beforeLocalizedCurr t.depth b op.key) {σ' : FiniteMap K V} {base : RemotePtr}
    (settled : SettledAt T root home m σ' t b base none (m.content base))
    (others : ∀ key, key ≠ op.key → σ' key = σ key)
    (branch : Branch T pool root op m (.unlock t b held res) m' next)
    (sound : Sound T root pool home m (.unlock t b held res) home' touch m' next) :
    Content T root home' m' σ' := by
  obtain ⟨holds, _⟩ := id inv
  obtain rfl := sound.home_eq rfl
  cases branch with
  | @unlock _ _ _ _ pr _ _ =>
    -- this unlock opens no way down
    have back : ∀ {p d}, Descent root (m.setLock pr.lock .eUnlocked) p d → Descent root m p d := by
      intro p d descent
      induction descent with
      | root => exact .root
      | down _ at_ closed ih =>
        rw [Mem.locks_setLock] at closed
        split at closed
        · cases closed
        · exact .down ih at_ closed
    have here : ∃ base, SettledAt T root home' (m.setLock pr.lock .eUnlocked) σ' t b base none
        ((m.setLock pr.lock .eUnlocked).content base) :=
      ⟨base, .of_agrees inv sound settled.agrees leads.1.descent settled.found settled.sole⟩
    refine content.change shape inv sound ?_ (fun descent => .inl (back descent)) ?_
    · intro p d j descent _
      by_cases mine : (t.beforeLocalizedCurr, b) = (p, j)
      · cases mine
        rw [(back descent).functional shape leads.1.descent]
        exact .inr here
      · refine .inl ⟨back descent, fun touched => ?_⟩
        rcases sound.touched p j touched with holds' | builds | ⟨_, _, none⟩
        · exact mine (Option.some.inj holds')
        · cases builds
        · cases none
    · intro p d j descent notClosed
      by_cases mine : (t.beforeLocalizedCurr, b) = (p, j)
      · cases mine
        rw [descent.functional shape leads.1.descent]
        exact .inr here
      · refine .inl fun key inside => others key ?_
        rintro rfl
        obtain ⟨rfl, _, rfl⟩ := leads.unique inside (fun closed => by cases closed.functional holds.word) notClosed
        exact mine rfl

theorem unlock_content (shape : Shape T root home m) (content : Content T root home m σ) {t : Traversal}
    {b : Nat} {held : Option (RemotePtr × ElistRef K V)} {res : HtRes V}
    (inv : PcInv T root home m pool (.unlock t b held res))
    (mine : PcContent T root home m σ seen op (.unlock t b held res))
    (branch : Branch T pool root op m (.unlock t b held res) m' next)
    (sound : Sound T root pool home m (.unlock t b held res) home' touch m' next) :
    ∃ σ', Effect T σ seen op (.unlock t b held res) σ' ∧ Content T root home' m' σ' := by
  obtain ⟨leads, base, ⟨settled, rfl⟩ | ⟨settled, s, before, past⟩⟩ := mine
  · exact ⟨_, .now t b held, content.unlocked shape inv leads settled
      (fun key other => FiniteMap.apply_of_ne T.zero σ op other) branch sound⟩
  · exact ⟨_, .past t b held before past, content.unlocked shape inv leads settled (fun _ _ => rfl) branch sound⟩

end Unlock

/-! ## Every step -/

def Pc.acquiring : Pc K V → Option Traversal
  | .acquire t => some t
  | _ => none

omit [DecidableEq K] in
theorem Pc.acquiring_eq_some {pc : Pc K V} {t : Traversal} : pc.acquiring = some t ↔ pc = .acquire t := by
  cases pc <;> simp [acquiring]

/-- No insert wins the lock of a bucket that its copy shows as empty and that is not. -/
def FreshWin (T : Template K V) (m : Mem K V) (op : IhtOp K V) (pc : Pc K V) : Prop :=
  op.isInsert = true → ∀ t ∈ pc.acquiring, ∀ pr ∈ t.curr.bucket m (T.levelHash op.key t.depth t.count),
    ∀ pr' ∈ m.bucket t.beforeLocalizedCurr (T.levelHash op.key t.depth t.count),
      m.locks pr'.lock = some .eUnlocked → pr.base = .null → pr'.base = .null

instance (T : Template K V) (m : Mem K V) (op : IhtOp K V) (pc : Pc K V) : Decidable (FreshWin T m op pc) :=
  inferInstanceAs (Decidable (_ → _))

theorem step_content (shape : Shape T root home m) (content : Content T root home m σ) (now : seen σ)
    {pc : Pc K V} (inv : PcInv T root home m pool pc) (mine : PcContent T root home m σ seen op pc)
    (fresh : FreshWin T m op pc) (stepped : step T pool root op m pc = .ok (m', next))
    (sound : Sound T root pool home m pc home' touch m' next) :
    ∃ σ', Effect T σ seen op pc σ' ∧ Content T root home' m' σ' ∧
      ∀ pc', next = .inl pc' → PcContent T root home' m' σ' seen op pc' := by
  have branch := step_branch stepped
  -- only the two kinds of unlock make a change visible to the others
  have keep : pc.unlocks = false →
      (∀ pc', Branch T pool root op m pc m' (.inl pc') → Sound T root pool home m pc home' touch m' (.inl pc') →
        PcContent T root home' m' σ seen op pc') →
      ∃ σ', Effect T σ seen op pc σ' ∧ Content T root home' m' σ' ∧
        ∀ pc', next = .inl pc' → PcContent T root home' m' σ' seen op pc' := by
    intro quiet rest
    refine ⟨σ, .keep ?_, content.keep shape inv sound (sound.locked quiet), ?_⟩
    · rintro t b held res rfl
      cases quiet
    · intro pc' goes
      subst goes
      exact rest pc' branch sound
  cases pc with
  | readRoot => exact keep rfl fun _ branch _ => readRoot_content content now branch
  | acquire t =>
    exact keep rfl fun _ => acquire_content shape content inv mine fun k v pr pr' isInsert found stored =>
      fresh (by rw [isInsert]; rfl) t rfl pr found pr' stored
  | refetch t b => exact keep rfl fun _ => refetch_content inv mine
  | descend t bb => exact keep rfl fun _ => descend_content content now inv mine
  | loadBase t b => exact keep rfl fun _ => loadBase_content shape now inv mine
  | readElist t b bb => exact keep rfl fun _ => readElist_content shape inv mine
  | search t b bb e i => exact keep rfl fun _ => search_content shape inv mine
  | newElist t b pair => exact keep rfl fun _ => newElist_content shape inv mine
  | publishElist t b eBase => exact keep rfl fun _ => publishElist_content shape inv mine
  | storePair t b bb e pair => exact keep rfl fun _ => storePair_content shape inv mine
  | storeCount t b bb e => exact keep rfl fun _ => storeCount_content shape inv mine
  | swapLast t b bb e i result => exact keep rfl fun _ => swapLast_content shape inv mine
  | dropCount t b bb e result => exact keep rfl fun _ => dropCount_content shape inv mine
  | writeBack t b bb e res => exact keep rfl fun _ => writeBack_content shape inv mine
  | newPlist t b bb e => exact keep rfl fun _ => newPlist_content shape inv mine
  | rehashSource t b bb e newP => exact keep rfl fun _ => rehashSource_content inv mine
  | rehashMove t b bb e newP source i => exact keep rfl fun _ => rehashMove_content shape inv mine
  | rehashFree t b bb e newP source => exact keep rfl fun _ => rehashFree_content shape inv mine
  | publishPlist t b bb e newP => exact keep rfl fun _ => publishPlist_content shape inv mine
  | updateCurr t b bb e newP => exact keep rfl fun _ => updateCurr_content shape inv mine
  | unlockPlist t b bb e newP =>
    obtain ⟨pc', rfl⟩ : ∃ pc', next = .inl pc' := by
      cases branch
      exact ⟨_, rfl⟩
    obtain ⟨content', rest⟩ := unlockPlist_content shape content inv mine branch sound
    refine ⟨σ, .keep (by simp), content', ?_⟩
    intro pc'' goes
    cases goes
    exact rest
  | afterRehash t bb e => exact keep rfl fun _ => afterRehash_content inv mine
  | unlock t b held res =>
    obtain ⟨σ', effect, content'⟩ := unlock_content shape content inv mine branch sound
    refine ⟨σ', effect, content', fun pc' goes => ?_⟩
    subst goes
    cases branch
    trivial
  | leave t held res =>
    refine keep rfl fun pc' branch _ => ?_
    cases branch

end RdmaIht.Iht
