import RdmaIht.Iht.ContentStep

/-! The bindings at each point of an operation.

There is one lemma for each point: from what the thread asserts of the map there,
and the step it takes, it may assert what the next point asks for. The map is the
same before and after, except where an operation takes effect.
-/

set_option autoImplicit false

namespace RdmaIht.Iht

variable {K V : Type} [DecidableEq K]

variable {T : Template K V} {root : RemotePtr} {home home' : Home} {m m' : Mem K V} {σ : FiniteMap K V}
  {seen : FiniteMap K V → Prop} {op : IhtOp K V} {touch : RemotePtr → Nat → Prop} {pool : Nat}
  {pc' : Pc K V}

theorem Content.nullSeen (content : Content T root home m σ) (now : seen σ) {t : Traversal}
    {bs : List PlistPair} (stored : m.plists t.beforeLocalizedCurr = some bs)
    (walk : Walk T root m op.key t.beforeLocalizedCurr t.depth)
    (copy : ∀ block buckets, t.curr = .copied block buckets → ∃ n, buckets = bs.take n) : NullSeen T seen op t := by
  intro block buckets pr curr at_ null
  obtain ⟨n, rfl⟩ := copy block buckets curr
  have found : m.bucket t.beforeLocalizedCurr (T.index op.key t.depth) = some pr := Mem.bucket_of_copy stored at_
  exact ⟨σ, now, content.empty walk.descent found null op.key ⟨walk, rfl⟩⟩

section Descend

theorem readRoot_content (content : Content T root home m σ) (now : seen σ)
    (branch : Branch T pool root op m .readRoot m' (.inl pc')) : PcContent T root home' m' σ seen op pc' := by
  cases branch with
  | readRoot stored =>
    refine ⟨.root, content.nullSeen now stored .root ?_⟩
    intro block buckets curr
    cases curr
    exact ⟨_, rfl⟩

theorem acquire_content (shape : Shape T root home m) (content : Content T root home m σ) {t : Traversal}
    (inv : PcInv T root home m pool (.acquire t)) (mine : PcContent T root home m σ seen op (.acquire t))
    (fresh : ∀ k v pr pr', op = .insert k v → t.curr.bucket m (T.levelHash op.key t.depth t.count) = some pr →
      m.bucket t.beforeLocalizedCurr (T.levelHash op.key t.depth t.count) = some pr' →
      m.locks pr'.lock = some .eUnlocked → pr.base = .null → pr'.base = .null)
    (branch : Branch T pool root op m (.acquire t) m' (.inl pc'))
    (sound : Sound T root pool home m (.acquire t) home' touch m' (.inl pc')) :
    PcContent T root home' m' σ seen op pc' := by
  have located : Located T root home m t := inv
  have index : T.bucketOf op t = T.index op.key t.depth := located.levelHash_eq op.key
  obtain ⟨walk, null⟩ := mine
  have open_ := sound.open_ inv
  obtain rfl := sound.home_eq rfl
  simp only [located.levelHash_eq] at fresh
  cases branch with
  | closed => exact ⟨walk.stable sound.change open_, index.symm⟩
  | spins => exact ⟨walk.stable sound.change open_, null⟩
  | locks found word =>
    -- the lock is won: what the bucket holds is settled until it is unlocked
    rw [index] at found sound ⊢
    obtain ⟨pr', stored, lock, _⟩ := located.bucket shape found
    rw [lock] at word
    have settled := content.opened walk.descent stored word
    refine ⟨⟨walk.stable sound.change open_, rfl⟩, null, pr'.base, ?_, ?_⟩
    · exact .of_agrees inv sound settled.agrees walk.descent ⟨pr', stored, rfl⟩ settled.sole
    · intro k v isInsert qr at_ empty
      have same : t.curr.bucket m (T.index op.key t.depth) = some qr := by
        cases curr : t.curr with
        | inPlace p => rw [curr] at at_; exact at_
        | copied block buckets => rw [curr] at at_; exact at_
      exact fresh k v qr pr' isInsert same stored word empty

theorem refetch_content {t : Traversal} {b : Nat}
    (inv : PcInv T root home m pool (.refetch t b)) (mine : PcContent T root home m σ seen op (.refetch t b))
    (branch : Branch T pool root op m (.refetch t b) m' (.inl pc'))
    (sound : Sound T root pool home m (.refetch t b) home' touch m' (.inl pc')) :
    PcContent T root home' m' σ seen op pc' := by
  obtain ⟨_, pr, found, word⟩ := id inv
  obtain ⟨walk, rfl⟩ := mine
  cases branch with
  | refetch stored _ at_ =>
    cases found.symm.trans (Mem.bucket_of_copy stored at_)
    exact (Walk.down walk found word).stable sound.change (sound.open_ inv)

theorem descend_content (content : Content T root home m σ) (now : seen σ)
    {t : Traversal} {bb : RemotePtr} (inv : PcInv T root home m pool (.descend t bb))
    (mine : PcContent T root home m σ seen op (.descend t bb))
    (branch : Branch T pool root op m (.descend t bb) m' (.inl pc'))
    (sound : Sound T root pool home m (.descend t bb) home' touch m' (.inl pc')) :
    PcContent T root home' m' σ seen op pc' := by
  have walk : Walk T root m op.key bb (t.depth + 1) := mine
  have open_ := sound.open_ inv
  cases branch with
  | descendLocal =>
    refine ⟨walk.stable sound.change open_, ?_⟩
    intro block buckets pr curr
    cases curr
  | descendRemote _ stored =>
    refine ⟨walk.stable sound.change open_, content.nullSeen now stored walk ?_⟩
    intro block buckets curr
    cases curr
    exact ⟨_, rfl⟩

end Descend

section Search

theorem loadBase_content (shape : Shape T root home m) (now : seen σ) {t : Traversal} {b : Nat}
    (inv : PcInv T root home m pool (.loadBase t b)) (mine : PcContent T root home m σ seen op (.loadBase t b))
    (branch : Branch T pool root op m (.loadBase t b) m' (.inl pc'))
    (sound : Sound T root pool home m (.loadBase t b) home' touch m' (.inl pc')) :
    PcContent T root home' m' σ seen op pc' := by
  have held : Held T root home m t b none := inv
  obtain ⟨leads, null, base, settled, fresh⟩ := mine
  obtain rfl := sound.home_eq rfl
  -- a base that is there is the one the bucket settled on
  have linked : ∀ {pr : PlistPair}, t.curr.bucket m b = some pr → pr.base ≠ .null →
      pr.base = base ∧ home' pr.base = some (t.beforeLocalizedCurr, b) := by
    intro pr found notNull
    obtain ⟨_, _, _, owner⟩ := held.located.bucket shape found
    have owned := owner.resolve_left notNull
    rcases settled.sole _ owned with same | none
    · exact ⟨same, owned⟩
    · cases none
  cases branch with
  | @loadNull _ _ pr found empty =>
    -- a reader that sees no base takes effect at the time the base was copied
    have past : ∃ s, seen s ∧ s op.key = none := by
      cases curr : t.curr with
      | inPlace p =>
        obtain ⟨rfl, _⟩ := held.located.inPlace p curr
        rw [curr] at found
        obtain ⟨pr', found', rfl⟩ := settled.found
        cases found.symm.trans found'
        rw [empty, Mem.content_null] at settled
        exact ⟨σ, now, settled.agrees.absent leads (by simp)⟩
      | copied block buckets =>
        rw [curr] at found
        obtain ⟨_, rfl⟩ := leads
        exact null block buckets pr curr found empty
    have reads : ∀ res : HtRes V, (∀ k v, op ≠ .insert k v) → res = ⟨.falseState, T.zero⟩ →
        PcContent T root home' m σ seen op (.unlock t b none res) := by
      rintro _ reads rfl
      obtain ⟨s, before, absent⟩ := past
      exact ⟨leads, base, .inr ⟨settled, s, before, T.spec_absent absent reads⟩⟩
    cases op with
    | contains key => exact reads _ (by simp) rfl
    | remove key => exact reads _ (by simp) rfl
    | insert key value =>
      obtain rfl := fresh key value rfl pr found empty
      exact ⟨leads, settled, rfl⟩
  | loadLocal found notNull =>
    obtain ⟨rfl, owned⟩ := linked found notNull
    obtain ⟨el, stored, _⟩ := held.owned _ owned (by simp)
    rw [Mem.content_elist notNull stored] at settled
    exact ⟨leads, el, stored, stored, settled, by simp⟩
  | loadRemote found notNull =>
    obtain ⟨rfl, _⟩ := linked found notNull
    exact ⟨leads, settled⟩

theorem readElist_content (shape : Shape T root home m) {t : Traversal} {b : Nat} {bb : RemotePtr}
    (inv : PcInv T root home m pool (.readElist t b bb))
    (mine : PcContent T root home m σ seen op (.readElist t b bb))
    (branch : Branch T pool root op m (.readElist t b bb) m' (.inl pc'))
    (sound : Sound T root pool home m (.readElist t b bb) home' touch m' (.inl pc')) :
    PcContent T root home' m' σ seen op pc' := by
  obtain ⟨_, owned, _, _⟩ := id inv
  obtain ⟨leads, settled⟩ := mine
  have notNull : bb ≠ .null := by rintro rfl; rw [shape.home_null] at owned; cases owned
  obtain rfl := sound.home_eq rfl
  cases branch with
  | @readElist _ _ _ el stored =>
    rw [Mem.content_elist notNull stored] at settled
    exact ⟨leads.stable sound.change (sound.open_ inv), el, stored, rfl,
      .of_agrees inv sound settled.agrees leads.1.descent settled.found settled.sole, by simp⟩

theorem onFound_content (shape : Shape T root home m) {t : Traversal} {b i : Nat} {bb : RemotePtr}
    {e : ElistRef K V} (at_ : AtList T root home m pool t b bb e none)
    (leads : Leads T root m t.beforeLocalizedCurr t.depth b op.key) {el : EList K V} (fits : T.Fits el)
    (stored : m.elists bb = some el) (got : e.get m = some el)
    (settled : SettledAt T root home m σ t b bb none el.live) (live : i < el.count) {pair : Pair K V}
    (slot : el.live[i]? = some pair) (hit : pair.key = op.key) :
    PcContent T root home m σ seen op (onFound T op t b bb e el i pair) := by
  have present : σ pair.key = some pair.val := settled.agrees.lookup_eq (List.mem_of_getElem? slot)
  have content := Mem.content_elist (at_.notNull shape) stored
  cases op with
  | contains key =>
    have spec := T.spec_contains (show σ key = _ from hit ▸ present)
    exact ⟨leads, bb, .inl ⟨by rw [spec, content]; exact settled, by rw [spec]⟩⟩
  | insert key value =>
    have spec := T.spec_insert_present value (show σ key = _ from hit ▸ present)
    exact ⟨leads, bb, .inl ⟨by rw [spec, content]; exact settled, by rw [spec]⟩⟩
  | remove key =>
    obtain rfl : pair.key = key := hit
    simp only [onFound]
    split
    · exact ⟨leads, el, pair, got, settled, rfl, slot, rfl⟩
    · -- the only pair goes
      next one =>
      have spec := T.spec_remove present
      have length := EList.length_live fits
      have bound : 0 < el.live.length := by omega
      obtain rfl : i = 0 := by omega
      have rest := settled.agrees.eraseIdx slot
      have none : el.live.eraseIdx 0 = (el.withCount (el.count - 1)).live := by
        have short : el.live.eraseIdx 0 = [] := 
          List.length_eq_zero_iff.mp (by rw [List.length_eraseIdx_of_lt bound]; omega)
        have zero : el.count - 1 = 0 := by omega
        rw [short, zero]
        rfl
      rw [none] at rest
      exact ⟨leads, el, got, by rw [spec]; exact { settled with agrees := rest }, by rw [spec]⟩

theorem onMissing_content (shape : Shape T root home m) {t : Traversal} {b : Nat} {bb : RemotePtr}
    {e : ElistRef K V} (at_ : AtList T root home m pool t b bb e none)
    (leads : Leads T root m t.beforeLocalizedCurr t.depth b op.key) {el : EList K V}
    (stored : m.elists bb = some el) (got : e.get m = some el)
    (settled : SettledAt T root home m σ t b bb none el.live) (missing : ∀ pair ∈ el.live, pair.key ≠ op.key) :
    PcContent T root home m σ seen op (onMissing T op t b bb e el) := by
  have absent : σ op.key = none := settled.agrees.absent leads missing
  have content := Mem.content_elist (at_.notNull shape) stored
  have reads : ∀ res : HtRes V, (∀ k v, op ≠ .insert k v) → res = ⟨.falseState, T.zero⟩ →
      PcContent T root home m σ seen op (.unlock t b (some (bb, e)) res) := by
    rintro _ reads rfl
    have spec := T.spec_absent absent reads
    exact ⟨leads, bb, .inl ⟨by rw [spec, content]; exact settled, by rw [spec]⟩⟩
  cases op with
  | contains key => exact reads _ (by simp) rfl
  | remove key => exact reads _ (by simp) rfl
  | insert key value =>
    simp only [onMissing]
    split
    · exact ⟨leads, el, got, settled, missing, rfl⟩
    · exact ⟨leads, el, stored, got, settled⟩

theorem search_content (shape : Shape T root home m) {t : Traversal} {b i : Nat} {bb : RemotePtr}
    {e : ElistRef K V} (inv : PcInv T root home m pool (.search t b bb e i))
    (mine : PcContent T root home m σ seen op (.search t b bb e i))
    (branch : Branch T pool root op m (.search t b bb e i) m' (.inl pc'))
    (sound : Sound T root pool home m (.search t b bb e i) home' touch m' (.inl pc')) :
    PcContent T root home' m' σ seen op pc' := by
  have at_ : AtList T root home m pool t b bb e none := inv
  obtain ⟨leads, el, stored, got, settled, missing⟩ := mine
  obtain ⟨el', got', fits⟩ := at_.get
  cases got.symm.trans got'
  have length := EList.length_live fits
  obtain rfl := sound.home_eq rfl
  cases branch with
  | found got' live slot hit =>
    cases got.symm.trans got'
    exact onFound_content shape at_ leads fits stored got settled live (EList.getElem?_live live slot) hit
  | turn got' live slot miss =>
    cases got.symm.trans got'
    refine ⟨leads, el, stored, got, settled, ?_⟩
    intro other member
    -- one more pair of the list does not carry the key
    rw [List.take_add_one, EList.getElem?_live live slot, List.mem_append] at member
    rcases member with old | new
    · exact missing other old
    · cases List.mem_singleton.mp new
      exact miss
  | missing got' through =>
    cases got.symm.trans got'
    refine onMissing_content shape at_ leads stored got settled ?_
    rw [List.take_of_length_le (by omega)] at missing
    exact missing

end Search

section Store

omit [DecidableEq K] in
theorem Mem.found_of_plists {p base : RemotePtr} {b : Nat} (found : ∃ pr, m.bucket p b = some pr ∧ pr.base = base)
    (plists : m'.plists = m.plists) : ∃ pr, m'.bucket p b = some pr ∧ pr.base = base := by
  simpa only [Mem.bucket, plists] using found

theorem storePair_content (shape : Shape T root home m) {t : Traversal} {b : Nat} {bb : RemotePtr}
    {e : ElistRef K V} {pair : Pair K V} (inv : PcInv T root home m pool (.storePair t b bb e pair))
    (mine : PcContent T root home m σ seen op (.storePair t b bb e pair))
    (branch : Branch T pool root op m (.storePair t b bb e pair) m' (.inl pc'))
    (sound : Sound T root pool home m (.storePair t b bb e pair) home' touch m' (.inl pc')) :
    PcContent T root home' m' σ seen op pc' := by
  obtain ⟨at_, el₀, got₀, room⟩ := id inv
  obtain ⟨leads, el, got, settled, missing, rfl⟩ := mine
  obtain rfl : el = el₀ := Option.some.inj (got.symm.trans got₀)
  obtain ⟨el', got', fits⟩ := at_.get
  cases got.symm.trans got'
  obtain ⟨_, _, _, stored, plists, _⟩ := at_.set shape _ (fits.store pair fits.1 room)
  obtain rfl := sound.home_eq rfl
  have absent : σ pair.key = none := settled.agrees.absent leads missing
  have spec := T.spec_insert pair.val absent
  have grown := settled.agrees.append leads missing
  rw [← el.live_insert pair fits.1] at grown
  cases branch with
  | storePair got' =>
    cases got.symm.trans got'
    refine ⟨leads.stable sound.change (sound.open_ inv), _, stored, ?_, by rw [spec]⟩
    rw [spec]
    exact .of_agrees inv sound grown leads.1.descent (Mem.found_of_plists settled.found plists) settled.sole

theorem afterStore_content {t : Traversal} {b : Nat} {bb : RemotePtr} {e : ElistRef K V} {res : HtRes V}
    (shape : Shape T root home m) (at_ : AtList T root home m pool t b bb e none)
    (leads : Leads T root m t.beforeLocalizedCurr t.depth b op.key) {el : EList K V} (got : e.get m = some el)
    (settled : SettledAt T root home m (T.spec.apply σ op).1 t b bb none el.live)
    (answer : (T.spec.apply σ op).2 = res) :
    PcContent T root home m σ seen op (afterStore pool t b bb e res) := by
  simp only [afterStore]
  split
  · next near =>
    cases ref : e with
    | copied block old =>
      have far := (at_.ref.copied block old ref).2
      rw [near] at far
      cases far
    | inPlace p =>
      obtain ⟨rfl, _⟩ := at_.ref.inPlace p ref
      rw [ref] at got
      refine ⟨leads, p, .inl ⟨?_, answer⟩⟩
      rw [Mem.content_elist (at_.notNull shape) got]
      exact settled
  · exact ⟨leads, el, got, settled, answer⟩

theorem set_content (shape : Shape T root home m) {pc : Pc K V} (inv : PcInv T root home m pool pc)
    {t : Traversal} {b : Nat} {bb : RemotePtr} {e : ElistRef K V} {res : HtRes V}
    (at_ : AtList T root home m pool t b bb e none)
    (leads : Leads T root m t.beforeLocalizedCurr t.depth b op.key) {el : EList K V} (fits : T.Fits el)
    (settled : SettledAt T root home m (T.spec.apply σ op).1 t b bb none el.live)
    (answer : (T.spec.apply σ op).2 = res)
    (sound : Sound T root pool home m pc home touch (e.set m el).1
      (.inl (afterStore pool t b bb (e.set m el).2 res))) :
    PcContent T root home (e.set m el).1 σ seen op (afterStore pool t b bb (e.set m el).2 res) := by
  obtain ⟨shape', _, at', stored, plists, _⟩ := at_.set shape el fits
  exact afterStore_content shape' at' (leads.stable sound.change (sound.open_ inv)) stored
    (.of_agrees inv sound settled.agrees leads.1.descent (Mem.found_of_plists settled.found plists)
      settled.sole) answer

theorem storeCount_content (shape : Shape T root home m) {t : Traversal} {b : Nat} {bb : RemotePtr}
    {e : ElistRef K V} (inv : PcInv T root home m pool (.storeCount t b bb e))
    (mine : PcContent T root home m σ seen op (.storeCount t b bb e))
    (branch : Branch T pool root op m (.storeCount t b bb e) m' (.inl pc'))
    (sound : Sound T root pool home m (.storeCount t b bb e) home' touch m' (.inl pc')) :
    PcContent T root home' m' σ seen op pc' := by
  obtain ⟨at_, el₀, got₀, written⟩ := id inv
  obtain ⟨leads, el, got, settled, answer⟩ := mine
  obtain rfl : el = el₀ := Option.some.inj (got.symm.trans got₀)
  obtain ⟨el', got', fits⟩ := at_.get
  cases got.symm.trans got'
  obtain rfl := sound.home_eq rfl
  cases branch with
  | storeCount got' =>
    cases got.symm.trans got'
    exact set_content shape inv at_ leads ⟨written, fits.2⟩ settled answer sound

theorem swapLast_content (shape : Shape T root home m) {t : Traversal} {b i : Nat} {bb : RemotePtr}
    {e : ElistRef K V} {result : K} (inv : PcInv T root home m pool (.swapLast t b bb e i result))
    (mine : PcContent T root home m σ seen op (.swapLast t b bb e i result))
    (branch : Branch T pool root op m (.swapLast t b bb e i result) m' (.inl pc'))
    (sound : Sound T root pool home m (.swapLast t b bb e i result) home' touch m' (.inl pc')) :
    PcContent T root home' m' σ seen op pc' := by
  obtain ⟨at_, el₀, got₀, live, many⟩ := id inv
  obtain ⟨leads, el, pair, got, settled, rfl, slot, rfl⟩ := mine
  obtain rfl : el = el₀ := Option.some.inj (got.symm.trans got₀)
  obtain ⟨el', got', fits⟩ := at_.get
  cases got.symm.trans got'
  have length := EList.length_live fits
  have spec := T.spec_remove (settled.agrees.lookup_eq (List.mem_of_getElem? slot))
  obtain rfl := sound.home_eq rfl
  cases branch with
  | @swapLast _ _ _ _ _ _ _ last got' at_last =>
    cases got.symm.trans got'
    obtain ⟨_, _, _, stored, plists, _⟩ := at_.set shape _
      (fits.store (i := i) last (by have := fits.1; omega) (by have := fits.1; have := fits.2; omega))
    have rest := settled.agrees.swapLast slot (EList.getElem?_live (by omega) at_last) (by omega)
    rw [← EList.live_swapLast live fits.1] at rest
    refine ⟨leads.stable sound.change (sound.open_ inv), _, stored, ?_, by rw [spec]⟩
    rw [spec]
    exact .of_agrees inv sound rest leads.1.descent (Mem.found_of_plists settled.found plists) settled.sole

theorem dropCount_content (shape : Shape T root home m) {t : Traversal} {b : Nat} {bb : RemotePtr}
    {e : ElistRef K V} {result : K} (inv : PcInv T root home m pool (.dropCount t b bb e result))
    (mine : PcContent T root home m σ seen op (.dropCount t b bb e result))
    (branch : Branch T pool root op m (.dropCount t b bb e result) m' (.inl pc'))
    (sound : Sound T root pool home m (.dropCount t b bb e result) home' touch m' (.inl pc')) :
    PcContent T root home' m' σ seen op pc' := by
  obtain ⟨at_, _⟩ := id inv
  obtain ⟨leads, el, got, settled, answer⟩ := mine
  obtain ⟨el', got', fits⟩ := at_.get
  cases got.symm.trans got'
  obtain rfl := sound.home_eq rfl
  cases branch with
  | dropCount got' =>
    cases got.symm.trans got'
    exact set_content shape inv at_ leads ⟨Nat.le_trans (Nat.sub_le _ _) fits.1, fits.2⟩ settled answer sound

theorem writeBack_content (shape : Shape T root home m) {t : Traversal} {b : Nat} {bb : RemotePtr}
    {e : ElistRef K V} {res : HtRes V} (inv : PcInv T root home m pool (.writeBack t b bb e res))
    (mine : PcContent T root home m σ seen op (.writeBack t b bb e res))
    (branch : Branch T pool root op m (.writeBack t b bb e res) m' (.inl pc'))
    (sound : Sound T root pool home m (.writeBack t b bb e res) home' touch m' (.inl pc')) :
    PcContent T root home' m' σ seen op pc' := by
  obtain ⟨at_, _⟩ := id inv
  obtain ⟨leads, el, got, settled, answer⟩ := mine
  obtain rfl := sound.home_eq rfl
  cases branch with
  | writeBack got' =>
    cases got.symm.trans got'
    refine ⟨leads.stable sound.change (sound.open_ inv), bb, .inl ⟨?_, answer⟩⟩
    rw [Mem.content_elist (at_.notNull shape) (by rw [Mem.elists_setElist, if_pos rfl])]
    exact .of_agrees inv sound settled.agrees leads.1.descent settled.found settled.sole

theorem newElist_content (shape : Shape T root home m) {t : Traversal} {b : Nat} {pair : Pair K V}
    (inv : PcInv T root home m pool (.newElist t b pair))
    (mine : PcContent T root home m σ seen op (.newElist t b pair))
    (branch : Branch T pool root op m (.newElist t b pair) m' (.inl pc'))
    (sound : Sound T root pool home m (.newElist t b pair) home' touch m' (.inl pc')) :
    PcContent T root home' m' σ seen op pc' := by
  obtain ⟨leads, settled, isInsert⟩ := mine
  cases branch with
  | @newElist _ _ _ el inserted =>
    have one := Template.elistInsert_live T.fits_empty inserted
    refine ⟨leads.stable sound.change (sound.open_ inv), ?_, pair, ?_, isInsert⟩
    · refine .of_agrees inv sound settled.agrees leads.1.descent settled.found fun e owned => ?_
      rcases sound.owners e _ owned with old | ⟨rfl, _⟩
      · exact .inl ((settled.sole e old).resolve_right (by simp))
      · exact .inr rfl
    · have stored : (m.newElist pool el).elists (m.fresh pool) = some el := by
        rw [Mem.elists_newElist, if_pos rfl]
      rw [Mem.content_elist (shape.fresh_ne_null pool) stored, one]
      rfl

theorem publishElist_content (shape : Shape T root home m) {t : Traversal} {b : Nat} {eBase : RemotePtr}
    (inv : PcInv T root home m pool (.publishElist t b eBase))
    (mine : PcContent T root home m σ seen op (.publishElist t b eBase))
    (branch : Branch T pool root op m (.publishElist t b eBase) m' (.inl pc'))
    (sound : Sound T root pool home m (.publishElist t b eBase) home' touch m' (.inl pc')) :
    PcContent T root home' m' σ seen op pc' := by
  obtain ⟨leads, settled, pair, one, rfl⟩ := mine
  obtain ⟨pr, found, _⟩ := settled.found
  obtain rfl := sound.home_eq rfl
  have absent : σ pair.key = none := settled.agrees.absent leads (by simp)
  have spec := T.spec_insert pair.val absent
  have grown := settled.agrees.append (a := pair) leads (by simp)
  have content : (m.setBase t.beforeLocalizedCurr b eBase).content eBase = [] ++ [pair] := one
  cases branch with
  | publishElist =>
    refine ⟨leads.stable sound.change (sound.open_ inv), eBase, .inl ⟨?_, by rw [spec]⟩⟩
    rw [spec, content]
    refine .of_agrees inv sound grown leads.1.descent (by simp [Mem.bucket_setBase, found]) fun e owned => ?_
    rcases settled.sole e owned with rfl | same
    · rw [shape.home_null] at owned
      cases owned
    · exact .inl (Option.some.inj same)

end Store

end RdmaIht.Iht
