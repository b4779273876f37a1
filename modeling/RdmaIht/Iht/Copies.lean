import RdmaIht.Iht.Phases
import RdmaIht.Ledger

/-! The local blocks of `RdmaIHT`: what `Read` and `ExtendedRead` give and what `Deallocate` takes.

An operation that runs alone gives back each copy it makes, with the length it was
read with, and it gives back no block of the tree. There is one exception. After a
`rehash` the flag `oldBucketBase` is cleared "without deallocating it", and with it
goes the copy of the P-List in which the bucket lies.
-/

set_option autoImplicit false

namespace RdmaIht.Iht

open Concurrency Ledger

variable {K V : Type}

/-- The template argument of `ExtendedRead`, `Read` and `Deallocate`. -/
inductive Kind where
  | plist
  | elist
  deriving DecidableEq, Repr

/-- `n` P-Lists or E-Lists at `ptr`. -/
structure Block where
  kind : Kind
  ptr : RemotePtr
  n : Nat
  deriving DecidableEq, Repr

abbrev BlockLog := List (Entry Block)

def PlistRef.ptr : PlistRef → RemotePtr
  | .inPlace p => p
  | .copied block _ => block

def ElistRef.ptr : ElistRef K V → RemotePtr
  | .inPlace e => e
  | .copied block _ => block

@[simp] theorem PlistRef.ptr_inPlace (p : RemotePtr) : (PlistRef.inPlace p).ptr = p := rfl
@[simp] theorem PlistRef.ptr_copied (block : RemotePtr) (buckets : List PlistPair) :
    (PlistRef.copied block buckets).ptr = block := rfl
@[simp] theorem ElistRef.ptr_inPlace (e : RemotePtr) : (ElistRef.inPlace e : ElistRef K V).ptr = e := rfl
@[simp] theorem ElistRef.ptr_copied (block : RemotePtr) (el : EList K V) : (ElistRef.copied block el).ptr = block := rfl

/-- What `if (oldBucketBase) pool_->Deallocate<PList>(curr, 1 << (depth - 1))` releases. -/
def Traversal.block (t : Traversal) : List Block :=
  if t.oldBucketBase then [⟨.plist, t.curr.ptr, 2 ^ (t.depth - 1)⟩] else []

/-- What `if (!is_local(bucket_base)) pool_->Deallocate<EList>(e)` releases. -/
def elistBlock (pool : Nat) (bucketBase : RemotePtr) (e : ElistRef K V) : List Block :=
  if bucketBase.isLocal pool then [] else [⟨.elist, e.ptr, 1⟩]

def heldBlock (pool : Nat) : Option (RemotePtr × ElistRef K V) → List Block
  | some (bucketBase, e) => elistBlock pool bucketBase e
  | none => []

/-- The calls of `Read`, `ExtendedRead` and `Deallocate` in a step. `curr_temp` is
released where it was obtained, as nothing reads it after that. -/
def Pc.blockOps (pool : Nat) (m : Mem K V) : Pc K V → BlockLog
  | .readRoot => [.obtained ⟨.plist, m.fresh pool, 1⟩]
  | .refetch t _ => [.obtained ⟨.plist, m.fresh pool, 2 ^ (t.depth - 1)⟩, .released ⟨.plist, m.fresh pool, 2 ^ (t.depth - 1)⟩]
  | .descend t bb =>
    (if bb.isLocal pool ∨ bb = .null then [] else [.obtained ⟨.plist, m.fresh pool, 2 ^ t.depth⟩]) ++
      t.block.map .released
  | .readElist _ _ _ => [.obtained ⟨.elist, m.fresh pool, 1⟩]
  | .rehashSource t b _ _ _ =>
    match t.curr.bucket m b with
    | some pr => if pr.base.isLocal pool then [] else [.obtained ⟨.elist, m.fresh pool, 1⟩]
    | none => []
  | .rehashFree _ _ _ _ _ source => [.released ⟨.elist, source.ptr, 1⟩]
  | .afterRehash _ bb e => (elistBlock pool bb e).map .released
  | .leave t held _ => (heldBlock pool held ++ t.block).map .released
  | _ => []

def finishLogged [DecidableEq K] (T : Template K V) (root : RemotePtr) (pool : Nat) (op : IhtOp K V) :
    Nat → Mem K V → Pc K V → Except Fault (Mem K V × HtRes V × BlockLog)
  | 0, _, _ => .error .outOfFuel
  | fuel + 1, m, pc =>
    match step T pool root op m pc with
    | .error fault => .error fault
    | .ok (m', .inl pc') => do
      let (last, res, log) ← finishLogged T root pool op fuel m' pc'
      return (last, res, pc.blockOps pool m ++ log)
    | .ok (m', .inr res) => .ok (m', res, pc.blockOps pool m)

def InTree (root : RemotePtr) (m : Mem K V) (ptr : RemotePtr) : Prop :=
  (∃ d, Descent root m ptr d) ∨ ∃ p d b pr, Descent root m p d ∧ m.bucket p b = some pr ∧ pr.base = ptr

/-- Each copy is released once, as it was read, and nothing of the tree is released. -/
structure CopiesBalanced (root : RemotePtr) (m : Mem K V) (log : BlockLog) : Prop where
  copies : Balanced Block.ptr log
  tree : ∀ c, .released c ∈ log → ¬ InTree root m c.ptr

/-- The call is an `insert` that finds its E-List full, in a P-List of which it holds a copy:
the root, or a P-List of another pool. -/
def Loses (T : Template K V) (root : RemotePtr) (pool : Nat) (m : Mem K V) (op : IhtOp K V) : Prop :=
  op.isInsert = true ∧ ∃ p d, Overfull T root m op.key p d ∧ (p = root ∨ p.isLocal pool = false)

/-! ## The account of an operation -/

def Pc.owned (pool : Nat) : Pc K V → List Block
  | .readRoot => []
  | .acquire t | .refetch t _ | .descend t _ | .loadBase t _ | .readElist t _ _ | .newElist t _ _ | .publishElist t _ _ =>
      t.block
  | .search t _ bb e _ | .storePair t _ bb e _ | .storeCount t _ bb e | .swapLast t _ bb e _ _ | .dropCount t _ bb e _
  | .writeBack t _ bb e _ | .newPlist t _ bb e | .rehashSource t _ bb e _ | .publishPlist t _ bb e _
  | .updateCurr t _ bb e _ | .unlockPlist t _ bb e _ | .afterRehash t bb e => elistBlock pool bb e ++ t.block
  | .rehashMove t _ bb e _ source _ | .rehashFree t _ bb e _ source =>
      elistBlock pool bb source ++ (elistBlock pool bb e ++ t.block)
  | .unlock t _ held _ | .leave t held _ => heldBlock pool held ++ t.block

/-- The copies of which an operation loses track in a step. -/
def Pc.loses : Pc K V → List Block
  | .afterRehash t _ _ => t.block
  | _ => []

def Pc.closing : Pc K V → Option (RemotePtr × Nat)
  | .publishPlist t b _ _ _ | .updateCurr t b _ _ _ | .unlockPlist t b _ _ _ => some (t.beforeLocalizedCurr, b)
  | _ => none

structure Books (root : RemotePtr) (pool : Nat) (home : Home) (m : Mem K V) (pc : Pc K V) (log : BlockLog)
    (lost : List Block) : Prop where
  account : Account Block.ptr log (pc.owned pool) lost
  old : ∀ c, .obtained c ∈ log → c.ptr.address < m.next
  apart : ∀ c, .obtained c ∈ log → home c.ptr = none ∧ c.ptr ≠ root ∧ c.ptr ≠ .null
  replaced : ∀ c, .released c ∈ log → .obtained c ∈ log ∨ (m.plists c.ptr = none ∧
    ∃ q j, home c.ptr = some (q, j) ∧ (m.Word q j .pUnlocked ∨ pc.closing = some (q, j)))

variable {T : Template K V} {root : RemotePtr} {pool : Nat} {op : IhtOp K V} {home home' : Home}
  {m₀ m m' : Mem K V} {pc pc' : Pc K V} {log : BlockLog} {lost : List Block}

theorem ElistRef.ptr_set (e : ElistRef K V) (m : Mem K V) (el : EList K V) : (e.set m el).2.ptr = e.ptr := by
  cases e <;> rfl

theorem elistBlock_set (pool : Nat) (bb : RemotePtr) (e : ElistRef K V) (m : Mem K V) (el : EList K V) :
    elistBlock pool bb (e.set m el).2 = elistBlock pool bb e := by
  rw [elistBlock, elistBlock, e.ptr_set]

theorem PlistRef.ptr_setBase (curr : PlistRef) (m : Mem K V) (b : Nat) (base : RemotePtr) :
    (curr.setBase m b base).2.ptr = curr.ptr := by
  cases curr <;> rfl

section Owned

variable {t : Traversal} {b : Nat} {bb : RemotePtr} {e : ElistRef K V} {el : EList K V}

theorem owned_onFound (i : Nat) (pair : Pair K V) :
    (onFound T op t b bb e el i pair).owned pool = elistBlock pool bb e ++ t.block := by
  cases op <;> simp only [onFound] <;> first | rfl | (split <;> rfl)

theorem owned_onMissing : (onMissing T op t b bb e el).owned pool = elistBlock pool bb e ++ t.block := by
  cases op <;> simp only [onMissing] <;> first | rfl | (split <;> rfl)

theorem owned_onEmpty : (onEmpty T op t b).owned pool = t.block := by
  cases op <;> rfl

theorem owned_afterStore (res : HtRes V) :
    (afterStore pool t b bb e res).owned pool = elistBlock pool bb e ++ t.block := by
  simp only [afterStore]
  split <;> rfl

end Owned

theorem elistBlock_local {bb : RemotePtr} (near : bb.isLocal pool = true) (e : ElistRef K V) : elistBlock pool bb e = [] := by
  simp [elistBlock, near]

theorem elistBlock_remote {bb : RemotePtr} (far : bb.isLocal pool = false) (e : ElistRef K V) :
    elistBlock pool bb e = [⟨.elist, e.ptr, 1⟩] := by
  simp [elistBlock, far]

theorem Books.fresh (books : Books root pool home m pc log lost) (shape : Shape T root home m) (kind : Kind) (n : Nat) :
    ∀ entry ∈ log, entry.block.ptr ≠ (⟨kind, m.fresh pool, n⟩ : Block).ptr := by
  have obtained : ∀ c, .obtained c ∈ log → c.ptr ≠ m.fresh pool := by
    intro c mem same
    have old := books.old c mem
    rw [same] at old
    exact absurd old (Nat.lt_irrefl _)
  intro entry mem
  cases entry with
  | obtained c => exact obtained c mem
  | released c =>
    rcases books.replaced c mem with mine | ⟨_, q, j, owned, _⟩
    · exact obtained c mine
    · exact shape.ne_fresh_of_home owned

theorem Books.not_copy (books : Books root pool home m pc log lost) {ptr : RemotePtr} {x : RemotePtr × Nat}
    (owned : home ptr = some x) : ∀ c, .obtained c ∈ log → ptr ≠ c.ptr := by
  rintro c obtained rfl
  rw [(books.apart c obtained).1] at owned
  cases owned

theorem Books.account_next [DecidableEq K] (books : Books root pool home m pc log lost)
    (alone : Alone T root pool op home m pc) (branch : Branch T pool root op m pc m' (.inl pc')) :
    Account Block.ptr (log ++ pc.blockOps pool m) (pc'.owned pool) (pc.loses ++ lost) := by
  have account := books.account
  have inv := alone.inv
  have keeps : pc.blockOps pool m = [] → pc.loses = [] → pc'.owned pool = pc.owned pool →
      Account Block.ptr (log ++ pc.blockOps pool m) (pc'.owned pool) (pc.loses ++ lost) := by
    intro ops loses same
    simpa [ops, loses, same] using account
  generalize goes : (Sum.inl pc' : Pc K V ⊕ HtRes V) = next at branch
  cases branch <;> cases goes
  case readRoot => exact account.obtain_ (books.fresh alone.shape _ _)
  case refetch t b bs pr stored long at_ =>
    -- the copy is read and released in one step
    have taken := account.obtain_ (books.fresh alone.shape .plist (2 ^ (t.depth - 1)))
    simpa [Pc.blockOps, Pc.loses, Pc.owned] using taken.release
  case descendLocal t bb near =>
    obtain ⟨located, b, owned, _⟩ := inv
    have here : bb.isLocal pool = true := by
      rcases near with here | rfl
      · exact here
      · rw [alone.shape.home_null] at owned
        cases owned
    have whole : Account Block.ptr log (t.block ++ []) lost := by simpa [Pc.owned] using account
    simpa [Pc.blockOps, Pc.loses, Pc.owned, Traversal.block, Traversal.down, here] using whole.releaseAll
  case descendRemote t bb bs far stored long =>
    have taken := account.obtain_ (books.fresh alone.shape .plist (2 ^ t.depth))
    have turned := taken.perm ((List.perm_append_singleton _ t.block).symm.append_right lost)
    obtain ⟨away, notNull⟩ := not_or.mp far
    simpa [Pc.blockOps, Pc.loses, Pc.owned, Traversal.block, Traversal.down, away, notNull] using turned.releaseAll
  case loadNull => exact keeps rfl rfl owned_onEmpty
  case loadLocal t b pr found notNull near =>
    exact keeps rfl rfl (by simp [Pc.owned, elistBlock_local near])
  case readElist t b bb el stored =>
    have far := inv.2.2.2
    have taken := account.obtain_ (books.fresh alone.shape .elist 1)
    simpa [Pc.blockOps, Pc.loses, Pc.owned, elistBlock_remote far] using taken
  case found => exact keeps rfl rfl (owned_onFound _ _)
  case missing => exact keeps rfl rfl owned_onMissing
  case storePair => exact keeps rfl rfl (by simp only [Pc.owned, elistBlock_set])
  case swapLast => exact keeps rfl rfl (by simp only [Pc.owned, elistBlock_set])
  case storeCount => exact keeps rfl rfl ((owned_afterStore _).trans (by simp only [Pc.owned, elistBlock_set]))
  case dropCount => exact keeps rfl rfl ((owned_afterStore _).trans (by simp only [Pc.owned, elistBlock_set]))
  case sourceLocal t b bb e newP pr found near =>
    obtain ⟨pr', found', rfl⟩ := inv.1.base_curr
    cases found.symm.trans found'
    exact keeps (by simp [Pc.blockOps, found, near]) rfl (by simp [Pc.owned, elistBlock_local near])
  case sourceRemote t b bb e newP pr el found far stored =>
    obtain ⟨pr', found', rfl⟩ := inv.1.base_curr
    cases found.symm.trans found'
    have taken := account.obtain_ (books.fresh alone.shape .elist 1)
    simpa [Pc.blockOps, Pc.loses, Pc.owned, found, far, elistBlock_remote far] using taken
  case rehashFree t b bb e newP source =>
    cases shape : source with
    | inPlace ptr =>
      subst shape
      obtain ⟨rfl, near⟩ := inv.2.2.inPlace ptr rfl
      have released := account.releaseOther (b := ⟨.elist, ptr, 1⟩) (books.not_copy inv.1.base_home)
      simpa [Pc.blockOps, Pc.loses, Pc.owned, elistBlock_local near] using released
    | copied block el =>
      subst shape
      have far := (inv.2.2.copied block el rfl).2
      have whole : Account Block.ptr log (⟨.elist, block, 1⟩ :: (elistBlock pool bb e ++ t.block)) lost := by
        simpa [Pc.owned, elistBlock_remote far] using account
      simpa [Pc.blockOps, Pc.loses, Pc.owned] using whole.release
  case updateCurr => exact keeps rfl rfl (by simp [Pc.owned, Traversal.block, PlistRef.ptr_setBase])
  case afterRehash t bb e =>
    -- the copy of the P-List is not released, and no later step can release it
    have whole : Account Block.ptr (log ++ (elistBlock pool bb e).map .released) (t.block ++ []) lost := by
      simpa using account.releaseAll
    simpa [Pc.blockOps, Pc.loses, Pc.owned, Traversal.block] using whole.lose
  all_goals exact keeps rfl rfl rfl

theorem ElistRef.next_set (e : ElistRef K V) (m : Mem K V) (el : EList K V) : (e.set m el).1.next = m.next := by
  cases e <;> rfl

theorem ElistRef.next_free (e : ElistRef K V) (m : Mem K V) : (e.free m).next = m.next := by
  cases e <;> rfl

theorem PlistRef.next_setBase (curr : PlistRef) (m : Mem K V) (b : Nat) (base : RemotePtr) :
    (curr.setBase m b base).1.next = m.next := by
  cases curr <;> rfl

theorem Traversal.next_release (t : Traversal) (m : Mem K V) : (t.release m).next = m.next := by
  unfold Traversal.release
  split
  · cases t.curr <;> rfl
  · rfl

theorem next_releaseElist (m : Mem K V) (held : Option (RemotePtr × ElistRef K V)) :
    (releaseElist pool m held).next = m.next := by
  rcases held with _ | ⟨bb, e⟩
  · rfl
  · simp only [releaseElist]
    split
    · rfl
    · exact e.next_free m

theorem moveInto_next {newP : RemotePtr} {depth count : Nat} {pair : Pair K V}
    (moved : moveInto T pool m newP depth count pair = .ok m') : m.next ≤ m'.next := by
  cases moveInto_eq_ok.mp moved with
  | first => exact Nat.le_succ m.next
  | more => exact Nat.le_refl m.next

theorem Branch.next_le [DecidableEq K] {next : Pc K V ⊕ HtRes V} (branch : Branch T pool root op m pc m' next) :
    m.next ≤ m'.next := by
  cases branch with
  | move _ _ _ moved => exact moveInto_next moved
  | newElist => simp [Mem.newElist]
  | newPlist => rw [Mem.next_newPlist]; omega
  | storePair | storeCount | swapLast | dropCount => exact Nat.le_of_eq (ElistRef.next_set _ _ _).symm
  | rehashFree => exact Nat.le_of_eq (ElistRef.next_free _ _).symm
  | updateCurr => exact Nat.le_of_eq (PlistRef.next_setBase _ _ _ _).symm
  | afterRehash => exact Nat.le_of_eq (next_releaseElist _ _).symm
  | leave => exact Nat.le_of_eq ((Traversal.next_release _ _).trans (next_releaseElist _ _)).symm
  | descendLocal => exact Nat.le_of_eq (Traversal.next_release _ _).symm
  | descendRemote => rw [Traversal.next_release]; exact Nat.le_succ _
  | readRoot | refetch | readElist | sourceRemote => exact Nat.le_succ _
  | _ => exact Nat.le_refl _

theorem Branch.obtains [DecidableEq K] {next : Pc K V ⊕ HtRes V} (branch : Branch T pool root op m pc m' next) {c : Block}
    (mem : .obtained c ∈ pc.blockOps pool m) : c.ptr = m.fresh pool ∧ m.next < m'.next ∧ pc.allocates = none := by
  cases branch <;> simp [Pc.blockOps] at mem
  case readRoot | refetch | readElist =>
    cases mem
    exact ⟨rfl, Nat.lt_succ_self _, rfl⟩
  case descendLocal t bb near =>
    rcases near with near | null
    · simp [near] at mem
    · simp [null] at mem
  case descendRemote t bb bs far stored long =>
    obtain ⟨away, notNull⟩ := not_or.mp far
    simp [away, notNull] at mem
    cases mem
    exact ⟨rfl, by rw [Traversal.next_release]; exact Nat.lt_succ_self _, rfl⟩
  case sourceLocal t b bb e newP pr found near => simp [found, near] at mem
  case sourceRemote t b bb e newP pr el found far stored =>
    simp [found, far] at mem
    cases mem
    exact ⟨rfl, Nat.lt_succ_self _, rfl⟩

/-- What a step releases it has obtained, or it is the E-List `rehash` frees in place. -/
theorem Branch.releases [DecidableEq K] (inv : PcInv T root home m pool pc) {next : Pc K V ⊕ HtRes V}
    (branch : Branch T pool root op m pc m' next) {c : Block} (mem : .released c ∈ pc.blockOps pool m) :
    c ∈ pc.owned pool ∨ .obtained c ∈ pc.blockOps pool m ∨
      ∃ t b bb e newP, pc = .rehashFree t b bb e newP (.inPlace c.ptr) := by
  cases branch <;> simp [Pc.blockOps] at mem
  case refetch =>
    cases mem
    exact .inr (.inl (by simp [Pc.blockOps]))
  case descendLocal | descendRemote => exact .inl mem
  case sourceLocal t b bb e newP pr found near => simp [found, near] at mem
  case sourceRemote t b bb e newP pr el found far stored => simp [found, far] at mem
  case rehashFree t b bb e newP source =>
    cases mem
    cases source with
    | inPlace ptr => exact .inr (.inr ⟨t, b, bb, e, newP, rfl⟩)
    | copied block el =>
      have far := (inv.2.2.copied block el rfl).2
      exact .inl (by simp [Pc.owned, elistBlock_remote far])
  case afterRehash => exact .inl (List.mem_append_left _ mem)
  case leave => exact .inl (List.mem_append.mpr mem)

/-- While the E-List of a bucket is gone, the lock of the bucket is held or it gets closed. -/
theorem Branch.closing [DecidableEq K] (shape : Shape T root home m) (inv : PcInv T root home m pool pc)
    (branch : Branch T pool root op m pc m' (.inl pc')) {x : RemotePtr × Nat} (closing : pc.closing = some x) :
    pc'.closing = some x ∨ m'.Word x.1 x.2 .pUnlocked := by
  generalize goes : (Sum.inl pc' : Pc K V ⊕ HtRes V) = next at branch
  cases branch <;> cases goes <;> try cases closing
  case publishPlist | updateCurr => exact .inl rfl
  case unlockPlist t b bb e newP pr found stored =>
    obtain ⟨pr', shared, lock, _⟩ := inv.1.bucket shape found
    exact .inr ⟨pr', shared, by rw [Mem.locks_setLock, if_pos lock.symm]⟩

theorem plists_none [DecidableEq K] {next : Pc K V ⊕ HtRes V} (stepped : step T pool root op m pc = .ok (m', next))
    {ptr : RemotePtr} (none : m.plists ptr = none) (old : ptr ≠ m.fresh pool) : m'.plists ptr = Option.none := by
  rcases step_plists stepped with same | ⟨t, b, bb, e, n, _, _, rfl⟩
  · cases found : m'.plists ptr with
    | none => rfl
    | some bs =>
      obtain ⟨bs', was, _⟩ := same ptr bs found
      rw [none] at was
      cases was
  · rw [Mem.plists_newPlist, if_neg old, none]

theorem Books.next [DecidableEq K] (books : Books root pool home m pc log lost) (alone : Alone T root pool op home m pc)
    (stepped : step T pool root op m pc = .ok (m', .inl pc')) {touch : RemotePtr → Nat → Prop}
    (sound : Sound T root pool home m pc home' touch m' (.inl pc')) :
    Books root pool home' m' pc' (log ++ pc.blockOps pool m) (pc.loses ++ lost) := by
  have branch := step_branch stepped
  have open_ := sound.open_ alone.inv
  have account_held : ∀ {c}, c ∈ pc.owned pool → .obtained c ∈ log := fun held =>
    books.account.obtained_of_mem (List.mem_append_left _ held)
  refine ⟨books.account_next alone branch, ?_, ?_, ?_⟩
  · intro c mem
    rcases List.mem_append.mp mem with before | now
    · exact Nat.lt_of_lt_of_le (books.old c before) branch.next_le
    · obtain ⟨here, more, _⟩ := branch.obtains now
      rw [here]
      exact more
  · intro c mem
    rcases List.mem_append.mp mem with before | now
    · obtain ⟨noHome, apart⟩ := books.apart c before
      refine ⟨?_, apart⟩
      cases owned : home' c.ptr with
      | none => rfl
      | some x =>
        rcases sound.owners _ x owned with was | ⟨isNew, _⟩
        · rw [noHome] at was
          cases was
        · have old := books.old c before
          rw [isNew] at old
          exact absurd old (Nat.lt_irrefl _)
    · obtain ⟨here, _, quiet⟩ := branch.obtains now
      rw [here, sound.home_eq quiet]
      exact ⟨alone.shape.home_fresh pool, (alone.shape.root_ne_fresh pool).symm, alone.shape.fresh_ne_null pool⟩
  · intro c mem
    rcases List.mem_append.mp mem with before | now
    · rcases books.replaced c before with mine | ⟨none, q, j, owned, word⟩
      · exact .inl (List.mem_append_left _ mine)
      · have old : c.ptr ≠ m.fresh pool := alone.shape.ne_fresh_of_home owned
        refine .inr ⟨plists_none stepped none old, q, j, sound.change.homes owned, ?_⟩
        rcases word with closed | closing
        · exact .inl (closed.stable sound.change (open_ q j closed))
        · exact (branch.closing alone.shape alone.inv closing).symm
    · rcases branch.releases alone.inv now with held | fresh | ⟨t, b, bb, e, newP, rfl⟩
      · exact .inl (List.mem_append_left _ (account_held held))
      · exact .inl (List.mem_append_right _ fresh)
      · -- the E-List that was rehashed is released without having been obtained by this operation
        obtain ⟨at_, _, ref⟩ := alone.inv
        obtain ⟨isBase, _⟩ := ref.inPlace _ rfl
        obtain ⟨el, stored, _⟩ := at_.stored
        have owned := at_.base_home
        cases stepped
        refine .inr ⟨?_, t.beforeLocalizedCurr, b, sound.change.homes (isBase ▸ owned), .inr rfl⟩
        show m.plists c.ptr = none
        cases found : m.plists c.ptr with
        | none => rfl
        | some bs =>
          have none := alone.shape.disjoint found
          rw [isBase, stored] at none
          cases none

theorem Books.start (root : RemotePtr) (pool : Nat) (home : Home) (m : Mem K V) :
    Books root pool home m .readRoot [] [] where
  account := .nil
  old := by simp
  apart := by simp
  replaced := by simp

theorem InTree.named {ptr : RemotePtr} (inTree : InTree root m ptr) (shape : Shape T root home m) :
    ptr = root ∨ ptr = .null ∨ ∃ x, home ptr = some x := by
  rcases inTree with ⟨d, descent⟩ | ⟨p, d, b, pr, descent, found, rfl⟩
  · rcases descent.published shape with isRoot | ⟨q, j, owned, _⟩
    · exact .inl isRoot
    · exact .inr (.inr ⟨_, owned⟩)
  · rcases shape.base_ok found with null | owned
    · exact .inr (.inl null)
    · exact .inr (.inr ⟨_, owned⟩)

theorem Books.obtained_apart (books : Books root pool home m pc log lost) (shape : Shape T root home m) {c : Block}
    (obtained : .obtained c ∈ log) : ¬ InTree root m c.ptr := by
  intro inTree
  obtain ⟨noHome, notRoot, notNull⟩ := books.apart c obtained
  rcases inTree.named shape with isRoot | null | ⟨x, owned⟩
  · exact notRoot isRoot
  · exact notNull null
  · rw [noHome] at owned
    cases owned

/-- The E-List that a P-List has replaced is no part of the tree. -/
theorem Books.released_apart (books : Books root pool home m pc log lost) (shape : Shape T root home m)
    (closed : pc.closing = none) {c : Block} (released : .released c ∈ log) : ¬ InTree root m c.ptr := by
  rcases books.replaced c released with obtained | ⟨none, q, j, owned, ⟨pr, found, word⟩ | closing⟩
  · exact books.obtained_apart shape obtained
  · rintro (⟨d, descent⟩ | ⟨p, d, b, pr', descent, found', isBase⟩)
    · obtain ⟨bs, stored⟩ := descent.plist shape
      rw [none] at stored
      cases stored
    · have notNull : pr'.base ≠ .null := by
        intro null
        rw [← isBase, null, shape.home_null] at owned
        cases owned
      have home' := (shape.base_ok found').resolve_left notNull
      rw [isBase, owned] at home'
      cases home'
      cases found.symm.trans found'
      obtain ⟨_, bs, child, _, stored, _⟩ := shape.closed found word
      rw [isBase, none] at stored
      cases stored
  · rw [closed] at closing
    cases closing

/-- At its end an operation has kept its books in balance if and only if it has lost nothing. -/
theorem Books.left {t : Traversal} {held : Option (RemotePtr × ElistRef K V)} {res : HtRes V}
    (books : Books root pool home m (.leave t held res) log lost) (shape : Shape T root home m) :
    CopiesBalanced root m (log ++ (Pc.leave t held res).blockOps pool m) ↔ lost = [] := by
  have owned : (Pc.leave t held res).owned pool = (heldBlock pool held ++ t.block) ++ [] := (List.append_nil _).symm
  have account := (owned ▸ books.account).releaseAll
  refine Iff.trans ⟨fun balanced => balanced.copies, fun copies => ⟨copies, ?_⟩⟩ account.balanced_iff
  intro c mem
  rcases List.mem_append.mp mem with before | now
  · exact books.released_apart shape rfl before
  · obtain ⟨c', here, same⟩ := List.mem_map.mp now
    cases same
    exact books.obtained_apart shape (books.account.obtained_of_mem (List.mem_append_left _ here))

end RdmaIht.Iht
