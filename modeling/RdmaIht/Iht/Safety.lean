import RdmaIht.Iht.StepSafety

/-! Safety of `RdmaIHT` in every reachable state.

Every thread is at a point whose assertion holds, no two threads hold the lock of
one bucket, and a lock word reads `E_LOCKED` only while a thread holds it. From
this: a pointer followed as a P-List is one, of the length that is read; a
pointer used as an E-List is null or an E-List that is still allocated; and a
bucket that has a P-List keeps it.
-/

set_option autoImplicit false

namespace RdmaIht.Iht

open Concurrency

variable {K V : Type}

structure Invariant (T : Template K V) (peer : Nat → Nat) (home : Home) (s : State K V) : Prop where
  shape : Shape T s.root home s.mem
  points : ∀ {c id op pc}, s.threads c = .running id op pc → PcInv T s.root home s.mem (peer c) pc
  exclusive : ∀ {c c' id id' op op' pc pc' x}, s.threads c = .running id op pc →
    s.threads c' = .running id' op' pc' → pc.held = some x → pc'.held = some x → c = c'
  holder : ∀ {p b}, s.mem.Word p b .eLocked →
    ∃ c id op pc, s.threads c = .running id op pc ∧ pc.held = some (p, b)

variable {T : Template K V} {peer : Nat → Nat} {home : Home} {s : State K V}

section Noninterference

variable {c id : Nat} {op : IhtOp K V} {pc : Pc K V} {home' : Home} {touch : RemotePtr → Nat → Prop}
  {m' : Mem K V} {next : Pc K V ⊕ HtRes V}

theorem Invariant.away (invariant : Invariant T peer home s) (runs : s.threads c = .running id op pc)
    (sound : Sound T s.root (peer c) home s.mem pc home' touch m' next) {c' id' : Nat} {op' : IhtOp K V}
    {pc' : Pc K V} (other : c' ≠ c) (runs' : s.threads c' = .running id' op' pc') (p : RemotePtr) (b : Nat)
    (holds : pc'.held = some (p, b)) : ¬ touch p b := by
  have word := (invariant.points runs').held holds
  intro touched
  rcases sound.touched p b touched with mine | builds | ⟨_, open_, _⟩
  · exact other (invariant.exclusive runs' runs holds mine)
  · exact (invariant.points runs).built_unpublished invariant.shape builds word.2
  · cases open_.functional word.1

theorem Invariant.apart (invariant : Invariant T peer home s) (runs : s.threads c = .running id op pc)
    (sound : Sound T s.root (peer c) home s.mem pc home' touch m' next) {c' id' : Nat} {op' : IhtOp K V}
    {pc' : Pc K V} (other : c' ≠ c) (runs' : s.threads c' = .running id' op' pc') (newP : RemotePtr)
    (builds : pc'.built = some newP) (j : Nat) : ¬ touch newP j := by
  have unpublished := (invariant.points runs').built_unpublished invariant.shape builds
  intro touched
  rcases sound.touched newP j touched with mine | mine | ⟨published, _⟩
  · exact unpublished ((invariant.points runs).held mine).2
  · obtain ⟨x, holds, owned, _⟩ := (invariant.points runs').built builds
    obtain ⟨x', holds', owned', _⟩ := (invariant.points runs).built mine
    cases owned.symm.trans owned'
    exact other (invariant.exclusive runs' runs holds holds')
  · exact unpublished published

end Noninterference

section Exec

theorem exec_cases [DecidableEq K] {s' : State K V} {action : Action K V} (enabled : exec T peer s action = some s') :
    (∃ c op, action = .invoke c op ∧ s.threads c = .idle ∧ s' = { s with
      threads := Function.update s.threads c (.running s.ops op .readRoot)
      history := s.history ++ [.inv s.ops op]
      ops := s.ops + 1 }) ∨
    ∃ c id op pc m next, action = .step c ∧ s.threads c = .running id op pc ∧
      step T (peer c) s.root op s.mem pc = .ok (m, next) ∧
      ((∃ pc', next = .inl pc' ∧ s' = { s with
        mem := m, threads := Function.update s.threads c (.running id op pc') }) ∨
      ∃ res, next = .inr res ∧ s' = { s with
        mem := m, threads := Function.update s.threads c .idle, history := s.history ++ [.res id res] }) := by
  cases action with
  | invoke c op =>
    simp only [exec] at enabled
    split at enabled
    · cases enabled
    · next idle => exact .inl ⟨c, op, rfl, idle, (Option.some.inj enabled).symm⟩
  | step c =>
    simp only [exec] at enabled
    split at enabled
    · cases enabled
    · next id op pc runs =>
      split at enabled
      · cases enabled
      · next m pc' stepped =>
        exact .inr ⟨c, id, op, pc, m, _, rfl, runs, stepped, .inl ⟨pc', rfl, (Option.some.inj enabled).symm⟩⟩
      · next m res stepped =>
        exact .inr ⟨c, id, op, pc, m, _, rfl, runs, stepped, .inr ⟨res, rfl, (Option.some.inj enabled).symm⟩⟩

theorem Invariant.sound_step (invariant : Invariant T peer home s) {c id : Nat} {op : IhtOp K V}
    {pc : Pc K V} (runs : s.threads c = .running id op pc) {home' : Home} {touch : RemotePtr → Nat → Prop}
    {m' : Mem K V} {next : Pc K V ⊕ HtRes V}
    (sound : Sound T s.root (peer c) home s.mem pc home' touch m' next) {s' : State K V}
    (root : s'.root = s.root) (mem : s'.mem = m')
    (mine : ∀ id' op' pc', s'.threads c = .running id' op' pc' → next = .inl pc')
    (goes : ∀ pc', next = .inl pc' → s'.threads c = .running id op pc')
    (others : ∀ c', c' ≠ c → s'.threads c' = s.threads c') : Invariant T peer home' s' := by
  have open_ := sound.open_ (invariant.points runs)
  have holds : ∀ {id' op' pc' x}, s'.threads c = .running id' op' pc' → pc'.held = some x →
      heldNext next = some x := by
    intro id' op' pc' x runs' held
    rw [mine _ _ _ runs']
    exact held
  -- a bucket that `c` holds after the step is not held by anyone else
  have alone : ∀ {c' id' op' pc' x}, c' ≠ c → s.threads c' = .running id' op' pc' → pc'.held = some x →
      heldNext next ≠ some x := by
    rintro c' id' op' pc' ⟨p, b⟩ other runs' held now
    rcases sound.taken p b now with before | open_
    · exact other (invariant.exclusive runs' runs held before)
    · cases open_.functional ((invariant.points runs').held held).1
  refine
    { shape := by rw [root, mem]; exact sound.shape
      points := ?_
      exclusive := ?_
      holder := ?_ }
  · intro c' id' op' pc' runs'
    rw [root, mem]
    by_cases same : c' = c
    · subst same
      exact sound.inv pc' (mine _ _ _ runs')
    · rw [others c' same] at runs'
      exact (invariant.points runs').stable sound.change open_ (invariant.away runs sound same runs')
        (invariant.apart runs sound same runs')
  · intro c₁ c₂ id₁ id₂ op₁ op₂ pc₁ pc₂ x runs₁ runs₂ held₁ held₂
    by_cases same₁ : c₁ = c <;> by_cases same₂ : c₂ = c
    · rw [same₁, same₂]
    · subst same₁
      rw [others c₂ same₂] at runs₂
      exact absurd (holds runs₁ held₁) (alone same₂ runs₂ held₂)
    · subst same₂
      rw [others c₁ same₁] at runs₁
      exact absurd (holds runs₂ held₂) (alone same₁ runs₁ held₁)
    · rw [others c₁ same₁] at runs₁
      rw [others c₂ same₂] at runs₂
      exact invariant.exclusive runs₁ runs₂ held₁ held₂
  · intro p b word
    rw [mem] at word
    rcases sound.flow p b word with now | ⟨notMine, before⟩
    · cases next with
      | inl pc' => exact ⟨c, id, op, pc', goes pc' rfl, now⟩
      | inr res => cases now
    · obtain ⟨c', id', op', pc', runs', held⟩ := invariant.holder before
      have other : c' ≠ c := by
        rintro rfl
        cases runs'.symm.trans runs
        exact notMine held
      exact ⟨c', id', op', pc', by rw [others c' other]; exact runs', held⟩

theorem Invariant.invoked (invariant : Invariant T peer home s) {c : Nat} (op : IhtOp K V)
    (idle : s.threads c = .idle) : Invariant T peer home { s with
      threads := Function.update s.threads c (.running s.ops op .readRoot)
      history := s.history ++ [.inv s.ops op]
      ops := s.ops + 1 } := by
  refine ⟨invariant.shape, ?_, ?_, ?_⟩
  · intro c' id' op' pc' runs'
    simp only [Function.update_apply] at runs'
    split at runs'
    · cases runs'; trivial
    · exact invariant.points runs'
  · intro c₁ c₂ id₁ id₂ op₁ op₂ pc₁ pc₂ x runs₁ runs₂ held₁ held₂
    simp only [Function.update_apply] at runs₁ runs₂
    split at runs₁
    · cases runs₁; cases held₁
    · split at runs₂
      · cases runs₂; cases held₂
      · exact invariant.exclusive runs₁ runs₂ held₁ held₂
  · intro p b word
    obtain ⟨c', id', op', pc', runs', held⟩ := invariant.holder word
    have other : c' ≠ c := by
      rintro rfl
      rw [idle] at runs'
      cases runs'
    exact ⟨c', id', op', pc', by simpa only [Function.update_of_ne other] using runs', held⟩

section Step

variable {c id : Nat} {op : IhtOp K V} {pc : Pc K V} {home' : Home} {touch : RemotePtr → Nat → Prop}
  {m' : Mem K V}

theorem Invariant.continued (invariant : Invariant T peer home s) (runs : s.threads c = .running id op pc)
    {pc' : Pc K V} (sound : Sound T s.root (peer c) home s.mem pc home' touch m' (.inl pc')) :
    Invariant T peer home' { s with
      mem := m', threads := Function.update s.threads c (.running id op pc') } := by
  refine invariant.sound_step runs sound rfl rfl ?_ ?_ ?_
  · intro id' op' pc'' runs'
    simp only [Function.update_self] at runs'
    cases runs'
    rfl
  · intro pc'' same
    cases same
    simp
  · intro c' other
    simp [Function.update_of_ne other]

theorem Invariant.returned (invariant : Invariant T peer home s) (runs : s.threads c = .running id op pc)
    {res : HtRes V} (sound : Sound T s.root (peer c) home s.mem pc home' touch m' (.inr res)) :
    Invariant T peer home' { s with
      mem := m', threads := Function.update s.threads c .idle, history := s.history ++ [.res id res] } := by
  refine invariant.sound_step runs sound rfl rfl ?_ ?_ ?_
  · intro id' op' pc' runs'
    simp at runs'
  · intro pc' same
    cases same
  · intro c' other
    simp [Function.update_of_ne other]

theorem Invariant.sound [DecidableEq K] (plist : 2 ≤ T.plistSize) (elist : 1 ≤ T.elistSize)
    (invariant : Invariant T peer home s) (runs : s.threads c = .running id op pc) {next : Pc K V ⊕ HtRes V}
    (stepped : step T (peer c) s.root op s.mem pc = .ok (m', next)) :
    ∃ home' touch, Sound T s.root (peer c) home s.mem pc home' touch m' next := by
  rcases step_safe op plist elist invariant.shape (invariant.points runs) with
    ⟨_, fault⟩ | ⟨m₁, next₁, home', touch, same, sound⟩
  · rw [fault] at stepped
    cases stepped
  · cases stepped.symm.trans same
    exact ⟨home', touch, sound⟩

end Step

/-- One action keeps the invariant and keeps the P-List of every bucket. -/
theorem Invariant.next [DecidableEq K] (plist : 2 ≤ T.plistSize) (elist : 1 ≤ T.elistSize)
    (invariant : Invariant T peer home s) {s' : State K V} {action : Action K V}
    (enabled : exec T peer s action = some s') : ∃ home', Invariant T peer home' s' ∧
      ∀ p b pr bs, s.mem.bucket p b = some pr → s.mem.plists pr.base = some bs →
        ∃ pr' bs', s'.mem.bucket p b = some pr' ∧ pr'.base = pr.base ∧ s'.mem.plists pr.base = some bs' ∧
          bs'.length = bs.length := by
  rcases exec_cases enabled with ⟨c, op, rfl, idle, rfl⟩ | ⟨c, id, op, pc, m, next, rfl, runs, stepped, ends⟩
  · exact ⟨home, invariant.invoked op idle, fun p b pr bs found child => ⟨pr, bs, found, rfl, child, rfl⟩⟩
  · obtain ⟨home', touch, sound⟩ := invariant.sound plist elist runs stepped
    have keeps : ∀ p b pr bs, s.mem.bucket p b = some pr → s.mem.plists pr.base = some bs →
        ∃ pr' bs', m.bucket p b = some pr' ∧ pr'.base = pr.base ∧ m.plists pr.base = some bs' ∧
          bs'.length = bs.length := by
      intro p b pr bs found child
      obtain ⟨pr', now, base⟩ := sound.keeps p b pr bs found child
      obtain ⟨bs', child', length⟩ := sound.change.plists child
      exact ⟨pr', bs', now, base, child', length⟩
    rcases ends with ⟨pc', rfl, rfl⟩ | ⟨res, rfl, rfl⟩
    · exact ⟨home', invariant.continued runs sound, keeps⟩
    · exact ⟨home', invariant.returned runs sound, keeps⟩

end Exec

theorem Mem.bucket_first {host n : Nat} {p : RemotePtr} {b : Nat} {pr : PlistPair}
    (found : ((Mem.empty : Mem K V).newPlist host n).bucket p b = some pr) :
    p = (Mem.empty : Mem K V).fresh host ∧ b < n ∧
      pr = ⟨.null, ⟨host, (Mem.empty : Mem K V).next + 1 + b⟩⟩ := by
  rcases Mem.bucket_of_newPlist found with new | old
  · exact new
  · cases old

theorem Shape.start (T : Template K V) (host : Nat) :
    Shape T (initial T host).root (fun _ => none) (initial T host).mem where
  next_pos := by simp only [initial, initAsFirst, Mem.next_newPlist, Mem.empty]; omega
  root_size := ⟨_, by rw [initial, initAsFirst, Mem.plists_newPlist, if_pos rfl], Mem.length_initBuckets ..⟩
  home_root := rfl
  home_null := rfl
  plist_null := by
    rw [initial, initAsFirst, Mem.plists_newPlist, if_neg (by simp [Mem.fresh, Mem.empty, RemotePtr.null])]
    rfl
  plist_old := by
    intro p bs found
    simp only [initial, initAsFirst, Mem.plists_newPlist, Mem.next_newPlist] at found ⊢
    split at found
    · next here => subst here; simp only [Mem.fresh, Mem.empty]; omega
    · cases found
  elist_old := by
    intro e el found
    simp [initial, initAsFirst, Mem.empty] at found
  disjoint := by
    intro p bs _
    simp [initial, initAsFirst, Mem.empty]
  lock_old := by
    intro l w found
    simp only [initial, initAsFirst, Mem.locks_newPlist, Mem.next_newPlist] at found ⊢
    split at found
    · omega
    · cases found
  home_old := by simp
  home_bucket := by simp
  lock_exists := by
    intro p b pr found
    obtain ⟨_, bound, rfl⟩ := Mem.bucket_first found
    exact ⟨_, Mem.locks_newPlist_fresh _ host _ bound⟩
  lock_inj := by
    intro p b pr q j qr found found' same
    obtain ⟨rfl, _, rfl⟩ := Mem.bucket_first found
    obtain ⟨rfl, _, rfl⟩ := Mem.bucket_first found'
    simp only [RemotePtr.mk.injEq, true_and] at same
    exact ⟨rfl, by omega⟩
  base_ok := by
    intro p b pr found
    obtain ⟨_, _, rfl⟩ := Mem.bucket_first found
    exact .inl rfl
  opened := by simp
  closed := by
    intro p b pr found word
    obtain ⟨_, bound, rfl⟩ := Mem.bucket_first found
    cases word.symm.trans (Mem.locks_newPlist_fresh _ host _ bound)

theorem Invariant.start (T : Template K V) (peer : Nat → Nat) (host : Nat) :
    Invariant T peer (fun _ => none) (initial T host) where
  shape := .start T host
  points runs := by cases runs
  exclusive runs := by cases runs
  holder := by
    rintro p b ⟨pr, found, word⟩
    obtain ⟨w, stored⟩ := (Shape.start T host).lock_exists found
    simp only [initial, initAsFirst, Mem.locks_newPlist] at word
    split at word <;> cases word

theorem Invariant.reachable [DecidableEq K] (plist : 2 ≤ T.plistSize) (elist : 1 ≤ T.elistSize) {host : Nat}
    (reachable : Reachable (exec T peer) (initial T host) s) : ∃ home, Invariant T peer home s := by
  refine Steps.invariant (P := fun s => ∃ home, Invariant T peer home s) reachable ⟨_, .start T peer host⟩ ?_
  rintro u action u' ⟨home, invariant⟩ _ enabled
  obtain ⟨home', next, _⟩ := invariant.next plist elist enabled
  exact ⟨home', next⟩

/-! ## E-Lists and P-Lists are not confused -/

def Pc.list : Pc K V → Option RemotePtr
  | .readElist _ _ bb | .search _ _ bb _ _ | .storePair _ _ bb _ _ | .storeCount _ _ bb _
  | .swapLast _ _ bb _ _ _ | .dropCount _ _ bb _ _ | .writeBack _ _ bb _ _ | .newPlist _ _ bb _
  | .rehashSource _ _ bb _ _ | .rehashMove _ _ bb _ _ _ _ | .rehashFree _ _ bb _ _ _ => some bb
  | _ => none

/-- `p` is a P-List of the `n` times `PLIST_SIZE` buckets that `ExtendedRead` asks for. -/
def Mem.IsPlist (m : Mem K V) (T : Template K V) (p : RemotePtr) (n : Nat) : Prop :=
  ∃ bs, m.plists p = some bs ∧ bs.length = T.plistSize * n

def Mem.IsElist (m : Mem K V) (e : RemotePtr) : Prop := ∃ el, m.elists e = some el

/-- What the blocks a thread is about to use are. -/
structure WellTyped [DecidableEq K] (T : Template K V) (peer : Nat → Nat) (s : State K V) (c : Nat)
    (op : IhtOp K V) (pc : Pc K V) : Prop where
  refetched : ∀ t b, pc = .refetch t b → s.mem.IsPlist T t.beforeLocalizedCurr (2 ^ (t.depth - 1)) ∧
    ∃ pr, s.mem.bucket t.beforeLocalizedCurr b = some pr ∧ pr.base ≠ .null ∧ s.mem.IsPlist T pr.base (2 ^ t.depth)
  followed : ∀ t bb, pc = .descend t bb → bb ≠ .null ∧ s.mem.IsPlist T bb (2 ^ t.depth)
  loaded : ∀ t b, pc = .loadBase t b → ∃ pr, t.curr.bucket s.mem b = some pr ∧
    (pr.base = .null ∨ s.mem.IsElist pr.base)
  used : ∀ bb, pc.list = some bb → s.mem.IsElist bb
  faults : ∀ fault, step T (peer c) s.root op s.mem pc = .error fault → fault = .intOverflow

theorem Located.isPlist {root : RemotePtr} {m : Mem K V} {t : Traversal} (located : Located T root home m t) :
    m.IsPlist T t.beforeLocalizedCurr (2 ^ (t.depth - 1)) := by
  obtain ⟨bs, found, length⟩ := located.plist
  exact ⟨bs, found, length.trans located.count_eq⟩

theorem PcInv.list {root : RemotePtr} {m : Mem K V} {pool : Nat} {pc : Pc K V}
    (inv : PcInv T root home m pool pc) {bb : RemotePtr} (uses : pc.list = some bb) : m.IsElist bb := by
  have of_list : ∀ {t b e skip}, AtList T root home m pool t b bb e skip → m.IsElist bb := by
    intro t b e skip at_
    obtain ⟨el, stored, _⟩ := at_.stored
    exact ⟨el, stored⟩
  cases pc <;> cases uses
  case readElist =>
    obtain ⟨el, stored, _⟩ := inv.1.owned _ inv.2.1 (by simp)
    exact ⟨el, stored⟩
  case search | newPlist => exact of_list inv
  all_goals exact of_list inv.1

theorem Invariant.wellTyped [DecidableEq K] (plist : 2 ≤ T.plistSize) (elist : 1 ≤ T.elistSize)
    (invariant : Invariant T peer home s) {c id : Nat} {op : IhtOp K V} {pc : Pc K V}
    (runs : s.threads c = .running id op pc) : WellTyped T peer s c op pc where
  refetched := by
    rintro t b rfl
    obtain ⟨located, pr, found, word⟩ := invariant.points runs
    obtain ⟨owned, bs, child, storedP, storedC, double⟩ := invariant.shape.closed found word
    obtain ⟨bs', storedP', length⟩ := located.plist
    cases storedP.symm.trans storedP'
    refine ⟨located.isPlist, pr, found, invariant.shape.null_not_plist_child found word, child, storedC, ?_⟩
    rw [← located.double, double, length, Nat.mul_comm]
  followed := by
    rintro t bb rfl
    obtain ⟨located, b, owned, _, child, stored, length⟩ := invariant.points runs
    refine ⟨?_, child, stored, length.trans located.double⟩
    rintro rfl
    rw [invariant.shape.home_null] at owned
    cases owned
  loaded := by
    rintro t b rfl
    have held : Held T s.root home s.mem t b none := invariant.points runs
    obtain ⟨pr, found⟩ := held.located.exists_bucket (held.located.word_lt held.word)
    obtain ⟨_, _, _, null | owned⟩ := held.located.bucket invariant.shape found
    · exact ⟨pr, found, .inl null⟩
    · obtain ⟨el, stored, _⟩ := held.owned _ owned (by simp)
      exact ⟨pr, found, .inr ⟨el, stored⟩⟩
  used _ uses := (invariant.points runs).list uses
  faults := by
    intro fault failed
    rcases step_safe op plist elist invariant.shape (invariant.points runs) with ⟨_, overflow⟩ | ⟨_, _, _, _, ok, _⟩
    · exact (Except.error.inj (overflow.symm.trans failed)).symm
    · rw [ok] at failed
      cases failed

/-- In every run, every thread finds the blocks it expects, and a bucket that has
a P-List has the same P-List in every later state. -/
theorem blocks_not_confused [DecidableEq K] (T : Template K V) (plist : 2 ≤ T.plistSize)
    (elist : 1 ≤ T.elistSize) (peer : Nat → Nat) (host : Nat) (s : State K V)
    (reachable : Reachable (exec T peer) (initial T host) s) :
    (∀ c id op pc, s.threads c = .running id op pc → WellTyped T peer s c op pc) ∧
      ∀ s', Reachable (exec T peer) s s' → ∀ p b pr bs, s.mem.bucket p b = some pr →
        s.mem.plists pr.base = some bs → ∃ pr' bs', s'.mem.bucket p b = some pr' ∧ pr'.base = pr.base ∧
          s'.mem.plists pr.base = some bs' ∧ bs'.length = bs.length := by
  obtain ⟨home, invariant⟩ := Invariant.reachable plist elist reachable
  refine ⟨fun c id op pc runs => invariant.wellTyped plist elist runs, ?_⟩
  intro s' later p b pr bs found child
  obtain ⟨_, result⟩ : (∃ home', Invariant T peer home' s') ∧ ∃ pr' bs', s'.mem.bucket p b = some pr' ∧
      pr'.base = pr.base ∧ s'.mem.plists pr.base = some bs' ∧ bs'.length = bs.length := by
    refine Steps.invariant (P := fun s' : State K V => (∃ home', Invariant T peer home' s') ∧
      ∃ pr' bs', s'.mem.bucket p b = some pr' ∧ pr'.base = pr.base ∧ s'.mem.plists pr.base = some bs' ∧
        bs'.length = bs.length) later ⟨⟨home, invariant⟩, pr, bs, found, rfl, child, rfl⟩ ?_
    rintro u action u' ⟨⟨home', holds⟩, pr', bs', found', base, child', length⟩ _ enabled
    obtain ⟨home'', next, keeps⟩ := holds.next plist elist enabled
    obtain ⟨pr'', bs'', now, same, child'', length'⟩ := keeps p b pr' bs' found' (base ▸ child')
    exact ⟨⟨home'', next⟩, pr'', bs'', now, same.trans base, base ▸ child'', length'.trans length⟩
  exact result

/-- Client 1 starts while client 0 fills a bucket, and goes on when the bucket has become a P-List. -/
def overtaken : List (Action (BitVec 32) (BitVec 32)) :=
  .invoke 0 (.insert 1 10) :: List.replicate 7 (.step 0) ++
    [.invoke 0 (.insert 2 20), .invoke 1 (.contains 1), .step 1] ++ List.replicate 13 (.step 0) ++ [.step 1]

theorem blocks_not_confused_overtaken : ∃ s id op t b,
    runAll (exec (intTemplate 1 2) fun c => c) (initial (intTemplate 1 2) 0) overtaken = some s ∧
      s.threads 1 = .running id op (.refetch t b) ∧
      WellTyped (intTemplate 1 2) (fun c => c) s 1 op (.refetch t b) := by
  have ran : ((runAll (exec (intTemplate 1 2) fun c => c) (initial (intTemplate 1 2) 0) overtaken).any
      fun s => match s.threads 1 with
        | .running _ _ (.refetch _ _) => true
        | _ => false) = true := by decide +kernel
  obtain ⟨s, final, point⟩ := (Option.any_eq_true _ _).mp ran
  split at point
  · next id op t b runs =>
    exact ⟨s, id, op, t, b, final, runs, (blocks_not_confused (intTemplate 1 2) (by decide) (by decide)
      (fun c => c) 0 s (reachable_of_runAll overtaken final)).1 1 id op _ runs⟩
  · cases point

end RdmaIht.Iht
