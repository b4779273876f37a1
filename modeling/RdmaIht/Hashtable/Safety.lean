import RdmaIht.Hashtable.ResizeSteps

/-! The invariant of `Hashtable` in every run whose resizes do not overlap.

No step of a thread fails, except that of a resize whose new count leaves `int`;
and what the memory holds is the table that the operations make, one after the
other in the order in which they win the locks.
-/

set_option autoImplicit false

namespace RdmaIht.Hashtable

open Concurrency

variable {K V : Type} [DecidableEq K]

/-- `answer` is what each thread in possession of a lock will return. -/
structure Inv (T : Template K V) (t : Table K V) (home : Home) (answer : Nat → HtRes V) (s : State K V) : Prop where
  ground : Ground t home s.mem
  threads : ∀ c, ThreadInv T t home s.mem (answer c) (s.threads c)
  exclusive : ∀ {c c' p}, (s.threads c).Holds p → (s.threads c').Holds p → c = c'
  holder : ∀ {a i set}, s.mem.bucketAt a i = some set → s.mem.locks set.lock = some .locked →
    ∃ c, (s.threads c).Holds set.lock
  single : ∀ {c c' pc pc'}, s.threads c = .resizing pc → s.threads c' = .resizing pc' → c = c'
  settled : (∀ c pc, s.threads c ≠ .resizing pc) → t.pending = []

variable {T : Template K V} {t : Table K V} {home : Home} {answer : Nat → HtRes V} {s : State K V}

namespace Inv

variable {c : Nat} {t' : Table K V} {home' : Home} {m' : Mem K V} {res' : HtRes V} {thread' : Thread K V} {q : Place}

theorem away (inv : Inv T t home answer s) (sound : Sound T q t home s.mem (s.threads c) t' home' m' res' thread')
    {c' : Nat} (other : c' ≠ c) {p : RemotePtr} (holds : (s.threads c').Holds p) : home p ≠ q := by
  obtain ⟨locked, a, i, set, at_, rfl⟩ := (inv.threads c').holds holds
  rw [(inv.ground.shape.lock at_).1]
  rintro rfl
  rcases sound.touched at_ with mine | open_
  · exact other (inv.exclusive holds mine)
  · rw [locked] at open_
    cases open_

theorem ground_step (inv : Inv T t home answer s)
    (sound : Sound T q t home s.mem (s.threads c) t' home' m' res' thread') : Ground t' home' m' where
  shape := inv.ground.shape.change sound.change
  count := by rw [sound.count, sound.change.root]; exact inv.ground.count
  live := by
    intro i set at_
    rw [sound.change.bucketAt, sound.change.root] at at_
    by_cases here : (s.mem.root.bucketStart, i) = q
    · subst here
      exact sound.live at_ rfl
    · rw [sound.change.locks _ (by rw [(inv.ground.shape.lock at_).1]; exact here)]
      exact inv.ground.live at_
  opened := by
    intro i set at_ open_
    rw [sound.change.bucketAt, sound.change.root] at at_
    rw [sound.change.root]
    by_cases here : (s.mem.root.bucketStart, i) = q
    · subst here
      exact sound.opened at_ rfl open_
    · rw [sound.change.locks _ (by rw [(inv.ground.shape.lock at_).1]; exact here)] at open_
      rw [sound.buckets i here]
      exact sound.change.represents inv.ground.shape here (inv.ground.opened at_ open_)

theorem sound (s' : State K V) (inv : Inv T t home answer s) (sound : Sound T q t home s.mem (s.threads c) t' home' m' res' thread')
    (single : ∀ pc, thread' = .resizing pc → ∀ c', c' ≠ c → ∀ pc', s.threads c' ≠ .resizing pc')
    (mem : s'.mem = m') (threads : s'.threads = Function.update s.threads c thread') :
    Inv T t' home' (Function.update answer c res') s' := by
  have shape := inv.ground.shape
  -- if `c` goes on resizing or has just ended, no other thread resizes
  have alone : (∃ pc, s.threads c = .resizing pc) → ∀ c', c' ≠ c → ∀ pc', s.threads c' ≠ .resizing pc' := by
    rintro ⟨pc, here⟩ c' other pc' there
    exact other (inv.single there here)
  have mine : s'.threads c = thread' := by rw [threads, Function.update_self]
  have theirs : ∀ c', c' ≠ c → s'.threads c' = s.threads c' := fun c' other => by
    rw [threads, Function.update_of_ne other]
  have apart : ∀ c' p, c' ≠ c → (s.threads c').Holds p → ¬ thread'.Holds p := by
    intro c' p other holds now
    rcases sound.taken now with before | ⟨here, _⟩
    · exact other (inv.exclusive holds before)
    · exact inv.away sound other holds here
  refine ⟨by rw [mem]; exact inv.ground_step sound, ?_, ?_, ?_, ?_, ?_⟩
  · intro c'
    rw [mem]
    by_cases here : c' = c
    · subst here
      rw [mine, Function.update_self]
      exact sound.inv
    · rw [theirs c' here, Function.update_of_ne here]
      refine (inv.threads c').stable sound.change shape sound.count sound.buckets ?_ fun p holds =>
        inv.away sound here holds
      rintro ⟨pc, there⟩
      exact sound.pending fun pc' resizes => alone ⟨pc', resizes⟩ c' here pc there
  · intro c₁ c₂ p holds₁ holds₂
    by_cases here₁ : c₁ = c <;> by_cases here₂ : c₂ = c
    · rw [here₁, here₂]
    · rw [here₁, mine] at holds₁
      rw [theirs c₂ here₂] at holds₂
      exact absurd holds₁ (apart c₂ p here₂ holds₂)
    · rw [here₂, mine] at holds₂
      rw [theirs c₁ here₁] at holds₁
      exact absurd holds₂ (apart c₁ p here₁ holds₁)
    · rw [theirs c₁ here₁] at holds₁
      rw [theirs c₂ here₂] at holds₂
      exact inv.exclusive holds₁ holds₂
  · intro a i set at_ locked
    rw [mem, sound.change.bucketAt] at at_
    rw [mem] at locked
    have place := (shape.lock at_).1
    by_cases here : (a, i) = q
    · subst here
      exact ⟨c, by rw [mine]; exact sound.holder at_ locked⟩
    · rw [sound.change.locks _ (place ▸ here)] at locked
      obtain ⟨c', holds⟩ := inv.holder at_ locked
      by_cases same : c' = c
      · subst same
        exact ⟨c', by rw [mine]; exact (sound.kept holds).resolve_right (place ▸ here)⟩
      · exact ⟨c', by rw [theirs c' same]; exact holds⟩
  · intro c₁ c₂ pc₁ pc₂ resizes₁ resizes₂
    by_cases here₁ : c₁ = c <;> by_cases here₂ : c₂ = c
    · rw [here₁, here₂]
    · rw [here₁, mine] at resizes₁
      rw [theirs c₂ here₂] at resizes₂
      exact absurd resizes₂ (single pc₁ resizes₁ c₂ here₂ pc₂)
    · rw [here₂, mine] at resizes₂
      rw [theirs c₁ here₁] at resizes₁
      exact absurd resizes₁ (single pc₂ resizes₂ c₁ here₁ pc₁)
    · rw [theirs c₁ here₁] at resizes₁
      rw [theirs c₂ here₂] at resizes₂
      exact inv.single resizes₁ resizes₂
  · intro none
    have ended : ∀ pc, thread' ≠ .resizing pc := fun pc resizes => none c pc (mine.trans resizes)
    by_cases was : ∃ pc, s.threads c = .resizing pc
    · exact sound.settled ended was
    · rw [sound.pending fun pc resizes => was ⟨pc, resizes⟩]
      refine inv.settled fun c' pc resizes => ?_
      by_cases here : c' = c
      · exact was ⟨pc, here ▸ resizes⟩
      · exact none c' pc ((theirs c' here).trans resizes)

end Inv

end RdmaIht.Hashtable
