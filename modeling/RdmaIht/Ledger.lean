import Mathlib.Data.List.Nodup

/-! Accounts of blocks that are obtained and released.

A log lists what was obtained and released, in order. Blocks are told apart by
where they are. An account says of the blocks obtained so far which are still
owned and which were lost, that is, dropped without being released; all others were
released once, with the data they were obtained with.
-/

set_option autoImplicit false

namespace RdmaIht.Ledger

variable {B P : Type}

inductive Entry (B : Type) where
  | obtained (b : B)
  | released (b : B)
  deriving DecidableEq, Repr

def Entry.block : Entry B → B
  | .obtained b => b
  | .released b => b

variable [DecidableEq P] (ptr : B → P)

def about (log : List (Entry B)) (p : P) : List (Entry B) := log.filter fun entry => ptr entry.block == p

/-- What was obtained was released once, as it was obtained. -/
def Balanced (log : List (Entry B)) : Prop :=
  ∀ b, .obtained b ∈ log → about ptr log (ptr b) = [.obtained b, .released b]

structure Account (log : List (Entry B)) (owned lost : List B) : Prop where
  distinct : ((owned ++ lost).map ptr).Nodup
  opened : ∀ b ∈ owned ++ lost, about ptr log (ptr b) = [.obtained b]
  closed : ∀ b, .obtained b ∈ log → b ∈ owned ++ lost ∨ about ptr log (ptr b) = [.obtained b, .released b]

variable {ptr} {log : List (Entry B)} {owned first rest lost : List B} {b : B}

theorem about_append_self (entry : Entry B) :
    about ptr (log ++ [entry]) (ptr entry.block) = about ptr log (ptr entry.block) ++ [entry] := by
  simp [about, List.filter_append]

theorem about_append_of_ne {entry : Entry B} {p : P} (other : ptr entry.block ≠ p) :
    about ptr (log ++ [entry]) p = about ptr log p := by
  simp [about, List.filter_append, other]

theorem about_of_fresh {p : P} (fresh : ∀ entry ∈ log, ptr entry.block ≠ p) : about ptr log p = [] := by
  simpa [about, List.filter_eq_nil_iff] using fresh

theorem mem_of_about {p : P} {entry : Entry B} (mem : entry ∈ about ptr log p) : entry ∈ log :=
  (List.mem_filter.mp mem).1

namespace Account

theorem nil : Account ptr [] [] [] := ⟨by simp, by simp, by simp⟩

theorem obtained_of_mem (account : Account ptr log owned lost) (mem : b ∈ owned ++ lost) : .obtained b ∈ log := by
  have opened := account.opened b mem
  exact mem_of_about (p := ptr b) (by rw [opened]; exact List.mem_singleton_self _)

theorem perm {owned' lost' : List B} (account : Account ptr log owned lost)
    (same : (owned ++ lost).Perm (owned' ++ lost')) : Account ptr log owned' lost' where
  distinct := (same.map ptr).nodup_iff.mp account.distinct
  opened b mem := account.opened b (same.mem_iff.mpr mem)
  closed b obtained := (account.closed b obtained).imp_left same.mem_iff.mp

theorem obtain_ (account : Account ptr log owned lost) (fresh : ∀ entry ∈ log, ptr entry.block ≠ ptr b) :
    Account ptr (log ++ [.obtained b]) (b :: owned) lost := by
  have nothing : about ptr log (ptr b) = [] := about_of_fresh fresh
  have others : ∀ b' ∈ owned ++ lost, ptr b ≠ ptr b' := by
    intro b' mem same
    have opened := account.opened b' mem
    rw [← same, nothing] at opened
    cases opened
  have here : about ptr (log ++ [.obtained b]) (ptr b) = [.obtained b] :=
    calc
      _ = about ptr log (ptr b) ++ [.obtained b] := about_append_self _
      _ = [.obtained b] := by rw [nothing]; rfl
  refine ⟨?_, ?_, ?_⟩
  · simp only [List.cons_append, List.map_cons, List.nodup_cons]
    refine ⟨fun mem => ?_, account.distinct⟩
    obtain ⟨b', mem', same⟩ := List.mem_map.mp mem
    exact others b' mem' same.symm
  · intro b' mem
    rcases List.mem_cons.mp mem with rfl | old
    · exact here
    · rw [about_append_of_ne (others b' old)]
      exact account.opened b' old
  · intro b' mem
    rcases List.mem_append.mp mem with old | new
    · have other : ptr b ≠ ptr b' := (fresh _ old).symm
      rw [about_append_of_ne other]
      exact (account.closed b' old).imp_left (List.mem_cons_of_mem b)
    · cases List.mem_singleton.mp new
      exact .inl (List.mem_cons_self ..)

theorem release (account : Account ptr log (b :: rest) lost) : Account ptr (log ++ [.released b]) rest lost := by
  have distinct := account.distinct
  simp only [List.cons_append, List.map_cons, List.nodup_cons] at distinct
  have others : ∀ b' ∈ rest ++ lost, ptr b ≠ ptr b' := by
    intro b' mem same
    exact distinct.1 (List.mem_map.mpr ⟨b', mem, same.symm⟩)
  have opened := account.opened b (List.mem_cons_self ..)
  have here : about ptr (log ++ [.released b]) (ptr b) = [.obtained b, .released b] :=
    calc
      _ = about ptr log (ptr b) ++ [.released b] := about_append_self _
      _ = [.obtained b, .released b] := by rw [opened]; rfl
  refine ⟨distinct.2, ?_, ?_⟩
  · intro b' mem
    rw [about_append_of_ne (others b' mem)]
    exact account.opened b' (List.mem_cons_of_mem b mem)
  · intro b' mem
    have old : .obtained b' ∈ log := by simpa using mem
    rcases account.closed b' old with kept | done
    · rcases List.mem_cons.mp kept with rfl | left
      · exact .inr here
      · exact .inl left
    · right
      have other : ptr b ≠ ptr b' := by
        intro same
        rw [same, done] at opened
        cases opened
      rw [about_append_of_ne other, done]

theorem releaseAll (account : Account ptr log (first ++ rest) lost) :
    Account ptr (log ++ first.map .released) rest lost := by
  induction first generalizing log with
  | nil => simpa using account
  | cons b first ih => simpa using ih account.release

theorem releaseOther (account : Account ptr log owned lost) (other : ∀ b', .obtained b' ∈ log → ptr b ≠ ptr b') :
    Account ptr (log ++ [.released b]) owned lost := by
  refine ⟨account.distinct, ?_, ?_⟩
  · intro b' mem
    rw [about_append_of_ne (other b' (account.obtained_of_mem mem))]
    exact account.opened b' mem
  · intro b' mem
    have old : .obtained b' ∈ log := by simpa using mem
    rw [about_append_of_ne (other b' old)]
    exact account.closed b' old

theorem lose (account : Account ptr log (first ++ rest) lost) : Account ptr log rest (first ++ lost) := by
  refine account.perm ?_
  rw [← List.append_assoc]
  exact List.perm_append_comm.append_right lost

/-- When nothing is owned any more, the log is balanced if and only if nothing was lost. -/
theorem balanced_iff (account : Account ptr log [] lost) : Balanced ptr log ↔ lost = [] := by
  constructor
  · intro balanced
    refine List.eq_nil_iff_forall_not_mem.mpr fun b mem => ?_
    have opened := account.opened b mem
    rw [balanced b (account.obtained_of_mem mem)] at opened
    cases opened
  · rintro rfl b obtained
    exact (account.closed b obtained).resolve_left (by simp)

end Account

end RdmaIht.Ledger
