/-
Two majorities of one list have a member in common.

The list may hold duplicates: a majority is counted by positions, and two
predicates that together hold at more positions than there are hold together at
one of them.
-/
import Mathlib.Data.List.Basic

namespace Lib

variable {β : Type}

/-- **Majorities meet.** -/
theorem exists_common_of_countP {p q : β → Bool} : ∀ {l : List β}, l.length < l.countP p + l.countP q →
    ∃ x ∈ l, p x = true ∧ q x = true
  | [], h => by simp at h
  | x :: l, h => by
    by_cases hboth : p x = true ∧ q x = true
    · exact ⟨x, List.mem_cons_self, hboth⟩
    · -- the head counts for at most one of the two, so the tail still has too many
      have htail : l.length < l.countP p + l.countP q := by
        simp only [List.countP_cons, List.length_cons] at h
        cases hp : p x <;> cases hq : q x <;> simp [hp, hq] at h hboth <;> omega
      obtain ⟨y, hy, hpy⟩ := exists_common_of_countP htail
      exact ⟨y, List.mem_cons_of_mem x hy, hpy⟩

end Lib
