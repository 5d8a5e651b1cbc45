/-
`sort` followed by `dedup` on a vector: what is left is strictly increasing
and has the same elements. And `partition_point`: where a vector is cut by a test
that fails from some place on.
-/
import Mathlib.Data.List.Sort
import Mathlib.Data.List.TakeWhile
import Mathlib.Data.String.Basic

namespace Vec

/-- Drop each element equal to the one after it. -/
def dedup {α : Type} [DecidableEq α] : List α → List α
  | [] => []
  | [a] => [a]
  | a :: a' :: l => if a = a' then dedup (a' :: l) else a :: dedup (a' :: l)

variable {α : Type} [LinearOrder α]

def sortDedup (l : List α) : List α := dedup (l.insertionSort (· ≤ ·))

theorem mem_dedup {a : α} {l : List α} : a ∈ dedup l ↔ a ∈ l := by
  fun_induction dedup l with
  | case1 => rfl
  | case2 => rfl
  | case3 b l ih => rw [ih]; simp
  | case4 b b' l hne ih => rw [List.mem_cons, ih]; simp

theorem length_dedup_le (l : List α) : (dedup l).length ≤ l.length := by
  fun_induction dedup l with
  | case1 => exact le_rfl
  | case2 => exact le_rfl
  | case3 b l ih => exact ih.trans (Nat.le_succ _)
  | case4 b b' l hne ih => exact Nat.succ_le_succ ih

/-- Neighbours in a sorted list are equal or increase, and equal ones are merged. -/
theorem pairwise_dedup {l : List α} (h : l.Pairwise (· ≤ ·)) : (dedup l).Pairwise (· < ·) := by
  fun_induction dedup l with
  | case1 => exact .nil
  | case2 => simp
  | case3 b l ih => exact ih h.of_cons
  | case4 b b' l hne ih =>
    refine List.pairwise_cons.2 ⟨fun x hx => ?_, ih h.of_cons⟩
    have hb : b < b' := lt_of_le_of_ne (List.rel_of_pairwise_cons h (by simp)) hne
    rcases List.mem_cons.1 (mem_dedup.1 hx) with rfl | hx
    · exact hb
    · exact hb.trans_le (List.rel_of_pairwise_cons h.of_cons hx)

theorem mem_sortDedup {a : α} {l : List α} : a ∈ sortDedup l ↔ a ∈ l := by
  rw [sortDedup, mem_dedup, (List.perm_insertionSort _ l).mem_iff]

theorem length_sortDedup_le (l : List α) : (sortDedup l).length ≤ l.length :=
  (length_dedup_le _).trans (List.perm_insertionSort _ l).length_eq.le

theorem pairwise_sortDedup (l : List α) : (sortDedup l).Pairwise (· < ·) :=
  pairwise_dedup (List.pairwise_insertionSort _ l)

/-- The first element of a falling list that passes a test is the greatest that does. -/
theorem find?_falling {l : List α} (hl : l.Pairwise (· > ·)) {p : α → Bool} {a : α} (h : l.find? p = some a) :
    ∀ b ∈ l, p b = true → b ≤ a := by
  induction l with
  | nil => cases h
  | cons c l ih =>
    intro b hb hpb
    rw [List.find?_cons] at h
    split at h
    · obtain rfl := Option.some.inj h
      rcases List.mem_cons.1 hb with rfl | hb
      · exact le_rfl
      · exact le_of_lt (List.rel_of_pairwise_cons hl hb)
    · rename_i hc
      rcases List.mem_cons.1 hb with rfl | hb
      · rw [hpb] at hc
        cases hc
      · exact ih hl.of_cons h b hb hpb

/-- From the greatest down, the first element that passes a test. -/
theorem find?_reverse_sortDedup {l : List α} {p : α → Bool} {a : α} (h : (sortDedup l).reverse.find? p = some a) :
    a ∈ l ∧ p a = true ∧ ∀ b ∈ l, p b = true → b ≤ a := by
  refine ⟨mem_sortDedup.1 (List.mem_reverse.1 (List.mem_of_find?_eq_some h)), List.find?_some h, fun b hb hpb => ?_⟩
  exact find?_falling (List.pairwise_reverse.2 (pairwise_sortDedup l)) h b
    (List.mem_reverse.2 (mem_sortDedup.2 hb)) hpb

/-! ## Cutting at a test -/

section Cut

variable {β : Type} {p : β → Bool} {l r : List β}

theorem take_length_takeWhile : l.take (l.takeWhile p).length = l.takeWhile p :=
  (List.prefix_iff_eq_take.1 (List.takeWhile_prefix _)).symm

theorem drop_length_takeWhile : l.drop (l.takeWhile p).length = l.dropWhile p := by
  have h : (l.takeWhile p ++ l.dropWhile p).drop (l.takeWhile p).length = l.dropWhile p := List.drop_left
  rwa [List.takeWhile_append_dropWhile] at h

/-- Behind the cut the test fails, if it cannot pass again once it failed. -/
theorem not_of_mem_dropWhile {R : β → β → Prop} (hl : l.Pairwise R) (hp : ∀ a b, R a b → p b = true → p a = true)
    {x : β} (hx : x ∈ l.dropWhile p) : p x = false := by
  induction l with
  | nil => cases hx
  | cons a l ih =>
    by_cases ha : p a = true
    · rw [List.dropWhile_cons_of_pos ha] at hx
      exact ih hl.of_cons hx
    · rw [List.dropWhile_cons_of_neg ha] at hx
      rcases List.mem_cons.1 hx with rfl | hx
      · simpa using ha
      · by_contra hpx
        exact ha (hp a x (List.rel_of_pairwise_cons hl hx) (by simpa using hpx))

/-- Elements that fail the test, put behind a list, stay behind the cut. -/
theorem dropWhile_append_of_not (hr : ∀ x ∈ r, p x = false) : (l ++ r).dropWhile p = l.dropWhile p ++ r := by
  rw [List.dropWhile_append]
  split
  · rename_i hempty
    rw [List.isEmpty_iff.1 hempty, List.nil_append, List.dropWhile_eq_self_iff]
    intro hlen
    simp [hr _ (List.getElem_mem hlen)]
  · rfl

end Cut

end Vec
