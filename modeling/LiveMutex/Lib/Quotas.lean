/-
Two sets and a quota of each: how few elements of a pool have to be taken so that
both quotas are filled, and that taking one of the greatest gain at a time takes no
more.

`need` counts what is missing. Every missing element of either set has to come from
the pool; only one that lies in both sets fills two at once, and of those no more
than the pool has and than both sets miss.
-/
import Mathlib.Data.Finset.Card
import Mathlib.Data.Finset.Max
import Mathlib.Tactic.SplitIfs

namespace Quotas

variable {ν : Type} [DecidableEq ν] (O N : Finset ν) (p q : Nat)

/-- Both quotas are filled. -/
def Met (A : Finset ν) : Prop := p ≤ (O ∩ A).card ∧ q ≤ (N ∩ A).card

/-- What `A` misses at least, when it can be filled up from the pool `R`. -/
def need (A R : Finset ν) : Nat :=
  (p - (O ∩ A).card) + (q - (N ∩ A).card) -
    min (p - (O ∩ A).card) (min (q - (N ∩ A).card) ((R \ A) ∩ (O ∩ N)).card)

/-- In how many of the sets `x` fills something that `A` misses. -/
def gain (A : Finset ν) (x : ν) : Nat :=
  (if x ∈ O ∧ x ∉ A ∧ (O ∩ A).card < p then 1 else 0) + if x ∈ N ∧ x ∉ A ∧ (N ∩ A).card < q then 1 else 0

variable {O N p q} {A R T : Finset ν} {x : ν}

theorem card_inter_union_le (S A T : Finset ν) : (S ∩ (A ∪ T)).card ≤ (S ∩ A).card + ((T \ A) ∩ S).card := by
  have hsub : S ∩ (A ∪ T) ⊆ (S ∩ A) ∪ ((T \ A) ∩ S) := by
    intro y hy
    simp only [Finset.mem_inter, Finset.mem_union, Finset.mem_sdiff] at hy ⊢
    by_cases hA : y ∈ A
    · exact .inl ⟨hy.1, hA⟩
    · exact .inr ⟨⟨hy.2.resolve_left hA, hA⟩, hy.1⟩
  exact (Finset.card_le_card hsub).trans (Finset.card_union_le _ _)

/-- **No fewer will do.** -/
theorem need_le_card (hT : T ⊆ R) (h : Met O N p q (A ∪ T)) : need O N p q A R ≤ T.card := by
  have hO := h.1.trans (card_inter_union_le O A T)
  have hN := h.2.trans (card_inter_union_le N A T)
  have hboth : ((T \ A) ∩ O).card + ((T \ A) ∩ N).card ≤ T.card + ((T \ A) ∩ (O ∩ N)).card := by
    have hsplit := Finset.card_union_add_card_inter ((T \ A) ∩ O) ((T \ A) ∩ N)
    have hunion : (((T \ A) ∩ O) ∪ ((T \ A) ∩ N)).card ≤ T.card := by
      refine Finset.card_le_card fun y hy => ?_
      simp only [Finset.mem_union, Finset.mem_inter, Finset.mem_sdiff] at hy
      exact hy.elim (·.1.1) (·.1.1)
    have hinter : ((T \ A) ∩ O) ∩ ((T \ A) ∩ N) = (T \ A) ∩ (O ∩ N) := by
      ext y
      simp only [Finset.mem_inter]
      exact ⟨fun hy => ⟨hy.1.1, hy.1.2, hy.2.2⟩, fun hy => ⟨⟨hy.1, hy.2.1⟩, hy.1, hy.2.2⟩⟩
    rw [hinter] at hsplit
    omega
  have hpool : ((T \ A) ∩ (O ∩ N)).card ≤ ((R \ A) ∩ (O ∩ N)).card :=
    Finset.card_le_card (Finset.inter_subset_inter (Finset.sdiff_subset_sdiff hT subset_rfl) subset_rfl)
  have hTO : ((T \ A) ∩ O).card ≤ T.card :=
    Finset.card_le_card (Finset.inter_subset_left.trans Finset.sdiff_subset)
  have hTN : ((T \ A) ∩ N).card ≤ T.card :=
    Finset.card_le_card (Finset.inter_subset_left.trans Finset.sdiff_subset)
  unfold need
  omega

theorem need_eq_zero (h : Met O N p q A) : need O N p q A R = 0 := by
  obtain ⟨hO, hN⟩ := h
  unfold need
  omega

theorem card_inter_insert (S A : Finset ν) (x : ν) :
    (S ∩ insert x A).card = (S ∩ A).card + if x ∈ S ∧ x ∉ A then 1 else 0 := by
  by_cases hS : x ∈ S
  · by_cases hA : x ∈ A
    · simp [Finset.insert_eq_self.2 hA, hA]
    · have hnot : x ∉ S ∩ A := fun h => hA (Finset.mem_inter.1 h).2
      rw [Finset.inter_insert_of_mem hS, Finset.card_insert_of_notMem hnot, if_pos ⟨hS, hA⟩]
  · rw [Finset.inter_insert_of_notMem hS, if_neg fun h => hS h.1, Nat.add_zero]

theorem card_sdiff_insert_inter (hx : x ∈ R) (hA : x ∉ A) (S : Finset ν) :
    ((R \ insert x A) ∩ S).card + (if x ∈ S then 1 else 0) = ((R \ A) ∩ S).card := by
  have herase : (R \ insert x A) ∩ S = ((R \ A) ∩ S).erase x := by
    ext y
    simp only [Finset.mem_inter, Finset.mem_sdiff, Finset.mem_insert, Finset.mem_erase, not_or]
    exact ⟨fun h => ⟨h.1.2.1, ⟨h.1.1, h.1.2.2⟩, h.2⟩, fun h => ⟨⟨h.2.1.1, h.1, h.2.1.2⟩, h.2.2⟩⟩
  rw [herase]
  by_cases hS : x ∈ S
  · have hmem : x ∈ (R \ A) ∩ S := Finset.mem_inter.2 ⟨Finset.mem_sdiff.2 ⟨hx, hA⟩, hS⟩
    rw [if_pos hS, Finset.card_erase_add_one hmem]
  · rw [Finset.erase_eq_of_notMem fun h => hS (Finset.mem_inter.1 h).2, if_neg hS, Nat.add_zero]

theorem gain_eq_zero_of_mem (hA : x ∈ A) : gain O N p q A x = 0 := by simp [gain, hA]

/-- Something of both sets is left in the pool, and both miss something. -/
theorem exists_gain_two (hO : (O ∩ A).card < p) (hN : (N ∩ A).card < q) (hd : 0 < ((R \ A) ∩ (O ∩ N)).card) :
    ∃ y ∈ R, gain O N p q A y = 2 := by
  obtain ⟨y, hy⟩ := Finset.card_pos.1 hd
  simp only [Finset.mem_inter, Finset.mem_sdiff] at hy
  exact ⟨y, hy.1.1, by simp [gain, hy, hO, hN]⟩

/-- **One step.** Taking an element of the greatest gain leaves one less to take. -/
theorem need_insert (hx : x ∈ R) (hpos : 0 < gain O N p q A x)
    (hmax : ∀ y ∈ R, gain O N p q A y ≤ gain O N p q A x) :
    need O N p q (insert x A) R + 1 = need O N p q A R := by
  have hA : x ∉ A := fun hA => by
    rw [gain_eq_zero_of_mem hA] at hpos
    omega
  have hO := card_inter_insert O A x
  have hN := card_inter_insert N A x
  have hd := card_sdiff_insert_inter hx hA (O ∩ N)
  -- an element of one set only is taken when none of both is left, or one set misses nothing
  have htwo : gain O N p q A x < 2 →
      p ≤ (O ∩ A).card ∨ q ≤ (N ∩ A).card ∨ ((R \ A) ∩ (O ∩ N)).card = 0 := by
    intro hlt
    by_contra hne
    simp only [not_or, not_le] at hne
    obtain ⟨y, hy, hgain⟩ := exists_gain_two hne.1 hne.2.1 (Nat.pos_of_ne_zero hne.2.2)
    have := hmax y hy
    omega
  simp only [Finset.mem_inter] at hd
  unfold need
  rw [hO, hN]
  simp only [gain, hA, not_false_eq_true, true_and, and_true] at hpos htwo ⊢
  by_cases hxO : x ∈ O <;> by_cases hxN : x ∈ N <;>
    simp only [hxO, hxN, true_and, false_and, if_true, if_false, and_self, and_true, and_false] at hpos htwo hd ⊢
  · split_ifs at hpos htwo <;> omega
  · split_ifs at hpos htwo <;> omega
  · split_ifs at hpos htwo <;> omega
  · omega

/-- As long as the quotas can be filled and are not, something in the pool helps. -/
theorem exists_gain (hR : Met O N p q (A ∪ R)) (hnot : ¬Met O N p q A) : ∃ y ∈ R, 0 < gain O N p q A y := by
  have hfind : ∀ {S : Finset ν} {r : Nat}, (S ∩ A).card < r → r ≤ (S ∩ (A ∪ R)).card → ∃ y ∈ R, y ∈ S ∧ y ∉ A := by
    intro S r hlt hle
    have hpos : 0 < ((R \ A) ∩ S).card := by
      have := card_inter_union_le S A R
      omega
    obtain ⟨y, hy⟩ := Finset.card_pos.1 hpos
    simp only [Finset.mem_inter, Finset.mem_sdiff] at hy
    exact ⟨y, hy.1.1, hy.2, hy.1.2⟩
  by_cases hO : (O ∩ A).card < p
  · obtain ⟨y, hy, hyO, hyA⟩ := hfind hO hR.1
    refine ⟨y, hy, ?_⟩
    rw [gain, if_pos ⟨hyO, hyA, hO⟩]
    exact Nat.lt_of_lt_of_le Nat.one_pos (Nat.le_add_right _ _)
  · have hN : (N ∩ A).card < q := by
      by_contra hN
      exact hnot ⟨Nat.le_of_not_lt hO, Nat.le_of_not_lt hN⟩
    obtain ⟨y, hy, hyN, hyA⟩ := hfind hN hR.2
    exact ⟨y, hy, by simp [gain, hyN, hyA, hN]⟩

/-- An element of the greatest gain. -/
theorem exists_max_gain (hR : Met O N p q (A ∪ R)) (hnot : ¬Met O N p q A) :
    ∃ x ∈ R, 0 < gain O N p q A x ∧ ∀ y ∈ R, gain O N p q A y ≤ gain O N p q A x := by
  obtain ⟨y, hy, hpos⟩ := exists_gain hR hnot
  obtain ⟨x, hx, hmax⟩ := R.exists_max_image (gain O N p q A) ⟨y, hy⟩
  exact ⟨x, hx, Nat.lt_of_lt_of_le hpos (hmax y hy), hmax⟩

/-- **And so many will do.** -/
theorem exists_card_eq_need (hR : Met O N p q (A ∪ R)) :
    ∃ T ⊆ R, Met O N p q (A ∪ T) ∧ T.card = need O N p q A R := by
  -- by induction on what is missing, one element of the greatest gain at a time
  induction hn : need O N p q A R generalizing A with
  | zero =>
    by_cases hmet : Met O N p q A
    · exact ⟨∅, Finset.empty_subset _, by simpa using hmet, by simp⟩
    · obtain ⟨x, hx, hpos, hmax⟩ := exists_max_gain hR hmet
      have := need_insert hx hpos hmax
      omega
  | succ k ih =>
    have hmet : ¬Met O N p q A := fun hmet => by
      rw [need_eq_zero hmet] at hn
      omega
    obtain ⟨x, hx, hpos, hmax⟩ := exists_max_gain hR hmet
    have hstep := need_insert hx hpos hmax
    have hR' : Met O N p q (insert x A ∪ R) := by
      rw [Finset.insert_union, Finset.insert_eq_self.2 (Finset.mem_union_right A hx)]
      exact hR
    obtain ⟨T, hT, hmet', hcard⟩ := ih hR' (by omega)
    have hxT : x ∉ T := by
      intro hxT
      -- without `x` the rest would do, and be too few
      have herase : Met O N p q (insert x A ∪ T.erase x) := by
        have heq : insert x A ∪ T.erase x = insert x A ∪ T := by
          ext y
          simp only [Finset.mem_union, Finset.mem_insert, Finset.mem_erase]
          by_cases hyx : y = x <;> simp [hyx]
        rw [heq]
        exact hmet'
      have hle := need_le_card ((Finset.erase_subset x T).trans hT) herase
      have hlt := Finset.card_erase_lt_of_mem hxT
      omega
    refine ⟨insert x T, Finset.insert_subset hx hT, ?_, ?_⟩
    · rw [Finset.union_insert, ← Finset.insert_union]
      exact hmet'
    · rw [Finset.card_insert_of_notMem hxT, hcard]

end Quotas
