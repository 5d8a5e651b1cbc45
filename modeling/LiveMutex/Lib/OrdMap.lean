/-
Ordered maps with extensional equality: `Std.ExtTreeMap` at a type's own
comparison, with its lookup lemmas stated by equality of keys rather than by
`compare`, and the sum of a weight over the values of a map.

Two maps are equal as soon as they answer every lookup alike, so a map built
by two different histories of insertions and removals compares with `=`.
-/
import Std.Data.ExtTreeMap
import Mathlib.Data.List.Nodup
import Mathlib.Algebra.BigOperators.Group.List.Basic
import Mathlib.Algebra.Ring.Nat

set_option linter.unusedSectionVars false

/-- A finite map from `α`, iterated in the order of its keys. -/
abbrev OrdMap (α : Type) [Ord α] (β : Type) : Type := Std.ExtTreeMap α β

namespace OrdMap

variable {α β : Type} [Ord α] [Std.TransOrd α] [Std.LawfulEqOrd α] [DecidableEq α]

theorem get_insert (m : OrdMap α β) (k a : α) (v : β) :
    (m.insert k v)[a]? = if k = a then some v else m[a]? := by
  simp [Std.ExtTreeMap.getElem?_insert]

theorem get_erase (m : OrdMap α β) (k a : α) :
    (m.erase k)[a]? = if k = a then none else m[a]? := by
  simp [Std.ExtTreeMap.getElem?_erase]

@[simp] theorem get_insert_ne (m : OrdMap α β) {k a : α} (v : β) (h : k ≠ a) :
    (m.insert k v)[a]? = m[a]? := by
  rw [get_insert, if_neg h]

@[simp] theorem get_erase_ne (m : OrdMap α β) {k a : α} (h : k ≠ a) : (m.erase k)[a]? = m[a]? := by
  rw [get_erase, if_neg h]

theorem eq_of_get {m₁ m₂ : OrdMap α β} (h : ∀ k : α, m₁[k]? = m₂[k]?) : m₁ = m₂ :=
  Std.ExtTreeMap.ext_getElem? h

/-- Putting back the value a key already has changes nothing. -/
theorem insert_get {m : OrdMap α β} {k : α} {v : β} (h : m[k]? = some v) : m.insert k v = m := by
  apply eq_of_get
  intro a
  rw [get_insert]
  split
  · rename_i he; rw [← he, h]
  · rfl

theorem insert_insert (m : OrdMap α β) (k : α) (v w : β) : (m.insert k v).insert k w = m.insert k w := by
  apply eq_of_get
  intro a
  simp only [get_insert]
  split <;> rfl

theorem mem_iff_get {m : OrdMap α β} {k : α} : k ∈ m ↔ ∃ v, m[k]? = some v := by
  rw [Std.ExtTreeMap.mem_iff_isSome_getElem?, Option.isSome_iff_exists]

theorem isEmpty_iff_get {m : OrdMap α β} : m.isEmpty = true ↔ ∀ k : α, m[k]? = none := by
  rw [Std.ExtTreeMap.isEmpty_iff]
  constructor
  · rintro rfl k; simp
  · intro h; exact eq_of_get (by simpa using h)

theorem size_eq_zero_iff {m : OrdMap α β} : m.size = 0 ↔ m.isEmpty = true := by
  rw [Std.ExtTreeMap.isEmpty_iff, Std.ExtTreeMap.eq_empty_iff_size_eq_zero]

/-- A map with one key. -/
theorem size_eq_one {m : OrdMap α β} {k : α} {v : β} (h : m[k]? = some v)
    (hall : ∀ (a : α) (w : β), m[a]? = some w → a = k) : m.size = 1 := by
  have he : m = (∅ : OrdMap α β).insert k v := by
    refine eq_of_get fun a => ?_
    by_cases ha : k = a
    · subst ha
      rw [h, get_insert, if_pos rfl]
    · rw [get_insert_ne _ _ ha, Std.ExtTreeMap.getElem?_empty]
      cases hw : m[a]? with
      | none => rfl
      | some w => exact absurd (hall a w hw).symm ha
  rw [he, Std.ExtTreeMap.size_insert]
  simp

/-- A map has as many entries as a list that names its keys once each. -/
theorem size_eq_length {m : OrdMap α β} {ks : List α} (hnd : ks.Nodup) (h : ∀ k, k ∈ m ↔ k ∈ ks) :
    m.size = ks.length := by
  have hperm : m.keys.Perm ks := by
    refine (List.perm_ext_iff_of_nodup m.nodup_keys hnd).2 fun k => ?_
    rw [Std.ExtTreeMap.mem_keys, h]
  rw [← m.length_keys, hperm.length_eq]

theorem isEmpty_erase {m : OrdMap α β} (h : m.isEmpty = true) (k : α) : (m.erase k).isEmpty = true := by
  rw [isEmpty_iff_get] at h ⊢
  intro a
  rw [get_erase, h a]
  simp

theorem get_eq_none_of_isEmpty {m : OrdMap α β} (h : m.isEmpty = true) (k : α) : m[k]? = none :=
  isEmpty_iff_get.1 h k

theorem isEmpty_map {γ : Type} (m : OrdMap α β) (f : α → β → γ) : (m.map f).isEmpty = m.isEmpty := by
  rw [Bool.eq_iff_iff, ← size_eq_zero_iff, ← size_eq_zero_iff, Std.ExtTreeMap.size_map]

theorem get_modify (m : OrdMap α β) (k a : α) (f : β → β) :
    (m.modify k f)[a]? = if k = a then m[a]?.map f else m[a]? := by
  rw [Std.ExtTreeMap.getElem?_modify]
  by_cases h : k = a
  · subst h
    simp
  · rw [if_neg h, if_neg fun he => h (Std.LawfulEqOrd.eq_of_compare he)]

theorem isEmpty_modify (m : OrdMap α β) (k : α) (f : β → β) : (m.modify k f).isEmpty = m.isEmpty := by
  rw [Bool.eq_iff_iff, ← size_eq_zero_iff, ← size_eq_zero_iff, Std.ExtTreeMap.size_modify]

/-- A change that a function does not see is not seen in the map of its values. -/
theorem map_modify {γ : Type} {f : β → β} {g : β → γ} (h : ∀ v, g (f v) = g v) (m : OrdMap α β) (k : α) :
    (m.modify k f).map (fun _ v => g v) = m.map fun _ v => g v := by
  refine eq_of_get fun a => ?_
  rw [Std.ExtTreeMap.getElem?_map, Std.ExtTreeMap.getElem?_map, get_modify]
  split
  · rw [Option.map_map]
    exact congrArg (Option.map · _) (funext h)
  · rfl

/-! ## Building a map from a list of entries -/

theorem get_foldl_insert_of_notMem {ε : Type} (key : ε → α) (val : ε → β) {a : α} :
    ∀ (es : List ε) (m : OrdMap α β), a ∉ es.map key →
      (es.foldl (fun m e => m.insert (key e) (val e)) m)[a]? = m[a]?
  | [], _, _ => rfl
  | e :: es, m, h => by
    simp only [List.map_cons, List.mem_cons, not_or] at h
    rw [List.foldl_cons, get_foldl_insert_of_notMem key val es _ h.2, get_insert_ne _ _ (Ne.symm h.1)]

theorem get_foldl_insert_of_mem {ε : Type} (key : ε → α) (val : ε → β) {e : ε} :
    ∀ (es : List ε) (m : OrdMap α β), (es.map key).Nodup → e ∈ es →
      (es.foldl (fun m e => m.insert (key e) (val e)) m)[key e]? = some (val e)
  | [], _, _, h => by cases h
  | e' :: es, m, hnd, h => by
    simp only [List.map_cons, List.nodup_cons] at hnd
    rw [List.foldl_cons]
    rcases List.mem_cons.1 h with rfl | h
    · rw [get_foldl_insert_of_notMem key val es _ hnd.1, get_insert, if_pos rfl]
    · exact get_foldl_insert_of_mem key val es _ hnd.2 h

theorem get_foldl_erase {a : α} : ∀ (ks : List α) (m : OrdMap α β),
    (ks.foldl (fun m k => m.erase k) m)[a]? = if a ∈ ks then none else m[a]?
  | [], _ => by simp
  | k :: ks, m => by
    rw [List.foldl_cons, get_foldl_erase ks, get_erase]
    by_cases h : k = a
    · subst h; simp
    · simp [h, Ne.symm h]

/-! ## Sums over the values -/

/-- The sum of `f` over the values of the map. -/
def sumBy (f : β → Nat) (m : OrdMap α β) : Nat := (m.toList.map fun p => f p.2).sum

theorem mem_toList {m : OrdMap α β} {p : α × β} : p ∈ m.toList ↔ m[p.1]? = some p.2 :=
  Std.ExtTreeMap.mem_toList_iff_getElem?_eq_some

theorem nodup_toList (m : OrdMap α β) : m.toList.Nodup := by
  have h := m.nodup_keys
  rw [← Std.ExtTreeMap.map_fst_toList_eq_keys] at h
  exact h.of_map _

theorem nodup_map_fst_toList (m : OrdMap α β) : (m.toList.map Prod.fst).Nodup := by
  rw [Std.ExtTreeMap.map_fst_toList_eq_keys]
  exact m.nodup_keys

/-- Inserting the entries of a map one after the other, each value changed by
`f`, gives the map with its values changed. -/
theorem foldl_insert_toList {γ : Type} (m : OrdMap α β) (f : α → β → γ) :
    m.toList.foldl (fun m' e => m'.insert e.1 (f e.1 e.2)) (∅ : OrdMap α γ) = m.map f := by
  apply eq_of_get
  intro a
  rw [Std.ExtTreeMap.getElem?_map]
  cases h : m[a]? with
  | none =>
    rw [get_foldl_insert_of_notMem Prod.fst (fun e => f e.1 e.2)]
    · simp
    · rw [Std.ExtTreeMap.map_fst_toList_eq_keys, Std.ExtTreeMap.mem_keys, mem_iff_get, h]
      simp
  | some v =>
    exact get_foldl_insert_of_mem (e := (a, v)) Prod.fst (fun e => f e.1 e.2) _ _
      (nodup_map_fst_toList m) (mem_toList.2 h)

/-- The entries after an insertion: the new one, and every old one of
another key. -/
theorem toList_insert_perm (m : OrdMap α β) (k : α) (v : β) :
    (m.insert k v).toList.Perm ((k, v) :: m.toList.filter fun p => p.1 ≠ k) := by
  refine (List.perm_ext_iff_of_nodup (nodup_toList _) ?_).2 ?_
  · exact List.nodup_cons.2 ⟨by simp, (nodup_toList m).filter _⟩
  · rintro ⟨a, w⟩
    simp only [mem_toList, get_insert, List.mem_cons, Prod.mk.injEq, List.mem_filter, decide_eq_true_eq]
    by_cases h : k = a
    · subst h; simp [eq_comm]
    · simp [h, Ne.symm h]

theorem toList_perm_of_get {m : OrdMap α β} {k : α} {v : β} (h : m[k]? = some v) :
    m.toList.Perm ((k, v) :: m.toList.filter fun p => p.1 ≠ k) := by
  have := toList_insert_perm m k v
  rwa [insert_get h] at this

theorem filter_eq_of_get_none {m : OrdMap α β} {k : α} (h : m[k]? = none) :
    (m.toList.filter fun p => p.1 ≠ k) = m.toList := by
  rw [List.filter_eq_self]
  rintro ⟨a, w⟩ hm
  rw [mem_toList] at hm
  simp only [decide_eq_true_eq]
  rintro rfl
  rw [h] at hm
  cases hm

/-- A sum after an insertion, against the value the key had. -/
theorem sumBy_insert (f : β → Nat) (m : OrdMap α β) (k : α) (v : β) :
    sumBy f (m.insert k v) + (m[k]?.map f).getD 0 = sumBy f m + f v := by
  have hi := ((toList_insert_perm m k v).map fun p => f p.2).sum_eq
  simp only [List.map_cons, List.sum_cons] at hi
  unfold sumBy
  rw [hi]
  cases hk : m[k]? with
  | none => rw [filter_eq_of_get_none hk]; simp; omega
  | some w =>
    have hm := ((toList_perm_of_get hk).map fun p => f p.2).sum_eq
    simp only [List.map_cons, List.sum_cons] at hm
    rw [hm]
    simp only [Option.map_some, Option.getD_some]
    omega

end OrdMap
