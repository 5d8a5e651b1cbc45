/-
The replicated log of a node, as its log store keeps it: the entries that are
still retained, and the snapshot that stands for everything up to its index.

Compaction may leave entries below the snapshot index in place ("trailing"
entries), so an index can be known twice, once, or not at all; `termAtIndex`
is the store's one answer. The caches of the source (`last_index`,
`term_by_index`, the first and last index of every term) are functions of the
retained entries here, because every write of the source rebuilds or extends
them together with the entries.
-/
import Mathlib.Data.List.Basic
import Mathlib.Data.Option.Basic

namespace LiveMutex.Raft

variable {α : Type}

/-- One entry of the log. The time it was created is metadata only (the store
accepts an entry that differs in nothing else) and is left out. -/
structure RaftLogEntry (α : Type) where
  index : Nat
  term : Nat
  command : α
  deriving Repr, DecidableEq

structure RaftSnapshotMetadata where
  lastIncludedIndex : Nat
  lastIncludedTerm : Nat
  deriving Repr, DecidableEq

/-- What the log store holds of the log itself. -/
structure RaftLogState (α : Type) where
  latestSnapshot : Option RaftSnapshotMetadata := none
  retainedLogEntries : List (RaftLogEntry α) := []
  deriving Repr, DecidableEq

/-! ## Retained entries -/

/-- The number of entries before `index`; `partition_point` in the source. -/
def retainedEntryLowerBound (entries : List (RaftLogEntry α)) (index : Nat) : Nat :=
  (entries.takeWhile (·.index < index)).length

/-- The number of entries up to and including `index`. -/
def retainedEntryUpperBound (entries : List (RaftLogEntry α)) (index : Nat) : Nat :=
  (entries.takeWhile (·.index ≤ index)).length

def retainedEntryAt (entries : List (RaftLogEntry α)) (index : Nat) : Option (RaftLogEntry α) :=
  entries[retainedEntryLowerBound entries index]?.filter (·.index == index)

namespace RaftLogState

def snapshotIndex (s : RaftLogState α) : Nat :=
  (s.latestSnapshot.map (·.lastIncludedIndex)).getD 0

def lastIndex (s : RaftLogState α) : Nat :=
  ((s.retainedLogEntries.getLast?.map (·.index)).or (s.latestSnapshot.map (·.lastIncludedIndex))).getD 0

def lastTerm (s : RaftLogState α) : Nat :=
  ((s.retainedLogEntries.getLast?.map (·.term)).or (s.latestSnapshot.map (·.lastIncludedTerm))).getD 0

def termByIndex (s : RaftLogState α) (index : Nat) : Option Nat :=
  (retainedEntryAt s.retainedLogEntries index).map (·.term)

/-- The snapshot's term, at its own index. -/
def snapshotTermAt (s : RaftLogState α) (index : Nat) : Option Nat :=
  (s.latestSnapshot.filter (·.lastIncludedIndex == index)).map (·.lastIncludedTerm)

/-- The snapshot's index, if it was taken in this term. -/
def snapshotIndexInTerm (s : RaftLogState α) (term : Nat) : Option Nat :=
  (s.latestSnapshot.filter (·.lastIncludedTerm == term)).map (·.lastIncludedIndex)

def termAtIndex (s : RaftLogState α) (index : Nat) : Option Nat :=
  if index = 0 then some 0 else (s.termByIndex index).or (s.snapshotTermAt index)

def firstIndexForTerm (s : RaftLogState α) (term : Nat) : Option Nat :=
  ((s.retainedLogEntries.find? (·.term == term)).map (·.index)).or (s.snapshotIndexInTerm term)

def lastIndexForTerm (s : RaftLogState α) (term : Nat) : Option Nat :=
  ((s.retainedLogEntries.reverse.find? (·.term == term)).map (·.index)).or (s.snapshotIndexInTerm term)

/-! ## Logs the store accepts

`validate_log_entries_for_snapshot` is run on every log that is read from disk
and on every log that is installed; the appends keep what it demands. -/

/-- The entries' indexes go up by one from `i`. -/
def Contiguous : Nat → List (RaftLogEntry α) → Prop
  | _, [] => True
  | i, e :: es => e.index = i ∧ Contiguous (i + 1) es

instance : ∀ (i : Nat) (es : List (RaftLogEntry α)), Decidable (Contiguous i es)
  | _, [] => .isTrue trivial
  | i, e :: es =>
    have : Decidable (Contiguous (i + 1) es) := instDecidableContiguous (i + 1) es
    inferInstanceAs (Decidable (e.index = i ∧ Contiguous (i + 1) es))

/-- The boundary between the snapshot and the retained entries
(`validate_snapshot_log_boundary`): without a snapshot the log starts at index
1, with one it reaches back at least to the entry behind the snapshot and does
not end before it, and an entry at the snapshot's index has its term. -/
def Boundary (entries : List (RaftLogEntry α)) : Option RaftSnapshotMetadata → Prop
  | none => ∀ e ∈ entries.head?, e.index = 1
  | some s => (∀ e ∈ entries.head?, e.index ≤ s.lastIncludedIndex + 1) ∧
      (∀ e ∈ entries.getLast?, s.lastIncludedIndex ≤ e.index) ∧
      ∀ e ∈ entries, e.index = s.lastIncludedIndex → e.term = s.lastIncludedTerm

/-- What every log of the store satisfies. -/
structure Valid (s : RaftLogState α) : Prop where
  /-- Indexes and terms are at least 1, and an index follows on the one before. -/
  positive : ∀ e ∈ s.retainedLogEntries, 1 ≤ e.index ∧ 1 ≤ e.term
  contiguous : ∀ e ∈ s.retainedLogEntries.head?, Contiguous e.index s.retainedLogEntries
  /-- Terms never go down. -/
  ordered : s.retainedLogEntries.Pairwise fun a b => a.term ≤ b.term
  boundary : Boundary s.retainedLogEntries s.latestSnapshot
  /-- A snapshot stands for at least one entry. -/
  snapshot : ∀ m ∈ s.latestSnapshot, 1 ≤ m.lastIncludedIndex ∧ 1 ≤ m.lastIncludedTerm

variable {s : RaftLogState α} {e : RaftLogEntry α} {es : List (RaftLogEntry α)} {f i j n t : Nat}

/-! ### Where an entry stands -/

theorem Contiguous.get (h : Contiguous f es) : ∀ {k : Nat}, es[k]? = some e → e.index = f + k := by
  induction es generalizing f with
  | nil => intro k hk; simp at hk
  | cons a es ih =>
    intro k hk
    cases k with
    | zero => simp only [List.getElem?_cons_zero, Option.some.injEq] at hk; exact hk ▸ h.1
    | succ k =>
      simp only [List.getElem?_cons_succ] at hk
      have := ih h.2 hk
      omega

theorem Contiguous.lowerBound (h : Contiguous f es) (hi : f ≤ i) :
    retainedEntryLowerBound es i = min (i - f) es.length := by
  induction es generalizing f with
  | nil => simp [retainedEntryLowerBound]
  | cons a es ih =>
    obtain ⟨ha, hes⟩ := h
    by_cases hfi : f = i
    · simp [retainedEntryLowerBound, ha, hfi]
    · have hlt : a.index < i := by omega
      have := ih hes (by omega)
      simp only [retainedEntryLowerBound] at this ⊢
      simp only [List.takeWhile_cons, hlt, decide_true, if_true, List.length_cons, this]
      omega

/-- The entry at an index is the one that has it. -/
theorem Contiguous.retainedEntryAt_eq_some (h : Contiguous f es) :
    retainedEntryAt es i = some e ↔ e ∈ es ∧ e.index = i := by
  simp only [retainedEntryAt, Option.filter_eq_some_iff, beq_iff_eq]
  constructor
  · intro ⟨hget, hidx⟩
    exact ⟨List.mem_of_getElem? hget, hidx⟩
  · intro ⟨hmem, hidx⟩
    obtain ⟨k, hk⟩ := List.mem_iff_getElem?.1 hmem
    have hpos := h.get hk
    have hlen : k < es.length := (List.getElem?_eq_some_iff.1 hk).1
    rw [h.lowerBound (by omega), show min (i - f) es.length = k by omega]
    exact ⟨hk, hidx⟩

/-- Between two retained entries every index is retained. -/
theorem Contiguous.between (h : Contiguous f es) {a b : RaftLogEntry α} (ha : a ∈ es) (hb : b ∈ es)
    (hai : a.index ≤ i) (hib : i ≤ b.index) : ∃ e ∈ es, e.index = i := by
  obtain ⟨k, hk⟩ := List.mem_iff_getElem?.1 ha
  obtain ⟨l, hl⟩ := List.mem_iff_getElem?.1 hb
  have hka := h.get hk
  have hlb := h.get hl
  have hlen : l < es.length := (List.getElem?_eq_some_iff.1 hl).1
  have hget : es[i - f]? = some es[i - f] := List.getElem?_eq_getElem (by omega)
  exact ⟨es[i - f], List.getElem_mem _, by have := h.get hget; omega⟩

/-- Later entries have later positions, so the terms are ordered by index. -/
theorem Contiguous.term_le (h : Contiguous f es) (ho : es.Pairwise fun a b => a.term ≤ b.term)
    {a b : RaftLogEntry α} (ha : a ∈ es) (hb : b ∈ es) (hab : a.index ≤ b.index) : a.term ≤ b.term := by
  obtain ⟨k, hk⟩ := List.mem_iff_getElem?.1 ha
  obtain ⟨l, hl⟩ := List.mem_iff_getElem?.1 hb
  have hka := h.get hk
  have hlb := h.get hl
  obtain ⟨hk', rfl⟩ := List.getElem?_eq_some_iff.1 hk
  obtain ⟨hl', rfl⟩ := List.getElem?_eq_some_iff.1 hl
  by_cases heq : k = l
  · subst heq; exact Nat.le_refl _
  · exact List.pairwise_iff_getElem.1 ho k l hk' hl' (by omega)

/-! ### Valid logs -/

namespace Valid

theorem contiguous_from (h : s.Valid) : ∃ f, Contiguous f s.retainedLogEntries := by
  cases hs : s.retainedLogEntries with
  | nil => exact ⟨0, trivial⟩
  | cons e es => exact ⟨e.index, hs ▸ h.contiguous e (by simp [hs])⟩

theorem termByIndex_eq_some (h : s.Valid) :
    s.termByIndex i = some t ↔ ∃ e ∈ s.retainedLogEntries, e.index = i ∧ e.term = t := by
  obtain ⟨f, hf⟩ := h.contiguous_from
  simp only [termByIndex, Option.map_eq_some_iff, hf.retainedEntryAt_eq_some, and_assoc]

theorem term_le (h : s.Valid) {a b : RaftLogEntry α} (ha : a ∈ s.retainedLogEntries)
    (hb : b ∈ s.retainedLogEntries) (hab : a.index ≤ b.index) : a.term ≤ b.term := by
  obtain ⟨f, hf⟩ := h.contiguous_from
  exact hf.term_le h.ordered ha hb hab

theorem between (h : s.Valid) {a b : RaftLogEntry α} (ha : a ∈ s.retainedLogEntries)
    (hb : b ∈ s.retainedLogEntries) (hai : a.index ≤ i) (hib : i ≤ b.index) :
    ∃ e ∈ s.retainedLogEntries, e.index = i := by
  obtain ⟨f, hf⟩ := h.contiguous_from
  exact hf.between ha hb hai hib

theorem snapshotTermAt_eq_some : s.snapshotTermAt i = some t ↔
    ∃ m ∈ s.latestSnapshot, m.lastIncludedIndex = i ∧ m.lastIncludedTerm = t := by
  simp [snapshotTermAt, Option.filter_eq_some_iff, and_assoc]

/-- What the store knows about an index: a retained entry, or the snapshot's boundary. -/
theorem termAtIndex_eq_some (h : s.Valid) (hi : i ≠ 0) : s.termAtIndex i = some t ↔
    (∃ e ∈ s.retainedLogEntries, e.index = i ∧ e.term = t) ∨
      ∃ m ∈ s.latestSnapshot, m.lastIncludedIndex = i ∧ m.lastIncludedTerm = t := by
  simp only [termAtIndex, if_neg hi, Option.or_eq_some_iff, h.termByIndex_eq_some, snapshotTermAt_eq_some]
  constructor
  · intro hor
    exact hor.imp_right And.right
  · intro hor
    rcases hor with hret | ⟨m, hm, hmi, hmt⟩
    · exact .inl hret
    · by_cases hnone : s.termByIndex i = none
      · exact .inr ⟨hnone, m, hm, hmi, hmt⟩
      · -- an entry at the snapshot's index has the snapshot's term
        obtain ⟨t', ht'⟩ := Option.ne_none_iff_exists'.1 hnone
        obtain ⟨e, he, hei, het⟩ := h.termByIndex_eq_some.1 ht'
        have hb := h.boundary
        rw [Option.mem_def.1 hm] at hb
        exact .inl ⟨e, he, hei, (hb.2.2 e he (hei.trans hmi.symm)).trans hmt⟩

theorem lastIndex_of_getLast (h : s.retainedLogEntries.getLast? = some e) : s.lastIndex = e.index := by
  simp [lastIndex, h]

theorem lastIndex_of_nil (h : s.retainedLogEntries = []) : s.lastIndex = s.snapshotIndex := by
  simp [lastIndex, snapshotIndex, h]

theorem snapshotIndex_le_lastIndex (h : s.Valid) : s.snapshotIndex ≤ s.lastIndex := by
  cases hl : s.retainedLogEntries.getLast? with
  | none => exact Nat.le_of_eq (lastIndex_of_nil (List.getLast?_eq_none_iff.1 hl)).symm
  | some e =>
    rw [lastIndex_of_getLast hl]
    have hb := h.boundary
    cases hm : s.latestSnapshot with
    | none => simp [snapshotIndex, hm]
    | some m =>
      rw [hm] at hb
      have := hb.2.1 e hl
      simpa [snapshotIndex, hm] using this

/-- Behind the snapshot and up to the end, every index is retained. -/
theorem retained (h : s.Valid) (hlo : s.snapshotIndex < i) (hhi : i ≤ s.lastIndex) :
    ∃ e ∈ s.retainedLogEntries, e.index = i := by
  cases hl : s.retainedLogEntries.getLast? with
  | none =>
    rw [lastIndex_of_nil (List.getLast?_eq_none_iff.1 hl)] at hhi
    omega
  | some b =>
    rw [lastIndex_of_getLast hl] at hhi
    have hne : s.retainedLogEntries ≠ [] := by intro hnil; simp [hnil] at hl
    obtain ⟨a, ha⟩ : ∃ a, s.retainedLogEntries.head? = some a := ⟨_, List.head?_eq_some_head hne⟩
    have hfirst : a.index ≤ i := by
      have hb := h.boundary
      cases hm : s.latestSnapshot with
      | none =>
        rw [hm] at hb
        simp only [snapshotIndex, hm] at hlo
        have : a.index = 1 := hb a ha
        simp at hlo
        omega
      | some m =>
        rw [hm] at hb
        simp only [snapshotIndex, hm, Option.map_some, Option.getD_some] at hlo
        have : a.index ≤ m.lastIncludedIndex + 1 := hb.1 a ha
        omega
    exact h.between (List.mem_of_head? ha) (List.mem_of_getLast? hl) hfirst hhi

theorem le_lastIndex (h : s.Valid) (he : e ∈ s.retainedLogEntries) : e.index ≤ s.lastIndex := by
  obtain ⟨f, hf⟩ := h.contiguous_from
  obtain ⟨k, hk⟩ := List.mem_iff_getElem?.1 he
  have hlen : k < s.retainedLogEntries.length := (List.getElem?_eq_some_iff.1 hk).1
  have hne : s.retainedLogEntries ≠ [] := List.ne_nil_of_mem he
  have hlast : s.retainedLogEntries.getLast? = s.retainedLogEntries[s.retainedLogEntries.length - 1]? :=
    List.getLast?_eq_getElem?
  have hget : s.retainedLogEntries[s.retainedLogEntries.length - 1]? = some _ :=
    List.getElem?_eq_getElem (by omega)
  rw [lastIndex_of_getLast (hlast.trans hget), hf.get hk, hf.get hget]
  omega

theorem termAtIndex_lastIndex (h : s.Valid) : s.termAtIndex s.lastIndex = some s.lastTerm := by
  cases hl : s.retainedLogEntries.getLast? with
  | some e =>
    have hmem : e ∈ s.retainedLogEntries := List.mem_of_getLast? hl
    have hpos := (h.positive e hmem).1
    rw [lastIndex_of_getLast hl, h.termAtIndex_eq_some (by omega)]
    exact .inl ⟨e, hmem, rfl, by simp [lastTerm, hl]⟩
  | none =>
    rw [lastIndex_of_nil (List.getLast?_eq_none_iff.1 hl)]
    cases hm : s.latestSnapshot with
    | none => simp [snapshotIndex, lastTerm, hl, hm, termAtIndex]
    | some m =>
      have hpos := (h.snapshot m hm).1
      have hidx : s.snapshotIndex = m.lastIncludedIndex := by simp [snapshotIndex, hm]
      rw [hidx, h.termAtIndex_eq_some (by omega)]
      exact .inr ⟨m, hm, rfl, by simp [lastTerm, hl, hm]⟩

/-- From the snapshot's index to the end, every term is known. -/
theorem termAtIndex_known (h : s.Valid) (hlo : s.snapshotIndex ≤ i) (hhi : i ≤ s.lastIndex) :
    ∃ t, s.termAtIndex i = some t := by
  by_cases h0 : i = 0
  · exact ⟨0, by simp [termAtIndex, h0]⟩
  · by_cases heq : s.snapshotIndex = i
    · cases hm : s.latestSnapshot with
      | none => simp [snapshotIndex, hm] at heq; omega
      | some m =>
        have hidx : m.lastIncludedIndex = i := by simpa [snapshotIndex, hm] using heq
        exact ⟨_, (h.termAtIndex_eq_some h0).2 (.inr ⟨m, hm, hidx, rfl⟩)⟩
    · obtain ⟨e, he, hei⟩ := h.retained (by omega) hhi
      exact ⟨_, (h.termAtIndex_eq_some h0).2 (.inl ⟨e, he, hei, rfl⟩)⟩

/-- Only the compacted prefix and what lies behind the end is unknown. -/
theorem lt_snapshotIndex_of_unknown (h : s.Valid) (hi : s.termAtIndex i = none) (hhi : i ≤ s.lastIndex) :
    i < s.snapshotIndex := by
  by_cases hlo : s.snapshotIndex ≤ i
  · obtain ⟨t, ht⟩ := h.termAtIndex_known hlo hhi
    simp [ht] at hi
  · omega

/-- Nothing is known behind the end. -/
theorem le_lastIndex_of_known (h : s.Valid) (ht : s.termAtIndex i = some t) : i ≤ s.lastIndex := by
  by_cases h0 : i = 0
  · omega
  · rcases (h.termAtIndex_eq_some h0).1 ht with ⟨e, he, rfl, _⟩ | ⟨m, hm, rfl, _⟩
    · exact h.le_lastIndex he
    · have hle := h.snapshotIndex_le_lastIndex
      simp only [snapshotIndex, Option.mem_def.1 hm] at hle
      simpa using hle

/-- From a known index on, the log is known to its end. -/
theorem termAtIndex_known_from (h : s.Valid) (hi : i ≠ 0) (ht : s.termAtIndex i = some t) (hij : i ≤ j)
    (hj : j ≤ s.lastIndex) : ∃ t, s.termAtIndex j = some t := by
  by_cases hlo : s.snapshotIndex ≤ j
  · exact h.termAtIndex_known hlo hj
  · rcases (h.termAtIndex_eq_some hi).1 ht with ⟨a, ha, rfl, _⟩ | ⟨m, hm, rfl, _⟩
    · obtain ⟨b, hb⟩ : ∃ b, s.retainedLogEntries.getLast? = some b :=
        ⟨_, List.getLast?_eq_some_getLast (List.ne_nil_of_mem ha)⟩
      rw [lastIndex_of_getLast hb] at hj
      obtain ⟨e, he, rfl⟩ := h.between ha (List.mem_of_getLast? hb) hij hj
      exact ⟨_, (h.termAtIndex_eq_some (by omega)).2 (.inl ⟨e, he, rfl, rfl⟩)⟩
    · simp only [snapshotIndex, Option.mem_def.1 hm, Option.map_some, Option.getD_some] at hlo
      omega

/-! ### The ends of a term -/

theorem firstIndexForTerm_of_mem (h : s.Valid) (he : e ∈ s.retainedLogEntries) :
    ∃ a ∈ s.retainedLogEntries, a.term = e.term ∧ a.index ≤ e.index ∧
      s.firstIndexForTerm e.term = some a.index := by
  obtain ⟨f, hf⟩ := h.contiguous_from
  obtain ⟨a, ha⟩ : ∃ a, s.retainedLogEntries.find? (·.term == e.term) = some a :=
    Option.isSome_iff_exists.1 (List.find?_isSome.2 ⟨e, he, by simp⟩)
  have hat : a.term = e.term := by simpa using List.find?_some ha
  refine ⟨a, List.mem_of_find?_eq_some ha, hat, ?_, by simp [firstIndexForTerm, ha]⟩
  -- the entry found first stands before every other one of its term
  obtain ⟨_, k, hk, rfl, hbefore⟩ := List.find?_eq_some_iff_getElem.1 ha
  obtain ⟨l, hl⟩ := List.mem_iff_getElem?.1 he
  obtain ⟨hl', rfl⟩ := List.getElem?_eq_some_iff.1 hl
  have hkl : k ≤ l := by
    by_contra hlt
    have := hbefore l (by omega)
    simp at this
  rw [hf.get (List.getElem?_eq_getElem hk), hf.get hl]
  omega

/-- A term the store knows at some index has a last index. -/
theorem lastIndexForTerm_of_known (h : s.Valid) (hi : i ≠ 0) (ht : s.termAtIndex i = some t) :
    ∃ j, s.lastIndexForTerm t = some j := by
  suffices hsome : (s.lastIndexForTerm t).isSome from Option.isSome_iff_exists.1 hsome
  simp only [lastIndexForTerm, Option.isSome_or, Option.isSome_map, Bool.or_eq_true, List.find?_isSome]
  rcases (h.termAtIndex_eq_some hi).1 ht with ⟨e, he, _, rfl⟩ | ⟨m, hm, _, rfl⟩
  · exact .inl ⟨e, by simpa using he, by simp⟩
  · exact .inr (by simp [snapshotIndexInTerm, Option.mem_def.1 hm])

end Valid

end RaftLogState

end LiveMutex.Raft
