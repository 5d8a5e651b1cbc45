/-
What the checks of the log store accept, read as properties of the lists they
look at. Each check is read once here; the modules above never unfold one.
-/
import LiveMutex.Raft.Gapless
import LiveMutex.Raft.StoreIdentity

namespace LiveMutex.Raft

/-! ## Results -/

theorem bind_eq_ok {ε β γ : Type} {x : Except ε β} {f : β → Except ε γ} {c : γ} :
    x.bind f = .ok c ↔ ∃ b, x = .ok b ∧ f b = .ok c := by
  cases x <;> simp [Except.bind]

/-- A check before the rest. -/
theorem check_bind_eq_ok {ε γ : Type} {x : Except ε Unit} {f : Unit → Except ε γ} {c : γ} :
    x.bind f = .ok c ↔ x = .ok () ∧ f () = .ok c := by
  cases x <;> simp [Except.bind]

theorem map_eq_ok {ε β γ : Type} {x : Except ε β} {f : β → γ} {c : γ} :
    x.map f = .ok c ↔ ∃ b, x = .ok b ∧ f b = c := by
  cases x <;> simp [Except.map]

theorem checkedAdd_eq_some {a b c : Nat} : checkedAdd a b = some c ↔ a + b ≤ u64Max ∧ a + b = c := by
  simp [checkedAdd]

theorem checkedAdd_eq_none {a b : Nat} : checkedAdd a b = none ↔ u64Max < a + b := by
  simp [checkedAdd]

variable {κ π : Type} {codec : StoreCodec κ π} {l r es : List (LogEntry κ)} {e p : LogEntry κ}
  {previous : Option (LogEntry κ)}

/-! ## The entries of a log -/

theorem validateCommandOf_eq_ok {wrap : String → BrokerRaftError} :
    validateCommandOf codec wrap e = .ok () ↔ codec.validateRaftCommand e.command.command = .ok () := by
  unfold validateCommandOf
  split
  · rename_i err h
    simp [h]
  · rename_i h
    simp [h]

/-- An entry may stand behind another. -/
structure CanFollow (p e : LogEntry κ) : Prop where
  room : p.index + 1 ≤ u64Max
  index : e.index = p.index + 1
  term : p.term ≤ e.term

/-- An entry that may stand in a log. -/
structure Admissible (codec : StoreCodec κ π) (e : LogEntry κ) : Prop where
  index : 1 ≤ e.index
  term : 1 ≤ e.term
  command : codec.validateRaftCommand e.command.command = .ok ()

theorem validatePersistedLogEntry_eq_ok :
    validatePersistedLogEntry codec previous e = .ok () ↔ Admissible codec e ∧ ∀ p ∈ previous, CanFollow p e := by
  unfold validatePersistedLogEntry
  by_cases h0 : e.index = 0
  · simp only [if_pos h0, reduceCtorEq, false_iff, not_and]
    intro h
    have := h.index
    omega
  by_cases ht : e.term = 0
  · simp only [if_neg h0, if_pos ht, reduceCtorEq, false_iff, not_and]
    intro h
    have := h.term
    omega
  have hadm : Admissible codec e ↔ codec.validateRaftCommand e.command.command = .ok () :=
    ⟨fun h => h.command, fun h => ⟨by omega, by omega, h⟩⟩
  simp only [if_neg h0, if_neg ht]
  cases previous with
  | none => simp [validateCommandOf_eq_ok, hadm]
  | some p =>
    simp only [Option.mem_some_iff, forall_eq']
    split
    · rename_i hnone
      simp only [reduceCtorEq, false_iff, not_and]
      intro _ h
      have := h.room
      have := checkedAdd_eq_none.1 hnone
      omega
    · rename_i expected hsome
      obtain ⟨hroom, rfl⟩ := checkedAdd_eq_some.1 hsome
      split
      · rename_i hne
        simp only [reduceCtorEq, false_iff, not_and]
        exact fun _ h => hne h.index
      · rename_i heq
        split
        · rename_i hlt
          simp only [reduceCtorEq, false_iff, not_and]
          intro _ h
          have := h.term
          omega
        · rename_i hle
          rw [validateCommandOf_eq_ok, hadm]
          exact ⟨fun h => ⟨h, hroom, by simpa using heq, by omega⟩, fun h => h.1⟩

/-- The entries pass `validate_persisted_log_entries`. -/
def Passes (codec : StoreCodec κ π) (es : List (LogEntry κ)) : Prop :=
  validatePersistedLogEntries codec none es = .ok ()

/-- One run of entries may stand behind another. -/
def Joins (l r : List (LogEntry κ)) : Prop := ∀ p ∈ l.getLast?, ∀ e ∈ r.head?, CanFollow p e

theorem validatePersistedLogEntries_cons :
    validatePersistedLogEntries codec previous (e :: es) = .ok () ↔
      (Admissible codec e ∧ ∀ p ∈ previous, CanFollow p e) ∧ validatePersistedLogEntries codec (some e) es = .ok () := by
  rw [validatePersistedLogEntries, check_bind_eq_ok, validatePersistedLogEntry_eq_ok]

/-- What stands before the entries matters to the first of them only. -/
theorem validatePersistedLogEntries_previous : validatePersistedLogEntries codec previous es = .ok () ↔
    Passes codec es ∧ ∀ p ∈ previous, ∀ e ∈ es.head?, CanFollow p e := by
  cases es with
  | nil => simp [Passes, validatePersistedLogEntries]
  | cons e es =>
    have hhead : (∀ p ∈ previous, ∀ a ∈ (e :: es).head?, CanFollow p a) ↔ ∀ p ∈ previous, CanFollow p e := by simp
    have hnone : ∀ p ∈ (none : Option (LogEntry κ)), CanFollow p e := by simp
    rw [Passes, validatePersistedLogEntries_cons, validatePersistedLogEntries_cons, hhead]
    tauto

theorem passes_nil : Passes codec [] := rfl

theorem passes_cons : Passes codec (e :: es) ↔
    Admissible codec e ∧ (∀ a ∈ es.head?, CanFollow e a) ∧ Passes codec es := by
  have hnone : ∀ p ∈ (none : Option (LogEntry κ)), CanFollow p e := by simp
  have hsome : (∀ p ∈ some e, ∀ a ∈ es.head?, CanFollow p a) ↔ ∀ a ∈ es.head?, CanFollow e a := by simp
  rw [Passes, validatePersistedLogEntries_cons, validatePersistedLogEntries_previous, hsome]
  tauto

theorem passes_append : Passes codec (l ++ r) ↔ Passes codec l ∧ Passes codec r ∧ Joins l r := by
  induction l with
  | nil => simp [passes_nil, Joins]
  | cons a l ih =>
    rw [List.cons_append, passes_cons, passes_cons, ih]
    cases l with
    | nil => simp only [List.nil_append, passes_nil, Joins, List.getLast?_singleton]; simp; tauto
    | cons b l => simp only [List.cons_append, List.head?_cons, Joins, List.getLast?_cons_cons]; tauto

theorem Passes.admissible (h : Passes codec es) : ∀ e ∈ es, Admissible codec e := by
  induction es with
  | nil => simp
  | cons a es ih =>
    obtain ⟨ha, -, hes⟩ := passes_cons.1 h
    simpa [ha] using ih hes

theorem Passes.contiguous (h : Passes codec (e :: es)) : RaftLogState.Contiguous e.index (e :: es) := by
  induction es generalizing e with
  | nil => exact ⟨rfl, trivial⟩
  | cons a es ih =>
    obtain ⟨-, hnext, hrest⟩ := passes_cons.1 h
    have := (hnext a rfl).index
    exact ⟨rfl, this ▸ ih hrest⟩

theorem Passes.contiguous_from (h : Passes codec es) : ∃ f, RaftLogState.Contiguous f es := by
  cases es with
  | nil => exact ⟨0, trivial⟩
  | cons e es => exact ⟨_, h.contiguous⟩

/-- Only the first entry can be out of range. -/
theorem Passes.le_u64Max (h : Passes codec es) (hfirst : ∀ e ∈ es.head?, e.index ≤ u64Max) :
    ∀ e ∈ es, e.index ≤ u64Max := by
  induction es with
  | nil => simp
  | cons a es ih =>
    obtain ⟨-, hnext, hrest⟩ := passes_cons.1 h
    intro e he
    rcases List.mem_cons.1 he with rfl | he
    · exact hfirst _ rfl
    · refine ih hrest (fun b hb => ?_) e he
      have hroom := (hnext b hb).room
      have hindex := (hnext b hb).index
      omega

theorem increasing_of_contiguous {α : Type} {f : Nat} {l : List (RaftLogEntry α)} (h : RaftLogState.Contiguous f l) :
    l.Pairwise fun a b => a.index < b.index := by
  induction l generalizing f with
  | nil => exact .nil
  | cons a l ih =>
    refine List.pairwise_cons.2 ⟨fun b hb => ?_, ih h.2⟩
    obtain ⟨k, hk⟩ := List.mem_iff_getElem?.1 hb
    have hb := h.2.get hk
    have ha : a.index = f := h.1
    omega

theorem ordered_of_contiguous {α : Type} {f : Nat} {l : List (RaftLogEntry α)} (h : RaftLogState.Contiguous f l) :
    Ordered l :=
  (increasing_of_contiguous h).imp Nat.le_of_lt

/-! ## The boundary of the snapshot -/

/-- The first and the last entry of a log, against its snapshot. -/
def BoundaryOk (es : List (LogEntry κ)) (first last : LogEntry κ) : Option StoredSnapshotMetadata → Prop
  | none => first.index = 1
  | some m => m.lastIncludedIndex ≤ last.index ∧ m.lastIncludedIndex + 1 ≤ u64Max ∧
      first.index ≤ m.lastIncludedIndex + 1 ∧
      (first.index ≤ m.lastIncludedIndex →
        ∃ a, es.find? (·.index == m.lastIncludedIndex) = some a ∧ a.term = m.lastIncludedTerm)

theorem validateSnapshotLogBoundary_eq_ok {snapshot : Option StoredSnapshotMetadata} :
    validateSnapshotLogBoundary es snapshot = .ok () ↔
      ∀ first ∈ es.head?, ∀ last ∈ es.getLast?, BoundaryOk es first last snapshot := by
  unfold validateSnapshotLogBoundary
  cases hhead : es.head? with
  | none => simp
  | some first =>
    have hne : es ≠ [] := by intro hnil; simp [hnil] at hhead
    obtain ⟨last, hlast⟩ : ∃ last, es.getLast? = some last := ⟨_, List.getLast?_eq_some_getLast hne⟩
    simp only [hlast, Option.mem_def, Option.some.injEq, forall_eq']
    cases snapshot with
    | none =>
      simp only [BoundaryOk]
      split
      · rename_i h
        simpa using h
      · rename_i h
        simpa using h
    | some m =>
      simp only [BoundaryOk]
      split
      · rename_i h
        simp only [reduceCtorEq, false_iff, not_and]
        omega
      rename_i hlastIndex
      split
      · rename_i hnone
        have := checkedAdd_eq_none.1 hnone
        simp only [reduceCtorEq, false_iff, not_and]
        omega
      rename_i maxFirst hsome
      obtain ⟨hroom, rfl⟩ := checkedAdd_eq_some.1 hsome
      split
      · rename_i h
        simp only [reduceCtorEq, false_iff, not_and]
        omega
      rename_i hfirst
      split
      · rename_i hin
        split
        · rename_i hfind
          simp [hin, hfind]
        · rename_i a hfind
          split
          · rename_i hterm
            simp [hin, hfind, hterm]
          · rename_i hterm
            simp only [true_iff]
            exact ⟨by omega, hroom, by omega, fun _ => ⟨a, hfind, by simpa using hterm⟩⟩
      · rename_i hout
        simp only [true_iff]
        exact ⟨by omega, hroom, by omega, fun h => absurd h hout⟩

theorem validateSuffixJoin_eq_ok : validateSuffixJoin l r = .ok () ↔ Joins l r := by
  unfold validateSuffixJoin Joins
  cases hl : l.getLast? with
  | none => simp
  | some p =>
    cases hr : r.head? with
    | none => simp
    | some e =>
      simp only [Option.mem_def, Option.some.injEq, forall_eq']
      split
      · rename_i hnone
        simp only [reduceCtorEq, false_iff]
        intro h
        have := h.room
        have := checkedAdd_eq_none.1 hnone
        omega
      rename_i expected hsome
      obtain ⟨hroom, rfl⟩ := checkedAdd_eq_some.1 hsome
      split
      · rename_i hne
        simp only [reduceCtorEq, false_iff]
        exact fun h => hne h.index
      rename_i heq
      split
      · rename_i hlt
        simp only [reduceCtorEq, false_iff]
        intro h
        have := h.term
        omega
      · rename_i hle
        simp only [true_iff]
        exact ⟨hroom, by simpa using heq, by omega⟩

theorem validateLogEntriesForSnapshot_eq_ok {snapshot : Option StoredSnapshotMetadata} :
    validateLogEntriesForSnapshot codec es snapshot = .ok () ↔
      Passes codec es ∧ ∀ first ∈ es.head?, ∀ last ∈ es.getLast?, BoundaryOk es first last snapshot := by
  rw [validateLogEntriesForSnapshot, check_bind_eq_ok, validateSnapshotLogBoundary_eq_ok, Passes]

theorem validateRepairedLogSuffix_eq_ok {k : Nat} {snapshot : Option StoredSnapshotMetadata}
    (h : validateRepairedLogSuffix codec l k r snapshot = .ok ()) :
    Passes codec r ∧ Joins (l.take k) r ∧
      validateSnapshotLogBoundary (if (l.take k).isEmpty then r else l.take k) snapshot = .ok () := by
  unfold validateRepairedLogSuffix at h
  split at h
  · cases h
  simp only [check_bind_eq_ok] at h
  exact ⟨h.1, validateSuffixJoin_eq_ok.1 h.2.2, h.2.1⟩

/-! ## The shape of a request -/

theorem validateIncomingEntry_eq_ok {prev leaderTerm expected prevTerm : Nat}
    (h : validateIncomingEntry codec prev leaderTerm expected prevTerm e = .ok ()) :
    Admissible codec e ∧ e.index = expected ∧ prevTerm ≤ e.term := by
  unfold validateIncomingEntry at h
  split at h
  · cases h
  split at h
  · cases h
  rename_i h0 hindex
  split at h
  · cases h
  split at h
  · cases h
  rename_i hterm hprev
  split at h
  · cases h
  exact ⟨⟨by omega, by omega, validateCommandOf_eq_ok.1 h⟩, by simpa using hindex, by omega⟩

theorem validateIncomingEntries_eq_ok {prev leaderTerm expected prevTerm : Nat}
    (h : validateIncomingEntries codec prev leaderTerm expected prevTerm es = .ok ()) :
    Passes codec es ∧ ∀ e ∈ es.head?, e.index = expected ∧ prevTerm ≤ e.term := by
  induction es generalizing expected prevTerm with
  | nil => exact ⟨passes_nil, by simp⟩
  | cons e es ih =>
    rw [validateIncomingEntries] at h
    simp only [check_bind_eq_ok] at h
    obtain ⟨hentry, hrest⟩ := h
    obtain ⟨hadm, hindex, hprev⟩ := validateIncomingEntry_eq_ok hentry
    refine ⟨passes_cons.2 ⟨hadm, ?_⟩, by simpa using ⟨hindex, hprev⟩⟩
    split at hrest
    · rename_i hempty
      rw [List.isEmpty_iff.1 hempty]
      exact ⟨by simp, passes_nil⟩
    · split at hrest
      · cases hrest
      · rename_i next hsome
        obtain ⟨hroom, rfl⟩ := checkedAdd_eq_some.1 hsome
        obtain ⟨hpasses, hhead⟩ := ih hrest
        exact ⟨fun a ha => ⟨hroom, (hhead a ha).1, (hhead a ha).2⟩, hpasses⟩

/-- What a request of the right shape brings: entries that could stand in a log,
right behind its previous entry. -/
structure Shaped (codec : StoreCodec κ π) (prevLogIndex prevLogTerm : Nat) (es : List (LogEntry κ)) : Prop where
  passes : Passes codec es
  first : ∀ e ∈ es.head?, e.index = prevLogIndex + 1 ∧ prevLogTerm ≤ e.term
  room : ∀ e ∈ es.head?, e.index ≤ u64Max
  origin : prevLogIndex = 0 → prevLogTerm = 0

theorem validateAppendEntriesShape_shaped {prev prevTerm leaderTerm : Nat}
    (h : validateAppendEntriesShape codec prev prevTerm leaderTerm es = .ok ()) : Shaped codec prev prevTerm es := by
  unfold validateAppendEntriesShape at h
  split at h
  · cases h
  split at h
  · cases h
  rename_i horigin
  split at h
  · cases h
  split at h
  · cases h
  have horigin : prev = 0 → prevTerm = 0 := by
    intro h0
    by_contra hne
    exact horigin ⟨h0, hne⟩
  split at h
  · split at h
    · rename_i hempty
      rw [List.isEmpty_iff.1 hempty]
      exact ⟨passes_nil, by simp, by simp, horigin⟩
    · cases h
  · rename_i expected hsome
    obtain ⟨hroom, rfl⟩ := checkedAdd_eq_some.1 hsome
    obtain ⟨hpasses, hhead⟩ := validateIncomingEntries_eq_ok h
    refine ⟨hpasses, hhead, fun e he => ?_, horigin⟩
    have := (hhead e he).1
    omega

theorem Shaped.contiguous {prev prevTerm : Nat} (h : Shaped codec prev prevTerm es) :
    RaftLogState.Contiguous (prev + 1) es := by
  cases es with
  | nil => trivial
  | cons e es =>
    have := (h.first e rfl).1
    exact this ▸ h.passes.contiguous

end LiveMutex.Raft
