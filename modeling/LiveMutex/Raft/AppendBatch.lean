/-
What a leader sends a peer next: from its next index on as many entries as the limits
on their number, their bytes and the frame allow, but one in any case.

An entry's JSON is a parameter (`EntryJson`), and so is the text of a frame around its
entries, which does not depend on them; between two entries stands a comma. Lengths are
those of buffers in memory, far from the end of `usize`, and the saturating sums of the
source are plain ones.

* `selectLimited_longest`: the loop over the entries stops at the longest run that fits;
* `renderFrame_length`: a frame is as long as was computed from its entries' lengths;
* `appendBatchForPeer_longest`: so is the batch for a peer the longest run, and the frame
  is built exactly when it fits.
-/
import LiveMutex.Raft.StoreExact

namespace LiveMutex.Raft

variable {κ π : Type}

/-! ## The limits -/

structure LimitedLogEntries (κ : Type) where
  entries : List (LogEntry κ)
  entryBytes : List Nat
  serializedBytes : Nat

structure LimitedLogByteBudgets where
  maxSerializedBytes : Nat
  maxPayloadBytes : Option Nat
  deriving Repr, DecidableEq

def effectiveAppendEntriesMaxBytes (configuredMaxBytes maxFrameBytes : Nat) : Nat :=
  min (max configuredMaxBytes 1) (max maxFrameBytes 1)

def totalBytes (entryBytes : List Nat) : Nat := entryBytes.foldl (· + ·) 0

/-- The entries' bytes with a comma between each two. -/
def appendEntriesPayloadBytesFromEntryLens (entryBytes : List Nat) : Nat :=
  totalBytes entryBytes + (entryBytes.length - 1)

/-- What the loop has taken so far. -/
structure LimitedSelection (κ : Type) where
  selected : List (LogEntry κ) := []
  selectedEntryBytes : List Nat := []
  selectedBudgetBytes : Nat := 0
  selectedBytes : Nat := 0

/-- The loop over the entries and their lengths. -/
def selectLimited (maxEntries maxSerializedBytes : Nat) (maxPayloadBytes : Option Nat) :
    LimitedSelection κ → List (LogEntry κ × Nat) → LimitedSelection κ
  | acc, [] => acc
  | acc, (entry, entrySize) :: rest =>
    let separatorBytes := if maxPayloadBytes.isSome && !acc.selected.isEmpty then 1 else 0
    let candidateBudgetBytes := acc.selectedBudgetBytes + separatorBytes + entrySize
    let candidateSerializedBytes := acc.selectedBytes + entrySize
    let payloadBudgetExceeded := maxPayloadBytes.any (· < candidateBudgetBytes)
    if !acc.selected.isEmpty && (maxSerializedBytes < candidateSerializedBytes || payloadBudgetExceeded) then acc
    else
      let acc : LimitedSelection κ :=
        { selected := acc.selected ++ [entry]
          selectedEntryBytes := acc.selectedEntryBytes ++ [entrySize]
          selectedBudgetBytes := candidateBudgetBytes
          selectedBytes := candidateSerializedBytes }
      if maxEntries ≤ acc.selected.length then acc
      else selectLimited maxEntries maxSerializedBytes maxPayloadBytes acc rest

def entriesFromLimitedCachedWithByteBudget (entries : List (LogEntry κ)) (entryBytes : List Nat)
    (index maxEntries : Nat) (budgets : LimitedLogByteBudgets) : Except BrokerRaftError (LimitedLogEntries κ) :=
  if entryBytes.length ≠ entries.length then .error (.invalidLog
    s!"retained log byte-size cache has {entryBytes.length} entries for {entries.length} retained log entries")
  else
    let start := retainedEntryLowerBound entries (max index 1)
    let acc := selectLimited (max maxEntries 1) (max budgets.maxSerializedBytes 1)
      (budgets.maxPayloadBytes.map (max · 1)) {} ((entries.drop start).zip (entryBytes.drop start))
    .ok { entries := acc.selected, entryBytes := acc.selectedEntryBytes, serializedBytes := acc.selectedBytes }

/-! ## Frames -/

/-- How an entry is written as JSON. -/
structure EntryJson (codec : StoreCodec κ π) where
  render : LogEntry κ → List UInt8
  length_render : ∀ entry, (render entry).length = codec.serializedLogEntryLen entry
  render_ne_nil : ∀ entry, render entry ≠ []

/-- A frame but for its entries: the fields before `entries` and those behind it. -/
structure AppendEntriesFrameMeta where
  prevLogIndex : Nat
  prevLogTerm : Nat
  before : List UInt8
  behind : List UInt8
  deriving Repr, DecidableEq

inductive AppendFrameError where
  | store (err : BrokerRaftError)
  | rpc (message : String)
  | appendEntriesFrameTooLarge (frameBytes maxFrameBytes : Nat)
  | frameSizeEstimateMismatch (rpc : String) (estimatedBytes actualBytes : Nat)
  deriving Repr, DecidableEq

structure AppendEntriesFrame where
  body : List UInt8
  entriesLen : Nat
  sentMatchIndex : Nat
  frameLen : Nat
  frameClamped : Bool
  deriving Repr, DecidableEq

/-- The items of an array: with a comma (44) between each two. -/
def joinItems : List (List UInt8) → List UInt8
  | [] => []
  | [item] => item
  | item :: items => item ++ 44 :: joinItems items

section Frames

variable {codec : StoreCodec κ π} (json : EntryJson codec)

/-- The frame as JSON: an object (123 and 125) with the array of the entries (91 and 93)
between its other fields. -/
def renderFrame (frameMeta : AppendEntriesFrameMeta) (entries : List (LogEntry κ)) : List UInt8 :=
  123 :: frameMeta.before ++ 91 :: joinItems (entries.map json.render) ++ 93 :: frameMeta.behind ++ [125]

def appendEntriesFrameLen (frameMeta : AppendEntriesFrameMeta) (entries : List (LogEntry κ)) : Nat :=
  (renderFrame json frameMeta entries).length

def appendEntriesFrameEntryBudget (frameMeta : AppendEntriesFrameMeta) (maxFrameBytes : Nat) : Nat :=
  max (max maxFrameBytes 1 - appendEntriesFrameLen json frameMeta []) 1

/-- The loop that takes entries off the end; no more can go than there are. -/
def trimToBudget (budget : Nat) : Nat → LimitedLogEntries κ → Nat → Except BrokerRaftError (LimitedLogEntries κ)
  | 0, limited, _ => .ok limited
  | fuel + 1, limited, payloadBytes =>
    if 1 < limited.entries.length ∧ budget < payloadBytes then
      match limited.entryBytes.getLast? with
      | none =>
        .error (.invalidLog "retained log byte-size cache was empty while trimming AppendEntries batch")
      | some removedBytes =>
        trimToBudget budget fuel
          { entries := limited.entries.dropLast
            entryBytes := limited.entryBytes.dropLast
            serializedBytes := limited.serializedBytes - removedBytes }
          (payloadBytes - (removedBytes + 1))
    else .ok limited

def trimLimitedLogEntriesToFrameBudget (limited : LimitedLogEntries κ) (frameMeta : AppendEntriesFrameMeta)
    (maxFrameBytes : Nat) : Except BrokerRaftError (LimitedLogEntries κ) :=
  (validateRetainedLogEntryBytesLen limited.entries.length limited.entryBytes.length).bind fun _ =>
    if limited.entries.length ≤ 1 then .ok limited
    else trimToBudget (appendEntriesFrameEntryBudget json frameMeta maxFrameBytes) limited.entries.length limited
      (appendEntriesPayloadBytesFromEntryLens limited.entryBytes)

def appendEntriesFrameWithLen (frameMeta : AppendEntriesFrameMeta) (entries : List (LogEntry κ))
    (entriesLen frameLen : Nat) : Except AppendFrameError AppendEntriesFrame :=
  let sent := entries.take (min entriesLen entries.length)
  let body := renderFrame json frameMeta sent
  if body.length ≠ frameLen then .error (.frameSizeEstimateMismatch "appendEntries" frameLen body.length)
  else .ok
    { body, frameLen, entriesLen := min entriesLen entries.length
      sentMatchIndex := (sent.getLast?.map (·.index)).getD frameMeta.prevLogIndex
      frameClamped := false }

def buildPreselectedAppendEntriesRpc (frameMeta : AppendEntriesFrameMeta) (entries : List (LogEntry κ))
    (entryBytes : List Nat) (maxFrameBytes : Nat) : Except AppendFrameError AppendEntriesFrame :=
  match validateRetainedLogEntryBytesLen entries.length entryBytes.length with
  | .error err => .error (.store err)
  | .ok _ =>
    let frameBudget := max maxFrameBytes 1
    let frameLen := appendEntriesFrameLen json frameMeta [] + appendEntriesPayloadBytesFromEntryLens entryBytes
    if frameBudget < frameLen then
      if entries.isEmpty then .error (.rpc (s!"empty AppendEntries RPC frame has {frameLen} bytes, exceeding " ++
        s!"configured max frame bytes {frameBudget}"))
      else .error (.appendEntriesFrameTooLarge frameLen frameBudget)
    else appendEntriesFrameWithLen json frameMeta entries entries.length frameLen

/-! ## The batch for a peer -/

namespace RaftLogStore

/-- The term of the entry before the next one, where the log or the snapshot has it. -/
def prevLogTerm (s : RaftLogStore κ) (prevLogIndex : Nat) : Option Nat :=
  if prevLogIndex = 0 then some 0
  else ((retainedEntryAt s.retainedLogEntries prevLogIndex).map (·.term)).or
    ((s.latestSnapshot.filter (·.lastIncludedIndex == prevLogIndex)).map (·.lastIncludedTerm))

/-- `prev_term_entries_and_bytes_from_limited_with_append_entries_budgets` -/
def prevTermEntriesAndBytes (s : RaftLogStore κ) (nextIndex maxEntries : Nat)
    (budgetsForPrevTerm : Nat → LimitedLogByteBudgets) :
    Except BrokerRaftError (Option (Nat × LimitedLogEntries κ)) :=
  let nextIndex := max nextIndex 1
  let prevLogIndex := nextIndex - 1
  if prevLogIndex = s.lastIndex then
    .ok (some (s.lastTerm, { entries := [], entryBytes := [], serializedBytes := 0 }))
  else
    match s.prevLogTerm prevLogIndex with
    | none => .ok none
    | some prevLogTerm =>
      (entriesFromLimitedCachedWithByteBudget s.retainedLogEntries s.retainedLogEntryBytes nextIndex maxEntries
        (budgetsForPrevTerm prevLogTerm)).map fun limited => some (prevLogTerm, limited)

/-- What is to be sent: a batch behind an entry of a term, or a snapshot when the log
does not reach back that far. -/
inductive PeerBatch (κ : Type) where
  | append (prevLogTerm : Nat) (limited : LimitedLogEntries κ)
  | snapshotFallback

/-- The batch of `replicate_one_batch_to_peer`, selected and trimmed. The frame around
it is known once the term before it is. -/
def appendBatchForPeer (s : RaftLogStore κ) (frameMetaFor : Nat → AppendEntriesFrameMeta)
    (nextIndex maxEntries maxBytes maxFrameBytes : Nat) : Except BrokerRaftError (PeerBatch κ) :=
  (s.prevTermEntriesAndBytes nextIndex maxEntries fun prevLogTerm =>
      { maxSerializedBytes := effectiveAppendEntriesMaxBytes maxBytes maxFrameBytes
        maxPayloadBytes := some (appendEntriesFrameEntryBudget json (frameMetaFor prevLogTerm) maxFrameBytes) }).bind
    fun found =>
      match found with
      | none => .ok .snapshotFallback
      | some (prevLogTerm, limited) =>
        if limited.entries.head?.any (·.index ≠ nextIndex) then .ok .snapshotFallback
        else (trimLimitedLogEntriesToFrameBudget json limited (frameMetaFor prevLogTerm) maxFrameBytes).map
          fun trimmed => .append prevLogTerm trimmed

end RaftLogStore

end Frames

/-! ## Sums of lengths -/

section Sums

variable {a b : List Nat} {n : Nat}

@[simp] theorem totalBytes_nil : totalBytes [] = 0 := rfl

theorem foldl_add_eq (a : List Nat) (n : Nat) : a.foldl (· + ·) n = n + totalBytes a := by
  induction a generalizing n with
  | nil => rfl
  | cons m a ih =>
    show a.foldl (· + ·) (n + m) = n + a.foldl (· + ·) (0 + m)
    rw [ih, ih]
    omega

@[simp] theorem totalBytes_cons : totalBytes (n :: a) = n + totalBytes a := by
  show a.foldl (· + ·) (0 + n) = _
  rw [foldl_add_eq, Nat.zero_add]

@[simp] theorem totalBytes_append : totalBytes (a ++ b) = totalBytes a + totalBytes b := by
  show (a ++ b).foldl (· + ·) 0 = _
  rw [List.foldl_append, foldl_add_eq]
  rfl

theorem length_le_totalBytes (h : ∀ n ∈ a, 1 ≤ n) : a.length ≤ totalBytes a := by
  induction a with
  | nil => exact Nat.le_refl 0
  | cons n a ih =>
    have hn := h n List.mem_cons_self
    have ha := ih fun m hm => h m (List.mem_cons_of_mem n hm)
    rw [totalBytes_cons, List.length_cons]
    omega

end Sums

/-! ## The loop -/

/-- A run that may be sent: one entry in any case, several within the limits. -/
def WithinBudgets (maxEntries maxSerializedBytes maxPayloadBytes : Nat) (entryBytes : List Nat) : Prop :=
  entryBytes.length ≤ 1 ∨ entryBytes.length ≤ maxEntries ∧ totalBytes entryBytes ≤ maxSerializedBytes ∧
    appendEntriesPayloadBytesFromEntryLens entryBytes ≤ maxPayloadBytes

/-- The first entries of a run, as many as may be sent. -/
structure LongestRun (P : List (LogEntry κ) → Prop) (run taken : List (LogEntry κ)) : Prop where
  isPrefix : taken <+: run
  nonempty : taken ≠ []
  sendable : P taken
  longest : ∀ l, l <+: run → P l → l.length ≤ taken.length

section Loop

variable {maxEntries maxBytes maxPayload : Nat} {a b : List Nat} (len : LogEntry κ → Nat)

theorem WithinBudgets.left (h : WithinBudgets maxEntries maxBytes maxPayload (a ++ b)) :
    WithinBudgets maxEntries maxBytes maxPayload a := by
  simp only [WithinBudgets, appendEntriesPayloadBytesFromEntryLens, List.length_append, totalBytes_append] at h ⊢
  omega

/-- What the loop holds after it has taken these entries. -/
def LimitedSelection.having (taken : List (LogEntry κ)) : LimitedSelection κ :=
  { selected := taken
    selectedEntryBytes := taken.map len
    selectedBudgetBytes := appendEntriesPayloadBytesFromEntryLens (taken.map len)
    selectedBytes := totalBytes (taken.map len) }

theorem payload_concat (taken : List (LogEntry κ)) (entry : LogEntry κ) :
    appendEntriesPayloadBytesFromEntryLens ((taken ++ [entry]).map len) =
      appendEntriesPayloadBytesFromEntryLens (taken.map len) + (if !taken.isEmpty then 1 else 0) + len entry := by
  cases taken with
  | nil => simp [appendEntriesPayloadBytesFromEntryLens]
  | cons first taken =>
    simp only [appendEntriesPayloadBytesFromEntryLens, List.map_append, List.map_cons, List.map_nil, List.cons_append,
      totalBytes_cons, totalBytes_append, totalBytes_nil, List.length_cons, List.length_append, List.length_map,
      List.length_nil, List.isEmpty_cons, Bool.not_false, if_true]
    omega

/-- The loop breaks off when the entries with the next one may not be sent. -/
theorem break_iff (taken : List (LogEntry κ)) (entry : LogEntry κ) (hroom : taken.length < maxEntries) :
    (!taken.isEmpty && (maxBytes < totalBytes (taken.map len) + len entry ||
        (some maxPayload).any (· < appendEntriesPayloadBytesFromEntryLens (taken.map len) +
          (if (some maxPayload).isSome && !taken.isEmpty then 1 else 0) + len entry))) = true ↔
      ¬WithinBudgets maxEntries maxBytes maxPayload ((taken ++ [entry]).map len) := by
  simp only [Option.any_some, Option.isSome_some, Bool.true_and, ← payload_concat, WithinBudgets, List.length_map]
  simp only [List.map_append, List.map_cons, List.map_nil, totalBytes_append, totalBytes_cons, totalBytes_nil,
    Nat.add_zero, List.length_append, List.length_cons, List.length_nil]
  cases taken with
  | nil => simp
  | cons first taken =>
    simp only [List.length_cons] at hroom ⊢
    simp only [List.isEmpty_cons, Bool.not_false, Bool.true_and, Bool.or_eq_true, decide_eq_true_eq]
    omega

theorem selectLimited_stop {taken : List (LogEntry κ)} {entry : LogEntry κ} (rest : List (LogEntry κ × Nat))
    (hroom : taken.length < maxEntries)
    (h : ¬WithinBudgets maxEntries maxBytes maxPayload ((taken ++ [entry]).map len)) :
    selectLimited maxEntries maxBytes (some maxPayload) (.having len taken) ((entry, len entry) :: rest) =
      .having len taken := by
  rw [selectLimited]
  exact if_pos ((break_iff len taken entry hroom).2 h)

theorem selectLimited_take {taken : List (LogEntry κ)} {entry : LogEntry κ} (rest : List (LogEntry κ × Nat))
    (hroom : taken.length < maxEntries)
    (h : WithinBudgets maxEntries maxBytes maxPayload ((taken ++ [entry]).map len)) :
    selectLimited maxEntries maxBytes (some maxPayload) (.having len taken) ((entry, len entry) :: rest) =
      if maxEntries ≤ (taken ++ [entry]).length then .having len (taken ++ [entry])
      else selectLimited maxEntries maxBytes (some maxPayload) (.having len (taken ++ [entry])) rest := by
  have hnext : (LimitedSelection.having len (taken ++ [entry])) =
      { selected := taken ++ [entry]
        selectedEntryBytes := taken.map len ++ [len entry]
        selectedBudgetBytes := appendEntriesPayloadBytesFromEntryLens (taken.map len) +
          (if !taken.isEmpty then 1 else 0) + len entry
        selectedBytes := totalBytes (taken.map len) + len entry } := by
    rw [LimitedSelection.having, payload_concat]
    simp only [List.map_append, List.map_cons, List.map_nil, totalBytes_append, totalBytes_cons, totalBytes_nil,
      Nat.add_zero]
  rw [selectLimited, hnext]
  exact if_neg (fun hbreak => (break_iff len taken entry hroom).1 hbreak h)

variable (maxEntries maxBytes maxPayload) in
/-- **The loop takes as much as may be sent.** -/
theorem selectLimited_longest (run taken : List (LogEntry κ)) (hroom : taken.length < maxEntries) :
    ∃ more, selectLimited maxEntries maxBytes (some maxPayload) (.having len taken)
        (run.map fun entry => (entry, len entry)) = .having len (taken ++ more) ∧ more <+: run ∧
      (WithinBudgets maxEntries maxBytes maxPayload (taken.map len) →
        WithinBudgets maxEntries maxBytes maxPayload ((taken ++ more).map len)) ∧
      ∀ l, l <+: run → WithinBudgets maxEntries maxBytes maxPayload ((taken ++ l).map len) →
        l.length ≤ more.length := by
  induction run generalizing taken with
  | nil =>
    refine ⟨[], by simp [selectLimited], List.nil_prefix, by simp, ?_⟩
    intro l hl _
    exact hl.length_le
  | cons entry run ih =>
    by_cases hfit : WithinBudgets maxEntries maxBytes maxPayload ((taken ++ [entry]).map len)
    · rw [List.map_cons, selectLimited_take len _ hroom hfit]
      split
      next hfull =>
        refine ⟨[entry], rfl, ⟨run, rfl⟩, fun _ => hfit, ?_⟩
        intro l _ hl
        simp only [List.length_append, List.length_cons, List.length_nil] at hfull ⊢
        simp only [WithinBudgets, List.length_map, List.length_append] at hl
        omega
      next hfull =>
        obtain ⟨more, hmore, hpre, hwithin, hlongest⟩ := ih (taken ++ [entry]) (Nat.lt_of_not_le hfull)
        refine ⟨entry :: more, ?_, (List.cons_prefix_cons.2 ⟨rfl, hpre⟩), ?_, ?_⟩
        · rw [hmore, List.append_assoc, List.singleton_append]
        · intro _
          have := hwithin hfit
          rwa [List.append_assoc, List.singleton_append] at this
        · intro l hl hsend
          cases l with
          | nil => exact Nat.zero_le _
          | cons e l =>
            obtain ⟨rfl, hrest⟩ := List.cons_prefix_cons.1 hl
            rw [← List.singleton_append, ← List.append_assoc] at hsend
            have := hlongest l hrest hsend
            simp only [List.length_cons]
            omega
    · rw [List.map_cons, selectLimited_stop len _ hroom hfit]
      refine ⟨[], by rw [List.append_nil], List.nil_prefix, by simp, ?_⟩
      intro l hl hsend
      cases l with
      | nil => exact Nat.le_refl 0
      | cons e l =>
        -- The entries with this one could be sent if those with more could.
        obtain ⟨rfl, -⟩ := List.cons_prefix_cons.1 hl
        rw [← List.singleton_append, ← List.append_assoc, List.map_append] at hsend
        exact absurd hsend.left hfit

end Loop

/-! ## Frames fit as computed -/

section Frames

variable {codec : StoreCodec κ π} (json : EntryJson codec) (frameMeta : AppendEntriesFrameMeta)
  {maxEntries maxBytes maxFrameBytes : Nat} {entries : List (LogEntry κ)}

theorem joinItems_length (items : List (List UInt8)) :
    (joinItems items).length = appendEntriesPayloadBytesFromEntryLens (items.map List.length) := by
  induction items with
  | nil => rfl
  | cons item items ih =>
    cases items with
    | nil => simp [joinItems, appendEntriesPayloadBytesFromEntryLens]
    | cons next items =>
      rw [joinItems, List.length_append, List.length_cons, ih]
      · simp only [appendEntriesPayloadBytesFromEntryLens, List.map_cons, totalBytes_cons, List.length_cons]
        omega
      · exact fun h => absurd h (List.cons_ne_nil next items)

/-- **A frame is as long as its entries' lengths tell.** -/
theorem renderFrame_length (entries : List (LogEntry κ)) : appendEntriesFrameLen json frameMeta entries =
    appendEntriesFrameLen json frameMeta [] +
      appendEntriesPayloadBytesFromEntryLens (serializedLogEntryLens codec entries) := by
  have hlens : (entries.map json.render).map List.length = serializedLogEntryLens codec entries := by
    rw [List.map_map]
    exact List.map_congr_left fun entry _ => json.length_render entry
  have hjoin := joinItems_length (entries.map json.render)
  rw [hlens] at hjoin
  simp only [appendEntriesFrameLen, renderFrame, List.length_append, List.length_cons, hjoin, List.map_nil,
    joinItems, List.length_nil]
  omega

theorem EntryJson.serializedLogEntryLen_pos (json : EntryJson codec) (entry : LogEntry κ) :
    1 ≤ codec.serializedLogEntryLen entry := by
  rw [← json.length_render]
  exact List.length_pos_iff.2 (json.render_ne_nil entry)

/-- A batch that may be sent: a single entry, or several that keep to every limit. -/
def Sendable (maxEntries maxBytes maxFrameBytes : Nat) (entries : List (LogEntry κ)) : Prop :=
  entries.length ≤ 1 ∨ entries.length ≤ maxEntries ∧ totalBytes (serializedLogEntryLens codec entries) ≤ maxBytes ∧
    appendEntriesFrameLen json frameMeta entries ≤ maxFrameBytes

/-- The limits as the loop has them, raised to one and the bytes cut to the frame, let the
same batches pass. -/
theorem sendable_iff_withinBudgets : Sendable json frameMeta maxEntries maxBytes maxFrameBytes entries ↔
    WithinBudgets (max maxEntries 1) (max (effectiveAppendEntriesMaxBytes maxBytes maxFrameBytes) 1)
      (max (appendEntriesFrameEntryBudget json frameMeta maxFrameBytes) 1)
      (serializedLogEntryLens codec entries) := by
  have hlen : (serializedLogEntryLens codec entries).length = entries.length := List.length_map ..
  have hpos : (serializedLogEntryLens codec entries).length ≤ totalBytes (serializedLogEntryLens codec entries) := by
    refine length_le_totalBytes fun n hn => ?_
    obtain ⟨entry, -, rfl⟩ := List.mem_map.1 hn
    exact json.serializedLogEntryLen_pos entry
  have hframe := renderFrame_length json frameMeta entries
  simp only [Sendable, WithinBudgets, appendEntriesFrameEntryBudget, effectiveAppendEntriesMaxBytes]
  generalize appendEntriesFrameLen json frameMeta [] = empty at hframe ⊢
  rw [hframe, hlen]
  simp only [appendEntriesPayloadBytesFromEntryLens, hlen]
  omega

theorem trim_of_within {limited : LimitedLogEntries κ} (hlen : limited.entries.length = limited.entryBytes.length)
    (h : limited.entries.length ≤ 1 ∨ appendEntriesPayloadBytesFromEntryLens limited.entryBytes ≤
      appendEntriesFrameEntryBudget json frameMeta maxFrameBytes) :
    trimLimitedLogEntriesToFrameBudget json limited frameMeta maxFrameBytes = .ok limited := by
  have hvalid : validateRetainedLogEntryBytesLen limited.entries.length limited.entryBytes.length = .ok () :=
    if_neg (not_not_intro hlen)
  rw [trimLimitedLogEntriesToFrameBudget, hvalid]
  show (if limited.entries.length ≤ 1 then Except.ok limited else _) = _
  split
  next => rfl
  next hlong =>
    obtain ⟨n, hn⟩ := Nat.exists_eq_add_of_lt (Nat.lt_of_not_le hlong)
    rw [show limited.entries.length = (n + 1) + 1 by omega, trimToBudget, if_neg (by omega)]

theorem four_le_appendEntriesFrameLen : 4 ≤ appendEntriesFrameLen json frameMeta entries := by
  simp only [appendEntriesFrameLen, renderFrame, List.length_append, List.length_cons, List.length_nil]
  omega

theorem validate_serializedLogEntryLens (entries : List (LogEntry κ)) :
    validateRetainedLogEntryBytesLen entries.length (serializedLogEntryLens codec entries).length = .ok () :=
  if_neg (not_not_intro (List.length_map ..).symm)

/-- A frame that is short enough is built, and is as long as computed. -/
theorem buildPreselected_of_le (h : appendEntriesFrameLen json frameMeta entries ≤ maxFrameBytes) :
    buildPreselectedAppendEntriesRpc json frameMeta entries (serializedLogEntryLens codec entries) maxFrameBytes = .ok
      { body := renderFrame json frameMeta entries
        entriesLen := entries.length
        sentMatchIndex := (entries.getLast?.map (·.index)).getD frameMeta.prevLogIndex
        frameLen := appendEntriesFrameLen json frameMeta entries
        frameClamped := false } := by
  simp only [buildPreselectedAppendEntriesRpc, validate_serializedLogEntryLens, ← renderFrame_length]
  rw [if_neg (by omega)]
  simp only [appendEntriesFrameWithLen, Nat.min_self, List.take_length]
  exact if_neg (not_not_intro rfl)

theorem buildPreselected_of_lt (hne : entries ≠ [])
    (h : maxFrameBytes < appendEntriesFrameLen json frameMeta entries) :
    buildPreselectedAppendEntriesRpc json frameMeta entries (serializedLogEntryLens codec entries) maxFrameBytes =
      .error (.appendEntriesFrameTooLarge (appendEntriesFrameLen json frameMeta entries) (max maxFrameBytes 1)) := by
  have hbig : 4 ≤ appendEntriesFrameLen json frameMeta entries := four_le_appendEntriesFrameLen json frameMeta
  simp only [buildPreselectedAppendEntriesRpc, validate_serializedLogEntryLens, ← renderFrame_length]
  rw [if_pos (by omega), if_neg (by simpa using hne)]

end Frames

/-! ## The batch -/

namespace RaftLogStore

open RaftLogState (Contiguous)

variable {codec : StoreCodec κ π} (json : EntryJson codec) {s : RaftLogStore κ} {f nextIndex : Nat}

/-- The entries from an index on. -/
def entriesFrom (s : RaftLogStore κ) (nextIndex : Nat) : List (LogEntry κ) :=
  s.retainedLogEntries.drop (retainedEntryLowerBound s.retainedLogEntries nextIndex)

theorem entriesFrom_eq_cons {first : LogEntry κ}
    (h : retainedEntryAt s.retainedLogEntries nextIndex = some first) :
    first.index = nextIndex ∧ ∃ rest, s.entriesFrom nextIndex = first :: rest := by
  rw [retainedEntryAt, Option.filter_eq_some_iff] at h
  obtain ⟨hget, hindex⟩ := h
  obtain ⟨hlt, hfirst⟩ := List.getElem?_eq_some_iff.1 hget
  refine ⟨by simpa using hindex,
    s.retainedLogEntries.drop (retainedEntryLowerBound s.retainedLogEntries nextIndex + 1), ?_⟩
  rw [entriesFrom, List.drop_eq_getElem_cons hlt, hfirst]

/-- The selection for an exact byte cache. -/
theorem entriesFromLimited_longest (frameMeta : AppendEntriesFrameMeta) (maxEntries maxBytes maxFrameBytes : Nat)
    (hbytes : s.retainedLogEntryBytes = serializedLogEntryLens codec s.retainedLogEntries) (hpos : 1 ≤ nextIndex)
    (hne : s.entriesFrom nextIndex ≠ []) :
    ∃ taken, entriesFromLimitedCachedWithByteBudget s.retainedLogEntries s.retainedLogEntryBytes nextIndex maxEntries
        { maxSerializedBytes := effectiveAppendEntriesMaxBytes maxBytes maxFrameBytes
          maxPayloadBytes := some (appendEntriesFrameEntryBudget json frameMeta maxFrameBytes) } =
        .ok { entries := taken
              entryBytes := serializedLogEntryLens codec taken
              serializedBytes := totalBytes (serializedLogEntryLens codec taken) } ∧
      LongestRun (Sendable json frameMeta maxEntries maxBytes maxFrameBytes) (s.entriesFrom nextIndex) taken := by
  have hlens : s.retainedLogEntryBytes.length = s.retainedLogEntries.length := by
    rw [hbytes]
    exact List.length_map ..
  have hzip : (s.entriesFrom nextIndex).zip
      (s.retainedLogEntryBytes.drop (retainedEntryLowerBound s.retainedLogEntries nextIndex)) =
      (s.entriesFrom nextIndex).map fun entry => (entry, codec.serializedLogEntryLen entry) := by
    rw [hbytes, serializedLogEntryLens, ← List.map_drop]
    exact List.map_prod_left_eq_zip.symm
  obtain ⟨taken, htaken, hpre, hwithin, hlongest⟩ := selectLimited_longest (max maxEntries 1)
    (max (effectiveAppendEntriesMaxBytes maxBytes maxFrameBytes) 1)
    (max (appendEntriesFrameEntryBudget json frameMeta maxFrameBytes) 1) codec.serializedLogEntryLen
    (s.entriesFrom nextIndex) []
    (show 0 < max maxEntries 1 by omega)
  rw [List.nil_append] at htaken hwithin
  refine ⟨taken, ?_, hpre, ?_, ?_, ?_⟩
  · rw [entriesFromLimitedCachedWithByteBudget, if_neg (not_not_intro hlens), Nat.max_eq_left hpos]
    simp only [Option.map_some]
    rw [← entriesFrom, hzip]
    exact congrArg (fun acc : LimitedSelection κ => Except.ok (LimitedLogEntries.mk acc.selected
      acc.selectedEntryBytes acc.selectedBytes)) htaken
  · rintro rfl
    obtain ⟨first, rest, hfirst⟩ := List.exists_cons_of_ne_nil hne
    have : 1 ≤ 0 := hlongest [first] (hfirst ▸ ⟨rest, rfl⟩) (.inl (Nat.le_refl 1))
    omega
  · exact (sendable_iff_withinBudgets json frameMeta).2 (hwithin (.inl (Nat.zero_le 1)))
  · intro l hl hsend
    exact hlongest l hl ((sendable_iff_withinBudgets json frameMeta).1 hsend)

/-- The entries from a retained index on are numbered from it. -/
theorem entriesFrom_get {first e : LogEntry κ} {i : Nat} (hrun : Contiguous f s.retainedLogEntries)
    (hfirst : retainedEntryAt s.retainedLogEntries nextIndex = some first)
    (h : (s.entriesFrom nextIndex)[i]? = some e) : e.index = nextIndex + i := by
  obtain ⟨hindex, rest, hrest⟩ := entriesFrom_eq_cons hfirst
  have hfrom : Contiguous (f + retainedEntryLowerBound s.retainedLogEntries nextIndex) (s.entriesFrom nextIndex) :=
    hrun.drop
  have hhead : first.index = f + retainedEntryLowerBound s.retainedLogEntries nextIndex + 0 :=
    hfrom.get (by rw [hrest, List.getElem?_cons_zero])
  have := hfrom.get h
  omega

/-- Behind an entry whose term is known, short of the last one, the batch is selected. -/
theorem prevTermEntriesAndBytes_eq {maxEntries prevTerm : Nat} {budgetsFor : Nat → LimitedLogByteBudgets}
    {limited : LimitedLogEntries κ} (hpos : 1 ≤ nextIndex) (hprev : s.prevLogTerm (nextIndex - 1) = some prevTerm)
    (htail : nextIndex ≤ s.lastIndex)
    (h : entriesFromLimitedCachedWithByteBudget s.retainedLogEntries s.retainedLogEntryBytes nextIndex maxEntries
      (budgetsFor prevTerm) = .ok limited) :
    s.prevTermEntriesAndBytes nextIndex maxEntries budgetsFor = .ok (some (prevTerm, limited)) := by
  rw [prevTermEntriesAndBytes, Nat.max_eq_left hpos, if_neg (by omega), hprev]
  simp only [h]
  rfl

/-- What is selected from the next index on within the frame is sent. -/
theorem appendBatchForPeer_eq {frameMetaFor : Nat → AppendEntriesFrameMeta}
    {maxEntries maxBytes maxFrameBytes prevTerm : Nat} {limited : LimitedLogEntries κ} (hpos : 1 ≤ nextIndex)
    (hprev : s.prevLogTerm (nextIndex - 1) = some prevTerm) (htail : nextIndex ≤ s.lastIndex)
    (hsel : entriesFromLimitedCachedWithByteBudget s.retainedLogEntries s.retainedLogEntryBytes nextIndex maxEntries
      { maxSerializedBytes := effectiveAppendEntriesMaxBytes maxBytes maxFrameBytes
        maxPayloadBytes := some (appendEntriesFrameEntryBudget json (frameMetaFor prevTerm) maxFrameBytes) } =
      .ok limited)
    (hhead : ∀ e, limited.entries.head? = some e → e.index = nextIndex)
    (hlen : limited.entries.length = limited.entryBytes.length)
    (hfit : limited.entries.length ≤ 1 ∨ appendEntriesPayloadBytesFromEntryLens limited.entryBytes ≤
      appendEntriesFrameEntryBudget json (frameMetaFor prevTerm) maxFrameBytes) :
    s.appendBatchForPeer json frameMetaFor nextIndex maxEntries maxBytes maxFrameBytes =
      .ok (.append prevTerm limited) := by
  have hfound : s.prevTermEntriesAndBytes nextIndex maxEntries (fun prevLogTerm =>
      { maxSerializedBytes := effectiveAppendEntriesMaxBytes maxBytes maxFrameBytes
        maxPayloadBytes := some (appendEntriesFrameEntryBudget json (frameMetaFor prevLogTerm) maxFrameBytes) }) =
      .ok (some (prevTerm, limited)) := prevTermEntriesAndBytes_eq hpos hprev htail hsel
  have hstart : ¬limited.entries.head?.any (·.index ≠ nextIndex) := by
    cases hfirst : limited.entries.head? with
    | none => simp
    | some e => simp [hhead e hfirst]
  rw [appendBatchForPeer, hfound]
  show (if limited.entries.head?.any (·.index ≠ nextIndex) then _ else _) = _
  rw [if_neg hstart, trim_of_within json (frameMetaFor prevTerm) hlen hfit]
  rfl

/-- **A peer's batch is the longest that may be sent.** For a log whose byte cache is exact,
whatever the limits, and a retained next index whose predecessor's term is known: the batch
is the longest run of entries from that index on that keeps to the number of entries, the
bytes and the frame, a single entry being sent in any case; its frame is built exactly when
it is within the cap, and is then as long as computed. -/
theorem appendBatchForPeer_longest (s : RaftLogStore κ) (f : Nat) (hf : 1 ≤ f)
    (hrun : Contiguous f s.retainedLogEntries)
    (hbytes : s.retainedLogEntryBytes = serializedLogEntryLens codec s.retainedLogEntries)
    (frameMetaFor : Nat → AppendEntriesFrameMeta) (nextIndex maxEntries maxBytes maxFrameBytes prevTerm : Nat)
    (hprev : s.prevLogTerm (nextIndex - 1) = some prevTerm)
    (hnext : (retainedEntryAt s.retainedLogEntries nextIndex).isSome) (htail : nextIndex ≤ s.lastIndex) :
    ∃ limited, s.appendBatchForPeer json frameMetaFor nextIndex maxEntries maxBytes maxFrameBytes =
        .ok (.append prevTerm limited) ∧
      LongestRun (Sendable json (frameMetaFor prevTerm) maxEntries maxBytes maxFrameBytes)
        (s.entriesFrom nextIndex) limited.entries ∧
      (∀ i e, limited.entries[i]? = some e → e.index = nextIndex + i) ∧
      ((buildPreselectedAppendEntriesRpc json (frameMetaFor prevTerm) limited.entries limited.entryBytes
          maxFrameBytes).isOk ↔
        (renderFrame json (frameMetaFor prevTerm) limited.entries).length ≤ maxFrameBytes) ∧
      ∀ frame, buildPreselectedAppendEntriesRpc json (frameMetaFor prevTerm) limited.entries limited.entryBytes
          maxFrameBytes = .ok frame →
        frame.body = renderFrame json (frameMetaFor prevTerm) limited.entries ∧
        frame.body.length = frame.frameLen ∧
        frame.frameLen = appendEntriesFrameLen json (frameMetaFor prevTerm) [] +
          appendEntriesPayloadBytesFromEntryLens limited.entryBytes := by
  obtain ⟨first, hfirst⟩ := Option.isSome_iff_exists.1 hnext
  obtain ⟨hindex, rest, hrest⟩ := entriesFrom_eq_cons hfirst
  have hpos : 1 ≤ nextIndex := by
    obtain ⟨hmem, hat⟩ := hrun.retainedEntryAt_eq_some.1 hfirst
    obtain ⟨k, hk⟩ := List.mem_iff_getElem?.1 hmem
    have := hrun.get hk
    omega
  obtain ⟨taken, hsel, hlongest⟩ := entriesFromLimited_longest json (frameMetaFor prevTerm) maxEntries maxBytes
    maxFrameBytes hbytes hpos (hrest ▸ List.cons_ne_nil first rest)
  have hconsecutive : ∀ i e, taken[i]? = some e → e.index = nextIndex + i := by
    intro i e he
    obtain ⟨behind, hbehind⟩ := hlongest.isPrefix
    refine entriesFrom_get hrun hfirst ?_
    rw [← hbehind, List.getElem?_append_left (List.getElem?_eq_some_iff.1 he).1, he]
  refine ⟨⟨taken, serializedLogEntryLens codec taken, totalBytes (serializedLogEntryLens codec taken)⟩, ?_, hlongest,
    hconsecutive, ?_, ?_⟩
  · refine appendBatchForPeer_eq json hpos hprev htail hsel ?_ (List.length_map ..).symm ?_
    · intro e he
      rw [List.head?_eq_getElem?] at he
      exact hconsecutive 0 e he
    · refine ((sendable_iff_withinBudgets json _).1 hlongest.sendable).imp (fun h => ?_) fun h => ?_
      · rwa [serializedLogEntryLens, List.length_map] at h
      · have hfloor : 1 ≤ appendEntriesFrameEntryBudget json (frameMetaFor prevTerm) maxFrameBytes :=
          Nat.le_max_right ..
        have := h.2.2
        rwa [Nat.max_eq_left hfloor] at this
  · constructor
    · intro hok
      by_contra hlong
      rw [buildPreselected_of_lt json _ hlongest.nonempty (Nat.lt_of_not_le hlong)] at hok
      exact absurd hok Bool.false_ne_true
    · intro hfit
      rw [buildPreselected_of_le json _ hfit]
      rfl
  · intro frame hframe
    by_cases hfit : appendEntriesFrameLen json (frameMetaFor prevTerm) taken ≤ maxFrameBytes
    · rw [buildPreselected_of_le json _ hfit, Except.ok.injEq] at hframe
      subst hframe
      exact ⟨rfl, rfl, renderFrame_length json _ taken⟩
    · rw [buildPreselected_of_lt json _ hlongest.nonempty (Nat.lt_of_not_le hfit)] at hframe
      cases hframe

/-- Commands that are their own identity, written as an object. -/
def Sample.objects : StoreCodec RequestIdentity Unit :=
  { Sample.identities with serializedLogEntryLen := fun entry => entry.command.command.requestId.length + 2 }

def Sample.objectJson : EntryJson Sample.objects where
  render entry := 123 :: List.replicate entry.command.command.requestId.length 97 ++ [125]
  length_render entry := by
    simp only [Sample.objects, List.length_append, List.length_cons, List.length_replicate, List.length_nil]
  render_ne_nil entry := List.cons_ne_nil _ _

def Sample.compacted : RaftLogStore RequestIdentity := runOps Sample.objects {} Sample.ordinary

def Sample.frameMeta (prevTerm : Nat) : AppendEntriesFrameMeta :=
  { prevLogIndex := 1, prevLogTerm := prevTerm, before := [97, 97], behind := [97] }

theorem Sample.compacted_entries : Sample.compacted.retainedLogEntries = [⟨2, 1, 0, ⟨"b", "g"⟩⟩] ∧
    Sample.compacted.retainedLogEntryBytes = [3] ∧ Sample.compacted.lastIndex = 2 := by
  decide +kernel

theorem appendBatchForPeer_longest_compacted : Sample.compacted.prevLogTerm (2 - 1) = some 1 ∧
    ∃ limited, Sample.compacted.appendBatchForPeer Sample.objectJson Sample.frameMeta 2 4 64 16 =
        .ok (.append 1 limited) ∧
      LongestRun (Sendable Sample.objectJson (Sample.frameMeta 1) 4 64 16)
        (Sample.compacted.entriesFrom 2) limited.entries := by
  have hprev : Sample.compacted.prevLogTerm (2 - 1) = some 1 := by decide +kernel
  have hnext : (retainedEntryAt Sample.compacted.retainedLogEntries 2).isSome := by decide +kernel
  obtain ⟨hentries, hbytes, hlast⟩ := Sample.compacted_entries
  obtain ⟨limited, hbatch, hlongest, -⟩ := appendBatchForPeer_longest Sample.objectJson Sample.compacted 2 (by decide)
    (by rw [hentries]; decide) (by rw [hentries, hbytes]; decide) Sample.frameMeta 2 4 64 16 1 hprev hnext
    (by rw [hlast])
  exact ⟨hprev, limited, hbatch, hlongest⟩

/-- The first index has a predecessor of a known term, none, but a log behind a snapshot
has no entry there: no batch is sent. -/
theorem appendBatchForPeer_compacted_first :
    RaftLogState.Contiguous 2 Sample.compacted.retainedLogEntries ∧
    Sample.compacted.retainedLogEntryBytes =
      serializedLogEntryLens Sample.objects Sample.compacted.retainedLogEntries ∧
    Sample.compacted.prevLogTerm (1 - 1) = some 0 ∧ 1 ≤ Sample.compacted.lastIndex ∧
    Sample.compacted.appendBatchForPeer Sample.objectJson Sample.frameMeta 1 4 64 16 = .ok .snapshotFallback := by
  obtain ⟨hentries, hbytes, hlast⟩ := Sample.compacted_entries
  refine ⟨by rw [hentries]; decide, by rw [hentries, hbytes]; decide, by decide +kernel, by rw [hlast]; decide, rfl⟩

end RaftLogStore

end LiveMutex.Raft
