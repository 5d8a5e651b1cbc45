/-
The hard state on disk. A change of the term or of the vote replaces the JSON
file; an advance of the commit index alone goes to one of two slots of a file of
its own, by turns, with a generation number and a checksum. When the store is
opened the JSON file is read, and of the slots that pass their checks the commit
index of the best one.

A crash leaves the JSON file as it was or as it was to be, and the slot that was
being written with any bytes whatever, which pass the checks only if they are a
record the store has tried to write there.

What carries the recovery (`OnDisk`): the commit index in memory is in the JSON
file or in the slot that is not written next, and each record is in the slot of
its generation, so that the generation counted from the best one leads to the
other slot.
-/
import Mathlib.Data.List.Induction
import LiveMutex.Lib.Vec
import LiveMutex.Protocol
import LiveMutex.Raft.Votes

namespace LiveMutex.Raft

/-! ## Slots -/

structure RaftHardStateCommitSlot where
  generation : Nat
  currentTerm : Nat
  commitIndex : Nat
  checksum : String
  deriving Repr, DecidableEq

/-- The bytes around a record: ASCII whitespace and zeros. -/
def isPadding (byte : UInt8) : Bool :=
  byte = 32 || byte = 9 || byte = 10 || byte = 12 || byte = 13 || byte = 0

/-- `serde_json` on slot records, and `sha256_hex`. -/
structure SlotCodec where
  toVec : RaftHardStateCommitSlot → List UInt8
  fromSlice : List UInt8 → Option RaftHardStateCommitSlot
  sha256Hex : String → String
  fromSlice_toVec : ∀ slot, fromSlice (toVec slot) = some slot
  /-- a record stands between braces -/
  toVec_head : ∀ slot, ∃ b, (toVec slot).head? = some b ∧ isPadding b = false
  toVec_last : ∀ slot, ∃ b, (toVec slot).getLast? = some b ∧ isPadding b = false

/-- `HARD_STATE_COMMIT_SLOT_BYTES` -/
def hardStateCommitSlotBytes : Nat := 512

/-- `trim_hard_state_commit_slot_bytes` -/
def trimHardStateCommitSlotBytes (bytes : List UInt8) : List UInt8 :=
  ((bytes.dropWhile isPadding).reverse.dropWhile isPadding).reverse

/-- The slot a generation is written to (`hard_state_commit_slot_offset`). -/
def hardStateCommitSlot (generation : Nat) : Fin 2 := ⟨(generation - 1) % 2, Nat.mod_lt _ (by decide)⟩

section

variable (codec : SlotCodec)

def hardStateCommitChecksum (generation currentTerm commitIndex : Nat) : String :=
  codec.sha256Hex s!"{generation}:{currentTerm}:{commitIndex}"

def hardStateCommitSlotRecord (generation currentTerm commitIndex : Nat) : RaftHardStateCommitSlot :=
  { generation, currentTerm, commitIndex
    checksum := hardStateCommitChecksum codec generation currentTerm commitIndex }

/-- `validate_hard_state_commit_slot` -/
def validateHardStateCommitSlot (slot : RaftHardStateCommitSlot) : Except String RaftHardStateCommitSlot :=
  let expected := hardStateCommitChecksum codec slot.generation slot.currentTerm slot.commitIndex
  if slot.generation = 0 then .error "raft hard-state commit slot generation must start at 1"
  else if slot.checksum ≠ expected then
    .error s!"raft hard-state commit slot generation {slot.generation} has checksum {slot.checksum}, expected {expected}"
  else .ok slot

/-- The record in a slot, if its bytes are one. -/
def readHardStateCommitSlot (bytes : List UInt8) : Option RaftHardStateCommitSlot :=
  let raw := trimHardStateCommitSlotBytes bytes
  if raw = [] then none
  else
    match codec.fromSlice raw with
    | none => none
    | some slot => (validateHardStateCommitSlot codec slot).toOption

/-- A slot that would take the commit index back is passed over. -/
def keepBest (best : Option RaftHardStateCommitSlot) (slot : RaftHardStateCommitSlot) :
    Option RaftHardStateCommitSlot :=
  match best with
  | some current => if slot.commitIndex < current.commitIndex then some current else some slot
  | none => some slot

/-- `read_hard_state_commit_slots`: the best slot, and the generation to count
from. -/
def readHardStateCommitSlots (slots : Fin 2 → List UInt8) (maxCurrentTerm : Nat) :
    Option RaftHardStateCommitSlot × Nat :=
  let found := [slots 0, slots 1].filterMap fun bytes =>
    (readHardStateCommitSlot codec bytes).filter fun slot => slot.currentTerm ≤ maxCurrentTerm
  let sorted := found.insertionSort fun a b => a.generation ≤ b.generation
  let best := sorted.foldl keepBest none
  (best, (best.map (·.generation)).getD 0)

/-- What `write_hard_state_commit_slot_with_cache` writes, if it fits. -/
def hardStateCommitSlotBody (generation currentTerm commitIndex : Nat) : Option (List UInt8) :=
  let body := codec.toVec (hardStateCommitSlotRecord codec generation currentTerm commitIndex) ++ [10]
  if generation = 0 then none
  else if body.length > hardStateCommitSlotBytes then none
  else some (body ++ List.replicate (hardStateCommitSlotBytes - body.length) 32)

end

/-! ## The store -/

/-- The files of the hard state; `none` and no bytes while they are not there. -/
structure HardStateFiles (ν : Type) where
  json : Option (RaftHardState ν)
  slots : Fin 2 → List UInt8

structure HardStateStore (ν : Type) where
  files : HardStateFiles ν
  hardState : RaftHardState ν
  /-- `hard_state_commit_generation` -/
  generation : Nat

/-- Where a write goes. -/
inductive HardStateWrite (ν : Type) where
  | unchanged
  | slot (generation : Nat) (next : RaftHardState ν) (body : List UInt8)
  | json (next : RaftHardState ν)

section

variable {ν : Type} (codec : SlotCodec)

namespace HardStateFiles

variable (files : HardStateFiles ν)

def readHardStateJson : RaftHardState ν := files.json.getD {}

/-- `read_hard_state_with_commit_slots` -/
def readHardStateWithCommitSlots : RaftHardState ν × Nat :=
  let hardState := files.readHardStateJson
  let read := readHardStateCommitSlots codec files.slots hardState.currentTerm
  match read.1 with
  | some slot => ({ hardState with commitIndex := max hardState.commitIndex slot.commitIndex }, read.2)
  | none => (hardState, read.2)

/-- The hard state of a store that is opened. -/
def openStore : HardStateStore ν :=
  let read := files.readHardStateWithCommitSlots codec
  ⟨files, read.1, read.2⟩

end HardStateFiles

namespace HardStateStore

variable [DecidableEq ν] (s : HardStateStore ν)

/-- `write_hard_state_with_vote_policy_locked` up to its write; `none` is an error. -/
def plan (policy : HardStateVotePolicy) (state : RaftHardState ν) : Option (HardStateWrite ν) :=
  match s.hardState.write policy state with
  | none => none
  | some next =>
    if s.hardState = next then some .unchanged
    else if next.currentTerm = s.hardState.currentTerm && next.votedFor = s.hardState.votedFor &&
        next.commitIndex > s.hardState.commitIndex then
      if s.generation + 1 > u64Max then none
      else
        (hardStateCommitSlotBody codec (s.generation + 1) next.currentTerm next.commitIndex).map
          (.slot (s.generation + 1) next)
    else some (.json next)

omit [DecidableEq ν] in
/-- The write is done. -/
def complete (s : HardStateStore ν) : HardStateWrite ν → HardStateStore ν
  | .unchanged => s
  | .slot generation next body =>
    { files := { s.files with slots := Function.update s.files.slots (hardStateCommitSlot generation) body }
      hardState := next, generation }
  | .json next => { s with files := { s.files with json := some next }, hardState := next }

end HardStateStore

end

/-! ## A record is read back -/

theorem trimHardStateCommitSlotBytes_append {bytes : List UInt8} (padding : List UInt8)
    (hhead : ∃ b, bytes.head? = some b ∧ isPadding b = false)
    (hlast : ∃ b, bytes.getLast? = some b ∧ isPadding b = false) (hpad : ∀ b ∈ padding, isPadding b = true) :
    trimHardStateCommitSlotBytes (bytes ++ padding) = bytes := by
  have hkeep : ∀ {l : List UInt8}, (∃ b, l.head? = some b ∧ isPadding b = false) → l.dropWhile isPadding = l := by
    intro l ⟨b, hb, hn⟩
    cases l with
    | nil => rfl
    | cons a l =>
      obtain rfl := Option.some.inj hb
      exact List.dropWhile_cons_of_neg (by simp [hn])
  have hfront : (bytes ++ padding).dropWhile isPadding = bytes ++ padding := by
    refine hkeep ?_
    obtain ⟨b, hb, hn⟩ := hhead
    exact ⟨b, by rw [List.head?_append, hb]; rfl, hn⟩
  have hback : (padding.reverse ++ bytes.reverse).dropWhile isPadding = bytes.reverse := by
    rw [List.dropWhile_append_of_pos fun b hb => hpad b (List.mem_reverse.1 hb)]
    refine hkeep ?_
    rwa [List.head?_reverse]
  rw [trimHardStateCommitSlotBytes, hfront, List.reverse_append, hback, List.reverse_reverse]

section

variable {codec : SlotCodec} {generation currentTerm commitIndex : Nat}

theorem validateHardStateCommitSlot_record (currentTerm commitIndex : Nat) (h : generation ≠ 0) :
    validateHardStateCommitSlot codec (hardStateCommitSlotRecord codec generation currentTerm commitIndex) =
      .ok (hardStateCommitSlotRecord codec generation currentTerm commitIndex) := by
  simp [validateHardStateCommitSlot, hardStateCommitSlotRecord, h]

theorem readHardStateCommitSlot_body {body : List UInt8}
    (h : hardStateCommitSlotBody codec generation currentTerm commitIndex = some body) :
    readHardStateCommitSlot codec body =
      some (hardStateCommitSlotRecord codec generation currentTerm commitIndex) := by
  unfold hardStateCommitSlotBody at h
  dsimp only at h
  split at h
  · cases h
  · rename_i hgen
    split at h
    · cases h
    · obtain rfl := Option.some.inj h
      have hvalid : validateHardStateCommitSlot codec _ = _ :=
        validateHardStateCommitSlot_record currentTerm commitIndex hgen
      generalize hardStateCommitSlotRecord codec generation currentTerm commitIndex = slot at *
      have hpad : ∀ n, ∀ b ∈ 10 :: List.replicate n (32 : UInt8), isPadding b = true := by
        intro n b hb
        rcases List.mem_cons.1 hb with rfl | hb
        · rfl
        · rw [List.eq_of_mem_replicate hb]
          rfl
      have hne : codec.toVec slot ≠ [] := by
        obtain ⟨b, hb, _⟩ := codec.toVec_head slot
        intro hnil
        rw [hnil] at hb
        cases hb
      rw [List.append_assoc, List.singleton_append]
      simp only [readHardStateCommitSlot,
        trimHardStateCommitSlotBytes_append _ (codec.toVec_head slot) (codec.toVec_last slot) (hpad _), if_neg hne,
        codec.fromSlice_toVec, hvalid, Except.toOption]

theorem readHardStateCommitSlot_generation {bytes : List UInt8} {slot : RaftHardStateCommitSlot}
    (h : readHardStateCommitSlot codec bytes = some slot) : slot.generation ≠ 0 := by
  unfold readHardStateCommitSlot at h
  dsimp only at h
  split at h
  · cases h
  · split at h
    · cases h
    · unfold validateHardStateCommitSlot at h
      dsimp only at h
      split at h
      · cases h
      · rename_i hgen
        split at h
        · cases h
        · obtain rfl := Option.some.inj h
          exact hgen

end

/-! ## The best slot -/

/-- `best` is one of the slots, of the largest commit index. -/
structure IsBest (slots : List RaftHardStateCommitSlot) (best : Option RaftHardStateCommitSlot) : Prop where
  none : best = none → slots = []
  mem : ∀ slot, best = some slot → slot ∈ slots
  le : ∀ slot, best = some slot → ∀ other ∈ slots, other.commitIndex ≤ slot.commitIndex

theorem IsBest.keepBest {slots : List RaftHardStateCommitSlot} {best : Option RaftHardStateCommitSlot}
    (h : IsBest slots best) (slot : RaftHardStateCommitSlot) : IsBest (slots ++ [slot]) (keepBest best slot) := by
  unfold Raft.keepBest
  split
  · rename_i current
    have hmem := h.mem current rfl
    have hle := h.le current rfl
    split
    · rename_i hlt
      refine ⟨fun hn => (by cases hn), fun s hs => ?_, fun s hs other ho => ?_⟩
      · obtain rfl := Option.some.inj hs
        exact List.mem_append_left _ hmem
      · obtain rfl := Option.some.inj hs
        rcases List.mem_append.1 ho with ho | ho
        · exact hle other ho
        · rw [List.mem_singleton.1 ho]
          exact hlt.le
    · rename_i hlt
      refine ⟨fun hn => (by cases hn), fun s hs => ?_, fun s hs other ho => ?_⟩
      · obtain rfl := Option.some.inj hs
        simp
      · obtain rfl := Option.some.inj hs
        rcases List.mem_append.1 ho with ho | ho
        · exact (hle other ho).trans (not_lt.1 hlt)
        · rw [List.mem_singleton.1 ho]
  · have hnil := h.none rfl
    subst hnil
    refine ⟨fun hn => (by cases hn), fun s hs => ?_, fun s hs other ho => ?_⟩
    · obtain rfl := Option.some.inj hs
      simp
    · obtain rfl := Option.some.inj hs
      rw [List.mem_singleton.1 ho]

theorem isBest_foldl (slots : List RaftHardStateCommitSlot) : IsBest slots (slots.foldl keepBest none) := by
  induction slots using List.reverseRecOn with
  | nil => exact ⟨fun _ => rfl, fun _ h => (by cases h), fun _ h => (by cases h)⟩
  | append_singleton slots slot ih =>
    rw [List.foldl_append]
    exact ih.keepBest slot

section

variable {ν : Type} {codec : SlotCodec}

/-- The record a slot of the files holds. -/
def HardStateFiles.slotAt (codec : SlotCodec) (files : HardStateFiles ν) (i : Fin 2) :
    Option RaftHardStateCommitSlot :=
  readHardStateCommitSlot codec (files.slots i)

/-- What the slots give when none is of a later term than the JSON file. -/
structure HardStateFiles.Read (codec : SlotCodec) (files : HardStateFiles ν)
    (best : Option RaftHardStateCommitSlot) : Prop where
  none : best = none → ∀ i, files.slotAt codec i = none
  found : ∀ slot, best = some slot → ∃ i, files.slotAt codec i = some slot
  le : ∀ slot, best = some slot →
    ∀ i other, files.slotAt codec i = some other → other.commitIndex ≤ slot.commitIndex

theorem HardStateFiles.read_slots {files : HardStateFiles ν} {maxTerm : Nat}
    (hterm : ∀ i slot, files.slotAt codec i = some slot → slot.currentTerm ≤ maxTerm) :
    files.Read codec (readHardStateCommitSlots codec files.slots maxTerm).1 := by
  have hmem : ∀ slot, slot ∈ ([files.slots 0, files.slots 1].filterMap fun bytes =>
      (readHardStateCommitSlot codec bytes).filter fun slot => slot.currentTerm ≤ maxTerm) ↔
      ∃ i, files.slotAt codec i = some slot := by
    intro slot
    simp only [List.mem_filterMap, List.mem_cons, List.not_mem_nil, or_false, Option.filter_eq_some_iff,
      decide_eq_true_eq]
    constructor
    · intro ⟨bytes, hbytes, hread, _⟩
      rcases hbytes with rfl | rfl
      · exact ⟨0, hread⟩
      · exact ⟨1, hread⟩
    · intro ⟨i, hi⟩
      refine ⟨files.slots i, ?_, hi, hterm i slot hi⟩
      rcases i with ⟨_ | _ | n, hn⟩
      · exact .inl rfl
      · exact .inr rfl
      · omega
  unfold readHardStateCommitSlots
  dsimp only
  have hbest := isBest_foldl (([files.slots 0, files.slots 1].filterMap fun bytes =>
      (readHardStateCommitSlot codec bytes).filter fun slot => slot.currentTerm ≤ maxTerm).insertionSort
    fun a b => a.generation ≤ b.generation)
  generalize ([files.slots 0, files.slots 1].filterMap fun bytes =>
      (readHardStateCommitSlot codec bytes).filter fun slot => slot.currentTerm ≤ maxTerm) = found at *
  have hperm := List.perm_insertionSort (fun a b : RaftHardStateCommitSlot => a.generation ≤ b.generation) found
  refine ⟨fun hnone i => ?_, fun slot hslot => ?_, fun slot hslot i other hother => ?_⟩
  · have hnil : found = [] := List.perm_nil.1 (hbest.none hnone ▸ hperm).symm
    cases hi : files.slotAt codec i with
    | none => rfl
    | some slot =>
      have := (hmem slot).2 ⟨i, hi⟩
      rw [hnil] at this
      cases this
  · exact (hmem slot).1 (hperm.mem_iff.1 (hbest.mem slot hslot))
  · exact hbest.le slot hslot other (hperm.mem_iff.2 ((hmem other).2 ⟨i, hother⟩))

end

/-! ## Runs with crashes -/

/-- What was asked of a store: the commit indices of the writes that returned and
of all that were tried, the records they went to the slots with, and the last JSON
write that replaced the file. -/
structure HardStateHistory (ν : Type) where
  returned : List Nat := []
  attempted : List Nat := []
  records : List RaftHardStateCommitSlot := []
  json : RaftHardState ν := {}

namespace HardStateHistory

variable {ν : Type} (codec : SlotCodec) (H : HardStateHistory ν)

/-- A write of `state` is tried. -/
def attempt (state : RaftHardState ν) (w : HardStateWrite ν) : HardStateHistory ν :=
  { H with
    attempted := state.commitIndex :: H.attempted
    records :=
      match w with
      | .slot generation next _ =>
        hardStateCommitSlotRecord codec generation next.currentTerm next.commitIndex :: H.records
      | _ => H.records }

/-- It is cut off by a crash, before or after it has replaced the JSON file. -/
def cutOff (state : RaftHardState ν) (w : HardStateWrite ν) (replaced : Bool) : HardStateHistory ν :=
  { H.attempt codec state w with
    json :=
      match w, replaced with
      | .json next, true => next
      | _, _ => H.json }

/-- It returns. -/
def done (state : RaftHardState ν) (w : HardStateWrite ν) : HardStateHistory ν :=
  { H.cutOff codec state w true with returned := state.commitIndex :: H.returned }

/-- The largest commit index that was tried. -/
def most : Nat := H.attempted.foldr max 0

end HardStateHistory

section

variable {ν : Type} [DecidableEq ν] (codec : SlotCodec)

omit [DecidableEq ν] in
/-- The files after a crash in the middle of a write: the JSON file is the old or,
if it was `replaced`, the new one; the slot holds any bytes, but what passes its
checks is one of the `records` that go there. -/
def HardStateStore.CutOff (s : HardStateStore ν) (records : List RaftHardStateCommitSlot) (w : HardStateWrite ν)
    (replaced : Bool) (files : HardStateFiles ν) : Prop :=
  match w with
  | .unchanged => files = s.files
  | .slot generation _ _ => ∃ bytes,
      (∀ slot, readHardStateCommitSlot codec bytes = some slot →
        slot ∈ records ∧ hardStateCommitSlot slot.generation = hardStateCommitSlot generation) ∧
      files = { s.files with slots := Function.update s.files.slots (hardStateCommitSlot generation) bytes }
  | .json next => files = bif replaced then { s.files with json := some next } else s.files

/-- Runs of a store from an empty directory: writes that return, writes cut off by
a crash after which the store is opened again, and crashes between writes. -/
inductive HardStateStore.Run : HardStateStore ν → HardStateHistory ν → Prop
  | new : Run (HardStateFiles.openStore codec ⟨none, fun _ => []⟩) {}
  | write {s : HardStateStore ν} {H : HardStateHistory ν} {policy : HardStateVotePolicy} {state : RaftHardState ν}
      {w : HardStateWrite ν} (h : Run s H) (hw : s.plan codec policy state = some w) :
      Run (s.complete w) (H.done codec state w)
  | crash {s : HardStateStore ν} {H : HardStateHistory ν} {policy : HardStateVotePolicy} {state : RaftHardState ν}
      {w : HardStateWrite ν} {replaced : Bool} {files : HardStateFiles ν} (h : Run s H)
      (hw : s.plan codec policy state = some w)
      (hc : s.CutOff codec (H.attempt codec state w).records w replaced files) :
      Run (files.openStore codec) (H.cutOff codec state w replaced)
  | reopen {s : HardStateStore ν} {H : HardStateHistory ν} (h : Run s H) : Run (s.files.openStore codec) H

end

/-! ## What is on disk -/

section

variable {ν : Type} {codec : SlotCodec}

/-- The JSON file or the slot `kept` has the commit index `held`, and every record
was tried. -/
structure HardStateFiles.OnDisk (codec : SlotCodec) (files : HardStateFiles ν)
    (records : List RaftHardStateCommitSlot) (kept : Fin 2) (held : Nat) : Prop where
  slots : ∀ i slot, files.slotAt codec i = some slot → slot ∈ records
  own : ∀ i slot, files.slotAt codec i = some slot → hardStateCommitSlot slot.generation = i
  terms : ∀ slot ∈ records, slot.currentTerm ≤ files.readHardStateJson.currentTerm
  held : held ≤ files.readHardStateJson.commitIndex ∨
    ∃ slot, files.slotAt codec kept = some slot ∧ held ≤ slot.commitIndex

/-- A store in a run: the slot written next is not the one that is kept. -/
structure HardStateStore.Ok (codec : SlotCodec) (s : HardStateStore ν) (H : HardStateHistory ν) : Prop where
  onDisk : s.files.OnDisk codec H.records (hardStateCommitSlot (s.generation + 2)) s.hardState.commitIndex
  term : s.hardState.currentTerm = s.files.readHardStateJson.currentTerm
  vote : s.hardState.votedFor = s.files.readHardStateJson.votedFor
  json : H.json = s.files.readHardStateJson
  json_le : s.files.readHardStateJson.commitIndex ≤ s.hardState.commitIndex
  returned : ∀ c ∈ H.returned, c ≤ s.hardState.commitIndex
  commit_le : s.hardState.commitIndex ≤ H.most
  records_le : ∀ slot ∈ H.records, slot.commitIndex ≤ H.most

theorem hardStateCommitSlot_add_two {generation : Nat} (h : generation ≠ 0) :
    hardStateCommitSlot (generation + 2) = hardStateCommitSlot generation := by
  refine Fin.ext ?_
  show (generation + 2 - 1) % 2 = (generation - 1) % 2
  omega

theorem hardStateCommitSlot_succ_ne (generation : Nat) :
    hardStateCommitSlot (generation + 2) ≠ hardStateCommitSlot (generation + 1) := by
  intro h
  have : (generation + 2 - 1) % 2 = (generation + 1 - 1) % 2 := congrArg Fin.val h
  omega

theorem HardStateFiles.openStore_spec (files : HardStateFiles ν)
    (hterm : ∀ i slot, files.slotAt codec i = some slot → slot.currentTerm ≤ files.readHardStateJson.currentTerm) :
    ∃ best, files.Read codec best ∧ (files.openStore codec).generation = (best.map (·.generation)).getD 0 ∧
      (files.openStore codec).hardState =
        ⟨files.readHardStateJson.currentTerm, files.readHardStateJson.votedFor,
          max files.readHardStateJson.commitIndex ((best.map (·.commitIndex)).getD 0)⟩ := by
  refine ⟨_, read_slots hterm, ?_, ?_⟩
  · simp only [openStore, readHardStateWithCommitSlots]
    split <;> rfl
  · simp only [openStore, readHardStateWithCommitSlots]
    split
    · rename_i slot hslot
      rw [hslot]
      rfl
    · rename_i hslot
      rw [hslot]
      simp

/-- Opening the store finds what is held, and goes on in the other slot. -/
theorem HardStateFiles.OnDisk.openStore {files : HardStateFiles ν} (H : HardStateHistory ν) {kept : Fin 2} {held : Nat}
    (h : files.OnDisk codec H.records kept held) (hret : ∀ c ∈ H.returned, c ≤ held)
    (hrec : ∀ slot ∈ H.records, slot.commitIndex ≤ H.most) (hfile : H.json = files.readHardStateJson)
    (hjson : files.readHardStateJson.commitIndex ≤ H.most) : (files.openStore codec).Ok codec H := by
  obtain ⟨best, hread, hgen, hstate⟩ := files.openStore_spec fun i slot hi => h.terms slot (h.slots i slot hi)
  have hcommit : (files.openStore codec).hardState.commitIndex =
      max files.readHardStateJson.commitIndex ((best.map (·.commitIndex)).getD 0) := by rw [hstate]
  have hle : files.readHardStateJson.commitIndex ≤ (files.openStore codec).hardState.commitIndex :=
    hcommit ▸ le_max_left _ _
  have hheld : held ≤ (files.openStore codec).hardState.commitIndex := by
    rcases h.held with hheld | ⟨slot, hslot, hheld⟩
    · exact hheld.trans hle
    · cases hb : best with
      | none => cases (hread.none hb kept).symm.trans hslot
      | some b =>
        rw [hcommit, hb]
        exact (hheld.trans (hread.le b hb kept slot hslot)).trans (le_max_right _ _)
  refine
    { onDisk := { h with held := ?_ }
      term := by rw [hstate]; rfl
      vote := by rw [hstate]; rfl
      json := hfile
      json_le := hle
      returned := fun c hc => (hret c hc).trans hheld
      commit_le := ?_
      records_le := hrec }
  · cases hb : best with
    | none =>
      rw [hcommit, hb]
      exact .inl (max_le (le_refl _) (Nat.zero_le _))
    | some b =>
      -- the best record is where its generation goes, and the next one goes elsewhere
      obtain ⟨i, hi⟩ := hread.found b hb
      have hkept : hardStateCommitSlot ((files.openStore codec).generation + 2) = i := by
        rw [hgen, hb, ← h.own i b hi]
        exact hardStateCommitSlot_add_two (readHardStateCommitSlot_generation hi)
      rw [hkept, hcommit, hb]
      rcases le_total files.readHardStateJson.commitIndex b.commitIndex with hmax | hmax
      · exact .inr ⟨b, hi, max_le hmax (le_refl _)⟩
      · exact .inl (max_le (le_refl _) hmax)
  · rw [hcommit]
    refine max_le hjson ?_
    cases hb : best with
    | none => exact Nat.zero_le _
    | some b =>
      obtain ⟨i, hi⟩ := hread.found b hb
      exact hrec b (h.slots i b hi)

end

/-! ## Writes -/

section

variable {ν : Type} [DecidableEq ν] {codec : SlotCodec}

/-- What a write is going to do. -/
inductive HardStateStore.Planned (codec : SlotCodec) (s : HardStateStore ν) (next : RaftHardState ν) :
    HardStateWrite ν → Prop
  | unchanged (h : s.hardState = next) : Planned codec s next .unchanged
  | slot {body : List UInt8} (hterm : next.currentTerm = s.hardState.currentTerm)
      (hvote : next.votedFor = s.hardState.votedFor)
      (hbody : hardStateCommitSlotBody codec (s.generation + 1) next.currentTerm next.commitIndex = some body) :
      Planned codec s next (.slot (s.generation + 1) next body)
  | json : Planned codec s next (.json next)

theorem HardStateStore.plan_spec {s : HardStateStore ν} {policy : HardStateVotePolicy} {state : RaftHardState ν}
    {w : HardStateWrite ν} (h : s.plan codec policy state = some w) :
    ∃ next, s.hardState.write policy state = some next ∧ s.Planned codec next w := by
  unfold plan at h
  split at h
  · cases h
  · rename_i next hnext
    refine ⟨next, hnext, ?_⟩
    split at h
    · rename_i hsame
      obtain rfl := Option.some.inj h
      exact .unchanged hsame
    · split at h
      · rename_i hslot
        simp only [Bool.and_eq_true, decide_eq_true_eq] at hslot
        split at h
        · cases h
        · obtain ⟨body, hbody, rfl⟩ := Option.map_eq_some_iff.1 h
          exact .slot hslot.1.1 hslot.1.2 hbody
      · obtain rfl := Option.some.inj h
        exact .json

omit [DecidableEq ν] in
theorem HardStateHistory.most_attempt (H : HardStateHistory ν) (state : RaftHardState ν) (w : HardStateWrite ν) :
    (H.attempt codec state w).most = max state.commitIndex H.most := rfl

omit [DecidableEq ν] in
theorem HardStateFiles.slotAt_update {files : HardStateFiles ν} {i j : Fin 2} {bytes : List UInt8} :
    ({ files with slots := Function.update files.slots i bytes } : HardStateFiles ν).slotAt codec j =
      if j = i then readHardStateCommitSlot codec bytes else files.slotAt codec j := by
  unfold slotAt
  by_cases h : j = i
  · subst h
    simp
  · simp [h]

omit [DecidableEq ν] in
/-- A record, or anything else, is written to a slot; what was held stays held if
the slot was not the one kept. -/
theorem HardStateFiles.OnDisk.update {files : HardStateFiles ν} {records records' : List RaftHardStateCommitSlot}
    {kept kept' i : Fin 2} {held held' : Nat} (h : files.OnDisk codec records kept held)
    (hrec : ∀ slot ∈ records, slot ∈ records')
    (hterm : ∀ slot ∈ records', slot.currentTerm ≤ files.readHardStateJson.currentTerm) {bytes : List UInt8}
    (hbytes : ∀ slot, readHardStateCommitSlot codec bytes = some slot →
      slot ∈ records' ∧ hardStateCommitSlot slot.generation = i)
    (hheld : held' ≤ files.readHardStateJson.commitIndex ∨
      ∃ slot, (if kept' = i then readHardStateCommitSlot codec bytes else files.slotAt codec kept') = some slot ∧
        held' ≤ slot.commitIndex) :
    ({ files with slots := Function.update files.slots i bytes } : HardStateFiles ν).OnDisk codec records' kept'
      held' where
  slots j slot hj := by
    rw [slotAt_update] at hj
    split at hj
    · exact (hbytes slot hj).1
    · exact hrec slot (h.slots j slot hj)
  own j slot hj := by
    rw [slotAt_update] at hj
    split at hj
    · rename_i he
      rw [he]
      exact (hbytes slot hj).2
    · exact h.own j slot hj
  terms := hterm
  held := by
    rw [slotAt_update]
    exact hheld

omit [DecidableEq ν] in
/-- A later JSON file. -/
theorem HardStateFiles.OnDisk.json {files : HardStateFiles ν} {records : List RaftHardStateCommitSlot} {kept : Fin 2}
    {held : Nat} (h : files.OnDisk codec records kept held) {next : RaftHardState ν}
    (hterm : files.readHardStateJson.currentTerm ≤ next.currentTerm) :
    ({ files with json := some next } : HardStateFiles ν).OnDisk codec records kept next.commitIndex where
  slots := h.slots
  own := h.own
  terms slot hs := (h.terms slot hs).trans hterm
  held := .inl (le_refl _)

/-- A write of `state` is tried in a store as it should be. -/
structure HardStateStore.Tries (codec : SlotCodec) (s : HardStateStore ν) (H : HardStateHistory ν)
    (state next : RaftHardState ν) (w : HardStateWrite ν) : Prop where
  term : s.hardState.currentTerm ≤ next.currentTerm
  own : state.commitIndex ≤ next.commitIndex
  commit : s.hardState.commitIndex ≤ next.commitIndex
  most : next.commitIndex ≤ (H.attempt codec state w).most
  planned : s.Planned codec next w

theorem HardStateStore.Ok.tries {s : HardStateStore ν} {H : HardStateHistory ν} (h : s.Ok codec H)
    {policy : HardStateVotePolicy} {state : RaftHardState ν} {w : HardStateWrite ν}
    (hw : s.plan codec policy state = some w) : ∃ next, s.Tries codec H state next w := by
  obtain ⟨next, hnext, hplanned⟩ := s.plan_spec hw
  obtain ⟨hterm, hcommit⟩ := RaftHardState.write_forward hnext
  refine ⟨next, ?_, ?_, ?_, ?_, hplanned⟩
  · rw [hterm]
    exact le_max_left _ _
  · rw [hcommit]
    exact le_max_left _ _
  · rw [hcommit]
    exact le_max_right _ _
  · rw [hcommit, HardStateHistory.most_attempt]
    exact max_le_max_left _ h.commit_le

omit [DecidableEq ν] in
/-- The records of a write that goes to a slot. -/
theorem HardStateStore.Ok.records {s : HardStateStore ν} {H : HardStateHistory ν} (h : s.Ok codec H)
    {state next : RaftHardState ν} {w : HardStateWrite ν} (ht : s.Tries codec H state next w) :
    (∀ slot ∈ (H.attempt codec state w).records, slot.currentTerm ≤ s.files.readHardStateJson.currentTerm) ∧
    ∀ slot ∈ (H.attempt codec state w).records, slot.commitIndex ≤ (H.attempt codec state w).most := by
  have hold : ∀ slot ∈ H.records, slot.commitIndex ≤ (H.attempt codec state w).most := fun slot hs =>
    (h.records_le slot hs).trans (le_max_right _ _)
  have hmost := ht.most
  cases ht.planned with
  | unchanged _ => exact ⟨h.onDisk.terms, hold⟩
  | json => exact ⟨h.onDisk.terms, hold⟩
  | slot hterm _ _ =>
    constructor
    · intro slot hs
      rcases List.mem_cons.1 hs with rfl | hs
      · exact (hterm.trans h.term).le
      · exact h.onDisk.terms slot hs
    · intro slot hs
      rcases List.mem_cons.1 hs with rfl | hs
      · exact hmost
      · exact hold slot hs

/-- A write that returns. -/
theorem HardStateStore.Ok.complete {s : HardStateStore ν} {H : HardStateHistory ν} (h : s.Ok codec H)
    {policy : HardStateVotePolicy} {state : RaftHardState ν} {w : HardStateWrite ν}
    (hw : s.plan codec policy state = some w) : (s.complete w).Ok codec (H.done codec state w) := by
  obtain ⟨next, ht⟩ := h.tries hw
  obtain ⟨hterms, hrecords⟩ := h.records ht
  have hreturned : ∀ c ∈ (H.done codec state w).returned, c ≤ next.commitIndex := by
    intro c hc
    rcases List.mem_cons.1 hc with rfl | hc
    · exact ht.own
    · exact (h.returned c hc).trans ht.commit
  have hmost := ht.most
  cases ht.planned with
  | unchanged hsame =>
    have hcommit : next.commitIndex = s.hardState.commitIndex := by rw [hsame]
    exact
      { h with
        returned := fun c hc => hcommit ▸ hreturned c hc
        commit_le := hcommit ▸ hmost
        records_le := hrecords }
  | @slot body hterm hvote hbody =>
    have hread := readHardStateCommitSlot_body hbody
    have hslot : hardStateCommitSlot (s.generation + 1 + 2) = hardStateCommitSlot (s.generation + 1) :=
      hardStateCommitSlot_add_two (Nat.succ_ne_zero _)
    refine ⟨?_, hterm.trans h.term, hvote.trans h.vote, h.json, h.json_le.trans ht.commit, hreturned, hmost, hrecords⟩
    refine h.onDisk.update (fun slot hs => List.mem_cons_of_mem _ hs) hterms (fun slot hs => ?_)
      (.inr ⟨_, (if_pos hslot).trans hread, le_refl _⟩)
    obtain rfl := Option.some.inj (hread.symm.trans hs)
    exact ⟨List.mem_cons_self, rfl⟩
  | json =>
    exact ⟨h.onDisk.json (h.term ▸ ht.term), rfl, rfl, rfl, le_refl _, hreturned, hmost, hrecords⟩

/-- A write that is cut off by a crash. -/
theorem HardStateStore.Ok.crash {s : HardStateStore ν} {H : HardStateHistory ν} (h : s.Ok codec H)
    {policy : HardStateVotePolicy} {state : RaftHardState ν} {w : HardStateWrite ν}
    (hw : s.plan codec policy state = some w) {replaced : Bool} {files : HardStateFiles ν}
    (hc : s.CutOff codec (H.attempt codec state w).records w replaced files) :
    (files.openStore codec).Ok codec (H.cutOff codec state w replaced) := by
  obtain ⟨next, ht⟩ := h.tries hw
  obtain ⟨hterms, hrecords⟩ := h.records ht
  have hmost := ht.most
  have hjson : s.files.readHardStateJson.commitIndex ≤ (H.attempt codec state w).most :=
    (h.json_le.trans ht.commit).trans hmost
  cases ht.planned with
  | unchanged _ =>
    obtain rfl : files = s.files := hc
    exact h.onDisk.openStore (H.cutOff codec state _ _) h.returned hrecords h.json hjson
  | slot hterm _ _ =>
    obtain ⟨bytes, hbytes, rfl⟩ := hc
    have hkept := h.onDisk.held
    have hne := hardStateCommitSlot_succ_ne s.generation
    have hdisk := h.onDisk.update (fun slot hs => List.mem_cons_of_mem _ hs) hterms hbytes
      (hkept.imp_right fun ⟨slot, hs, hle⟩ => ⟨slot, (if_neg hne).trans hs, hle⟩)
    exact hdisk.openStore (H.cutOff codec state _ _) h.returned hrecords h.json hjson
  | json =>
    obtain rfl := hc
    cases replaced with
    | false => exact h.onDisk.openStore (H.cutOff codec state _ _) h.returned hrecords h.json hjson
    | true =>
      have hreturned : ∀ c ∈ H.returned, c ≤ next.commitIndex := fun c hc => (h.returned c hc).trans ht.commit
      exact (h.onDisk.json (h.term ▸ ht.term)).openStore (H.cutOff codec state _ _) hreturned hrecords rfl hmost

theorem HardStateStore.Run.ok {s : HardStateStore ν} {H : HardStateHistory ν} (h : HardStateStore.Run codec s H) :
    s.Ok codec H := by
  induction h with
  | new =>
    have hempty : ∀ (i : Fin 2) slot, (⟨none, fun _ => []⟩ : HardStateFiles ν).slotAt codec i ≠ some slot := by
      intro i slot hi
      cases hi
    have hdisk : (⟨none, fun _ => []⟩ : HardStateFiles ν).OnDisk codec [] 0 0 :=
      ⟨fun i slot hi => absurd hi (hempty i slot), fun i slot hi => absurd hi (hempty i slot),
        fun _ hs => (by cases hs), .inl (le_refl _)⟩
    exact hdisk.openStore {} (fun _ hc => (by cases hc)) (fun _ hs => (by cases hs)) rfl (le_refl _)
  | write _ hw ih => exact ih.complete hw
  | crash _ hw hc ih => exact ih.crash hw hc
  | reopen _ ih => exact ih.onDisk.openStore _ ih.returned ih.records_le ih.json (ih.json_le.trans ih.commit_le)

/-! ## Recovery -/

omit [DecidableEq ν] in
/-- What a store has to have: the term and the vote of the last JSON write that
replaced the file, and a commit index between those whose writes returned and the
largest one tried. -/
structure HardStateStore.Recovers (s : HardStateStore ν) (H : HardStateHistory ν) : Prop where
  term : s.hardState.currentTerm = H.json.currentTerm
  vote : s.hardState.votedFor = H.json.votedFor
  returned : ∀ c ∈ H.returned, c ≤ s.hardState.commitIndex
  attempted : s.hardState.commitIndex ≤ H.most

omit [DecidableEq ν] in
theorem HardStateStore.Ok.recovers {s : HardStateStore ν} {H : HardStateHistory ν} (h : s.Ok codec H) :
    s.Recovers H :=
  ⟨h.json ▸ h.term, h.json ▸ h.vote, h.returned, h.commit_le⟩

/-- **The hard state survives crashes.** After any writes and crashes, a store has
in memory, and finds when it is opened again, the term and the vote of the last JSON
write that was completed, or of the one that was cut off if that had replaced the
file; no commit index whose write had returned is lost, and none appears that was
not tried. -/
theorem HardStateStore.run_recovers {s : HardStateStore ν} {H : HardStateHistory ν}
    (h : HardStateStore.Run codec s H) :
    s.Recovers H ∧ (s.files.openStore codec).Recovers H ∧
    ∀ policy state w replaced files, s.plan codec policy state = some w →
      s.CutOff codec (H.attempt codec state w).records w replaced files →
      (files.openStore codec).Recovers (H.cutOff codec state w replaced) :=
  ⟨h.ok.recovers, h.reopen.ok.recovers, fun _ _ _ _ _ hw hc => (h.crash hw hc).ok.recovers⟩

end

/-! A codec, and a run in which the second slot is torn. -/

def unary : List Nat → List UInt8
  | [] => []
  | n :: ns => List.replicate n 49 ++ 44 :: unary ns

def readUnary : List UInt8 → List Nat
  | [] => []
  | b :: bytes =>
    if b = 44 then 0 :: readUnary bytes
    else
      match readUnary bytes with
      | [] => []
      | n :: ns => (n + 1) :: ns

theorem readUnary_unary (ns : List Nat) : readUnary (unary ns) = ns := by
  induction ns with
  | nil => rfl
  | cons n ns ih =>
    rw [unary]
    induction n with
    | zero => simp [readUnary, ih]
    | succ n ihn =>
      rw [List.replicate_succ, List.cons_append, readUnary, ihn]
      rfl

/-- Records in unary, with no checksum. -/
def unaryCodec : SlotCodec where
  toVec slot :=
    123 :: (unary (slot.generation :: slot.currentTerm :: slot.commitIndex :: slot.checksum.toList.map Char.toNat) ++
      [125])
  fromSlice bytes :=
    match readUnary (bytes.drop 1).dropLast with
    | generation :: currentTerm :: commitIndex :: checksum =>
      some ⟨generation, currentTerm, commitIndex, String.ofList (checksum.map Char.ofNat)⟩
    | _ => none
  sha256Hex _ := ""
  fromSlice_toVec slot := by
    simp [readUnary_unary, Function.comp_def, Char.ofNat_toNat]
  toVec_head _ := ⟨123, rfl, rfl⟩
  toVec_last slot := by
    refine ⟨125, ?_, rfl⟩
    rw [← List.cons_append, List.getLast?_concat]

namespace TornSlot

def opened : HardStateStore Nat := HardStateFiles.openStore unaryCodec ⟨none, fun _ => []⟩

def vote : RaftHardState Nat := ⟨1, some 7, 0⟩

def voted : HardStateStore Nat := opened.complete (.json vote)

def commit (index : Nat) : RaftHardState Nat := { vote with commitIndex := index }

def body (generation index : Nat) : List UInt8 := (hardStateCommitSlotBody unaryCodec generation 1 index).getD []

def committed : HardStateStore Nat := voted.complete (.slot 1 (commit 4) (body 1 4))

def torn : HardStateFiles Nat :=
  { committed.files with slots := Function.update committed.files.slots (hardStateCommitSlot 2) [123, 49] }

theorem plan_vote : opened.plan unaryCodec .preserveSameTermVote vote = some (.json vote) := by rfl

theorem plan_commit :
    voted.plan unaryCodec .preserveSameTermVote (commit 4) = some (.slot 1 (commit 4) (body 1 4)) := by
  rfl

theorem plan_next :
    committed.plan unaryCodec .preserveSameTermVote (commit 6) = some (.slot 2 (commit 6) (body 2 6)) := by
  rfl

theorem run : HardStateStore.Run unaryCodec committed
    (HardStateHistory.done unaryCodec (HardStateHistory.done unaryCodec {} vote (.json vote)) (commit 4)
      (.slot 1 (commit 4) (body 1 4))) :=
  .write (.write .new plan_vote) plan_commit

end TornSlot

/-- The commit index 4 was written; writing 6 is cut off, and leaves no record. -/
theorem HardStateStore.run_recovers_tornSlot :
    4 ≤ (TornSlot.torn.openStore unaryCodec).hardState.commitIndex ∧
      (TornSlot.torn.openStore unaryCodec).hardState.commitIndex ≤ 6 ∧
      (TornSlot.torn.openStore unaryCodec).hardState.votedFor = some 7 := by
  have h := (HardStateStore.run_recovers TornSlot.run).2.2 _ _ _ false TornSlot.torn TornSlot.plan_next
    ⟨[123, 49], fun _ h => (by cases h), rfl⟩
  exact ⟨h.returned 4 List.mem_cons_self, h.attempted, h.vote⟩

end LiveMutex.Raft
