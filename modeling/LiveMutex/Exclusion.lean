/-
Mutual exclusion: in every reachable state a key is held in one way at most
(exclusively, by readers, or by a writer), and by no more exclusive holders
than the broker-wide cap.
-/
import LiveMutex.Sample

namespace LiveMutex

/-- One way of holding at a time, within the cap. -/
structure LockState.Sound (cfg : BrokerConfig) (l : LockState) : Prop where
  writer_alone : l.writer.isSome = true → l.readers.isEmpty = true ∧ l.exclusiveHolders.isEmpty = true
  readers_alone : l.readers.isEmpty = true ∨ l.exclusiveHolders.isEmpty = true
  size_le : l.exclusiveHolders.size ≤ cfg.cap
  max_pos : 1 ≤ l.max
  max_le : l.max ≤ cfg.cap

theorem BrokerConfig.one_le_cap (cfg : BrokerConfig) : 1 ≤ cfg.cap := Nat.le_max_right _ _

theorem BrokerConfig.cap_lt (cfg : BrokerConfig) : cfg.cap < 2 ^ 32 :=
  Nat.max_lt.2 ⟨cfg.maxConcurrencyCap_lt, by decide⟩

namespace LockState

variable {cfg : BrokerConfig} {l l' : LockState}

/-- Fewer holders on the key are as sound. -/
theorem Sound.shrink (h : l.Sound cfg) (he : l.exclusiveHolders.isEmpty = true → l'.exclusiveHolders.isEmpty = true)
    (hs : l'.exclusiveHolders.size ≤ l.exclusiveHolders.size)
    (hr : l.readers.isEmpty = true → l'.readers.isEmpty = true)
    (hw : l'.writer.isSome = true → l.writer.isSome = true) (h1 : 1 ≤ l'.max) (hm : l'.max ≤ cfg.cap) :
    l'.Sound cfg where
  writer_alone hw' := (h.writer_alone (hw hw')).imp hr he
  readers_alone := h.readers_alone.imp hr he
  size_le := hs.trans h.size_le
  max_pos := h1
  max_le := hm

/-- The same holders are as sound. -/
theorem Sound.congr (h : l.Sound cfg) (he : l'.exclusiveHolders = l.exclusiveHolders)
    (hr : l'.readers = l.readers) (hw : l'.writer = l.writer) (h1 : 1 ≤ l'.max) (hm : l'.max ≤ cfg.cap) :
    l'.Sound cfg :=
  h.shrink (by rw [he]; exact id) (by rw [he]) (by rw [hr]; exact id) (by rw [hw]; exact id) h1 hm

/-- A key with nobody on it. -/
theorem Sound.of_empty (he : l.exclusiveHolders.isEmpty = true) (hr : l.readers.isEmpty = true)
    (h1 : 1 ≤ l.max) (hm : l.max ≤ cfg.cap) : l.Sound cfg where
  writer_alone _ := ⟨hr, he⟩
  readers_alone := .inl hr
  size_le := by rw [OrdMap.size_eq_zero_iff.2 he]; exact Nat.zero_le _
  max_pos := h1
  max_le := hm

/-- Every admission test lets in only what the key can take. -/
theorem Sound.take {terms : Terms} {g : Grant} (h : l.Sound cfg) (ha : l.admits terms.mode = true) :
    (l.take terms g).Sound cfg := by
  unfold LockState.take
  dsimp only
  rw [nextOrForcedFencingToken_eq]
  generalize (l.nextOrForcedFencingToken terms.forced).1.fencingCounter = counter
  cases hm : terms.mode <;> rw [hm] at ha
  case exclusive =>
    simp only [admits, Bool.and_eq_true, Option.isNone_iff_eq_none, decide_eq_true_eq] at ha
    obtain ⟨⟨hw, hr⟩, hlt⟩ := ha
    -- the count of holders is below the cap, so reading it as a `u32` changes nothing
    have hsize : asU32 l.exclusiveHolders.size = l.exclusiveHolders.size :=
      Nat.mod_eq_of_lt (h.size_le.trans_lt cfg.cap_lt)
    rw [hsize] at hlt
    exact
      { writer_alone := by simp [holdExclusive, hw]
        readers_alone := .inl hr
        size_le := Std.ExtTreeMap.size_insert_le.trans (Nat.succ_le_of_lt (hlt.trans_le h.max_le))
        max_pos := h.max_pos
        max_le := h.max_le }
  case member =>
    simp only [admits, vacant, Bool.and_eq_true, Option.isNone_iff_eq_none] at ha
    obtain ⟨⟨hw, hr⟩, he⟩ := ha
    exact
      { writer_alone := by simp [holdExclusive, hw]
        readers_alone := .inl hr
        size_le := Std.ExtTreeMap.size_insert_le.trans
          (by rw [OrdMap.size_eq_zero_iff.2 he]; exact cfg.one_le_cap)
        max_pos := h.max_pos
        max_le := h.max_le }
  case reader =>
    simp only [admits, Bool.and_eq_true, Option.isNone_iff_eq_none] at ha
    obtain ⟨hw, he⟩ := ha
    exact
      { writer_alone := by simp [holdReader, hw]
        readers_alone := .inr he
        size_le := h.size_le
        max_pos := h.max_pos
        max_le := h.max_le }
  case writer =>
    simp only [admits, vacant, Bool.and_eq_true] at ha
    exact .of_empty ha.2 ha.1.2 h.max_pos h.max_le

theorem Sound.of_fresh {floor : Nat} (hf : l.Fresh cfg floor) : l.Sound cfg :=
  .of_empty (by rw [hf.exclusiveHolders]; simp) (by rw [hf.readers]; simp) hf.one_le_max hf.max_le

theorem Sound.removeForKind (h : l.Sound cfg) (u : String) (kind : RwHoldKind) :
    (l.removeForKind u kind).Sound cfg := by
  cases kind with
  | exclusive =>
    exact h.shrink (fun he => OrdMap.isEmpty_erase he u) Std.ExtTreeMap.size_erase_le id id h.max_pos h.max_le
  | read => exact h.shrink id le_rfl (fun hr => OrdMap.isEmpty_erase hr u) id h.max_pos h.max_le
  | write =>
    unfold LockState.removeForKind
    dsimp only
    split
    · exact h.shrink id le_rfl id (by simp [clearWriter]) h.max_pos h.max_le
    · exact h

theorem Sound.kept (cfg : BrokerConfig) : Kept cfg (fun _ => True) fun _ l => l.Sound cfg where
  fresh hf := .of_fresh hf
  setMax h h1 hm := h.congr rfl rfl rfl h1 hm
  stamp h _ := h.congr rfl rfl rfl h.max_pos h.max_le
  take h ha _ := h.take ha
  pop h := h.congr rfl rfl rfl h.max_pos h.max_le
  push h _ _ := h.congr rfl rfl rfl h.max_pos h.max_le
  pushFirst h _ _ := h.congr rfl rfl rfl h.max_pos h.max_le
  moved _ _ _ _ h := h.congr rfl rfl rfl h.max_pos h.max_le
  removeWaiter h := h.congr rfl rfl rfl h.max_pos h.max_le
  removeForKind h := h.removeForKind _ _
  wipe h := .of_empty (by simp [LockState.wipe]) (by simp [LockState.wipe]) h.max_pos h.max_le
  detachOwner h := by
    refine h.shrink ?_ ?_ ?_ ?_ h.max_pos h.max_le
    · simp [LockState.detachOwner, OrdMap.isEmpty_modify]
    · exact Std.ExtTreeMap.size_modify.le
    · simp [LockState.detachOwner, OrdMap.isEmpty_modify]
    · simp [LockState.detachOwner]

theorem Sound.restore (h : l.Sound cfg) (key : String) (now : Instant) :
    ((l.snapshot key).restore cfg.cap now).Sound cfg := by
  have hmax := restore_max l key cfg.cap now cfg.one_le_cap
  refine h.shrink ?_ ?_ ?_ ?_ hmax.1 hmax.2
  · rw [restore_exclusiveHolders, OrdMap.isEmpty_map]; exact id
  · rw [restore_exclusiveHolders, Std.ExtTreeMap.size_map]
  · rw [restore_readers, OrdMap.isEmpty_map]; exact id
  · rw [restore_writer]; simp

end LockState

/-- **Mutual exclusion.** In every reachable state, a key has exclusive
holders, or readers, or a writer, never two of these; and no more exclusive
holders than the cap. -/
theorem Broker.Reachable.mutualExclusion {cfg : BrokerConfig} {b : Broker} (h : Reachable cfg b)
    {key : String} {l : LockState} (hl : b.locks[key]? = some l) :
    ¬(l.exclusiveHolders.isEmpty = false ∧ l.readers.isEmpty = false) ∧
    ¬(l.exclusiveHolders.isEmpty = false ∧ l.writer.isSome = true) ∧
    ¬(l.readers.isEmpty = false ∧ l.writer.isSome = true) ∧
    l.exclusiveHolders.size ≤ max cfg.maxConcurrencyCap 1 := by
  have hs := (LockState.Sound.kept cfg).reachable (fun key _ now h => h.restore key now) h key l hl
  refine ⟨?_, ?_, ?_, hs.size_le⟩
  · rintro ⟨he, hr⟩
    rcases hs.readers_alone with h | h
    · rw [hr] at h; cases h
    · rw [he] at h; cases h
  · rintro ⟨he, hw⟩
    rw [(hs.writer_alone hw).2] at he; cases he
  · rintro ⟨hr, hw⟩
    rw [(hs.writer_alone hw).1] at hr; cases hr

/-- At a key with two readers. -/
theorem Broker.Reachable.mutualExclusion_two_readers :
    ∃ l, (Sample.after [Sample.ask 1 (.registerRead "r" "k"), Sample.ask 2 (.registerRead "s" "k")]).locks["k"]? =
        some l ∧ l.readers.size = 2 ∧
      ¬(l.exclusiveHolders.isEmpty = false ∧ l.readers.isEmpty = false) ∧
      ¬(l.exclusiveHolders.isEmpty = false ∧ l.writer.isSome = true) ∧
      ¬(l.readers.isEmpty = false ∧ l.writer.isSome = true) ∧
      l.exclusiveHolders.size ≤ max Sample.config.maxConcurrencyCap 1 := by
  have hs : ((Sample.after [Sample.ask 1 (.registerRead "r" "k"),
      Sample.ask 2 (.registerRead "s" "k")]).locks["k"]?.map fun l => l.readers.size) = some 2 := by
    decide +kernel
  obtain ⟨l, hl, hsize⟩ := Option.map_eq_some_iff.1 hs
  exact ⟨l, hl, hsize, Broker.Reachable.mutualExclusion (Sample.reachable_after _) hl⟩

end LiveMutex
