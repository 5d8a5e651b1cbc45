/-
The request ids of a log: which one was first used where, and that a suffix the
store has checked can be added behind what it keeps.

The store keeps every id with the index of its first use, so that cutting the log
at an index can drop the ids first used behind it. That is the map one would
collect from what is kept, because in a log the first use comes first.
-/
import LiveMutex.Lib.Vec
import LiveMutex.Raft.LogStore

namespace LiveMutex.Raft

/-! ## Cutting a log at an index -/

section Cuts

variable {α : Type} {l r : List (RaftLogEntry α)} {e : RaftLogEntry α} {n d : Nat}

/-- The entries stand in the order of their indexes. -/
def Ordered (l : List (RaftLogEntry α)) : Prop := l.Pairwise fun a b => a.index ≤ b.index

/-- The entries behind an index. -/
def behind (n : Nat) (l : List (RaftLogEntry α)) : List (RaftLogEntry α) := l.drop (retainedEntryUpperBound l n)

theorem behind_eq : behind n l = l.dropWhile (·.index ≤ n) := Vec.drop_length_takeWhile

theorem take_lowerBound : l.take (retainedEntryLowerBound l d) = l.takeWhile (·.index < d) := Vec.take_length_takeWhile

theorem drop_lowerBound : l.drop (retainedEntryLowerBound l d) = l.dropWhile (·.index < d) := Vec.drop_length_takeWhile

theorem behind_append (hr : ∀ e ∈ r, n < e.index) : behind n (l ++ r) = behind n l ++ r := by
  rw [behind_eq, behind_eq]
  exact Vec.dropWhile_append_of_not fun e he => by simpa using hr e he

theorem behind_self (hr : ∀ e ∈ r, n < e.index) : behind n r = r := by
  simpa [behind] using behind_append (l := []) hr

theorem Ordered.lt_of_mem_behind (h : Ordered l) (he : e ∈ behind n l) : n < e.index := by
  rw [behind_eq] at he
  have hnot := Vec.not_of_mem_dropWhile h (fun a b hab hb => by simp only [decide_eq_true_eq] at hb ⊢; omega) he
  simpa using hnot

theorem behind_subset (he : e ∈ behind n l) : e ∈ l := List.drop_subset _ _ he

theorem lt_of_mem_take (he : e ∈ l.take (retainedEntryLowerBound l d)) : e.index < d := by
  rw [take_lowerBound] at he
  simpa using List.mem_takeWhile_imp he

theorem Ordered.le_of_mem_drop (h : Ordered l) (he : e ∈ l.drop (retainedEntryLowerBound l d)) : d ≤ e.index := by
  rw [drop_lowerBound] at he
  have hnot := Vec.not_of_mem_dropWhile h (fun a b hab hb => by simp only [decide_eq_true_eq] at hb ⊢; omega) he
  simpa using hnot

theorem Ordered.le_getLast (h : Ordered l) {b : RaftLogEntry α} (hb : l.getLast? = some b) (he : e ∈ l) :
    e.index ≤ b.index := by
  obtain ⟨init, rfl⟩ : ∃ init, l = init ++ [b] := ⟨_, (List.dropLast_append_getLast? b hb).symm⟩
  rcases List.mem_append.1 he with he | he
  · exact (List.pairwise_append.1 h).2.2 e he b (by simp)
  · rw [List.mem_singleton.1 he]

end Cuts

/-! ## First uses -/

section Uses

variable {κ π : Type} {codec : StoreCodec κ π} {l r es : List (LogEntry κ)} {id : String} {n : Nat}
  {m m' : OrdMap String RetainedRequestIdentityFingerprint} {f : RetainedRequestIdentityFingerprint}

/-- An entry's use of a request id. -/
def useOf (codec : StoreCodec κ π) (id : String) (entry : LogEntry κ) : Option RetainedRequestIdentityFingerprint :=
  ((codec.requestIdentity entry.command.command).filter (·.requestId == id)).map fun identity =>
    ⟨identity.requestFingerprint, entry.index⟩

def firstUse (codec : StoreCodec κ π) (id : String) (entries : List (LogEntry κ)) :
    Option RetainedRequestIdentityFingerprint :=
  entries.findSome? (useOf codec id)

theorem useOf_index {entry : LogEntry κ} (h : useOf codec id entry = some f) : f.firstIndex = entry.index := by
  simp only [useOf, Option.map_eq_some_iff] at h
  obtain ⟨_, _, rfl⟩ := h
  rfl

theorem firstUse_index (h : firstUse codec id es = some f) : ∃ entry ∈ es, f.firstIndex = entry.index := by
  obtain ⟨entry, hmem, huse⟩ := List.exists_of_findSome?_eq_some h
  exact ⟨entry, hmem, useOf_index huse⟩

/-- Every use in the map comes before the entries. -/
def UsedBefore (m : OrdMap String RetainedRequestIdentityFingerprint) (es : List (LogEntry κ)) : Prop :=
  ∀ (id : String) f, m[id]? = some f → ∀ entry ∈ es, f.firstIndex ≤ entry.index

theorem UsedBefore.insert {entry : LogEntry κ} (h : UsedBefore m es) (ho : Ordered (entry :: es))
    {fingerprint : String} {i : Nat} (hi : i ≤ entry.index) : UsedBefore (m.insert id ⟨fingerprint, i⟩) es := by
  intro id' f hf e he
  rw [OrdMap.get_insert] at hf
  split at hf
  · cases hf
    exact Nat.le_trans hi (List.rel_of_pairwise_cons ho he)
  · exact h id' f hf e he

theorem UsedBefore.tail {entry : LogEntry κ} (h : UsedBefore m (entry :: es)) : UsedBefore m es :=
  fun id f hf e he => h id f hf e (List.mem_cons_of_mem _ he)

/-- What is collected: the uses that were known, and the first of the others. -/
theorem add_get (id : String) (hm : UsedBefore m es) (ho : Ordered es)
    (hok : (addRetainedRequestIdentityEntries codec m es).1 = .ok ()) :
    (addRetainedRequestIdentityEntries codec m es).2[id]? = m[id]?.or (firstUse codec id es) := by
  induction es generalizing m with
  | nil => simp [addRetainedRequestIdentityEntries, firstUse]
  | cons entry es ih =>
    have ho' : Ordered es := List.Pairwise.of_cons ho
    simp only [firstUse, List.findSome?_cons]
    cases hident : codec.requestIdentity entry.command.command with
    | none =>
      simp only [addRetainedRequestIdentityEntries, hident, useOf, Option.filter_none, Option.map_none] at hok ⊢
      exact ih hm.tail ho' hok
    | some identity =>
      cases hprev : m[identity.requestId]? with
      | none =>
        simp only [addRetainedRequestIdentityEntries, hident, hprev] at hok ⊢
        rw [ih (hm.tail.insert ho (Nat.le_refl _)) ho' hok, OrdMap.get_insert]
        by_cases hid : identity.requestId = id
        · subst hid
          simp [useOf, hident, hprev, Option.filter_some]
        · simp [useOf, hident, hid, Option.filter_some, firstUse]
      | some previous =>
        simp only [addRetainedRequestIdentityEntries, hident, hprev] at hok ⊢
        split at hok
        · cases hok
        rename_i hsame
        have hle : previous.firstIndex ≤ entry.index := hm _ _ hprev entry (by simp)
        rw [if_neg hsame]
        rw [Nat.min_eq_left hle] at hok ⊢
        have hself : m.insert identity.requestId { previous with firstIndex := previous.firstIndex } = m :=
          OrdMap.insert_get hprev
        rw [hself] at hok ⊢
        rw [ih hm.tail ho' hok]
        by_cases hid : identity.requestId = id
        · subst hid
          simp [hprev]
        · simp [useOf, hident, hid, Option.filter_some, firstUse]

/-- Adding one list behind the other. -/
theorem add_append : addRetainedRequestIdentityEntries codec m (l ++ r) =
    match addRetainedRequestIdentityEntries codec m l with
    | (.ok _, m') => addRetainedRequestIdentityEntries codec m' r
    | (.error err, m') => (.error err, m') := by
  induction l generalizing m with
  | nil => rfl
  | cons entry l ih =>
    rw [List.cons_append, addRetainedRequestIdentityEntries, addRetainedRequestIdentityEntries]
    cases codec.requestIdentity entry.command.command with
    | none => exact ih
    | some identity =>
      cases hprev : m[identity.requestId]? with
      | none =>
        simp only [hprev]
        exact ih
      | some previous =>
        simp only [hprev]
        by_cases hsame : previous.requestFingerprint ≠ identity.requestFingerprint
        · simp only [if_pos hsame]
        · simp only [if_neg hsame]
          exact ih

/-- What can be added in one go can be added in two. -/
theorem add_append_ok (h : addRetainedRequestIdentityEntries codec m (l ++ r) = (.ok (), m')) :
    ∃ m'', addRetainedRequestIdentityEntries codec m l = (.ok (), m'') ∧
      addRetainedRequestIdentityEntries codec m'' r = (.ok (), m') := by
  rw [add_append] at h
  split at h
  · rename_i m'' hl
    exact ⟨m'', hl, h⟩
  · cases h

/-! ## Cutting the uses -/

theorem get_truncate : (truncateRetainedRequestIdentityFingerprints m n)[id]? =
    m[id]?.filter fun f => 0 < n && f.firstIndex ≤ n := by
  unfold truncateRetainedRequestIdentityFingerprints
  split
  · rename_i h0
    subst h0
    simp
  · rename_i h0
    rw [Std.ExtTreeMap.getElem?_filter']
    congr 1
    funext f
    simp [Nat.pos_of_ne_zero h0]

/-- Cut behind every use, the map stays. -/
theorem truncate_eq_self (h : ∀ (id : String) f, m[id]? = some f → 0 < n ∧ f.firstIndex ≤ n) :
    truncateRetainedRequestIdentityFingerprints m n = m := by
  refine OrdMap.eq_of_get fun id => ?_
  rw [get_truncate]
  cases hf : m[id]? with
  | none => rfl
  | some f =>
    have := h id f hf
    simp [Option.filter_some, this]

/-- **The uses of what is kept.** Cut at the end of what is kept, the uses of a log
are those of its kept part. -/
theorem truncate_add (ho : Ordered (l ++ r)) (hadd : addRetainedRequestIdentityEntries codec ∅ (l ++ r) = (.ok (), m))
    (hl : ∀ e ∈ l, 0 < n ∧ e.index ≤ n) (hr : ∀ e ∈ r, n < e.index) :
    addRetainedRequestIdentityEntries codec ∅ l = (.ok (), truncateRetainedRequestIdentityFingerprints m n) := by
  obtain ⟨m', hl', -⟩ := add_append_ok hadd
  have hnone : ∀ es : List (LogEntry κ), UsedBefore ∅ es := fun es id f hf => by simp at hf
  have hm : ∀ id : String, m[id]? = (firstUse codec id l).or (firstUse codec id r) := by
    intro id
    have h := add_get id (hnone _) ho (by rw [hadd])
    rw [hadd] at h
    simpa [firstUse, List.findSome?_append] using h
  have hm' : ∀ id : String, m'[id]? = firstUse codec id l := by
    intro id
    have h := add_get id (hnone _) (List.pairwise_append.1 ho).1 (by rw [hl'])
    rw [hl'] at h
    simpa using h
  rw [hl', Prod.mk.injEq]
  refine ⟨rfl, OrdMap.eq_of_get fun id => ?_⟩
  rw [hm', get_truncate, hm]
  cases hfl : firstUse codec id l with
  | some f =>
    obtain ⟨entry, hmem, hindex⟩ := firstUse_index hfl
    have := hl entry hmem
    simp [Option.filter_some, hindex, this]
  | none =>
    cases hfr : firstUse codec id r with
    | none => rfl
    | some f =>
      obtain ⟨entry, hmem, hindex⟩ := firstUse_index hfr
      have := hr entry hmem
      simp [Option.filter_some, hindex, Nat.not_le.2 this]

/-! ## A suffix that passes its check can be added -/

/-- What the map and the suffix so far say about an id, they say alike. -/
def KnownIn (cut : OrdMap String RetainedRequestIdentityFingerprint) (incoming : OrdMap String String)
    (m : OrdMap String RetainedRequestIdentityFingerprint) : Prop :=
  ∀ (id : String) f, m[id]? = some f →
    cut[id]?.map (·.requestFingerprint) = some f.requestFingerprint ∨ incoming[id]? = some f.requestFingerprint

theorem KnownIn.insert {cut : OrdMap String RetainedRequestIdentityFingerprint} {incoming : OrdMap String String}
    (h : KnownIn cut incoming m) {fingerprint : String} {i : Nat} :
    KnownIn cut (incoming.insert id fingerprint) (m.insert id ⟨fingerprint, i⟩) := by
  intro id' f hf
  by_cases hid : id = id'
  · subst hid
    rw [OrdMap.get_insert, if_pos rfl] at hf
    cases hf
    exact .inr (by rw [OrdMap.get_insert, if_pos rfl])
  · rw [OrdMap.get_insert_ne _ _ hid] at hf ⊢
    exact h id' f hf

theorem add_ok_of_validate {snapshot incoming : OrdMap String String}
    {retained : OrdMap String RetainedRequestIdentityFingerprint}
    (hknown : KnownIn (truncateRetainedRequestIdentityFingerprints retained n) incoming m)
    (hok : validateSuffixIdentities codec snapshot retained n incoming es = .ok ()) :
    (addRetainedRequestIdentityEntries codec m es).1 = .ok () := by
  induction es generalizing m incoming with
  | nil => rfl
  | cons entry es ih =>
    rw [validateSuffixIdentities] at hok
    rw [addRetainedRequestIdentityEntries]
    cases hident : codec.requestIdentity entry.command.command with
    | none =>
      simp only [hident] at hok ⊢
      exact ih hknown hok
    | some identity =>
      simp only [hident] at hok ⊢
      split at hok
      · cases hok
      split at hok
      · cases hok
      rename_i hretained
      split at hok
      · cases hok
      rename_i hincoming
      cases hprev : m[identity.requestId]? with
      | none => exact ih hknown.insert hok
      | some previous =>
        -- a use that is known was compared with this one
        have hsame : previous.requestFingerprint = identity.requestFingerprint := by
          rcases hknown _ _ hprev with hcut | hin
          · rw [get_truncate] at hcut
            obtain ⟨g, hg, hgf⟩ := Option.map_eq_some_iff.1 hcut
            simp only [hg, Option.any_some, decide_not, Bool.not_eq_true', decide_eq_false_iff_not, not_not] at hretained
            rw [← hgf, hretained]
          · simpa [hin] using hincoming
        simp only [hsame, ne_eq, not_true_eq_false, if_false]
        have hnext : KnownIn (truncateRetainedRequestIdentityFingerprints retained n)
            (incoming.insert identity.requestId previous.requestFingerprint)
            (m.insert identity.requestId ⟨previous.requestFingerprint, min previous.firstIndex entry.index⟩) :=
          hknown.insert
        rw [hsame] at hnext
        exact ih hnext hok

theorem add_of_noIdentities (h : entriesHaveClientRequestIdentities codec es = false) :
    addRetainedRequestIdentityEntries codec m es = (.ok (), m) := by
  induction es with
  | nil => rfl
  | cons entry es ih =>
    simp only [entriesHaveClientRequestIdentities, List.any_cons, Bool.or_eq_false_iff] at h
    rw [addRetainedRequestIdentityEntries, Option.isSome_eq_false_iff.1 h.1 |> Option.isNone_iff_eq_none.1]
    exact ih h.2

/-- A suffix that passes its check can be added behind what is kept. -/
theorem add_ok_of_context {snapshot : OrdMap String String}
    (h : validateRepairedRequestIdentityContext codec snapshot m n es = .ok ()) :
    (addRetainedRequestIdentityEntries codec (truncateRetainedRequestIdentityFingerprints m n) es).1 = .ok () := by
  unfold validateRepairedRequestIdentityContext at h
  split at h
  · rename_i hno
    rw [add_of_noIdentities (by simpa using hno)]
  · refine add_ok_of_validate (fun id f hf => .inl ?_) h
    rw [hf, Option.map_some]

/-- Entries that agree with a snapshot's responses agree with each other. -/
theorem add_ok_of_client {fingerprints : OrdMap String String}
    (hknown : ∀ (id : String) f, m[id]? = some f → fingerprints[id]? = some f.requestFingerprint)
    {fingerprints' : OrdMap String String} (hok : addClientRequestIdentityEntries codec fingerprints es = .ok fingerprints') :
    (addRetainedRequestIdentityEntries codec m es).1 = .ok () := by
  induction es generalizing m fingerprints with
  | nil => rfl
  | cons entry es ih =>
    rw [addClientRequestIdentityEntries] at hok
    rw [addRetainedRequestIdentityEntries]
    cases hident : codec.requestIdentity entry.command.command with
    | none =>
      simp only [hident] at hok ⊢
      exact ih hknown hok
    | some identity =>
      simp only [hident] at hok ⊢
      cases hprev : m[identity.requestId]? with
      | some previous =>
        have hfp := hknown _ _ hprev
        simp only [hfp] at hok
        split at hok
        · cases hok
        rename_i hsame
        simp only [if_neg hsame]
        refine ih (fun id f hf => ?_) hok
        by_cases hid : identity.requestId = id
        · subst hid
          rw [OrdMap.get_insert, if_pos rfl] at hf
          cases hf
          exact hfp
        · rw [OrdMap.get_insert_ne _ _ hid] at hf
          exact hknown id f hf
      | none =>
        -- the snapshot may know the id, but then it knows this fingerprint
        have hnew : ∃ next, addClientRequestIdentityEntries codec next es = .ok fingerprints' ∧
            next[identity.requestId]? = some identity.requestFingerprint ∧
            ∀ id, identity.requestId ≠ id → next[id]? = fingerprints[id]? := by
          cases hfp : fingerprints[identity.requestId]? with
          | some known =>
            simp only [hfp] at hok
            split at hok
            · cases hok
            rename_i hsame
            exact ⟨fingerprints, hok, by simpa [hfp] using hsame, fun _ _ => rfl⟩
          | none =>
            simp only [hfp] at hok
            exact ⟨_, hok, by rw [OrdMap.get_insert, if_pos rfl], fun id hid => OrdMap.get_insert_ne _ _ hid⟩
        obtain ⟨next, hok, hid, hother⟩ := hnew
        refine ih (fun id f hf => ?_) hok
        by_cases hsame : identity.requestId = id
        · subst hsame
          rw [OrdMap.get_insert, if_pos rfl] at hf
          cases hf
          exact hid
        · rw [OrdMap.get_insert_ne _ _ hsame] at hf
          rw [hother id hsame]
          exact hknown id f hf

end Uses

end LiveMutex.Raft
