/-
How far the log is old enough to be compacted. The scan remembers where it stopped,
and resumes there as long as time and the ceiling have only moved on.

What is remembered is a beginning of the retained entries that passed (`AgeOk`).
Appends leave it in place; whatever else changes the entries forgets it. For that the
indexes have to rise, which they do but for the last `u64`, where a local append
stays: entries there are skipped together, and stand for the same index.

* `StoreOp.ageChange`: what an operation does to the entries and the cache;
* `compactThroughForRetainedAge_eq_scan`: behind any sequence of operations and scans,
  the next scan finds what one over all retained entries would.
-/
import LiveMutex.Raft.StoreExact

namespace LiveMutex.Raft

variable {κ π : Type}

/-- The loop over the entries that are not known to be old enough. -/
def ageScan (oldestRetainedMs maxThroughIndex : Nat) : Option Nat → List (LogEntry κ) → Option Nat
  | compactThrough, [] => compactThrough
  | compactThrough, entry :: entries =>
    if maxThroughIndex < entry.index then compactThrough
    else if oldestRetainedMs < entry.command.createdAtMs then compactThrough
    else ageScan oldestRetainedMs maxThroughIndex (some entry.index) entries

/-- The scan, from behind what the cache has if that still holds: the same age, no
earlier time, no lower ceiling, and an index that is retained. -/
def resumeAgeScan (entries : List (LogEntry κ)) (cache : Option RetainedAgeCompactionCache)
    (maxAgeMs oldestRetainedMs maxThroughIndex : Nat) : Option Nat :=
  match cache with
  | none => ageScan oldestRetainedMs maxThroughIndex none entries
  | some cached =>
    if cached.maxAgeMs = maxAgeMs ∧ cached.oldestRetainedMs ≤ oldestRetainedMs ∧
        cached.maxThroughIndex ≤ maxThroughIndex ∧
        cached.eligibleIndex.all (fun index => (retainedEntryAt entries index).isSome) then
      let startPos := (cached.eligibleIndex.map (retainedEntryUpperBound entries)).getD 0
      ageScan oldestRetainedMs maxThroughIndex cached.eligibleIndex (entries.drop startPos)
    else ageScan oldestRetainedMs maxThroughIndex none entries

def compactThroughForRetainedAgeCachedIncremental (entries : List (LogEntry κ))
    (cache : Option RetainedAgeCompactionCache) (nowMs maxAgeMs maxThroughIndex : Nat) :
    Option Nat × Option RetainedAgeCompactionCache :=
  if maxAgeMs = 0 ∨ maxThroughIndex = 0 then (none, none)
  else
    let oldestRetainedMs := nowMs - maxAgeMs
    let compactThrough := resumeAgeScan entries cache maxAgeMs oldestRetainedMs maxThroughIndex
    (compactThrough, some { maxAgeMs, oldestRetainedMs, maxThroughIndex, eligibleIndex := compactThrough })

def RaftLogStore.compactThroughForRetainedAge (s : RaftLogStore κ) (nowMs maxAgeMs maxThroughIndex : Nat) :
    Option Nat × RaftLogStore κ :=
  let found := compactThroughForRetainedAgeCachedIncremental s.retainedLogEntries s.ageCompactionCache nowMs maxAgeMs
    maxThroughIndex
  (found.1, { s with ageCompactionCache := found.2 })

/-- Old enough, and not above the ceiling. -/
def OldEnough (oldestRetainedMs maxThroughIndex : Nat) (entry : LogEntry κ) : Prop :=
  entry.index ≤ maxThroughIndex ∧ entry.command.createdAtMs ≤ oldestRetainedMs

instance instDecidableOldEnough (oldestRetainedMs maxThroughIndex : Nat) (entry : LogEntry κ) :
    Decidable (OldEnough oldestRetainedMs maxThroughIndex entry) :=
  inferInstanceAs (Decidable (_ ∧ _))

/-- A full scan: the last index of the longest beginning of the entries that are all
old enough. -/
def lastOldEnough (entries : List (LogEntry κ)) (nowMs maxAgeMs maxThroughIndex : Nat) : Option Nat :=
  (entries.takeWhile (fun entry => OldEnough (nowMs - maxAgeMs) maxThroughIndex entry)).getLast?.map (·.index)

/-! ## The scan -/

section Scan

variable {oldest ceiling : Nat} {found : Option Nat} {entries l r : List (LogEntry κ)} {e : LogEntry κ}

theorem ageScan_cons_pos (h : OldEnough oldest ceiling e) :
    ageScan oldest ceiling found (e :: l) = ageScan oldest ceiling (some e.index) l := by
  rw [ageScan, if_neg (Nat.not_lt.2 h.1), if_neg (Nat.not_lt.2 h.2)]

theorem ageScan_cons_neg (h : ¬OldEnough oldest ceiling e) : ageScan oldest ceiling found (e :: l) = found := by
  rw [ageScan]
  split
  · rfl
  · split
    · rfl
    · exact absurd ⟨by omega, by omega⟩ h

theorem ageScan_append (h : ∀ e ∈ l, OldEnough oldest ceiling e) :
    ageScan oldest ceiling found (l ++ r) = ageScan oldest ceiling ((l.getLast?.map (·.index)).or found) r := by
  induction l generalizing found with
  | nil => simp
  | cons e l ih =>
    rw [List.cons_append, ageScan_cons_pos (h e List.mem_cons_self),
      ih fun a ha => h a (List.mem_cons_of_mem e ha), List.getLast?_cons]
    cases l.getLast? <;> rfl

/-- The entries that pass, and the rest, which the scan does not enter. -/
theorem ageScan_split (oldest ceiling : Nat) (entries : List (LogEntry κ)) : ∃ l r, entries = l ++ r ∧
    (∀ e ∈ l, OldEnough oldest ceiling e) ∧
    l = entries.takeWhile (fun e => OldEnough oldest ceiling e) ∧
    ∀ found, ageScan oldest ceiling found entries = (l.getLast?.map (·.index)).or found := by
  refine ⟨_, _, List.takeWhile_append_dropWhile.symm, fun e he => ?_, rfl, fun found => ?_⟩
  · simpa using List.mem_takeWhile_imp he
  · conv_lhs =>
      rw [← List.takeWhile_append_dropWhile (p := fun e => decide (OldEnough oldest ceiling e)) (l := entries)]
    rw [ageScan_append fun e he => by simpa using List.mem_takeWhile_imp he]
    cases hrest : entries.dropWhile fun e => decide (OldEnough oldest ceiling e) with
    | nil => rfl
    | cons a rest =>
      have hstop := List.head?_dropWhile_not (fun e => decide (OldEnough oldest ceiling e)) entries
      rw [hrest] at hstop
      exact ageScan_cons_neg (by simpa using hstop)

theorem ageScan_eq_lastOldEnough (nowMs maxAgeMs : Nat) :
    ageScan (nowMs - maxAgeMs) ceiling none entries = lastOldEnough entries nowMs maxAgeMs ceiling := by
  obtain ⟨l, r, _, _, hl, hscan⟩ := ageScan_split (nowMs - maxAgeMs) ceiling entries
  rw [hscan, hl, Option.or_none]
  rfl

/-- Entries that all have one index leave the scan there. -/
theorem ageScan_constant {index : Nat} (h : ∀ e ∈ l, e.index = index) :
    ageScan oldest ceiling (some index) l = some index := by
  induction l with
  | nil => rfl
  | cons e l ih =>
    by_cases hold : OldEnough oldest ceiling e
    · rw [ageScan_cons_pos hold, h e List.mem_cons_self]
      exact ih fun a ha => h a (List.mem_cons_of_mem e ha)
    · exact ageScan_cons_neg hold

end Scan

/-! ## Rising indexes -/

/-- Every entry is above those before it, or at the last `u64`. -/
def Rising (l : List (LogEntry κ)) : Prop := l.Pairwise fun a b => a.index < b.index ∨ b.index = u64Max

/-- What is remembered: a beginning of the entries that passed, up to the index. Above
it are the others, unless it is the last `u64`. -/
def AgeOk (entries : List (LogEntry κ)) (cache : Option RetainedAgeCompactionCache) : Prop :=
  ∀ cached, cache = some cached → ∀ index, cached.eligibleIndex = some index →
    ∃ l r, entries = l ++ r ∧ l.getLast?.map (·.index) = some index ∧
      ∀ e ∈ l, OldEnough cached.oldestRetainedMs cached.maxThroughIndex e

section Rising

variable {l r entries : List (LogEntry κ)}

theorem Rising.le_last (h : Rising l) (hb : ∀ e ∈ l, e.index ≤ u64Max) {last : LogEntry κ}
    (hlast : l.getLast? = some last) : ∀ e ∈ l, e.index ≤ last.index := by
  obtain ⟨pre, rfl⟩ := List.getLast?_eq_some_iff.1 hlast
  intro e he
  rcases List.mem_append.1 he with he | he
  · have hrel := (List.pairwise_append.1 h).2.2 e he last (by simp)
    have := hb e (List.mem_append_left _ he)
    omega
  · rw [List.mem_singleton.1 he]

/-- **Resuming.** Behind a beginning that passed, the scan from its index on finds what
a scan of everything finds. -/
theorem ageScan_resume {oldest ceiling index : Nat} (hrising : Rising (l ++ r))
    (hbounded : ∀ e ∈ l ++ r, e.index ≤ u64Max) (hindex : l.getLast?.map (·.index) = some index)
    (hold : ∀ e ∈ l, OldEnough oldest ceiling e) :
    ageScan oldest ceiling (some index) ((l ++ r).drop (retainedEntryUpperBound (l ++ r) index)) =
      ageScan oldest ceiling none (l ++ r) := by
  obtain ⟨last, hlast, rfl⟩ := Option.map_eq_some_iff.1 hindex
  have hle := Rising.le_last (List.pairwise_append.1 hrising).1
    (fun e he => hbounded e (List.mem_append_left r he)) hlast
  have habove : ∀ e ∈ r, last.index < e.index ∨ e.index = u64Max := fun e he =>
    (List.pairwise_append.1 hrising).2.2 last (List.mem_of_getLast? hlast) e he
  rw [ageScan_append hold, hlast]
  have hdrop : (l ++ r).drop (retainedEntryUpperBound (l ++ r) last.index) =
      r.dropWhile (·.index ≤ last.index) := by
    rw [retainedEntryUpperBound, Vec.drop_length_takeWhile,
      List.dropWhile_append_of_pos fun e he => by simpa using hle e he]
  rw [hdrop]
  by_cases hmax : last.index < u64Max
  · -- nothing behind the beginning is at its index
    cases r with
    | nil => rfl
    | cons e r =>
      have hlt : last.index < e.index := by
        rcases habove e List.mem_cons_self with h | h <;> omega
      rw [List.dropWhile_cons_of_neg (by simpa using hlt)]
      rfl
  · -- all that is behind it is at the last `u64` as well
    have hall : ∀ e ∈ r, e.index = last.index := by
      intro e he
      have := hbounded e (List.mem_append_right l he)
      have := hbounded last (List.mem_append_left r (List.mem_of_getLast? hlast))
      rcases habove e he with h | h <;> omega
    rw [ageScan_constant fun e he => hall e ((List.dropWhile_suffix _).subset he)]
    exact (ageScan_constant hall).symm

theorem OldEnough.mono {oldest oldest' ceiling ceiling' : Nat} {e : LogEntry κ} (h : OldEnough oldest ceiling e)
    (ho : oldest ≤ oldest') (hc : ceiling ≤ ceiling') : OldEnough oldest' ceiling' e :=
  ⟨h.1.trans hc, h.2.trans ho⟩

/-- Whether it resumes or not, the loop ends where a full scan does. -/
theorem resumeAgeScan_eq (hrising : Rising entries) (hbounded : ∀ e ∈ entries, e.index ≤ u64Max)
    {cache : Option RetainedAgeCompactionCache} (hcache : AgeOk entries cache) (maxAgeMs oldest ceiling : Nat) :
    resumeAgeScan entries cache maxAgeMs oldest ceiling = ageScan oldest ceiling none entries := by
  cases cache with
  | none => rfl
  | some cached =>
    simp only [resumeAgeScan]
    split
    · rename_i hreuse
      cases heligible : cached.eligibleIndex with
      | none => rfl
      | some index =>
        obtain ⟨l, r, rfl, hindex, hold⟩ := hcache cached rfl index heligible
        exact ageScan_resume hrising hbounded hindex fun e he => (hold e he).mono hreuse.2.1 hreuse.2.2.1
    · rfl

/-- **One scan.** With a sound cache the answer is the full scan's, and the cache it
leaves is sound. -/
theorem ageCached_eq (hrising : Rising entries) (hbounded : ∀ e ∈ entries, 1 ≤ e.index ∧ e.index ≤ u64Max)
    {cache : Option RetainedAgeCompactionCache} (hcache : AgeOk entries cache) (nowMs maxAgeMs ceiling : Nat) :
    (compactThroughForRetainedAgeCachedIncremental entries cache nowMs maxAgeMs ceiling).1 =
      (if maxAgeMs = 0 then none else lastOldEnough entries nowMs maxAgeMs ceiling) ∧
    AgeOk entries (compactThroughForRetainedAgeCachedIncremental entries cache nowMs maxAgeMs ceiling).2 := by
  simp only [compactThroughForRetainedAgeCachedIncremental]
  by_cases hoff : maxAgeMs = 0 ∨ ceiling = 0
  · rw [if_pos hoff]
    refine ⟨?_, fun cached h => absurd h (by simp)⟩
    by_cases hage : maxAgeMs = 0
    · rw [if_pos hage]
    · -- no entry has an index below one
      rw [if_neg hage, hoff.resolve_left hage, ← ageScan_eq_lastOldEnough]
      cases entries with
      | nil => rfl
      | cons e entries =>
        rw [ageScan_cons_neg]
        intro hold
        have := (hbounded e List.mem_cons_self).1
        have := hold.1
        omega
  · rw [if_neg hoff, if_neg fun h => hoff (.inl h), ← ageScan_eq_lastOldEnough,
      resumeAgeScan_eq hrising (fun e he => (hbounded e he).2) hcache]
    refine ⟨rfl, fun cached h index hindex => ?_⟩
    cases h
    obtain ⟨l, r, hsplit, hold, _, hscan⟩ := ageScan_split (nowMs - maxAgeMs) ceiling entries
    refine ⟨l, r, hsplit, ?_, hold⟩
    have := hscan none
    rw [Option.or_none] at this
    exact this.symm.trans hindex

end Rising

/-! ## What an operation does to the entries and the cache -/

namespace RaftLogStore

variable {codec : StoreCodec κ π} {io : StoreIo κ π} {s s' : RaftLogStore κ} {l r es : List (LogEntry κ)}

/-- Rising indexes from one to the end of the log. -/
structure Placed (s : RaftLogStore κ) : Prop where
  rising : Rising s.retainedLogEntries
  bounded : ∀ e ∈ s.retainedLogEntries, 1 ≤ e.index ∧ e.index ≤ u64Max
  atEnd : ∀ e ∈ s.retainedLogEntries, e.index ≤ s.lastIndex

/-- Appends keep the entries and the cache; whatever else touches the entries drops
the cache. -/
inductive AgeChange (s s' : RaftLogStore κ) : Prop where
  | kept (entries : s'.retainedLogEntries = s.retainedLogEntries)
      (cache : s'.ageCompactionCache = s.ageCompactionCache) (atEnd : s.lastIndex ≤ s'.lastIndex)
  | extended (r : List (LogEntry κ)) (entries : s'.retainedLogEntries = s.retainedLogEntries ++ r)
      (cache : s'.ageCompactionCache = s.ageCompactionCache) (placed : Placed s')
  | forgotten (cache : s'.ageCompactionCache = none) (placed : Placed s')

theorem AgeChange.refl : AgeChange s s := .kept rfl rfl (Nat.le_refl _)

theorem attempt_ageChange {β ρ : Type} {result : Except BrokerRaftError β} {next : β → Outcome κ ρ}
    (hnext : ∀ value, result = .ok value → AgeChange s (next value).2) : AgeChange s (s.attempt result next).2 :=
  attempt_rule (P := fun o => AgeChange s o.2) (fun _ => .refl) hnext

theorem ite_ageChange {ρ : Type} {c : Prop} [Decidable c] {a b : Outcome κ ρ} (ha : c → AgeChange s a.2)
    (hb : ¬c → AgeChange s b.2) : AgeChange s (if c then a else b).2 := by
  split
  · exact ha ‹c›
  · exact hb ‹¬c›

theorem AgeChange.placed (h : Placed s) (hc : AgeChange s s') : Placed s' := by
  cases hc with
  | kept entries _ atEnd =>
    refine ⟨by rw [entries]; exact h.rising, by rw [entries]; exact h.bounded, ?_⟩
    rw [entries]
    exact fun e he => (h.atEnd e he).trans atEnd
  | extended _ _ _ placed => exact placed
  | forgotten _ placed => exact placed

theorem AgeChange.ageOk (hc : AgeChange s s') (h : AgeOk s.retainedLogEntries s.ageCompactionCache) :
    AgeOk s'.retainedLogEntries s'.ageCompactionCache := by
  cases hc with
  | kept entries cache _ =>
    rw [entries, cache]
    exact h
  | extended r entries cache _ =>
    rw [entries, cache]
    intro cached hcached index hindex
    obtain ⟨l, r', hsplit, hlast, hold⟩ := h cached hcached index hindex
    exact ⟨l, r' ++ r, by rw [hsplit, List.append_assoc], hlast, hold⟩
  | forgotten cache _ =>
    rw [cache]
    exact fun cached hcached => absurd hcached (by simp)

/-- A log that ends where it says. -/
theorem placed_of_end (hrising : Rising s.retainedLogEntries)
    (hbounded : ∀ e ∈ s.retainedLogEntries, 1 ≤ e.index ∧ e.index ≤ u64Max)
    (hend : ∀ last, s.retainedLogEntries.getLast? = some last → s.lastIndex = last.index) : Placed s := by
  refine ⟨hrising, hbounded, fun e he => ?_⟩
  obtain ⟨last, hlast⟩ : ∃ last, s.retainedLogEntries.getLast? = some last :=
    ⟨_, List.getLast?_eq_some_getLast (List.ne_nil_of_mem he)⟩
  rw [hend last hlast]
  exact hrising.le_last (fun a ha => (hbounded a ha).2) hlast e he

theorem rising_of_contiguous {f : Nat} (h : RaftLogState.Contiguous f l) : Rising l :=
  (increasing_of_contiguous h).imp .inl

theorem replaceRetainedLogState_forgotten {sizes : List Nat}
    (hvalid : validateLogEntriesForSnapshot codec l s.latestSnapshot = .ok ())
    (hok : s.replaceRetainedLogState codec l sizes = .ok s') : s'.ageCompactionCache = none ∧ Placed s' := by
  obtain ⟨-, hbounded, -⟩ := valid_sound hvalid
  obtain ⟨f, hf⟩ := (validateLogEntriesForSnapshot_eq_ok.1 hvalid).1.contiguous_from
  simp only [replaceRetainedLogState, check_bind_eq_ok, map_eq_ok] at hok
  obtain ⟨-, m, -, rfl⟩ := hok
  refine ⟨rfl, placed_of_end (rising_of_contiguous hf) hbounded fun last hlast => ?_⟩
  show (endOf l s.latestSnapshot).1 = last.index
  rw [endOf_getLast hlast]

theorem failReloaded_ageChange {ρ : Type} {t : RaftLogStore κ} {what : String} {err : BrokerRaftError}
    (h : AgeChange s t) : AgeChange s (t.failReloaded codec io (ρ := ρ) what err).2 := by
  unfold failReloaded
  split
  · exact h
  · rename_i t' hreload
    obtain ⟨retained, hread, hreplace⟩ := bind_eq_ok.1 hreload
    obtain ⟨hcache, hplaced⟩ := replaceRetainedLogState_forgotten (readRetained_valid hread) hreplace
    exact .forgotten hcache hplaced

/-- Entries that rise from the end of the log on. -/
theorem Placed.extend (h : Placed s) (hrising : Rising r) (hbounded : ∀ e ∈ r, 1 ≤ e.index ∧ e.index ≤ u64Max)
    (hend : ∀ e ∈ r, s.lastIndex < e.index ∨ e.index = u64Max)
    {m : OrdMap String RetainedRequestIdentityFingerprint} :
    AgeChange s { s.extendRetained codec r with retainedRequestFingerprints := m } := by
  refine .extended r rfl rfl ?_
  have hall : ∀ e ∈ s.retainedLogEntries ++ r, 1 ≤ e.index ∧ e.index ≤ u64Max := fun e he =>
    (List.mem_append.1 he).elim (h.bounded e) (hbounded e)
  cases hlast : r.getLast? with
  | none =>
    rw [List.getLast?_eq_none_iff.1 hlast]
    refine ⟨?_, ?_, ?_⟩ <;> simp only [extendRetained, List.append_nil, List.getLast?_nil, Option.map_none,
      Option.getD_none]
    · exact h.rising
    · exact h.bounded
    · exact h.atEnd
  | some last =>
    refine placed_of_end (List.pairwise_append.2 ⟨h.rising, hrising, fun a ha b hb => ?_⟩) hall fun b hb => ?_
    · have := h.atEnd a ha
      exact (hend b hb).imp (by omega) id
    · simp only [extendRetained] at hb ⊢
      rw [List.getLast?_append, hlast, Option.some_or, Option.some.injEq] at hb
      rw [hlast, hb]
      rfl

theorem batchEntries_rising {lastIndex term createdAtMs : Nat} {commands : List κ} : ∀ {offset : Nat},
    Rising (batchEntries lastIndex term createdAtMs offset commands) := by
  induction commands with
  | nil => intro offset; exact .nil
  | cons command commands ih =>
    intro offset
    refine List.pairwise_cons.2 ⟨fun e he => ?_, ih⟩
    obtain ⟨k, hk, hindex⟩ := batchEntries_index e he
    rw [hindex]
    simp only [saturatingAdd]
    omega

theorem appendBatch_ageChange (h : Placed s) {term : Nat} {commands : List κ} :
    AgeChange s (s.appendBatch codec io term commands).2 := by
  unfold appendBatch
  split
  · exact .refl
  refine attempt_ageChange fun _ _ => ?_
  split
  · exact .refl
  split
  · exact .refl
  refine attempt_ageChange fun _ _ => attempt_ageChange fun _ _ => ?_
  have hindex : ∀ e ∈ batchEntries s.lastIndex term io.unixMs 0 commands,
      (1 ≤ e.index ∧ e.index ≤ u64Max) ∧ (s.lastIndex < e.index ∨ e.index = u64Max) := by
    intro e he
    obtain ⟨k, -, hindex⟩ := batchEntries_index e he
    have : 1 ≤ u64Max := by decide
    rw [hindex, saturatingAdd]
    omega
  have hchange : ∀ {m : OrdMap String RetainedRequestIdentityFingerprint}, AgeChange s
      { s.extendRetained codec (batchEntries s.lastIndex term io.unixMs 0 commands) with
        retainedRequestFingerprints := m } :=
    h.extend batchEntries_rising (fun e he => (hindex e he).1) fun e he => (hindex e he).2
  exact attempt_rule (P := fun o => AgeChange s o.2) (fun _ => hchange) fun _ _ => hchange

theorem rewriteFrom_ageChange {e : LogEntry κ} {commit : Nat} {report : AppendReport} (h : Placed s)
    (hincoming : Incoming s (e :: r)) (hrising : Rising (e :: r))
    (hbounded : ∀ a ∈ e :: r, 1 ≤ a.index ∧ a.index ≤ u64Max) :
    AgeChange s (s.rewriteFrom codec io commit report (e :: r)).2 := by
  unfold rewriteFrom
  simp only [List.head?_cons, Option.map_some, Option.getD_some]
  refine ite_ageChange (fun _ => .refl) fun _ => attempt_ageChange fun _ _ => attempt_ageChange fun _ _ =>
    attempt_ageChange fun _ hcontext => ?_
  split
  · exact failReloaded_ageChange .refl
  have hadd := add_ok_of_context hcontext
  split
  · rename_i hfail
    rw [hadd] at hfail
    cases hfail
  · refine .forgotten rfl (placed_of_end ?_ ?_ fun last hlast => ?_)
    · refine List.pairwise_append.2 ⟨List.Pairwise.sublist (List.take_sublist _ _) h.rising, hrising, ?_⟩
      intro a ha b hb
      have := lt_of_mem_take ha
      have := hincoming.head_le b hb
      exact .inl (by omega)
    · exact fun a ha => (List.mem_append.1 ha).elim (fun ha => h.bounded a (List.mem_of_mem_take ha)) (hbounded a)
    · show (endOf _ s.latestSnapshot).1 = last.index
      rw [endOf_getLast hlast]

theorem appendOnly_ageChange {e : LogEntry κ} {commit : Nat} {report : AppendReport} (h : Placed s)
    (hincoming : Incoming s (e :: r)) (hrising : Rising (e :: r))
    (hbounded : ∀ a ∈ e :: r, 1 ≤ a.index ∧ a.index ≤ u64Max) (hlt : s.lastIndex < e.index) :
    AgeChange s (s.appendOnly codec io commit report (e :: r)).2 := by
  unfold appendOnly
  simp only
  refine ite_ageChange (fun _ => .refl) fun _ => attempt_ageChange fun _ _ => attempt_ageChange fun _ _ => ?_
  have hchange : ∀ {m : OrdMap String RetainedRequestIdentityFingerprint},
      AgeChange s { s.extendRetained codec (e :: r) with retainedRequestFingerprints := m } :=
    h.extend hrising hbounded fun a ha => .inl (Nat.lt_of_lt_of_le hlt (hincoming.head_le a ha))
  split
  · exact failReloaded_ageChange hchange
  · exact hchange

section Leader

variable [DecidableEq κ]

/-- Where the comparison with the incoming entries stops. -/
theorem scanIncoming_rest {scan : RaftLogState.IncomingScan (Stamped κ)} (hs : s.scanIncoming es = .ok scan) :
    scan = .present ∨ ∃ e rest, e :: rest <:+ es ∧
      (scan = .rewrite (e :: rest) ∨ scan = .append (e :: rest) ∧ s.lastIndex < e.index) := by
  induction es with
  | nil =>
    cases hs
    exact .inl rfl
  | cons e es ih =>
    have hnext : s.scanIncoming es = .ok scan → scan = .present ∨ ∃ a rest, a :: rest <:+ e :: es ∧
        (scan = .rewrite (a :: rest) ∨ scan = .append (a :: rest) ∧ s.lastIndex < a.index) := by
      intro h
      rcases ih h with hpresent | ⟨a, rest, hsuf, hcase⟩
      · exact .inl hpresent
      · exact .inr ⟨a, rest, hsuf.trans (List.suffix_cons e es), hcase⟩
    rw [scanIncoming] at hs
    split at hs
    · split at hs
      · split at hs
        · cases hs
        · split at hs
          · cases hs
          · exact hnext hs
      · cases hs
        exact .inr ⟨e, es, List.suffix_rfl, .inl rfl⟩
    · cases hs
      refine .inr ⟨e, es, List.suffix_rfl, ?_⟩
      split
      · exact .inl rfl
      · rename_i hlt
        exact .inr ⟨rfl, by omega⟩

theorem appendEntriesFromLeader_ageChange (h : Placed s) {prev prevTerm leaderTerm commit : Nat} :
    AgeChange s (s.appendEntriesFromLeader codec io prev prevTerm leaderTerm commit es).2 := by
  unfold appendEntriesFromLeader
  refine attempt_ageChange fun _ hshape => ?_
  have hshaped := validateAppendEntriesShape_shaped hshape
  simp only
  split
  · exact .refl
  split
  · exact .refl
  split
  · exact .refl
  refine attempt_ageChange fun scan hscan => ?_
  rcases scanIncoming_rest hscan with rfl | ⟨e, rest, hsuf, hcase⟩
  · exact .refl
  have hincoming := incoming_of_shaped hshaped (List.cons_ne_nil e rest) hsuf
  have hrising : Rising (e :: rest) :=
    List.Pairwise.sublist hsuf.sublist (rising_of_contiguous (incomingOf_contiguous hshaped))
  have hbounded : ∀ a ∈ e :: rest, 1 ≤ a.index ∧ a.index ≤ u64Max := fun a ha =>
    ⟨by have := hincoming.behind a ha; omega, hincoming.bounded a ha⟩
  rcases hcase with rfl | ⟨rfl, hlt⟩
  · exact rewriteFrom_ageChange h hincoming hrising hbounded
  · exact appendOnly_ageChange h hincoming hrising hbounded hlt

end Leader

/-! ### Snapshots -/

theorem withSnapshot_ageChange {ρ : Type} {metadata : StoredSnapshotMetadata} {responses : OrdMap String String}
    {next : RaftLogStore κ → Outcome κ ρ}
    (hnext : ∀ t : RaftLogStore κ, t.retainedLogEntries = s.retainedLogEntries →
      t.ageCompactionCache = s.ageCompactionCache → t.lastIndex = s.lastIndex → AgeChange s (next t).2) :
    AgeChange s (s.withSnapshot codec metadata responses next).2 := by
  unfold withSnapshot
  exact attempt_rule (P := fun o => AgeChange s o.2) (fun _ => .kept rfl rfl (Nat.le_refl _))
    fun _ _ => hnext _ rfl rfl rfl

theorem withSnapshot_kept {ρ : Type} {metadata : StoredSnapshotMetadata} {responses : OrdMap String String}
    {result : Except BrokerRaftError ρ} :
    AgeChange s (s.withSnapshot codec metadata responses fun t => (result, t)).2 :=
  withSnapshot_ageChange fun _ hentries hcache hlast => .kept hentries hcache (Nat.le_of_eq hlast.symm)

theorem writeSnapshot_ageChange {index term : Nat} {payload : π} :
    AgeChange s (s.writeSnapshot codec io index term payload).2 := by
  unfold writeSnapshot
  refine attempt_ageChange fun responses _ => ?_
  simp only
  split
  · refine ite_ageChange (fun _ => .refl) fun _ => ?_
    unfold rewriteSnapshot
    refine ite_ageChange (fun _ => .refl) fun _ => ?_
    split
    · exact ite_ageChange (fun _ => .refl) fun _ => attempt_ageChange fun _ _ => withSnapshot_kept
    · exact attempt_ageChange fun _ _ => ite_ageChange (fun _ => .refl) fun _ => attempt_ageChange fun _ _ =>
        attempt_ageChange fun _ _ => withSnapshot_kept
  · split
    · exact .refl
    · refine ite_ageChange (fun _ => .refl) fun _ => attempt_ageChange fun _ _ => attempt_ageChange fun _ _ => ?_
      refine withSnapshot_ageChange fun t hentries hcache hlast => ?_
      dsimp only
      split
      · exact .kept hentries hcache (by rw [← hlast]; assumption)
      · exact .kept hentries hcache (Nat.le_of_eq hlast.symm)

theorem installSnapshotFromLeader_ageChange {index term : Nat} {sha256 : Option String} {payload : π} :
    AgeChange s (s.installSnapshotFromLeader codec io index term sha256 payload).2 := by
  unfold installSnapshotFromLeader
  refine attempt_ageChange fun verified _ => attempt_ageChange fun fingerprints _ => ?_
  have hkept : AgeChange s (s.repairRetainedLogEntryByteCache codec) := .kept rfl rfl (Nat.le_refl _)
  split
  · exact ite_ageChange (fun _ => attempt_ageChange fun _ _ => attempt_ageChange fun _ _ => withSnapshot_kept)
      fun _ => .refl
  · refine attempt_rule (P := fun o => AgeChange s o.2) (fun _ => hkept) fun retained _ => ?_
    split
    · exact hkept
    · refine attempt_rule (P := fun o => AgeChange s o.2) (fun _ => hkept) fun _ hvalid => ?_
      refine attempt_rule (P := fun o => AgeChange s o.2) (fun _ => hkept) fun _ _ => ?_
      refine attempt_rule (P := fun o => AgeChange s o.2) (fun _ => .kept rfl rfl (Nat.le_refl _)) fun t ht => ?_
      obtain ⟨hcache, hplaced⟩ := replaceRetainedLogState_forgotten hvalid ht
      exact .forgotten hcache hplaced

theorem compactThrough_ageChange {index : Nat} : AgeChange s (s.compactThrough codec io index).2 := by
  unfold compactThrough
  have hkept : AgeChange s (s.repairRetainedLogEntryByteCache codec) := .kept rfl rfl (Nat.le_refl _)
  have hrule : ∀ {β ρ : Type} {result : Except BrokerRaftError β} {next : β → Outcome κ ρ},
      (∀ value, result = .ok value → AgeChange s (next value).2) →
      AgeChange s ((s.repairRetainedLogEntryByteCache codec).attempt result next).2 :=
    attempt_rule (P := fun o => AgeChange s o.2) fun _ => hkept
  split
  · exact .refl
  refine ite_ageChange (fun _ => .refl) fun _ => hrule fun _ _ => ite_ageChange (fun _ => ?_) fun _ => ?_
  · exact hrule fun _ _ => hrule fun _ _ => hkept
  · refine hrule fun _ _ => hrule fun _ _ => hrule fun _ hvalid => hrule fun _ _ => hrule fun t ht => ?_
    obtain ⟨hcache, hplaced⟩ := replaceRetainedLogState_forgotten hvalid ht
    exact .forgotten hcache hplaced

/-! ## Runs -/

variable [DecidableEq κ]

theorem StoreOp.ageChange (h : Placed s) (op : StoreOp κ π) : AgeChange s (op.run codec io s) := by
  cases op with
  | appendBatch term commands => exact appendBatch_ageChange h
  | appendEntriesFromLeader prev prevTerm leaderTerm commit entries => exact appendEntriesFromLeader_ageChange h
  | writeSnapshot index term payload => exact writeSnapshot_ageChange
  | installSnapshotFromLeader index term sha256 payload => exact installSnapshotFromLeader_ageChange
  | compactThrough index => exact compactThrough_ageChange

/-- An operation on the store, or a question how far it is old enough. -/
inductive AgedOp (κ π : Type) where
  | store (io : StoreIo κ π) (op : StoreOp κ π)
  | ask (nowMs maxAgeMs maxThroughIndex : Nat)

def AgedOp.run (codec : StoreCodec κ π) (s : RaftLogStore κ) : AgedOp κ π → RaftLogStore κ
  | .store io op => op.run codec io s
  | .ask nowMs maxAgeMs maxThroughIndex => (s.compactThroughForRetainedAge nowMs maxAgeMs maxThroughIndex).2

def runAged (codec : StoreCodec κ π) (s : RaftLogStore κ) (ops : List (AgedOp κ π)) : RaftLogStore κ :=
  ops.foldl (AgedOp.run codec) s

/-- **One step keeps the cache sound.** -/
theorem AgedOp.run_ageOk (h : Placed s) (hcache : AgeOk s.retainedLogEntries s.ageCompactionCache)
    (op : AgedOp κ π) :
    Placed (op.run codec s) ∧ AgeOk (op.run codec s).retainedLogEntries (op.run codec s).ageCompactionCache := by
  cases op with
  | store io op =>
    have hchange : AgeChange s (op.run codec io s) := op.ageChange h
    exact ⟨hchange.placed h, hchange.ageOk hcache⟩
  | ask nowMs maxAgeMs maxThroughIndex =>
    refine ⟨⟨h.rising, h.bounded, h.atEnd⟩, ?_⟩
    exact (ageCached_eq h.rising h.bounded hcache nowMs maxAgeMs maxThroughIndex).2

theorem runAged_ageOk (h : Placed s) (hcache : AgeOk s.retainedLogEntries s.ageCompactionCache)
    (ops : List (AgedOp κ π)) :
    Placed (runAged codec s ops) ∧
      AgeOk (runAged codec s ops).retainedLogEntries (runAged codec s ops).ageCompactionCache := by
  induction ops generalizing s with
  | nil => exact ⟨h, hcache⟩
  | cons op ops ih =>
    have hstep : Placed (op.run codec s) ∧ _ := AgedOp.run_ageOk h hcache op
    exact ih hstep.1 hstep.2

omit [DecidableEq κ] in
theorem openWith_placed {trailing commitIndex : Nat} (hopen : openWith codec io trailing commitIndex = .ok s) :
    s.ageCompactionCache = none ∧ Placed s := by
  unfold openWith at hopen
  obtain ⟨file, -, hopen⟩ := bind_eq_ok.1 hopen
  obtain ⟨fingerprints, -, hopen⟩ := bind_eq_ok.1 hopen
  obtain ⟨retained, hread, hreplace⟩ := bind_eq_ok.1 hopen
  exact replaceRetainedLogState_forgotten (readRetained_valid hread) hreplace

/-- **The cached scan is a full scan.** From any store that was opened, behind any
sequence of operations and scans, whatever the files and the clocks answered, the next
scan for an age finds the last index of the longest beginning of the retained entries
that are all at or below the ceiling and created no later than that age ago. An age
of zero turns compaction by age off. -/
theorem compactThroughForRetainedAge_eq_scan {trailing commitIndex : Nat}
    (hopen : openWith codec io trailing commitIndex = .ok s) (ops : List (AgedOp κ π))
    (nowMs maxAgeMs maxThroughIndex : Nat) :
    ((runAged codec s ops).compactThroughForRetainedAge nowMs maxAgeMs maxThroughIndex).1 =
      if maxAgeMs = 0 then none
      else lastOldEnough (runAged codec s ops).retainedLogEntries nowMs maxAgeMs maxThroughIndex := by
  obtain ⟨hnone, hplaced⟩ := openWith_placed hopen
  have hcache : AgeOk s.retainedLogEntries s.ageCompactionCache := by
    rw [hnone]
    exact fun cached h => absurd h (by simp)
  obtain ⟨hplaced', hcache'⟩ : Placed (runAged codec s ops) ∧ _ := runAged_ageOk hplaced hcache ops
  exact (ageCached_eq hplaced'.rising hplaced'.bounded hcache' nowMs maxAgeMs maxThroughIndex).1

/-- A command, a scan that finds it old enough, and a later command. -/
def Sample.aging : List (AgedOp RequestIdentity Unit) :=
  [.store { unixMs := 100 } (.appendBatch 1 [⟨"a", "f"⟩]), .ask 250 100 9,
    .store { unixMs := 300 } (.appendBatch 1 [⟨"b", "g"⟩])]

theorem compactThroughForRetainedAge_eq_scan_resumed : openWith Sample.identities {} 0 0 = .ok {} ∧
    ((runAged Sample.identities {} Sample.aging).compactThroughForRetainedAge 350 100 9).1 = some 1 := by
  have hopen : openWith Sample.identities {} 0 0 = .ok {} := rfl
  refine ⟨hopen, ?_⟩
  rw [compactThroughForRetainedAge_eq_scan hopen Sample.aging]
  decide +kernel

/-- With an age of zero nothing is found, though the entry was created in time. -/
theorem compactThroughForRetainedAge_zero : openWith Sample.identities {} 0 0 = .ok {} ∧
    ((runAged Sample.identities {} Sample.aging).compactThroughForRetainedAge 350 0 9).1 ≠
      lastOldEnough (runAged Sample.identities {} Sample.aging).retainedLogEntries 350 0 9 :=
  ⟨rfl, by decide +kernel⟩

end RaftLogStore

end LiveMutex.Raft
