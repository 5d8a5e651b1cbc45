/-
Whether a committed request is applied or skipped is read from the response cache,
and the cache is not a function of the log: a leader's reservations take room in it
and push out ids that the other nodes still have. A retry of such an id is then
applied by the leader and skipped by the others.

`decisions_agree` says when the decisions are the same everywhere: as long as the
cache has room for every id that is put in, and no response is put under an id that
is only reserved. What carries it is `CacheOk`: an id is marked as applied exactly
if a request of the log that the node has applied had it.
-/
import Mathlib.Data.List.Induction
import LiveMutex.Lib.Trace
import LiveMutex.Raft.ResponseCache

namespace LiveMutex.Raft

/-! ## Nodes with one committed log -/

/-- A snapshot's index and its `clientResponses`. -/
abbrev CacheSnapshot := Nat × List ClientResponseSnapshotEntry

/-- What a node did with the entry at an index: `true` if it applied it. -/
structure Decision (ν : Type) where
  node : ν
  index : Nat
  applied : Bool
  deriving DecidableEq

/-- The caches of the nodes, how far each has applied the log, the snapshots any of
them has written, and the record of what they decided. -/
structure Deduplication (ν : Type) where
  cache : ν → ClientResponseCacheState := fun _ => {}
  lastApplied : ν → Nat := fun _ => 0
  snapshots : List CacheSnapshot := []
  decisions : List (Decision ν) := []

inductive CacheEvent where
  | applyNext
  | reserve (identity : RequestIdentity)
  | release (identity : RequestIdentity)
  | observe (response : Response)
  | remember (identity : RequestIdentity) (response : Response)
  | writeSnapshot
  /-- The `k`-th snapshot is installed, if it is ahead of the node. -/
  | install (k : Nat)
  /-- The node starts again, from the `k`-th snapshot or from nothing. -/
  | restart (k : Option Nat)

namespace Deduplication

variable {ν : Type} [DecidableEq ν] (maxEntries : Nat) (log : List (Option RequestIdentity)) (s : Deduplication ν)

def setCache (i : ν) (cache : ClientResponseCacheState) : Deduplication ν :=
  { s with cache := Function.update s.cache i cache }

/-- A cache and the index it goes with. -/
def setNode (i : ν) (cache : ClientResponseCacheState) (lastApplied : Nat) : Deduplication ν :=
  { s.setCache i cache with lastApplied := Function.update s.lastApplied i lastApplied }

/-- A node takes over a snapshot. -/
def restore (i : ν) (snapshot : CacheSnapshot) : Deduplication ν :=
  match ClientResponseCacheState.restoreClientResponseCache (cacheLimit maxEntries) snapshot.2 with
  | .ok cache => s.setNode i cache snapshot.1
  | .error _ => s

/-- `apply_committed` on the next entry of the log. -/
def applyNext (i : ν) : Deduplication ν :=
  match log[s.lastApplied i]? with
  | none => s
  | some none => s.setNode i (s.cache i) (s.lastApplied i + 1)
  | some (some identity) =>
    match (s.cache i).beginClientRequestApply (cacheLimit maxEntries) identity with
    | .error _ => s
    | .ok (applied, cache) =>
      { s.setNode i cache (s.lastApplied i + 1) with
        decisions := ⟨i, s.lastApplied i + 1, applied⟩ :: s.decisions }

def step (i : ν) : CacheEvent → Deduplication ν
  | .applyNext => s.applyNext maxEntries log i
  | .reserve identity =>
    match (s.cache i).reserveClientRequestId (cacheLimit maxEntries) identity with
    | .error _ => s
    | .ok (_, cache) => s.setCache i cache
  | .release identity => s.setCache i ((s.cache i).releaseUnappliedClientRequestId identity)
  | .observe response => s.setCache i ((s.cache i).observe response)
  | .remember identity response =>
    s.setCache i ((s.cache i).rememberClientResponse (cacheLimit maxEntries) identity response)
  | .writeSnapshot =>
    { s with snapshots := s.snapshots ++ [(s.lastApplied i, (s.cache i).clientResponseSnapshotEntries)] }
  | .install k =>
    match s.snapshots[k]? with
    | none => s
    | some snapshot => if s.lastApplied i < snapshot.1 then s.restore maxEntries i snapshot else s
  | .restart none => s.setNode i {} 0
  | .restart (some k) =>
    match s.snapshots[k]? with
    | none => s
    | some snapshot => s.restore maxEntries i snapshot

def run (events : List (ν × CacheEvent)) : Deduplication ν :=
  events.foldl (fun s e => s.step maxEntries log e.1 e.2) s

omit [DecidableEq ν] in
/-- Two decisions on one entry are the same. -/
def Agree : Prop :=
  ∀ d ∈ s.decisions, ∀ d' ∈ s.decisions, d.index = d'.index → d.applied = d'.applied

omit [DecidableEq ν] in
/-- There is room for the id, and a response goes to an id that was applied. -/
def roomFor (i : ν) : CacheEvent → Bool
  | .applyNext => (log[s.lastApplied i]?.getD none).all fun identity =>
      (s.cache i).entries.contains identity.requestId || (s.cache i).entries.size < cacheLimit maxEntries
  | .reserve identity =>
      (s.cache i).entries.contains identity.requestId || (s.cache i).entries.size < cacheLimit maxEntries
  | .observe response => (s.cache i).entries[response.correlationUuid]?.all (·.applied)
  | .remember identity _ => (s.cache i).entries[identity.requestId]?.any (·.applied)
  | _ => true

/-- A step with room. -/
def RoomyStep (s : Deduplication ν) (e : ν × CacheEvent) (s' : Deduplication ν) : Prop :=
  s.roomFor maxEntries log e.1 e.2 = true ∧ s' = s.step maxEntries log e.1 e.2

end Deduplication

/-! ## What is in a cache -/

/-- The ids marked as applied are those of `seen`, and the order names the ids. -/
structure CacheOk (limit : Nat) (cache : ClientResponseCacheState) (seen : String → Prop) : Prop where
  nodup : cache.order.Nodup
  order : ∀ requestId, requestId ∈ cache.order ↔ ∃ cached, cache.entries[requestId]? = some cached
  room : cache.entries.size ≤ limit
  applied : ∀ requestId, (∃ cached, cache.entries[requestId]? = some cached ∧ cached.applied = true) ↔ seen requestId

namespace CacheOk

variable {limit : Nat} {cache cache' : ClientResponseCacheState} {seen seen' : String → Prop} {requestId : String}
  {cached : CachedClientResponse} {identity : RequestIdentity}

open ClientResponseCacheState

theorem empty (h : ∀ requestId, ¬seen requestId) : CacheOk limit {} seen where
  nodup := List.nodup_nil
  order requestId := by simp
  room := by simp
  applied requestId := by simp [h requestId]

theorem congr (h : CacheOk limit cache seen) (hs : ∀ requestId, seen requestId ↔ seen' requestId) :
    CacheOk limit cache seen' :=
  { h with applied := fun requestId => (h.applied requestId).trans (hs requestId) }

/-- Nothing is forgotten while there is room. -/
theorem trim_of_le (h : cache.entries.size ≤ limit) : cache.trim limit = cache := by
  unfold ClientResponseCacheState.trim
  cases cache.order.length with
  | zero => rfl
  | succ turns => exact if_pos h

theorem size_eq (h : CacheOk limit cache seen) : cache.entries.size = cache.order.length :=
  OrdMap.size_eq_length h.nodup fun requestId => OrdMap.mem_iff_get.trans (h.order requestId).symm

theorem notMem (hnone : cache.entries[requestId]? = none) (h : CacheOk limit cache seen) : requestId ∉ cache.order := by
  intro hmem
  obtain ⟨cached, hc⟩ := (h.order requestId).1 hmem
  cases hnone.symm.trans hc

theorem push (h : CacheOk limit cache seen) (hnone : cache.entries[requestId]? = none)
    (hroom : cache.entries.size < limit) :
    CacheOk limit (cache.push limit requestId cached) fun id => seen id ∨ (cached.applied = true ∧ id = requestId) := by
  have hsize : (cache.entries.insert requestId cached).size ≤ limit := by
    rw [Std.ExtTreeMap.size_insert]
    split <;> omega
  rw [ClientResponseCacheState.push, trim_of_le hsize]
  refine ⟨?_, fun id => ?_, hsize, fun id => ?_⟩
  · exact List.nodup_append.2 ⟨h.nodup, List.nodup_singleton _, fun a ha b hb hab =>
      h.notMem hnone (List.mem_singleton.1 hb ▸ hab ▸ ha)⟩
  · rw [List.mem_append, List.mem_singleton, OrdMap.get_insert, h.order]
    by_cases he : requestId = id
    · simp [he]
    · simp [he, Ne.symm he]
  · rw [OrdMap.get_insert]
    by_cases he : requestId = id
    · subst he
      simp [← h.applied requestId, hnone]
    · simp [he, Ne.symm he, h.applied id]

/-- An entry is replaced. -/
theorem insert (h : CacheOk limit cache seen) {old : CachedClientResponse}
    (hold : cache.entries[requestId]? = some old) (hkeep : old.applied = true → cached.applied = true) :
    CacheOk limit { cache with entries := cache.entries.insert requestId cached }
      fun id => seen id ∨ (cached.applied = true ∧ id = requestId) := by
  refine ⟨h.nodup, fun id => ?_, ?_, fun id => ?_⟩
  · rw [h.order, OrdMap.get_insert]
    by_cases he : requestId = id
    · subst he
      simp [hold]
    · simp [he]
  · have hmem : requestId ∈ cache.entries := OrdMap.mem_iff_get.2 ⟨old, hold⟩
    rw [Std.ExtTreeMap.size_insert, if_pos (Std.ExtTreeMap.contains_iff_mem.2 hmem)]
    exact h.room
  · rw [OrdMap.get_insert]
    by_cases he : requestId = id
    · subst he
      rw [← h.applied requestId, hold]
      simpa using hkeep
    · simp [he, Ne.symm he, h.applied id]

/-- The ids in another order. -/
theorem reorder (h : CacheOk limit cache seen) {order : List String} (hperm : order.Perm cache.order) :
    CacheOk limit { cache with order } seen :=
  { h with
    nodup := hperm.nodup_iff.2 h.nodup
    order := fun requestId => (hperm.mem_iff).trans (h.order requestId) }

/-- An id moves to the back. -/
theorem moveBack (h : CacheOk limit cache seen) (hsome : cache.entries[requestId]? = some cached) :
    CacheOk limit { cache with order := cache.order.filter (· ≠ requestId) ++ [requestId] } seen := by
  refine h.reorder ((List.perm_ext_iff_of_nodup ?_ h.nodup).2 fun id => ?_)
  · refine List.nodup_append.2 ⟨h.nodup.filter _, List.nodup_singleton _, fun a ha b hb hab => ?_⟩
    have hne : a ≠ requestId := by simpa using (List.mem_filter.1 ha).2
    exact hne (hab.trans (List.mem_singleton.1 hb))
  · have hmem := (h.order requestId).2 ⟨cached, hsome⟩
    by_cases he : id = requestId
    · subst he
      simp [hmem]
    · simp [he]

/-- An id that is not applied is forgotten. -/
theorem erase (h : CacheOk limit cache seen) (hsome : cache.entries[requestId]? = some cached)
    (hnot : cached.applied = false) :
    CacheOk limit
      { entries := cache.entries.erase requestId, order := cache.order.filter (· ≠ requestId) } seen := by
  refine ⟨h.nodup.filter _, fun id => ?_, ?_, fun id => ?_⟩
  · rw [List.mem_filter, OrdMap.get_erase, h.order]
    by_cases he : requestId = id
    · simp [he]
    · simp [he, Ne.symm he]
  · rw [Std.ExtTreeMap.size_erase]
    have := h.room
    split <;> omega
  · rw [OrdMap.get_erase]
    by_cases he : requestId = id
    · subst he
      simp [← h.applied requestId, hsome, hnot]
    · simp [he, h.applied id]

/-! ### The operations -/

theorem beginClientRequestApply (h : CacheOk limit cache seen) {applied : Bool}
    (hroom : cache.entries.contains identity.requestId = true ∨ cache.entries.size < limit)
    (hok : cache.beginClientRequestApply limit identity = .ok (applied, cache')) :
    CacheOk limit cache' (fun id => seen id ∨ id = identity.requestId) ∧
      (applied = true ↔ ¬seen identity.requestId) := by
  unfold ClientResponseCacheState.beginClientRequestApply at hok
  cases hc : cache.entries[identity.requestId]? with
  | none =>
    rw [hc] at hok
    cases hok
    have hlt : cache.entries.size < limit := by
      rcases hroom with hin | hlt
      · obtain ⟨cached, hs⟩ := OrdMap.mem_iff_get.1 (Std.ExtTreeMap.contains_iff_mem.1 hin)
        cases hc.symm.trans hs
      · exact hlt
    refine ⟨(h.push hc hlt).congr fun id => by simp, ?_⟩
    simp [← h.applied identity.requestId, hc]
  | some cached =>
    rw [hc] at hok
    dsimp only at hok
    split at hok
    · cases hok
    · split at hok
      · rename_i happ
        cases hok
        have hseen : seen identity.requestId := (h.applied _).1 ⟨cached, hc, happ⟩
        refine ⟨h.congr fun id => ?_, by simp [hseen]⟩
        constructor
        · exact .inl
        · intro hor
          rcases hor with hid | rfl
          · exact hid
          · exact hseen
      · rename_i happ
        cases hok
        refine ⟨(h.insert hc fun _ => rfl).congr fun id => by simp, ?_⟩
        rw [← h.applied, hc]
        simpa using happ

theorem reserveClientRequestId (h : CacheOk limit cache seen) {free : Bool}
    (hroom : cache.entries.contains identity.requestId = true ∨ cache.entries.size < limit)
    (hok : cache.reserveClientRequestId limit identity = .ok (free, cache')) : CacheOk limit cache' seen := by
  unfold ClientResponseCacheState.reserveClientRequestId at hok
  cases hc : cache.entries[identity.requestId]? with
  | none =>
    rw [hc] at hok
    cases hok
    have hlt : cache.entries.size < limit := by
      rcases hroom with hin | hlt
      · obtain ⟨cached, hs⟩ := OrdMap.mem_iff_get.1 (Std.ExtTreeMap.contains_iff_mem.1 hin)
        cases hc.symm.trans hs
      · exact hlt
    exact (h.push hc hlt).congr fun id => by simp
  | some cached =>
    rw [hc] at hok
    dsimp only at hok
    split at hok
    · cases hok
    · cases hok
      exact h

theorem releaseUnappliedClientRequestId (h : CacheOk limit cache seen) :
    CacheOk limit (cache.releaseUnappliedClientRequestId identity) seen := by
  unfold ClientResponseCacheState.releaseUnappliedClientRequestId
  split
  · rename_i hany
    cases hc : cache.entries[identity.requestId]? with
    | none =>
      rw [hc] at hany
      cases hany
    | some cached =>
      rw [hc] at hany
      simp only [Option.any_some, Bool.and_eq_true, Bool.not_eq_true'] at hany
      exact h.erase hc hany.1
  · exact h

/-- A response is put under an id that is marked as applied. -/
theorem answer (h : CacheOk limit cache seen) {old : CachedClientResponse}
    (hold : cache.entries[requestId]? = some old) (happ : old.applied = true) (hnew : cached.applied = true) :
    CacheOk limit
      { entries := cache.entries.insert requestId cached
        order := cache.order.filter (· ≠ requestId) ++ [requestId] } seen := by
  have hseen : seen requestId := (h.applied requestId).1 ⟨old, hold, happ⟩
  have hget : (cache.entries.insert requestId cached)[requestId]? = some cached := by
    rw [OrdMap.get_insert, if_pos rfl]
  refine ((h.insert hold fun _ => hnew).moveBack hget).congr fun id => ?_
  constructor
  · intro hor
    rcases hor with hid | ⟨_, rfl⟩
    · exact hid
    · exact hseen
  · exact .inl

theorem observe (h : CacheOk limit cache seen) {response : Response}
    (happ : cache.entries[response.correlationUuid]?.all (·.applied) = true) :
    CacheOk limit (cache.observe response) seen := by
  unfold ClientResponseCacheState.observe
  dsimp only
  cases hc : cache.entries[response.correlationUuid]? with
  | none => exact h
  | some cached =>
    rw [hc] at happ
    exact h.answer hc happ rfl

theorem rememberClientResponse (h : CacheOk limit cache seen) {response : Response}
    (happ : cache.entries[identity.requestId]?.any (·.applied) = true) :
    CacheOk limit (cache.rememberClientResponse limit identity response) seen := by
  cases hc : cache.entries[identity.requestId]? with
  | none =>
    rw [hc] at happ
    cases happ
  | some cached =>
    rw [hc] at happ
    have hin : cache.entries.contains identity.requestId = true :=
      Std.ExtTreeMap.contains_iff_mem.2 (OrdMap.mem_iff_get.2 ⟨cached, hc⟩)
    have hok : CacheOk limit
        { entries := cache.entries.insert identity.requestId ⟨identity.requestFingerprint, true, some response⟩
          order := cache.order.filter (· ≠ identity.requestId) ++ [identity.requestId] } seen :=
      h.answer hc happ rfl
    unfold ClientResponseCacheState.rememberClientResponse ClientResponseCacheState.push
    rw [if_pos hin, trim_of_le hok.room]
    exact hok

theorem handle (h : CacheOk limit cache seen) {ev : ResponseEvent} (hroom : cache.roomFor limit ev = true) :
    CacheOk limit (cache.handle limit ev) seen := by
  cases ev with
  | reserve identity =>
    simp only [ClientResponseCacheState.roomFor, hasRoom, Bool.or_eq_true, decide_eq_true_eq] at hroom
    unfold ClientResponseCacheState.handle
    dsimp only
    split
    · exact h
    · rename_i hok
      exact h.reserveClientRequestId hroom hok
  | release identity => exact h.releaseUnappliedClientRequestId
  | observe response => exact h.observe hroom
  | remember identity response => exact h.rememberClientResponse hroom

/-! ### Snapshots -/

theorem mem_snapshotEntries (h : CacheOk limit cache seen) :
    requestId ∈ cache.clientResponseSnapshotEntries.map (·.requestId) ↔ seen requestId := by
  rw [← h.applied]
  simp only [clientResponseSnapshotEntries, List.mem_map, List.mem_filterMap, Option.map_eq_some_iff,
    Option.filter_eq_some_iff]
  constructor
  · intro ⟨entry, ⟨id, _, cached, hc, he⟩, hid⟩
    subst he
    subst hid
    exact ⟨cached, hc⟩
  · intro ⟨cached, hc, happ⟩
    exact ⟨_, ⟨requestId, (h.order requestId).2 ⟨cached, hc⟩, cached, ⟨hc, happ⟩, rfl⟩, rfl⟩

theorem snapshotEntries_sublist (cache : ClientResponseCacheState) :
    (cache.clientResponseSnapshotEntries.map (·.requestId)).Sublist cache.order := by
  unfold clientResponseSnapshotEntries
  induction cache.order with
  | nil => exact List.Sublist.refl _
  | cons id ids ih =>
    rw [List.filterMap_cons]
    cases hc : cache.entries[id]?.filter (·.applied) with
    | none => exact ih.cons _
    | some cached => exact ih.cons_cons _

theorem push_order (h : cache.entries.size < limit) :
    (cache.push limit requestId cached).order = cache.order ++ [requestId] := by
  have hsize : (cache.entries.insert requestId cached).size ≤ limit := by
    rw [Std.ExtTreeMap.size_insert]
    split <;> omega
  rw [ClientResponseCacheState.push, trim_of_le hsize]

/-- The loop of `restore_client_response_cache`, when everything fits. -/
theorem restored {entries : List ClientResponseSnapshotEntry} (hnd : (entries.map (·.requestId)).Nodup)
    (hlen : entries.length ≤ limit) :
    let cache := entries.foldl
      (fun cache entry => cache.push limit entry.requestId ⟨entry.requestFingerprint, true, entry.response⟩)
      ({} : ClientResponseCacheState)
    cache.order = entries.map (·.requestId) ∧ CacheOk limit cache (· ∈ entries.map (·.requestId)) := by
  induction entries using List.reverseRecOn with
  | nil => exact ⟨rfl, empty fun _ h => (by cases h)⟩
  | append_singleton entries entry ih =>
    rw [List.map_append, List.nodup_append] at hnd
    rw [List.length_append, List.length_singleton] at hlen
    obtain ⟨horder, hok⟩ := ih hnd.1 (by omega)
    rw [List.foldl_append]
    generalize entries.foldl
      (fun cache entry => cache.push limit entry.requestId ⟨entry.requestFingerprint, true, entry.response⟩)
      ({} : ClientResponseCacheState) = cache at horder hok ⊢
    have hroom : cache.entries.size < limit := by
      rw [hok.size_eq, horder, List.length_map]
      omega
    have hnone : cache.entries[entry.requestId]? = none := by
      cases hc : cache.entries[entry.requestId]? with
      | none => rfl
      | some cached =>
        have hmem := (hok.order entry.requestId).2 ⟨cached, hc⟩
        rw [horder] at hmem
        exact absurd rfl (hnd.2.2 _ hmem entry.requestId (by simp))
    refine ⟨?_, (hok.push hnone hroom).congr fun id => by simp⟩
    rw [List.foldl_cons, List.foldl_nil, push_order hroom, horder, List.map_append]
    rfl

end CacheOk

/-- A snapshot's entries have the ids of `seen`, each once, and the cache has room for
them. -/
def SnapshotIds (limit : Nat) (entries : List ClientResponseSnapshotEntry) (seen : String → Prop) : Prop :=
  (entries.map (·.requestId)).Nodup ∧ entries.length ≤ limit ∧
    ∀ requestId, requestId ∈ entries.map (·.requestId) ↔ seen requestId

theorem CacheOk.snapshotIds {limit : Nat} {cache : ClientResponseCacheState} {seen : String → Prop}
    (h : CacheOk limit cache seen) : SnapshotIds limit cache.clientResponseSnapshotEntries seen := by
  have hsub := snapshotEntries_sublist cache
  have hle := hsub.length_le
  rw [List.length_map, ← h.size_eq] at hle
  exact ⟨h.nodup.sublist hsub, hle.trans h.room, fun id => h.mem_snapshotEntries⟩

theorem SnapshotIds.restore {limit : Nat} {entries : List ClientResponseSnapshotEntry} {seen : String → Prop}
    (h : SnapshotIds limit entries seen) {cache : ClientResponseCacheState}
    (hok : ClientResponseCacheState.restoreClientResponseCache limit entries = .ok cache) :
    CacheOk limit cache seen := by
  obtain ⟨hnd, hlen, hseen⟩ := h
  unfold ClientResponseCacheState.restoreClientResponseCache at hok
  cases hv : validateSnapshotClientResponseEntries ∅ entries with
  | error e =>
    rw [hv] at hok
    cases hok
  | ok fingerprints =>
    rw [hv] at hok
    cases hok
    exact (CacheOk.restored hnd hlen).2.congr hseen

/-! ## Runs -/

/-- An entry among the first `k` has this request id. -/
def Seen (log : List (Option RequestIdentity)) (k : Nat) (requestId : String) : Prop :=
  ∃ identity, some identity ∈ log.take k ∧ identity.requestId = requestId

theorem seen_succ {log : List (Option RequestIdentity)} {k : Nat} {entry : Option RequestIdentity}
    (h : log[k]? = some entry) {requestId : String} :
    Seen log (k + 1) requestId ↔ Seen log k requestId ∨ ∃ identity ∈ entry, identity.requestId = requestId := by
  have htake : log.take (k + 1) = log.take k ++ [entry] := by
    rw [List.take_add_one, h]
    rfl
  simp only [Seen, htake, List.mem_append, List.mem_singleton, or_and_right, exists_or, Option.mem_def, eq_comm]

namespace Deduplication

variable {ν : Type} {maxEntries : Nat} {log : List (Option RequestIdentity)} {s s' : Deduplication ν}

/-- Every cache and every snapshot marks what the log has up to its index, and
every decision was to apply the entry if its id was new. -/
structure Ok (maxEntries : Nat) (log : List (Option RequestIdentity)) (s : Deduplication ν) : Prop where
  cache : ∀ i, CacheOk (cacheLimit maxEntries) (s.cache i) (Seen log (s.lastApplied i))
  snapshots : ∀ snapshot ∈ s.snapshots, SnapshotIds (cacheLimit maxEntries) snapshot.2 (Seen log snapshot.1)
  decisions : ∀ d ∈ s.decisions, ∃ k identity, d.index = k + 1 ∧ log[k]? = some (some identity) ∧
    (d.applied = true ↔ ¬Seen log k identity.requestId)

theorem ok_start : Ok maxEntries log ({} : Deduplication ν) where
  cache _ := CacheOk.empty fun _ ⟨_, hmem, _⟩ => (by simp at hmem)
  snapshots _ h := by cases h
  decisions _ h := by cases h

theorem Ok.agree (h : Ok maxEntries log s) : s.Agree := by
  intro d hd d' hd' hindex
  obtain ⟨k, identity, hk, hlog, happ⟩ := h.decisions d hd
  obtain ⟨k', identity', hk', hlog', happ'⟩ := h.decisions d' hd'
  obtain rfl : k = k' := by omega
  obtain rfl : identity = identity' := by
    rw [hlog] at hlog'
    simpa using hlog'
  exact Bool.eq_iff_iff.2 (happ.trans happ'.symm)

variable [DecidableEq ν] {i : ν}

theorem Ok.setNode (h : Ok maxEntries log s) {cache : ClientResponseCacheState} {k : Nat}
    (hcache : CacheOk (cacheLimit maxEntries) cache (Seen log k)) : Ok maxEntries log (s.setNode i cache k) := by
  refine { h with cache := fun j => ?_ }
  simp only [Deduplication.setNode, setCache]
  by_cases hj : j = i
  · subst hj
    simpa using hcache
  · simpa [hj] using h.cache j

theorem Ok.setCache (h : Ok maxEntries log s) {cache : ClientResponseCacheState}
    (hcache : CacheOk (cacheLimit maxEntries) cache (Seen log (s.lastApplied i))) :
    Ok maxEntries log (s.setCache i cache) := by
  have heq : s.setNode i cache (s.lastApplied i) = s.setCache i cache := by
    simp [Deduplication.setNode, Deduplication.setCache]
  exact heq ▸ h.setNode hcache

theorem Ok.restore (h : Ok maxEntries log s) {snapshot : CacheSnapshot} (hmem : snapshot ∈ s.snapshots) :
    Ok maxEntries log (s.restore maxEntries i snapshot) := by
  unfold Deduplication.restore
  split
  · rename_i cache hok
    exact h.setNode ((h.snapshots snapshot hmem).restore hok)
  · exact h

theorem Ok.applyNext (h : Ok maxEntries log s) (hroom : s.roomFor maxEntries log i .applyNext = true) :
    Ok maxEntries log (s.applyNext maxEntries log i) := by
  unfold Deduplication.applyNext
  split
  · exact h
  · rename_i hlog
    exact h.setNode ((h.cache i).congr fun id => (by simp [seen_succ hlog]))
  · rename_i identity hlog
    simp only [roomFor, hlog, Option.getD_some, Option.all_some, Bool.or_eq_true, decide_eq_true_eq] at hroom
    split
    · exact h
    · rename_i applied cache hok
      obtain ⟨hcache, happ⟩ := (h.cache i).beginClientRequestApply hroom hok
      have hnode : Ok maxEntries log (s.setNode i cache (s.lastApplied i + 1)) :=
        h.setNode (hcache.congr fun id => (by simp [seen_succ hlog, eq_comm]))
      refine { hnode with decisions := fun d hd => ?_ }
      rcases List.mem_cons.1 hd with rfl | hd
      · exact ⟨s.lastApplied i, identity, rfl, hlog, happ⟩
      · exact h.decisions d hd

theorem Ok.step (h : Ok maxEntries log s) {e : CacheEvent} (hroom : s.roomFor maxEntries log i e = true) :
    Ok maxEntries log (s.step maxEntries log i e) := by
  cases e with
  | applyNext => exact h.applyNext hroom
  | reserve identity =>
    simp only [roomFor, Bool.or_eq_true, decide_eq_true_eq] at hroom
    unfold Deduplication.step
    dsimp only
    split
    · exact h
    · rename_i free cache hok
      exact h.setCache ((h.cache i).reserveClientRequestId hroom hok)
  | release identity => exact h.setCache (h.cache i).releaseUnappliedClientRequestId
  | observe response => exact h.setCache ((h.cache i).observe hroom)
  | remember identity response => exact h.setCache ((h.cache i).rememberClientResponse hroom)
  | writeSnapshot =>
    refine { h with snapshots := fun snapshot hs => ?_ }
    rcases List.mem_append.1 hs with hs | hs
    · exact h.snapshots snapshot hs
    · rw [List.mem_singleton.1 hs]
      exact (h.cache i).snapshotIds
  | install k =>
    unfold Deduplication.step
    dsimp only
    split
    · exact h
    · rename_i snapshot hk
      split
      · exact h.restore (List.mem_of_getElem? hk)
      · exact h
  | restart k =>
    cases k with
    | none => exact h.setNode (CacheOk.empty fun _ ⟨_, hmem, _⟩ => (by simp at hmem))
    | some k =>
      unfold Deduplication.step
      dsimp only
      split
      · exact h
      · rename_i snapshot hk
        exact h.restore (List.mem_of_getElem? hk)

/-- **The decisions on an entry agree** in every run whose steps all find room in
the cache and put no response under an id that is only reserved. -/
theorem decisions_agree {events : List (ν × CacheEvent)}
    (h : Trace (RoomyStep maxEntries log) ({} : Deduplication ν) events s) : s.Agree := by
  have hok : Ok maxEntries log s := by
    refine h.inv (fun t e t' _ hstep ht => ?_) ok_start
    obtain ⟨hroom, rfl⟩ := hstep
    exact ht.step hroom
  exact hok.agree

/-! A request and its retry, on a leader (`true`) and on a follower. -/

def retried : RequestIdentity := ⟨"a", "fp-a"⟩

def retriedResponse : Response := .lock "a" "k" true 0 (some "u") (some 1) none none

def retriedLog : List (Option RequestIdentity) := [some retried, some retried]

/-- The leader admits and applies the request, then its retry; so does the follower. -/
def retryEvents : List (Bool × CacheEvent) :=
  [(true, .reserve retried), (true, .applyNext), (true, .observe retriedResponse),
    (true, .remember retried retriedResponse), (true, .applyNext),
    (false, .applyNext), (false, .observe retriedResponse), (false, .applyNext)]

theorem roomy_retry : Trace (RoomyStep 2 retriedLog) ({} : Deduplication Bool) retryEvents
    (({} : Deduplication Bool).run 2 retriedLog retryEvents) := by
  unfold retryEvents
  iterate 8 refine .cons ⟨by decide +kernel, rfl⟩ ?_
  exact .nil _

/-- With room for two ids, both skip the retry. -/
theorem decisions_agree_retry :
    (⟨true, 2, false⟩ : Decision Bool) ∈ (({} : Deduplication Bool).run 2 retriedLog retryEvents).decisions ∧
      (({} : Deduplication Bool).run 2 retriedLog retryEvents).Agree :=
  ⟨by decide +kernel, decisions_agree roomy_retry⟩

/-- The same, but another request is admitted and given up before the retry. -/
def crowdedEvents : List (Bool × CacheEvent) :=
  [(true, .reserve retried), (true, .applyNext), (true, .observe retriedResponse),
    (true, .remember retried retriedResponse), (true, .reserve ⟨"b", "fp-b"⟩), (true, .release ⟨"b", "fp-b"⟩),
    (true, .reserve retried), (true, .applyNext),
    (false, .applyNext), (false, .observe retriedResponse), (false, .applyNext)]

/-- With room for one id, the leader has forgotten the request when the retry comes:
it applies it again, and the follower skips it. -/
theorem decisions_differ_crowded :
    ¬∀ (maxEntries : Nat) (log : List (Option RequestIdentity)) (events : List (Bool × CacheEvent)),
      (({} : Deduplication Bool).run maxEntries log events).Agree := by
  intro hall
  have hleader : (⟨true, 2, true⟩ : Decision Bool) ∈
      (({} : Deduplication Bool).run 1 retriedLog crowdedEvents).decisions := by decide +kernel
  have hfollower : (⟨false, 2, false⟩ : Decision Bool) ∈
      (({} : Deduplication Bool).run 1 retriedLog crowdedEvents).decisions := by decide +kernel
  cases hall 1 retriedLog crowdedEvents _ hleader _ hfollower rfl

end Deduplication

end LiveMutex.Raft
