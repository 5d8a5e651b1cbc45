/-
A FIFO queue whose elements carry a key, at most one element a key: a push of
a key that is already queued is refused and leaves the queue as it was, an
element can be taken out of the middle by its key, and iteration goes from
head to tail.

This is the documented contract of the `linked-queue` crate (`try_push_back`,
`try_push_front`, `pop_front`, `remove`, `iter`), not its arena of linked nodes.
-/
import Mathlib.Data.List.Nodup

/-- Keyed FIFO queue, head first. -/
structure LinkedQueue (κ ν : Type) where
  entries : List (κ × ν)
  nodup : (entries.map Prod.fst).Nodup

namespace LinkedQueue

variable {κ ν : Type}

@[ext] theorem ext {p q : LinkedQueue κ ν} (h : p.entries = q.entries) : p = q := by
  cases p; cases q; cases h; rfl

/-- Two entries of one key are the same entry. -/
theorem eq_of_mem {q : LinkedQueue κ ν} {k : κ} {v w : ν} (hv : (k, v) ∈ q.entries)
    (hw : (k, w) ∈ q.entries) : v = w := by
  have := List.inj_on_of_nodup_map q.nodup hv hw rfl
  exact congrArg Prod.snd this

def empty : LinkedQueue κ ν := ⟨[], by simp⟩

def len (q : LinkedQueue κ ν) : Nat := q.entries.length

def isEmpty (q : LinkedQueue κ ν) : Bool := q.entries.isEmpty

def front (q : LinkedQueue κ ν) : Option (κ × ν) := q.entries.head?

/-- The head element, and the queue without it. -/
def popFront (q : LinkedQueue κ ν) : Option (κ × ν) × LinkedQueue κ ν :=
  (q.entries.head?, ⟨q.entries.tail, by rw [List.map_tail]; exact q.nodup.tail⟩)

/-- The queue with only the elements that pass the test. -/
def filter (q : LinkedQueue κ ν) (f : κ → ν → Bool) : LinkedQueue κ ν :=
  ⟨q.entries.filter fun e => f e.1 e.2, (List.filter_sublist.map _).nodup q.nodup⟩

@[simp] theorem entries_filter (q : LinkedQueue κ ν) (f : κ → ν → Bool) :
    (q.filter f).entries = q.entries.filter fun e => f e.1 e.2 := rfl

@[simp] theorem entries_empty : (empty : LinkedQueue κ ν).entries = [] := rfl

@[simp] theorem isEmpty_eq {q : LinkedQueue κ ν} : q.isEmpty = q.entries.isEmpty := rfl

@[simp] theorem entries_popFront (q : LinkedQueue κ ν) : q.popFront.2.entries = q.entries.tail := rfl

/-! ## Who stands before whom -/

/-- The entry `e` is queued, and every entry before it is in `A`. -/
def Behind (q : LinkedQueue κ ν) (A : κ × ν → Prop) (e : κ × ν) : Prop :=
  ∃ pre post, q.entries = pre ++ e :: post ∧ ∀ f ∈ pre, A f

namespace Behind

variable {q : LinkedQueue κ ν} {A : κ × ν → Prop} {e : κ × ν}

theorem mem (h : q.Behind A e) : e ∈ q.entries := by
  obtain ⟨pre, post, hq, _⟩ := h
  simp [hq]

/-- The head is the entry itself or stands before it. -/
theorem front {f : κ × ν} (h : q.Behind A e) (hf : q.front = some f) : f = e ∨ A f := by
  obtain ⟨pre, post, hq, hpre⟩ := h
  rw [LinkedQueue.front, hq] at hf
  cases pre with
  | nil => exact .inl (Option.some.inj hf).symm
  | cons f' pre =>
    obtain rfl := Option.some.inj hf
    exact .inr (hpre f' (by simp))

/-- Someone else leaves the head. -/
theorem popFront {f : κ × ν} (h : q.Behind A e) (hf : q.front = some f) (hne : f ≠ e) : q.popFront.2.Behind A e := by
  obtain ⟨pre, post, hq, hpre⟩ := h
  rw [LinkedQueue.front, hq] at hf
  cases pre with
  | nil => exact absurd (Option.some.inj hf).symm hne
  | cons f' pre =>
    refine ⟨pre, post, ?_, fun f hf => hpre f (by simp [hf])⟩
    rw [entries_popFront, hq]
    rfl

/-- Some leave, and it stays. -/
theorem of_filter {q' : LinkedQueue κ ν} (h : q.Behind A e) {keep : κ × ν → Bool}
    (hq' : q'.entries = q.entries.filter keep) (he : e ∈ q'.entries) : q'.Behind A e := by
  obtain ⟨pre, post, hq, hpre⟩ := h
  rw [hq', List.mem_filter] at he
  refine ⟨pre.filter keep, post.filter keep, ?_, fun f hf => hpre f (List.mem_of_mem_filter hf)⟩
  rw [hq', hq, List.filter_append, List.filter_cons_of_pos he.2]

end Behind

/-- No entry is queued twice. -/
theorem not_mem_popFront {q : LinkedQueue κ ν} {e : κ × ν} (h : q.front = some e) : e ∉ q.popFront.2.entries := by
  have hnodup := q.nodup
  cases hq : q.entries with
  | nil => rw [front, hq] at h; cases h
  | cons f rest =>
    rw [front, hq] at h
    obtain rfl := Option.some.inj h
    rw [hq, List.map_cons, List.nodup_cons] at hnodup
    rw [entries_popFront, hq]
    exact fun hmem => hnodup.1 (List.mem_map_of_mem hmem)

variable [DecidableEq κ]

instance [DecidableEq ν] : DecidableEq (LinkedQueue κ ν) := fun p q =>
  decidable_of_iff (p.entries = q.entries) ⟨ext, fun h => h ▸ rfl⟩

def contains (q : LinkedQueue κ ν) (k : κ) : Bool := k ∈ q.entries.map Prod.fst

/-- Append at the tail; `false` and no change when the key is queued. -/
def pushBack (q : LinkedQueue κ ν) (k : κ) (v : ν) : LinkedQueue κ ν × Bool :=
  if h : q.contains k then (q, false)
  else
    (⟨q.entries ++ [(k, v)], by
      simp only [contains, decide_eq_true_eq] at h
      simpa [List.nodup_append, q.nodup] using fun a b hb he => h (by simpa using ⟨b, he ▸ hb⟩)⟩, true)

/-- Push at the head; `false` and no change when the key is queued. -/
def pushFront (q : LinkedQueue κ ν) (k : κ) (v : ν) : LinkedQueue κ ν × Bool :=
  if h : q.contains k then (q, false)
  else
    (⟨(k, v) :: q.entries, by
      simp only [contains, decide_eq_true_eq] at h
      rw [List.map_cons, List.nodup_cons]
      exact ⟨h, q.nodup⟩⟩, true)

/-- Take the element of a key out, wherever it stands. -/
def remove (q : LinkedQueue κ ν) (k : κ) : LinkedQueue κ ν :=
  ⟨q.entries.filter fun e => e.1 ≠ k, (List.filter_sublist.map _).nodup q.nodup⟩

/-! ## Entries of the operations -/

theorem contains_iff {q : LinkedQueue κ ν} {k : κ} : q.contains k = true ↔ ∃ v, (k, v) ∈ q.entries := by
  simp [contains]

@[simp] theorem entries_remove (q : LinkedQueue κ ν) (k : κ) :
    (q.remove k).entries = q.entries.filter fun e => e.1 ≠ k := rfl

theorem entries_pushBack (q : LinkedQueue κ ν) (k : κ) (v : ν) :
    (q.pushBack k v).1.entries = if q.contains k then q.entries else q.entries ++ [(k, v)] := by
  unfold pushBack
  split <;> simp_all

theorem entries_pushFront (q : LinkedQueue κ ν) (k : κ) (v : ν) :
    (q.pushFront k v).1.entries = if q.contains k then q.entries else (k, v) :: q.entries := by
  unfold pushFront
  split <;> simp_all

theorem mem_pushBack {q : LinkedQueue κ ν} {k : κ} {v : ν} {e : κ × ν}
    (h : e ∈ (q.pushBack k v).1.entries) : e ∈ q.entries ∨ e = (k, v) := by
  rw [entries_pushBack] at h
  split at h
  · exact .inl h
  · simpa using h

theorem mem_pushFront {q : LinkedQueue κ ν} {k : κ} {v : ν} {e : κ × ν}
    (h : e ∈ (q.pushFront k v).1.entries) : e ∈ q.entries ∨ e = (k, v) := by
  rw [entries_pushFront] at h
  split at h
  · exact .inl h
  · rw [List.mem_cons] at h; exact h.symm

/-- A push leaves a non-empty queue, also when it is refused. -/
theorem pushBack_ne_nil (q : LinkedQueue κ ν) (k : κ) (v : ν) : (q.pushBack k v).1.entries ≠ [] := by
  rw [entries_pushBack]
  split
  · rename_i h
    obtain ⟨w, hw⟩ := contains_iff.1 h
    exact List.ne_nil_of_mem hw
  · simp

/-- A push at the tail does not change who stands first in a non-empty queue. -/
theorem front_pushBack (q : LinkedQueue κ ν) (k : κ) (v : ν) :
    (q.pushBack k v).1.front = if q.entries = [] then some (k, v) else q.front := by
  unfold front
  rw [entries_pushBack]
  split
  · rename_i h
    obtain ⟨w, hw⟩ := contains_iff.1 h
    rw [if_neg (List.ne_nil_of_mem hw)]
  · cases hq : q.entries <;> simp

/-! ## Refilling a queue -/

theorem mem_foldl_pushBack {ε : Type} (key : ε → κ) (val : ε → ν) {x : κ × ν} :
    ∀ (es : List ε) (q : LinkedQueue κ ν), x ∈ (es.foldl (fun q e => (q.pushBack (key e) (val e)).1) q).entries →
      x ∈ q.entries ∨ ∃ e ∈ es, x = (key e, val e)
  | [], _, h => .inl h
  | e :: es, q, h => by
    rcases mem_foldl_pushBack key val es _ h with h | ⟨e', he', h⟩
    · exact (mem_pushBack h).imp_right fun h => ⟨e, by simp, h⟩
    · exact .inr ⟨e', by simp [he'], h⟩

/-- Pushing something leaves something. -/
theorem foldl_pushBack_ne_nil {ε : Type} (key : ε → κ) (val : ε → ν) :
    ∀ (es : List ε) (q : LinkedQueue κ ν), q.entries ≠ [] ∨ es ≠ [] →
      (es.foldl (fun q e => (q.pushBack (key e) (val e)).1) q).entries ≠ []
  | [], _, h => h.elim id (fun hne => absurd rfl hne)
  | e :: es, q, _ => foldl_pushBack_ne_nil key val es _ (.inl (pushBack_ne_nil q (key e) (val e)))

/-- Pushing elements of distinct keys keeps their order. -/
theorem entries_foldl_pushBack {ε : Type} (key : ε → κ) (val : ε → ν) :
    ∀ (es : List ε) (q : LinkedQueue κ ν), (q.entries.map Prod.fst ++ es.map key).Nodup →
      (es.foldl (fun q e => (q.pushBack (key e) (val e)).1) q).entries =
        q.entries ++ es.map fun e => (key e, val e)
  | [], q, _ => by simp
  | e :: es, q, h => by
    have hnew : q.contains (key e) = false := by
      rw [Bool.eq_false_iff]
      intro hc
      simp only [contains, decide_eq_true_eq] at hc
      exact List.disjoint_of_nodup_append h hc (by simp)
    have he : (q.pushBack (key e) (val e)).1.entries = q.entries ++ [(key e, val e)] := by
      rw [entries_pushBack, hnew]; rfl
    rw [List.foldl_cons, entries_foldl_pushBack key val es _ (by rw [he]; simpa using h), he]
    simp

namespace Behind

variable {q : LinkedQueue κ ν} {A : κ × ν → Prop} {e : κ × ν}

theorem pushBack (h : q.Behind A e) (k : κ) (v : ν) : (q.pushBack k v).1.Behind A e := by
  obtain ⟨pre, post, hq, hpre⟩ := h
  rw [Behind, entries_pushBack]
  split
  · exact ⟨pre, post, hq, hpre⟩
  · exact ⟨pre, post ++ [(k, v)], by rw [hq]; simp, hpre⟩

theorem pushFront (h : q.Behind A e) {k : κ} {v : ν} (hA : A (k, v)) : (q.pushFront k v).1.Behind A e := by
  obtain ⟨pre, post, hq, hpre⟩ := h
  rw [Behind, entries_pushFront]
  split
  · exact ⟨pre, post, hq, hpre⟩
  · refine ⟨(k, v) :: pre, post, by rw [hq]; rfl, fun f hf => ?_⟩
    rcases List.mem_cons.1 hf with rfl | hf
    · exact hA
    · exact hpre f hf

end Behind

end LinkedQueue
