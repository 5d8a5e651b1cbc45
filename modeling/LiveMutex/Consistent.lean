/-
One lock uuid, one lock. A waiter that has reserved a uuid, a handle that notes it
and a deadline under it all speak of the same keys and, as far as they know, of the
same client (`Agrees`); every stake under the uuid is one of theirs (`Consistent`).
A uuid that has not been drawn yet is in no use.

Two rules carry this: what only loses entries stays consistent (`Sheds`), and so does
what adds entries of one lock that is new or already known (`Adds`).
-/
import LiveMutex.Restored

namespace LiveMutex

namespace Ledger

variable {v v' : Ledger} {env : Env} {k u w : String} {kind : RwHoldKind} {s : Stake} {c c' : ClientId}
  {ko ko' : KeysOfLock} {p : PendingRequest} {n : Nat}

/-- The same client, as far as is known: a snapshot does not say whose a lock is. -/
def SameOwner (c c' : ClientId) : Prop := c = c' ∨ c = snapshotDetachedClient ∨ c' = snapshotDetachedClient

theorem SameOwner.symm (h : SameOwner c c') : SameOwner c' c :=
  h.elim (fun h => .inl h.symm) fun h => .inr h.symm

/-- Whose the lock `u` is and what it consists of, as an entry of the ledger has it. -/
inductive Records (v : Ledger) (u : String) : ClientId → KeysOfLock → Prop
  | waiter {k x : String} {p : PendingRequest} (hw : v.Waits k x p) (hu : p.reserved = some u) :
      Records v u p.client (p.wants k)
  | handle {c : ClientId} {h : ClientHandle} {ko : KeysOfLock} (hc : v.handle c = some h)
      (hu : h.heldLockUuids[u]? = some ko) : Records v u c ko
  | deadline {dk : DeadlineKey} {e : DeadlineEntry} (hd : v.due dk = some e) (hu : e.lockUuid = u) :
      Records v u e.client ⟨e.keys, e.kind⟩

/-- The lock uuid is on record. -/
def Known (v : Ledger) (u : String) : Prop := ∃ c ko, v.Records u c ko

/-- The lock uuid is in use. -/
def Uses (v : Ledger) (u : String) : Prop := (∃ c ko, v.Records u c ko) ∨ ∃ k kind s, v.stake k kind u = some s

/-- What is on record under one uuid is one lock. -/
structure Agrees (env : Env) (v : Ledger) : Prop where
  agree {u : String} {c c' : ClientId} {ko ko' : KeysOfLock} : v.Records u c ko → v.Records u c' ko' → ko = ko' ∧ SameOwner c c'
  undrawn {n : Nat} : v.reads ≤ n → ¬v.Known (env.newV4 n)
  zero : v.handle snapshotDetachedClient = none

structure Consistent (env : Env) (v : Ledger) : Prop extends Agrees env v where
  fits {u k : String} {c : ClientId} {ko : KeysOfLock} {kind : RwHoldKind} {s : Stake} : v.Records u c ko →
    v.stake k kind u = some s →
    k ∈ ko.keys ∧ kind = ko.rwKind ∧ SameOwner s.client c
  unstaked {n : Nat} {k : String} {kind : RwHoldKind} {s : Stake} : v.reads ≤ n → v.stake k kind (env.newV4 n) ≠ some s

theorem Consistent.unused (h : v.Consistent env) (hn : v.reads ≤ n) : ¬v.Uses (env.newV4 n) := by
  rintro (hk | ⟨k, kind, s, hs⟩)
  · exact h.undrawn hn hk
  · exact h.unstaked hn hs

/-! ## Entries go -/

/-- A deadline for every uuid, at most. -/
def OneDue (v : Ledger) : Prop :=
  ∀ dk dk' e e', v.due dk = some e → v.due dk' = some e' → e.lockUuid = e'.lockUuid → dk = dk'

/-- Nothing is in the second ledger that was not in the first, save that it may no
longer be known whose it is. -/
structure Sheds (v v' : Ledger) : Prop where
  waits {k x : String} {p : PendingRequest} : v'.Waits k x p → ∃ p₀, v.Waits k x p₀ ∧ p.kind = p₀.kind ∧
    p.grantLockUuid = p₀.grantLockUuid ∧ p.client = p₀.client
  handle {a : ClientId} {h' : ClientHandle} {u : String} {ko : KeysOfLock} : v'.handle a = some h' →
    h'.heldLockUuids[u]? = some ko → ∃ h, v.handle a = some h ∧ h.heldLockUuids[u]? = some ko ∧
      h'.pendingRequestUuids = h.pendingRequestUuids
  due {dk : DeadlineKey} {e : DeadlineEntry} : v'.due dk = some e → ∃ dk₀ e₀, v.due dk₀ = some e₀ ∧
    e.lockUuid = e₀.lockUuid ∧ e.keys = e₀.keys ∧ e.kind = e₀.kind ∧
    (e.client = e₀.client ∨ e.client = snapshotDetachedClient)
  one : v.OneDue → v'.OneDue
  stake {k u : String} {kind : RwHoldKind} {s : Stake} : v'.stake k kind u = some s →
    ∃ s₀, v.stake k kind u = some s₀ ∧ (s.client = s₀.client ∨ s.client = snapshotDetachedClient)
  zero : v.handle snapshotDetachedClient = none → v'.handle snapshotDetachedClient = none

theorem reserved_congr {p q : PendingRequest} (hk : p.kind = q.kind) (hu : p.grantLockUuid = q.grantLockUuid) :
    p.reserved = q.reserved := by
  unfold PendingRequest.reserved
  rw [hk, hu]

theorem wants_congr {p q : PendingRequest} (hk : p.kind = q.kind) (key : String) : p.wants key = q.wants key := by
  unfold PendingRequest.wants
  rw [hk]

theorem Sheds.record (h : v.Sheds v') (hr : v'.Records u c ko) :
    ∃ c₀, v.Records u c₀ ko ∧ (c = c₀ ∨ c = snapshotDetachedClient) := by
  cases hr with
  | waiter hw hu =>
    obtain ⟨p₀, hw₀, hk, hg, hc⟩ := h.waits hw
    exact ⟨p₀.client, wants_congr hk _ ▸ .waiter hw₀ ((reserved_congr hk hg).symm.trans hu), .inl hc⟩
  | handle hc hu =>
    obtain ⟨h₀, hc₀, hu₀, _⟩ := h.handle hc hu
    exact ⟨_, .handle hc₀ hu₀, .inl rfl⟩
  | deadline hd hu =>
    obtain ⟨dk₀, e₀, hd₀, hu₀, hk, hkind, hc⟩ := h.due hd
    exact ⟨e₀.client, by rw [hk, hkind]; exact .deadline hd₀ (hu₀.symm.trans hu), hc⟩

theorem Sheds.known (h : v.Sheds v') (hu : v'.Known u) : v.Known u := by
  obtain ⟨c, ko, hr⟩ := hu
  obtain ⟨c₀, hr₀, _⟩ := h.record hr
  exact ⟨c₀, ko, hr₀⟩

theorem Sheds.uses (h : v.Sheds v') (hu : v'.Uses u) : v.Uses u := by
  rcases hu with hu | ⟨k, kind, s, hs⟩
  · exact .inl (h.known hu)
  · obtain ⟨s₀, hs₀, _⟩ := h.stake hs
    exact .inr ⟨k, kind, s₀, hs₀⟩

/-- The entries that are left say the same, or less. -/
theorem SameOwner.of_shed {c₀ c₀' : ClientId} (h : SameOwner c₀ c₀') (hc : c = c₀ ∨ c = snapshotDetachedClient)
    (hc' : c' = c₀' ∨ c' = snapshotDetachedClient) : SameOwner c c' := by
  rcases hc with rfl | rfl
  · rcases hc' with rfl | rfl
    · exact h
    · exact .inr (.inr rfl)
  · exact .inr (.inl rfl)

/-- The surroundings may be others, as long as what they bring is new. -/
theorem Agrees.moves {env' : Env} (hv : v.Agrees env') (h : v.Sheds v')
    (hnew : ∀ n, v'.reads ≤ n → ¬v.Known (env.newV4 n)) : v'.Agrees env where
  agree hs hs' := by
    obtain ⟨c₀, hs₀, hc⟩ := h.record hs
    obtain ⟨c₀', hs₀', hc'⟩ := h.record hs'
    obtain ⟨hko, hsame⟩ := hv.agree hs₀ hs₀'
    exact ⟨hko, hsame.of_shed hc hc'⟩
  undrawn hn hu := hnew _ hn (h.known hu)
  zero := h.zero hv.zero

theorem Agrees.sheds (hv : v.Agrees env) (h : v.Sheds v') (hr : v.reads ≤ v'.reads) : v'.Agrees env :=
  hv.moves h fun _ hn => hv.undrawn (hr.trans hn)

theorem Consistent.moves {env' : Env} (hv : v.Consistent env') (h : v.Sheds v')
    (hnew : ∀ n, v'.reads ≤ n → ¬v.Uses (env.newV4 n)) : v'.Consistent env where
  toAgrees := hv.toAgrees.moves h fun n hn hk => hnew n hn (.inl hk)
  fits hs hst := by
    obtain ⟨c₀, hs₀, hc⟩ := h.record hs
    obtain ⟨s₀, hst₀, hcl⟩ := h.stake hst
    obtain ⟨hk, hkind, hsame⟩ := hv.fits hs₀ hst₀
    exact ⟨hk, hkind, hsame.of_shed hcl hc⟩
  unstaked hn hs := hnew _ hn (h.uses (.inr ⟨_, _, _, hs⟩))

theorem Consistent.sheds (hv : v.Consistent env) (h : v.Sheds v') (hr : v.reads ≤ v'.reads) : v'.Consistent env :=
  hv.moves h fun _ hn => hv.unused (hr.trans hn)

theorem Sheds.asked (v : Ledger) (n : Nat) : v.Sheds (v.asked n) :=
  ⟨fun h => ⟨_, h, rfl, rfl, rfl⟩, fun h hu => ⟨_, h, hu, rfl⟩, fun h => ⟨_, _, h, rfl, rfl, rfl, .inl rfl⟩, id,
    fun h => ⟨_, h, .inl rfl⟩, id⟩

/-! ## A lock comes -/

/-- Nothing comes but entries of the lock `new`: its uuid, client, keys and kind. -/
structure Adds (v v' : Ledger) (new : Option (String × ClientId × KeysOfLock)) : Prop where
  record {w : String} {c : ClientId} {ko : KeysOfLock} : v'.Records w c ko → v.Records w c ko ∨ new = some (w, c, ko)
  stake {k w : String} {kind : RwHoldKind} {s : Stake} : v'.stake k kind w = some s → v.stake k kind w = some s ∨
    ∃ ko, new = some (w, s.client, ko) ∧ k ∈ ko.keys ∧ kind = ko.rwKind
  zero : v.handle snapshotDetachedClient = none → v'.handle snapshotDetachedClient = none
  reads : v.reads ≤ v'.reads

/-- **Entries of one lock are added**, a lock that is known under the uuid, or one
whose uuid is not on record and is not drawn again. -/
theorem Agrees.adds {new : Option (String × ClientId × KeysOfLock)} (hv : v.Agrees env) (h : v.Adds v' new)
    (hnew : ∀ {u c ko}, new = some (u, c, ko) → v.Records u c ko ∨ ¬v.Known u ∧ ∀ n, v'.reads ≤ n → env.newV4 n ≠ u) :
    v'.Agrees env where
  agree {w c₁ c₂ ko₁ ko₂} h₁ h₂ := by
    -- what was said before agrees with what is added
    have hold : ∀ {u c c' ko ko'}, new = some (u, c, ko) → v.Records u c' ko' → ko' = ko ∧ SameOwner c' c := by
      intro u c c' ko ko' hn hr
      rcases hnew hn with hu | ⟨hu, _⟩
      · exact hv.agree hr hu
      · exact absurd ⟨c', ko', hr⟩ hu
    rcases h.record h₁ with h₁ | h₁ <;> rcases h.record h₂ with h₂ | h₂
    · exact hv.agree h₁ h₂
    · exact hold h₂ h₁
    · obtain ⟨hko, hc⟩ := hold h₁ h₂
      exact ⟨hko.symm, hc.symm⟩
    · obtain ⟨_, rfl, rfl⟩ : w = w ∧ c₁ = c₂ ∧ ko₁ = ko₂ := by simpa using Option.some.inj (h₁.symm.trans h₂)
      exact ⟨rfl, .inl rfl⟩
  undrawn {n} hn hused := by
    obtain ⟨c, ko, hr⟩ := hused
    rcases h.record hr with hr | he
    · exact hv.undrawn (h.reads.trans hn) ⟨c, ko, hr⟩
    · rcases hnew he with hr | ⟨_, hu⟩
      · exact hv.undrawn (h.reads.trans hn) ⟨c, ko, hr⟩
      · exact hu n hn rfl
  zero := h.zero hv.zero

theorem Consistent.adds {new : Option (String × ClientId × KeysOfLock)} (hv : v.Consistent env) (h : v.Adds v' new)
    (hnew : ∀ {u c ko}, new = some (u, c, ko) → v.Records u c ko ∨ ¬v.Uses u ∧ ∀ n, v'.reads ≤ n → env.newV4 n ≠ u) :
    v'.Consistent env where
  toAgrees := hv.toAgrees.adds h fun he => (hnew he).imp_right fun hu => ⟨fun hk => hu.1 (.inl hk), hu.2⟩
  fits {w k c₁ ko₁ kind s} h₁ h₂ := by
    rcases h.record h₁ with h₁ | h₁ <;> rcases h.stake h₂ with h₂ | ⟨ko, h₂, hk, hkind⟩
    · exact hv.fits h₁ h₂
    · rcases hnew h₂ with hu | ⟨hu, _⟩
      · obtain ⟨rfl, hsame⟩ := hv.agree hu h₁
        exact ⟨hk, hkind, hsame⟩
      · exact absurd (.inl ⟨_, _, h₁⟩) hu
    · rcases hnew h₁ with hu | ⟨hu, _⟩
      · exact hv.fits hu h₂
      · exact absurd (.inr ⟨_, _, _, h₂⟩) hu
    · obtain ⟨_, rfl, rfl⟩ : w = w ∧ c₁ = s.client ∧ ko₁ = ko := by simpa using Option.some.inj (h₁.symm.trans h₂)
      exact ⟨hk, hkind, .inl rfl⟩
  unstaked {n k kind s} hn hs := by
    rcases h.stake hs with hs | ⟨ko, he, _⟩
    · exact hv.unstaked (h.reads.trans hn) hs
    · rcases hnew he with hr | ⟨_, hu⟩
      · exact hv.undrawn (h.reads.trans hn) ⟨_, _, hr⟩
      · exact hu n hn rfl

/-- A waiter is handed a key under its uuid, and its client's handle notes the lock. -/
theorem record_of_hand {key : String} {token : Nat} (h : (v.hand key p u token).Records w c ko) :
    v.Records w c ko ∨ some (u, p.client, p.wants key) = some (w, c, ko) := by
  cases h with
  | waiter hw hu => exact .inl (.waiter ((pop_sublist v key _).subset hw) hu)
  | handle hc hu =>
    rcases handle_of_note hc with hold | ⟨rfl, h, hold, rfl⟩
    · exact .inl (.handle hold hu)
    · change (h.heldLockUuids.insert u (p.wants key))[w]? = some ko at hu
      rw [OrdMap.get_insert] at hu
      split at hu
      · rename_i hw
        exact .inr (by rw [hw, Option.some.inj hu])
      · exact .inl (.handle hold hu)
  | deadline hd hu => exact .inl (.deadline hd hu)

theorem record_of_schedule {lo hi : Nat} {d : Option (DeadlineKey × DeadlineEntry)}
    (hd : ∀ e ∈ d, env.Dates lo hi u ko c e) (h : (v.schedule d).Records w c' ko') :
    v.Records w c' ko' ∨ some (u, c, ko) = some (w, c', ko') := by
  cases h with
  | waiter hw hu => exact .inl (.waiter hw hu)
  | handle hc hu => exact .inl (.handle hc hu)
  | deadline he hu =>
    rcases due_of_schedule he with he | he
    · exact .inl (.deadline he hu)
    · obtain rfl := (hd _ he).entry
      exact .inr (by rw [← hu])

theorem record_of_enqueue {key : String} {first : Bool} (h : (v.enqueue key p first).Records w c ko) :
    v.Records w c ko ∨ (p.reserved.map fun u => (u, p.client, p.wants key)) = some (w, c, ko) := by
  cases h with
  | waiter hw hu =>
    rcases waits_of_push hw with hw | ⟨rfl, _, rfl⟩
    · exact .inl (.waiter hw hu)
    · exact .inr (by rw [hu]; rfl)
  | handle hc hu =>
    rcases handle_of_note hc with hold | ⟨_, h, hold, rfl⟩
    · exact .inl (.handle hold hu)
    · exact .inl (.handle hold hu)
  | deadline hd hu => exact .inl (.deadline hd hu)

theorem record_of_award {token : String → Nat} {kept : Bool}
    (h : ((v.give ko.keys ko.rwKind u fun k => ⟨c, kept, token k⟩).note c fun h =>
      { h with heldLockUuids := h.heldLockUuids.insert u ko }).Records w c' ko') :
    v.Records w c' ko' ∨ some (u, c, ko) = some (w, c', ko') := by
  cases h with
  | waiter hw hu => exact .inl (.waiter hw hu)
  | handle hc hu =>
    rcases handle_of_note hc with hold | ⟨rfl, h, hold, rfl⟩
    · exact .inl (.handle hold hu)
    · dsimp only at hu
      rw [OrdMap.get_insert] at hu
      split at hu
      · rename_i hw
        exact .inr (by rw [hw, Option.some.inj hu])
      · exact .inl (.handle hold hu)
  | deadline hd hu => exact .inl (.deadline hd hu)

/-- Readings and answers are no records. -/
theorem Records.of_past {q : Past} (h : ({ v with past := q, reads := n } : Ledger).Records w c ko) :
    v.Records w c ko := by
  cases h with
  | waiter hw hu => exact .waiter hw hu
  | handle hc hu => exact .handle hc hu
  | deadline hd hu => exact .deadline hd hu

/-- The key a waiter is handed is one of those it wants. -/
theorem wants_keys {key : String} (h : ∀ a, p.kind = .composite a → key ∈ a.allKeys) : key ∈ (p.wants key).keys := by
  unfold PendingRequest.wants
  split
  · exact List.mem_singleton_self _
  · exact List.mem_singleton_self _
  · exact List.mem_singleton_self _
  · rename_i a ha
    exact h a ha

/-- The stakes of a lock that is handed out. -/
theorem stake_of_hand {key : String} {token : Nat} (hkey : key ∈ (p.wants key).keys)
    (h : (v.hand key p u token).stake k kind w = some s) : v.stake k kind w = some s ∨
      ∃ ko, some (u, p.client, p.wants key) = some (w, s.client, ko) ∧ k ∈ ko.keys ∧ kind = ko.rwKind := by
  change (v.give [key] (p.wants key).rwKind u fun _ => ⟨p.client, p.keeps, token⟩).stake k kind w = some s at h
  rcases stake_of_give h with h | ⟨rfl, hk, hkind, rfl⟩
  · exact .inl h
  · exact .inr ⟨_, rfl, List.mem_singleton.1 hk ▸ hkey, hkind⟩

/-- While waiters are granted, entries come of one lock at most, that of a waiter or one newly drawn. -/
theorem Grants.adds (h : v.Grants env v') : ∃ new, v.Adds v' new ∧
    ∀ {u c ko}, new = some (u, c, ko) → v.Records u c ko ∨ env.Drew v.reads v'.reads u := by
  cases h with
  | idle hn h =>
    subst h
    exact ⟨none, ⟨fun hr => .inl (.of_past hr), .inl, id, hn⟩, by simp⟩
  | @serve token key u p rest n a d hq hlast hu hn ha hd h =>
    subst h
    refine ⟨some (u, p.client, p.wants key), ⟨fun hr => ?_, stake_of_hand (wants_keys fun a ha => by simp [hlast a ha]),
      note_handle_none, hn⟩, fun he => ?_⟩
    · have hr' : ((v.hand key p u token).schedule d).Records _ _ _ := .of_past hr
      exact (record_of_schedule (fun e he => (hd e he).1) hr').elim record_of_hand .inr
    · obtain ⟨rfl, rfl, rfl⟩ : u = _ ∧ p.client = _ ∧ p.wants key = _ := by simpa using Option.some.inj he
      exact hu.imp (fun hres => .waiter (waits_head hq) hres) And.right
  | @advance token n key next p rest a more hq hp hr hn h =>
    subst h
    have hres : p.reserved = some a.compositeLockUuid := PendingRequest.reserved_of_composite hp
    have hwants : p.wants key = ⟨a.allKeys, .exclusive⟩ := by simp [PendingRequest.wants, hp]
    refine ⟨some (a.compositeLockUuid, p.client, p.wants key), ⟨fun hrec => ?_,
      stake_of_hand (by simp [hwants, hr]), fun hz => note_handle_none (note_handle_none hz), hn⟩, fun he => ?_⟩
    · rcases record_of_enqueue (.of_past hrec) with hrec | hrec
      · exact record_of_hand hrec
      · exact .inr (hwants ▸ hrec)
    · obtain ⟨rfl, rfl, rfl⟩ : a.compositeLockUuid = _ ∧ p.client = _ ∧ p.wants key = _ := by
        simpa using Option.some.inj he
      exact .inl (.waiter (waits_head hq) hres)

/-- While a request comes in, entries come of one lock at most, under the uuid it prescribes or one newly drawn. -/
theorem Enters.adds {op : Op} (h : v.Enters env op v') : ∃ new, v.Adds v' new ∧
    ∀ {u c ko}, new = some (u, c, ko) → op.given = some u ∨ env.Drew v.reads v'.reads u := by
  cases h with
  | still _ => exact ⟨none, ⟨.inl, .inl, id, le_rfl⟩, by simp⟩
  | @award lock kept token client r overrides u a d n _ hu hn _ hd =>
    refine ⟨some (u, client, lock), ⟨fun hr => ?_, fun hs => ?_, note_handle_none, hn⟩, fun he => ?_⟩
    · have hr' : (((v.give lock.keys lock.rwKind u fun k => ⟨client, kept, token k⟩).note client fun h =>
          { h with heldLockUuids := h.heldLockUuids.insert u lock }).schedule d).Records _ _ _ := .of_past hr
      exact (record_of_schedule hd hr').elim record_of_award .inr
    · change (v.give lock.keys lock.rwKind u fun k => ⟨client, kept, token k⟩).stake _ _ _ = some _ at hs
      rcases stake_of_give hs with hs | ⟨rfl, hk, hkind, rfl⟩
      · exact .inl hs
      · exact .inr ⟨_, rfl, hk, hkind⟩
    · obtain ⟨rfl, _⟩ : u = _ ∧ _ := by simpa using Option.some.inj he
      exact hu.imp_right And.right
  | @enqueue client r overrides key p first n _ _ _ _ hu hn =>
    refine ⟨p.reserved.map fun u => (u, p.client, p.wants key),
      ⟨fun hr => record_of_enqueue (.of_past hr), .inl, note_handle_none, hn⟩, fun he => ?_⟩
    obtain ⟨u, hres, heq⟩ := Option.map_eq_some_iff.1 he
    obtain ⟨rfl, _⟩ := Prod.mk.inj heq
    exact (hu u hres).imp_right And.right

/-- What is drawn now was not on record, and is not drawn again. -/
theorem Drew.new (hinj : Function.Injective env.newV4) {K : String → Prop} {n m : Nat} (hK : ∀ i, n ≤ i → ¬K (env.newV4 i))
    (h : env.Drew n m u) : ¬K u ∧ ∀ i, m ≤ i → env.newV4 i ≠ u := by
  obtain ⟨i, hlo, hhi, rfl⟩ := h
  refine ⟨hK i hlo, fun j hj he => ?_⟩
  have := hinj he
  omega

theorem Grants.agrees (hinj : Function.Injective env.newV4) (h : v.Grants env v') (hv : v.Agrees env) : v'.Agrees env := by
  obtain ⟨new, hadds, hnew⟩ := h.adds
  exact hv.adds hadds fun he => (hnew he).imp_right (Drew.new hinj fun _ => hv.undrawn)

theorem Grants.consistent (hinj : Function.Injective env.newV4) (h : v.Grants env v') (hv : v.Consistent env) :
    v'.Consistent env := by
  obtain ⟨new, hadds, hnew⟩ := h.adds
  exact hv.adds hadds fun he => (hnew he).imp_right (Drew.new hinj fun _ => hv.unused)

theorem Cascade.consistent (hinj : Function.Injective env.newV4) (h : v.Cascade env v') (hv : v.Consistent env) :
    v'.Consistent env :=
  h.inv hv (Grants.consistent hinj)

/-- While a request comes in: a uuid it prescribes is not on record. -/
theorem Enters.agrees {op : Op} (hinj : Function.Injective env.newV4) (h : v.Enters env op v') (hv : v.Agrees env)
    (hnew : ∀ u, op.given = some u → ¬v.Known u ∧ ∀ m, v.reads ≤ m → env.newV4 m ≠ u) : v'.Agrees env := by
  obtain ⟨new, hadds, hn⟩ := h.adds
  exact hv.adds hadds fun he => .inr ((hn he).elim
    (fun hg => ⟨(hnew _ hg).1, fun m hm => (hnew _ hg).2 m (hadds.reads.trans hm)⟩) (Drew.new hinj fun _ => hv.undrawn))

theorem Enters.consistent {op : Op} (hinj : Function.Injective env.newV4) (h : v.Enters env op v') (hv : v.Consistent env)
    (hnew : ∀ u, op.given = some u → ¬v.Uses u ∧ ∀ m, v.reads ≤ m → env.newV4 m ≠ u) : v'.Consistent env := by
  obtain ⟨new, hadds, hn⟩ := h.adds
  exact hv.adds hadds fun he => .inr ((hn he).elim
    (fun hg => ⟨(hnew _ hg).1, fun m hm => (hnew _ hg).2 m (hadds.reads.trans hm)⟩) (Drew.new hinj fun _ => hv.unused))

end Ledger

/-! ## Operations -/

/-- A uuid the broker knows: reserved by a waiter, under a deadline, or noted as
held. -/
def Broker.Known (b : Broker) (u : String) : Prop :=
  (∃ q x p, b.locks.Waits q x p ∧ p.reserved = some u) ∨
  (∃ (dk : DeadlineKey) (e : DeadlineEntry), b.deadlines[dk]? = some e ∧ e.lockUuid = u) ∨
  ∃ (c : ClientId) (h : ClientHandle) (ko : KeysOfLock), b.clients[c]? = some h ∧ h.heldLockUuids[u]? = some ko

theorem Broker.known_of_ledger {b : Broker} {u : String} (h : b.ledger.Known u) : b.Known u := by
  obtain ⟨c, ko, hr⟩ := h
  cases hr with
  | waiter hw hu => exact .inl ⟨_, _, _, Broker.ledger_waits.1 hw, hu⟩
  | handle hc hu => exact .inr (.inr ⟨_, _, _, hc, hu⟩)
  | deadline hd hu => exact .inr (.inl ⟨_, _, hd, hu⟩)

theorem Broker.Known.ledger {b : Broker} {u : String} (h : b.Known u) : b.ledger.Known u := by
  rcases h with ⟨q, x, p, hw, hu⟩ | ⟨dk, e, hd, hu⟩ | ⟨c, h, ko, hc, hu⟩
  · exact ⟨_, _, .waiter (Broker.ledger_waits.2 hw) hu⟩
  · exact ⟨_, _, .deadline hd hu⟩
  · exact ⟨_, _, .handle hc hu⟩

/-- A uuid the operation prescribes is not in use, and is not drawn later. -/
def Op.PrescribesNew (env : Env) (b : Broker) (op : Op) : Prop :=
  ∀ u, op.given = some u → ¬b.Known u ∧ ∀ n, b.reads ≤ n → env.newV4 n ≠ u

/-- A uuid the operation prescribes is in no use, and is not drawn later. -/
def Op.PrescribesUnused (env : Env) (b : Broker) (op : Op) : Prop :=
  ∀ u, op.given = some u → ¬b.ledger.Uses u ∧ ∀ n, b.reads ≤ n → env.newV4 n ≠ u

theorem Op.PrescribesUnused.new {env : Env} {b : Broker} {op : Op} (h : op.PrescribesUnused env b) :
    op.PrescribesNew env b := fun u hu => ⟨fun hk => (h u hu).1 (.inl hk.ledger), (h u hu).2⟩

theorem Op.PrescribesUnused.of_none {env : Env} {b : Broker} {op : Op} (h : op.given = none) :
    op.PrescribesUnused env b := fun _ hu => absurd (h.symm.trans hu) nofun

namespace Broker

variable {env : Env} {b b' : Broker} {op : Op}

/-- Before a request comes in, entries only go. -/
theorem Opens.sheds {v : Ledger} (h : b.Opens op v) : b.ledger.Sheds v where
  waits hw := ⟨_, (h.queue_sublist _).subset hw, rfl, rfl, rfl⟩
  handle hc hu := by
    rcases h.handle_within hc with ⟨_, rfl, _⟩ | ⟨h₀, hh, hp, hheld⟩
    · simp at hu
    · exact ⟨h₀, hh, hheld hu, hp⟩
  due hd := ⟨_, _, h.rest.1 _ _ hd, rfl, rfl, rfl, .inl rfl⟩
  one ho _ _ _ _ hd hd' := ho _ _ _ _ (h.rest.1 _ _ hd) (h.rest.1 _ _ hd')
  stake hs := by
    obtain ⟨s₀, hs₀, _, _, hc⟩ := h.stake_left hs
    exact ⟨s₀, hs₀, hc⟩
  zero hz := by
    by_contra hne
    obtain ⟨h', hc⟩ := Option.ne_none_iff_exists'.1 hne
    rcases h.handle_within hc with ⟨_, _, hzero⟩ | ⟨h₀, hh, _⟩
    · exact hzero rfl
    · exact Option.some_ne_none h₀ (hh.symm.trans hz)

/-- What is prescribed is still new when the request comes in. -/
theorem Opens.prescribed {v : Ledger} {K : Ledger → String → Prop} (h : b.Opens op v)
    (hK : ∀ {u}, K v u → K b.ledger u)
    (hop : ∀ u, op.given = some u → ¬K b.ledger u ∧ ∀ n, b.reads ≤ n → env.newV4 n ≠ u) :
    ∀ u, op.given = some u → ¬K v u ∧ ∀ n, v.reads ≤ n → env.newV4 n ≠ u :=
  fun u hu => ⟨fun hk => (hop u hu).1 (hK hk), fun n hn => (hop u hu).2 n (h.reads.ge.trans hn)⟩

theorem Opens.prescribesNew {v : Ledger} (h : b.Opens op v) (hop : op.PrescribesNew env b) :
    ∀ u, op.given = some u → ¬v.Known u ∧ ∀ n, v.reads ≤ n → env.newV4 n ≠ u :=
  h.prescribed h.sheds.known fun u hu => ⟨fun hk => (hop u hu).1 (known_of_ledger hk), (hop u hu).2⟩

theorem apply_consistent (hinj : Function.Injective env.newV4) (hs : b.Sane) (hb : b.ledger.Consistent env)
    (hop : op.PrescribesUnused env b) : (b.apply env op).ledger.Consistent env := by
  obtain ⟨v₁, v₂, ho, he, hc⟩ := apply_turns env hs op
  have h₁ : v₁.Consistent env := hb.sheds ho.sheds ho.reads.ge
  exact hc.consistent hinj (he.consistent hinj h₁ (ho.prescribed ho.sheds.uses hop))

/-! ## Runs -/

theorem consistent_new (cfg : BrokerConfig) : (Broker.new cfg).ledger.Consistent env := by
  have hstake : ∀ k kind u, (Broker.new cfg).ledger.stake k kind u = none := by
    intro k kind u
    simp
  have hrecords : ∀ u c ko, ¬(Broker.new cfg).ledger.Records u c ko := by
    intro u c ko h
    cases h with
    | waiter hw _ => simp [Ledger.Waits] at hw
    | handle hc _ => simp at hc
    | deadline hd _ => simp at hd
  refine ⟨⟨fun h => absurd h (hrecords _ _ _), fun _ hk => ?_, ?_⟩, fun h => absurd h (hrecords _ _ _), fun _ h => ?_⟩
  · obtain ⟨c, ko, h⟩ := hk
    exact hrecords _ c ko h
  · simp
  · cases (hstake _ _ _).symm.trans h

/-- What a restored broker has comes from the other, and it is not known whose it is. -/
theorem sheds_install {other : Broker} {now : Instant} (hs : other.Sane)
    (hi : b.installRaftSnapshot env (other.snapshotForRaft now) = .ok b') : other.ledger.Sheds b'.ledger := by
  have hlocks := (installBrokerRaftSnapshot_locks (installRaftSnapshot_ok hi).2).1
  have hclients : ∀ c, b'.ledger.handle c = none := by
    intro c
    show b'.clients[c]? = none
    rw [install_clients hi]
    simp
  refine ⟨fun hw => ?_, fun hc _ => ?_, fun hd => ?_, fun ho => ?_, fun h => ?_, fun _ => hclients _⟩
  · obtain ⟨p₀, hw₀, rfl⟩ := restore_waits hs hlocks (ledger_waits.1 hw)
    exact ⟨p₀, ledger_waits.2 hw₀, rfl, rfl, rfl⟩
  · cases (hclients _).symm.trans hc
  · obtain ⟨d, hmem, rfl⟩ := (install_rest hi).1 _ _ hd
    obtain ⟨dk₀, e₀, he₀, hu₀, hk, hkind⟩ := mem_deadlineSnapshots hmem
    exact ⟨dk₀, e₀, he₀, hu₀, hk, hkind, .inr rfl⟩
  · exact (install_rest hi).2.1 ho
  · rw [restore_stake hlocks] at h
    obtain ⟨s₀, hs₀, rfl⟩ := Option.map_eq_some_iff.1 h
    exact ⟨s₀, hs₀, .inr rfl⟩

/-- No uuid drawn from now on is in use in the broker the snapshot is of. -/
def Fits (env : Env) (b other : Broker) : Prop := ∀ n, b.reads ≤ n → ¬other.Known (env.newV4 n)

/-- No uuid drawn from now on is in use in the other broker. -/
def Apart (env : Env) (b other : Broker) : Prop := ∀ n, b.reads ≤ n → ¬other.ledger.Uses (env.newV4 n)

theorem Apart.fits {other : Broker} (h : b.Apart env other) : b.Fits env other :=
  fun n hn hk => h n hn (.inl hk.ledger)

/-- **In every run with new uuids, each lock uuid is one lock.** -/
theorem RunsIn.consistent {cfg : BrokerConfig} (h : RunsIn cfg (fun env b op => op.PrescribesUnused env b) Apart env b) :
    b.ledger.Consistent env := by
  induction h with
  | new env _ => exact consistent_new cfg
  | apply op hok h ih => exact apply_consistent h.injective (.reachable h.reachable) ih hok
  | install now _ ho hfits hi _ ih' =>
    have hreads := (install_rest hi).2.2.1
    exact ih'.moves (sheds_install (.reachable ho.reachable) hi) fun n hn => hfits n (hreads.trans hn)

end Broker

end LiveMutex
