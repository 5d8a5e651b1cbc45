/-
A lock that a registered client holds is let go only by that client, by force, or by
its own deadline. Requests of others do not end it, nor does the end of another client:
a handle that notes the lock is its owner's (`LiveMutex.Consistent`).
-/
import LiveMutex.Consistent
import LiveMutex.Sample

namespace LiveMutex

/-- The operations that may end a hold under the uuid `u` of the client `c`. -/
def Op.EndsHold (b : Broker) (c : ClientId) (u : String) : Op → Prop
  | .request client (.unlock _ _ _ _ force) _ => client = c ∨ force = true
  | .request client (.endRead ..) _ | .request client (.endWrite ..) _ => client = c
  | .dropClient client => client = c
  | .tickTtl now => ∃ (dk : DeadlineKey) (e : DeadlineEntry), b.deadlines[dk]? = some e ∧ e.lockUuid = u ∧ dk.1 ≤ now
  | _ => False

namespace Ledger

variable {v v' : Ledger} {env : Env} {k u : String} {kind : RwHoldKind} {s : Stake}

/-! ## Coming in and being granted ends no hold -/

theorem give_stake_ne_none (keys : List String) (kd : RwHoldKind) (w : String) (s' : String → Stake)
    (h : v.stake k kind u ≠ none) : (v.give keys kd w s').stake k kind u ≠ none := by
  show (if k ∈ keys ∧ kd = kind ∧ w = u then some (s' k) else v.stake k kind u) ≠ none
  split
  · exact Option.some_ne_none _
  · exact h

theorem Grants.stake_ne_none (h : v.Grants env v') (hs : v.stake k kind u ≠ none) : v'.stake k kind u ≠ none := by
  cases h with
  | idle _ h => exact h ▸ hs
  | @serve token key w p _ _ _ _ _ _ _ _ _ _ h =>
    exact h ▸ give_stake_ne_none [key] (p.wants key).rwKind w (fun _ => ⟨p.client, p.keeps, token⟩) hs
  | @advance token _ key _ p _ c _ _ _ _ _ h =>
    exact h ▸ give_stake_ne_none [key] (p.wants key).rwKind c.compositeLockUuid (fun _ => ⟨p.client, p.keeps, token⟩) hs

theorem Cascade.stake_ne_none (h : v.Cascade env v') (hs : v.stake k kind u ≠ none) : v'.stake k kind u ≠ none :=
  h.inv hs Grants.stake_ne_none

theorem Enters.stake_ne_none {op : Op} (h : v.Enters env op v') (hs : v.stake k kind u ≠ none) :
    v'.stake k kind u ≠ none := by
  cases h with
  | still _ => exact hs
  | @award lock kept token client _ _ w =>
    exact give_stake_ne_none lock.keys lock.rwKind w (fun k => ⟨client, kept, token k⟩) hs
  | enqueue => exact hs

/-! ## What does end one -/

theorem unlockCut_ends {client : ClientId} {keys : List String} {target : Option String} {force : Bool}
    (hc : v.handle s.client ≠ none) (h : (v.unlockCut client keys target force).stake k kind u s = true) :
    client = s.client ∨ force = true := by
  simp only [unlockCut, Bool.and_eq_true] at h
  cases target with
  | none => exact .inr h.2
  | some t =>
    simp only [Bool.and_eq_true, Bool.or_eq_true, decide_eq_true_eq, Option.isNone_iff_eq_none] at h
    rcases h.2.2 with (hf | he) | hn
    · exact .inr hf
    · exact .inl he.symm
    · exact absurd hn hc

/-- What another client's handle takes on its way out. -/
theorem handleCut_ends {a : ClientId} {h : ClientHandle} (hv : v.Consistent env) (hs : v.stake k kind u = some s)
    (hc : v.handle s.client ≠ none) (hh : v.handle a = some h) (hcut : h.cut.stake k kind u s = true) : a = s.client := by
  simp only [ClientHandle.cut, Bool.and_eq_true, Option.any_eq_true] at hcut
  obtain ⟨⟨ko, hko, _⟩, _⟩ := hcut
  -- a handle that notes the lock is its owner's
  rcases (hv.fits (.handle hh hko) hs).2.2 with he | he | he
  · exact he.symm
  · exact absurd (he ▸ hv.zero) hc
  · cases hh.symm.trans (he ▸ hv.zero)

end Ledger

namespace Broker

variable {env : Env} {b : Broker} {op : Op} {k u : String} {kind : RwHoldKind} {s : Stake}

/-- An operation takes a lock from a registered client only at its wish, by force or as it goes. -/
theorem cut_ends (hb : b.ledger.Consistent env) (hs : b.ledger.stake k kind u = some s)
    (hc : b.ledger.handle s.client ≠ none) (hcut : (op.cut b).stake k kind u s = true) : op.EndsHold b s.client u := by
  cases op with
  | request client r overrides =>
    cases r with
    | unlock uuid key keys target force =>
      cases key <;> cases keys
      · cases hcut
      · exact Ledger.unlockCut_ends hc hcut
      · exact Ledger.unlockCut_ends hc hcut
      · cases hcut
    | endRead uuid key => exact (of_decide_eq_true hcut).2.2.symm
    | endWrite uuid key => exact (of_decide_eq_true hcut).2.2.symm
    | _ => cases hcut
  | dropClient client =>
    cases hh : b.clients[client]? with
    | none =>
      simp only [Op.cut, hh] at hcut
      exact (of_decide_eq_true hcut).symm
    | some handle =>
      simp only [Op.cut, hh] at hcut
      exact Ledger.handleCut_ends hb hs hc hh hcut
  | _ => cases hcut

/-- **Hold stability.** In every run with new uuids: after an operation a lock is no
longer held on a key by a registered client only if the client itself let go of it or
went, somebody forced it, or its deadline has passed. -/
theorem RunsIn.hold_stable {cfg : BrokerConfig} {handle : ClientHandle}
    (h : RunsIn cfg (fun env b op => op.PrescribesUnused env b) Apart env b) (hs : b.ledger.stake k kind u = some s)
    (hc : b.clients[s.client]? = some handle) (hgone : (b.apply env op).ledger.stake k kind u = none) :
    op.EndsHold b s.client u := by
  obtain ⟨v₁, v₂, ho, he, hcascade⟩ := apply_turns env (.reachable h.reachable) op
  have hc' : b.ledger.handle s.client ≠ none := fun hn => Option.some_ne_none _ (hc.symm.trans hn)
  by_cases hcut : (op.cut b).stake k kind u s = true
  · exact cut_ends h.consistent hs hc' hcut
  rcases ho.stake_stays hs (Bool.eq_false_iff.2 hcut) with ⟨s', hs', _⟩ | ⟨dk, e, now, hd, hu, _, rfl, hnow⟩
  · have hstays : v₁.stake k kind u ≠ none := fun hn => Option.some_ne_none _ (hs'.symm.trans hn)
    exact absurd hgone (hcascade.stake_ne_none (he.stake_ne_none hstays))
  · exact ⟨dk, e, hd, hu, hnow⟩

/-- A client registers, locks a key and unlocks it: the unlock is its own. -/
theorem RunsIn.hold_stable_unlock :
    Op.EndsHold (Sample.after [.registerClient, Sample.ask 1 (Sample.lock "r" "k")]) 1 "uu"
      (Sample.ask 1 (Sample.unlock "s" "k" "uu")) := by
  have hrun : RunsIn Sample.config (fun env b op => op.PrescribesUnused env b) Apart Sample.env
      (Sample.after [.registerClient, Sample.ask 1 (Sample.lock "r" "k")]) :=
    .applyAll [.registerClient, Sample.ask 1 (Sample.lock "r" "k")] (.new Sample.env Sample.newV4_injective)
      ⟨.of_none rfl, .of_none rfl, trivial⟩
  have hstake : (Sample.after [.registerClient, Sample.ask 1 (Sample.lock "r" "k")]).ledger.stake "k" .exclusive "uu" =
      some ⟨1, false, 1⟩ := by decide +kernel
  have hclient : (Sample.after [.registerClient, Sample.ask 1 (Sample.lock "r" "k")]).clients.contains 1 = true := by
    decide +kernel
  obtain ⟨handle, hh⟩ := OrdMap.mem_iff_get.1 (Std.ExtTreeMap.contains_iff_mem.1 hclient)
  exact hrun.hold_stable hstake hh (by decide +kernel)

end Broker

end LiveMutex
