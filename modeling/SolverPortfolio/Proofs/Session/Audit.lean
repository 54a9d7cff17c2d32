import SolverPortfolio.Proofs.Session.Calls
import SolverPortfolio.Proofs.Session.Rounds

/-!
# The books of a session

The ledger of a session is what its calls make of a new one (`Ledger.ofCalls`): readings of
the clock bring it up to date, and replies that name a cost are charged. So what was left
of the budget at any time can be read off the calls made until then, and whether a run was
within it is a statement about the calls alone (`Affordable`).

`Audit` is what holds of a watched session at any time. Every part of a session keeps it:
there is one lemma for a reading, one for a request, and one for each part made of them.
-/

namespace SolverPortfolio

open Scalar

variable {α σ : Type}

/-! ## What calls do to a ledger -/

namespace ServiceCall

/-- Anything but a reading of the clock. -/
def isRequest : ServiceCall α → Bool
  | .clock _ => false
  | _ => true

/-- The cost that is charged for a call. -/
def cost? [Scalar α] (settings : SessionSettings) : ServiceCall α → Option α
  | .preprocess _ _ (.ok pre) => some pre.cost
  | .features _ (.ok v) => if settings.chargeFeatures then some v.cost else none
  | .run _ _ (.ok result) => some result.cost
  | _ => none

end ServiceCall

/-- The call that made an attempt. -/
def Attempt.call (task : Task α) (a : Attempt α) : ServiceCall α :=
  .run a.action task (.ok a.result)

namespace Ledger

variable [Scalar α] {settings : SessionSettings} {budget : α}

/-- The ledger after a call. -/
def after (settings : SessionSettings) (l : Ledger α) : ServiceCall α → Ledger α
  | .clock now => l.look now
  | c => (c.cost? settings).elim l l.charge

theorem after_request {l : Ledger α} {c : ServiceCall α} (hc : c.isRequest = true) :
    l.after settings c = (c.cost? settings).elim l l.charge := by
  cases c with
  | clock now => cases hc
  | _ => rfl

/-- The ledger of a session that has made these calls. A clock that is read first gives the
start. -/
def ofCalls (settings : SessionSettings) (budget : α) : List (ServiceCall α) → Ledger α
  | .clock now :: calls => calls.foldl (after settings) (.start budget now)
  | calls => calls.foldl (after settings) (.start budget none)

theorem ofCalls_append {calls : List (ServiceCall α)} {c : ServiceCall α}
    (h : calls ≠ [] ∨ c.isRequest = true) :
    ofCalls settings budget (calls ++ [c]) = (ofCalls settings budget calls).after settings c := by
  cases calls with
  | nil => cases c <;> simp_all [ofCalls, ServiceCall.isRequest]
  | cons first calls => cases first <;> simp [ofCalls]

theorem after_features (l : Ledger α) (task : Task α) (v : FeatureVector α) :
    l.after settings (.features task (.ok v)) =
      if settings.chargeFeatures then l.charge v.cost else l := by
  cases h : settings.chargeFeatures <;> simp [after, ServiceCall.cost?, h]

theorem charge_zero [Rounded α] (l : Ledger α) : l.charge 0 = l := by
  refine if_neg fun h => ?_
  obtain ⟨x, hpos, hx⟩ := Rounded.isPositiveFinite_iff.mp h
  rw [Rounded.value_zero] at hx
  exact hpos.ne (Exact.real.inj hx)

end Ledger

/-- Every run that was asked for cost at most what was left of the budget then. -/
def Affordable [Scalar α] (settings : SessionSettings) (budget : α)
    (calls : List (ServiceCall α)) : Prop :=
  ∀ earlier action task reply later, calls = earlier ++ .run action task reply :: later →
    action.cost ≤ (Ledger.ofCalls settings budget earlier).remaining

theorem Affordable.append [Scalar α] {settings : SessionSettings} {budget : α}
    {calls : List (ServiceCall α)} {c : ServiceCall α} (h : Affordable settings budget calls)
    (hc : ∀ action task reply, c = .run action task reply →
      action.cost ≤ (Ledger.ofCalls settings budget calls).remaining) :
    Affordable settings budget (calls ++ [c]) := by
  intro earlier action task reply later heq
  rcases List.eq_nil_or_concat later with rfl | ⟨later, d, rfl⟩
  · obtain ⟨rfl, hlast⟩ := List.append_inj' heq rfl
    exact hc action task reply (List.head_eq_of_cons_eq hlast)
  · rw [List.concat_eq_append, ← List.cons_append, ← List.append_assoc] at heq
    exact h earlier action task reply later (List.append_inj' heq rfl).1

/-! ## Keeping the books -/

namespace Session

/-- What holds of a watched session whose calls began with `base`: the ledger is that of the
calls, the requests among them are these, and the runs were affordable. Only a session that
charges its own time reads the clock, and it does so first. -/
structure Audit [Scalar α] (settings : SessionSettings) (budget : α)
    (base : List (ServiceCall α)) (l : Ledger α) (calls requests : List (ServiceCall α)) :
    Prop where
  ledger : l = .ofCalls settings budget calls
  grown : base <+: calls
  asked : calls.filter ServiceCall.isRequest = requests
  affordable : Affordable settings budget calls
  timed : settings.chargeOverhead = true → calls ≠ []
  untimed : settings.chargeOverhead = false → calls = requests

variable [Analytic α] {services : Services α σ} {settings : SessionSettings} {budget : α}
  {base calls requests : List (ServiceCall α)} {l l' : Ledger α} {t t' : Traced α σ}

/-- From here on, the calls made so far are those a session began with. -/
theorem Audit.rebase (h : Audit settings budget base l calls requests) :
    Audit settings budget calls l calls requests :=
  { h with grown := List.prefix_refl calls }

theorem Audit.look (h : Audit settings budget base l calls requests)
    (hcpu : settings.chargeOverhead = true) (now : Option α) :
    Audit settings budget base (l.look now) (calls ++ [.clock now]) requests where
  ledger := by rw [Ledger.ofCalls_append (.inl (h.timed hcpu)), ← h.ledger]; rfl
  grown := h.grown.trans (List.prefix_append ..)
  asked := by rw [List.filter_append, h.asked]; exact List.append_nil requests
  affordable := h.affordable.append fun _ _ _ hrun => by cases hrun
  timed _ := List.append_ne_nil_of_right_ne_nil _ (List.cons_ne_nil _ _)
  untimed hoff := by rw [hcpu] at hoff; cases hoff

theorem Audit.request (h : Audit settings budget base l calls requests) (c : ServiceCall α)
    (hc : c.isRequest = true)
    (hfits : ∀ action task reply, c = .run action task reply → action.cost ≤ l.remaining) :
    Audit settings budget base (l.after settings c) (calls ++ [c]) (requests ++ [c]) where
  ledger := by rw [Ledger.ofCalls_append (.inr hc), ← h.ledger]
  grown := h.grown.trans (List.prefix_append ..)
  asked := by rw [List.filter_append, h.asked, List.filter_singleton, hc]; rfl
  affordable := h.affordable.append (h.ledger ▸ hfits)
  timed _ := List.append_ne_nil_of_right_ne_nil _ (List.cons_ne_nil _ _)
  untimed hoff := by rw [h.untimed hoff]

theorem audit_openLedger {s : σ} (h : openLedger services.traced settings budget (s, []) = (l, t)) :
    Audit settings budget [] l t.2 [] := by
  have hnone : Affordable settings budget [] := fun earlier _ _ _ _ heq => by
    cases earlier <;> cases heq
  rw [openLedger] at h
  split at h
  · rename_i hcpu
    obtain ⟨rfl, rfl⟩ := h
    exact
      { ledger := rfl
        grown := List.nil_prefix
        asked := rfl
        affordable := hnone.append fun _ _ _ hrun => by cases hrun
        timed := fun _ => List.cons_ne_nil _ _
        untimed := fun hoff => by rw [hcpu] at hoff; cases hoff }
  · rename_i hcpu
    obtain ⟨rfl, rfl⟩ := h
    exact
      { ledger := rfl
        grown := List.nil_prefix
        asked := rfl
        affordable := hnone
        timed := fun hon => absurd hon hcpu
        untimed := fun _ => rfl }

theorem Audit.refreshed (h : Audit settings budget base l t.2 requests)
    (hlook : upToDate services.traced settings l t = (l', t')) :
    Audit settings budget base l' t'.2 requests := by
  rw [upToDate] at hlook
  split at hlook
  · rename_i hcpu
    obtain ⟨rfl, rfl⟩ := hlook
    exact h.look hcpu _
  · obtain ⟨rfl, rfl⟩ := hlook
    exact h

variable {task : Task α}

theorem Audit.attempted {a : Attempt α} (h : Audit settings budget base l t.2 requests)
    (ha : Attempted services.traced settings task l t a l' t') :
    Audit settings budget base l' t'.2 (requests ++ [a.call task]) := by
  obtain @⟨l₁, t₁, _, looked, fits, ran⟩ := ha
  obtain ⟨hreply, hstate⟩ := Prod.mk.inj ran
  have hcalls : t'.2 = t₁.2 ++ [a.call task] := by
    rw [← hstate, Attempt.call, ← hreply]
  rw [hcalls]
  refine (h.refreshed looked).request (a.call task) rfl fun action _ _ hrun => ?_
  obtain rfl : a.action = action := (ServiceCall.run.inj hrun).1
  exact fits

theorem Audit.rounds {n : Nat} {attempts : List (Attempt α)} {answer : Option Outcome}
    (h : Audit settings budget base l t.2 requests)
    (hr : Rounds services.traced settings task n l t attempts answer l' t') :
    Audit settings budget base l' t'.2 (requests ++ attempts.map (Attempt.call task)) := by
  induction hr generalizing requests with
  | limit l t => simpa using h
  | stopped looked => simpa using h.refreshed looked
  | solved attempted solves => exact h.attempted attempted
  | unsolved attempted fails rest ih =>
      have hrest := ih (h.attempted attempted)
      rwa [List.append_assoc] at hrest

/-- Features are asked for at most once, and their cost is charged if it is to be. -/
theorem Audit.featured [Rounded α] {cost : α} {task' : Task α}
    (h : Audit settings budget base l t.2 requests)
    (hf : ensureFeatures services.traced task t = (.ok cost, task', t')) :
    ∃ computed : Option (FeatureVector α),
      Audit settings budget base (if settings.chargeFeatures then l.charge cost else l) t'.2
        (requests ++ computed.toList.map fun v => .features task (.ok v)) := by
  rw [ensureFeatures] at hf
  cases hfeatures : task.features with
  | some v =>
      simp only [hfeatures] at hf
      obtain ⟨rfl, rfl, rfl⟩ := hf
      exact ⟨none, by simpa [Ledger.charge_zero] using h⟩
  | none =>
      simp only [hfeatures] at hf
      rcases hreply : services.features task t.1 with ⟨e | v, s⟩
      · simp [Services.traced, Service.noting, hreply] at hf
      · simp only [Services.traced, Service.noting, hreply, Prod.mk.injEq, Except.ok.injEq] at hf
        obtain ⟨rfl, rfl, rfl⟩ := hf
        have hnoted := h.request (.features task (.ok v)) rfl fun _ _ _ hrun => by
          cases hrun
        rw [Ledger.after_features] at hnoted
        exact ⟨some v, hnoted⟩

end Session

end SolverPortfolio
