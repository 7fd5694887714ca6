import DnsZone.Proofs.Transaction.Exchange
import DnsZone.Proofs.Updater.Course

/-!
# Updaters do what other users could do

Whatever an updater does to a zone, it does through its writer: it makes calls on it, drops it, and
starts another one when the next batch begins. So what holds of a zone however transactions are used
on it holds as well if transfers are applied to it.
-/

namespace DnsZone

/-! ### Calls of an updater -/

/-- The call is a commit or an edit that leaves the origin alone. -/
def Call.OfTransfer (c : Call) : Prop :=
  c = .commit ∨ ∃ e, c = .edit e ∧ ∀ origin, e ≠ .setOrigin origin

namespace Transaction

variable {ζ τ : Type} [Access τ] [Backend ζ τ] {z : ζ} {t : Transaction τ}

theorem exchange_edits (z : ζ) (t : Transaction τ) (edits : List Edit) :
    (t.exchange z (edits.map .edit)).2 = ((t.editAll z edits).2, z) := by
  induction edits generalizing t with
  | nil => rfl
  | cons e rest ih => exact ih _

theorem exchange_edits_commit (z : ζ) (t : Transaction τ) (edits : List Edit) :
    (t.exchange z (edits.map .edit ++ [.commit])).2 = ((t.editAll z edits).2.commit z).2 := by
  rw [exchange_concat, exchange_edits]
  rfl

end Transaction

namespace Updater

variable {ζ τ : Type} [Access τ] [Host ζ τ] {z : ζ} {u : Updater τ} {t : Transaction τ}

/-- What becomes of the writer `t` of an updater and of its zone, if all that is done is to make
calls on `t` and then to keep it, to drop it, or to start another one in its place. -/
inductive Conduct (z : ζ) (t : Transaction τ) : Option (Transaction τ) → ζ → Prop where
  | goesOn {calls : List Call} (hcalls : ∀ c ∈ calls, c.OfTransfer) :
      Conduct z t (some (t.exchange z calls).2.1) (t.exchange z calls).2.2
  | stops {calls : List Call} (hcalls : ∀ c ∈ calls, c.OfTransfer) :
      Conduct z t none ((t.exchange z calls).2.1.drop (t.exchange z calls).2.2)
  | restarts {calls : List Call} {t' : Transaction τ} {z' : ζ}
      (hcalls : ∀ c ∈ calls, c.OfTransfer) (hended : (t.exchange z calls).2.1.isEnded = true)
      (hnext : Transaction.writer? false (t.exchange z calls).2.2 = some (t', z')) :
      Conduct z t (some t') z'

theorem Conduct.refl (z : ζ) (t : Transaction τ) : Conduct z t (some t) z :=
  .goesOn (List.forall_mem_nil Call.OfTransfer)

theorem Conduct.drop (z : ζ) (t : Transaction τ) : Conduct z t none (t.drop z) :=
  .stops (List.forall_mem_nil Call.OfTransfer)

/-- An updater only makes calls on its writer, drops it, and starts another one. -/
theorem Course.conduct (hended : Access.mode (Access.ended : τ) = .ended) {batching : Bool}
    {update : Update} {o : Progress × Updater τ × ζ} (hcourse : Course z t batching update o) :
    Conduct z t o.2.1.writer? o.2.2 := by
  have hcommit : ∀ c ∈ [Call.commit], c.OfTransfer :=
    List.forall_mem_singleton.mpr (.inl rfl)
  have hedits (update : Update) : ∀ c ∈ update.edits.map Call.edit, c.OfTransfer := by
    intro c hc
    obtain ⟨e, he, rfl⟩ := List.mem_map.mp hc
    exact .inr ⟨e, rfl, Update.ne_setOrigin_of_mem_edits he⟩
  cases hcourse with
  | refused h => exact .drop z t
  | edited h hboundary hlast =>
      have hgoesOn := Conduct.goesOn (z := z) (t := t) (hedits update)
      rw [t.exchange_edits z] at hgoesOn
      exact hgoesOn
  | @finished r result t₁ z₁ h hz₁ =>
      have hcalls : ∀ c ∈ (Update.finished r).edits.map Call.edit ++ [.commit], c.OfTransfer := by
        intro c hc
        rcases List.mem_append.mp hc with hc | hc
        · exact hedits _ c hc
        · exact hcommit c hc
      have hstops := Conduct.stops (z := z) (t := t) hcalls
      rw [t.exchange_edits_commit z, Transaction.drop_of_isEnded
        (Transaction.isEnded_commit hended z _)] at hstops
      rw [Updater.edited] at hz₁
      rw [hz₁] at hstops
      exact hstops
  | begun h => exact .refl z t
  | stopped h hz₁ =>
      have hstops := Conduct.stops (z := z) (t := t) hcommit
      have hexchange : (t.exchange z [.commit]).2 = (t.commit z).2 := rfl
      rw [hexchange, hz₁] at hstops
      exact hstops
  | resumed h hz₁ hnext =>
      have hexchange : (t.exchange z [.commit]).2 = (t.commit z).2 := rfl
      refine .restarts hcommit ?_ ?_
      · rw [hexchange]
        exact Transaction.isEnded_commit hended z t
      · rw [hexchange, hz₁]
        exact hnext
  | waits h hz₁ =>
      have hgoesOn := Conduct.goesOn (z := z) (t := t) hcommit
      have hexchange : (t.exchange z [.commit]).2 = (t.commit z).2 := rfl
      rw [hexchange, hz₁] at hgoesOn
      exact hgoesOn

/-- Dropping an updater drops its writer. -/
theorem conduct_drop (hu : u.writer? = some t) : Conduct z t none (u.drop z) := by
  have hdrop : u.drop z = t.drop z := by
    rw [Updater.drop, abort, hu]
  rw [hdrop]
  exact .drop z t

/-- Without a writer, nothing is done to the zone. -/
theorem zone_receive_of_finished (hu : u.writer? = none) (overtaken : Bool) (z : ζ)
    (update : Update) : (u.receive overtaken z update).2.1.writer? = none ∧
      (u.receive overtaken z update).2.2 = z := by
  rw [receive_of_finished hu, apply_of_finished hu]
  split
  · exact ⟨rfl, rfl⟩
  · exact ⟨hu, rfl⟩

end Updater

end DnsZone
