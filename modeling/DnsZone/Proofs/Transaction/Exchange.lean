import DnsZone.Proofs.Transaction.Invariant
import DnsZone.Proofs.Transaction.Script

/-!
# What calls made one after another leave

What every call keeps, all calls of a caller keep together. As long as the transaction has not ended
after them, none of them has changed the zone: the transaction has been edited, and that is all.
-/

namespace DnsZone.Transaction

variable {ζ τ : Type} [Access τ] [Backend ζ τ] {z : ζ} {t : Transaction τ}

/-- Calls that make only edits that are admitted when their turn comes. -/
def AdmitsAll (A : Transaction τ → Edit → Prop) (t : Transaction τ) (z : ζ) : List Call → Prop
  | [] => True
  | c :: rest => t.Admits A c ∧ (t.call z c).2.1.AdmitsAll A (t.call z c).2.2 rest

theorem admitsAll_of_forall {A : Transaction τ → Edit → Prop} (hA : ∀ t e, A t e)
    (t : Transaction τ) (z : ζ) (calls : List Call) : t.AdmitsAll A z calls := by
  induction calls generalizing t z with
  | nil => trivial
  | cons c rest ih => exact ⟨fun e _ => hA t e, ih _ _⟩

/-- A call that ends the transaction leaves it as it is but for its state in the zone. -/
theorem txn_call_of_ends {c : Call} (h : t.ends c = true) :
    (t.call z c).2.1 = { t with access := Access.ended } := by
  rw [call_of_ends h]
  rfl

/-- What calls keep as long as the transaction is open, and is true of ended ones, holds after any
calls. -/
theorem Keeps.exchange {A : Transaction τ → Edit → Prop} {P : Transaction τ → Prop}
    (hP : ∀ z : ζ, Keeps A z P) (hended : ∀ t, P t → P { t with access := Access.ended })
    (h : P t) {calls : List Call} (hA : t.AdmitsAll A z calls) :
    P (t.exchange z calls).2.1 := by
  induction calls generalizing t z with
  | nil => exact h
  | cons c rest ih =>
      refine ih ?_ hA.2
      by_cases hends : t.ends c = true
      · rw [txn_call_of_ends hends]
        exact hended t h
      · exact (hP z).call h hA.1 (Bool.eq_false_iff.mpr hends)

/-- A transaction that has ended stays as it is. -/
theorem isEnded_exchange (h : t.isEnded = true) (calls : List Call) :
    (t.exchange z calls).2.1.isEnded = true := by
  induction calls generalizing t z with
  | nil => exact h
  | cons c rest ih => exact ih (call_of_ended h c).2

/-- Calls after which the transaction is still open have left the zone alone. -/
theorem exchange_of_open (hended : Access.mode (Access.ended : τ) = .ended) {calls : List Call}
    (h : (t.exchange z calls).2.1.isEnded = false) :
    (t.exchange z calls).2.2 = z ∧ Edited z t (t.exchange z calls).2.1 := by
  induction calls generalizing t with
  | nil => exact ⟨rfl, .refl⟩
  | cons c rest ih =>
      change ((t.call z c).2.1.exchange (t.call z c).2.2 rest).2.1.isEnded = false at h
      change ((t.call z c).2.1.exchange (t.call z c).2.2 rest).2.2 = z ∧
        Edited z t ((t.call z c).2.1.exchange (t.call z c).2.2 rest).2.1
      by_cases hends : t.ends c = true
      · have hstays := isEnded_exchange (z := (t.call z c).2.2) (t := (t.call z c).2.1)
          (by rw [txn_call_of_ends hends]; simp [isEnded, hended]) rest
        rw [h] at hstays
        cases hstays
      · obtain ⟨hzone, hedited⟩ := call_of_not_ends (z := z) (Bool.eq_false_iff.mpr hends)
        rw [hzone] at h ⊢
        obtain ⟨hzone', hedited'⟩ := ih h
        exact ⟨hzone', hedited.trans hedited'⟩

end DnsZone.Transaction

namespace DnsZone

/-- Scripts that, run one after another, make only edits that are admitted. -/
def Script.AdmitsAll {ζ τ : Type} [Access τ] [Host ζ τ] (A : Transaction τ → Edit → Prop)
    (z : ζ) : List Script → Prop
  | [] => True
  | s :: rest =>
      (∀ t z', s.start.open? z = some (.ok (t, z')) → t.AdmitsAll A z' s.calls) ∧
        AdmitsAll A (s.run z).2 rest

end DnsZone
