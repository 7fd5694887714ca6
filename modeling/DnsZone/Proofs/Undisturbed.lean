import DnsZone.Proofs.Admission
import DnsZone.Proofs.PlainZone.Moves
import DnsZone.Proofs.Transaction.Exchange
import DnsZone.Proofs.VersionedZone.Moves

/-!
# Scripts that are run one after another

As long as nobody else uses a zone, write access is free whenever no writer is open: a writer that
ends gives it back, and nobody waits to be handed it. So scripts that are run one after another
never have to wait. Each of them is started, or refused with an error.
-/

namespace DnsZone

section

variable {ζ τ : Type} [Access τ] [Host ζ τ]

/-- What is true of a zone by what the one transaction on it may do lets the next one start. -/
structure Undisturbed (I : ζ → Mode → Prop) : Prop where
  mode_apply (t : Transaction τ) (c : Change) :
    Access.mode (t.apply c).access = Access.mode t.access
  mode_ended : Access.mode (Access.ended : τ) = .ended
  finish {z a} (h : I z (Access.mode a)) (commit : Bool) (learned? : Option Name) :
    I (Backend.finish commit learned? a z).2 .ended
  openReader {z o} (h : I z .ended) (query? : Option VersionQuery)
    (ho : Host.openReader query? z = .ok o) : I o.2 (Access.mode o.1)
  openWriter? {z} (h : I z .ended) (replacement : Bool) :
    ∃ o, Host.openWriter? replacement z = some o ∧ I o.2 (Access.mode o.1)

namespace Undisturbed

variable {I : ζ → Mode → Prop} {z : ζ} {t : Transaction τ}

theorem close (hI : Undisturbed I) (h : I z (Access.mode t.access)) (commit : Bool) :
    I (t.close commit z).2.2 (Access.mode (t.close commit z).2.1.access) := by
  rw [Transaction.close_eq]
  simp only [hI.mode_ended]
  exact hI.finish h commit _

theorem call (hI : Undisturbed I) (h : I z (Access.mode t.access)) (c : Call) :
    I (t.call z c).2.2 (Access.mode (t.call z c).2.1.access) := by
  by_cases hends : t.ends c = true
  · rw [Transaction.call_of_ends hends]
    exact hI.close h _
  · obtain ⟨hzone, hedited⟩ := Transaction.call_of_not_ends (z := z) (Bool.eq_false_iff.mpr hends)
    rw [hzone, hedited.mode_eq hI.mode_apply]
    exact h

theorem exchange (hI : Undisturbed I) (h : I z (Access.mode t.access)) (calls : List Call) :
    I (t.exchange z calls).2.2 (Access.mode (t.exchange z calls).2.1.access) := by
  induction calls generalizing t z with
  | nil => exact h
  | cons c rest ih => exact ih (hI.call h c)

theorem drop (hI : Undisturbed I) (h : I z (Access.mode t.access)) : I (t.drop z) .ended := by
  rw [Transaction.drop]
  split
  · rename_i hended
    have hmode : Access.mode t.access = .ended := by simpa [Transaction.isEnded] using hended
    exact hmode ▸ h
  · exact hI.finish h false _

/-- A script does not wait, and leaves a zone on which the next one does not. -/
theorem run (hI : Undisturbed I) (h : I z .ended) (s : Script) :
    (∃ r, (s.run z).1 = some r) ∧ I (s.run z).2 .ended := by
  have hstart : (∃ e, s.start.open? z = some (.error e)) ∨
      ∃ t z', s.start.open? z = some (.ok (t, z')) ∧ I z' (Access.mode t.access) := by
    cases s.start with
    | reader query? =>
        rw [Start.open?, Transaction.reader]
        cases hopen : Host.openReader query? z with
        | error e => exact .inl ⟨e, rfl⟩
        | ok o => exact .inr ⟨_, _, rfl, hI.openReader h query? hopen⟩
    | writer replacement =>
        obtain ⟨o, hopen, ho⟩ := hI.openWriter? h replacement
        rw [Start.open?, Transaction.writer?, hopen]
        exact .inr ⟨_, _, rfl, ho⟩
  rw [Script.run]
  rcases hstart with ⟨e, hopen⟩ | ⟨t, z', hopen, ht⟩
  · rw [hopen]
    exact ⟨⟨_, rfl⟩, h⟩
  · rw [hopen]
    exact ⟨⟨_, rfl⟩, hI.drop (hI.exchange ht s.calls)⟩

theorem runAll (hI : Undisturbed I) (h : I z .ended) (scripts : List Script) :
    ∀ x ∈ Script.runAll z scripts, ∃ r, x.1 = some r := by
  induction scripts generalizing z with
  | nil =>
      intro x hx
      cases hx
  | cons s rest ih =>
      obtain ⟨hstarted, hnext⟩ := hI.run h s
      exact List.forall_mem_cons.mpr ⟨hstarted, ih hnext⟩

end Undisturbed

end

/-! ### Versioned zones -/

/-- The zone is held by somebody, and write access is free unless the one transaction is a writer;
then it is free as soon as that ends. -/
structure VersionedZone.UsedAlone (z : VersionedZone) (m : Mode) : Prop where
  alive : z.alive = true
  free : m ≠ .writing → z.admission.isFree = true
  freed : m = .writing → z.admission.release.isFree = true

theorem VersionedZone.UsedAlone.of_free {z : VersionedZone} {m : Mode} (halive : z.alive = true)
    (hfree : z.admission.isFree = true) (hm : m ≠ .writing) : z.UsedAlone m :=
  ⟨halive, fun _ => hfree, fun h => absurd h hm⟩

theorem undisturbed_versionedZone : Undisturbed VersionedZone.UsedAlone where
  mode_apply := VersionedZone.mode_apply
  mode_ended := rfl
  finish {z a} h commit learned? := by
    change VersionedZone.UsedAlone (z.finish commit learned? a).2 .ended
    cases a with
    | ended => exact h
    | reading v =>
        have hfree := h.free (show Mode.reading ≠ .writing by decide)
        rw [VersionedZone.finish, if_pos h.alive]
        exact .of_free h.alive hfree (by decide)
    | writing d =>
        have hfreed := h.freed rfl
        rw [VersionedZone.finish, if_pos h.alive]
        cases commit with
        | true =>
            simp only [if_true]
            rw [VersionedZone.install_eq]
            exact .of_free h.alive hfreed (by decide)
        | false => exact .of_free h.alive hfreed (by decide)
  openReader {z o} h query? ho := by
    change z.openReader query? = .ok o at ho
    obtain ⟨_, hpin, rfl⟩ := map_eq_ok_iff.mp ho
    obtain ⟨v, _, rfl⟩ := map_eq_ok_iff.mp hpin
    exact .of_free h.alive (h.free (by decide)) (show Mode.reading ≠ .writing by decide)
  openWriter? {z} h replacement := by
    have hfree := h.free (by decide)
    obtain ⟨-, hhanded, hwaiting⟩ := Admission.isFree_iff.mp hfree
    change ∃ o, z.openWriter? replacement = some o ∧ _
    rw [VersionedZone.openWriter?, Admission.seize?, if_pos hfree]
    refine ⟨_, rfl, h.alive, fun hmode => absurd rfl hmode, fun _ => ?_⟩
    simp [Admission.release, Admission.isFree, hhanded, hwaiting]

theorem VersionedZone.usedAlone_create (origin? : Option Name) (cls : RecordClass)
    (relativize checksOrigin : Bool) (policy : Retention) :
    (create origin? cls relativize checksOrigin policy).UsedAlone .ended :=
  .of_free rfl rfl (by decide)

/-! ### Plain zones -/

theorem undisturbed_plainZone :
    Undisturbed fun (z : PlainZone) m => m ≠ .writing → z.locked = false where
  mode_apply := PlainZone.mode_apply
  mode_ended := rfl
  finish {z a} h commit learned? _ := by
    change (z.finish commit learned? a).2.locked = false
    cases a with
    | writing s => cases commit <;> rfl
    | reading => exact h nofun
    | ended => exact h nofun
  openReader {z o} h query? ho := by
    change z.openReader query? = .ok o at ho
    intro _
    have hzone : o.2 = z := by
      rw [PlainZone.openReader.eq_def] at ho
      repeat' split at ho
      all_goals cases ho
      all_goals rfl
    rw [hzone]
    exact h nofun
  openWriter? {z} h replacement := by
    change ∃ o, z.openWriter? replacement = some o ∧ _
    rw [PlainZone.openWriter?, h nofun]
    exact ⟨_, rfl, fun hmode => absurd rfl hmode⟩

end DnsZone
