import DnsZone.Proofs.Storage
import DnsZone.Proofs.Traffic

/-!
# Transfers that fail

An update that fails, wherever that may be, leaves nothing behind: the writer of the updater is
gone, and if it was still open, it has given write access up without committing anything. A commit
that is refused ends the writer by itself, and then there is nothing left to give up. Dropping an
updater comes to the same.
-/

namespace DnsZone

/-! ### Writers stay what they are -/

section Modes

variable {ζ τ : Type} [Access τ] [Host ζ τ] [DirectStore ζ] [Storage ζ τ] {z z' : ζ}
  {t : Transaction τ}

/-- A writer is no reader after any calls. -/
theorem Transaction.isReadOnly_exchange (ht : t.isReadOnly = false) (z : ζ) (calls : List Call) :
    (t.exchange z calls).2.1.isReadOnly = false := by
  induction calls generalizing t z with
  | nil => exact ht
  | cons c rest ih =>
      refine ih ?_ _
      by_cases hends : t.ends c = true
      · rw [txn_call_of_ends hends, isReadOnly, Storage.mode_ended ζ]
        rfl
      · have hedited := (call_of_not_ends (z := z) (Bool.eq_false_iff.mpr hends)).2
        rw [isReadOnly, hedited.mode_eq (Storage.mode_apply ζ)]
        exact ht

theorem Transaction.isReadOnly_of_writer? {replacement : Bool}
    (h : writer? replacement z = some (t, z')) : t.isReadOnly = false := by
  rw [writer?] at h
  split at h
  · cases h
  · rename_i a z₁ hopen
    cases h
    rw [isReadOnly, ofWriter, Storage.mode_open hopen]
    rfl

/-- Nor does an updater ever read only. -/
theorem Updater.Conduct.isReadOnly_eq_false {t? : Option (Transaction τ)}
    (h : Conduct z t t? z') (ht : t.isReadOnly = false) : ∀ t' ∈ t?, t'.isReadOnly = false := by
  intro t' ht'
  cases h with
  | goesOn =>
      cases ht'
      exact Transaction.isReadOnly_exchange ht z _
  | stops => cases ht'
  | restarts _ _ hnext =>
      cases ht'
      exact Transaction.isReadOnly_of_writer? hnext

end Modes

/-! ### Ending without a commit -/

/-- Ending a writer of the zone never fails, and ending it without a commit does `release` and
nothing else. -/
def Host.Releases {ζ τ : Type} [Access τ] [Host ζ τ] (release : ζ → ζ) (z : ζ) : Prop :=
  ∀ (commit : Bool) (learned? : Option Name) (a : τ), Access.mode a = .writing →
    ∃ z', Backend.finish commit learned? a z = (.ok (), z') ∧ (commit = false → z' = release z)

namespace Transaction

variable {ζ τ : Type} [Access τ] [Host ζ τ] {release : ζ → ζ} {z : ζ} {t : Transaction τ}

omit [Host ζ τ] in
/-- A transaction that does not only read writes unless it has ended. -/
theorem writes_eq (h : t.isReadOnly = false) : t.writes = !t.isEnded := by
  have hmode : Access.mode t.access ≠ .reading := of_decide_eq_false h
  rw [writes, isEnded]
  cases hm : Access.mode t.access with
  | reading => exact absurd hm hmode
  | _ => rfl

/-- A writer that ends without a commit gives write access up, if it has not done so yet. -/
theorem drop_eq (hz : Host.Releases release z) (ht : t.isReadOnly = false) :
    t.drop z = if t.writes then release z else z := by
  rw [drop, writes_eq ht]
  cases hended : t.isEnded with
  | true => rfl
  | false =>
      have hwrites : t.writes = true := by rw [writes_eq ht, hended]; rfl
      obtain ⟨z', hfinish, hz'⟩ := hz false t.learned? t.access (of_decide_eq_true hwrites)
      have hclose : (t.close false z).2.2 = z' := by rw [close_eq, hfinish]
      exact hclose.trans (hz' rfl)

/-- So does one whose commit is refused. -/
theorem zone_commit_of_error (hz : Host.Releases release z) (ht : t.isReadOnly = false)
    {fault : ZoneError} (h : (t.commit z).1 = .error fault) :
    (t.commit z).2.2 = if t.writes then release z else z := by
  rw [writes_eq ht]
  cases hended : t.isEnded with
  | true =>
      rw [commit, if_pos hended]
      rfl
  | false =>
      have hwrites : t.writes = true := by rw [writes_eq ht, hended]; rfl
      have hclose (commit : Bool) : ∃ z', t.close commit z =
          (.ok (), { t with access := Access.ended }, z') ∧ (commit = false → z' = release z) := by
        obtain ⟨z', hfinish, hz'⟩ := hz commit t.learned? t.access (of_decide_eq_true hwrites)
        exact ⟨z', by rw [close_eq, hfinish], hz'⟩
      rw [commit, hended] at h ⊢
      cases hfault : t.apexFault? z with
      | none =>
          obtain ⟨z', heq, -⟩ := hclose true
          rw [hfault, heq] at h
          cases h
      | some fault' =>
          obtain ⟨z', heq, hz'⟩ := hclose false
          simp only [heq]
          exact hz' rfl

end Transaction

namespace Updater

variable {ζ τ : Type} [Access τ] [Host ζ τ] {release : ζ → ζ} {z : ζ} {u : Updater τ}

omit [Host ζ τ] in
/-- Whether the updater has write access. -/
def holdsAccess (u : Updater τ) : Bool := u.writer?.any Transaction.writes

/-- What is left of the updater after an update that is refused, and after it was dropped. -/
structure FailsCleanly (release : ζ → ζ) (z : ζ) (u : Updater τ) : Prop where
  refused : ∀ overtaken update fault,
    (u.receive overtaken z update).1 = .settled (.error fault) →
      (u.receive overtaken z update).2.1.isFinished = true ∧
        (u.receive overtaken z update).2.2 = if u.holdsAccess then release z else z
  dropped : u.drop z = if u.holdsAccess then release z else z

theorem failsCleanly [DirectStore ζ] [Storage ζ τ] (hz : Host.Releases release z)
    (hu : ∀ t ∈ u.writer?, t.isReadOnly = false) : u.FailsCleanly release z where
  refused overtaken update fault h := by
    cases hw : u.writer? with
    | none =>
        obtain ⟨hfinished, hzone⟩ := zone_receive_of_finished hw overtaken z update
        rw [holdsAccess, hw, hzone]
        exact ⟨Option.isNone_iff_eq_none.mpr hfinished, rfl⟩
    | some t =>
        have ht := hu t hw
        have hholds : u.holdsAccess = t.writes := by rw [holdsAccess, hw]; rfl
        rw [hholds]
        have hcourse := course_receive (z := z) hw overtaken update
        revert h hcourse
        generalize u.receive overtaken z update = o
        intro h hcourse
        cases hcourse with
        | refused => exact ⟨rfl, Transaction.drop_eq hz ht⟩
        | @finished r result t₁ z₁ _ hcommit =>
            have hmode : Access.mode (edited z t (.finished r)).access = Access.mode t.access :=
              (Transaction.edited_editAll z t _).mode_eq (Storage.mode_apply ζ)
            have ht' : (edited z t (.finished r)).isReadOnly = false := by
              rw [Transaction.isReadOnly, hmode]
              exact ht
            have herror : ((edited z t (.finished r)).commit z).1 = .error fault := by
              rw [hcommit]
              exact Progress.settled.inj h
            have hzone := Transaction.zone_commit_of_error hz ht' herror
            rw [hcommit, Transaction.writes, hmode] at hzone
            exact ⟨rfl, hzone⟩
        | @stopped r fault' t₁ z₁ _ hcommit =>
            have herror : (t.commit z).1 = .error fault' := by rw [hcommit]
            have hzone := Transaction.zone_commit_of_error hz ht herror
            have hended := Transaction.isEnded_commit (Storage.mode_ended ζ) z t
            rw [hcommit] at hzone hended
            refine ⟨rfl, ?_⟩
            rw [Transaction.drop_of_isEnded hended]
            exact hzone
        | edited | begun | resumed | waits => cases h
  dropped := by
    cases hw : u.writer? with
    | none => rw [drop, abort, holdsAccess, hw]; rfl
    | some t =>
        have hholds : u.holdsAccess = t.writes := by rw [holdsAccess, hw]; rfl
        rw [drop, abort, hw, hholds]
        exact Transaction.drop_eq hz (hu t hw)

end Updater

end DnsZone
