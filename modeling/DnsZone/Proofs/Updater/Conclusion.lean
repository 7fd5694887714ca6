import DnsZone.Proofs.Sample
import DnsZone.Proofs.Updater.Course
import DnsZone.VersionedZone.Queue

/-!
# After the end of a transfer

An updater is finished by the last update of its stream, once that was accepted, and by every update
that is refused. From then on it refuses all updates and leaves the zone and itself alone, whatever
others do to the zone. There is one exception: if no batch had begun before the end, the next update
that begins one is accepted, although there is nothing that it could begin.
-/

namespace DnsZone

namespace Updater

variable {ζ τ : Type} [Access τ] [Host ζ τ]

/-- The update is the end of the transfer: it is refused, or it is the last one and accepted. -/
def Concludes (u : Updater τ) (z : ζ) (update : Update) : Prop :=
  (∃ fault, (u.apply z update).1 = .settled (.error fault)) ∨
    (update.isLast = true ∧ (u.apply z update).1 = .settled (.ok ()))

/-- The updater after further updates, each with the zone as it then is. -/
def after (u : Updater τ) (later : List (ζ × Update)) : Updater τ :=
  later.foldl (fun u e => (u.apply e.1 e.2).2.1) u

/-- The updater accepts nothing any more, save for the beginning of a first batch, which it takes
note of and does nothing. -/
structure IsSpent (ζ : Type) {τ : Type} [Access τ] [Host ζ τ] (u : Updater τ) : Prop where
  finished : u.isFinished = true
  refuses : ∀ (z : ζ) update, u.batching = true ∨ update.isBoundary = false →
    ∃ fault, u.apply z update = (.settled (.error fault), u, z)
  notes : ∀ (z : ζ) r, u.batching = false →
    u.apply z (.beginBatchDelete r) = (.settled (.ok ()), { u with batching := true }, z)

variable {u : Updater τ} {z : ζ}

theorem isSpent_of_finished (hu : u.writer? = none) : u.IsSpent ζ where
  finished := Option.isNone_iff_eq_none.mpr hu
  refuses z update h := by
    have hrefused : (update.isBoundary && !u.batching) = false := by
      rcases h with h | h <;> simp [h]
    rw [apply_of_finished hu, hrefused]
    exact ⟨_, rfl⟩
  notes z r h := by
    rw [apply_of_finished hu, h, ← hu]
    rfl

/-- Nothing brings a finished updater back. -/
theorem writer?_after (hu : u.writer? = none) (later : List (ζ × Update)) :
    (u.after later).writer? = none := by
  induction later generalizing u with
  | nil => exact hu
  | cons e rest ih =>
      refine ih ?_
      change (u.apply e.1 e.2).2.1.writer? = none
      rw [apply_of_finished hu]
      split
      · rfl
      · exact hu

/-- The end of a transfer finishes the updater. -/
theorem Concludes.writer?_apply {update : Update} (h : u.Concludes z update) :
    (u.apply z update).2.1.writer? = none := by
  cases hu : u.writer? with
  | none => exact writer?_after hu [(z, update)]
  | some t =>
      have hcourse : Course z t u.batching update (u.apply z update) := course_apply hu update
      rw [Concludes] at h
      revert h hcourse
      generalize u.apply z update = o
      intro h hcourse
      cases hcourse with
      | refused | finished | stopped => rfl
      | edited _ _ hlast =>
          rcases h with ⟨fault, h⟩ | ⟨h, -⟩
          · cases h
          · rw [hlast] at h
            cases h
      | begun | resumed | waits =>
          rcases h with ⟨fault, h⟩ | ⟨h, -⟩ <;> cases h

/-- Once an update was refused or the last one was accepted, the updater is spent and stays so,
whatever is applied to it and whatever becomes of the zone. -/
theorem isSpent_after_conclusion {update : Update} (h : u.Concludes z update)
    (later : List (ζ × Update)) : ((u.apply z update).2.1.after later).IsSpent ζ :=
  isSpent_of_finished (writer?_after h.writer?_apply later)

/-! ### The exception -/

namespace EmptyTransfer

open Sample (origin soa)

def zone : VersionedZone := .create (some origin) .internet true false .latest

/-- The zone while the updater has write access. -/
def taken : VersionedZone := { zone with admission := { active := true } }

def updater : Updater VersionedAccess := ⟨some (zone.startWriter false), false⟩

theorem start?_eq : Updater.start? zone = some (updater, taken) := rfl

/-- An updater that was given nothing but the start of authority is finished, and still accepts
that a batch begins. -/
theorem boundary_accepted_after_end :
    let ended := updater.apply taken (.finished (soa 1))
    ended.1 = .settled (.ok ()) ∧ ended.2.1.isFinished = true ∧
      (ended.2.1.apply ended.2.2 (.beginBatchDelete (soa 1))).1 = .settled (.ok ()) :=
  ⟨rfl, rfl, rfl⟩

theorem isSpent_after_empty_transfer :
    updater.Concludes taken (.finished (soa 1)) ∧
      ((updater.apply taken (.finished (soa 1))).2.1.after
        [(taken, .beginBatchDelete (soa 1))]).IsSpent VersionedZone :=
  have h : updater.Concludes taken (.finished (soa 1)) := .inr ⟨rfl, rfl⟩
  ⟨h, isSpent_after_conclusion h _⟩

end EmptyTransfer

end Updater

end DnsZone
