import DnsZone.Proofs.Transaction.Edited
import DnsZone.Updater

/-!
# What an updater does with an update

An update for a record of the class of the zone is an edit of the writer of the present batch. A
batch begins with a commit of the one before it, unless it is the first, and the last update commits
as well. Each lemma says what becomes of the updater if the writer is not refused anything.
-/

namespace DnsZone

/-- The edit that an update amounts to, and the record that it is about. -/
def Update.edit? : Update → Option (Record × Edit)
  | .deleteRecord r => some (r, .deleteData r.owner r.data false)
  | .addRecord r => some (r, .addRecord r)
  | _ => none

theorem Transaction.checksOrigin_edit {ζ τ : Type} [Access τ] [Backend ζ τ] (z : ζ)
    (t : Transaction τ) (e : Edit) : (t.edit z e).2.checksOrigin = t.checksOrigin := by
  rw [edit]
  cases t.plan z e with
  | error fault => rfl
  | ok r => exact t.checksOrigin_apply r.1

namespace Updater

variable {ζ τ : Type} [Access τ] [Host ζ τ] {z : ζ} {u : Updater τ} {t t' : Transaction τ}
  {r : Record} {e : Edit} {serial? : Option Serial}

/-- The writer makes an edit on behalf of a record of the class of the zone. -/
theorem editFor_eq (hu : u.writer? = some t) (hr : r.cls = Host.cls z)
    (he : t.edit z e = (.ok serial?, t')) :
    u.editFor z r e = (.ok (), { u with writer? := some t' }) := by
  rw [editFor, checkClass, if_pos hr]
  simp only [edit, hu, he]
  rfl

theorem apply_of_edit {update : Update} (hedit : update.edit? = some (r, e))
    (hu : u.writer? = some t) (hr : r.cls = Host.cls z) (he : t.edit z e = (.ok serial?, t')) :
    u.apply z update = (.settled (.ok ()), { u with writer? := some t' }, z) := by
  cases update with
  | deleteRecord r' =>
      cases hedit
      rw [apply, step, editFor_eq hu hr he]
  | addRecord r' =>
      cases hedit
      rw [apply, step, editFor_eq hu hr he]
  | _ => cases hedit

theorem updateSoa_eq (hu : u.writer? = some t) (hr : r.cls = Host.cls z) (hsoa : r.rtype = .soa)
    (he : t.edit z (.replace r.owner (.single r.ttl r.data)) = (.ok serial?, t')) :
    u.updateSoa z r = (.ok (), { u with writer? := some t' }) := by
  rw [updateSoa, if_neg (not_not_intro hsoa), editFor_eq hu hr he]

theorem apply_beginBatchAdd (hu : u.writer? = some t) (hr : r.cls = Host.cls z)
    (hsoa : r.rtype = .soa)
    (he : t.edit z (.replace r.owner (.single r.ttl r.data)) = (.ok serial?, t')) :
    u.apply z (.beginBatchAdd r) = (.settled (.ok ()), ⟨some t', true⟩, z) := by
  rw [apply, step, updateSoa_eq hu hr hsoa he]

theorem apply_finished (hu : u.writer? = some t) (hr : r.cls = Host.cls z)
    (hsoa : r.rtype = .soa)
    (he : t.edit z (.replace r.owner (.single r.ttl r.data)) = (.ok serial?, t'))
    {t'' : Transaction τ} {z' : ζ} (hcommit : t'.commit z = (.ok (), t'', z')) :
    u.apply z (.finished r) = (.settled (.ok ()), { u with writer? := none }, z') := by
  rw [apply, step, updateSoa_eq hu hr hsoa he]
  simp only [hcommit]

/-- The first batch begins with the writer that is there. -/
theorem apply_beginBatchDelete_first (hu : u.batching = false) :
    u.apply z (.beginBatchDelete r) = (.settled (.ok ()), { u with batching := true }, z) := by
  rw [apply, step, hu]
  rfl

/-- A batch begins with a commit of the one before. -/
theorem apply_beginBatchDelete (hu : u.writer? = some t) (hbatching : u.batching = true) {z' : ζ}
    (hcommit : t.commit z = (.ok (), t', z')) :
    u.apply z (.beginBatchDelete r) = resume { u with writer? := some t' } z' := by
  rw [apply, step, if_pos hbatching]
  simp only [hu, hcommit, resume]
  cases Transaction.writer? false z' <;> rfl

end Updater

end DnsZone
