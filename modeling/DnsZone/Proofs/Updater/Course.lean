import DnsZone.Proofs.Transaction.Edited
import DnsZone.Proofs.Updater

/-!
# The course of an update

An update may be for a record that does not fit the zone, and it has the writer of the present batch
make at most one edit. Beyond that it begins a batch or ends the stream, which commits. `Course`
says all that can come of an update while there is a writer, `apply_of_finished` what comes of it
afterwards. What edits, the end of a writer and the start of the next one keep, every update keeps.
-/

namespace DnsZone

namespace Update

/-- Why a record is not fit for a zone of class `cls`, if it is not of that class. -/
def classFault? (cls : RecordClass) (r : Record) : Option ZoneError :=
  if r.cls = cls then none else some (.classMismatch cls r.cls)

/-- Why the update is refused on account of its record alone. -/
def fault? (cls : RecordClass) : Update → Option ZoneError
  | .deleteAllRecords | .beginBatchDelete _ => none
  | .deleteRecord r | .addRecord r => classFault? cls r
  | .beginBatchAdd r | .finished r => if r.rtype ≠ .soa then some .noSoa else classFault? cls r

/-- What the update has the writer do, apart from ending. -/
def edits : Update → List Edit
  | .deleteAllRecords => [.deleteAll]
  | .deleteRecord r => [.deleteData r.owner r.data false]
  | .addRecord r => [.addRecord r]
  | .beginBatchDelete _ => []
  | .beginBatchAdd r | .finished r => [.replace r.owner (.single r.ttl r.data)]

/-- Whether the update begins the deletions of a batch. -/
def isBoundary : Update → Bool
  | .beginBatchDelete _ => true
  | _ => false

/-- Whether the update ends the stream. -/
def isLast : Update → Bool
  | .finished _ => true
  | _ => false

/-- Whether a batch has begun once the update was applied. -/
def batches : Update → Bool
  | .beginBatchDelete _ | .beginBatchAdd _ => true
  | _ => false

theorem ne_setOrigin_of_mem_edits {update : Update} {e : Edit} (he : e ∈ update.edits)
    (origin : Name) : e ≠ .setOrigin origin := by
  rintro rfl
  cases update <;> simp [edits] at he

/-- An update that is no boundary makes one edit. -/
theorem exists_edits_eq {update : Update} (h : update.isBoundary = false) :
    ∃ e, update.edits = [e] := by
  cases update with
  | beginBatchDelete r => cases h
  | _ => exact ⟨_, rfl⟩

end Update

theorem Transaction.edit_of_error {ζ τ : Type} [Access τ] [Backend ζ τ] {z : ζ} {t : Transaction τ}
    {e : Edit} {fault : ZoneError} (h : (t.edit z e).1 = .error fault) : (t.edit z e).2 = t := by
  rw [edit] at h ⊢
  cases hplan : t.plan z e with
  | error _ => rfl
  | ok r =>
      rw [hplan] at h
      cases h

namespace Updater

variable {ζ τ : Type} [Access τ] [Host ζ τ] {z : ζ} {u : Updater τ} {t : Transaction τ}

/-! ### One update -/

/-- The edit of an update, if its record is fit. -/
def attempt (z : ζ) (u : Updater τ) (fault? : Option ZoneError) (e : Edit) :
    Except ZoneError Unit × Updater τ :=
  match fault? with
  | some fault => (.error fault, u)
  | none => u.edit z e

theorem editFor_eq_attempt (z : ζ) (u : Updater τ) (r : Record) (e : Edit) :
    u.editFor z r e = u.attempt z (Update.classFault? (Host.cls z) r) e := by
  rw [editFor, checkClass, Update.classFault?]
  by_cases hr : r.cls = Host.cls z
  · rw [if_pos hr, if_pos hr]
    rfl
  · rw [if_neg hr, if_neg hr]
    rfl

theorem updateSoa_eq_attempt (z : ζ) (u : Updater τ) (r : Record) :
    u.updateSoa z r = u.attempt z
      (if r.rtype ≠ .soa then some .noSoa else Update.classFault? (Host.cls z) r)
      (.replace r.owner (.single r.ttl r.data)) := by
  rw [updateSoa, editFor_eq_attempt]
  split <;> rfl

/-- An update in the middle of a batch is an edit. -/
theorem step_eq_attempt (z : ζ) (u : Updater τ) {update : Update} {e : Edit}
    (he : update.edits = [e]) (hlast : update.isLast = false) :
    u.step z update =
      match u.attempt z (update.fault? (Host.cls z)) e with
      | (.error fault, u') => (.settled (.error fault), u', z)
      | (.ok (), u') => (.settled (.ok ()), ⟨u'.writer?, u'.batching || update.batches⟩, z) := by
  have hsame (x : Except ZoneError Unit × Updater τ) : (Progress.settled x.1, x.2, z) =
      match x with
      | (.error fault, u') => (.settled (.error fault), u', z)
      | (.ok (), u') => (.settled (.ok ()), ⟨u'.writer?, u'.batching || false⟩, z) := by
    obtain ⟨fault | ⟨⟩, writer?, batching⟩ := x
    · rfl
    · exact congrArg (fun b => (Progress.settled (.ok ()), Updater.mk writer? b, z))
        (Bool.or_false batching).symm
  cases update with
  | beginBatchDelete r => cases he
  | finished r => cases hlast
  | deleteAllRecords =>
      cases he
      exact hsame _
  | deleteRecord r =>
      cases he
      rw [step, editFor_eq_attempt]
      exact hsame _
  | addRecord r =>
      cases he
      rw [step, editFor_eq_attempt]
      exact hsame _
  | beginBatchAdd r =>
      cases he
      rw [step, updateSoa_eq_attempt, Update.fault?, Update.batches]
      generalize attempt z u _ _ = x
      obtain ⟨fault | ⟨⟩, writer?, batching⟩ := x
      · rfl
      · exact congrArg (fun b => (Progress.settled (.ok ()), Updater.mk writer? b, z))
          (Bool.or_true batching).symm

/-- The last update is an edit and a commit. -/
theorem step_finished_eq_attempt (z : ζ) (u : Updater τ) (r : Record) :
    u.step z (.finished r) =
      match u.attempt z ((Update.finished r).fault? (Host.cls z))
        (.replace r.owner (.single r.ttl r.data)) with
      | (.error fault, u') => (.settled (.error fault), u', z)
      | (.ok (), u') =>
          match u'.writer? with
          | none => (.settled (.error .alreadyEnded), u', z)
          | some t => (.settled (t.commit z).1, ⟨none, u'.batching⟩, (t.commit z).2.2) := by
  rewrite [step, updateSoa_eq_attempt, Update.fault?]
  rfl

/-! ### With a writer -/

/-- Why the update is refused, on account of its record or by the writer, if it is. -/
def refusal? (z : ζ) (t : Transaction τ) (update : Update) : Option ZoneError :=
  match update.fault? (Host.cls z) with
  | some fault => some fault
  | none => (t.editAll z update.edits).1.findSome? fun
      | .error fault => some fault
      | .ok _ => none

/-- The writer after it has made the edit of the update. -/
def edited (z : ζ) (t : Transaction τ) (update : Update) : Transaction τ :=
  (t.editAll z update.edits).2

/-- A refused attempt leaves the writer as it is, an accepted one has made the edit. -/
theorem attempt_eq (hu : u.writer? = some t) {update : Update} {e : Edit}
    (he : update.edits = [e]) :
    u.attempt z (update.fault? (Host.cls z)) e =
      match refusal? z t update with
      | some fault => (.error fault, u)
      | none => (.ok (), ⟨some (edited z t update), u.batching⟩) := by
  rw [attempt.eq_def, refusal?, edited, he]
  cases update.fault? (Host.cls z) with
  | some fault => rfl
  | none =>
      obtain ⟨writer?, batching⟩ := u
      cases hu
      simp only [edit, Transaction.editAll, List.findSome?_cons, List.findSome?_nil]
      cases hresult : (t.edit z e).1 with
      | error fault =>
          rw [Transaction.edit_of_error hresult]
          rfl
      | ok serial? => rfl

/-- What can come of an update if the updater has a writer: the progress, the updater and the zone
afterwards. -/
inductive Course (z : ζ) (t : Transaction τ) (batching : Bool) :
    Update → Progress × Updater τ × ζ → Prop where
  | refused {update : Update} {fault : ZoneError} (h : refusal? z t update = some fault) :
      Course z t batching update (.settled (.error fault), ⟨none, batching⟩, t.drop z)
  | edited {update : Update} (h : refusal? z t update = none)
      (hboundary : update.isBoundary = false) (hlast : update.isLast = false) :
      Course z t batching update
        (.settled (.ok ()), ⟨some (edited z t update), batching || update.batches⟩, z)
  | finished {r : Record} {result : Except ZoneError Unit} {t₁ : Transaction τ} {z₁ : ζ}
      (h : refusal? z t (.finished r) = none)
      (hcommit : (edited z t (.finished r)).commit z = (result, t₁, z₁)) :
      Course z t batching (.finished r) (.settled result, ⟨none, batching⟩, z₁)
  /-- The first batch begins, with the writer that is there. -/
  | begun {r : Record} (h : batching = false) :
      Course z t batching (.beginBatchDelete r) (.settled (.ok ()), ⟨some t, true⟩, z)
  /-- The batch before cannot be committed. -/
  | stopped {r : Record} {fault : ZoneError} {t₁ : Transaction τ} {z₁ : ζ} (h : batching = true)
      (hcommit : t.commit z = (.error fault, t₁, z₁)) :
      Course z t batching (.beginBatchDelete r)
        (.settled (.error fault), ⟨none, true⟩, t₁.drop z₁)
  /-- The batch before is committed, and the next one has a writer of its own. -/
  | resumed {r : Record} {t₁ t₂ : Transaction τ} {z₁ z₂ : ζ} (h : batching = true)
      (hcommit : t.commit z = (.ok (), t₁, z₁))
      (hnext : Transaction.writer? false z₁ = some (t₂, z₂)) :
      Course z t batching (.beginBatchDelete r) (.settled (.ok ()), ⟨some t₂, true⟩, z₂)
  /-- The batch before is committed, and others come before the next one. -/
  | waits {r : Record} {t₁ : Transaction τ} {z₁ : ζ} (h : batching = true)
      (hcommit : t.commit z = (.ok (), t₁, z₁)) :
      Course z t batching (.beginBatchDelete r) (.waiting, ⟨some t₁, true⟩, z₁)

theorem course_apply (hu : u.writer? = some t) (update : Update) :
    Course z t u.batching update (u.apply z update) := by
  obtain ⟨writer?, batching⟩ := u
  cases hu
  rw [apply]
  cases hboundary : update.isBoundary with
  | true =>
      cases update with
      | beginBatchDelete r =>
          rw [step]
          cases batching with
          | false => exact .begun rfl
          | true =>
              simp only [↓reduceIte]
              rcases hcommit : t.commit z with ⟨result, t₁, z₁⟩
              cases result with
              | error fault => exact .stopped rfl hcommit
              | ok _ =>
                  simp only [resume]
                  cases hnext : Transaction.writer? false z₁ with
                  | none => exact .waits rfl hcommit
                  | some next => exact .resumed rfl hcommit hnext
      | _ => cases hboundary
  | false =>
      obtain ⟨e, he⟩ := Update.exists_edits_eq hboundary
      cases hlast : update.isLast with
      | false =>
          rw [step_eq_attempt z _ he hlast, attempt_eq rfl he]
          cases h : refusal? z t update with
          | some fault => exact .refused h
          | none => exact .edited h hboundary hlast
      | true =>
          cases update with
          | finished r =>
              cases he
              rw [step_finished_eq_attempt, attempt_eq rfl rfl]
              cases h : refusal? z t (.finished r) with
              | some fault => exact .refused h
              | none =>
                  rcases hcommit : (edited z t (.finished r)).commit z with ⟨result, t₁, z₁⟩
                  simp only
                  rw [hcommit]
                  cases result <;> exact .finished h hcommit
          | _ => cases hlast

/-- Applies an update as far as it goes. If `overtaken` holds, somebody else is given write access
as soon as the updater has committed a batch. -/
def receive (overtaken : Bool) (u : Updater τ) (z : ζ) (update : Update) :
    Progress × Updater τ × ζ :=
  if overtaken && update.isBoundary && u.batching then
    match u.writer? with
    | none => u.apply z update
    | some t =>
        match t.commit z with
        | (.error fault, t, z) => (.settled (.error fault), ⟨none, true⟩, t.drop z)
        | (.ok (), t, z) => (.waiting, ⟨some t, true⟩, z)
  else u.apply z update

theorem receive_of_finished (hu : u.writer? = none) (overtaken : Bool) (z : ζ) (update : Update) :
    u.receive overtaken z update = u.apply z update := by
  rw [receive, hu]
  split <;> rfl

theorem course_receive (hu : u.writer? = some t) (overtaken : Bool) (update : Update) :
    Course z t u.batching update (u.receive overtaken z update) := by
  rw [receive, hu]
  split
  · rename_i hovertaken
    simp only [Bool.and_eq_true] at hovertaken
    obtain ⟨⟨-, hboundary⟩, hbatching⟩ := hovertaken
    rw [hbatching]
    cases update with
    | beginBatchDelete r =>
        rcases hcommit : t.commit z with ⟨_ | _, t₁, z₁⟩
        · simp only [hcommit]
          exact .stopped rfl hcommit
        · simp only [hcommit]
          exact .waits rfl hcommit
    | _ => cases hboundary
  · exact course_apply hu update

/-! ### Without a writer -/

/-- A finished updater refuses all updates, but takes note of the first batch. -/
theorem apply_of_finished (hu : u.writer? = none) (z : ζ) (update : Update) :
    u.apply z update =
      if update.isBoundary && !u.batching then (.settled (.ok ()), ⟨none, true⟩, z)
      else (.settled (.error ((update.fault? (Host.cls z)).getD .alreadyEnded)), u, z) := by
  obtain ⟨writer?, batching⟩ := u
  cases hu
  have hattempt (fault? : Option ZoneError) (e : Edit) :
      attempt z ⟨none, batching⟩ fault? e =
        (.error (fault?.getD .alreadyEnded), ⟨none, batching⟩) := by
    cases fault? <;> rfl
  rw [apply]
  cases hboundary : update.isBoundary with
  | true =>
      cases update with
      | beginBatchDelete r => cases batching <;> rfl
      | _ => cases hboundary
  | false =>
      obtain ⟨e, he⟩ := Update.exists_edits_eq hboundary
      cases hlast : update.isLast with
      | false =>
          rw [step_eq_attempt z _ he hlast, hattempt]
          rfl
      | true =>
          cases update with
          | finished r =>
              rw [step_finished_eq_attempt, hattempt]
              rfl
          | _ => cases hlast

/-! ### Streams of updates -/

/-- Applies updates in order. -/
def applyAll (u : Updater τ) (z : ζ) : List Update → List Progress × Updater τ × ζ
  | [] => ([], u, z)
  | update :: rest =>
      let o := u.apply z update
      let r := applyAll o.2.1 o.2.2 rest
      (o.1 :: r.1, r.2)

theorem applyAll_append (u : Updater τ) (z : ζ) (updates rest : List Update) :
    u.applyAll z (updates ++ rest) =
      ((u.applyAll z updates).1 ++
          ((u.applyAll z updates).2.1.applyAll (u.applyAll z updates).2.2 rest).1,
        ((u.applyAll z updates).2.1.applyAll (u.applyAll z updates).2.2 rest).2) := by
  induction updates generalizing u z with
  | nil => rfl
  | cons update updates ih =>
      simp only [List.cons_append, applyAll, ih]

theorem length_applyAll (u : Updater τ) (z : ζ) (updates : List Update) :
    (u.applyAll z updates).1.length = updates.length := by
  induction updates generalizing u z with
  | nil => rfl
  | cons update updates ih => exact congrArg (· + 1) (ih _ _)

end Updater

end DnsZone
