import DnsZone.Transaction.Ending

/-!
# Applying transfers

A zone transfer arrives as a stream of updates. A full transfer deletes all records, adds those of
the new zone and finishes with its start of authority. An incremental one has a batch for each
version in between: records to delete, after the start of authority of the old version, and records
to add, after that of the new one. An updater applies such a stream to a zone through a writer,
committing each batch when the next one begins and the last one when the stream is finished, so that
every batch becomes a version of its own.

An update that fails rolls the present batch back and finishes the updater. Between two batches the
updater gives write access up and asks for it again; if others wait for it, they come first, and the
update is not settled until the updater has been given access.
-/

namespace DnsZone

/-- One step of a zone transfer. -/
inductive Update where
  | deleteAllRecords
  | deleteRecord (r : Record)
  | addRecord (r : Record)
  /-- Begins the deletions of a batch, with the start of authority of the old version. -/
  | beginBatchDelete (r : Record)
  /-- Begins the additions of a batch, with the start of authority of the new version. -/
  | beginBatchAdd (r : Record)
  /-- Ends the stream, with the start of authority of the zone. -/
  | finished (r : Record)

def Update.text : Update → String
  | .deleteAllRecords => "DeleteAllRecords"
  | .deleteRecord _ => "DeleteRecord"
  | .addRecord _ => "AddRecord"
  | .beginBatchDelete _ => "BeginBatchDelete"
  | .beginBatchAdd _ => "BeginBatchAdd"
  | .finished _ => "Finished"

inductive Progress where
  | settled (result : Except ZoneError Unit)
  /-- The batch before was committed, and the updater waits for write access. -/
  | waiting

/-- Applies the updates of a transfer. -/
structure Updater (τ : Type) where
  /-- The writer for the present batch; none once the updater is finished. -/
  writer? : Option (Transaction τ)
  /-- Whether a batch of an incremental transfer has begun. -/
  batching : Bool

namespace Updater

variable {ζ τ : Type} [Access τ] [Host ζ τ]

/-- Starts an updater, unless it has to wait for write access. -/
def start? (z : ζ) : Option (Updater τ × ζ) :=
  (Transaction.writer? false z).map fun (t, z) => (⟨some t, false⟩, z)

omit [Access τ] in
def isFinished (u : Updater τ) : Bool := u.writer?.isNone

def checkClass (z : ζ) (r : Record) : Except ZoneError Unit :=
  if r.cls = Host.cls z then .ok () else .error (.classMismatch (Host.cls z) r.cls)

def edit (z : ζ) (u : Updater τ) (e : Edit) : Except ZoneError Unit × Updater τ :=
  match u.writer? with
  | none => (.error .alreadyEnded, u)
  | some t =>
      let (result, t') := t.edit z e
      (result.map fun _ => (), { u with writer? := some t' })

/-- Makes an edit on behalf of a record, if that is of the right class. -/
def editFor (z : ζ) (u : Updater τ) (r : Record) (e : Edit) : Except ZoneError Unit × Updater τ :=
  match checkClass z r with
  | .error err => (.error err, u)
  | .ok () => u.edit z e

def updateSoa (z : ζ) (u : Updater τ) (r : Record) : Except ZoneError Unit × Updater τ :=
  if r.rtype ≠ .soa then (.error .noSoa, u)
  else u.editFor z r (.replace r.owner (.single r.ttl r.data))

/-- Asks for write access for the next batch. -/
def resume (u : Updater τ) (z : ζ) : Progress × Updater τ × ζ :=
  match Transaction.writer? false z with
  | none => (.waiting, u, z)
  | some (t, z') => (.settled (.ok ()), ⟨some t, true⟩, z')

/-- Applies an update as far as it goes. -/
def step (u : Updater τ) (z : ζ) : Update → Progress × Updater τ × ζ
  | .deleteAllRecords =>
      let (result, u) := u.edit z .deleteAll
      (.settled result, u, z)
  | .deleteRecord r =>
      let (result, u) := u.editFor z r (.deleteData r.owner r.data false)
      (.settled result, u, z)
  | .addRecord r =>
      let (result, u) := u.editFor z r (.addRecord r)
      (.settled result, u, z)
  | .beginBatchDelete _ =>
      if u.batching then
        match u.writer? with
        | none => (.settled (.error .alreadyEnded), u, z)
        | some t =>
            match t.commit z with
            | (.error e, t, z) => (.settled (.error e), { u with writer? := some t }, z)
            | (.ok (), t, z) => resume { u with writer? := some t } z
      else (.settled (.ok ()), { u with batching := true }, z)
  | .beginBatchAdd r =>
      match u.updateSoa z r with
      | (.error e, u) => (.settled (.error e), u, z)
      | (.ok (), u) => (.settled (.ok ()), { u with batching := true }, z)
  | .finished r =>
      match u.updateSoa z r with
      | (.error e, u) => (.settled (.error e), u, z)
      | (.ok (), u) =>
          match u.writer? with
          | none => (.settled (.error .alreadyEnded), u, z)
          | some t =>
              let (result, _, z) := t.commit z
              (.settled result, { u with writer? := none }, z)

/-- Rolls the present batch back and finishes the updater. -/
def abort (u : Updater τ) (z : ζ) : Updater τ × ζ :=
  match u.writer? with
  | none => (u, z)
  | some t => ({ u with writer? := none }, t.drop z)

/-- Applies an update; one that is refused finishes the updater. -/
def apply (u : Updater τ) (z : ζ) (update : Update) : Progress × Updater τ × ζ :=
  match u.step z update with
  | (.settled (.error e), u, z) =>
      let (u, z) := u.abort z
      (.settled (.error e), u, z)
  | outcome => outcome

def drop (u : Updater τ) (z : ζ) : ζ := (u.abort z).2

end Updater

end DnsZone
