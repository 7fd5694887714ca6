import DnsZone.Transaction.Edit

/-!
# Ending a transaction

A transaction ends once, by a commit, by a rollback, or by being dropped, which rolls it back. If
the zone asks for it, a commit of changes has to leave a start of authority and name servers at the
origin; one that does not is rolled back instead. Whatever comes of it, the transaction has ended
afterwards.
-/

namespace DnsZone.Transaction

variable {ζ τ : Type} [Access τ] [Backend ζ τ]

/-- The result of an operation on a transaction, the transaction after it, and its zone. -/
abbrev Outcome (ζ τ α : Type) := Except ZoneError α × Transaction τ × ζ

/-- What keeps the apex from being committed, if anything. -/
def apexFault? (z : ζ) (t : Transaction τ) : Option ZoneError :=
  if t.isReadOnly || !t.checksOrigin || !Backend.changed z t.access then none
  else
    match t.origin.apex? with
    | none => some .noOrigin
    | some apex =>
        if (Backend.find? z t.access apex .soa).isNone then some .noSoa
        else if (Backend.find? z t.access apex .ns).isNone then some .noNs
        else none

/-- Ends the transaction in its zone. -/
def close (commit : Bool) (t : Transaction τ) (z : ζ) : Outcome ζ τ Unit :=
  let learned? := if t.originSet then t.origin.name? else none
  let (result, z') := Backend.finish commit learned? t.access z
  (result, { t with access := Access.ended }, z')

def rollback (t : Transaction τ) (z : ζ) : Outcome ζ τ Unit :=
  if t.isEnded then (.error .alreadyEnded, t, z) else t.close false z

/-- Commits the transaction, or rolls it back if the origin would lack what it needs. -/
def commit (t : Transaction τ) (z : ζ) : Outcome ζ τ Unit :=
  if t.isEnded then (.error .alreadyEnded, t, z)
  else
    match t.apexFault? z with
    | none => t.close true z
    | some fault =>
        match t.close false z with
        | (.error e, t', z') => (.error e, t', z')
        | (.ok _, t', z') => (.error fault, t', z')

/-- Drops the transaction, rolling it back unless it has ended. -/
def drop (t : Transaction τ) (z : ζ) : ζ := if t.isEnded then z else (t.close false z).2.2

/-- Runs `body` in a writer that has been started, and commits if it succeeds; otherwise the writer
is dropped. -/
def writeWith {ε α : Type} (ofZoneError : ZoneError → ε)
    (body : Transaction τ → ζ → Except ε α × Transaction τ × ζ) (t : Transaction τ) (z : ζ) :
    Except ε α × ζ :=
  match body t z with
  | (.error e, t, z) => (.error e, t.drop z)
  | (.ok a, t, z) =>
      match t.commit z with
      | (.error e, _, z) => (.error (ofZoneError e), z)
      | (.ok _, _, z) => (.ok a, z)

/-- Runs `body` in a reader that has been started, and drops the reader. -/
def readWith {ε α : Type} (body : Transaction τ → ζ → Except ε α) (t : Transaction τ) (z : ζ) :
    Except ε α × ζ :=
  (body t z, t.drop z)

end DnsZone.Transaction
