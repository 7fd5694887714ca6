import DnsZone.Transaction.Backend

/-!
# Transactions

A transaction reads one state of a zone and, if it is a writer, its own changes to it. It takes
names absolute or relative to the origin and converts them to the form in which the zone stores
them. Once it was committed or rolled back, every operation on it is refused. Checks may be set on a
writer that can veto what it stores or deletes.

This module holds the type, how transactions are started, and all that reads.
-/

namespace DnsZone

/-- The checks that can veto changes, each giving a reason if it refuses. -/
structure Checks where
  put? : Option (Name → RecordSet → Except String Unit) := none
  deleteSet? : Option (Name → SetKey → Except String Unit) := none
  deleteName? : Option (Name → Except String Unit) := none

/-- A transaction whose state in its zone is a `τ`. -/
structure Transaction (τ : Type) where
  access : τ
  origin : Origin
  /-- Whether the transaction itself has set the origin. -/
  originSet : Bool := false
  /-- Whether a commit has to leave a start of authority and name servers at the origin. -/
  checksOrigin : Bool := false
  checks : Checks := {}

namespace Transaction

variable {ζ τ : Type} [Access τ]

def ofReader [Host ζ τ] (access : τ) (z : ζ) : Transaction τ :=
  { access := access, origin := Host.origin z }

def ofWriter [Host ζ τ] (access : τ) (z : ζ) : Transaction τ :=
  { access := access, origin := Host.origin z, checksOrigin := Host.checksOrigin z }

def reader [Host ζ τ] (query? : Option VersionQuery) (z : ζ) :
    Except ZoneError (Transaction τ × ζ) :=
  match Host.openReader query? z with
  | .error e => .error e
  | .ok (access, z') => .ok (ofReader access z', z')

/-- Starts a writer, if it need not wait. -/
def writer? [Host ζ τ] (replacement : Bool) (z : ζ) : Option (Transaction τ × ζ) :=
  match Host.openWriter? replacement z with
  | none => none
  | some (access, z') => some (ofWriter access z', z')

/-- Whether the transaction was committed or rolled back. -/
def isEnded (t : Transaction τ) : Bool :=
  Access.mode t.access = .ended

def isReadOnly (t : Transaction τ) : Bool :=
  Access.mode t.access = .reading

def requireOpen (t : Transaction τ) : Except ZoneError Unit :=
  if t.isEnded then .error .alreadyEnded else .ok ()

/-- Refuses an ended transaction and one that only reads. -/
def requireWritable (t : Transaction τ) : Except ZoneError Unit :=
  if t.isEnded then .error .alreadyEnded
  else if t.isReadOnly then .error .immutable
  else .ok ()

variable [Backend ζ τ]

def get (z : ζ) (t : Transaction τ) (n : Name) (key : SetKey) :
    Except ZoneError (Option RecordSet) := do
  t.requireOpen
  let n ← t.origin.stored n
  return Backend.find? z t.access n key

def getNode (z : ζ) (t : Transaction τ) (n : Name) : Except ZoneError (Option Node) := do
  t.requireOpen
  let n ← t.origin.stored n
  return Backend.node? z t.access n

def nameExists (z : ζ) (t : Transaction τ) (n : Name) : Except ZoneError Bool := do
  t.requireOpen
  let n ← t.origin.stored n
  return Backend.contains z t.access n

def changed (z : ζ) (t : Transaction τ) : Except ZoneError Bool := do
  t.requireOpen
  return Backend.changed z t.access

/-- All record sets that the transaction sees with their owner names, in canonical order. -/
def sets (z : ζ) (t : Transaction τ) : Except ZoneError (List (Name × RecordSet)) := do
  t.requireOpen
  return Backend.sets z t.access

/-- The names of a listing, the first of each run of equal names; `last?` is the name before. -/
def distinctNames (last? : Option Name) : List (Name × RecordSet) → List Name
  | [] => []
  | e :: rest =>
      if last? == some e.1 then distinctNames last? rest
      else e.1 :: distinctNames (some e.1) rest

/-- All names that the transaction sees, in canonical order. -/
def names (z : ζ) (t : Transaction τ) : Except ZoneError (List Name) :=
  (t.sets z).map (distinctNames none)

end Transaction

end DnsZone
