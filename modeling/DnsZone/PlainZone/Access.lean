import DnsZone.PlainZone.Staging
import DnsZone.Transaction.Ending

/-!
# Transactions of a plain zone

A reader sees the present content of the zone at each moment, so it may see other data after a
writer has committed. A writer sees that content with its staged changes. Changing the zone directly
is a writer of its own that makes the one change and commits.
-/

namespace DnsZone

/-- The state of a transaction of a plain zone. -/
inductive PlainAccess where
  | reading
  | writing (s : Staging)
  | ended

namespace PlainAccess

def mode : PlainAccess → Mode
  | .reading => .reading
  | .writing _ => .writing
  | .ended => .ended

def staging? : PlainAccess → Option Staging
  | .writing s => some s
  | _ => none

def modify (f : Staging → Staging) : PlainAccess → PlainAccess
  | .writing s => .writing (f s)
  | access => access

instance : Access PlainAccess where
  mode := mode
  ended := ended
  versionId? _ := none
  put n s := modify (Staging.put n s)
  eraseName n := modify (Staging.eraseName n)
  eraseSet n key := modify (Staging.eraseSet n key)
  clear := modify Staging.clear

end PlainAccess

namespace PlainZone

def findIn? (z : PlainZone) (access : PlainAccess) (n : Name) (key : SetKey) : Option RecordSet :=
  match access.staging? with
  | some s => s.find? z.nodes n key
  | none => z.find? n key

def nodeIn? (z : PlainZone) (access : PlainAccess) (n : Name) : Option Node :=
  match access.staging? with
  | some s => s.node? z.nodes z.generation.next n
  | none => z.node? n

def setsIn (z : PlainZone) (access : PlainAccess) : List (Name × RecordSet) :=
  match access.staging? with
  | some s => s.sets z.nodes z.generation.next
  | none => ownedSets (z.nodes.toList.map fun e => (e.1, e.2.value))

def changedIn (z : PlainZone) (access : PlainAccess) : Bool :=
  match access.staging? with
  | some s => s.hasChanges z.nodes
  | none => false

/-- The zone with `learned?` as its origin if it had none. -/
def learn (learned? : Option Name) (z : PlainZone) : PlainZone :=
  { z with origin? := z.origin?.or learned? }

/-- Installs staged changes as a new generation, if they change anything. -/
def install (s : Staging) (z : PlainZone) : PlainZone :=
  if s.hasChanges z.nodes then
    let (nodes, supply) := s.commit z.nodes z.generation.next
    { z with nodes := nodes, generation := z.generation.next, supply := supply }
  else z

def unlock (z : PlainZone) : PlainZone := { z with locked := false }

def finish (commit : Bool) (learned? : Option Name) (access : PlainAccess) (z : PlainZone) :
    Except ZoneError Unit × PlainZone :=
  match access with
  | .ended => (.error .alreadyEnded, z)
  | .reading => (.ok (), z)
  | .writing s => (.ok (), if commit then ((z.learn learned?).install s).unlock else z.unlock)

instance : Backend PlainZone PlainAccess where
  find? := findIn?
  node? := nodeIn?
  contains z access n := (z.nodeIn? access n).isSome
  sets := setsIn
  changed := changedIn
  finish := finish

/-- Whether the present content answers a query. -/
def answers (query : VersionQuery) (z : PlainZone) : Bool :=
  match query with
  | .id id => z.generation = id
  | .serial serial => z.soaSerial? == some serial

def openReader (query? : Option VersionQuery) (z : PlainZone) :
    Except ZoneError (PlainAccess × PlainZone) :=
  match query? with
  | none => .ok (.reading, z)
  | some query => if z.answers query then .ok (.reading, z) else .error (.notFound query)

/-- Starts a writer, unless another holds the lock. -/
def openWriter? (replacement : Bool) (z : PlainZone) : Option (PlainAccess × PlainZone) :=
  if z.locked then none
  else some (.writing (.start replacement z.supply), { z with locked := true })

instance : Host PlainZone PlainAccess where
  origin := origin
  cls := cls
  checksOrigin := checksOrigin
  openReader := openReader
  openWriter? := openWriter?

/-- Makes one change in a writer of its own and commits it. -/
def writeDirect (change : PlainAccess → PlainAccess) (z : PlainZone) :
    Option (Except ZoneError Unit × PlainZone) :=
  (Transaction.writer? false z).map fun (t, z) =>
    let (result, _, z) := { t with access := change t.access }.commit z
    (result, z)

/-- Stores a record set in place of the one with the same key; an empty set deletes that one. -/
def replaceSet (n : Name) (s : RecordSet) (z : PlainZone) :
    Option (Except ZoneError Unit × PlainZone) :=
  if s.isEmpty then z.writeDirect (Access.eraseSet n s.key) else z.writeDirect (Access.put n s)

def deleteSet (n : Name) (key : SetKey) (z : PlainZone) :
    Option (Except ZoneError Unit × PlainZone) :=
  z.writeDirect (Access.eraseSet n key)

def deleteNode (n : Name) (z : PlainZone) : Option (Except ZoneError Unit × PlainZone) :=
  z.writeDirect (Access.eraseName n)

instance : DirectStore PlainZone where
  findSet? := find?
  findNode? := node?
  replaceSet := replaceSet
  deleteSet := deleteSet
  deleteNode := deleteNode

end PlainZone

end DnsZone
