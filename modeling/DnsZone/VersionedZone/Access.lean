import DnsZone.Transaction.Backend
import DnsZone.Version.WorkingCopy
import DnsZone.VersionedZone.Basic

/-!
# Transactions of a versioned zone

A reader sees the version it was started on. A writer sees the version it was based on until it
changes something; only then a working copy is made. A writer that replaces the content of the zone
sees nothing until then. A commit adds the working copy to the chain if it has changes, sets the
origin of a zone that has none, and hands write access on.

The transactions of a zone do not keep it: ending one on a zone that nobody holds any more fails,
although it can read to the end what it saw.
-/

namespace DnsZone

/-- The state of a writer. -/
structure Draft where
  /-- The version that was the latest when the writer was started. -/
  base : Version
  /-- Whether the content of `base` is replaced. -/
  replacement : Bool
  copy? : Option WorkingCopy

/-- The state of a transaction of a versioned zone. -/
inductive VersionedAccess where
  | reading (v : Version)
  | writing (d : Draft)
  | ended

/-- What a transaction of a versioned zone sees. -/
inductive VersionedView where
  | committed (v : Version)
  | working (w : WorkingCopy)
  | blank

namespace VersionedView

def find? (view : VersionedView) (n : Name) (key : SetKey) : Option RecordSet :=
  match view with
  | .committed v => v.find? n key
  | .working w => w.find? n key
  | .blank => none

def node? (view : VersionedView) (n : Name) : Option Node :=
  match view with
  | .committed v => (v.node? n).map (·.value)
  | .working w => w.node? n
  | .blank => none

def contains (view : VersionedView) (n : Name) : Bool :=
  match view with
  | .committed v => v.nodes.contains n
  | .working w => w.slots.contains n
  | .blank => false

def sets (view : VersionedView) : List (Name × RecordSet) :=
  match view with
  | .committed v => v.sets
  | .working w => w.sets
  | .blank => []

end VersionedView

namespace Draft

def start (base : Version) (replacement : Bool) : Draft := ⟨base, replacement, none⟩

def freshCopy (d : Draft) : WorkingCopy :=
  if d.replacement then .replacing d.base.id.next d.base else .extending d.base.id.next d.base

/-- The working copy, made now if there is none. -/
def working (d : Draft) : WorkingCopy := d.copy?.getD d.freshCopy

def view (d : Draft) : VersionedView :=
  match d.copy? with
  | some w => .working w
  | none => if d.replacement then .blank else .committed d.base

def changed (d : Draft) : Bool :=
  match d.copy? with
  | some w => w.hasChanges
  | none => d.replacement && !d.base.isEmpty

def modify (f : WorkingCopy → WorkingCopy) (d : Draft) : Draft :=
  { d with copy? := some (f d.working) }

def clear (d : Draft) : Draft := { d with replacement := true, copy? := none }

/-- The version that a commit adds, if it changes the zone. -/
def version? (d : Draft) : Option Version := if d.changed then some d.working.freeze else none

def versionId (d : Draft) : VersionId :=
  match d.copy? with
  | some w => w.id
  | none => d.base.id

end Draft

namespace VersionedAccess

def mode : VersionedAccess → Mode
  | .reading _ => .reading
  | .writing _ => .writing
  | .ended => .ended

def view : VersionedAccess → VersionedView
  | .reading v => .committed v
  | .writing d => d.view
  | .ended => .blank

def modify (f : Draft → Draft) : VersionedAccess → VersionedAccess
  | .writing d => .writing (f d)
  | access => access

instance : Access VersionedAccess where
  mode := mode
  ended := ended
  versionId?
    | .reading v => some v.id
    | .writing d => some d.versionId
    | .ended => none
  put n s := modify (Draft.modify fun w => w.put n s)
  eraseName n := modify (Draft.modify fun w => w.eraseName n)
  eraseSet n key := modify (Draft.modify fun w => w.eraseSet n key)
  clear := modify Draft.clear

def changed : VersionedAccess → Bool
  | .writing d => d.changed
  | _ => false

end VersionedAccess

namespace VersionedZone

def append (version? : Option Version) (z : VersionedZone) : VersionedZone :=
  match version? with
  | none => z
  | some v => { z with chain := z.chain.push v }

/-- The zone with `learned?` as its origin if it had none. -/
def learn (learned? : Option Name) (z : VersionedZone) : VersionedZone :=
  { z with origin? := z.origin?.or learned? }

/-- Installs what a writer has changed and hands write access on. -/
def install (d : Draft) (learned? : Option Name) (z : VersionedZone) : VersionedZone :=
  (((z.append d.version?).learn learned?).release).prune

def finish (commit : Bool) (learned? : Option Name) (access : VersionedAccess) (z : VersionedZone) :
    Except ZoneError Unit × VersionedZone :=
  match access with
  | .ended => (.error .alreadyEnded, z)
  | .reading v => if z.alive then (.ok (), z.unpin v.id) else (.error .zoneDropped, z)
  | .writing d =>
      if z.alive then (.ok (), if commit then z.install d learned? else z.release)
      else (.error .zoneDropped, z)

instance : Backend VersionedZone VersionedAccess where
  find? _ access := access.view.find?
  node? _ access := access.view.node?
  contains _ access := access.view.contains
  sets _ access := access.view.sets
  changed _ access := access.changed
  finish := finish

/-- The state of a writer to which access was granted. -/
def begin (replacement : Bool) (z : VersionedZone) : VersionedAccess :=
  .writing (.start z.latest replacement)

def openReader (query? : Option VersionQuery) (z : VersionedZone) :
    Except ZoneError (VersionedAccess × VersionedZone) :=
  (z.pin query?).map fun r => (.reading r.1, r.2)

/-- Starts a writer, unless another has access or waits for it. -/
def openWriter? (replacement : Bool) (z : VersionedZone) :
    Option (VersionedAccess × VersionedZone) :=
  z.admission.seize?.map fun a => (z.begin replacement, { z with admission := a })

instance : Host VersionedZone VersionedAccess where
  origin := origin
  cls := cls
  checksOrigin := checksOrigin
  openReader := openReader
  openWriter? := openWriter?

/-- Direct changes of a zone that keeps versions are refused. -/
instance : DirectStore VersionedZone where
  findSet? z n key := z.latest.find? n key
  findNode? z n := (z.latest.node? n).map (·.value)
  replaceSet _ _ z := some (.error .useTransaction, z)
  deleteSet _ _ z := some (.error .useTransaction, z)
  deleteNode _ z := some (.error .useTransaction, z)

end VersionedZone

end DnsZone
