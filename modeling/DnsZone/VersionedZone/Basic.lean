import DnsZone.Admission
import DnsZone.Origin
import DnsZone.VersionChain

/-!
# Zones that keep versions

A versioned zone has a chain of committed versions. Any number of readers may be open, each on the
version it was started on until it ends; at most one writer has access at a time. Old versions are
dropped according to the policy of the zone when a writer commits or a reader ends, as long as
nobody reads them.
-/

namespace DnsZone

/-- A zone that keeps versions. -/
structure VersionedZone where
  cls : RecordClass
  relativize : Bool
  /-- Whether a commit has to leave a start of authority and name servers at the origin. -/
  checksOrigin : Bool
  origin? : Option Name
  chain : VersionChain
  admission : Admission
  readers : Readers
  policy : Retention
  /-- Whether anybody still holds the zone. Its transactions alone do not keep it. -/
  alive : Bool

namespace VersionedZone

/-- A zone with one version, which is empty. -/
def create (origin? : Option Name) (cls : RecordClass) (relativize checksOrigin : Bool)
    (policy : Retention) : VersionedZone where
  cls := cls
  relativize := relativize
  checksOrigin := checksOrigin
  origin? := origin?
  chain := .single (.empty .first 0)
  admission := {}
  readers := .empty
  policy := policy
  alive := true

def origin (z : VersionedZone) : Origin := ⟨z.origin?, z.relativize⟩

def latest (z : VersionedZone) : Version := z.chain.head

/-- Replaces the policy, which is next applied when a writer commits or a reader ends. -/
def setPolicy (policy : Retention) (z : VersionedZone) : Except ZoneError VersionedZone :=
  policy.validate.map fun _ => { z with policy := policy }

/-- Drops the versions that nobody reads and the policy lets go of. -/
def prune (z : VersionedZone) : VersionedZone :=
  { z with chain := z.chain.prune z.policy z.readers }

/-- The writer that has access ends. -/
def release (z : VersionedZone) : VersionedZone := { z with admission := z.admission.release }

/-- The version that a query asks for; without a query, the latest. -/
def select (query? : Option VersionQuery) (z : VersionedZone) : Except ZoneError Version :=
  match query? with
  | none => .ok z.latest
  | some (.id id) =>
      match z.chain.byId? id with
      | none => .error (.notFound (.id id))
      | some v => .ok v
  | some (.serial serial) =>
      match z.origin.apex?.bind fun apex => z.chain.bySerial? apex serial with
      | none => .error (.notFound (.serial serial))
      | some v => .ok v

/-- Opens a reader, and yields the version that it is to see. -/
def pin (query? : Option VersionQuery) (z : VersionedZone) :
    Except ZoneError (Version × VersionedZone) :=
  (z.select query?).map fun v => (v, { z with readers := z.readers.register v.id })

/-- A reader of version `id` ends. -/
def unpin (id : VersionId) (z : VersionedZone) : VersionedZone :=
  prune { z with readers := z.readers.unregister id }

end VersionedZone

end DnsZone
