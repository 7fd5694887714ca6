import DnsZone.Name.Text
import DnsZone.Node
import DnsZone.RecordClass

/-!
# Errors of zones and transactions

Each error names the cause for which an operation on a zone or a transaction is refused. Nothing is
left half done by a refused operation: a refused change is not made, and a refused commit rolls the
transaction back.
-/

namespace DnsZone

/-- What an exact deletion did not find. -/
inductive Missing where
  | name
  | recordSet
  | records
  deriving DecidableEq, Repr

def Missing.message : Missing → String
  | .name => "delete_name_exact: name does not exist"
  | .recordSet => "delete_rrset_exact: record set does not exist"
  | .records => "delete_records_exact: records do not exist"

/-- How a reader asks for a version that is not the latest. -/
inductive VersionQuery where
  | id (id : VersionId)
  /-- By the serial number of its start of authority. -/
  | serial (serial : Serial)
  deriving DecidableEq, Repr

def VersionQuery.text : VersionQuery → String
  | .id v => "version " ++ v.text
  | .serial s => "version with serial " ++ s.text

/-- Why an operation on a zone or a transaction is refused. -/
inductive ZoneError where
  /-- A zone that keeps versions is only changed through transactions. -/
  | useTransaction
  | immutable
  | alreadyEnded
  | missing (what : Missing)
  | notFound (query : VersionQuery)
  /-- A limit on the number of versions is zero. -/
  | invalidPolicy
  /-- A serial number cannot be raised by this much. -/
  | invalidSerial (increment : UInt32)
  /-- A name is not at or below the origin. -/
  | outOfZone (name : Name)
  /-- A name has to be converted, but there is no origin. -/
  | noOrigin
  /-- A relative name cannot be an origin. -/
  | relativeOrigin (name : Name)
  | name (fault : NameError)
  | rejected (reason : String)
  | classMismatch (zone record : RecordClass)
  | timeout
  | noSoa
  | noNs
  | zoneDropped
  deriving BEq

def ZoneError.message : ZoneError → String
  | .useTransaction => "versioned zones must be modified via transactions"
  | .immutable => "zone version is immutable"
  | .alreadyEnded => "transaction already ended"
  | .missing what => what.message
  | .notFound query => query.text ++ " not found"
  | .invalidPolicy => "invalid pruning policy: max versions must be at least 1"
  | .invalidSerial increment =>
      "serial increment " ++ Numeral.text increment.toNat ++ " out of range"
  | .outOfZone n => n.text ++ " is not a subdomain of the zone origin"
  | .noOrigin => "no zone origin is defined"
  | .relativeOrigin n => "zone origin " ++ n.text ++ " is not absolute"
  | .name fault => "invalid name: " ++ fault.message
  | .rejected reason => "rejected: " ++ reason
  | .classMismatch zone record =>
      "record class " ++ record.text ++ " differs from zone class " ++ zone.text
  | .timeout => "timed out waiting for write access"
  | .noSoa => "no SOA record at the zone origin"
  | .noNs => "no NS record set at the zone origin"
  | .zoneDropped => "the zone no longer exists"

end DnsZone
