import DnsZone.PlainZone.Basic
import DnsZone.VersionedZone.Basic

/-!
# Configuration of a new zone

Unless something else is asked for, a zone has no origin yet, is of the class of the Internet,
stores names relative to its origin, keeps the latest version only and accepts any content. The
policy has to be valid also where the zone keeps no versions.
-/

namespace DnsZone

/-- What a new zone is to be like. -/
structure ZoneConfig where
  /-- The origin, which has to be absolute. -/
  origin? : Option Name := none
  cls : RecordClass := .internet
  relativize : Bool := true
  policy : Retention := .latest
  /-- Whether a commit has to leave a start of authority and name servers at the origin. -/
  checksOrigin : Bool := false

namespace ZoneConfig

/-- Refuses a relative origin, then a policy that would keep no version. -/
def validate (c : ZoneConfig) : Except ZoneError Unit :=
  match c.origin? with
  | some origin => if !origin.absolute then .error (.relativeOrigin origin) else c.policy.validate
  | none => c.policy.validate

def buildVersioned (c : ZoneConfig) : Except ZoneError VersionedZone :=
  c.validate.map fun _ =>
    .create c.origin? c.cls c.relativize c.checksOrigin c.policy

def buildPlain (c : ZoneConfig) : Except ZoneError PlainZone :=
  c.validate.map fun _ => .create c.origin? c.cls c.relativize c.checksOrigin

end ZoneConfig

end DnsZone
