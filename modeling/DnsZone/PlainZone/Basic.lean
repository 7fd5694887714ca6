import DnsZone.Origin
import DnsZone.Version.Basic

/-!
# Zones without versions

A plain zone keeps its present content only. Every commit that changes something begins a new
generation, and the nodes that it makes are tagged with it. Readers see the present content at each
moment; a writer holds the zone's lock until it ends.
-/

namespace DnsZone

/-- A zone that keeps its present content only. -/
structure PlainZone where
  cls : RecordClass
  relativize : Bool
  /-- Whether a commit has to leave a start of authority and name servers at the origin. -/
  checksOrigin : Bool
  origin? : Option Name
  nodes : NameMap (Shared Node)
  /-- The number of the latest commit. -/
  generation : VersionId
  /-- Whether a writer holds the lock. -/
  locked : Bool
  /-- The least stamp not yet in use. -/
  supply : Nat

namespace PlainZone

def create (origin? : Option Name) (cls : RecordClass) (relativize checksOrigin : Bool) :
    PlainZone where
  cls := cls
  relativize := relativize
  checksOrigin := checksOrigin
  origin? := origin?
  nodes := .empty
  generation := .first
  locked := false
  supply := 0

def origin (z : PlainZone) : Origin := ⟨z.origin?, z.relativize⟩

def node? (z : PlainZone) (n : Name) : Option Node := (z.nodes.find? n).map (·.value)

def find? (z : PlainZone) (n : Name) (key : SetKey) : Option RecordSet :=
  (z.node? n).bind fun node => node.find? key

def soaSerial? (z : PlainZone) : Option Serial :=
  z.origin.apex?.bind fun apex => (z.find? apex .soa).bind RecordSet.soaSerial?

end PlainZone

end DnsZone
