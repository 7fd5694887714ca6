import DnsZone.Address.V6
import DnsZone.Name.Basic
import DnsZone.RecordType
import DnsZone.Serial
import DnsZone.Ttl

/-!
# Record data

The store keeps record data largely as it is. It asks of a record only its type, for a signature the
type it covers, and for a start of authority the serial number. Data of a type without a form of
its own is kept as opaque octets; such data never equals data of the other forms, even where it has
the same type. Names inside data compare as names do, that is, ignoring the case of letters.
-/

namespace DnsZone

/-- The data of a start of authority. -/
structure Soa where
  mname : Name
  /-- The mailbox of the person responsible for the zone. -/
  rname : Name
  serial : Serial
  /-- The time after which secondaries ask for changes. -/
  refresh : Ttl
  /-- The time after which they ask again if that failed. -/
  retry : Ttl
  /-- The time after which they give up serving the zone. -/
  expire : Ttl
  /-- The time for which the absence of a name may be cached. -/
  minimum : Ttl
  deriving BEq, Hashable

def Soa.withSerial (soa : Soa) (serial : Serial) : Soa := { soa with serial := serial }

inductive RecordData where
  | a (addr : Address.V4)
  | aaaa (addr : Address.V6)
  | ns (name : Name)
  | cname (name : Name)
  | mx (preference : UInt16) (exchange : Name)
  | txt (strings : List (List Octet))
  | soa (soa : Soa)
  /-- A signature over the set of type `covered`; all but that type is opaque. -/
  | rrsig (covered : RecordType) (data : List Octet)
  | opaqueData (rtype : RecordType) (data : List Octet)
  deriving BEq, Hashable

namespace RecordData

def rtype : RecordData → RecordType
  | .a _ => .a
  | .aaaa _ => .aaaa
  | .ns _ => .ns
  | .cname _ => .cname
  | .mx _ _ => .mx
  | .txt _ => .txt
  | .soa _ => .soa
  | .rrsig _ _ => .rrsig
  | .opaqueData t _ => t

/-- The type that a signature covers; all other data covers the reserved type. -/
def covers : RecordData → RecordType
  | .rrsig t _ => t
  | _ => .reserved

/-- The key of the set that the data belongs to. -/
def key (d : RecordData) : SetKey := ⟨d.rtype, d.covers⟩

def soa? : RecordData → Option Soa
  | .soa s => some s
  | _ => none

end RecordData

end DnsZone
