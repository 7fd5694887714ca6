import DnsZone.Order
import DnsZone.Registry

/-!
# Record types

The type of a record is a 16-bit code. Code zero never occurs in a record; as the type covered by
a record set it says that the set covers nothing, which is so for all sets but signatures.
-/

namespace DnsZone

structure RecordType where
  code : UInt16
  deriving DecidableEq, Repr, Hashable

namespace RecordType

/-- The codes with a mnemonic, and the generic form `TYPE123`. -/
def registry : Registry where
  stem := "TYPE"
  mnemonics :=
    [(0, "NONE"), (1, "A"), (2, "NS"), (5, "CNAME"), (6, "SOA"), (12, "PTR"), (15, "MX"),
      (16, "TXT"), (28, "AAAA"), (33, "SRV"), (43, "DS"), (46, "RRSIG"), (47, "NSEC"),
      (48, "DNSKEY"), (255, "ANY")]

/-- The reserved type, which as a covered type means that nothing is covered. -/
def reserved : RecordType := ⟨0⟩

def a : RecordType := ⟨1⟩

def ns : RecordType := ⟨2⟩

def cname : RecordType := ⟨5⟩

def soa : RecordType := ⟨6⟩

def mx : RecordType := ⟨15⟩

def txt : RecordType := ⟨16⟩

def aaaa : RecordType := ⟨28⟩

def rrsig : RecordType := ⟨46⟩

instance : Inhabited RecordType := ⟨reserved⟩

/-- Whether records of this type cover another type. -/
def isCovering (t : RecordType) : Bool := t = rrsig

def compare : RecordType → RecordType → Ordering := Order.onKey (fun t => t.code.toNat) Order.byNat

instance : Std.TransCmp compare :=
  inferInstanceAs (Std.TransCmp (Order.onKey (fun t : RecordType => t.code.toNat) Order.byNat))

def ofMnemonic? (m : List Octet) : Option RecordType := (registry.ofMnemonic? m).map RecordType.mk

def mnemonic? (t : RecordType) : Option String := registry.mnemonic? t.code

def ofString? (s : String) : Option RecordType :=
  (registry.parse? (Octets.ofString s)).map RecordType.mk

def text (t : RecordType) : String := registry.text t.code

def qualified (t : RecordType) : String := registry.qualified "Rtype" t.code

instance : ToString RecordType := ⟨text⟩

end RecordType

/-- What a record set is known by at its owner: the type of its records and, for signatures, the
type they cover. -/
structure SetKey where
  rtype : RecordType
  /-- The type they cover, or the reserved type. -/
  covers : RecordType := .reserved
  deriving DecidableEq, Repr, Hashable, Inhabited

namespace SetKey

def soa : SetKey := { rtype := .soa }

def ns : SetKey := { rtype := .ns }

/-- The key that comes first in order. -/
def least : SetKey := { rtype := .reserved }

def compare : SetKey → SetKey → Ordering :=
  compareLex (Order.onKey SetKey.rtype RecordType.compare)
    (Order.onKey SetKey.covers RecordType.compare)

instance : Std.TransCmp compare :=
  inferInstanceAs (Std.TransCmp
    (compareLex (Order.onKey SetKey.rtype RecordType.compare)
      (Order.onKey SetKey.covers RecordType.compare)))

end SetKey

end DnsZone
