import DnsZone.Registry

/-!
# Record classes

The class of a record says which kind of network it belongs to. All records of a zone have the class
of the zone, nearly always that of the Internet.
-/

namespace DnsZone

structure RecordClass where
  code : UInt16
  deriving DecidableEq, Repr, Hashable

namespace RecordClass

/-- The codes with a mnemonic, and the generic form `CLASS123`. -/
def registry : Registry where
  stem := "CLASS"
  mnemonics := [(1, "IN"), (3, "CH"), (4, "HS"), (254, "NONE"), (255, "*")]

def internet : RecordClass := ⟨1⟩

instance : Inhabited RecordClass := ⟨internet⟩

def ofMnemonic? (m : List Octet) : Option RecordClass := (registry.ofMnemonic? m).map RecordClass.mk

def mnemonic? (c : RecordClass) : Option String := registry.mnemonic? c.code

def ofString? (s : String) : Option RecordClass :=
  (registry.parse? (Octets.ofString s)).map RecordClass.mk

def text (c : RecordClass) : String := registry.text c.code

def qualified (c : RecordClass) : String := registry.qualified "Class" c.code

instance : ToString RecordClass := ⟨text⟩

end RecordClass

end DnsZone
