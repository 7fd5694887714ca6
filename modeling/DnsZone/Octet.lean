/-!
# Octets and ASCII text

Names, character strings and opaque record data are sequences of octets. This module holds what
DNS asks of a single octet: whether it is an ASCII digit or a graphic character, and its lower-case
form, which is how names are compared. `Octets.ofString` gives the octets of a text in UTF-8 and
`Octets.toText` reads octets back as characters of the same code, which for ASCII is the inverse.
-/

namespace DnsZone

/-- One octet of a name, of a character string or of opaque data. -/
abbrev Octet := UInt8

namespace Octet

def dot : Octet := 0x2E

def backslash : Octet := 0x5C

def plus : Octet := 0x2B

def colon : Octet := 0x3A

def space : Octet := 0x20

def quote : Octet := 0x22

def isDigit (b : Octet) : Bool := 0x30 ≤ b && b ≤ 0x39

def isUpper (b : Octet) : Bool := 0x41 ≤ b && b ≤ 0x5A

/-- Whether the octet is a visible ASCII character, the blank not among them. -/
def isGraphic (b : Octet) : Bool := 0x21 ≤ b && b ≤ 0x7E

/-- The lower-case form of an ASCII letter; every other octet is its own. -/
def lower (b : Octet) : Octet := if b.isUpper then b + 0x20 else b

def digitValue (b : Octet) : Nat := b.toNat - 0x30

/-- The decimal digit of value `d`, for `d` below ten. -/
def ofDigit (d : Nat) : Octet := UInt8.ofNat (0x30 + d)

/-- The value of a hexadecimal digit in either case. -/
def hexValue? (b : Octet) : Option Nat :=
  if b.isDigit then some b.digitValue
  else if 0x61 ≤ b.lower && b.lower ≤ 0x66 then some (b.lower.toNat - 0x57)
  else none

/-- The lower-case hexadecimal digit of value `d`, for `d` below sixteen. -/
def ofHexDigit (d : Nat) : Octet :=
  if d < 10 then ofDigit d else UInt8.ofNat (0x57 + d)

def hexPair (b : Octet) : List Octet := [ofHexDigit (b.toNat / 16), ofHexDigit (b.toNat % 16)]

end Octet

namespace Octets

def ofString (s : String) : List Octet := s.toList.flatMap String.utf8EncodeChar

/-- The text whose characters have the given octets as codes. -/
def toText (bs : List Octet) : String := String.ofList (bs.map fun b => Char.ofNat b.toNat)

/-- Octets with the ASCII letters in lower case. -/
def lower (bs : List Octet) : List Octet := bs.map Octet.lower

/-- Whether two sequences agree up to the case of ASCII letters. -/
def sameIgnoringCase (a b : List Octet) : Bool := lower a == lower b

end Octets

end DnsZone
