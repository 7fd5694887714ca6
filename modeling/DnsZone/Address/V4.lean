import DnsZone.Numeral

/-!
# IPv4 addresses

An IPv4 address has four octets, written in decimal and separated by dots. Reading is strict: every
number has one to three digits, is at most 255 and has no leading zero.
-/

namespace DnsZone.Address

structure V4 where
  a : Octet
  b : Octet
  c : Octet
  d : Octet
  deriving DecidableEq, Repr, Hashable

/-- Reads the given octet off the front of a text. -/
def skip? (b : Octet) : List Octet → Option (List Octet)
  | [] => none
  | c :: rest => if c = b then some rest else none

namespace V4

/-- Reads a number of one to three digits without leading zero and at most 255 off the front of a
text. -/
def readOctet? (text : List Octet) : Option (Octet × List Octet) :=
  let digits := text.takeWhile Octet.isDigit
  let value := digits.foldl (fun n b => 10 * n + b.digitValue) 0
  if digits.isEmpty || digits.length > 3 || value > 255 then none
  else if digits.length > 1 && digits.head? == some 0x30 then none
  else some (UInt8.ofNat value, text.drop digits.length)

def read? (text : List Octet) : Option (V4 × List Octet) := do
  let (a, text) ← readOctet? text
  let (b, text) ← readOctet? (← skip? Octet.dot text)
  let (c, text) ← readOctet? (← skip? Octet.dot text)
  let (d, text) ← readOctet? (← skip? Octet.dot text)
  return (⟨a, b, c, d⟩, text)

def parse? (text : List Octet) : Option V4 :=
  match read? text with
  | some (addr, []) => some addr
  | _ => none

/-- An address in decimal. -/
def render (addr : V4) : List Octet :=
  [Octet.dot].intercalate ([addr.a, addr.b, addr.c, addr.d].map fun b => Numeral.render b.toNat)

def text (addr : V4) : String := Octets.toText addr.render

end V4

end DnsZone.Address
