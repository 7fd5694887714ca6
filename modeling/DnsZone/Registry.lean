import DnsZone.Numeral

/-!
# Registries of codes

Record types and record classes are 16-bit codes, some of which have a mnemonic. A code is written
as its mnemonic if it has one and otherwise in the generic form, a fixed stem followed by the
number, such as `TYPE65280`. Both forms are read in any case of letters, and the generic form is
also read for codes that have a mnemonic.
-/

namespace DnsZone

/-- The mnemonics of a kind of code and the stem of its generic form. -/
structure Registry where
  /-- The stem that stands before the number in the generic form. -/
  stem : String
  mnemonics : List (UInt16 × String)

namespace Registry

def ofMnemonic? (r : Registry) (m : List Octet) : Option UInt16 :=
  (r.mnemonics.find? fun e => Octets.sameIgnoringCase m (Octets.ofString e.2)).map (·.1)

def mnemonic? (r : Registry) (code : UInt16) : Option String :=
  (r.mnemonics.find? fun e => e.1 == code).map (·.2)

def ofGeneric? (r : Registry) (text : List Octet) : Option UInt16 :=
  let stem := Octets.ofString r.stem
  if Octets.sameIgnoringCase (text.take stem.length) stem then
    match Numeral.parse (UInt16.size - 1) (text.drop stem.length) with
    | .ok n => some (UInt16.ofNat n)
    | .error _ => none
  else none

/-- Reads a code from its mnemonic or its generic form. -/
def parse? (r : Registry) (text : List Octet) : Option UInt16 :=
  (r.ofMnemonic? text).or (r.ofGeneric? text)

/-- Writes a code as its mnemonic, or else in the generic form. -/
def text (r : Registry) (code : UInt16) : String :=
  match r.mnemonic? code with
  | some m => m
  | none => r.stem ++ Numeral.text code.toNat

/-- The name of a code within the type called `family`: with its mnemonic, or else its number. -/
def qualified (r : Registry) (family : String) (code : UInt16) : String :=
  match r.mnemonic? code with
  | some m => family ++ "::" ++ m
  | none => family ++ "(" ++ Numeral.text code.toNat ++ ")"

/-- What is said of a text that names no code. -/
def unknownMessage : String := "unknown mnemonic"

end Registry

end DnsZone
