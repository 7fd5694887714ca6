import DnsZone.Octet

/-!
# Decimal numerals

Numbers are written in decimal without leading zeros. They are read with an optional plus sign and
any number of leading zeros, up to a limit given by the reader: serial numbers fit 32 bits, codes of
types and classes 16. Of several faults in a text the leftmost one is reported.
-/

namespace DnsZone.Numeral

inductive Fault where
  | empty
  | invalidDigit
  | tooLarge
  deriving DecidableEq, Repr

def Fault.message : Fault → String
  | .empty => "cannot parse integer from empty string"
  | .invalidDigit => "invalid digit found in string"
  | .tooLarge => "number too large to fit in target type"

/-- Reads the remaining digits of a numeral of which `n` has been read. -/
def readDigits (limit : Nat) (n : Nat) : List Octet → Except Fault Nat
  | [] => .ok n
  | b :: rest =>
      if !b.isDigit then .error .invalidDigit
      else if 10 * n + b.digitValue > limit then .error .tooLarge
      else readDigits limit (10 * n + b.digitValue) rest

/-- Reads a numeral of value at most `limit`, with an optional plus sign before its digits. -/
def parse (limit : Nat) (text : List Octet) : Except Fault Nat :=
  match text with
  | [] => .error .empty
  | b :: rest =>
      if b = Octet.plus && !rest.isEmpty then readDigits limit 0 rest
      else readDigits limit 0 (b :: rest)

def render (n : Nat) : List Octet :=
  if n < 10 then [Octet.ofDigit n] else render (n / 10) ++ [Octet.ofDigit (n % 10)]

def text (n : Nat) : String := Octets.toText (render n)

end DnsZone.Numeral
