import DnsZone.Numeral

/-!
# Serial numbers

A serial number is a 32-bit number on a circle. Up to `2^31 - 1` may be added to it, wrapping around
at `2^32`. One serial number is below another if the way up from it to the other is the shorter
half of the circle; two that lie exactly opposite are not comparable, so the order is partial, and
going round the circle shows that it is not transitive.
-/

namespace DnsZone

structure Serial where
  val : UInt32
  deriving DecidableEq, Repr, Hashable

namespace Serial

/-- The greatest number that may be added to a serial number. -/
def maxIncrement : UInt32 := 0x7FFFFFFF

def half : UInt32 := 0x80000000

/-- The serial number `n` steps on, if `n` is not too large for an increment. -/
def add? (s : Serial) (n : UInt32) : Option Serial :=
  if n > maxIncrement then none else some ⟨s.val + n⟩

/-- The partial order of serial numbers. -/
def compare? (a b : Serial) : Option Ordering :=
  if a.val = b.val then some .eq
  else if a.val < b.val then
    if b.val - a.val < half then some .lt
    else if half < b.val - a.val then some .gt
    else none
  else
    if a.val - b.val < half then some .gt
    else if half < a.val - b.val then some .lt
    else none

def ofString? (s : String) : Except Numeral.Fault Serial :=
  (Numeral.parse (UInt32.size - 1) (Octets.ofString s)).map fun n => ⟨UInt32.ofNat n⟩

def text (s : Serial) : String := Numeral.text s.val.toNat

instance : ToString Serial := ⟨text⟩

end Serial

end DnsZone
