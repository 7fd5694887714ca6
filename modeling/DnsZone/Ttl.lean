import DnsZone.Numeral
import DnsZone.Order

/-!
# Times to live

A time to live says for how many seconds a record may be cached. The records of one set share it,
which is why joining two sets keeps the smaller of the two.
-/

namespace DnsZone

/-- A time to live in seconds. -/
structure Ttl where
  secs : UInt32
  deriving DecidableEq, Repr, Hashable

namespace Ttl

def zero : Ttl := ⟨0⟩

def hour : Ttl := ⟨3600⟩

/-- The greatest time to live that a record may have. -/
def greatest : Ttl := ⟨0x7FFFFFFF⟩

instance : Inhabited Ttl := ⟨zero⟩

def compare : Ttl → Ttl → Ordering := Order.onKey (fun t => t.secs.toNat) Order.byNat

def shorter (a b : Ttl) : Ttl := if a.secs ≤ b.secs then a else b

def text (t : Ttl) : String := Numeral.text t.secs.toNat

instance : ToString Ttl := ⟨text⟩

end Ttl

end DnsZone
