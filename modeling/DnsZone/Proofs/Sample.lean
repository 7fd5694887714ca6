import DnsZone.Proofs.Name
import DnsZone.Record
import DnsZone.ZoneConfig

/-!
# A zone for examples

A general result is shown in a single case by the zone `z.`, which is configured with nothing but its
origin. Records are stored at its apex or at the name `w`.
-/

namespace DnsZone.Sample

/-- The origin `z.` -/
def origin : Name := .ofOctets [0x7A] true (by decide)

/-- The name `w` in the zone, and the same name in full. -/
def host : Name := .ofOctets [0x77] false (by decide)

def fullHost : Name := .ofOctets [0x77, 0x7A] true (by decide)

/-- The origin and that name in capital letters. -/
def shoutedOrigin : Name := .ofOctets [0x5A] true (by decide)

def shoutedHost : Name := .ofOctets [0x57, 0x5A] true (by decide)

def config : ZoneConfig := { origin? := some origin }

/-- The start of authority, with a serial number. -/
def soa (serial : UInt32) : Record :=
  ⟨origin, .internet, .zero, .soa ⟨origin, origin, ⟨serial⟩, .zero, .zero, .zero, .zero⟩⟩

end DnsZone.Sample
