import DnsZone.PlainZone.Access
import DnsZone.Session.Command
import DnsZone.VersionedZone.Queue

/-!
# Zones that a session can work on

A session works on versioned and on plain zones. Both host transactions and give direct access to
their content; a zone that keeps versions also has a history and a queue of writers.
-/

namespace DnsZone.Session

/-- What only a zone that keeps versions offers. -/
structure History (ζ τ : Type) where
  latest : ζ → Version
  setPolicy : Retention → ζ → Except ZoneError ζ
  /-- A writer asks for access, and waits if a number is returned. -/
  enqueue : ζ → Option Nat × ζ
  /-- The waiting writer takes access if it was handed to it. -/
  take? : Nat → ζ → Option ζ
  startWriter : Bool → ζ → Transaction τ
  /-- A writer that waits for a limited time. -/
  writerInTime : Bool → ζ → Except ZoneError (Transaction τ) × ζ

/-- A zone that a session can work on. -/
class Site (ζ : Type) (τ : outParam Type) [Access τ] extends Host ζ τ, DirectStore ζ where
  state : ζ → ZoneState
  /-- Notes whether anybody still holds the zone. -/
  keep : Bool → ζ → ζ
  /-- Whether direct changes are made by a writer. -/
  writesDirectly : Bool
  /-- What a zone that keeps versions offers. -/
  history? : Option (History ζ τ)

instance : Site VersionedZone VersionedAccess where
  state z := .chain z.chain.ids z.readers.pinned z.admission.waiting.length
  keep alive z := { z with alive := alive }
  writesDirectly := false
  history? := some
    { latest := VersionedZone.latest
      setPolicy := VersionedZone.setPolicy
      enqueue := VersionedZone.enqueue
      take? := VersionedZone.take?
      startWriter := VersionedZone.startWriter
      writerInTime := VersionedZone.writerInTime }

instance : Site PlainZone PlainAccess where
  state z := .generation z.generation
  keep _ z := z
  writesDirectly := true
  history? := none

end DnsZone.Session
