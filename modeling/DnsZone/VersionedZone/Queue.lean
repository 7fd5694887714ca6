import DnsZone.Transaction.Basic
import DnsZone.VersionedZone.Access

/-!
# Waiting for write access

A writer asks for access and either has it at once or is given a number under which it waits. Access
handed to a waiting writer has to be taken before its transaction is started, and it is then that
the transaction picks up the latest version and the origin. A writer that waits for a limited time
gives up when it is over, unless access was handed to it by then.
-/

namespace DnsZone.VersionedZone

abbrev Txn := Transaction VersionedAccess

/-- A writer asks for access. It has it if no number is returned, and else waits under it. -/
def enqueue (z : VersionedZone) : Option Nat × VersionedZone :=
  let (id?, a) := z.admission.enqueue
  (id?, { z with admission := a })

/-- The waiting writer `id` takes access if it was handed to it. -/
def take? (id : Nat) (z : VersionedZone) : Option VersionedZone :=
  (z.admission.take? id).map fun a => { z with admission := a }

/-- The waiting writer `id` gives up, or takes access if it was handed to it. -/
def abandon (id : Nat) (z : VersionedZone) : Bool × VersionedZone :=
  let (taken, a) := z.admission.abandon id
  (taken, { z with admission := a })

def startWriter (replacement : Bool) (z : VersionedZone) : Txn :=
  .ofWriter (z.begin replacement) z

/-- A writer that waits for a limited time, during which nothing else happens. -/
def writerInTime (replacement : Bool) (z : VersionedZone) : Except ZoneError Txn × VersionedZone :=
  match z.enqueue with
  | (none, z) => (.ok (z.startWriter replacement), z)
  | (some id, z) =>
      match z.abandon id with
      | (true, z) => (.ok (z.startWriter replacement), z)
      | (false, z) => (.error .timeout, z)

end DnsZone.VersionedZone
