import DnsZone.Readers
import DnsZone.Retention

/-!
# Chains of versions

The committed versions of a zone form a chain from the oldest one kept to the latest, the head. New
versions are added at the head, and old ones are dropped from the other end, so that those kept
follow on one another. The head is always there.
-/

namespace DnsZone

/-- The versions of a zone that are kept. -/
structure VersionChain where
  /-- All versions but the latest, oldest first. -/
  older : List Version
  head : Version

namespace VersionChain

def single (v : Version) : VersionChain := ⟨[], v⟩

def toList (c : VersionChain) : List Version := c.older ++ [c.head]

def ids (c : VersionChain) : List VersionId := c.toList.map (·.id)

def size (c : VersionChain) : Nat := c.older.length + 1

def push (c : VersionChain) (v : Version) : VersionChain := ⟨c.toList, v⟩

def byId? (c : VersionChain) (id : VersionId) : Option Version := c.toList.find? fun v => v.id = id

/-- The latest version whose start of authority at `apex` has the given serial number. -/
def bySerial? (c : VersionChain) (apex : Name) (serial : Serial) : Option Version :=
  c.toList.reverse.find? fun v => v.soaSerial? apex == some serial

/-- Drops versions from the front of `older`, stopping at the first one that is numbered `bound` or
higher or that the policy keeps. One more version than those in `older` is kept in any case. -/
def dropOldest (policy : Retention) (bound : VersionId) : List Version → List Version
  | [] => []
  | v :: rest =>
      if bound.val ≤ v.id.val || !policy.drops v (rest.length + 2) then v :: rest
      else dropOldest policy bound rest

/-- The lowest number that has to be kept: that of the head, or a lower one that has a reader. -/
def leastKept (c : VersionChain) (readers : Readers) : VersionId :=
  match readers.lowest? with
  | none => c.head.id
  | some id => if id.val ≤ c.head.id.val then id else c.head.id

/-- Drops the versions that nobody reads and the policy lets go of. -/
def prune (c : VersionChain) (policy : Retention) (readers : Readers) : VersionChain :=
  { c with older := dropOldest policy (c.leastKept readers) c.older }

end VersionChain

end DnsZone
