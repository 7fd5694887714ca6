import DnsZone.Node
import DnsZone.OrderedMap

/-!
# Open readers

A zone counts the open readers of each version. A version that nobody reads has no entry.
-/

namespace DnsZone

/-- The number of open readers by version. -/
abbrev Readers := OrderedMap VersionId VersionId.compare Nat

namespace Readers

def count (r : Readers) (id : VersionId) : Nat := (r.find? id).getD 0

def register (r : Readers) (id : VersionId) : Readers := r.insert id (r.count id + 1)

def unregister (r : Readers) (id : VersionId) : Readers :=
  match r.find? id with
  | none => r
  | some n => if n ≤ 1 then r.erase id else r.insert id (n - 1)

def lowest? (r : Readers) : Option VersionId := r.toList.head?.map (·.1)

/-- The version of every open reader, in order. -/
def pinned (r : Readers) : List VersionId := r.toList.flatMap fun e => List.replicate e.2 e.1

end Readers

end DnsZone
