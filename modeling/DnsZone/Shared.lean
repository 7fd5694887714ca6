/-!
# Objects with an identity

Versions of a zone share what they have in common, so it matters not only what a node or a record
set holds but also which one it is. A `Shared` value carries a stamp, drawn from a supply that never
yields the same number twice: two shared values are one object exactly if their stamps agree.
-/

namespace DnsZone

universe u

/-- A value together with its identity. -/
structure Shared (α : Type u) where
  /-- The number that tells this object from all others. -/
  stamp : Nat
  value : α
  deriving Inhabited

/-- Whether two shared values are the same object. -/
def Shared.same {α : Type u} (a b : Shared α) : Bool := a.stamp == b.stamp

end DnsZone
