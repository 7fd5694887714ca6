import DnsZone.Name.Order

/-!
# Names relative to an origin

A zone may store its names relative to its origin. `relativize` takes the labels of the origin off
a name at or below it, and `derelativize` puts them back. The latter fails only if the result would
be too long for a name.
-/

namespace DnsZone.Name

/-- The name relative to `origin`, or the name itself if it is not at or below `origin`. -/
def relativize (n origin : Name) : Name :=
  if n.isSubdomain origin then
    { labels := n.labels.take (n.labelCount - origin.labelCount)
      absolute := false
      labels_legal := fun l hl => n.labels_legal l (List.mem_of_mem_take hl)
      fits := Nat.le_trans (Nat.succ_le_succ (wireLength_take_le _ _)) n.fits }
  else n

/-- A relative name with `origin` appended; an absolute name is left as it is. -/
def derelativize (n origin : Name) : Except NameError Name :=
  if n.absolute then .ok n
  else
    build (n.labels ++ origin.labels)
      (fun l hl => (List.mem_append.mp hl).elim (n.labels_legal l) (origin.labels_legal l))
      origin.absolute

end DnsZone.Name
