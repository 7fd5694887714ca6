import DnsZone.Name.Relative
import DnsZone.ZoneError

/-!
# The origin of a zone

A zone has an absolute origin, which may not be known at first, and stores its names either relative
to the origin or absolute. `Origin.stored` converts a name that a transaction is given to the form
in which the zone stores names: absolute names have to be at or below the origin, and relative names
are taken relative to it.
-/

namespace DnsZone

/-- What is known of the origin of a zone, and how the zone stores names. -/
structure Origin where
  name? : Option Name
  relativize : Bool

namespace Origin

/-- The name under which the zone stores what belongs to its origin. -/
def apex? (o : Origin) : Option Name := if o.relativize then some Name.empty else o.name?

/-- The name in the form in which the zone stores it. -/
def stored (o : Origin) (n : Name) : Except ZoneError Name :=
  if n.absolute then
    match o.name? with
    | none => .error .noOrigin
    | some origin =>
        if !n.isSubdomain origin then .error (.outOfZone n)
        else if o.relativize then .ok (n.relativize origin)
        else .ok n
  else if o.relativize then .ok n
  else
    match o.name? with
    | none => .error .noOrigin
    | some origin => (n.derelativize origin).mapError .name

end Origin

end DnsZone
