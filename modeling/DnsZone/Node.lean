import DnsZone.Order
import DnsZone.RecordSet
import DnsZone.Shared

/-!
# Nodes

A node holds all record sets of one owner name, at most one for each key, in the order in which the
keys were first stored. It is tagged with the number of the version that created it.
-/

namespace DnsZone

structure VersionId where
  val : Nat
  deriving DecidableEq, Repr, Hashable

namespace VersionId

def first : VersionId := ⟨1⟩

instance : Inhabited VersionId := ⟨first⟩

def next (id : VersionId) : VersionId := ⟨id.val + 1⟩

def compare : VersionId → VersionId → Ordering := Order.onKey VersionId.val Order.byNat

instance : Std.TransCmp compare :=
  inferInstanceAs (Std.TransCmp (Order.onKey VersionId.val Order.byNat))

def text (id : VersionId) : String := Numeral.text id.val

instance : ToString VersionId := ⟨text⟩

end VersionId

/-- The record sets of one owner name. -/
structure Node where
  /-- The version that created the node. -/
  tag : VersionId
  /-- The record sets in the order in which their keys were first stored. -/
  sets : List (Shared RecordSet)
  deriving Inhabited

namespace Node

def empty (tag : VersionId) : Node := ⟨tag, []⟩

def isEmpty (n : Node) : Bool := n.sets.isEmpty

/-- The object that holds the record set known by `key`. -/
def shared? (n : Node) (key : SetKey) : Option (Shared RecordSet) :=
  n.sets.find? fun s => s.value.hasKey key

def find? (n : Node) (key : SetKey) : Option RecordSet := (n.shared? key).map (·.value)

def recordSets (n : Node) : List RecordSet := n.sets.map (·.value)

def copyFor (n : Node) (tag : VersionId) : Node := { n with tag := tag }

/-- Puts `s` in place of the first set with its key, or at the end if there is none. -/
def replaceIn (s : Shared RecordSet) : List (Shared RecordSet) → List (Shared RecordSet)
  | [] => [s]
  | t :: rest => if t.value.hasKey s.value.key then s :: rest else t :: replaceIn s rest

/-- The node with `s` as its record set of that key. -/
def replace (n : Node) (s : Shared RecordSet) : Node := { n with sets := replaceIn s n.sets }

def erase (n : Node) (key : SetKey) : Node :=
  { n with sets := n.sets.filter fun s => !s.value.hasKey key }

end Node

end DnsZone
