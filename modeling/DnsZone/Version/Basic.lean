import DnsZone.Name.Order
import DnsZone.Node
import DnsZone.OrderedMap

/-!
# Committed versions

A committed version of a zone maps owner names to nodes and never changes. Versions share the nodes
that are the same in both. A version also keeps the supply of stamps, a bound above the stamps of
all its nodes, so that nodes made on top of it are told from those it holds.
-/

namespace DnsZone

/-- A map from names; names that differ in case only are one key. -/
abbrev NameMap (α : Type) := OrderedMap Name Name.compare α

abbrev NameSet := NameMap Unit

/-- A committed version of a zone. -/
structure Version where
  id : VersionId
  nodes : NameMap (Shared Node)
  /-- The least stamp not yet in use. -/
  supply : Nat
  /-- No node has a stamp that is still to be drawn. -/
  stamp_lt : ∀ e ∈ nodes.toList, e.2.stamp < supply

namespace Version

def empty (id : VersionId) (supply : Nat) : Version := ⟨id, .empty, supply, by simp⟩

def isEmpty (v : Version) : Bool := v.nodes.isEmpty

def size (v : Version) : Nat := v.nodes.size

def node? (v : Version) (n : Name) : Option (Shared Node) := v.nodes.find? n

def find? (v : Version) (n : Name) (key : SetKey) : Option RecordSet :=
  (v.node? n).bind fun node => node.value.find? key

/-- The serial number of the start of authority at `apex`. -/
def soaSerial? (v : Version) (apex : Name) : Option Serial :=
  (v.find? apex .soa).bind RecordSet.soaSerial?

end Version

/-- All record sets of some nodes with their owner names, in order. -/
def ownedSets (nodes : List (Name × Node)) : List (Name × RecordSet) :=
  nodes.flatMap fun e => e.2.recordSets.map fun s => (e.1, s)

def Version.sets (v : Version) : List (Name × RecordSet) :=
  ownedSets (v.nodes.toList.map fun e => (e.1, e.2.value))

end DnsZone
