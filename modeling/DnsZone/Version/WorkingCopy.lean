import DnsZone.Version.Basic

/-!
# Working copies

A working copy is what a writer changes. It starts out with the very nodes of the version it is
based on, or without any if it is to replace the content, and copies a node the first time that its
name is changed. Names that were changed are remembered, so that a commit without changes can be
told. Freezing a working copy makes a version of it, in which every name left alone keeps its node.
-/

namespace DnsZone

/-- The node of a working copy at one name. -/
inductive Slot where
  /-- The node of the version below, left alone so far. -/
  | shared (node : Shared Node)
  /-- A node of the working copy itself. -/
  | owned (node : Shared Node)

namespace Slot

def object : Slot → Shared Node
  | .shared node => node
  | .owned node => node

def node (s : Slot) : Node := s.object.value

def isOwned : Slot → Bool
  | .shared _ => false
  | .owned _ => true

end Slot

/-- The content of a writer that has changed something. -/
structure WorkingCopy where
  /-- The number of the version that the working copy is to become. -/
  id : VersionId
  slots : NameMap Slot
  /-- The names that were changed. -/
  changed : NameSet
  /-- Whether there was content that this one replaces. -/
  replacesContent : Bool
  supply : Nat
  stamp_lt : ∀ e ∈ slots.toList, e.2.object.stamp < supply

namespace WorkingCopy

/-- A working copy with the content of `base`, drawing stamps from `supply` on. -/
def fork (id : VersionId) (base : Version) (supply : Nat) : WorkingCopy where
  id := id
  slots := base.nodes.mapValues .shared
  changed := .empty
  replacesContent := false
  supply := max base.supply supply
  stamp_lt := by
    intro e he
    obtain ⟨d, hd, rfl⟩ := List.mem_map.mp he
    exact Nat.lt_of_lt_of_le (base.stamp_lt d hd) (Nat.le_max_left _ _)

/-- A working copy without content that replaces `base`, drawing stamps from `supply` on. -/
def forkReplacing (id : VersionId) (base : Version) (supply : Nat) : WorkingCopy where
  id := id
  slots := .empty
  changed := .empty
  replacesContent := !base.isEmpty
  supply := max base.supply supply
  stamp_lt := by simp

def extending (id : VersionId) (base : Version) : WorkingCopy := fork id base base.supply

def replacing (id : VersionId) (base : Version) : WorkingCopy := forkReplacing id base base.supply

def slot? (w : WorkingCopy) (n : Name) : Option Slot := w.slots.find? n

def node? (w : WorkingCopy) (n : Name) : Option Node := (w.slot? n).map Slot.node

def find? (w : WorkingCopy) (n : Name) (key : SetKey) : Option RecordSet :=
  (w.node? n).bind fun node => node.find? key

def sets (w : WorkingCopy) : List (Name × RecordSet) :=
  ownedSets (w.slots.toList.map fun e => (e.1, e.2.node))

def hasChanges (w : WorkingCopy) : Bool := w.replacesContent || !w.changed.isEmpty

/-- The node to change at a name: the one the working copy already has for itself, or else a copy of
the node below, or a new one, with a stamp of its own. -/
def ownNode (w : WorkingCopy) (n : Name) : Shared Node :=
  match w.slot? n with
  | some (.owned node) => node
  | some (.shared node) => ⟨w.supply, node.value.copyFor w.id⟩
  | none => ⟨w.supply, .empty w.id⟩

theorem stamp_ownNode_lt (w : WorkingCopy) (n : Name) : (w.ownNode n).stamp < w.supply + 1 := by
  unfold ownNode
  split
  · rename_i node h
    obtain ⟨e, he, _, hv⟩ := OrderedMap.mem_of_find?_eq_some h
    have := w.stamp_lt e he
    rw [hv] at this
    exact Nat.lt_succ_of_lt this
  · exact Nat.lt_succ_self _
  · exact Nat.lt_succ_self _

/-- Stores a node of the working copy at a name, which counts as a change of the name. -/
def store (w : WorkingCopy) (n : Name) (node : Shared Node) (supply : Nat)
    (hnode : node.stamp < supply) (hsupply : w.supply ≤ supply) : WorkingCopy :=
  { w with
    slots := w.slots.insert n (.owned node)
    changed := w.changed.insert n ()
    supply := supply
    stamp_lt := by
      intro e he
      rcases OrderedMap.value_of_mem_insert he with h | h
      · rw [h]
        exact hnode
      · exact Nat.lt_of_lt_of_le (w.stamp_lt e h) hsupply }

def put (w : WorkingCopy) (n : Name) (s : RecordSet) : WorkingCopy :=
  let node := w.ownNode n
  w.store n ⟨node.stamp, node.value.replace ⟨w.supply + 1, s⟩⟩ (w.supply + 2)
    (Nat.lt_succ_of_lt (w.stamp_ownNode_lt n)) (Nat.le_add_right _ _)

/-- Takes a name out, if it is there. -/
def removeName (w : WorkingCopy) (n : Name) : WorkingCopy :=
  { w with
    slots := w.slots.erase n
    stamp_lt := fun e he => w.stamp_lt e (OrderedMap.mem_of_mem_erase he) }

/-- Deletes a name with all its record sets. A name that is not there does not count as changed. -/
def eraseName (w : WorkingCopy) (n : Name) : WorkingCopy :=
  if w.slots.contains n then { w.removeName n with changed := w.changed.insert n () } else w

/-- Deletes a record set, and its name with it if no other set is left there. A set that is not
there changes nothing. -/
def eraseSet (w : WorkingCopy) (n : Name) (key : SetKey) : WorkingCopy :=
  if (w.find? n key).isSome then
    let node := w.ownNode n
    let w' := w.store n ⟨node.stamp, node.value.erase key⟩ (w.supply + 1)
      (w.stamp_ownNode_lt n) (Nat.le_add_right _ _)
    if (node.value.erase key).isEmpty then w'.removeName n else w'
  else w

/-- The version that the working copy becomes. -/
def freeze (w : WorkingCopy) : Version where
  id := w.id
  nodes := w.slots.mapValues Slot.object
  supply := w.supply
  stamp_lt := by
    intro e he
    obtain ⟨d, hd, rfl⟩ := List.mem_map.mp he
    exact w.stamp_lt d hd

end WorkingCopy

end DnsZone
