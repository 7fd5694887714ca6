import DnsZone.Proofs.Transaction.Shows
import DnsZone.Proofs.WorkingCopy
import DnsZone.VersionedZone.Access

/-!
# What transactions of a versioned zone see

A transaction sees a committed version, a working copy, or nothing. In each case all that it can ask
is answered from the content: what is found at a name, whether there is anything at a name, and the
listing of all of it.
-/

namespace DnsZone

namespace VersionedView

/-- The content that a transaction sees. -/
def content (view : VersionedView) : Content := fun n => (view.node? n).map Node.content

/-- Every node that a transaction sees holds record sets with different keys. -/
def Proper : VersionedView → Prop
  | .committed v => NameMap.Proper v.nodes
  | .working w => w.Proper
  | .blank => True

@[simp] theorem content_committed (v : Version) : (committed v).content = v.content := by
  funext n
  rw [content, node?, Option.map_map]
  rfl

theorem find?_eq_set? (view : VersionedView) (n : Name) (key : SetKey) :
    view.find? n key = view.content.set? n key := by
  rw [Content.set?, content, Option.bind_map]
  cases view with
  | committed v =>
      rw [node?, Option.bind_map]
      rfl
  | working w => rfl
  | blank => rfl

theorem contains_eq_isSome (view : VersionedView) (n : Name) :
    view.contains n = (view.content n).isSome := by
  rw [content, Option.isSome_map]
  cases view with
  | committed v =>
      rw [node?, Option.isSome_map]
      rfl
  | working w =>
      rw [node?, WorkingCopy.node?, Option.isSome_map]
      rfl
  | blank => rfl

theorem keyed_of_node? {view : VersionedView} (h : view.Proper) {n : Name} {node : Node}
    (hnode : view.node? n = some node) : node.Keyed := by
  cases view with
  | committed v =>
      obtain ⟨shared, hshared, rfl⟩ := Option.map_eq_some_iff.mp hnode
      exact (h n shared hshared).1
  | working w =>
      obtain ⟨slot, hslot, rfl⟩ := Option.map_eq_some_iff.mp hnode
      exact (h.nodes n slot hslot).1
  | blank => cases hnode

/-- The nodes that a transaction sees, in name order. -/
def nodes : VersionedView → List (Name × Node)
  | .committed v => v.nodes.toList.map fun e => (e.1, e.2.value)
  | .working w => w.slots.toList.map fun e => (e.1, e.2.node)
  | .blank => []

theorem sets_eq_ownedSets (view : VersionedView) : view.sets = ownedSets view.nodes := by
  cases view <;> rfl

theorem nodeListing_nodes (view : VersionedView) : NodeListing view.node? view.nodes := by
  cases view with
  | committed v =>
      refine ⟨List.pairwise_map.mpr v.nodes.sorted, fun n => ?_⟩
      exact OrderedMap.lookup_map (fun node : Shared Node => node.value) n v.nodes.toList
  | working w =>
      refine ⟨List.pairwise_map.mpr w.slots.sorted, fun n => ?_⟩
      exact OrderedMap.lookup_map Slot.node n w.slots.toList
  | blank => exact ⟨.nil, fun _ => rfl⟩

end VersionedView

theorem VersionedZone.shows (z : VersionedZone) (access : VersionedAccess)
    (h : access.view.Proper) : Shows z access access.view.content where
  find? := access.view.find?_eq_set?
  node? _ := rfl
  keyed _ _ := VersionedView.keyed_of_node? h
  contains := access.view.contains_eq_isSome
  sets := ⟨access.view.nodes, access.view.nodeListing_nodes, access.view.sets_eq_ownedSets⟩

namespace Draft

/-- The content that a writer sees. -/
theorem content_view (d : Draft) : d.view.content = d.working.content := by
  obtain ⟨base, replacement, copy?⟩ := d
  cases copy? with
  | some w => rfl
  | none =>
      cases replacement with
      | true => rfl
      | false =>
          change (VersionedView.committed base).content = (WorkingCopy.fork _ base _).content
          rw [VersionedView.content_committed, WorkingCopy.content_fork]

/-- A working copy, made or not, holds nodes where the writer sees some. -/
theorem contains_working (d : Draft) (n : Name) :
    d.working.slots.contains n = d.view.contains n := by
  rw [VersionedView.contains_eq_isSome, content_view]
  exact (VersionedView.working d.working).contains_eq_isSome n

theorem find?_working (d : Draft) (n : Name) (key : SetKey) :
    d.working.find? n key = d.view.find? n key := by
  rw [VersionedView.find?_eq_set?, content_view, WorkingCopy.set?_content]

end Draft

end DnsZone
