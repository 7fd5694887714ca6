import DnsZone.PlainZone.Access
import DnsZone.Proofs.Staging.Listing
import DnsZone.Proofs.Transaction.Shows

/-!
# What transactions of a plain zone see

A reader of a plain zone sees the nodes of the zone, a writer sees them through what it has staged.
Either way all that it can ask is answered from one content.
-/

namespace DnsZone

/-- Every record set that a writer has staged is staged under its own key. -/
def PlainAccess.Proper (access : PlainAccess) : Prop :=
  ∀ s, access.staging? = some s → s.overlay.Proper

namespace PlainZone

/-! ### Record sets are staged under their own keys -/

section

variable {access : PlainAccess}

theorem proper_modify (h : access.Proper) {f : Staging → Staging}
    (hf : ∀ s : Staging, s.overlay.Proper → (f s).overlay.Proper) : (access.modify f).Proper := by
  intro s hs
  cases access with
  | writing s₀ =>
      cases hs
      exact hf s₀ (h s₀ rfl)
  | _ => cases hs

theorem proper_start (replacement : Bool) (supply : Nat) :
    PlainAccess.Proper (.writing (.start replacement supply)) := by
  intro s hs
  cases hs
  exact Overlay.proper_empty

theorem proper_put (h : access.Proper) (n : Name) (s : RecordSet) :
    PlainAccess.Proper (Access.put n s access) :=
  proper_modify h fun _ hs => Overlay.proper_insert hs fun s' hs' => by cases hs'; rfl

theorem proper_eraseName (h : access.Proper) (n : Name) :
    PlainAccess.Proper (Access.eraseName n access) :=
  proper_modify h fun _ hs => Overlay.proper_eraseAt hs n

theorem proper_eraseSet (h : access.Proper) (n : Name) (key : SetKey) :
    PlainAccess.Proper (Access.eraseSet n key access) :=
  proper_modify h fun _ hs => Overlay.proper_insert hs fun s' hs' => by cases hs'

theorem proper_clear (h : access.Proper) : PlainAccess.Proper (Access.clear access) :=
  proper_modify h fun _ _ => Overlay.proper_empty

end

/-! ### The content -/

/-- The content of the zone. -/
def content (z : PlainZone) : Content := NameMap.content z.nodes

/-- The content that a transaction sees. -/
def contentIn (z : PlainZone) (access : PlainAccess) : Content := fun n =>
  (z.nodeIn? access n).map Node.content

/-- The nodes that a transaction sees, in name order. -/
def nodesIn (z : PlainZone) (access : PlainAccess) : List (Name × Node) :=
  match access.staging? with
  | some s => s.nodes z.nodes z.generation.next
  | none => z.nodes.toList.map fun e => (e.1, e.2.value)

theorem contentIn_writing (z : PlainZone) (s : Staging) :
    z.contentIn (.writing s) = s.content z.nodes z.generation.next := rfl

theorem contentIn_of_staging?_eq_none (z : PlainZone) {access : PlainAccess}
    (h : access.staging? = none) : z.contentIn access = z.content := by
  funext n
  rw [contentIn, nodeIn?, h]
  exact Option.map_map ..

theorem findIn?_eq_set? (z : PlainZone) {access : PlainAccess} (h : access.Proper) (n : Name)
    (key : SetKey) : z.findIn? access n key = (z.contentIn access).set? n key := by
  cases hs : access.staging? with
  | none =>
      rw [findIn?, hs, Content.set?, contentIn, nodeIn?, hs, Option.bind_map]
      rfl
  | some s =>
      have hset := Staging.set?_content (h s hs) z.nodes z.generation.next n key
      rw [Content.set?] at hset
      rw [findIn?, hs, Content.set?, contentIn, nodeIn?, hs]
      exact hset.symm

theorem keyed_of_nodeIn? {z : PlainZone} (h : NameMap.Proper z.nodes) {access : PlainAccess}
    {n : Name} {node : Node} (hnode : z.nodeIn? access n = some node) : node.Keyed := by
  cases hs : access.staging? with
  | none =>
      rw [nodeIn?, hs] at hnode
      obtain ⟨shared, hshared, rfl⟩ := Option.map_eq_some_iff.mp hnode
      exact (h n shared hshared).1
  | some s =>
      rw [nodeIn?, hs] at hnode
      exact (Staging.keyed_of_node? h hnode).1

theorem setsIn_eq_ownedSets (z : PlainZone) (access : PlainAccess) :
    z.setsIn access = ownedSets (z.nodesIn access) := by
  rw [setsIn, nodesIn]
  cases access.staging? <;> rfl

theorem nodeListing_nodesIn (z : PlainZone) (access : PlainAccess) :
    NodeListing (z.nodeIn? access) (z.nodesIn access) := by
  cases hs : access.staging? with
  | none =>
      have hview : z.nodeIn? access = z.node? := by
        funext n
        rw [nodeIn?, hs]
      rw [hview, nodesIn, hs]
      refine ⟨List.pairwise_map.mpr z.nodes.sorted, fun n => ?_⟩
      exact OrderedMap.lookup_map (fun node : Shared Node => node.value) n z.nodes.toList
  | some s =>
      have hview : z.nodeIn? access = s.node? z.nodes z.generation.next := by
        funext n
        rw [nodeIn?, hs]
      rw [hview, nodesIn, hs]
      exact Staging.nodeListing_nodes s z.nodes z.generation.next

theorem shows {z : PlainZone} (h : NameMap.Proper z.nodes) (access : PlainAccess)
    (haccess : access.Proper) : Shows z access (z.contentIn access) where
  find? := z.findIn?_eq_set? haccess
  node? _ := rfl
  keyed _ _ := keyed_of_nodeIn? h
  contains _ := (Option.isSome_map ..).symm
  sets := ⟨z.nodesIn access, z.nodeListing_nodesIn access, z.setsIn_eq_ownedSets access⟩

end PlainZone

end DnsZone
