import DnsZone.Proofs.Name
import DnsZone.Proofs.Node
import DnsZone.Proofs.OrderedMap
import DnsZone.Version.Basic

/-!
# The content that a transaction sees

Whatever the representation, a zone as a transaction sees it maps each owner name to a node, of
which can be told who made it and what is found in it under each key. This map is the `Content`.
Storing and deleting record sets act on it at one name, and the nodes that they make carry the
number of the version that the transaction is to become.
-/

namespace DnsZone

/-- What can be told of a node without regard to the order of its record sets. -/
@[ext] structure NodeContent where
  tag : VersionId
  set? : SetKey → Option RecordSet

namespace NodeContent

open Classical in
/-- A node with the given record sets, if there is any of them. -/
noncomputable def ofSets? (tag : VersionId) (sets : SetKey → Option RecordSet) :
    Option NodeContent :=
  if ∀ key, sets key = none then none else some ⟨tag, sets⟩

theorem bind_ofSets? (tag : VersionId) (sets : SetKey → Option RecordSet) (key : SetKey) :
    (ofSets? tag sets).bind (fun c => c.set? key) = sets key := by
  unfold ofSets?
  split
  · rename_i h
    rw [h key]
    rfl
  · rfl

end NodeContent

/-- What can be told of the node. -/
def Node.content (n : Node) : NodeContent := ⟨n.tag, n.find?⟩

/-- A node that is kept only if it holds anything. -/
theorem Node.map_content_of_isEmpty (n : Node) :
    ((if n.isEmpty then none else some n).map Node.content) =
      NodeContent.ofSets? n.tag n.find? := by
  unfold NodeContent.ofSets?
  by_cases h : n.isEmpty = true
  · rw [if_pos h, if_pos (Node.isEmpty_iff_find?_eq_none.mp h)]
    rfl
  · rw [if_neg h, if_neg (fun hn => h (Node.isEmpty_iff_find?_eq_none.mpr hn))]
    rfl

/-- What can be told of the nodes of a zone by owner name. -/
abbrev Content := Name → Option NodeContent

namespace Content

/-- No nodes. -/
def empty : Content := fun _ => none

/-- The record set known by `key` at a name. -/
def set? (c : Content) (n : Name) (key : SetKey) : Option RecordSet :=
  (c n).bind fun node => node.set? key

/-- Stores a record set in place of the one with the same key. -/
def put (tag : VersionId) (n : Name) (s : RecordSet) (c : Content) : Content := fun m =>
  if m == n then some ⟨tag, fun key => if s.key = key then some s else c.set? m key⟩ else c m

/-- Deletes a record set, and its name with it if no other set is left there. -/
noncomputable def eraseSet (tag : VersionId) (n : Name) (key : SetKey) (c : Content) : Content :=
  fun m =>
    if m == n then NodeContent.ofSets? tag fun k => if key = k then none else c.set? m k else c m

/-- Deletes a name. -/
def eraseName (n : Name) (c : Content) : Content := fun m => if m == n then none else c m

theorem set?_put (tag : VersionId) (n m : Name) (s : RecordSet) (c : Content) (key : SetKey) :
    (c.put tag n s).set? m key =
      if (m == n) = true ∧ key = s.key then some s else c.set? m key := by
  rw [set?, put]
  by_cases hm : (m == n) = true
  · simp [hm, eq_comm]
  · simp [hm, set?]

theorem set?_eraseSet (tag : VersionId) (n m : Name) (key key' : SetKey) (c : Content) :
    (c.eraseSet tag n key).set? m key' =
      if (m == n) = true ∧ key' = key then none else c.set? m key' := by
  rw [set?, eraseSet]
  by_cases hm : (m == n) = true
  · simp [hm, NodeContent.bind_ofSets?, eq_comm]
  · simp [hm, set?]

theorem set?_eraseName (n m : Name) (c : Content) (key : SetKey) :
    (c.eraseName n).set? m key = if m == n then none else c.set? m key := by
  rw [set?, eraseName]
  by_cases hm : (m == n) = true
  · simp [hm]
  · simp [hm, set?]

/-! ### The names where there is anything -/

theorem isSome_put (tag : VersionId) (n m : Name) (s : RecordSet) (c : Content) :
    (c.put tag n s m).isSome = (m == n || (c m).isSome) := by
  rw [put]
  cases m == n <;> rfl

theorem isSome_of_eraseName {n m : Name} {c : Content} (h : (c.eraseName n m).isSome = true) :
    (c m).isSome = true := by
  rw [eraseName] at h
  split at h
  · cases h
  · exact h

theorem isSome_of_set? {c : Content} {n : Name} {key : SetKey}
    (h : (c.set? n key).isSome = true) : (c n).isSome = true := by
  rw [set?] at h
  cases hn : c n with
  | none =>
      rw [hn] at h
      cases h
  | some node => rfl

theorem isSome_of_eraseSet {tag : VersionId} {n m : Name} {key : SetKey} {c : Content}
    (h : (c.eraseSet tag n key m).isSome = true) : (c m).isSome = true := by
  rw [eraseSet] at h
  split at h
  · -- what is left of the node was found there before
    by_contra hnone
    rw [NodeContent.ofSets?, if_pos] at h
    · cases h
    · intro key'
      split
      · rfl
      · by_contra hset
        exact hnone (isSome_of_set? (Option.isSome_iff_ne_none.mpr hset))
  · exact h

end Content

theorem NameMap.lookup_cons {α : Type} (n : Name) (e : Name × α) (l : List (Name × α)) :
    OrderedMap.lookup Name.compare n (e :: l) =
      if n == e.1 then some e.2 else OrderedMap.lookup Name.compare n l := by
  rw [OrderedMap.lookup_cons]
  simp only [Name.compare_eq_iff]

/-- The content of nodes by owner name. -/
def NameMap.content (m : NameMap (Shared Node)) : Content := fun n =>
  (m.find? n).map fun node => node.value.content

/-- Every node holds record sets, and these have different keys. -/
def NameMap.Proper (m : NameMap (Shared Node)) : Prop :=
  ∀ n node, m.find? n = some node → node.value.Keyed ∧ node.value.isEmpty = false

end DnsZone
