import DnsZone.Proofs.OrderedMap.Spelling
import DnsZone.Proofs.Staging.Listing

/-!
# A commit leaves what the writer listed

The names that a writer lists are gathered from the zone and from its staged changes, those that a
commit leaves come from storing one node after another. Both spell a name as the zone does unless it
is hidden there, and else as the first change at the name does. So the nodes of the zone after a
commit are those that the writer listed, name by name and letter by letter.
-/

namespace DnsZone

open OrderedMap (spelling spelling_cons spelling_append spelling_filter)

namespace Overlay

/-- A group is at the spelling of the first of its changes. -/
theorem spelling_groupEntries (l : List (OwnedKey × Staged)) (n : Name) :
    spelling Name.compare n ((groupEntries l).map (·.1)) =
      spelling Name.compare n (l.map fun e => e.1.owner) := by
  induction l with
  | nil => rfl
  | cons e l ih =>
      unfold groupEntries
      rw [List.map_cons, spelling_cons, ← ih]
      cases hgroups : groupEntries l with
      | nil => rw [List.map_singleton, spelling_cons]; rfl
      | cons group groups =>
          simp only
          split
          · rename_i heq
            -- the change joins the group that follows
            have hcmp : Name.compare n e.1.owner = Name.compare n group.1 :=
              Std.TransCmp.congr_right (Name.compare_eq_iff.mpr heq)
            rw [List.map_cons, List.map_cons, spelling_cons, spelling_cons, hcmp]
            by_cases hn : Name.compare n group.1 = .eq
            · simp [hn]
            · simp [hn]
          · rw [List.map_cons, spelling_cons]

theorem spelling_groups (o : Overlay) (n : Name) :
    spelling Name.compare n (o.groups.map (·.1)) =
      spelling Name.compare n (o.keys.map (·.owner)) := by
  rw [groups, spelling_groupEntries, OrderedMap.keys, List.map_map]
  rfl

end Overlay

namespace Staging

theorem spelling_storeNode (nodes : NameMap (Shared Node)) (n : Name) (node : Shared Node)
    (m : Name) :
    spelling Name.compare m (storeNode nodes n node).keys =
      if Name.compare m n = .eq then
        if node.value.isEmpty then none else some ((spelling Name.compare n nodes.keys).getD n)
      else spelling Name.compare m nodes.keys := by
  rw [storeNode]
  split
  · rw [OrderedMap.spelling_erase]
  · rw [OrderedMap.spelling_insert]

/-- What is there after a commit is spelled as it was below, or as the group at the name is. -/
theorem spelling_commitGroups (tag : VersionId) (nodes : NameMap (Shared Node)) (supply : Nat)
    {groups : List (Name × NameChanges)}
    (h : groups.Pairwise fun a b => Name.compare a.1 b.1 = .lt) (m : Name) :
    spelling Name.compare m (commitGroups tag nodes supply groups).1.keys =
      if ((commitGroups tag nodes supply groups).1.find? m).isSome then
        (spelling Name.compare m nodes.keys).or (spelling Name.compare m (groups.map (·.1)))
      else none := by
  induction groups generalizing nodes supply with
  | nil =>
      have hsome := OrderedMap.isSome_spelling_keys nodes m
      rw [commitGroups, List.map_nil, ← hsome]
      cases spelling Name.compare m nodes.keys <;> rfl
  | cons g groups ih =>
      obtain ⟨n, changes⟩ := g
      obtain ⟨hg, hgroups⟩ := List.pairwise_cons.mp h
      rw [commitGroups, ih _ _ hgroups, spelling_storeNode, List.map_cons, spelling_cons]
      generalize (Shared.mk supply (Node.merge tag ((nodes.find? n).map (·.value)) changes)) = node
      by_cases hm : Name.compare m n = .eq
      · have hlater (g : Name × NameChanges) (hmem : g ∈ groups) : Name.compare m g.1 ≠ .eq := by
          rw [Std.TransCmp.congr_left hm, hg g hmem]
          simp
        have hnone : OrderedMap.lookup Name.compare m groups = none :=
          OrderedMap.lookup_eq_none_iff.mpr hlater
        have hspelling : spelling Name.compare m (groups.map (·.1)) = none := by
          simpa [OrderedMap.spelling_eq_none_iff] using hlater
        -- no later group is at this name, so the node stored here is what is found
        rw [find?_commitGroups_of_lookup_eq_none tag _ _ hnone, find?_storeNode,
          if_pos (Name.compare_eq_iff.mp hm), hspelling, if_pos hm, if_pos hm,
          OrderedMap.spelling_congr hm]
        cases node.value.isEmpty with
        | true => rfl
        | false => cases spelling Name.compare n nodes.keys <;> rfl
      · rw [if_neg hm, if_neg hm]

/-- A name is spelled as in the zone unless it is hidden there. -/
theorem spelling_visible (s : Staging) (nodes : NameMap (Shared Node)) (n : Name) :
    spelling Name.compare n (s.visible nodes).keys =
      if s.hides n then none else spelling Name.compare n nodes.keys := by
  have hwiped : (∃ k ∈ s.wiped.keys, Name.compare n k = .eq) ↔ s.wiped.contains n = true :=
    OrderedMap.isSome_find?_iff.symm
  rw [visible, OrderedMap.spelling_foldl_erase, hides]
  simp only [hwiped]
  cases s.replacement with
  | true => simp [OrderedMap.keys]
  | false => simp

/-- The names that a writer gathers are spelled as those that a commit leaves. -/
theorem spelling_names (s : Staging) (nodes : NameMap (Shared Node)) (n : Name) :
    spelling Name.compare n (s.names nodes).keys =
      (spelling Name.compare n (s.visible nodes).keys).or
        (spelling Name.compare n (s.overlay.groups.map (·.1))) := by
  have hwiped (j k : Name) (h : Name.compare j k = .eq) :
      (!s.wiped.contains j) = !s.wiped.contains k := by
    rw [OrderedMap.contains, OrderedMap.contains, OrderedMap.find?_congr s.wiped h]
  rw [names, OrderedMap.spelling_foldl_insert, spelling_append, spelling_visible,
    Overlay.spelling_groups, hides]
  cases s.replacement with
  | true => simp [OrderedMap.keys]
  | false =>
      rw [if_neg Bool.false_ne_true, spelling_filter hwiped]
      by_cases hn : s.wiped.contains n = true
      · simp [hn, OrderedMap.keys]
      · simp [hn, OrderedMap.keys]

/-- The names in a listing are those at which a node is seen. -/
theorem map_fst_filterMap {α : Type} (view : Name → Option α) (ns : List Name) :
    (ns.filterMap fun n => (view n).map fun a => (n, a)).map (·.1) =
      ns.filter fun n => (view n).isSome := by
  induction ns with
  | nil => rfl
  | cons n ns ih =>
      rw [List.filterMap_cons, List.filter_cons]
      cases view n with
      | none => simpa using ih
      | some a => simpa using ih

/-- The nodes after a commit are those that the writer listed. -/
theorem toList_commit (s : Staging) (nodes : NameMap (Shared Node)) (tag : VersionId) :
    (s.commit nodes tag).1.toList.map (fun e => (e.1, e.2.value)) = s.nodes nodes tag := by
  have hlisting := s.nodeListing_nodes nodes tag
  have hsorted : ((s.commit nodes tag).1.toList.map fun e => (e.1, e.2.value)).Pairwise
      fun a b => Name.compare a.1 b.1 = .lt :=
    List.pairwise_map.mpr (s.commit nodes tag).1.sorted
  refine OrderedMap.toList_ext hsorted hlisting.sorted (fun n => ?_) fun n => ?_
  · rw [hlisting.lookup_eq, ← find?_commit, OrderedMap.find?, ← OrderedMap.lookup_map]
  · have hkeys : (s.nodes nodes tag).map (·.1) =
        (s.names nodes).keys.filter fun k => (s.node? nodes tag k).isSome :=
      map_fst_filterMap _ _
    have hcommitted : ((s.commit nodes tag).1.toList.map fun e => (e.1, e.2.value)).map (·.1) =
        (s.commit nodes tag).1.keys := by
      rw [List.map_map]
      rfl
    rw [hkeys, hcommitted, spelling_filter, ← find?_commit, Option.isSome_map]
    · rw [commit_eq_commitGroups, spelling_names]
      exact spelling_commitGroups tag _ _ s.overlay.sorted_groups n
    · intro j k h
      rw [s.node?_congr nodes tag (Name.compare_eq_iff.mp h)]

/-- If there is nothing to commit, the writer has listed the nodes of the zone. -/
theorem nodes_of_not_hasChanges {s : Staging} {nodes : NameMap (Shared Node)}
    (h : s.hasChanges nodes = false) (tag : VersionId) :
    nodes.toList.map (fun e => (e.1, e.2.value)) = s.nodes nodes tag := by
  rw [← toList_commit, commit_of_not_hasChanges h]

end Staging

end DnsZone
