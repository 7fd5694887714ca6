import DnsZone.Proofs.Staging.Grouping

/-!
# What a commit of staged changes leaves

A commit writes the groups of staged changes one by one. No two groups are at the same name, so each
name is written once and from the content below. What is there afterwards is the node that the
writer saw; where nothing is staged, it is the object that was there, unless that is hidden.
-/

namespace DnsZone

namespace Staging

theorem find?_storeNode (nodes : NameMap (Shared Node)) (n : Name) (node : Shared Node) (m : Name) :
    (storeNode nodes n node).find? m =
      if m == n then if node.value.isEmpty then none else some node else nodes.find? m := by
  rw [storeNode]
  split
  · rw [OrderedMap.find?_erase]
    simp only [Name.compare_eq_iff]
  · rw [OrderedMap.find?_insert]
    simp only [Name.compare_eq_iff]

/-- Writes the staged changes of each name in turn, drawing the stamps of nodes from `supply` on. -/
def commitGroups (tag : VersionId) (nodes : NameMap (Shared Node)) (supply : Nat) :
    List (Name × NameChanges) → NameMap (Shared Node) × Nat
  | [] => (nodes, supply)
  | (n, changes) :: rest =>
      let node := Node.merge tag ((nodes.find? n).map (·.value)) changes
      commitGroups tag (storeNode nodes n ⟨supply, node⟩) (supply + 1) rest

theorem rewrite_rewriter (tag : VersionId) (nodes : NameMap (Shared Node)) (supply : Nat)
    (g : Name × NameChanges) :
    (rewriter tag).rewrite (nodes, supply) g =
      (storeNode nodes g.1 ⟨supply, .merge tag ((nodes.find? g.1).map (·.value)) g.2⟩,
        supply + 1) := by
  rw [Node.merge, Option.map_map]
  rfl

theorem foldl_rewrite_rewriter (tag : VersionId) (nodes : NameMap (Shared Node)) (supply : Nat)
    (groups : List (Name × NameChanges)) :
    groups.foldl (rewriter tag).rewrite (nodes, supply) = commitGroups tag nodes supply groups := by
  induction groups generalizing nodes supply with
  | nil => rfl
  | cons g groups ih =>
      rw [List.foldl_cons, rewrite_rewriter, ih]
      rfl

/-- A commit writes one group of changes after another. -/
theorem commit_eq_commitGroups (s : Staging) (nodes : NameMap (Shared Node)) (tag : VersionId) :
    s.commit nodes tag = commitGroups tag (s.visible nodes) s.supply s.overlay.groups :=
  ((rewriter tag).run_eq_foldl_rewrite _ _).trans (foldl_rewrite_rewriter tag _ _ _)

/-- A name at which no group is keeps its object. -/
theorem find?_commitGroups_of_lookup_eq_none (tag : VersionId) (nodes : NameMap (Shared Node))
    (supply : Nat) {groups : List (Name × NameChanges)} {m : Name}
    (h : OrderedMap.lookup Name.compare m groups = none) :
    (commitGroups tag nodes supply groups).1.find? m = nodes.find? m := by
  induction groups generalizing nodes supply with
  | nil => rfl
  | cons g groups ih =>
      rw [NameMap.lookup_cons] at h
      split at h
      · cases h
      · rename_i hm
        rw [commitGroups, ih _ _ h, find?_storeNode, if_neg hm]

/-- Groups at different names are each written from the content below. -/
theorem find?_commitGroups (tag : VersionId) (nodes : NameMap (Shared Node)) (supply : Nat)
    {groups : List (Name × NameChanges)}
    (h : groups.Pairwise fun a b => Name.compare a.1 b.1 = .lt) (m : Name) :
    ((commitGroups tag nodes supply groups).1.find? m).map (·.value) =
      match OrderedMap.lookup Name.compare m groups with
      | none => (nodes.find? m).map (·.value)
      | some changes =>
          let node := Node.merge tag ((nodes.find? m).map (·.value)) changes
          if node.isEmpty then none else some node := by
  induction groups generalizing nodes supply with
  | nil => rfl
  | cons g groups ih =>
      obtain ⟨n, changes⟩ := g
      obtain ⟨hg, hgroups⟩ := List.pairwise_cons.mp h
      rw [commitGroups, NameMap.lookup_cons]
      by_cases hm : (m == n) = true
      · have hcmp : Name.compare m n = .eq := Name.compare_eq_iff.mpr hm
        -- no later group is at this name
        have hnone : OrderedMap.lookup Name.compare m groups = none :=
          OrderedMap.lookup_eq_none_of_lt hcmp hg
        rw [find?_commitGroups_of_lookup_eq_none tag _ _ hnone, find?_storeNode, if_pos hm,
          if_pos hm, OrderedMap.find?_congr nodes hcmp]
        simp only
        split <;> rfl
      · rw [ih _ _ hgroups, find?_storeNode, if_neg hm, if_neg hm]

/-- The content below the overlay has the objects that are not hidden. -/
theorem find?_visible (s : Staging) (nodes : NameMap (Shared Node)) (n : Name) :
    (s.visible nodes).find? n = if s.hides n then none else nodes.find? n := by
  have hwiped : (∃ k ∈ s.wiped.keys, Name.compare n k = .eq) ↔ s.wiped.contains n = true :=
    OrderedMap.isSome_find?_iff.symm
  rw [visible, OrderedMap.find?_foldl_erase, hides]
  simp only [hwiped]
  cases s.replacement with
  | true => simp
  | false => simp

/-- After a commit, the node at every name is the one that the writer saw there. -/
theorem find?_commit (s : Staging) (nodes : NameMap (Shared Node)) (tag : VersionId) (n : Name) :
    ((s.commit nodes tag).1.find? n).map (·.value) = s.node? nodes tag n := by
  have hbelow : ((s.visible nodes).find? n).map (·.value) = s.below? nodes n := by
    rw [find?_visible, below?]
    split <;> rfl
  rw [commit_eq_commitGroups, find?_commitGroups tag _ _ s.overlay.sorted_groups,
    Overlay.lookup_groups, hbelow, node?, ← below?]
  cases h : s.overlay.changesAt n <;> rfl

/-- After a commit, a name at which nothing is staged has the object that was there, unless that is
hidden. -/
theorem find?_commit_of_changesAt_eq_nil {s : Staging} {n : Name} (h : s.overlay.changesAt n = [])
    (nodes : NameMap (Shared Node)) (tag : VersionId) :
    (s.commit nodes tag).1.find? n = if s.hides n then none else nodes.find? n := by
  have hnone : OrderedMap.lookup Name.compare n s.overlay.groups = none := by
    rw [Overlay.lookup_groups, if_pos h]
  rw [commit_eq_commitGroups, find?_commitGroups_of_lookup_eq_none tag _ _ hnone, find?_visible]

/-- If there is nothing to commit, a commit would leave the nodes as they are. -/
theorem commit_of_not_hasChanges {s : Staging} {nodes : NameMap (Shared Node)}
    (h : s.hasChanges nodes = false) (tag : VersionId) : s.commit nodes tag = (nodes, s.supply) := by
  simp only [hasChanges, Bool.or_eq_false_iff, Bool.not_eq_false', Bool.and_eq_false_iff,
    OrderedMap.isEmpty, List.isEmpty_iff] at h
  obtain ⟨⟨hoverlay, hwiped⟩, hreplacement⟩ := h
  have hbelow : (if s.replacement then .empty else nodes) = nodes := by
    rcases hreplacement with hreplacement | hempty
    · simp [hreplacement]
    · cases nodes
      cases hempty
      exact ite_self _
  rw [commit, hoverlay, visible, OrderedMap.keys, hwiped, hbelow]
  rfl

/-- A commit leaves the content that the writer saw. -/
theorem content_commit (s : Staging) (nodes : NameMap (Shared Node)) (tag : VersionId) :
    NameMap.content (s.commit nodes tag).1 = s.content nodes tag := by
  funext n
  rw [content, ← find?_commit, Option.map_map]
  rfl

/-- A writer sees nodes that hold record sets with different keys if the zone has only such
nodes. -/
theorem keyed_of_node? {s : Staging} {nodes : NameMap (Shared Node)} (h : NameMap.Proper nodes)
    {tag : VersionId} {n : Name} {node : Node} (hnode : s.node? nodes tag n = some node) :
    node.Keyed ∧ node.isEmpty = false := by
  have hbelow (node : Node) (hb : s.below? nodes n = some node) :
      node.Keyed ∧ node.isEmpty = false := by
    rw [below?] at hb
    split at hb
    · cases hb
    · obtain ⟨shared, hshared, rfl⟩ := Option.map_eq_some_iff.mp hb
      exact h n shared hshared
  rw [node?, ← below?] at hnode
  cases hc : s.overlay.changesAt n with
  | nil =>
      rw [hc] at hnode
      exact hbelow node hnode
  | cons e changes =>
      rw [hc] at hnode
      simp only at hnode
      split at hnode
      · cases hnode
      · rename_i he
        cases hnode
        exact ⟨Node.keyed_merge tag _ fun node hb => (hbelow node hb).1, Bool.eq_false_iff.mpr he⟩

theorem proper_commit {s : Staging} {nodes : NameMap (Shared Node)} (h : NameMap.Proper nodes)
    (tag : VersionId) : NameMap.Proper (s.commit nodes tag).1 := by
  intro n node hnode
  have hfind := s.find?_commit nodes tag n
  rw [hnode] at hfind
  exact keyed_of_node? h hfind.symm

end Staging

end DnsZone
