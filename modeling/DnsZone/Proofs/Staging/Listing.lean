import DnsZone.Proofs.Listing
import DnsZone.Proofs.Staging.Commit

/-!
# What a writer of a plain zone lists

A writer goes through all names that may hold something: those that are not hidden and those with
staged changes. At each it lists the node that it sees there, if there is one, so the listing is the
whole of what it sees.
-/

namespace DnsZone

/-- Nodes seen at the names of a list are found in the listing of these names. -/
theorem lookup_filterMap_names {view : Name → Option Node}
    (hview : ∀ n n', (n == n') = true → view n = view n') (m : Name) {ks : List Name}
    (hm : (view m).isSome = true → ∃ k ∈ ks, (m == k) = true) :
    OrderedMap.lookup Name.compare m
      (ks.filterMap fun n => (view n).map fun node => (n, node)) = view m := by
  cases hnode : view m with
  | none =>
      rw [OrderedMap.lookup_eq_none_iff]
      intro e he heq
      obtain ⟨k, _, hk⟩ := List.mem_filterMap.mp he
      obtain ⟨node, hkn, rfl⟩ := Option.map_eq_some_iff.mp hk
      rw [hview m k (Name.compare_eq_iff.mp heq), hkn] at hnode
      cases hnode
  | some node =>
      obtain ⟨k, hk, hmk⟩ := hm (by rw [hnode]; rfl)
      clear hm
      induction ks with
      | nil => simp at hk
      | cons j ks ih =>
          rw [List.filterMap_cons]
          by_cases hmj : (m == j) = true
          · rw [← hview m j hmj, hnode]
            simp only [Option.map_some]
            rw [NameMap.lookup_cons, if_pos hmj]
          · have hk' : k ∈ ks := by
              rcases List.mem_cons.mp hk with rfl | hk
              · exact absurd hmk hmj
              · exact hk
            cases hj : view j with
            | none => exact ih hk'
            | some node' =>
                simp only [Option.map_some]
                rw [NameMap.lookup_cons, if_neg hmj, ih hk']

namespace Staging

theorem node?_congr (s : Staging) (nodes : NameMap (Shared Node)) (tag : VersionId) {n n' : Name}
    (h : (n == n') = true) : s.node? nodes tag n = s.node? nodes tag n' := by
  rw [← find?_commit, ← find?_commit, OrderedMap.find?_congr _ (Name.compare_eq_iff.mpr h)]

/-- Wherever a writer sees a node, it looks for one. -/
theorem exists_mem_names_of_node? {s : Staging} {nodes : NameMap (Shared Node)} {tag : VersionId}
    {n : Name} (h : (s.node? nodes tag n).isSome = true) :
    ∃ k ∈ (s.names nodes).keys, (n == k) = true := by
  have hmem : (∃ k ∈ (s.names nodes).keys, Name.compare n k = .eq) := by
    rw [← OrderedMap.isSome_find?_iff, names, OrderedMap.isSome_find?_foldl_insert]
    left
    cases hc : s.overlay.changesAt n with
    | nil =>
        have hbelow : (s.below? nodes n).isSome = true := by
          rw [node?, ← below?, hc] at h
          exact h
        rw [below?] at hbelow
        split at hbelow
        · cases hbelow
        · rename_i hhides
          rw [Option.isSome_map, OrderedMap.isSome_find?_iff] at hbelow
          obtain ⟨k, hk, hnk⟩ := hbelow
          have hhk : ¬ s.hides k = true := by
            rw [← s.hides_congr (Name.compare_eq_iff.mp hnk)]
            exact hhides
          simp only [hides, Bool.or_eq_true, not_or] at hhk
          refine ⟨k, List.mem_append_left _ ?_, hnk⟩
          rw [if_neg hhk.1]
          exact List.mem_filter.mpr ⟨hk, by simpa using hhk.2⟩
    | cons e changes =>
        rw [Overlay.changesAt_eq_filter] at hc
        have he : e ∈ (s.overlay.toList.filter fun e => e.1.owner == n).map
            fun e => (e.1.key, e.2) := by
          rw [hc]
          exact List.mem_cons_self
        obtain ⟨d, hd, _⟩ := List.mem_map.mp he
        obtain ⟨hd, hdn⟩ := List.mem_filter.mp hd
        refine ⟨d.1.owner, List.mem_append_right _ ?_, Name.compare_eq_iff.mpr (BEq.symm hdn)⟩
        exact List.mem_map_of_mem (List.mem_map_of_mem hd)
  obtain ⟨k, hk, hnk⟩ := hmem
  exact ⟨k, hk, Name.compare_eq_iff.mp hnk⟩

/-- The nodes that a writer sees, in name order. -/
def nodes (s : Staging) (nodes : NameMap (Shared Node)) (tag : VersionId) : List (Name × Node) :=
  (s.names nodes).keys.filterMap fun n => (s.node? nodes tag n).map fun node => (n, node)

theorem nodeListing_nodes (s : Staging) (nodes : NameMap (Shared Node)) (tag : VersionId) :
    NodeListing (s.node? nodes tag) (s.nodes nodes tag) where
  sorted := by
    refine List.Pairwise.filterMap _ ?_ (s.names nodes).sorted_keys
    intro a b hab e he d hd
    obtain ⟨_, _, rfl⟩ := Option.map_eq_some_iff.mp he
    obtain ⟨_, _, rfl⟩ := Option.map_eq_some_iff.mp hd
    exact hab
  lookup_eq n := by
    refine lookup_filterMap_names ?_ n exists_mem_names_of_node?
    intro k k' hk
    exact s.node?_congr nodes tag hk

end Staging

end DnsZone
