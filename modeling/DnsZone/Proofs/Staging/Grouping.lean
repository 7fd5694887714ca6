import DnsZone.Proofs.Staging.Content

/-!
# Staged changes name by name

`Overlay.groups` puts the changes at one name together. A pass through staged changes takes them one
by one and has a node pending while it does, yet what it leaves is got by rewriting one name after
another: the node of the name is started, all changes of its group are applied, and it is stored. To
see that this is also what happens on the way, a rewriter is `watched`: it keeps a journal in which
every store puts down its name and the changes that were applied to the node.
-/

namespace DnsZone

namespace Overlay

/-- Staged changes with those at one name put together, under the spelling that comes first. -/
def groupEntries : List (OwnedKey × Staged) → List (Name × NameChanges)
  | [] => []
  | e :: rest =>
      match groupEntries rest with
      | [] => [(e.1.owner, [(e.1.key, e.2)])]
      | group :: groups =>
          if e.1.owner == group.1 then (e.1.owner, (e.1.key, e.2) :: group.2) :: groups
          else (e.1.owner, [(e.1.key, e.2)]) :: group :: groups

def groups (o : Overlay) : List (Name × NameChanges) := groupEntries o.toList

/-- The first group holds the changes up to the first one at another name. -/
theorem groupEntries_cons (e : OwnedKey × Staged) (l : List (OwnedKey × Staged)) :
    groupEntries (e :: l) =
      (e.1.owner, (e.1.key, e.2) ::
        (l.takeWhile fun d => e.1.owner == d.1.owner).map fun d => (d.1.key, d.2)) ::
      groupEntries (l.dropWhile fun d => e.1.owner == d.1.owner) := by
  induction l generalizing e with
  | nil => rfl
  | cons d l ih =>
      rw [groupEntries, ih d]
      simp only
      by_cases h : (e.1.owner == d.1.owner) = true
      · have hsame (c : OwnedKey × Staged) :
            (e.1.owner == c.1.owner) = (d.1.owner == c.1.owner) := BEq.congr_left h
        rw [if_pos h, List.takeWhile_cons, if_pos h, List.dropWhile_cons, if_pos h, List.map_cons]
        simp only [hsame]
      · rw [if_neg h, List.takeWhile_cons, if_neg h, List.dropWhile_cons, if_neg h, ih d]
        rfl

/-- Every change is in one group, in the order of the changes. -/
theorem flatMap_groupEntries (l : List (OwnedKey × Staged)) :
    ((groupEntries l).flatMap fun g => g.2) = l.map fun e => (e.1.key, e.2) := by
  induction l with
  | nil => rfl
  | cons e l ih =>
      rw [List.map_cons, ← ih, groupEntries]
      cases groupEntries l with
      | nil => rfl
      | cons group groups =>
          simp only
          split <;> rfl

/-- Every group is at a name of the overlay. -/
theorem owner_of_mem_groupEntries {l : List (OwnedKey × Staged)} {g : Name × NameChanges}
    (h : g ∈ groupEntries l) : ∃ e ∈ l, e.1.owner = g.1 := by
  induction l generalizing g with
  | nil => simp [groupEntries] at h
  | cons e l ih =>
      unfold groupEntries at h
      have hhead : ∃ d ∈ e :: l, d.1.owner = e.1.owner := ⟨e, List.mem_cons_self, rfl⟩
      have htail (g : Name × NameChanges) (hg : g ∈ groupEntries l) :
          ∃ d ∈ e :: l, d.1.owner = g.1 := by
        obtain ⟨d, hd, hdg⟩ := ih hg
        exact ⟨d, List.mem_cons_of_mem _ hd, hdg⟩
      cases hgroups : groupEntries l with
      | nil =>
          rw [hgroups] at h
          rw [List.mem_singleton.mp h]
          exact hhead
      | cons group groups =>
          rw [hgroups] at h htail
          simp only at h
          split at h
          · rcases List.mem_cons.mp h with rfl | h
            · exact hhead
            · exact htail g (List.mem_cons_of_mem _ h)
          · rcases List.mem_cons.mp h with rfl | h
            · exact hhead
            · exact htail g h

/-- The groups are in strictly increasing order of their names. -/
theorem sorted_groupEntries {l : List (OwnedKey × Staged)}
    (h : l.Pairwise fun a b => OwnedKey.compare a.1 b.1 = .lt) :
    (groupEntries l).Pairwise fun a b => Name.compare a.1 b.1 = .lt := by
  induction l with
  | nil => exact List.Pairwise.nil
  | cons e l ih =>
      obtain ⟨he, hl⟩ := List.pairwise_cons.mp h
      have hsorted := ih hl
      have hne_gt (g : Name × NameChanges) (hg : g ∈ groupEntries l) :
          Name.compare e.1.owner g.1 ≠ .gt := by
        obtain ⟨d, hd, hdg⟩ := owner_of_mem_groupEntries hg
        rw [← hdg]
        exact OwnedKey.owner_ne_gt_of_lt (he d hd)
      unfold groupEntries
      cases hgroups : groupEntries l with
      | nil => exact List.pairwise_singleton _ _
      | cons group groups =>
          rw [hgroups] at hsorted hne_gt
          obtain ⟨hgroup, htail⟩ := List.pairwise_cons.mp hsorted
          simp only
          split
          · rename_i heq
            have hcmp : Name.compare e.1.owner group.1 = .eq := Name.compare_eq_iff.mpr heq
            refine List.pairwise_cons.mpr ⟨fun g hg => ?_, htail⟩
            exact Std.TransCmp.lt_of_eq_of_lt hcmp (hgroup g hg)
          · rename_i hne
            have hlt : Name.compare e.1.owner group.1 = .lt := by
              have hngt := hne_gt group List.mem_cons_self
              have hneq : Name.compare e.1.owner group.1 ≠ .eq :=
                fun h => hne (Name.compare_eq_iff.mp h)
              cases hc : Name.compare e.1.owner group.1 with
              | lt => rfl
              | eq => exact absurd hc hneq
              | gt => exact absurd hc hngt
            refine List.pairwise_cons.mpr ⟨fun g hg => ?_, hsorted⟩
            rcases List.mem_cons.mp hg with rfl | hg
            · exact hlt
            · exact Std.TransCmp.lt_trans hlt (hgroup g hg)

/-- The changes of the entries at a name, in order. -/
def entriesAt (l : List (OwnedKey × Staged)) (n : Name) : NameChanges :=
  (l.filter fun e => e.1.owner == n).map fun e => (e.1.key, e.2)

theorem entriesAt_cons (e : OwnedKey × Staged) (l : List (OwnedKey × Staged)) (n : Name) :
    entriesAt (e :: l) n =
      if e.1.owner == n then (e.1.key, e.2) :: entriesAt l n else entriesAt l n := by
  rw [entriesAt, List.filter_cons]
  split <;> rfl

/-- The group of a name holds all entries at the name; a name without entries has no group. -/
theorem lookup_groupEntries {l : List (OwnedKey × Staged)}
    (h : l.Pairwise fun a b => OwnedKey.compare a.1 b.1 = .lt) (n : Name) :
    OrderedMap.lookup Name.compare n (groupEntries l) =
      if entriesAt l n = [] then none else some (entriesAt l n) := by
  induction l with
  | nil => rfl
  | cons e l ih =>
      have hsorted := sorted_groupEntries h
      have ih := ih (List.pairwise_cons.mp h).2
      have hcomm : (n == e.1.owner) = (e.1.owner == n) := BEq.comm
      rw [entriesAt_cons]
      unfold groupEntries at hsorted ⊢
      cases hgroups : groupEntries l with
      | nil =>
          rw [hgroups, OrderedMap.lookup_nil] at ih
          have hnil : entriesAt l n = [] := by
            by_contra hne
            rw [if_neg hne] at ih
            cases ih
          rw [NameMap.lookup_cons, hcomm, hnil]
          split <;> rfl
      | cons group groups =>
          rw [hgroups] at hsorted ih
          simp only at hsorted ⊢
          split
          · rename_i heq
            have hgroup : (n == group.1) = (e.1.owner == n) := by
              rw [← hcomm]
              exact (BEq.congr_right heq).symm
            rw [NameMap.lookup_cons, hgroup] at ih
            rw [NameMap.lookup_cons, hcomm]
            by_cases hn : (e.1.owner == n) = true
            · rw [if_pos hn] at ih
              have hgroup : group.2 = entriesAt l n := by
                split at ih
                · cases ih
                · exact Option.some.inj ih
              simp [hn, hgroup]
            · rw [if_neg hn] at ih
              simp [hn, ih]
          · rename_i hne
            rw [if_neg hne] at hsorted
            rw [NameMap.lookup_cons, hcomm, ih]
            by_cases hn : (e.1.owner == n) = true
            · -- the other groups are all at later names
              have hnone : OrderedMap.lookup Name.compare n (group :: groups) = none :=
                OrderedMap.lookup_eq_none_of_lt (Name.compare_eq_iff.mpr (hcomm.trans hn))
                  (List.pairwise_cons.mp hsorted).1
              have hnil : entriesAt l n = [] := by
                by_contra hne
                rw [ih, if_neg hne] at hnone
                cases hnone
              simp [hn, hnil]
            · simp [hn]

theorem sorted_groups (o : Overlay) :
    o.groups.Pairwise fun a b => Name.compare a.1 b.1 = .lt := sorted_groupEntries o.sorted

theorem lookup_groups (o : Overlay) (n : Name) :
    OrderedMap.lookup Name.compare n o.groups =
      if o.changesAt n = [] then none else some (o.changesAt n) := by
  rw [changesAt_eq_filter]
  exact lookup_groupEntries o.sorted n

/-- The group of a name is all that is staged there. -/
theorem eq_changesAt_of_mem_groups {o : Overlay} {g : Name × NameChanges} (h : g ∈ o.groups) :
    g.2 = o.changesAt g.1 := by
  have hfound := OrderedMap.lookup_eq_some_of_mem o.sorted_groups h Std.ReflCmp.compare_self
  rw [lookup_groups] at hfound
  split at hfound
  · cases hfound
  · exact (Option.some.inj hfound).symm

theorem exists_group_iff {o : Overlay} {n : Name} :
    (∃ g ∈ o.groups, (n == g.1) = true) ↔ o.changesAt n ≠ [] := by
  have hnone : OrderedMap.lookup Name.compare n o.groups = none ↔ o.changesAt n = [] := by
    rw [lookup_groups]
    split
    · simp [*]
    · simp [*]
  rw [Ne, ← hnone, OrderedMap.lookup_eq_none_iff]
  simp only [ne_eq, Name.compare_eq_iff, not_forall, not_not, exists_prop]

end Overlay

/-! ### Passes -/

section

variable {σ ν : Type} (r : Rewriter σ ν)

/-- Rewrites the node of one name by a group of changes. -/
def Rewriter.rewrite (content : σ) (g : Name × NameChanges) : σ :=
  r.store content g.1 (g.2.foldl r.apply (r.start content g.1))

namespace Pass

variable {r} {content : σ} {n : Name} {node : ν} {e : OwnedKey × Staged}

/-- A change at the name that is pending is applied to the pending node. -/
theorem take_of_beq (h : (n == e.1.owner) = true) :
    take r ⟨content, some (n, node)⟩ e = ⟨content, some (n, r.apply node (e.1.key, e.2))⟩ := by
  simp [take, turnTo, h]

/-- A change at another name has the pending node stored and the one of that name started. -/
theorem take_of_not_beq (h : ¬ (n == e.1.owner) = true) :
    take r ⟨content, some (n, node)⟩ e =
      ⟨r.store content n node, some (e.1.owner,
        r.apply (r.start (r.store content n node) e.1.owner) (e.1.key, e.2))⟩ := by
  simp [take, turnTo, flush, h]

variable (r content n node)

/-- With a node pending, what is left are the other changes at its name and then the other names. -/
theorem flush_foldl_take (l : List (OwnedKey × Staged)) :
    ((l.foldl (take r) ⟨content, some (n, node)⟩).flush r).content =
      (Overlay.groupEntries (l.dropWhile fun d => n == d.1.owner)).foldl r.rewrite
        (r.store content n (((l.takeWhile fun d => n == d.1.owner).map
          fun d => (d.1.key, d.2)).foldl r.apply node)) := by
  induction l generalizing content n node with
  | nil => rfl
  | cons e l ih =>
      rw [List.foldl_cons]
      by_cases h : (n == e.1.owner) = true
      · rw [take_of_beq h, ih, List.takeWhile_cons, if_pos h, List.dropWhile_cons, if_pos h,
          List.map_cons, List.foldl_cons]
      · rw [take_of_not_beq h, ih, List.takeWhile_cons, if_neg h, List.dropWhile_cons, if_neg h,
          Overlay.groupEntries_cons, List.foldl_cons]
        rfl

end Pass

namespace Rewriter

/-- A pass rewrites one name after another. -/
theorem run_eq_foldl_rewrite (content : σ) (l : List (OwnedKey × Staged)) :
    r.run content l = (Overlay.groupEntries l).foldl r.rewrite content := by
  cases l with
  | nil => rfl
  | cons e l =>
      have hfirst : Pass.take r ⟨content, none⟩ e =
          ⟨content, some (e.1.owner, r.apply (r.start content e.1.owner) (e.1.key, e.2))⟩ := rfl
      rw [run, List.foldl_cons, hfirst, Pass.flush_foldl_take, Overlay.groupEntries_cons,
        List.foldl_cons]
      rfl

/-! ### Watching a pass -/

/-- The rewriter with a journal, in which every store puts down the name and the changes that were
applied to the node since it was started. -/
def watched : Rewriter (σ × List (Name × NameChanges)) (ν × NameChanges) where
  start content n := (r.start content.1 n, [])
  apply node e := (r.apply node.1 e, node.2 ++ [e])
  store content n node := (r.store content.1 n node.1, content.2 ++ [(n, node.2)])

theorem foldl_apply_watched (node : ν) (changes made : NameChanges) :
    changes.foldl r.watched.apply (node, made) =
      (changes.foldl r.apply node, made ++ changes) := by
  induction changes generalizing node made with
  | nil => rw [List.append_nil]; rfl
  | cons e changes ih =>
      have hstep : r.watched.apply (node, made) e = (r.apply node e, made ++ [e]) := rfl
      rw [List.foldl_cons, hstep, ih, List.append_assoc]
      rfl

theorem rewrite_watched (content : σ) (journal : List (Name × NameChanges))
    (g : Name × NameChanges) :
    r.watched.rewrite (content, journal) g = (r.rewrite content g, journal ++ [g]) := by
  have hstart : r.watched.start (content, journal) g.1 = (r.start content g.1, []) := rfl
  rw [rewrite, hstart, foldl_apply_watched]
  rfl

theorem foldl_rewrite_watched (content : σ) (journal groups : List (Name × NameChanges)) :
    groups.foldl r.watched.rewrite (content, journal) =
      (groups.foldl r.rewrite content, journal ++ groups) := by
  induction groups generalizing content journal with
  | nil => rw [List.append_nil]; rfl
  | cons g groups ih =>
      rw [List.foldl_cons, rewrite_watched, ih, List.append_assoc]
      rfl

/-- Watching changes nothing about a pass, and the journal has one entry for each group. -/
theorem run_watched (content : σ) (l : List (OwnedKey × Staged)) :
    r.watched.run (content, []) l = (r.run content l, Overlay.groupEntries l) := by
  rw [run_eq_foldl_rewrite, foldl_rewrite_watched, ← run_eq_foldl_rewrite, List.nil_append]

end Rewriter

end

end DnsZone
