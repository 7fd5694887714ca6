import DnsZone.Proofs.Content
import DnsZone.Transaction.Basic

/-!
# Listings

A listing gives the record sets of some nodes with their owner names. Two listings agree if they
have equal names at the same places and, under every name, the same record sets in any order. This
is what listings of nodes in name order have in common that have the same content.
-/

namespace DnsZone

/-- Two nodes of the same version with the same record sets in any order. -/
structure Node.Alike (a b : Node) : Prop where
  tag_eq : a.tag = b.tag
  sets_perm : a.recordSets.Perm b.recordSets

theorem Node.alike_of_content_eq {a b : Node} (ha : a.Keyed) (hb : b.Keyed)
    (h : a.content = b.content) : a.Alike b where
  tag_eq := congrArg NodeContent.tag h
  sets_perm := Node.recordSets_perm ha hb fun key => congrFun (congrArg NodeContent.set? h) key

namespace Listing

/-- The record sets of a listing at a name. -/
def setsAt (l : List (Name × RecordSet)) (n : Name) : List RecordSet :=
  (l.filter fun e => e.1 == n).map (·.2)

/-- Two listings with equal names at the same places and the same record sets at every name. -/
structure Agree (l l' : List (Name × RecordSet)) : Prop where
  names : List.Forall₂ (fun a b => (a.1 == b.1) = true) l l'
  sets : ∀ n, (setsAt l n).Perm (setsAt l' n)

theorem setsAt_append (l l' : List (Name × RecordSet)) (n : Name) :
    setsAt (l ++ l') n = setsAt l n ++ setsAt l' n := by
  rw [setsAt, List.filter_append, List.map_append]
  rfl

theorem setsAt_node (e : Name × Node) (n : Name) :
    setsAt (e.2.recordSets.map fun s => (e.1, s)) n =
      if e.1 == n then e.2.recordSets else [] := by
  rw [setsAt, List.filter_map, List.map_map]
  by_cases h : (e.1 == n) = true
  · simp [Function.comp_def, h]
  · simp [Function.comp_def, h]

theorem forall₂_names {n n' : Name} (h : (n == n') = true) {l l' : List RecordSet}
    (hlen : l.length = l'.length) :
    List.Forall₂ (fun a b => (a.1 == b.1) = true) (l.map fun s => (n, s))
      (l'.map fun s => (n', s)) := by
  induction l generalizing l' with
  | nil =>
      cases l' with
      | nil => exact .nil
      | cons t l' => simp at hlen
  | cons s l ih =>
      cases l' with
      | nil => simp at hlen
      | cons t l' => exact .cons h (ih (by simpa using hlen))

/-- Nodes with equal names that are alike have listings that agree. -/
theorem agree_ownedSets {l l' : List (Name × Node)}
    (h : List.Forall₂ (fun a b => (a.1 == b.1) = true ∧ a.2.Alike b.2) l l') :
    Agree (ownedSets l) (ownedSets l') := by
  induction h with
  | nil => exact ⟨.nil, fun _ => List.Perm.nil⟩
  | cons hab _ ih =>
      rename_i a b l l' _
      obtain ⟨hname, halike⟩ := hab
      rw [ownedSets, ownedSets, List.flatMap_cons, List.flatMap_cons]
      constructor
      · exact List.rel_append (forall₂_names hname halike.sets_perm.length_eq) ih.names
      · intro n
        rw [setsAt_append, setsAt_append, setsAt_node, setsAt_node, BEq.congr_left hname]
        refine List.Perm.append ?_ (ih.sets n)
        split
        · exact halike.sets_perm
        · exact List.Perm.nil

/-- The names of listings with equal names are equal. -/
theorem forall₂_distinctNames {l l' : List (Name × RecordSet)}
    (h : List.Forall₂ (fun a b => (a.1 == b.1) = true) l l') {last? last?' : Option Name}
    (hlast : (last? == last?') = true) :
    List.Forall₂ (fun a b => (a == b) = true) (Transaction.distinctNames last? l)
      (Transaction.distinctNames last?' l') := by
  induction h generalizing last? last?' with
  | nil => exact .nil
  | cons hab _ ih =>
      rename_i a b l l' _
      have hcond : (last? == some a.1) = (last?' == some b.1) := by
        cases last? with
        | none =>
            cases last?' with
            | none => rfl
            | some n' => cases hlast
        | some n =>
            cases last?' with
            | none => cases hlast
            | some n' =>
                have hn : (n == n') = true := hlast
                change (n == a.1) = (n' == b.1)
                rw [BEq.congr_left hn]
                exact BEq.congr_right hab
      unfold Transaction.distinctNames
      rw [hcond]
      split
      · exact ih hlast
      · exact .cons hab (ih hab)

end Listing

/-- Positions that are related and belong to the lists are related in a further way. -/
theorem forall₂_imp_of_mem {α β : Type} {R S : α → β → Prop} {l : List α} {l' : List β}
    (h : List.Forall₂ R l l') (hS : ∀ a ∈ l, ∀ b ∈ l', R a b → S a b) : List.Forall₂ S l l' := by
  induction h with
  | nil => exact .nil
  | cons hab _ ih =>
      refine .cons (hS _ List.mem_cons_self _ List.mem_cons_self hab) (ih ?_)
      intro a ha b hb
      exact hS a (List.mem_cons_of_mem _ ha) b (List.mem_cons_of_mem _ hb)

/-- Nodes in name order: the way in which a transaction sees them. -/
structure NodeListing (view : Name → Option Node) (l : List (Name × Node)) : Prop where
  sorted : l.Pairwise fun a b => Name.compare a.1 b.1 = .lt
  lookup_eq : ∀ n, OrderedMap.lookup Name.compare n l = view n

/-- Listings of nodes with the same content list alike nodes under equal names. -/
theorem NodeListing.forall₂_alike {view view' : Name → Option Node} {l l' : List (Name × Node)}
    (h : NodeListing view l) (h' : NodeListing view' l')
    (hkeyed : ∀ n node, view n = some node → node.Keyed)
    (hkeyed' : ∀ n node, view' n = some node → node.Keyed)
    (hcontent : ∀ n, (view n).map Node.content = (view' n).map Node.content) :
    List.Forall₂ (fun a b => (a.1 == b.1) = true ∧ a.2.Alike b.2) l l' := by
  have hmem {view : Name → Option Node} {l : List (Name × Node)} (h : NodeListing view l)
      (n : Name) : (∃ k ∈ l.map (·.1), Name.compare n k = .eq) ↔
        ((view n).map Node.content).isSome = true := by
    rw [← h.lookup_eq, Option.isSome_map, ← Option.ne_none_iff_isSome, Ne,
      OrderedMap.lookup_eq_none_iff]
    simp
  have hnames : List.Forall₂ (fun a b => Name.compare a b = .eq) (l.map (·.1)) (l'.map (·.1)) := by
    refine OrderedMap.forall₂_of_sorted (List.pairwise_map.mpr h.sorted)
      (List.pairwise_map.mpr h'.sorted) fun n => ?_
    rw [hmem h, hmem h', hcontent]
  rw [List.forall₂_map_left_iff, List.forall₂_map_right_iff] at hnames
  refine forall₂_imp_of_mem hnames ?_
  intro a ha b hb hab
  have hview : view a.1 = some a.2 := by
    rw [← h.lookup_eq]
    exact OrderedMap.lookup_eq_some_of_mem h.sorted ha Std.ReflCmp.compare_self
  have hview' : view' a.1 = some b.2 := by
    rw [← h'.lookup_eq]
    exact OrderedMap.lookup_eq_some_of_mem h'.sorted hb hab
  have heq := hcontent a.1
  rw [hview, hview'] at heq
  exact ⟨Name.compare_eq_iff.mp hab, Node.alike_of_content_eq (hkeyed _ _ hview)
    (hkeyed' _ _ hview') (Option.some.inj heq)⟩

end DnsZone
