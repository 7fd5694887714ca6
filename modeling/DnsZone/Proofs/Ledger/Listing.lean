import DnsZone.Proofs.Ledger.Basic
import DnsZone.Proofs.Transaction.Shows

/-!
# Record sets in a table and in a listing

A transaction sees the record sets of a table if it finds the same under every name and key, finds
something at the same names, and lists the same. The last two follow from the first: a listing in
the order of names is told from another one by what it has at each name only.
-/

namespace DnsZone

namespace Listing

/-- The names stand in canonical order. -/
def Ordered (l : List (Name × RecordSet)) : Prop :=
  l.Pairwise fun a b => Name.compare a.1 b.1 ≠ .gt

@[simp] theorem setsAt_nil (n : Name) : setsAt [] n = [] := rfl

theorem setsAt_cons (e : Name × RecordSet) (l : List (Name × RecordSet)) (n : Name) :
    setsAt (e :: l) n = if e.1 == n then e.2 :: setsAt l n else setsAt l n := by
  rw [setsAt, List.filter_cons]
  split <;> rfl

/-- Nothing is listed at a name before all others. -/
theorem setsAt_eq_nil {l : List (Name × RecordSet)} {n : Name}
    (h : ∀ e ∈ l, Name.compare n e.1 = .lt) : setsAt l n = [] := by
  rw [setsAt, List.map_eq_nil_iff, List.filter_eq_nil_iff]
  intro e he hn
  have heq := Std.OrientedCmp.eq_symm (Name.compare_eq_iff.mpr hn)
  rw [h e he] at heq
  cases heq

/-- What comes after a name that another one is before. -/
theorem lt_of_mem_cons {a b : Name × RecordSet} {l : List (Name × RecordSet)}
    (hb : ∀ e ∈ l, Name.compare b.1 e.1 ≠ .gt) (hab : Name.compare a.1 b.1 = .lt) :
    ∀ e ∈ b :: l, Name.compare a.1 e.1 = .lt := by
  intro e he
  rcases List.mem_cons.mp he with rfl | he
  · exact hab
  · exact Std.TransCmp.lt_of_lt_of_isLE hab (Ordering.ne_gt_iff_isLE.mp (hb e he))

/-- Listings in order with as many record sets at each name have equal names at the same places. -/
theorem forall₂_of_length_setsAt {l l' : List (Name × RecordSet)} (h : Ordered l)
    (h' : Ordered l') (hlen : ∀ n, (setsAt l n).length = (setsAt l' n).length) :
    List.Forall₂ (fun a b => (a.1 == b.1) = true) l l' := by
  induction l generalizing l' with
  | nil =>
      cases l' with
      | nil => exact .nil
      | cons b l' =>
          have hb := hlen b.1
          simp [setsAt_cons] at hb
  | cons a l ih =>
      cases l' with
      | nil =>
          have ha := hlen a.1
          simp [setsAt_cons] at ha
      | cons b l' =>
          obtain ⟨ha, hl⟩ := List.pairwise_cons.mp h
          obtain ⟨hb, hl'⟩ := List.pairwise_cons.mp h'
          have hab : (a.1 == b.1) = true := by
            rw [← Name.compare_eq_iff]
            cases hc : Name.compare a.1 b.1 with
            | eq => rfl
            | lt =>
                have hlen := hlen a.1
                rw [setsAt_eq_nil (lt_of_mem_cons hb hc)] at hlen
                simp [setsAt_cons] at hlen
            | gt =>
                have hlen := hlen b.1
                rw [setsAt_eq_nil (lt_of_mem_cons ha (Std.OrientedCmp.lt_of_gt hc))] at hlen
                simp [setsAt_cons] at hlen
          refine .cons hab (ih hl hl' fun n => ?_)
          have hn := hlen n
          rw [setsAt_cons, setsAt_cons, BEq.congr_left hab] at hn
          split at hn
          · simpa using hn
          · exact hn

/-- Listings in order agree if they have the same record sets at each name. -/
theorem agree_of_perm {l l' : List (Name × RecordSet)} (h : Ordered l) (h' : Ordered l')
    (hsets : ∀ n, (setsAt l n).Perm (setsAt l' n)) : Agree l l' where
  names := forall₂_of_length_setsAt h h' fun n => (hsets n).length_eq
  sets := hsets

theorem ordered_ownedSets {nodes : List (Name × Node)}
    (h : nodes.Pairwise fun a b => Name.compare a.1 b.1 = .lt) : Ordered (ownedSets nodes) := by
  rw [Ordered, ownedSets, List.pairwise_flatMap]
  refine ⟨fun e _ => ?_, h.imp fun {a b} hab => ?_⟩
  · rw [List.pairwise_map]
    exact List.pairwise_of_forall fun _ _ => by simp [Std.ReflCmp.compare_self]
  · intro x hx y hy
    obtain ⟨_, _, rfl⟩ := List.mem_map.mp hx
    obtain ⟨_, _, rfl⟩ := List.mem_map.mp hy
    simp [hab]

/-- At each name a listing has the record sets of the node there. -/
theorem setsAt_ownedSets {view : Name → Option Node} {nodes : List (Name × Node)}
    (h : NodeListing view nodes) (n : Name) :
    setsAt (ownedSets nodes) n = ((view n).map Node.recordSets).getD [] := by
  rw [← h.lookup_eq]
  have hsorted := h.sorted
  clear h
  induction nodes with
  | nil => rfl
  | cons e nodes ih =>
      obtain ⟨he, htail⟩ := List.pairwise_cons.mp hsorted
      rw [ownedSets, List.flatMap_cons, setsAt_append, setsAt_node, ← ownedSets, ih htail,
        NameMap.lookup_cons, BEq.comm]
      by_cases hn : (n == e.1) = true
      · have hnone : OrderedMap.lookup Name.compare n nodes = none :=
          OrderedMap.lookup_eq_none_of_lt (Name.compare_eq_iff.mpr hn) he
        simp [hn, hnone]
      · simp [hn]

end Listing

namespace SetTable

open Listing

/-- Every record set stands under its own key. -/
def Keyed (m : SetTable) : Prop := ∀ n key s, m.set? n key = some s → s.key = key

theorem ordered_listing (m : SetTable) : Ordered (listing m) :=
  List.pairwise_map.mpr (m.sorted.imp OwnedKey.owner_ne_gt_of_lt)

theorem mem_setsAt_listing {m : SetTable} (h : Keyed m) {n : Name} {s : RecordSet} :
    s ∈ setsAt (listing m) n ↔ set? m n s.key = some s := by
  simp only [setsAt, listing, List.mem_map, List.mem_filter]
  constructor
  · rintro ⟨_, ⟨⟨e, he, rfl⟩, hn⟩, rfl⟩
    have hkey := h e.1.owner e.1.key e.2 (OrderedMap.find?_self_of_mem he)
    refine OrderedMap.find?_eq_some_of_mem he (OwnedKey.compare_eq_iff.mpr ⟨BEq.symm hn, hkey⟩)
  · intro hs
    obtain ⟨e, he, hcmp, rfl⟩ := OrderedMap.mem_of_find?_eq_some hs
    exact ⟨_, ⟨⟨e, he, rfl⟩, BEq.symm (OwnedKey.compare_eq_iff.mp hcmp).1⟩, rfl⟩

theorem nodup_setsAt_listing {m : SetTable} (h : Keyed m) (n : Name) :
    (setsAt (listing m) n).Nodup := by
  rw [setsAt, listing, List.filter_map, List.map_map]
  refine List.Pairwise.map _ (fun _ _ => id) ?_
  rw [List.pairwise_filter]
  refine List.Pairwise.imp_of_mem ?_ m.sorted
  intro a b ha hb hab han hbn heq
  -- two entries at one name with the same set would have the same key
  have hkey := h a.1.owner a.1.key a.2 (OrderedMap.find?_self_of_mem ha)
  have hkey' := h b.1.owner b.1.key b.2 (OrderedMap.find?_self_of_mem hb)
  have hcmp : OwnedKey.compare a.1 b.1 = .eq := by
    refine OwnedKey.compare_eq_iff.mpr ⟨BEq.trans han (BEq.symm hbn), ?_⟩
    rw [← hkey, ← hkey']
    exact congrArg RecordSet.key heq
  rw [hab] at hcmp
  cases hcmp

/-! ### The table of a listing -/

theorem lookup_recordSets (n m : Name) (node : Node) (key : SetKey) :
    OrderedMap.lookup OwnedKey.compare ⟨n, key⟩
        (node.recordSets.map fun s => ((⟨m, s.key⟩ : OwnedKey), s)) =
      if n == m then node.find? key else none := by
  obtain ⟨tag, sets⟩ := node
  induction sets with
  | nil => simp [Node.recordSets, Node.find?, Node.shared?]
  | cons s sets ih =>
      simp only [Node.recordSets, List.map_cons, OrderedMap.lookup_cons,
        OwnedKey.compare_eq_iff] at ih ⊢
      rw [ih, Node.find?_cons]
      by_cases hn : (n == m) = true
      · simp [hn, eq_comm]
      · simp [hn]

theorem lookup_ownedSets {view : Name → Option Node} {nodes : List (Name × Node)}
    (h : NodeListing view nodes) (n : Name) (key : SetKey) :
    OrderedMap.lookup OwnedKey.compare ⟨n, key⟩
        ((ownedSets nodes).map fun e => ((⟨e.1, e.2.key⟩ : OwnedKey), e.2)) =
      (view n).bind fun node => node.find? key := by
  rw [← h.lookup_eq]
  have hsorted := h.sorted
  clear h
  induction nodes with
  | nil => rfl
  | cons e nodes ih =>
      obtain ⟨he, htail⟩ := List.pairwise_cons.mp hsorted
      rw [ownedSets, List.flatMap_cons, List.map_append, OrderedMap.lookup_append, ← ownedSets,
        ih htail, List.map_map, NameMap.lookup_cons]
      have hnode := lookup_recordSets n e.1 e.2 key
      rw [Function.comp_def, hnode]
      by_cases hn : (n == e.1) = true
      · have hnone : OrderedMap.lookup Name.compare n nodes = none :=
          OrderedMap.lookup_eq_none_of_lt (Name.compare_eq_iff.mpr hn) he
        simp [hn, hnone]
      · simp [hn]

/-- In the table of a listing is found what is found in its nodes. -/
theorem set?_ofListing_ownedSets {view : Name → Option Node} {nodes : List (Name × Node)}
    (h : NodeListing view nodes) (n : Name) (key : SetKey) :
    set? (ofListing (ownedSets nodes)) n key = (view n).bind fun node => node.find? key := by
  rw [set?_ofListing, lookup_ownedSets h]

/-! ### Seeing a table -/

variable {ζ τ : Type} [Access τ] [Backend ζ τ]

/-- The transaction sees exactly the record sets of the table. -/
structure SeenBy (z : ζ) (a : τ) (m : SetTable) : Prop where
  find? : ∀ n key, Backend.find? z a n key = m.set? n key
  contains : ∀ n, Backend.contains z a n = m.hasName n
  sets : Agree (Backend.sets z a) m.listing

variable {z : ζ} {a : τ} {c : Content} {m : SetTable}

/-- Who finds the record sets of a table, and no nodes without record sets, sees the table. -/
theorem seenBy_of_shows (h : Shows z a c)
    (hsolid : ∀ n node, Backend.node? z a n = some node → node.isEmpty = false)
    (hm : ∀ n key, c.set? n key = m.set? n key) : m.SeenBy z a := by
  have hfind (n : Name) (key : SetKey) :
      (Backend.node? z a n).bind (fun node => node.find? key) = m.set? n key := by
    rw [← h.find?_eq_bind, h.find?, hm]
  have hkeyed : Keyed m := by
    intro n key s hs
    rw [← hfind] at hs
    obtain ⟨node, _, hs⟩ := Option.bind_eq_some_iff.mp hs
    exact (Node.mem_of_find?_eq_some hs).2
  refine ⟨fun n key => (h.find? n key).trans (hm n key), fun n => ?_, ?_⟩
  · rw [Bool.eq_iff_iff, h.contains_iff hsolid, hasName_iff]
    simp only [h.find?, hm]
  · obtain ⟨nodes, hlisting, hsets⟩ := h.sets
    rw [hsets]
    refine agree_of_perm (ordered_ownedSets hlisting.sorted) m.ordered_listing fun n => ?_
    rw [setsAt_ownedSets hlisting]
    cases hnode : Backend.node? z a n with
    | none =>
        rw [List.perm_ext_iff_of_nodup (by simp) (nodup_setsAt_listing hkeyed n)]
        intro s
        rw [mem_setsAt_listing hkeyed, ← hfind, hnode]
        simp
    | some node =>
        have hnode_keyed := h.keyed n node hnode
        have hnodup : node.recordSets.Nodup := Node.nodup_recordSets hnode_keyed
        refine (List.perm_ext_iff_of_nodup hnodup (nodup_setsAt_listing hkeyed n)).mpr fun s => ?_
        rw [mem_setsAt_listing hkeyed, ← hfind, hnode]
        exact Node.mem_recordSets_iff hnode_keyed

end SetTable

end DnsZone
