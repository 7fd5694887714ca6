import DnsZone.PlainZone.Staging
import DnsZone.Proofs.Content

/-!
# What staged changes amount to

The overlay of a writer finds what became of each record set. Together with what is not hidden this
gives the content that the writer sees, on which each change acts at one name.
-/

namespace DnsZone

namespace Node

/-- What a staged change leaves of a record set. -/
def stagedSet? : Staged → Option RecordSet
  | .put s => some s.value
  | .tombstone => none

/-- Changes staged at one name store record sets under their own keys. -/
def WellKeyed (changes : NameChanges) : Prop :=
  ∀ e ∈ changes, ∀ s, e.2 = .put s → s.value.key = e.1

theorem find?_applyStaged {node : Node} {e : SetKey × Staged}
    (h : ∀ s, e.2 = .put s → s.value.key = e.1) (key : SetKey) :
    (node.applyStaged e).find? key = if e.1 = key then stagedSet? e.2 else node.find? key := by
  obtain ⟨k, staged⟩ := e
  cases staged with
  | put s =>
      have hs : s.value.key = k := h s rfl
      simp [applyStaged, find?_replace, hs, stagedSet?]
  | tombstone => simp [applyStaged, find?_erase, stagedSet?]

@[simp] theorem tag_foldl_applyStaged (changes : NameChanges) (node : Node) :
    (changes.foldl applyStaged node).tag = node.tag := by
  induction changes generalizing node with
  | nil => rfl
  | cons e changes ih =>
      rw [List.foldl_cons, ih]
      obtain ⟨k, staged⟩ := e
      cases staged <;> rfl

theorem keyed_foldl_applyStaged (changes : NameChanges) {node : Node} (h : node.Keyed) :
    (changes.foldl applyStaged node).Keyed := by
  induction changes generalizing node with
  | nil => exact h
  | cons e changes ih =>
      obtain ⟨k, staged⟩ := e
      cases staged with
      | put s => exact ih (keyed_replace h s)
      | tombstone => exact ih (keyed_erase h k)

/-- Changes staged in the order of their keys act on each record set by themselves. -/
theorem find?_foldl_applyStaged {changes : NameChanges} (node : Node) (hkeyed : WellKeyed changes)
    (hsorted : changes.Pairwise fun a b => SetKey.compare a.1 b.1 = .lt) (key : SetKey) :
    (changes.foldl applyStaged node).find? key =
      ((OrderedMap.lookup SetKey.compare key changes).map stagedSet?).getD (node.find? key) := by
  induction changes generalizing node with
  | nil => rfl
  | cons e changes ih =>
      obtain ⟨he, htail⟩ := List.pairwise_cons.mp hsorted
      obtain ⟨hek, hkeyed'⟩ := List.forall_mem_cons.mp hkeyed
      rw [List.foldl_cons, ih _ hkeyed' htail, OrderedMap.lookup_cons, find?_applyStaged hek]
      by_cases h : e.1 = key
      · have hcmp : SetKey.compare key e.1 = .eq := SetKey.compare_eq_iff.mpr h.symm
        -- no later change concerns the same key
        have hnone : OrderedMap.lookup SetKey.compare key changes = none :=
          OrderedMap.lookup_eq_none_of_lt hcmp he
        rw [hnone, if_pos h, if_pos hcmp]
        rfl
      · have hcmp : SetKey.compare key e.1 ≠ .eq := fun hc => h (SetKey.compare_eq_iff.mp hc).symm
        rw [if_neg h, if_neg hcmp]

@[simp] theorem tag_merge (tag : VersionId) (below? : Option Node) (changes : NameChanges) :
    (merge tag below? changes).tag = tag := by
  rw [merge, tag_foldl_applyStaged]
  cases below? <;> rfl

theorem keyed_merge (tag : VersionId) {below? : Option Node} (changes : NameChanges)
    (h : ∀ node ∈ below?, node.Keyed) : (merge tag below? changes).Keyed := by
  refine keyed_foldl_applyStaged changes ?_
  cases below? with
  | none => exact keyed_empty tag
  | some node => exact h node rfl

theorem find?_merge (tag : VersionId) (below? : Option Node) {changes : NameChanges}
    (hkeyed : WellKeyed changes)
    (hsorted : changes.Pairwise fun a b => SetKey.compare a.1 b.1 = .lt) (key : SetKey) :
    (merge tag below? changes).find? key =
      ((OrderedMap.lookup SetKey.compare key changes).map stagedSet?).getD
        (below?.bind fun node => node.find? key) := by
  rw [merge, find?_foldl_applyStaged _ hkeyed hsorted]
  cases below? <;> rfl

end Node

namespace OwnedKey

theorem compare_eq_iff {a b : OwnedKey} :
    compare a b = .eq ↔ (a.owner == b.owner) = true ∧ a.key = b.key := by
  rw [compare, compareLex_eq_eq, Order.onKey, Order.onKey, Name.compare_eq_iff,
    SetKey.compare_eq_iff]

theorem compare_eq_lt_iff {a b : OwnedKey} :
    compare a b = .lt ↔ Name.compare a.owner b.owner = .lt ∨
      Name.compare a.owner b.owner = .eq ∧ SetKey.compare a.key b.key = .lt := by
  rw [compare, compareLex, Ordering.then_eq_lt]
  rfl

theorem owner_ne_gt_of_lt {a b : OwnedKey} (h : compare a b = .lt) :
    Name.compare a.owner b.owner ≠ .gt := by
  rcases compare_eq_lt_iff.mp h with h | h
  · simp [h]
  · simp [h.1]

/-- Below the least key at a name are exactly the keys at names below. -/
theorem compare_least_eq_lt_iff {a : OwnedKey} {n : Name} :
    compare a ⟨n, .least⟩ = .lt ↔ Name.compare a.owner n = .lt := by
  rw [compare_eq_lt_iff]
  constructor
  · rintro (h | h)
    · exact h
    · exact absurd h.2 (SetKey.compare_least_ne_lt a.key)
  · exact .inl

end OwnedKey

namespace Overlay

/-- The changes at a name are all those that concern the name. -/
theorem changesAt_eq_filter (o : Overlay) (n : Name) :
    o.changesAt n = (o.toList.filter fun e => e.1.owner == n).map fun e => (e.1.key, e.2) := by
  have hlt : (fun e : OwnedKey × Staged => OwnedKey.compare e.1 ⟨n, .least⟩ == .lt) =
      fun e => Name.compare e.1.owner n == .lt := by
    funext e
    rw [Bool.eq_iff_iff, beq_iff_eq, beq_iff_eq, OwnedKey.compare_least_eq_lt_iff]
  have heq : (fun e : OwnedKey × Staged => e.1.owner == n) =
      fun e => Name.compare e.1.owner n == .eq := by
    funext e
    rw [Bool.eq_iff_iff, ← Name.compare_eq_iff, beq_iff_eq]
  have hsorted : o.toList.Pairwise fun a b => Name.compare a.1.owner b.1.owner ≠ .gt :=
    o.sorted.imp OwnedKey.owner_ne_gt_of_lt
  rw [changesAt, hlt, heq, OrderedMap.takeWhile_dropWhile_of_sorted _ _ hsorted]

/-- What is found at a name by key is what the overlay holds. -/
theorem lookup_changesAt (o : Overlay) (n : Name) (key : SetKey) :
    OrderedMap.lookup SetKey.compare key (o.changesAt n) = o.find? ⟨n, key⟩ := by
  rw [changesAt_eq_filter, OrderedMap.find?]
  induction o.toList with
  | nil => rfl
  | cons e l ih =>
      rw [List.filter_cons, OrderedMap.lookup_cons, ← ih]
      by_cases hn : (e.1.owner == n) = true
      · have hn' : (n == e.1.owner) = true := BEq.symm hn
        rw [if_pos hn, List.map_cons, OrderedMap.lookup_cons]
        simp only [OwnedKey.compare_eq_iff, SetKey.compare_eq_iff, hn', true_and]
      · have hn' : ¬ (n == e.1.owner) = true := fun h => hn (BEq.symm h)
        rw [if_neg hn, if_neg (by simp [OwnedKey.compare_eq_iff, hn'])]

theorem sorted_changesAt (o : Overlay) (n : Name) :
    (o.changesAt n).Pairwise fun a b => SetKey.compare a.1 b.1 = .lt := by
  rw [changesAt_eq_filter, List.pairwise_map, List.pairwise_filter]
  refine o.sorted.imp ?_
  intro a b hab ha hb
  rcases OwnedKey.compare_eq_lt_iff.mp hab with h | h
  · have heq : Name.compare a.1.owner b.1.owner = .eq :=
      Name.compare_eq_iff.mpr (BEq.trans ha (BEq.symm hb))
    rw [heq] at h
    cases h
  · exact h.2

theorem changesAt_eq_nil_iff {o : Overlay} {n : Name} :
    o.changesAt n = [] ↔ ∀ key, o.find? ⟨n, key⟩ = none := by
  constructor
  · intro h key
    rw [← lookup_changesAt, h]
    rfl
  · intro h
    rw [List.eq_nil_iff_forall_not_mem]
    intro e he
    have hfound := OrderedMap.lookup_eq_some_of_mem (o.sorted_changesAt n) he
      Std.ReflCmp.compare_self
    rw [lookup_changesAt, h] at hfound
    cases hfound

theorem find?_congr (o : Overlay) {n n' : Name} (h : (n == n') = true) (key : SetKey) :
    o.find? ⟨n, key⟩ = o.find? ⟨n', key⟩ :=
  OrderedMap.find?_congr o (OwnedKey.compare_eq_iff.mpr ⟨h, rfl⟩)

theorem find?_insert (o : Overlay) (n m : Name) (key key' : SetKey) (staged : Staged) :
    OrderedMap.find? (o.insert ⟨n, key⟩ staged) ⟨m, key'⟩ =
      if (m == n) = true ∧ key' = key then some staged else o.find? ⟨m, key'⟩ := by
  rw [OrderedMap.find?_insert]
  simp only [OwnedKey.compare_eq_iff]

theorem find?_eraseAt (o : Overlay) (n m : Name) (key : SetKey) :
    (o.eraseAt n).find? ⟨m, key⟩ = if m == n then none else o.find? ⟨m, key⟩ := by
  have hfold : o.eraseAt n =
      ((o.changesAt n).map fun e => (⟨n, e.1⟩ : OwnedKey)).foldl OrderedMap.erase o := by
    rw [List.foldl_map]
    rfl
  rw [hfold, OrderedMap.find?_foldl_erase]
  by_cases hm : (m == n) = true
  · rw [if_pos hm]
    cases hfound : o.find? ⟨m, key⟩ with
    | none => exact ite_self none
    | some staged =>
        rw [o.find?_congr hm, ← lookup_changesAt] at hfound
        obtain ⟨e, he, _⟩ := Option.map_eq_some_iff.mp hfound
        have hkey : key = e.1 := SetKey.compare_eq_iff.mp (by simpa using List.find?_some he)
        refine if_pos ⟨⟨n, e.1⟩, ?_, OwnedKey.compare_eq_iff.mpr ⟨hm, hkey⟩⟩
        exact List.mem_map_of_mem (List.mem_of_find?_eq_some he)
  · rw [if_neg hm, if_neg]
    rintro ⟨k, hk, hcmp⟩
    obtain ⟨e, _, rfl⟩ := List.mem_map.mp hk
    exact hm (OwnedKey.compare_eq_iff.mp hcmp).1

/-- Every record set that was stored was stored under its own key. -/
def Proper (o : Overlay) : Prop :=
  ∀ n key s, o.find? ⟨n, key⟩ = some (.put s) → s.value.key = key

theorem proper_empty : Proper .empty := by
  intro n key s h
  cases h

theorem proper_insert {o : Overlay} (h : o.Proper) {n : Name} {key : SetKey} {staged : Staged}
    (hstaged : ∀ s, staged = .put s → s.value.key = key) :
    Proper (o.insert ⟨n, key⟩ staged) := by
  intro m key' s hs
  rw [find?_insert] at hs
  split at hs
  · rename_i hm
    cases hs
    rw [hm.2]
    exact hstaged s rfl
  · exact h m key' s hs

theorem proper_eraseAt {o : Overlay} (h : o.Proper) (n : Name) : (o.eraseAt n).Proper := by
  intro m key s hs
  rw [find?_eraseAt] at hs
  split at hs
  · cases hs
  · exact h m key s hs

theorem wellKeyed_changesAt {o : Overlay} (h : o.Proper) (n : Name) :
    Node.WellKeyed (o.changesAt n) := by
  intro e he s hs
  have hfound := OrderedMap.lookup_eq_some_of_mem (o.sorted_changesAt n) he
    Std.ReflCmp.compare_self
  rw [lookup_changesAt, hs] at hfound
  exact h n e.1 s hfound

end Overlay

namespace Staging

/-- The node below the overlay at a name, unless it is hidden. -/
def below? (s : Staging) (nodes : NameMap (Shared Node)) (n : Name) : Option Node :=
  if s.hides n then none else (nodes.find? n).map (·.value)

/-- The content that a writer sees. -/
def content (s : Staging) (nodes : NameMap (Shared Node)) (tag : VersionId) : Content := fun n =>
  (s.node? nodes tag n).map Node.content

theorem hides_congr (s : Staging) {n n' : Name} (h : (n == n') = true) :
    s.hides n = s.hides n' := by
  rw [hides, hides, OrderedMap.contains, OrderedMap.contains,
    OrderedMap.find?_congr s.wiped (Name.compare_eq_iff.mpr h)]

theorem find?_eq (s : Staging) (nodes : NameMap (Shared Node)) (n : Name) (key : SetKey) :
    s.find? nodes n key = ((s.overlay.find? ⟨n, key⟩).map Node.stagedSet?).getD
      ((s.below? nodes n).bind fun node => node.find? key) := by
  rw [find?, below?]
  cases h : s.overlay.find? ⟨n, key⟩ with
  | none =>
      by_cases hh : s.hides n = true
      · simp only [if_pos hh]
        rfl
      · simp only [if_neg hh, Option.bind_map]
        rfl
  | some staged => cases staged <;> rfl

/-- Where nothing is staged, a writer sees the node below; elsewhere it sees a node of its own with
the record sets that it finds. -/
theorem content_apply {s : Staging} (h : s.overlay.Proper) (nodes : NameMap (Shared Node))
    (tag : VersionId) (n : Name) :
    s.content nodes tag n =
      if s.overlay.changesAt n = [] then (s.below? nodes n).map Node.content
      else NodeContent.ofSets? tag (s.find? nodes n) := by
  have hnode : s.node? nodes tag n =
      if s.overlay.changesAt n = [] then s.below? nodes n
      else if (Node.merge tag (s.below? nodes n) (s.overlay.changesAt n)).isEmpty then none
      else some (Node.merge tag (s.below? nodes n) (s.overlay.changesAt n)) := by
    rw [node?]
    cases s.overlay.changesAt n <;> rfl
  have hsets : (Node.merge tag (s.below? nodes n) (s.overlay.changesAt n)).find? =
      s.find? nodes n := by
    funext key
    rw [Node.find?_merge _ _ (s.overlay.wellKeyed_changesAt h n) (s.overlay.sorted_changesAt n),
      Overlay.lookup_changesAt, find?_eq]
  rw [content, hnode]
  split
  · rfl
  · rw [Node.map_content_of_isEmpty, hsets, Node.tag_merge]

theorem set?_content {s : Staging} (h : s.overlay.Proper) (nodes : NameMap (Shared Node))
    (tag : VersionId) (n : Name) (key : SetKey) :
    (s.content nodes tag).set? n key = s.find? nodes n key := by
  rw [Content.set?, content_apply h]
  split
  · rename_i hnil
    rw [Option.bind_map, find?_eq, Overlay.changesAt_eq_nil_iff.mp hnil key]
    rfl
  · exact NodeContent.bind_ofSets? tag _ key

/-! ### The content after a change -/

/-- At a name of which neither the staged changes nor the hiding differ, the same is seen. -/
theorem content_frame {s s' : Staging} (h : s.overlay.Proper) (h' : s'.overlay.Proper)
    (nodes : NameMap (Shared Node)) (tag : VersionId) {m : Name}
    (hsame : ∀ key, s'.overlay.find? ⟨m, key⟩ = s.overlay.find? ⟨m, key⟩)
    (hhides : s'.hides m = s.hides m) : s'.content nodes tag m = s.content nodes tag m := by
  have hbelow : s'.below? nodes m = s.below? nodes m := by
    rw [below?, below?, hhides]
  have hnil : s'.overlay.changesAt m = [] ↔ s.overlay.changesAt m = [] := by
    simp only [Overlay.changesAt_eq_nil_iff, hsame]
  have hfind : s'.find? nodes m = s.find? nodes m := by
    funext key
    rw [find?_eq, find?_eq, hsame, hbelow]
  rw [content_apply h', content_apply h, hbelow, hfind]
  simp only [hnil]

/-- A change staged under one key is what is found there from then on. -/
theorem content_stage {s s' : Staging} (h : s.overlay.Proper) (h' : s'.overlay.Proper)
    (nodes : NameMap (Shared Node)) (tag : VersionId) {n : Name} {key : SetKey} {staged : Staged}
    (hoverlay : s'.overlay = s.overlay.insert ⟨n, key⟩ staged)
    (hhides : ∀ m, s'.hides m = s.hides m) (m : Name) :
    s'.content nodes tag m =
      if m == n then
        NodeContent.ofSets? tag fun key' =>
          if key = key' then Node.stagedSet? staged else (s.content nodes tag).set? m key'
      else s.content nodes tag m := by
  by_cases hm : (m == n) = true
  · have hbelow : s'.below? nodes m = s.below? nodes m := by
      rw [below?, below?, hhides]
    have hne : s'.overlay.changesAt m ≠ [] := by
      rw [Ne, Overlay.changesAt_eq_nil_iff]
      intro hnone
      have hkey := hnone key
      rw [hoverlay, Overlay.find?_insert, if_pos ⟨hm, rfl⟩] at hkey
      cases hkey
    rw [content_apply h', if_neg hne, if_pos hm]
    congr 1
    funext key'
    rw [find?_eq, hoverlay, Overlay.find?_insert, hbelow, set?_content h, find?_eq]
    by_cases hkey : key = key'
    · rw [if_pos ⟨hm, hkey.symm⟩, if_pos hkey]
      rfl
    · rw [if_neg (fun hk => hkey hk.2.symm), if_neg hkey]
  · rw [if_neg hm]
    refine content_frame h h' nodes tag (fun key' => ?_) (hhides m)
    rw [hoverlay, Overlay.find?_insert, if_neg (fun hk => hm hk.1)]

theorem content_put {s : Staging} (h : s.overlay.Proper) (nodes : NameMap (Shared Node))
    (tag : VersionId) (n : Name) (set : RecordSet) :
    (s.put n set).content nodes tag = (s.content nodes tag).put tag n set := by
  have h' : (s.put n set).overlay.Proper :=
    Overlay.proper_insert h fun s' hs' => by cases hs'; rfl
  funext m
  rw [content_stage h h' nodes tag rfl (fun _ => rfl) m, Content.put]
  split
  · rw [NodeContent.ofSets?, if_neg]
    · rfl
    · intro hnone
      have hkey := hnone set.key
      rw [if_pos rfl] at hkey
      cases hkey
  · rfl

theorem content_eraseSet {s : Staging} (h : s.overlay.Proper) (nodes : NameMap (Shared Node))
    (tag : VersionId) (n : Name) (key : SetKey) :
    (s.eraseSet n key).content nodes tag = (s.content nodes tag).eraseSet tag n key := by
  have h' : (s.eraseSet n key).overlay.Proper :=
    Overlay.proper_insert h fun s' hs' => by cases hs'
  funext m
  exact content_stage h h' nodes tag rfl (fun _ => rfl) m

theorem hides_eraseName (s : Staging) (n m : Name) :
    (s.eraseName n).hides m = (m == n || s.hides m) := by
  rw [hides, hides, eraseName, OrderedMap.contains, OrderedMap.find?_insert]
  simp only [Name.compare_eq_iff]
  by_cases hm : (m == n) = true
  · simp [hm]
  · simp [hm, OrderedMap.contains]

theorem content_eraseName {s : Staging} (h : s.overlay.Proper) (nodes : NameMap (Shared Node))
    (tag : VersionId) (n : Name) :
    (s.eraseName n).content nodes tag = (s.content nodes tag).eraseName n := by
  have h' : (s.eraseName n).overlay.Proper := Overlay.proper_eraseAt h n
  have hoverlay (m : Name) (key : SetKey) : (s.eraseName n).overlay.find? ⟨m, key⟩ =
      if m == n then none else s.overlay.find? ⟨m, key⟩ := s.overlay.find?_eraseAt n m key
  funext m
  rw [Content.eraseName]
  by_cases hm : (m == n) = true
  · have hnil : (s.eraseName n).overlay.changesAt m = [] := by
      rw [Overlay.changesAt_eq_nil_iff]
      intro key
      rw [hoverlay, if_pos hm]
    rw [content_apply h', if_pos hnil, if_pos hm, below?, hides_eraseName, hm]
    rfl
  · rw [if_neg hm]
    refine content_frame h h' nodes tag (fun key => ?_) ?_
    · rw [hoverlay, if_neg hm]
    · rw [hides_eraseName, Bool.eq_false_iff.mpr hm, Bool.false_or]

/-- A writer that has staged nothing sees the content of the zone, or nothing if it is to replace
it. -/
theorem content_start (replacement : Bool) (supply : Nat) (nodes : NameMap (Shared Node))
    (tag : VersionId) :
    (start replacement supply).content nodes tag =
      if replacement then Content.empty else NameMap.content nodes := by
  cases replacement with
  | true => rfl
  | false =>
      funext n
      change ((nodes.find? n).map (·.value)).map Node.content = _
      rw [Option.map_map]
      rfl

end Staging

end DnsZone
