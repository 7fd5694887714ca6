import DnsZone.Proofs.Content
import DnsZone.Version.WorkingCopy

/-!
# What working copies hold

The content of a working copy starts out as that of the version below, or empty. Each change acts on
it at one name, whether the node there was copied before or not, and freezing leaves it as it is:
the copying of nodes cannot be seen.
-/

namespace DnsZone

/-- The content of a version. -/
def Version.content (v : Version) : Content := NameMap.content v.nodes

namespace WorkingCopy

/-- The content of a working copy. -/
def content (w : WorkingCopy) : Content := fun n => (w.node? n).map Node.content

/-- Every node holds record sets, these have different keys, and the nodes of the working copy
itself carry its number. -/
structure Proper (w : WorkingCopy) : Prop where
  nodes : ∀ n slot, w.slot? n = some slot → slot.node.Keyed ∧ slot.node.isEmpty = false
  own_tag : ∀ n node, w.slot? n = some (.owned node) → node.value.tag = w.id

theorem slot?_congr (w : WorkingCopy) {n n' : Name} (h : (n == n') = true) :
    w.slot? n = w.slot? n' := OrderedMap.find?_congr w.slots (Name.compare_eq_iff.mpr h)

theorem find?_congr (w : WorkingCopy) {n n' : Name} (h : (n == n') = true) (key : SetKey) :
    w.find? n key = w.find? n' key := by
  rw [find?, find?, node?, node?, w.slot?_congr h]

theorem set?_content (w : WorkingCopy) (n : Name) (key : SetKey) :
    w.content.set? n key = w.find? n key := by
  rw [Content.set?, content, find?, Option.bind_map]
  rfl

/-! ### The node to change at a name -/

theorem find?_ownNode (w : WorkingCopy) (n : Name) (key : SetKey) :
    (w.ownNode n).value.find? key = w.find? n key := by
  rw [ownNode, find?, node?]
  cases h : w.slot? n with
  | none => rfl
  | some slot => cases slot <;> rfl

theorem tag_ownNode {w : WorkingCopy} (h : w.Proper) (n : Name) :
    (w.ownNode n).value.tag = w.id := by
  rw [ownNode]
  cases hs : w.slot? n with
  | none => rfl
  | some slot =>
      cases slot with
      | shared node => rfl
      | owned node => exact h.own_tag n node hs

theorem keyed_ownNode {w : WorkingCopy} (h : w.Proper) (n : Name) :
    (w.ownNode n).value.Keyed := by
  rw [ownNode]
  cases hs : w.slot? n with
  | none => exact Node.keyed_empty w.id
  | some slot =>
      have hkeyed := (h.nodes n slot hs).1
      cases slot <;> exact hkeyed

/-! ### What is found after a change -/

theorem slot?_store (w : WorkingCopy) (n : Name) (node : Shared Node) (supply : Nat)
    (hnode : node.stamp < supply) (hsupply : w.supply ≤ supply) (m : Name) :
    (w.store n node supply hnode hsupply).slot? m =
      if m == n then some (.owned node) else w.slot? m := by
  rw [slot?, store, OrderedMap.find?_insert]
  simp only [Name.compare_eq_iff]
  rfl

theorem slot?_put (w : WorkingCopy) (n : Name) (s : RecordSet) (m : Name) :
    (w.put n s).slot? m =
      if m == n then
        some (.owned ⟨(w.ownNode n).stamp, (w.ownNode n).value.replace ⟨w.supply + 1, s⟩⟩)
      else w.slot? m := by
  rw [put]
  exact slot?_store w n _ _ _ _ m

theorem slot?_removeName (w : WorkingCopy) (n m : Name) :
    (w.removeName n).slot? m = if m == n then none else w.slot? m := by
  rw [slot?, removeName, OrderedMap.find?_erase]
  simp only [Name.compare_eq_iff]
  rfl

/-- Deleting a name leaves nothing there, also where nothing was there before. -/
theorem slot?_eraseName (w : WorkingCopy) (n m : Name) :
    (w.eraseName n).slot? m = if m == n then none else w.slot? m := by
  rw [eraseName]
  by_cases h : w.slots.contains n = true
  · rw [if_pos h]
    exact slot?_removeName w n m
  · rw [if_neg h]
    by_cases hm : (m == n) = true
    · have hnone : w.slot? n = none := by
        rw [slot?]
        simpa [OrderedMap.contains] using h
      rw [if_pos hm, w.slot?_congr hm, hnone]
    · rw [if_neg hm]

theorem slot?_eraseSet {w : WorkingCopy} {n : Name} {key : SetKey}
    (h : (w.find? n key).isSome = true) (m : Name) :
    (w.eraseSet n key).slot? m =
      if m == n then
        if ((w.ownNode n).value.erase key).isEmpty then none
        else some (.owned ⟨(w.ownNode n).stamp, (w.ownNode n).value.erase key⟩)
      else w.slot? m := by
  rw [eraseSet, if_pos h]
  by_cases he : ((w.ownNode n).value.erase key).isEmpty = true
  · simp only [he, ↓reduceIte]
    rw [slot?_removeName, slot?_store]
    split <;> rfl
  · simp only [he, Bool.false_eq_true, ↓reduceIte]
    rw [slot?_store]

/-! ### The content after a change -/

theorem content_put {w : WorkingCopy} (h : w.Proper) (n : Name) (s : RecordSet) :
    (w.put n s).content = w.content.put w.id n s := by
  funext m
  rw [content, node?, slot?_put, Content.put]
  by_cases hm : (m == n) = true
  · rw [if_pos hm, if_pos hm, Option.map_some, Option.map_some]
    congr 1
    ext1
    · exact tag_ownNode h n
    · funext key
      change Node.find? ((w.ownNode n).value.replace ⟨w.supply + 1, s⟩) key = _
      rw [Node.find?_replace, find?_ownNode]
      simp only [set?_content, w.find?_congr hm]
  · rw [if_neg hm, if_neg hm]
    rfl

theorem content_eraseName (w : WorkingCopy) (n : Name) :
    (w.eraseName n).content = w.content.eraseName n := by
  funext m
  rw [content, node?, slot?_eraseName, Content.eraseName]
  by_cases hm : (m == n) = true
  · rw [if_pos hm, if_pos hm]
    rfl
  · rw [if_neg hm, if_neg hm]
    rfl

theorem content_eraseSet {w : WorkingCopy} (h : w.Proper) {n : Name} {key : SetKey}
    (hfound : (w.find? n key).isSome = true) :
    (w.eraseSet n key).content = w.content.eraseSet w.id n key := by
  funext m
  rw [content, node?, slot?_eraseSet hfound, Content.eraseSet]
  by_cases hm : (m == n) = true
  · have hsets : (fun k => if key = k then none else w.content.set? m k) =
        ((w.ownNode n).value.erase key).find? := by
      funext k
      rw [Node.find?_erase, find?_ownNode, set?_content, w.find?_congr hm]
    have htag : ((w.ownNode n).value.erase key).tag = w.id := tag_ownNode h n
    rw [if_pos hm, if_pos hm, hsets, ← htag, ← Node.map_content_of_isEmpty]
    split <;> rfl
  · rw [if_neg hm, if_neg hm]
    rfl

/-! ### Changes keep a working copy proper -/

theorem proper_put {w : WorkingCopy} (h : w.Proper) (n : Name) (s : RecordSet) :
    (w.put n s).Proper := by
  constructor
  · intro m slot hslot
    rw [slot?_put] at hslot
    split at hslot
    · cases hslot
      exact ⟨Node.keyed_replace (keyed_ownNode h n) _, Node.isEmpty_replace _ _⟩
    · exact h.nodes m slot hslot
  · intro m node hnode
    rw [slot?_put] at hnode
    split at hnode
    · cases hnode
      exact tag_ownNode h n
    · exact h.own_tag m node hnode

theorem id_eraseName (w : WorkingCopy) (n : Name) : (w.eraseName n).id = w.id := by
  rw [eraseName]
  split <;> rfl

theorem id_eraseSet (w : WorkingCopy) (n : Name) (key : SetKey) :
    (w.eraseSet n key).id = w.id := by
  rw [eraseSet]
  split
  · simp only
    split <;> rfl
  · rfl

theorem proper_eraseName {w : WorkingCopy} (h : w.Proper) (n : Name) : (w.eraseName n).Proper := by
  constructor
  · intro m slot hslot
    rw [slot?_eraseName] at hslot
    split at hslot
    · cases hslot
    · exact h.nodes m slot hslot
  · intro m node hnode
    rw [slot?_eraseName] at hnode
    split at hnode
    · cases hnode
    · rw [id_eraseName]
      exact h.own_tag m node hnode

theorem proper_eraseSet {w : WorkingCopy} (h : w.Proper) (n : Name) (key : SetKey) :
    (w.eraseSet n key).Proper := by
  by_cases hfound : (w.find? n key).isSome = true
  · constructor
    · intro m slot hslot
      rw [slot?_eraseSet hfound] at hslot
      split at hslot
      · split at hslot
        · cases hslot
        · rename_i he
          cases hslot
          exact ⟨Node.keyed_erase (keyed_ownNode h n) key, Bool.eq_false_iff.mpr he⟩
      · exact h.nodes m slot hslot
    · intro m node hnode
      rw [slot?_eraseSet hfound] at hnode
      rw [id_eraseSet]
      split at hnode
      · split at hnode
        · cases hnode
        · cases hnode
          exact tag_ownNode h n
      · exact h.own_tag m node hnode
  · rw [eraseSet, if_neg hfound]
    exact h

/-! ### Starting and freezing a working copy -/

theorem slot?_fork (id : VersionId) (base : Version) (supply : Nat) (n : Name) :
    (fork id base supply).slot? n = (base.node? n).map Slot.shared :=
  OrderedMap.find?_mapValues Slot.shared base.nodes n

theorem content_fork (id : VersionId) (base : Version) (supply : Nat) :
    (fork id base supply).content = base.content := by
  funext n
  rw [content, node?, slot?_fork, Option.map_map, Option.map_map]
  rfl

theorem proper_fork (id : VersionId) {base : Version} (h : NameMap.Proper base.nodes)
    (supply : Nat) : (fork id base supply).Proper := by
  constructor
  · intro n slot hslot
    rw [slot?_fork] at hslot
    obtain ⟨node, hnode, rfl⟩ := Option.map_eq_some_iff.mp hslot
    exact h n node hnode
  · intro n node hnode
    rw [slot?_fork] at hnode
    obtain ⟨_, _, hslot⟩ := Option.map_eq_some_iff.mp hnode
    cases hslot

theorem proper_forkReplacing (id : VersionId) (base : Version) (supply : Nat) :
    (forkReplacing id base supply).Proper := by
  constructor
  · intro n slot hslot
    cases hslot
  · intro n node hnode
    cases hnode

theorem node?_freeze (w : WorkingCopy) (n : Name) :
    w.freeze.node? n = (w.slot? n).map Slot.object :=
  OrderedMap.find?_mapValues Slot.object w.slots n

theorem content_freeze (w : WorkingCopy) : w.freeze.content = w.content := by
  funext n
  rw [Version.content, NameMap.content, content, node?, Option.map_map]
  change (w.freeze.node? n).map _ = _
  rw [node?_freeze, Option.map_map]
  rfl

theorem proper_freeze {w : WorkingCopy} (h : w.Proper) : NameMap.Proper w.freeze.nodes := by
  intro n node hnode
  change w.freeze.node? n = some node at hnode
  rw [node?_freeze] at hnode
  obtain ⟨slot, hslot, rfl⟩ := Option.map_eq_some_iff.mp hnode
  exact h.nodes n slot hslot

/-! ### Whether there are changes -/

theorem hasChanges_put (w : WorkingCopy) (n : Name) (s : RecordSet) :
    (w.put n s).hasChanges = true := by
  have hne := OrderedMap.isEmpty_insert w.changed n ()
  simp [hasChanges, put, store, hne]

theorem hasChanges_eraseName {w : WorkingCopy} {n : Name} (h : w.slots.contains n = true) :
    (w.eraseName n).hasChanges = true := by
  rw [eraseName, if_pos h]
  have hne := OrderedMap.isEmpty_insert w.changed n ()
  simp [hasChanges, hne]

theorem hasChanges_eraseSet {w : WorkingCopy} {n : Name} {key : SetKey}
    (h : (w.find? n key).isSome = true) : (w.eraseSet n key).hasChanges = true := by
  have hne := OrderedMap.isEmpty_insert w.changed n ()
  rw [eraseSet, if_pos h]
  simp only
  split <;> simp [hasChanges, store, removeName, hne]

end WorkingCopy

end DnsZone
