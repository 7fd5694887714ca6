import DnsZone.PlainZone.Access
import DnsZone.Proofs.Staging.Commit
import DnsZone.Proofs.Translation.Script

/-!
# Plain zones carry translations

Two plain zones correspond if their nodes do and if as many commits were made on both. Staged
changes correspond entry by entry, and the comparison of what they concern goes by the comparison of
owner names. So the changes at a name, the groups of changes that a commit writes and the listing of
what a writer sees all correspond.
-/

namespace DnsZone

namespace Translation

variable (T : Translation)

inductive StagedChanges : Staged → Staged → Prop where
  | put {s s'} (h : Objects T.Sets s s') : StagedChanges (.put s) (.put s')
  | tombstone : StagedChanges .tombstone .tombstone

structure OwnedKeys (k k' : OwnedKey) : Prop where
  owner : T.stored k.owner k'.owner
  key : k.key = k'.key

abbrev Overlays : Overlay → Overlay → Prop := OrderedMap.Rel T.OwnedKeys T.StagedChanges

/-- Changes that correspond, by the same keys. -/
abbrev ChangesByKey : NameChanges → NameChanges → Prop :=
  List.Forall₂ (OrderedMap.EntryRel Eq T.StagedChanges)

structure Stagings (s s' : Staging) : Prop where
  replacement : s.replacement = s'.replacement
  overlay : T.Overlays s.overlay s'.overlay
  wiped : T.NameSets s.wiped s'.wiped
  supply : s.supply = s'.supply

inductive PlainAccesses : PlainAccess → PlainAccess → Prop where
  | reading : PlainAccesses .reading .reading
  | writing {s s'} (h : T.Stagings s s') : PlainAccesses (.writing s) (.writing s')
  | ended : PlainAccesses .ended .ended

structure PlainZones (z z' : PlainZone) : Prop where
  checksOrigin : z.checksOrigin = z'.checksOrigin
  origin : T.origin z.origin z'.origin
  nodes : T.NodeMaps z.nodes z'.nodes
  generation : z.generation = z'.generation
  locked : z.locked = z'.locked
  supply : z.supply = z'.supply

variable {T} {n n' : Name} {nodes nodes' : NameMap (Shared Node)}

/-! ### Staged changes -/

theorem keepsOrder_ownedKeys (hT : T.Lawful) :
    OrderedMap.KeepsOrder OwnedKey.compare OwnedKey.compare T.OwnedKeys := by
  intro a a' b b' ha hb
  rw [OwnedKey.compare, compareLex, compareLex, Order.onKey, Order.onKey, Order.onKey, Order.onKey,
    hT.keepsOrder _ _ _ _ ha.owner hb.owner, ha.key, hb.key]

theorem OwnedKeys.of_stored (hn : T.stored n n') (key : SetKey) :
    T.OwnedKeys ⟨n, key⟩ ⟨n', key⟩ := ⟨hn, rfl⟩

namespace Overlays

variable {o o' : Overlay}

theorem changesAt (hT : T.Lawful) (h : T.Overlays o o') (hn : T.stored n n') :
    T.ChangesByKey (o.changesAt n) (o'.changesAt n') := by
  rw [Overlay.changesAt_eq_filter, Overlay.changesAt_eq_filter]
  refine List.rel_map (fun _ _ he => ⟨he.key.key, he.value⟩) (List.rel_filter ?_ h)
  intro e e' he
  simp only [beq_eq_of_stored hT he.key.owner hn]

theorem forall₂_groupEntries (hT : T.Lawful) {l l' : List (OwnedKey × Staged)}
    (h : List.Forall₂ (OrderedMap.EntryRel T.OwnedKeys T.StagedChanges) l l') :
    List.Forall₂ (OrderedMap.EntryRel T.stored T.ChangesByKey) (Overlay.groupEntries l)
      (Overlay.groupEntries l') := by
  induction h with
  | nil => exact .nil
  | @cons e e' l l' he _ ih =>
      have hentry : OrderedMap.EntryRel Eq T.StagedChanges (e.1.key, e.2) (e'.1.key, e'.2) :=
        ⟨he.key.key, he.value⟩
      unfold Overlay.groupEntries
      generalize Overlay.groupEntries l = groups, Overlay.groupEntries l' = groups' at ih ⊢
      cases ih with
      | nil => exact .cons ⟨he.key.owner, .cons hentry .nil⟩ .nil
      | cons hgroup hgroups =>
          simp only [beq_eq_of_stored hT he.key.owner hgroup.key]
          split
          · exact .cons ⟨he.key.owner, .cons hentry hgroup.value⟩ hgroups
          · exact .cons ⟨he.key.owner, .cons hentry .nil⟩ (.cons hgroup hgroups)

theorem eraseAt (hT : T.Lawful) (h : T.Overlays o o') (hn : T.stored n n') :
    T.Overlays (o.eraseAt n) (o'.eraseAt n') := by
  refine List.rel_foldl ?_ h (changesAt hT h hn)
  intro o o' ho e e' he
  exact ho.erase (keepsOrder_ownedKeys hT) ⟨hn, he.key⟩

end Overlays

theorem Nodes.applyStaged {node node' : Node} (h : T.Nodes node node') {e e' : SetKey × Staged}
    (he : OrderedMap.EntryRel Eq T.StagedChanges e e') :
    T.Nodes (node.applyStaged e) (node'.applyStaged e') := by
  obtain ⟨key, staged⟩ := e
  obtain ⟨key', staged'⟩ := e'
  obtain ⟨hkey, hstaged⟩ := he
  cases hkey
  cases hstaged with
  | put hs => exact h.replace hs
  | tombstone => exact h.erase key

theorem Nodes.merge (tag : VersionId) {below? below'? : Option Node}
    (h : Option.Rel T.Nodes below? below'?) {changes changes' : NameChanges}
    (hc : T.ChangesByKey changes changes') :
    T.Nodes (.merge tag below? changes) (.merge tag below'? changes') := by
  refine List.rel_foldl (fun _ _ hnode _ _ he => hnode.applyStaged he) ?_ hc
  cases h with
  | some h => exact h.copyFor tag
  | none => exact .empty tag

namespace Stagings

variable {s s' : Staging}

theorem start (replacement : Bool) {supply supply' : Nat} (h : supply = supply') :
    T.Stagings (.start replacement supply) (.start replacement supply') :=
  ⟨rfl, .empty, .empty, h⟩

theorem clear (h : T.Stagings s s') : T.Stagings s.clear s'.clear := ⟨rfl, .empty, .empty, h.supply⟩

theorem hasChanges_eq (h : T.Stagings s s') (hnodes : T.NodeMaps nodes nodes') :
    s.hasChanges nodes = s'.hasChanges nodes' := by
  rw [Staging.hasChanges, Staging.hasChanges, h.overlay.isEmpty_eq, h.wiped.isEmpty_eq,
    h.replacement, hnodes.isEmpty_eq]

section

variable (hT : T.Lawful) (h : T.Stagings s s')

include hT h

/-! ### What a writer changes -/

section

variable (hn : T.stored n n')

include hn

theorem put {set set' : RecordSet} (hs : T.Sets set set') :
    T.Stagings (s.put n set) (s'.put n' set') where
  replacement := h.replacement
  overlay := h.overlay.insert (keepsOrder_ownedKeys hT) ⟨hn, hs.key⟩ (.put ⟨h.supply, hs⟩)
  wiped := h.wiped
  supply := congrArg (· + 1) h.supply

theorem eraseSet (key : SetKey) : T.Stagings (s.eraseSet n key) (s'.eraseSet n' key) :=
  { h with
    overlay := h.overlay.insert (keepsOrder_ownedKeys hT) (.of_stored hn key) .tombstone }

theorem eraseName : T.Stagings (s.eraseName n) (s'.eraseName n') :=
  { h with
    overlay := Overlays.eraseAt hT h.overlay hn
    wiped := h.wiped.insert hT.keepsOrder hn rfl }

/-! ### What it sees -/

theorem hides_eq : s.hides n = s'.hides n' := by
  rw [Staging.hides, Staging.hides, h.replacement, h.wiped.contains_eq hT.keepsOrder hn]

theorem find? (hnodes : T.NodeMaps nodes nodes') (key : SetKey) :
    Option.Rel T.Sets (s.find? nodes n key) (s'.find? nodes' n' key) := by
  have hfind : Option.Rel T.StagedChanges (s.overlay.find? ⟨n, key⟩) (s'.overlay.find? ⟨n', key⟩) :=
    h.overlay.find? (keepsOrder_ownedKeys hT) (.of_stored hn key)
  rw [Staging.find?, Staging.find?, h.hides_eq hT hn]
  generalize s.overlay.find? ⟨n, key⟩ = found?, s'.overlay.find? ⟨n', key⟩ = found'? at hfind ⊢
  cases hfind with
  | some hstaged =>
      cases hstaged with
      | put hs => exact .some hs.value
      | tombstone => exact .none
  | none =>
      simp only
      split
      · exact .none
      · exact rel_optionBind (hnodes.find? hT.keepsOrder hn) fun _ _ hnode => hnode.value.find? key

theorem below? (hnodes : T.NodeMaps nodes nodes') :
    Option.Rel T.Nodes (s.below? nodes n) (s'.below? nodes' n') := by
  rw [Staging.below?, Staging.below?, h.hides_eq hT hn]
  split
  · exact .none
  · exact rel_optionMap (hnodes.find? hT.keepsOrder hn) fun _ _ hnode => hnode.value

theorem node? (hnodes : T.NodeMaps nodes nodes') (tag : VersionId) :
    Option.Rel T.Nodes (s.node? nodes tag n) (s'.node? nodes' tag n') := by
  have hbelow := h.below? hT hn hnodes
  have hchanges := Overlays.changesAt hT h.overlay hn
  rw [Staging.node?, Staging.node?, ← Staging.below?, ← Staging.below?]
  generalize s.overlay.changesAt n = changes, s'.overlay.changesAt n' = changes' at hchanges ⊢
  cases hchanges with
  | nil => exact hbelow
  | cons he hrest =>
      have hnode := Nodes.merge tag hbelow (.cons he hrest)
      simp only [hnode.isEmpty_eq]
      split
      · exact .none
      · exact .some hnode

end

theorem names (hnodes : T.NodeMaps nodes nodes') :
    T.NameSets (s.names nodes) (s'.names nodes') := by
  have hbelow : List.Forall₂ T.stored (nodes.keys.filter fun n => !s.wiped.contains n)
      (nodes'.keys.filter fun n => !s'.wiped.contains n) := by
    refine List.rel_filter ?_ hnodes.keys
    intro n n' hn
    simp only [h.wiped.contains_eq hT.keepsOrder hn]
  have howners : List.Forall₂ T.stored (s.overlay.keys.map (·.owner))
      (s'.overlay.keys.map (·.owner)) :=
    List.rel_map (fun _ _ hk => hk.owner) h.overlay.keys
  have hnone : T.NameSets .empty .empty := .empty
  rw [Staging.names, Staging.names, h.replacement]
  refine hnone.foldl_insert hT.keepsOrder (List.rel_append ?_ howners) rfl
  split
  · exact .nil
  · exact hbelow

theorem sets (hnodes : T.NodeMaps nodes nodes') (tag : VersionId) :
    List.Forall₂ T.OwnedSets (s.sets nodes tag) (s'.sets nodes' tag) := by
  refine forall₂_ownedSets (List.rel_filterMap ?_ (h.names hT hnodes).keys)
  intro n n' hn
  exact rel_optionMap (h.node? hT hn hnodes tag) fun _ _ hnode => ⟨hn, hnode⟩

/-! ### What a commit leaves -/

omit h in
theorem storeNode (hnodes : T.NodeMaps nodes nodes') (hn : T.stored n n') {node node' : Shared Node}
    (hnode : Objects T.Nodes node node') :
    T.NodeMaps (Staging.storeNode nodes n node) (Staging.storeNode nodes' n' node') := by
  rw [Staging.storeNode, Staging.storeNode, hnode.value.isEmpty_eq]
  split
  · exact hnodes.erase hT.keepsOrder hn
  · exact hnodes.insert hT.keepsOrder hn hnode

omit h in
/-- Writing the groups of changes one by one uses up the same stamps. -/
theorem commitGroups (tag : VersionId) {groups groups' : List (Name × NameChanges)}
    (hgroups : List.Forall₂ (OrderedMap.EntryRel T.stored T.ChangesByKey) groups groups')
    (hnodes : T.NodeMaps nodes nodes') (supply : Nat) :
    T.NodeMaps (Staging.commitGroups tag nodes supply groups).1
        (Staging.commitGroups tag nodes' supply groups').1 ∧
      (Staging.commitGroups tag nodes supply groups).2 =
        (Staging.commitGroups tag nodes' supply groups').2 := by
  induction hgroups generalizing nodes nodes' supply with
  | nil => exact ⟨hnodes, rfl⟩
  | cons hgroup _ ih =>
      have hbelow := rel_optionMap (hnodes.find? hT.keepsOrder hgroup.key) fun _ _ hnode =>
        hnode.value
      have hnode := Nodes.merge tag hbelow hgroup.value
      exact ih (storeNode hT hnodes hgroup.key (.of_value supply hnode)) (supply + 1)

theorem visible (hnodes : T.NodeMaps nodes nodes') :
    T.NodeMaps (s.visible nodes) (s'.visible nodes') := by
  rw [Staging.visible, Staging.visible, h.replacement]
  refine OrderedMap.Rel.foldl_erase hT.keepsOrder ?_ h.wiped.keys
  split
  · exact .empty
  · exact hnodes

theorem commit (hnodes : T.NodeMaps nodes nodes') (tag : VersionId) :
    T.NodeMaps (s.commit nodes tag).1 (s'.commit nodes' tag).1 ∧
      (s.commit nodes tag).2 = (s'.commit nodes' tag).2 := by
  rw [Staging.commit_eq_commitGroups, Staging.commit_eq_commitGroups, h.supply]
  exact commitGroups hT tag (Overlays.forall₂_groupEntries hT h.overlay) (h.visible hT hnodes) _

end

end Stagings

/-! ### Zones -/

namespace PlainAccesses

variable {a a' : PlainAccess}

theorem modify (h : T.PlainAccesses a a') {f f' : Staging → Staging}
    (hf : ∀ s s', T.Stagings s s' → T.Stagings (f s) (f' s')) :
    T.PlainAccesses (a.modify f) (a'.modify f') := by
  cases h with
  | writing h => exact .writing (hf _ _ h)
  | reading => exact .reading
  | ended => exact .ended

theorem mode_eq (h : T.PlainAccesses a a') : a.mode = a'.mode := by
  cases h <;> rfl

end PlainAccesses

namespace PlainZones

variable {z z' : PlainZone} {a a' : PlainAccess}

/-! #### What transactions see -/

section

variable (hT : T.Lawful) (h : T.PlainZones z z')

include hT h

theorem node? (hn : T.stored n n') : Option.Rel T.Nodes (z.node? n) (z'.node? n') :=
  rel_optionMap (h.nodes.find? hT.keepsOrder hn) fun _ _ hnode => hnode.value

theorem find? (hn : T.stored n n') (key : SetKey) :
    Option.Rel T.Sets (z.find? n key) (z'.find? n' key) :=
  rel_optionBind (h.node? hT hn) fun _ _ hnode => hnode.find? key

theorem soaSerial?_eq : z.soaSerial? = z'.soaSerial? := by
  have hsoa : Option.Rel T.Sets (z.origin.apex?.bind fun apex => z.find? apex .soa)
      (z'.origin.apex?.bind fun apex => z'.find? apex .soa) :=
    rel_optionBind (hT.apex? h.origin) fun _ _ hn => h.find? hT hn .soa
  rw [PlainZone.soaSerial?, PlainZone.soaSerial?, ← Option.bind_assoc, ← Option.bind_assoc]
  generalize z.origin.apex?.bind (fun apex => z.find? apex .soa) = soa?,
    z'.origin.apex?.bind (fun apex => z'.find? apex .soa) = soa'? at hsoa ⊢
  cases hsoa with
  | some hs => exact hs.soaSerial?_eq hT
  | none => rfl

theorem findIn? (ha : T.PlainAccesses a a') (hn : T.stored n n') (key : SetKey) :
    Option.Rel T.Sets (z.findIn? a n key) (z'.findIn? a' n' key) := by
  cases ha with
  | writing hs => exact hs.find? hT hn h.nodes key
  | reading => exact h.find? hT hn key
  | ended => exact h.find? hT hn key

theorem nodeIn? (ha : T.PlainAccesses a a') (hn : T.stored n n') :
    Option.Rel T.Nodes (z.nodeIn? a n) (z'.nodeIn? a' n') := by
  cases ha with
  | writing hs =>
      change Option.Rel T.Nodes (Staging.node? _ z.nodes z.generation.next n)
        (Staging.node? _ z'.nodes z'.generation.next n')
      rw [h.generation]
      exact hs.node? hT hn h.nodes _
  | reading => exact h.node? hT hn
  | ended => exact h.node? hT hn

theorem setsIn (ha : T.PlainAccesses a a') :
    List.Forall₂ T.OwnedSets (z.setsIn a) (z'.setsIn a') := by
  have hsets : List.Forall₂ T.OwnedSets
      (ownedSets (z.nodes.toList.map fun e => (e.1, e.2.value)))
      (ownedSets (z'.nodes.toList.map fun e => (e.1, e.2.value))) :=
    forall₂_ownedSets (List.rel_map (fun _ _ he => ⟨he.key, he.value.value⟩) h.nodes)
  cases ha with
  | writing hs =>
      change List.Forall₂ T.OwnedSets (Staging.sets _ z.nodes z.generation.next)
        (Staging.sets _ z'.nodes z'.generation.next)
      rw [h.generation]
      exact hs.sets hT h.nodes _
  | reading => exact hsets
  | ended => exact hsets

omit hT in
theorem changedIn_eq (ha : T.PlainAccesses a a') : z.changedIn a = z'.changedIn a' := by
  cases ha with
  | writing hs => exact hs.hasChanges_eq h.nodes
  | _ => rfl

/-! #### How they start and end -/

theorem learn {learned? learned'? : Option Name} (hl : T.Learned learned? learned'?) :
    T.PlainZones (z.learn learned?) (z'.learn learned'?) :=
  { h with origin := hT.learn h.origin hl }

theorem install {s s' : Staging} (hs : T.Stagings s s') :
    T.PlainZones (z.install s) (z'.install s') := by
  obtain ⟨hnodes, hsupply⟩ := hs.commit hT h.nodes z'.generation.next
  rw [PlainZone.install, PlainZone.install, hs.hasChanges_eq h.nodes, h.generation]
  split
  · exact { h with nodes := hnodes, generation := rfl, supply := hsupply }
  · exact h

omit hT in
theorem unlock : T.PlainZones z.unlock z'.unlock := { h with locked := rfl }

theorem finish (ha : T.PlainAccesses a a') (commit : Bool) {learned? learned'? : Option Name}
    (hl : T.Learned learned? learned'?) :
    (z.finish commit learned? a).1 = (z'.finish commit learned'? a').1 ∧
      T.PlainZones (z.finish commit learned? a).2 (z'.finish commit learned'? a').2 := by
  cases ha with
  | ended => exact ⟨rfl, h⟩
  | reading => exact ⟨rfl, h⟩
  | writing hs =>
      cases commit with
      | true => exact ⟨rfl, ((h.learn hT hl).install hT hs).unlock⟩
      | false => exact ⟨rfl, h.unlock⟩

theorem openReader (query? : Option VersionQuery) :
    T.Outcome (fun o o' => T.PlainAccesses o.1 o'.1 ∧ T.PlainZones o.2 o'.2) (z.openReader query?)
      (z'.openReader query?) := by
  cases query? with
  | none => exact .ok ⟨.reading, h⟩
  | some query =>
      have hanswers : z.answers query = z'.answers query := by
        cases query with
        | id id => rw [PlainZone.answers, PlainZone.answers, h.generation]
        | serial serial => rw [PlainZone.answers, PlainZone.answers, h.soaSerial?_eq hT]
      simp only [PlainZone.openReader, hanswers]
      split
      · exact .ok ⟨.reading, h⟩
      · exact .error (.same _)

omit hT in
theorem openWriter? (replacement : Bool) :
    Option.Rel (fun o o' => T.PlainAccesses o.1 o'.1 ∧ T.PlainZones o.2 o'.2)
      (z.openWriter? replacement) (z'.openWriter? replacement) := by
  rw [PlainZone.openWriter?, PlainZone.openWriter?, h.locked]
  split
  · exact .none
  · exact .some ⟨.writing (.start replacement h.supply), { h with locked := rfl }⟩

end

end PlainZones

/-- Plain zones that correspond go on corresponding whatever transactions do. -/
theorem carriedByHost_plainZones (hT : T.Lawful) :
    T.CarriedByHost T.PlainZones T.PlainAccesses where
  mode_eq h := h.mode_eq
  ended := .ended
  versionId?_eq _ := rfl
  put h _ _ _ _ hn hs := h.modify fun _ _ hstaging => hstaging.put hT hn hs
  eraseName h _ _ hn := h.modify fun _ _ hstaging => hstaging.eraseName hT hn
  eraseSet h _ _ hn key := h.modify fun _ _ hstaging => hstaging.eraseSet hT hn key
  clear h := h.modify fun _ _ hstaging => hstaging.clear
  find? hz h _ _ hn key := hz.findIn? hT h hn key
  node? hz h _ _ hn := hz.nodeIn? hT h hn
  contains_eq hz h _ _ hn := isSome_eq_of_rel (hz.nodeIn? hT h hn)
  sets hz h := hz.setsIn hT h
  changed_eq hz h := hz.changedIn_eq h
  finish hz h commit _ _ hl := hz.finish hT h commit hl
  origin h := h.origin
  checksOrigin_eq h := h.checksOrigin
  openReader h query? := h.openReader hT query?
  openWriter? h replacement := h.openWriter? replacement

end Translation

end DnsZone
