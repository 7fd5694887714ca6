import DnsZone.Proofs.Translation.Script
import DnsZone.VersionedZone.Access

/-!
# Versioned zones carry translations

Two versioned zones correspond if their chains hold versions with the same numbers whose nodes
correspond, and if readers and writers stand alike in both. Stamps and numbers are drawn in the same
way on both sides, so they are equal. A policy that looks at what a version holds may tell
corresponding versions apart, so it is part of the correspondence that the policies do not.
-/

namespace DnsZone

namespace Translation

variable (T : Translation)

/-- Committed versions with the same number. -/
structure Versions (v v' : Version) : Prop where
  id : v.id = v'.id
  nodes : T.NodeMaps v.nodes v'.nodes
  supply : v.supply = v'.supply

inductive Slots : Slot → Slot → Prop where
  | shared {node node'} (h : Objects T.Nodes node node') : Slots (.shared node) (.shared node')
  | owned {node node'} (h : Objects T.Nodes node node') : Slots (.owned node) (.owned node')

structure WorkingCopies (w w' : WorkingCopy) : Prop where
  id : w.id = w'.id
  slots : OrderedMap.Rel T.stored T.Slots w.slots w'.slots
  changed : T.NameSets w.changed w'.changed
  replacesContent : w.replacesContent = w'.replacesContent
  supply : w.supply = w'.supply

structure Drafts (d d' : Draft) : Prop where
  base : T.Versions d.base d'.base
  replacement : d.replacement = d'.replacement
  copy? : Option.Rel T.WorkingCopies d.copy? d'.copy?

inductive VersionedAccesses : VersionedAccess → VersionedAccess → Prop where
  | reading {v v'} (h : T.Versions v v') : VersionedAccesses (.reading v) (.reading v')
  | writing {d d'} (h : T.Drafts d d') : VersionedAccesses (.writing d) (.writing d')
  | ended : VersionedAccesses .ended .ended

inductive VersionedViews : VersionedView → VersionedView → Prop where
  | committed {v v'} (h : T.Versions v v') : VersionedViews (.committed v) (.committed v')
  | working {w w'} (h : T.WorkingCopies w w') : VersionedViews (.working w) (.working w')
  | blank : VersionedViews .blank .blank

/-- Policies that decide alike on versions that correspond. -/
def Policies (p p' : Retention) : Prop :=
  ∀ v v' count, T.Versions v v' → p.drops v count = p'.drops v' count

structure Chains (c c' : VersionChain) : Prop where
  older : List.Forall₂ T.Versions c.older c'.older
  head : T.Versions c.head c'.head

structure VersionedZones (z z' : VersionedZone) : Prop where
  checksOrigin : z.checksOrigin = z'.checksOrigin
  origin : T.origin z.origin z'.origin
  chain : T.Chains z.chain z'.chain
  admission : z.admission = z'.admission
  readers : z.readers = z'.readers
  policy : T.Policies z.policy z'.policy
  alive : z.alive = z'.alive

variable {T} {n n' : Name} {s s' : RecordSet}

/-- A policy that does not look at what a version holds decides alike on versions that
correspond. -/
theorem policies_of_builtin {p : Retention} (hp : ∀ f, p ≠ .custom f) : T.Policies p p := by
  intro v v' count _
  cases p with
  | custom f => exact absurd rfl (hp f)
  | _ => rfl

/-! ### Versions -/

namespace Versions

variable {v v' : Version}

theorem node? (hT : T.Lawful) (h : T.Versions v v') (hn : T.stored n n') :
    Option.Rel (Objects T.Nodes) (v.node? n) (v'.node? n') := h.nodes.find? hT.keepsOrder hn

theorem find? (hT : T.Lawful) (h : T.Versions v v') (hn : T.stored n n') (key : SetKey) :
    Option.Rel T.Sets (v.find? n key) (v'.find? n' key) :=
  rel_optionBind (h.node? hT hn) fun _ _ hnode => hnode.value.find? key

theorem soaSerial?_eq (hT : T.Lawful) (h : T.Versions v v') (hn : T.stored n n') :
    v.soaSerial? n = v'.soaSerial? n' := by
  have hfind := h.find? hT hn .soa
  rw [Version.soaSerial?, Version.soaSerial?]
  generalize v.find? n .soa = found?, v'.find? n' .soa = found'? at hfind ⊢
  cases hfind with
  | some hs => exact hs.soaSerial?_eq hT
  | none => rfl

theorem isEmpty_eq (h : T.Versions v v') : v.isEmpty = v'.isEmpty := h.nodes.isEmpty_eq

theorem sets (h : T.Versions v v') : List.Forall₂ T.OwnedSets v.sets v'.sets :=
  forall₂_ownedSets (List.rel_map (fun _ _ he => ⟨he.key, he.value.value⟩) h.nodes)

end Versions

/-! ### Working copies -/

theorem Slots.object {slot slot' : Slot} (h : T.Slots slot slot') :
    Objects T.Nodes slot.object slot'.object := by
  cases h with
  | shared h => exact h
  | owned h => exact h

namespace WorkingCopies

variable {w w' : WorkingCopy} {v v' : Version}

theorem fork (h : T.Versions v v') (id : VersionId) (supply : Nat) :
    T.WorkingCopies (.fork id v supply) (.fork id v' supply) where
  id := rfl
  slots := h.nodes.mapValues fun _ _ => .shared
  changed := .empty
  replacesContent := rfl
  supply := congrArg (max · supply) h.supply

theorem forkReplacing (h : T.Versions v v') (id : VersionId) (supply : Nat) :
    T.WorkingCopies (.forkReplacing id v supply) (.forkReplacing id v' supply) where
  id := rfl
  slots := .empty
  changed := .empty
  replacesContent := congrArg not h.isEmpty_eq
  supply := congrArg (max · supply) h.supply

theorem hasChanges_eq (h : T.WorkingCopies w w') : w.hasChanges = w'.hasChanges := by
  rw [WorkingCopy.hasChanges, WorkingCopy.hasChanges, h.replacesContent, h.changed.isEmpty_eq]

theorem sets (h : T.WorkingCopies w w') : List.Forall₂ T.OwnedSets w.sets w'.sets :=
  forall₂_ownedSets (List.rel_map (fun _ _ he => ⟨he.key, he.value.object.value⟩) h.slots)

theorem freeze (h : T.WorkingCopies w w') : T.Versions w.freeze w'.freeze where
  id := h.id
  nodes := h.slots.mapValues fun _ _ => Slots.object
  supply := h.supply

section

variable (hT : T.Lawful) (h : T.WorkingCopies w w') (hn : T.stored n n')

include hT h hn

theorem slot? : Option.Rel T.Slots (w.slot? n) (w'.slot? n') := h.slots.find? hT.keepsOrder hn

theorem contains_eq : w.slots.contains n = w'.slots.contains n' :=
  h.slots.contains_eq hT.keepsOrder hn

theorem node? : Option.Rel T.Nodes (w.node? n) (w'.node? n') :=
  rel_optionMap (h.slot? hT hn) fun _ _ hslot => hslot.object.value

theorem find? (key : SetKey) : Option.Rel T.Sets (w.find? n key) (w'.find? n' key) :=
  rel_optionBind (h.node? hT hn) fun _ _ hnode => hnode.find? key

theorem ownNode : Objects T.Nodes (w.ownNode n) (w'.ownNode n') := by
  have hslot := h.slot? hT hn
  rw [WorkingCopy.ownNode, WorkingCopy.ownNode, h.supply, h.id]
  generalize w.slot? n = slot?, w'.slot? n' = slot'? at hslot ⊢
  cases hslot with
  | none => exact ⟨rfl, .empty _⟩
  | some hslot =>
      cases hslot with
      | shared hnode => exact ⟨rfl, hnode.value.copyFor _⟩
      | owned hnode => exact hnode

theorem store {node node' : Shared Node} (hnode : Objects T.Nodes node node')
    {supply supply' : Nat} (heq : supply = supply') {hlt : node.stamp < supply}
    {hle : w.supply ≤ supply} {hlt' : node'.stamp < supply'} {hle' : w'.supply ≤ supply'} :
    T.WorkingCopies (w.store n node supply hlt hle) (w'.store n' node' supply' hlt' hle') where
  id := h.id
  slots := h.slots.insert hT.keepsOrder hn (.owned hnode)
  changed := h.changed.insert hT.keepsOrder hn rfl
  replacesContent := h.replacesContent
  supply := heq

theorem put (hs : T.Sets s s') : T.WorkingCopies (w.put n s) (w'.put n' s') := by
  have hown := h.ownNode hT hn
  have hset : Objects T.Sets ⟨w.supply + 1, s⟩ ⟨w'.supply + 1, s'⟩ :=
    ⟨congrArg (· + 1) h.supply, hs⟩
  have hnode : Objects T.Nodes ⟨(w.ownNode n).stamp, (w.ownNode n).value.replace _⟩
      ⟨(w'.ownNode n').stamp, (w'.ownNode n').value.replace _⟩ :=
    ⟨hown.stamp, hown.value.replace hset⟩
  unfold WorkingCopy.put
  exact h.store hT hn hnode (congrArg (· + 2) h.supply)

theorem removeName : T.WorkingCopies (w.removeName n) (w'.removeName n') :=
  { h with slots := h.slots.erase hT.keepsOrder hn }

theorem eraseName : T.WorkingCopies (w.eraseName n) (w'.eraseName n') := by
  rw [WorkingCopy.eraseName, WorkingCopy.eraseName, h.contains_eq hT hn]
  split
  · exact { h.removeName hT hn with changed := h.changed.insert hT.keepsOrder hn rfl }
  · exact h

theorem eraseSet (key : SetKey) : T.WorkingCopies (w.eraseSet n key) (w'.eraseSet n' key) := by
  rw [WorkingCopy.eraseSet, WorkingCopy.eraseSet, isSome_eq_of_rel (h.find? hT hn key)]
  split
  · have hown := h.ownNode hT hn
    have hnode : Objects T.Nodes ⟨(w.ownNode n).stamp, (w.ownNode n).value.erase key⟩
        ⟨(w'.ownNode n').stamp, (w'.ownNode n').value.erase key⟩ :=
      ⟨hown.stamp, hown.value.erase key⟩
    have hsupply : w.supply + 1 = w'.supply + 1 := congrArg (· + 1) h.supply
    simp only [hnode.value.isEmpty_eq]
    split
    · exact (h.store hT hn hnode hsupply).removeName hT hn
    · exact h.store hT hn hnode hsupply
  · exact h

end

end WorkingCopies

/-! ### What transactions see -/

namespace VersionedViews

variable {view view' : VersionedView}

theorem find? (hT : T.Lawful) (h : T.VersionedViews view view') (hn : T.stored n n')
    (key : SetKey) : Option.Rel T.Sets (view.find? n key) (view'.find? n' key) := by
  cases h with
  | committed h => exact h.find? hT hn key
  | working h => exact h.find? hT hn key
  | blank => exact .none

theorem node? (hT : T.Lawful) (h : T.VersionedViews view view') (hn : T.stored n n') :
    Option.Rel T.Nodes (view.node? n) (view'.node? n') := by
  cases h with
  | committed h => exact rel_optionMap (h.node? hT hn) fun _ _ hnode => hnode.value
  | working h => exact h.node? hT hn
  | blank => exact .none

theorem contains_eq (hT : T.Lawful) (h : T.VersionedViews view view') (hn : T.stored n n') :
    view.contains n = view'.contains n' := by
  cases h with
  | committed h => exact h.nodes.contains_eq hT.keepsOrder hn
  | working h => exact h.contains_eq hT hn
  | blank => rfl

theorem sets (h : T.VersionedViews view view') :
    List.Forall₂ T.OwnedSets view.sets view'.sets := by
  cases h with
  | committed h => exact h.sets
  | working h => exact h.sets
  | blank => exact .nil

end VersionedViews

/-! ### Writers -/

namespace Drafts

variable {d d' : Draft}

theorem start {v v' : Version} (h : T.Versions v v') (replacement : Bool) :
    T.Drafts (.start v replacement) (.start v' replacement) := ⟨h, rfl, .none⟩

theorem freshCopy (h : T.Drafts d d') : T.WorkingCopies d.freshCopy d'.freshCopy := by
  rw [Draft.freshCopy, Draft.freshCopy, h.replacement, WorkingCopy.replacing,
    WorkingCopy.replacing, WorkingCopy.extending, WorkingCopy.extending, h.base.id, h.base.supply]
  split
  · exact .forkReplacing h.base _ _
  · exact .fork h.base _ _

theorem working (h : T.Drafts d d') : T.WorkingCopies d.working d'.working := by
  have hcopy := h.copy?
  rw [Draft.working, Draft.working]
  generalize d.copy? = copy?, d'.copy? = copy'? at hcopy ⊢
  cases hcopy with
  | some hw => exact hw
  | none => exact h.freshCopy

theorem view (h : T.Drafts d d') : T.VersionedViews d.view d'.view := by
  have hcopy := h.copy?
  rw [Draft.view, Draft.view, h.replacement]
  generalize d.copy? = copy?, d'.copy? = copy'? at hcopy ⊢
  cases hcopy with
  | some hw => exact .working hw
  | none =>
      simp only
      split
      · exact .blank
      · exact .committed h.base

theorem changed_eq (h : T.Drafts d d') : d.changed = d'.changed := by
  have hcopy := h.copy?
  rw [Draft.changed, Draft.changed, h.replacement, h.base.isEmpty_eq]
  generalize d.copy? = copy?, d'.copy? = copy'? at hcopy ⊢
  cases hcopy with
  | some hw => exact hw.hasChanges_eq
  | none => rfl

theorem versionId_eq (h : T.Drafts d d') : d.versionId = d'.versionId := by
  have hcopy := h.copy?
  rw [Draft.versionId, Draft.versionId, h.base.id]
  generalize d.copy? = copy?, d'.copy? = copy'? at hcopy ⊢
  cases hcopy with
  | some hw => exact hw.id
  | none => rfl

theorem version? (h : T.Drafts d d') : Option.Rel T.Versions d.version? d'.version? := by
  rw [Draft.version?, Draft.version?, h.changed_eq]
  split
  · exact .some h.working.freeze
  · exact .none

theorem modify (h : T.Drafts d d') {f f' : WorkingCopy → WorkingCopy}
    (hf : ∀ w w', T.WorkingCopies w w' → T.WorkingCopies (f w) (f' w')) :
    T.Drafts (d.modify f) (d'.modify f') :=
  { h with copy? := .some (hf _ _ h.working) }

theorem clear (h : T.Drafts d d') : T.Drafts d.clear d'.clear := ⟨h.base, rfl, .none⟩

end Drafts

namespace VersionedAccesses

variable {a a' : VersionedAccess}

theorem modify (h : T.VersionedAccesses a a') {f f' : Draft → Draft}
    (hf : ∀ d d', T.Drafts d d' → T.Drafts (f d) (f' d')) :
    T.VersionedAccesses (a.modify f) (a'.modify f') := by
  cases h with
  | reading h => exact .reading h
  | writing h => exact .writing (hf _ _ h)
  | ended => exact .ended

theorem view (h : T.VersionedAccesses a a') : T.VersionedViews a.view a'.view := by
  cases h with
  | reading h => exact .committed h
  | writing h => exact h.view
  | ended => exact .blank

theorem changed_eq (h : T.VersionedAccesses a a') : a.changed = a'.changed := by
  cases h with
  | writing h => exact h.changed_eq
  | _ => rfl

theorem mode_eq (h : T.VersionedAccesses a a') : a.mode = a'.mode := by
  cases h <;> rfl

theorem versionId?_eq (h : T.VersionedAccesses a a') :
    Access.versionId? a = Access.versionId? a' := by
  cases h with
  | reading h => exact congrArg some h.id
  | writing h => exact congrArg some h.versionId_eq
  | ended => rfl

end VersionedAccesses

/-! ### Chains -/

namespace Chains

variable {c c' : VersionChain}

theorem toList (h : T.Chains c c') : List.Forall₂ T.Versions c.toList c'.toList :=
  List.rel_append h.older (.cons h.head .nil)

theorem ids_eq (h : T.Chains c c') : c.ids = c'.ids := by
  have hids : List.Forall₂ Eq c.ids c'.ids := List.rel_map (fun _ _ hv => hv.id) h.toList
  exact List.forall₂_eq_eq_eq ▸ hids

theorem push (h : T.Chains c c') {v v' : Version} (hv : T.Versions v v') :
    T.Chains (c.push v) (c'.push v') := ⟨h.toList, hv⟩

theorem byId? (h : T.Chains c c') (id : VersionId) :
    Option.Rel T.Versions (c.byId? id) (c'.byId? id) := by
  refine rel_find? h.toList ?_
  intro v v' hv
  rw [hv.id]

theorem bySerial? (hT : T.Lawful) (h : T.Chains c c') (hn : T.stored n n') (serial : Serial) :
    Option.Rel T.Versions (c.bySerial? n serial) (c'.bySerial? n' serial) := by
  refine rel_find? (List.rel_reverse h.toList) ?_
  intro v v' hv
  rw [hv.soaSerial?_eq hT hn]

theorem leastKept_eq (h : T.Chains c c') (readers : Readers) :
    c.leastKept readers = c'.leastKept readers := by
  rw [VersionChain.leastKept, VersionChain.leastKept, h.head.id]

theorem forall₂_dropOldest {p p' : Retention} (hp : T.Policies p p') (bound : VersionId)
    {l l' : List Version} (h : List.Forall₂ T.Versions l l') :
    List.Forall₂ T.Versions (VersionChain.dropOldest p bound l)
      (VersionChain.dropOldest p' bound l') := by
  induction h with
  | nil => exact .nil
  | cons hv hrest ih =>
      rw [VersionChain.dropOldest, VersionChain.dropOldest, hv.id, hp _ _ _ hv, hrest.length_eq]
      split
      · exact .cons hv hrest
      · exact ih

theorem prune (h : T.Chains c c') {p p' : Retention} (hp : T.Policies p p') (readers : Readers) :
    T.Chains (c.prune p readers) (c'.prune p' readers) := by
  rw [VersionChain.prune, VersionChain.prune, h.leastKept_eq]
  exact ⟨forall₂_dropOldest hp _ h.older, h.head⟩

end Chains

/-! ### Zones -/

namespace VersionedZones

variable {z z' : VersionedZone}

theorem prune (h : T.VersionedZones z z') : T.VersionedZones z.prune z'.prune := by
  refine { h with chain := ?_ }
  change T.Chains (z.chain.prune z.policy z.readers) (z'.chain.prune z'.policy z'.readers)
  rw [h.readers]
  exact h.chain.prune h.policy _

theorem release (h : T.VersionedZones z z') : T.VersionedZones z.release z'.release :=
  { h with admission := congrArg Admission.release h.admission }

theorem unpin (h : T.VersionedZones z z') (id : VersionId) :
    T.VersionedZones (z.unpin id) (z'.unpin id) := by
  have hzones : T.VersionedZones { z with readers := z.readers.unregister id }
      { z' with readers := z'.readers.unregister id } :=
    { h with readers := congrArg (Readers.unregister · id) h.readers }
  exact hzones.prune

theorem append (h : T.VersionedZones z z') {version? version'? : Option Version}
    (hv : Option.Rel T.Versions version? version'?) :
    T.VersionedZones (z.append version?) (z'.append version'?) := by
  cases hv with
  | none => exact h
  | some hv => exact { h with chain := h.chain.push hv }

theorem learn (hT : T.Lawful) (h : T.VersionedZones z z') {learned? learned'? : Option Name}
    (hl : T.Learned learned? learned'?) :
    T.VersionedZones (z.learn learned?) (z'.learn learned'?) :=
  { h with origin := hT.learn h.origin hl }

theorem install (hT : T.Lawful) (h : T.VersionedZones z z') {d d' : Draft} (hd : T.Drafts d d')
    {learned? learned'? : Option Name} (hl : T.Learned learned? learned'?) :
    T.VersionedZones (z.install d learned?) (z'.install d' learned'?) :=
  ((h.append hd.version?).learn hT hl).release.prune

theorem finish (hT : T.Lawful) (h : T.VersionedZones z z') {a a' : VersionedAccess}
    (ha : T.VersionedAccesses a a') (commit : Bool) {learned? learned'? : Option Name}
    (hl : T.Learned learned? learned'?) :
    (z.finish commit learned? a).1 = (z'.finish commit learned'? a').1 ∧
      T.VersionedZones (z.finish commit learned? a).2 (z'.finish commit learned'? a').2 := by
  cases ha with
  | ended => exact ⟨rfl, h⟩
  | reading hv =>
      rw [VersionedZone.finish, VersionedZone.finish, h.alive, hv.id]
      split
      · exact ⟨rfl, h.unpin _⟩
      · exact ⟨rfl, h⟩
  | writing hd =>
      rw [VersionedZone.finish, VersionedZone.finish, h.alive]
      split
      · cases commit with
        | true => exact ⟨rfl, h.install hT hd hl⟩
        | false => exact ⟨rfl, h.release⟩
      · exact ⟨rfl, h⟩

/-- A query finds versions that correspond, or none in either zone. -/
theorem select (hT : T.Lawful) (h : T.VersionedZones z z') (query? : Option VersionQuery) :
    T.Outcome T.Versions (z.select query?) (z'.select query?) := by
  rw [VersionedZone.select.eq_def, VersionedZone.select.eq_def]
  rcases query? with _ | id | serial
  · exact .ok h.chain.head
  · have hfind := h.chain.byId? id
    simp only
    generalize z.chain.byId? id = found?, z'.chain.byId? id = found'? at hfind ⊢
    cases hfind with
    | none => exact .error (.same _)
    | some hv => exact .ok hv
  · have hfind : Option.Rel T.Versions
        (z.origin.apex?.bind fun apex => z.chain.bySerial? apex serial)
        (z'.origin.apex?.bind fun apex => z'.chain.bySerial? apex serial) :=
      rel_optionBind (hT.apex? h.origin) fun _ _ hn => h.chain.bySerial? hT hn serial
    simp only
    generalize z.origin.apex?.bind (fun apex => z.chain.bySerial? apex serial) = found?,
      z'.origin.apex?.bind (fun apex => z'.chain.bySerial? apex serial) = found'? at hfind ⊢
    cases hfind with
    | none => exact .error (.same _)
    | some hv => exact .ok hv

theorem openReader (hT : T.Lawful) (h : T.VersionedZones z z') (query? : Option VersionQuery) :
    T.Outcome (fun o o' => T.VersionedAccesses o.1 o'.1 ∧ T.VersionedZones o.2 o'.2)
      (z.openReader query?) (z'.openReader query?) := by
  have hpin : T.Outcome (fun o o' => T.Versions o.1 o'.1 ∧ T.VersionedZones o.2 o'.2)
      (z.pin query?) (z'.pin query?) := by
    refine (h.select hT query?).map fun v v' hv => ⟨hv, ?_⟩
    refine { h with readers := ?_ }
    change z.readers.register v.id = z'.readers.register v'.id
    rw [h.readers, hv.id]
  exact hpin.map fun _ _ ho => ⟨.reading ho.1, ho.2⟩

theorem openWriter? (h : T.VersionedZones z z') (replacement : Bool) :
    Option.Rel (fun o o' => T.VersionedAccesses o.1 o'.1 ∧ T.VersionedZones o.2 o'.2)
      (z.openWriter? replacement) (z'.openWriter? replacement) := by
  rw [VersionedZone.openWriter?, VersionedZone.openWriter?, h.admission]
  cases z'.admission.seize? with
  | none => exact .none
  | some admission =>
      exact .some ⟨.writing (.start h.chain.head replacement), { h with admission := rfl }⟩

end VersionedZones

/-- Versioned zones that correspond go on corresponding whatever transactions do. -/
theorem carriedByHost_versionedZones (hT : T.Lawful) :
    T.CarriedByHost T.VersionedZones T.VersionedAccesses where
  mode_eq h := h.mode_eq
  ended := .ended
  versionId?_eq h := h.versionId?_eq
  put h _ _ _ _ hn hs := h.modify fun _ _ hd => hd.modify fun _ _ hw => hw.put hT hn hs
  eraseName h _ _ hn := h.modify fun _ _ hd => hd.modify fun _ _ hw => hw.eraseName hT hn
  eraseSet h _ _ hn key := h.modify fun _ _ hd => hd.modify fun _ _ hw => hw.eraseSet hT hn key
  clear h := h.modify fun _ _ hd => hd.clear
  find? _ h _ _ hn key := h.view.find? hT hn key
  node? _ h _ _ hn := h.view.node? hT hn
  contains_eq _ h _ _ hn := h.view.contains_eq hT hn
  sets _ h := h.view.sets
  changed_eq _ h := h.changed_eq
  finish hz h commit _ _ hl := hz.finish hT h commit hl
  origin h := h.origin
  checksOrigin_eq h := h.checksOrigin
  openReader h query? := h.openReader hT query?
  openWriter? h replacement := h.openWriter? replacement

end Translation

end DnsZone
