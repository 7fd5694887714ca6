import DnsZone.Proofs.VersionedZone.Invariant
import DnsZone.Proofs.VersionedZone.View

/-!
# What writers of a versioned zone see

What a writer sees is told by the record sets that it finds. Every change acts on one of them, or on
all of one name, whether there is a working copy yet or not. The nodes and record sets that a writer
sees are `Solid`, that is, none of them is empty, and so are those of every version of a zone in
use.
-/

namespace DnsZone

open VersionedZone (Txn)

namespace VersionedView

/-- Every node holds record sets with different keys, and every record set holds records. -/
structure Solid (view : VersionedView) : Prop where
  proper : view.Proper
  filled : ∀ n key s, view.find? n key = some s → s.isEmpty = false

theorem solid_empty (id : VersionId) (supply : Nat) : (committed (.empty id supply)).Solid where
  proper _ _ h := by cases h
  filled _ _ _ h := by cases h

theorem key_of_find? {view : VersionedView} {n : Name} {key : SetKey} {s : RecordSet}
    (h : view.find? n key = some s) : s.key = key := by
  rw [find?_eq_set?, Content.set?, content, Option.bind_map] at h
  obtain ⟨node, _, hs⟩ := Option.bind_eq_some_iff.mp h
  exact (Node.mem_of_find?_eq_some hs).2

theorem isEmpty_of_node? {view : VersionedView} (h : view.Proper) {n : Name} {node : Node}
    (hnode : view.node? n = some node) : node.isEmpty = false := by
  cases view with
  | committed v =>
      obtain ⟨shared, hshared, rfl⟩ := Option.map_eq_some_iff.mp hnode
      exact (h n shared hshared).2
  | working w =>
      obtain ⟨slot, hslot, rfl⟩ := Option.map_eq_some_iff.mp hnode
      exact (h.nodes n slot hslot).2
  | blank => cases hnode

end VersionedView

namespace Draft

theorem proper_working {d : Draft} (h : d.view.Proper) : d.working.Proper := by
  obtain ⟨base, replacement, copy?⟩ := d
  cases copy? with
  | some w => exact h
  | none =>
      cases replacement with
      | true => exact WorkingCopy.proper_forkReplacing _ _ _
      | false => exact WorkingCopy.proper_fork _ h _

/-! ### What is found after a change -/

variable {d : Draft}

theorem find?_put (h : d.view.Proper) (n m : Name) (s : RecordSet) (key : SetKey) :
    (d.modify fun w => w.put n s).view.find? m key =
      if (m == n) = true ∧ key = s.key then some s else d.view.find? m key := by
  change (d.working.put n s).find? m key = _
  rw [← WorkingCopy.set?_content, WorkingCopy.content_put (proper_working h), Content.set?_put,
    WorkingCopy.set?_content, find?_working]

theorem find?_eraseSet (h : d.view.Proper) {n : Name} {key : SetKey}
    (hfound : (d.view.find? n key).isSome = true) (m : Name) (key' : SetKey) :
    (d.modify fun w => w.eraseSet n key).view.find? m key' =
      if (m == n) = true ∧ key' = key then none else d.view.find? m key' := by
  rw [← find?_working] at hfound
  change (d.working.eraseSet n key).find? m key' = _
  rw [← WorkingCopy.set?_content, WorkingCopy.content_eraseSet (proper_working h) hfound,
    Content.set?_eraseSet, WorkingCopy.set?_content, find?_working]

theorem find?_eraseName (d : Draft) (n m : Name) (key : SetKey) :
    (d.modify fun w => w.eraseName n).view.find? m key =
      if m == n then none else d.view.find? m key := by
  change (d.working.eraseName n).find? m key = _
  rw [← WorkingCopy.set?_content, WorkingCopy.content_eraseName, Content.set?_eraseName,
    WorkingCopy.set?_content, find?_working]

/-! ### Changes keep drafts solid -/

theorem solid_put (h : d.view.Solid) (n : Name) {s : RecordSet} (hs : s.isEmpty = false) :
    (d.modify fun w => w.put n s).view.Solid where
  proper := WorkingCopy.proper_put (proper_working h.proper) n s
  filled m key s' hs' := by
    rw [find?_put h.proper] at hs'
    split at hs'
    · cases hs'
      exact hs
    · exact h.filled m key s' hs'

theorem solid_eraseSet (h : d.view.Solid) {n : Name} {key : SetKey}
    (hfound : (d.view.find? n key).isSome = true) :
    (d.modify fun w => w.eraseSet n key).view.Solid where
  proper := WorkingCopy.proper_eraseSet (proper_working h.proper) n key
  filled m key' s hs := by
    rw [find?_eraseSet h.proper hfound] at hs
    split at hs
    · cases hs
    · exact h.filled m key' s hs

theorem solid_eraseName (h : d.view.Solid) (n : Name) :
    (d.modify fun w => w.eraseName n).view.Solid where
  proper := WorkingCopy.proper_eraseName (proper_working h.proper) n
  filled m key s hs := by
    rw [find?_eraseName] at hs
    split at hs
    · cases hs
    · exact h.filled m key s hs

theorem solid_clear (d : Draft) : d.clear.view.Solid where
  proper := trivial
  filled n key s hs := by cases hs

theorem solid_start {base : Version} (h : (VersionedView.committed base).Solid)
    (replacement : Bool) : (start base replacement).view.Solid := by
  cases replacement with
  | true => exact ⟨trivial, fun n key s hs => by cases hs⟩
  | false => exact h

/-- A change of the draft that only erases what the writer sees. -/
def Fits (d : Draft) : Change → Prop
  | .eraseName n => d.view.contains n = true
  | .eraseSet n key => (d.view.find? n key).isSome = true
  | _ => True

theorem changed_of_mem_version? {v : Version} (hv : v ∈ d.version?) : d.changed = true := by
  rw [version?] at hv
  split at hv
  · assumption
  · cases hv

/-- The version that a writer adds is its working copy. -/
theorem eq_freeze_of_mem_version? {v : Version} (hv : v ∈ d.version?) : v = d.working.freeze := by
  rw [version?, if_pos (changed_of_mem_version? hv)] at hv
  exact (Option.some.inj hv).symm

/-- The version that a writer adds holds the record sets that the writer sees. -/
theorem find?_version? {v : Version} (hv : v ∈ d.version?) (n : Name) (key : SetKey) :
    v.find? n key = d.view.find? n key := by
  change (VersionedView.committed v).find? n key = _
  rw [eq_freeze_of_mem_version? hv, VersionedView.find?_eq_set?,
    VersionedView.content_committed, WorkingCopy.content_freeze, WorkingCopy.set?_content,
    find?_working]

/-- The version that a writer adds is as solid as what it sees. -/
theorem solid_version? (h : d.view.Solid) {v : Version} (hv : v ∈ d.version?) :
    (VersionedView.committed v).Solid where
  proper := by
    rw [eq_freeze_of_mem_version? hv]
    exact WorkingCopy.proper_freeze (proper_working h.proper)
  filled n key s hs := h.filled n key s ((find?_version? hv n key).symm.trans hs)

end Draft

/-! ### What becomes of the draft of a writer -/

namespace VersionedZone

variable {t : Txn} {d : Draft}

theorem draft_of_apply {c : Change} {d' : Draft} (h : (t.apply c).access = .writing d') :
    ∃ d, t.access = .writing d ∧ d' = d.after c := by
  cases haccess : t.access with
  | writing d =>
      rw [access_apply haccess] at h
      cases h
      exact ⟨d, rfl, rfl⟩
  | _ =>
      have hmode := mode_apply t c
      rw [h, haccess] at hmode
      cases hmode

theorem find?_of_writing (z : VersionedZone) (h : t.access = .writing d) (n : Name)
    (key : SetKey) : Backend.find? z t.access n key = d.view.find? n key := by
  rw [h]
  rfl

theorem contains_of_writing (z : VersionedZone) (h : t.access = .writing d) (n : Name) :
    Backend.contains z t.access n = d.view.contains n := by
  rw [h]
  rfl

/-- A change that fits what a writer sees fits its draft. -/
theorem fits_of_writing {z : VersionedZone} (h : t.access = .writing d) {c : Change}
    (hfits : Transaction.Fits z t c) : d.Fits c := by
  cases c with
  | eraseName n => exact (z.contains_of_writing h n).symm.trans hfits
  | eraseSet n key =>
      rw [Transaction.Fits, z.find?_of_writing h] at hfits
      exact hfits
  | _ => trivial

end VersionedZone

namespace Usage

/-- A writer sees what is solid. -/
def SeesSolid (t : Txn) : Prop := ∀ d, t.access = .writing d → d.view.Solid

theorem SeesSolid.apply {z : VersionedZone} {t : Txn} (h : SeesSolid t) {c : Change}
    (hfits : Transaction.Fits z t c) (hsound : c.Sound t.origin) : SeesSolid (t.apply c) := by
  intro d' hd'
  obtain ⟨d, hd, rfl⟩ := VersionedZone.draft_of_apply hd'
  have hsolid := h d hd
  cases c with
  | nothing => exact hsolid
  | setOrigin origin => exact hsolid
  | put n s => exact Draft.solid_put hsolid n hsound.1
  | eraseName n => exact Draft.solid_eraseName hsolid n
  | eraseSet n key =>
      rw [Transaction.Fits, VersionedZone.find?_of_writing z hd] at hfits
      exact Draft.solid_eraseSet hsolid hfits
  | clear => exact d.solid_clear

theorem keeps_seesSolid (z : VersionedZone) :
    Transaction.Keeps (fun _ _ => True) z SeesSolid where
  adds _ _ := trivial
  learns _ _ _ := trivial
  apply _ _ _ _ hplan h :=
    h.apply (Transaction.plan_eq_ok hplan).2 (Transaction.sound_of_plan hplan)
  check _ _ h := h

/-- All that is seen of a zone in use is solid. -/
theorem zoneInvariant_solid {checks : Bool} :
    ZoneInvariant checks (fun _ _ => True) (fun _ v => (VersionedView.committed v).Solid)
      (fun _ t => SeesSolid t) where
  start z replacement _ h d hd := by
    cases hd
    exact Draft.solid_start h replacement
  keeps z _ := keeps_seesSolid z
  commit haccess _ h _ hv := Draft.solid_version? (h _ haccess) hv
  learn _ h := h

end Usage

theorem ZoneConfig.holds_solid (config : ZoneConfig) (actions : List Action) :
    (config.usage actions).Holds config.checksOrigin
      (fun _ v => (VersionedView.committed v).Solid) fun _ t => Usage.SeesSolid t :=
  ZoneConfig.holds_usage Usage.zoneInvariant_solid (VersionedView.solid_empty _ _)
    (Usage.admitsAll_of_forall (fun _ _ => trivial) _ actions)

theorem ZoneConfig.solid_usage (config : ZoneConfig) (actions : List Action) :
    (VersionedView.committed (config.usage actions).zone.latest).Solid :=
  (config.holds_solid actions).latest

end DnsZone
