import DnsZone.Proofs.VersionedZone.Draft
import DnsZone.Proofs.VersionedZone.History

/-!
# Which nodes versions share

A version takes over the nodes of the one before it, the very same objects, except at the names that
its writer has changed. There it has objects of its own, which are tagged with its number. Hence the
tag of a node tells since when the object has been at its name: it is shared with the earlier
versions that are numbered from the tag on, and with no others. Writers that are rolled back leave
nothing behind, so it does no harm that a later writer is given the same number.
-/

namespace DnsZone

open VersionedZone (Txn Move)

/-! ### Two versions of a zone -/

namespace Version

/-- No node comes from a later version. -/
def Dated (v : Version) : Prop :=
  ∀ n node, v.node? n = some node → node.value.tag.val ≤ v.id.val

/-- What the later version `w` has in common with `v`, and what it has not. -/
structure Precedes (v w : Version) : Prop where
  id_lt : v.id.val < w.id.val
  supply_le : v.supply ≤ w.supply
  /-- Nodes that are not younger than `v` are those of `v`. -/
  inherits : ∀ n node, w.node? n = some node → node.value.tag.val ≤ v.id.val →
    v.node? n = some node
  /-- Nodes that are younger than `v` have stamps that were not in use then. -/
  renews : ∀ n node, w.node? n = some node → v.id.val < node.value.tag.val →
    v.supply ≤ node.stamp

theorem Precedes.trans {v w x : Version} (h : v.Precedes w) (h' : w.Precedes x) :
    v.Precedes x where
  id_lt := h.id_lt.trans h'.id_lt
  supply_le := h.supply_le.trans h'.supply_le
  inherits n node hnode htag :=
    h.inherits n node (h'.inherits n node hnode (htag.trans h.id_lt.le)) htag
  renews n node hnode htag := by
    rcases Nat.lt_or_ge w.id.val node.value.tag.val with hnew | hold
    · exact h.supply_le.trans (h'.renews n node hnode hnew)
    · exact h.renews n node (h'.inherits n node hnode hold) htag

theorem stamp_lt_of_node? {v : Version} {n : Name} {node : Shared Node}
    (h : v.node? n = some node) : node.stamp < v.supply := by
  obtain ⟨e, he, _, rfl⟩ := OrderedMap.mem_of_find?_eq_some h
  exact v.stamp_lt e he

/-- A node that is younger than `v` is none of the objects in `v`. -/
theorem Precedes.same_eq_false {v w : Version} (h : v.Precedes w) {n m : Name}
    {node old : Shared Node} (hnode : w.node? n = some node)
    (htag : v.id.val < node.value.tag.val) (hold : v.node? m = some old) :
    old.same node = false := by
  have hlt : old.stamp < node.stamp :=
    (stamp_lt_of_node? hold).trans_le (h.renews n node hnode htag)
  rw [Shared.same, beq_eq_false_iff_ne]
  exact hlt.ne

/-- Both versions have one object at a name exactly if it is not younger than the earlier one. -/
theorem Precedes.exists_same_iff {v w : Version} (h : v.Precedes w) {n : Name}
    {node : Shared Node} (hnode : w.node? n = some node) :
    (∃ old, v.node? n = some old ∧ old.same node = true) ↔ node.value.tag.val ≤ v.id.val := by
  constructor
  · rintro ⟨old, hold, hsame⟩
    by_contra htag
    have hdiffers := h.same_eq_false hnode (Nat.lt_of_not_le htag) hold
    rw [hsame] at hdiffers
    cases hdiffers
  · intro htag
    exact ⟨node, h.inherits n node hnode htag, beq_self_eq_true _⟩

end Version

/-! ### Working copies -/

namespace WorkingCopy

/-- The nodes that the working copy has not made itself are those of `base`, and its own nodes are
new and carry its number. -/
structure Extends (base : Version) (w : WorkingCopy) : Prop where
  supply_le : base.supply ≤ w.supply
  shared : ∀ n node, w.slot? n = some (.shared node) → base.node? n = some node
  owned : ∀ n node, w.slot? n = some (.owned node) →
    node.value.tag = w.id ∧ base.supply ≤ node.stamp

variable {base : Version} {w : WorkingCopy}

theorem extends_fork (id : VersionId) (base : Version) (supply : Nat) :
    (fork id base supply).Extends base where
  supply_le := Nat.le_max_left _ _
  shared n node hslot := by
    rw [slot?_fork] at hslot
    obtain ⟨_, hnode, hshared⟩ := Option.map_eq_some_iff.mp hslot
    cases hshared
    exact hnode
  owned n node hslot := by
    rw [slot?_fork] at hslot
    obtain ⟨_, _, hshared⟩ := Option.map_eq_some_iff.mp hslot
    cases hshared

theorem extends_forkReplacing (id : VersionId) (base : Version) (supply : Nat) :
    (forkReplacing id base supply).Extends base where
  supply_le := Nat.le_max_left _ _
  shared n node hslot := by cases hslot
  owned n node hslot := by cases hslot

namespace Extends

theorem ownNode (h : w.Extends base) (n : Name) :
    (w.ownNode n).value.tag = w.id ∧ base.supply ≤ (w.ownNode n).stamp := by
  rw [WorkingCopy.ownNode]
  cases hslot : w.slot? n with
  | none => exact ⟨rfl, h.supply_le⟩
  | some slot =>
      cases slot with
      | shared node => exact ⟨rfl, h.supply_le⟩
      | owned node => exact h.owned n node hslot

/-- A change may take slots away and fill them with own nodes. -/
theorem change (h : w.Extends base) {w' : WorkingCopy} (hid : w'.id = w.id)
    (hsupply : w.supply ≤ w'.supply)
    (hslot : ∀ n slot, w'.slot? n = some slot → w.slot? n = some slot ∨
      ∃ node, slot = .owned node ∧ node.value.tag = w.id ∧ base.supply ≤ node.stamp) :
    w'.Extends base where
  supply_le := h.supply_le.trans hsupply
  shared n node hnode := by
    rcases hslot n _ hnode with hold | ⟨_, hown, _⟩
    · exact h.shared n node hold
    · cases hown
  owned n node hnode := by
    rw [hid]
    rcases hslot n _ hnode with hold | ⟨_, hown, hnew⟩
    · exact h.owned n node hold
    · cases hown
      exact hnew

theorem put (h : w.Extends base) (n : Name) (s : RecordSet) : (w.put n s).Extends base := by
  refine h.change rfl (Nat.le_add_right _ _) fun m slot hslot => ?_
  rw [slot?_put] at hslot
  split at hslot
  · cases hslot
    exact .inr ⟨_, rfl, h.ownNode n⟩
  · exact .inl hslot

theorem eraseName (h : w.Extends base) (n : Name) : (w.eraseName n).Extends base := by
  refine h.change (w.id_eraseName n) ?_ fun m slot hslot => ?_
  · rw [WorkingCopy.eraseName]
    split <;> exact le_rfl
  · rw [slot?_eraseName] at hslot
    split at hslot
    · cases hslot
    · exact .inl hslot

theorem eraseSet (h : w.Extends base) (n : Name) (key : SetKey) :
    (w.eraseSet n key).Extends base := by
  by_cases hfound : (w.find? n key).isSome = true
  · refine h.change (w.id_eraseSet n key) ?_ fun m slot hslot => ?_
    · rw [WorkingCopy.eraseSet, if_pos hfound]
      simp only
      split <;> exact Nat.le_add_right _ _
    · rw [slot?_eraseSet hfound] at hslot
      split at hslot
      · split at hslot
        · cases hslot
        · cases hslot
          exact .inr ⟨_, rfl, h.ownNode n⟩
      · exact .inl hslot
  · rw [WorkingCopy.eraseSet, if_neg hfound]
    exact h

/-- What stands at a name in the version that a working copy becomes. -/
theorem node?_freeze (h : w.Extends base) {n : Name} {node : Shared Node}
    (hnode : w.freeze.node? n = some node) :
    base.node? n = some node ∨ node.value.tag = w.id ∧ base.supply ≤ node.stamp := by
  rw [WorkingCopy.node?_freeze] at hnode
  obtain ⟨slot, hslot, rfl⟩ := Option.map_eq_some_iff.mp hnode
  cases slot with
  | shared node => exact .inl (h.shared n node hslot)
  | owned node => exact .inr (h.owned n node hslot)

theorem dated_freeze (h : w.Extends base) (hbase : base.Dated) (hid : base.id.val < w.id.val) :
    w.freeze.Dated := by
  intro n node hnode
  rcases h.node?_freeze hnode with hold | ⟨htag, _⟩
  · exact (hbase n node hold).trans hid.le
  · exact (congrArg VersionId.val htag).le

theorem precedes_freeze (h : w.Extends base) (hbase : base.Dated)
    (hid : base.id.val < w.id.val) : base.Precedes w.freeze where
  id_lt := hid
  supply_le := h.supply_le
  inherits n node hnode hle := by
    rcases h.node?_freeze hnode with hold | ⟨htag, _⟩
    · exact hold
    · rw [htag] at hle
      exact absurd hid (Nat.not_lt.mpr hle)
  renews n node hnode hlt := by
    rcases h.node?_freeze hnode with hold | ⟨_, hstamp⟩
    · exact absurd hlt (Nat.not_lt.mpr (hbase n node hold))
    · exact hstamp

end Extends

end WorkingCopy

namespace Draft

theorem extends_freshCopy (d : Draft) : d.freshCopy.Extends d.base := by
  rw [freshCopy]
  split
  · exact WorkingCopy.extends_forkReplacing _ _ _
  · exact WorkingCopy.extends_fork _ _ _

theorem extends_after {d : Draft} (h : d.working.Extends d.base) (c : Change) :
    (d.after c).working.Extends (d.after c).base := by
  cases c with
  | nothing => exact h
  | setOrigin origin => exact h
  | put n s => exact h.put n s
  | eraseName n => exact h.eraseName n
  | eraseSet n key => exact h.eraseSet n key
  | clear => exact extends_freshCopy d.clear

end Draft

theorem Transaction.Edited.extends {z : VersionedZone} {t t' : Txn} (h : t.Edited z t')
    (ht : ∀ d, t.access = .writing d → d.working.Extends d.base) :
    ∀ d, t'.access = .writing d → d.working.Extends d.base := by
  induction h with
  | refl => exact ht
  | apply _ hopen _ ih =>
      intro d' hd'
      obtain ⟨d, hd⟩ := VersionedZone.exists_draft hopen
      rw [VersionedZone.access_apply hd] at hd'
      cases hd'
      exact Draft.extends_after (ih d hd) _
  | check _ _ ih => exact ih

/-! ### Zones in use -/

namespace Usage

variable {u : Usage}

/-- All versions that there ever were and all open writers keep to what tags are to tell. -/
structure Tagged (u : Usage) : Prop where
  dated : ∀ v ∈ u.history, v.Dated
  ordered : u.history.Pairwise Version.Precedes
  drafts : ∀ p ∈ u.txns, ∀ d, p.txn.access = .writing d → d.working.Extends d.base

/-- A transaction is started or goes on. -/
theorem Tagged.keep (h : Tagged u) {u' : Usage} (hhistory : u'.history = u.history)
    (hdrafts : ∀ p ∈ u'.txns, p ∈ u.txns ∨
      ∀ d, p.txn.access = .writing d → d.working.Extends d.base) : Tagged u' where
  dated := hhistory ▸ h.dated
  ordered := hhistory ▸ h.ordered
  drafts p hp d hd := by
    rcases hdrafts p hp with hp | hp
    · exact h.drafts p hp d hd
    · exact hp d hd

theorem Historic.latest_mem (h : Historic u) : u.zone.latest ∈ u.history :=
  h.latest_suffix.subset (List.mem_singleton_self _)

/-- All versions but the latest precede that one. -/
theorem Tagged.precedes_latest (h : Tagged u) (hh : Historic u) {v : Version}
    (hv : v ∈ u.history) : v = u.zone.latest ∨ v.Precedes u.zone.latest := by
  obtain ⟨before, hbefore⟩ := hh.latest_suffix
  have hordered := h.ordered
  rw [← hbefore, List.pairwise_append] at hordered
  rw [← hbefore] at hv
  rcases List.mem_append.mp hv with hv | hv
  · exact .inr (hordered.2.2 v hv _ (List.mem_singleton_self _))
  · exact .inl (List.mem_singleton.mp hv)

/-- The version that a writer adds continues all that there were. -/
theorem Tagged.commit (h : Tagged u) (hh : Historic u) {d : Draft}
    (hbase : d.base = u.zone.latest) (hnumbered : d.Numbered)
    (hd : d.working.Extends d.base) {u' : Usage}
    (hhistory : u'.history = u.history ++ d.version?.toList)
    (hdrafts : ∀ p ∈ u'.txns, p ∈ u.txns ∨
      ∀ d, p.txn.access = .writing d → d.working.Extends d.base) : Tagged u' := by
  cases hversion : d.version? with
  | none =>
      rw [hversion, Option.toList_none, List.append_nil] at hhistory
      exact h.keep hhistory hdrafts
  | some v =>
      rw [hversion, Option.toList_some] at hhistory
      have hfreeze : v = d.working.freeze := Draft.eq_freeze_of_mem_version? hversion
      have hdated : d.base.Dated := hbase ▸ h.dated _ hh.latest_mem
      have hid : d.base.id.val < d.working.id.val := by
        rw [hnumbered]
        exact Nat.lt_succ_self _
      have hlatest : u.zone.latest.Precedes v := by
        rw [hfreeze, ← hbase]
        exact hd.precedes_freeze hdated hid
      refine ⟨fun w hw => ?_, ?_, fun p hp d' hd' => ?_⟩
      · rw [hhistory] at hw
        rcases List.mem_append.mp hw with hw | hw
        · exact h.dated w hw
        · rw [List.mem_singleton.mp hw, hfreeze]
          exact hd.dated_freeze hdated hid
      · rw [hhistory, List.pairwise_append]
        refine ⟨h.ordered, List.pairwise_singleton _ _, fun w hw v' hv' => ?_⟩
        cases List.mem_singleton.mp hv'
        rcases h.precedes_latest hh hw with rfl | hw
        · exact hlatest
        · exact hw.trans hlatest
      · rcases hdrafts p hp with hp | hp
        · exact h.drafts p hp d' hd'
        · exact hp d' hd'

theorem Tagged.move (h : Tagged u) (hw : Writers u) (hh : Historic u) {i : Nat}
    {p : Participant} (hp : u.txns[i]? = some p) {t : Txn} {z : VersionedZone}
    (hmove : Move u.zone p.txn t z) (calls : List Call) (committed : List Script) :
    Tagged
      { u with
        zone := z
        txns := u.txns.set i { p with calls := calls, txn := t }
        committed := committed
        history := u.historyWith z } := by
  have hmem := List.mem_of_getElem? hp
  have hset (ht : ∀ d, t.access = .writing d → d.working.Extends d.base) :
      ∀ q ∈ u.txns.set i { p with calls := calls, txn := t }, q ∈ u.txns ∨
        ∀ d, q.txn.access = .writing d → d.working.Extends d.base := by
    intro q hq
    rcases List.mem_or_eq_of_mem_set hq with hq | rfl
    · exact .inl hq
    · exact .inr ht
  cases hmove with
  | stays hedited =>
      exact h.keep (historyWith_of_latest rfl) (hset (hedited.extends (h.drafts p hmem)))
  | readerEnds => exact h.keep (historyWith_of_latest rfl) (hset nofun)
  | writerCommits hd learned? =>
      obtain ⟨hbase, hnumbered⟩ := hw.based p hmem _ hd
      exact h.commit hh hbase hnumbered (h.drafts p hmem _ hd)
        (historyWith_install hbase hnumbered learned?) (hset nofun)
  | writerEnds => exact h.keep (historyWith_of_latest rfl) (hset nofun)

theorem Tagged.quiet (h : Tagged u) {u' : Usage} (hquiet : Quiet u u') : Tagged u' := by
  have happend {p : Participant}
      (hp : ∀ d, p.txn.access = .writing d → d.working.Extends d.base) :
      ∀ q ∈ u.txns ++ [p], q ∈ u.txns ∨
        ∀ d, q.txn.access = .writing d → d.working.Extends d.base := by
    intro q hq
    rcases List.mem_append.mp hq with hq | hq
    · exact .inl hq
    · cases List.mem_singleton.mp hq
      exact .inr hp
  cases hquiet with
  | turns => exact h.keep rfl fun p hp => .inl hp
  | policy => exact h.keep rfl fun p hp => .inl hp
  | begins replacement =>
      refine h.keep rfl (happend fun d hd => ?_)
      cases hd
      exact Draft.extends_freshCopy (.start u.zone.latest replacement)
  | reads => exact h.keep rfl (happend nofun)

theorem Tagged.effect (h : Tagged u) (hw : Writers u) (hh : Historic u) {u' : Usage}
    (heffect : Effect u u') : Tagged u' := by
  cases heffect with
  | quiet hquiet => exact h.quiet hquiet
  | calls hp c => exact h.move hw hh hp (VersionedZone.move_call hw.alive c) _ _
  | drops hp => exact h.move hw hh hp (VersionedZone.move_drop hw.alive) _ _

theorem tagged_fresh {z : VersionedZone} (h : z.latest.isEmpty = true) : Tagged (fresh z) where
  dated v hv := by
    cases List.mem_singleton.mp hv
    intro n node hnode
    have hnone := OrderedMap.isEmpty_iff_find?_eq_none.mp h n
    cases hnone.symm.trans hnode
  ordered := List.pairwise_singleton _ _
  drafts p hp := by cases hp

/-- Of two versions, the one with the lower number precedes the other. -/
theorem Tagged.precedes (h : Tagged u) {v w : Version} (hv : v ∈ u.history)
    (hw : w ∈ u.history) (hlt : v.id.val < w.id.val) : v.Precedes w := by
  obtain ⟨i, hi, rfl⟩ := List.getElem_of_mem hv
  obtain ⟨j, hj, rfl⟩ := List.getElem_of_mem hw
  have hordered := List.pairwise_iff_getElem.mp h.ordered
  rcases Nat.lt_trichotomy i j with hij | rfl | hij
  · exact hordered i j hi hj hij
  · exact absurd hlt (Nat.lt_irrefl _)
  · exact absurd hlt (hordered j i hj hi hij).id_lt.asymm

/-- The tag of a node tells since when the object has been at its name. -/
structure TagsTell (u : Usage) : Prop where
  /-- No node of a version comes from a later version. -/
  dated : ∀ v ∈ u.zone.chain.toList, ∀ n node, v.node? n = some node →
    node.value.tag.val ≤ v.id.val
  /-- An earlier version has the same object at a name exactly if the tag is not above its
  number. -/
  shared_iff : ∀ v ∈ u.zone.chain.toList, ∀ w ∈ u.zone.chain.toList, v.id.val < w.id.val →
    ∀ n node, w.node? n = some node →
      ((∃ old, v.node? n = some old ∧ old.same node = true) ↔ node.value.tag.val ≤ v.id.val)
  /-- One object is one node, with its tag and its record sets. -/
  identical : ∀ v ∈ u.zone.chain.toList, ∀ w ∈ u.zone.chain.toList, v.id.val < w.id.val →
    ∀ n old node, v.node? n = some old → w.node? n = some node → old.same node = true →
      old = node
  /-- A node with a tag above the number of an earlier version is none of the objects there. -/
  distinct : ∀ v ∈ u.zone.chain.toList, ∀ w ∈ u.zone.chain.toList, v.id.val < w.id.val →
    ∀ n node, w.node? n = some node → v.id.val < node.value.tag.val →
      ∀ m old, v.node? m = some old → old.same node = false

theorem Tagged.tagsTell (h : Tagged u) (hh : Historic u) : TagsTell u where
  dated v hv := h.dated v (hh.kept.subset hv)
  shared_iff v hv w hw hlt n node hnode :=
    (h.precedes (hh.kept.subset hv) (hh.kept.subset hw) hlt).exists_same_iff hnode
  identical v hv w hw hlt n old node hold hnode hsame := by
    have hprecedes := h.precedes (hh.kept.subset hv) (hh.kept.subset hw) hlt
    have htag := (hprecedes.exists_same_iff hnode).mp ⟨old, hold, hsame⟩
    exact Option.some.inj (hold.symm.trans (hprecedes.inherits n node hnode htag))
  distinct v hv w hw hlt n node hnode htag m old hold :=
    (h.precedes (hh.kept.subset hv) (hh.kept.subset hw) hlt).same_eq_false hnode htag hold

end Usage

theorem ZoneConfig.tagged_usage (config : ZoneConfig) (actions : List Action) :
    (config.usage actions).Tagged :=
  (Usage.run_induction (P := fun u => (u.Writers ∧ u.Historic) ∧ u.Tagged)
    (fun heffect h => ⟨⟨h.1.1.effect heffect, h.1.2.effect h.1.1 heffect⟩,
      h.2.effect h.1.1 h.1.2 heffect⟩)
    ⟨⟨Usage.writers_fresh rfl rfl, Usage.historic_fresh rfl rfl⟩, Usage.tagged_fresh rfl⟩
    actions).2

/-- However readers and writers of a new zone come and go, whatever they write, replace or drop,
and whatever its policy is: the tag of a node in a version that the zone has tells with which of the
earlier versions the node is shared. -/
theorem ZoneConfig.tagsTell_usage (config : ZoneConfig) (actions : List Action) :
    (config.usage actions).TagsTell :=
  (config.tagged_usage actions).tagsTell (config.historic_usage actions)

end DnsZone
