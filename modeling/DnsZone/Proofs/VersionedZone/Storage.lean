import DnsZone.Proofs.Publication
import DnsZone.Proofs.Storage
import DnsZone.Proofs.VersionedZone.Ledger
import DnsZone.Updater

/-!
# Versioned zones store what is committed

The content of a versioned zone is that of its latest version. A writer that is based on it and has
made its working copy only to change something leaves what it sees as the next version, or adds none
if it has not changed anything.
-/

namespace DnsZone.VersionedZone

/-- The zone is in use, and no node or record set of its latest version is empty. -/
structure Sound (z : VersionedZone) : Prop where
  alive : z.alive = true
  solid : (VersionedView.committed z.latest).Solid

/-- The state of a writer that is open on the zone. -/
def Ready (z : VersionedZone) (a : VersionedAccess) : Prop :=
  ∃ d, a = .writing d ∧ d.view.Solid ∧ d.Touched ∧ d.base = z.latest

variable {z : VersionedZone}

/-- A writer to which access was granted starts from the record sets of the zone. -/
theorem Sound.ready_begin (h : z.Sound) : z.Ready (z.begin false) := by
  have htouched : (Draft.start z.latest false).Touched := fun w hw => by cases hw
  exact ⟨.start z.latest false, rfl, Draft.solid_start h.solid false, htouched, rfl⟩

theorem Sound.seenBy (h : z.Sound) {m : SetTable} (hm : DirectStore.Has z m)
    (z' : VersionedZone) : m.SeenBy z' (VersionedAccess.reading z.latest) :=
  z'.seenBy (.reading z.latest) h.solid hm

/-- The record sets that a versioned zone stores. -/
theorem has_latest (z : VersionedZone) :
    DirectStore.Has z (.ofListing z.latest.sets) := by
  intro n key
  have hsets : z.latest.sets = ownedSets (VersionedView.committed z.latest).nodes := rfl
  rw [hsets, SetTable.set?_ofListing_ownedSets (VersionedView.nodeListing_nodes _)]
  exact (z.seesNodes (.reading z.latest)).find? n key

/-- Readers that are started see one of the versions. -/
theorem seenAlike_of_chain_eq {z' : VersionedZone} (hchain : z'.chain = z.chain)
    (horigin : z'.origin = z.origin) : Host.SeenAlike z z' := by
  intro query?
  have hselect : z'.select query? = z.select query? := by
    rw [select.eq_def, select.eq_def, latest, latest, hchain, horigin]
  have hreader (z₁ : VersionedZone) (v : Version) := z₁.seesNodes (.reading v)
  rw [reader_eq, reader_eq, hselect]
  refine (SameResult.of_eq (x := z.select query?) rfl).map fun v v' hv => ?_
  subst hv
  exact .of_nodes (hreader _ v) (hreader _ v) rfl rfl

/-- An installed commit leaves the record sets that the writer has found. -/
theorem find?_latest_install {d : Draft} (htouched : d.Touched) (hbase : d.base = z.latest)
    (learned? : Option Name) (n : Name) (key : SetKey) :
    (z.install d learned?).latest.find? n key = d.view.find? n key := by
  have hcommitted := z.seesNodes (.reading (d.version?.getD d.base))
  have hwriter := z.seesNodes (.writing d)
  have hnodes : (VersionedView.committed (d.version?.getD d.base)).nodes = d.view.nodes :=
    Draft.nodes_committed htouched
  rw [latest_install, ← hbase]
  change Backend.find? z (VersionedAccess.reading (d.version?.getD d.base)) n key =
    Backend.find? z (VersionedAccess.writing d) n key
  rw [hcommitted.find?, hwriter.find?, hcommitted.node?, hwriter.node?]
  exact congrArg (fun nodes => (OrderedMap.lookup Name.compare n nodes).bind _) hnodes

theorem Sound.install (h : z.Sound) {d : Draft} (hsolid : d.view.Solid)
    (learned? : Option Name) : (z.install d learned?).Sound := by
  refine ⟨?_, ?_⟩
  · rw [install_eq]
    exact h.alive
  · rw [latest_install]
    cases hversion : d.version? with
    | none => exact h.solid
    | some v => exact Draft.solid_version? hsolid hversion

instance : Storage VersionedZone VersionedAccess where
  Sound := Sound
  Ready := Ready
  mode_ended := rfl
  mode_apply := mode_apply
  mode_open {z z' a replacement} hopen := by
    obtain ⟨admission, -, heq⟩ := Option.map_eq_some_iff.mp hopen
    cases heq
    rfl
  stages {z} _ := z.stagesSets fun d c hd hfits =>
    ⟨Draft.touched_after hd.1 hfits, (d.base_after c).trans hd.2⟩
  changed_put {z a} h n s := by
    obtain ⟨d, rfl, -⟩ := h
    exact d.working.hasChanges_put n s
  opens {z z' a} h hopen := by
    obtain ⟨admission, -, heq⟩ := Option.map_eq_some_iff.mp hopen
    cases heq
    exact ⟨⟨h.alive, h.solid⟩, h.ready_begin, rfl, fun _ _ => rfl, fun _ _ => rfl⟩
  commits {z a} h ha learned? := by
    obtain ⟨d, rfl, hsolid, htouched, hbase⟩ := ha
    refine ⟨z.install d learned?, if_pos h.alive, h.install hsolid learned?, ?_,
      find?_latest_install htouched hbase learned?⟩
    rw [install_eq]
    rfl
  discards {z a} h ha learned? := by
    obtain ⟨d, rfl, -⟩ := ha
    exact ⟨z.release, if_pos h.alive, ⟨h.alive, h.solid⟩, rfl, seenAlike_of_chain_eq rfl rfl,
      fun _ _ => rfl⟩
  shows {z m} h hm := ⟨_, _, reader_eq none z, h.seenBy hm _⟩
  seenAlike_self _ := seenAlike_of_chain_eq rfl rfl

/-- An updater that was granted access to the zone. -/
def startUpdater (z : VersionedZone) : Updater VersionedAccess :=
  ⟨some (z.startWriter false), false⟩

/-- However a zone is used, it is sound. -/
theorem sound_usage (config : ZoneConfig) (actions : List Action) :
    (config.usage actions).zone.Sound :=
  ⟨(config.writers_usage actions).alive, config.solid_usage actions⟩

end DnsZone.VersionedZone
