import DnsZone.Proofs.Ledger.Listing
import DnsZone.Proofs.Ledger.Writer
import DnsZone.Proofs.VersionedZone.Draft

/-!
# Writers of a versioned zone keep a ledger

A writer sees a committed version, nothing, or a working copy that shares nodes with the version
below. None of this shows: every edit is answered as a ledger of the record sets answers it, and
after it the writer sees exactly the record sets of the ledger.
-/

namespace DnsZone

open VersionedZone (Txn)

/-- The writer goes by the origin and the checks of the ledger and sees its record sets. -/
structure Ledger.Mirrors (l : Ledger) (t : Txn) : Prop where
  origin : t.origin = l.origin
  checks : t.checks = l.checks
  draft : ∃ d, t.access = .writing d ∧ d.view.Solid ∧
    ∀ n key, d.view.find? n key = l.table.set? n key

/-- Who finds the record sets of a table in what is solid sees the table. -/
theorem VersionedZone.seenBy (z : VersionedZone) (access : VersionedAccess)
    (h : access.view.Solid) {m : SetTable}
    (hm : ∀ n key, access.view.find? n key = m.set? n key) : m.SeenBy z access := by
  refine SetTable.seenBy_of_shows (z.shows access h.proper) ?_ fun n key => ?_
  · intro n node
    exact VersionedView.isEmpty_of_node? h.proper
  · rw [← VersionedView.find?_eq_set?]
    exact hm n key

/-- What a writer with a solid draft stages acts on the record sets that it finds, and keeps what is
true of the draft after every fitting change. -/
theorem VersionedZone.stagesSets (z : VersionedZone) {P : Draft → Prop}
    (hP : ∀ d c, P d → d.Fits c → P (d.after c)) :
    Transaction.StagesSets z fun a : VersionedAccess =>
      ∃ d, a = .writing d ∧ d.view.Solid ∧ P d where
  writing := by
    rintro _ ⟨d, rfl, -⟩
    rfl
  key_eq := by
    rintro _ ⟨d, rfl, -⟩ n key s hs
    exact VersionedView.key_of_find? hs
  filled := by
    rintro _ ⟨d, rfl, hsolid, -⟩ n key s hs
    exact hsolid.filled n key s hs
  contains_iff := by
    rintro _ ⟨d, rfl, hsolid, -⟩ n
    refine (z.shows (.writing d) hsolid.proper).contains_iff (fun n node => ?_) n
    exact VersionedView.isEmpty_of_node? hsolid.proper
  put := by
    rintro _ ⟨d, rfl, hsolid, hd⟩ n s hs
    exact ⟨⟨_, rfl, Draft.solid_put hsolid n hs, hP d (.put n s) hd trivial⟩,
      fun m key => Draft.find?_put hsolid.proper n m s key⟩
  eraseName := by
    rintro _ ⟨d, rfl, hsolid, hd⟩ n hfound
    exact ⟨⟨_, rfl, Draft.solid_eraseName hsolid n, hP d (.eraseName n) hd hfound⟩,
      fun m key => d.find?_eraseName n m key⟩
  eraseSet := by
    rintro _ ⟨d, rfl, hsolid, hd⟩ n key hfound
    exact ⟨⟨_, rfl, Draft.solid_eraseSet hsolid hfound, hP d (.eraseSet n key) hd hfound⟩,
      fun m key' => Draft.find?_eraseSet hsolid.proper hfound m key'⟩
  clear := by
    rintro _ ⟨d, rfl, -, hd⟩
    exact ⟨⟨_, rfl, d.solid_clear, hP d .clear hd trivial⟩, fun _ _ => rfl⟩

namespace Ledger.Mirrors

variable {l : Ledger} {t : Txn}

/-- The laws of writers, of which only that the draft is solid has to be known. -/
theorem laws (z : VersionedZone) : Transaction.StagesSets z fun a : VersionedAccess =>
    ∃ d, a = .writing d ∧ d.view.Solid ∧ True := z.stagesSets fun _ _ h _ => h

theorem accountsFor_iff (z : VersionedZone) :
    l.Mirrors t ↔ l.AccountsFor z (fun a => ∃ d, a = .writing d ∧ d.view.Solid ∧ True) t := by
  constructor
  · rintro ⟨horigin, hchecks, d, hd, hsolid, hfind⟩
    refine ⟨⟨d, hd, hsolid, trivial⟩, horigin, hchecks, fun n key => ?_⟩
    rw [VersionedZone.find?_of_writing z hd, hfind]
  · rintro ⟨⟨d, hd, hsolid, -⟩, horigin, hchecks, hfind⟩
    refine ⟨horigin, hchecks, d, hd, hsolid, fun n key => ?_⟩
    rw [← VersionedZone.find?_of_writing z hd, hfind]

theorem find?_eq (h : l.Mirrors t) (z : VersionedZone) (n : Name) (key : SetKey) :
    Backend.find? z t.access n key = l.table.set? n key :=
  ((accountsFor_iff z).mp h).find?_eq n key

/-- A writer sees exactly the record sets of the ledger. -/
theorem seenBy (h : l.Mirrors t) (z : VersionedZone) : l.table.SeenBy z t.access := by
  obtain ⟨d, hd, hsolid, hfind⟩ := h.draft
  rw [hd]
  exact z.seenBy (.writing d) hsolid hfind

/-- Writer and ledger give the same result for every edit and go on alike. -/
theorem edit (h : l.Mirrors t) (z : VersionedZone) (e : Edit) :
    (t.edit z e).1 = (l.edit e).1 ∧ (l.edit e).2.Mirrors (t.edit z e).2 := by
  obtain ⟨hresult, hnext⟩ := ((accountsFor_iff z).mp h).edit (laws z) e
  exact ⟨hresult, (accountsFor_iff z).mpr hnext⟩

theorem editAll (h : l.Mirrors t) (z : VersionedZone) (edits : List Edit) :
    (t.editAll z edits).1 = (l.editAll edits).1 ∧
      (l.editAll edits).2.Mirrors (t.editAll z edits).2 := by
  obtain ⟨hresults, hlast⟩ := ((accountsFor_iff z).mp h).editAll (laws z) edits
  exact ⟨hresults, (accountsFor_iff z).mpr hlast⟩

end Ledger.Mirrors

/-- The ledger of a writer that is started on a zone: what the latest version lists, or nothing if
the writer is to replace that. -/
def Ledger.ofZone (z : VersionedZone) (replacement : Bool) (checks : Checks) : Ledger where
  origin := z.origin
  checks := checks
  table := if replacement then .empty else .ofListing z.latest.sets

theorem Ledger.mirrors_ofZone {z : VersionedZone}
    (h : (VersionedView.committed z.latest).Solid) (replacement : Bool) (checks : Checks) :
    (ofZone z replacement checks).Mirrors { z.startWriter replacement with checks := checks } where
  origin := rfl
  checks := rfl
  draft := by
    refine ⟨.start z.latest replacement, rfl, Draft.solid_start h replacement, fun n key => ?_⟩
    cases replacement with
    | true => rfl
    | false =>
        have hsets : z.latest.sets = ownedSets (VersionedView.committed z.latest).nodes := rfl
        change (VersionedView.committed z.latest).find? n key =
          (SetTable.ofListing z.latest.sets).set? n key
        rw [hsets, SetTable.set?_ofListing_ownedSets (VersionedView.nodeListing_nodes _),
          VersionedView.find?_eq_set?, Content.set?, VersionedView.content, Option.bind_map]
        rfl

/-- A writer answers edits as the ledger does, after them sees the record sets of the ledger and no
others, and by the next edit changes only what this is about. -/
structure Ledger.KeptBy (z : VersionedZone) (t : Txn) (edits : List Edit) (l : Ledger) : Prop where
  results : (t.editAll z edits).1 = (l.editAll edits).1
  seen : (l.editAll edits).2.table.SeenBy z (t.editAll z edits).2.access
  frame : ∀ e n key, ¬ touches (t.editAll z edits).2.origin n key e →
    Backend.find? z ((t.editAll z edits).2.edit z e).2.access n key =
      Backend.find? z (t.editAll z edits).2.access n key

theorem Ledger.Mirrors.keptBy {l : Ledger} {t : Txn} (h : l.Mirrors t) (z : VersionedZone)
    (edits : List Edit) : l.KeptBy z t edits := by
  obtain ⟨hresults, hlast⟩ := h.editAll z edits
  refine ⟨hresults, hlast.seenBy z, fun e n key htouches => ?_⟩
  rw [hlast.origin] at htouches
  rw [(hlast.edit z e).2.find?_eq, hlast.find?_eq, Ledger.frame_edit _ htouches]

/-- Whatever has been done to a zone before, and whatever becomes of it in the meantime: a writer
started on it keeps a ledger of the record sets of the latest version, or of none of them if it is
to replace the content. -/
theorem ZoneConfig.ledger_keptBy_writer (config : ZoneConfig) (actions : List Action)
    (replacement : Bool) (checks : Checks) (meanwhile : VersionedZone) (edits : List Edit) :
    (Ledger.ofZone (config.usage actions).zone replacement checks).KeptBy meanwhile
      { (config.usage actions).zone.startWriter replacement with checks := checks } edits :=
  (Ledger.mirrors_ofZone (config.solid_usage actions) replacement checks).keptBy meanwhile edits

end DnsZone
