import DnsZone.Proofs.PlainZone.Moves
import DnsZone.Proofs.PlainZone.View
import DnsZone.Proofs.Staging.Spelling
import DnsZone.Proofs.Transaction.Exchange
import DnsZone.Proofs.Transaction.Sight
import DnsZone.Proofs.VersionedZone.Draft

/-!
# What a writer sees is what it publishes

Once the commit of a writer was accepted, a reader started right after it sees exactly what the
writer saw, to the letter. A versioned zone gets the working copy of the writer as its next version,
and a plain zone is written name by name from what the writer has staged. If there are no changes
nothing is written at all, and then the writer saw just what the zone held.
-/

namespace DnsZone

open VersionedZone (Txn)

/-! ### Versioned zones -/

theorem VersionedZone.seesNodes (z : VersionedZone) (access : VersionedAccess) :
    SeesNodes z access access.view.nodes where
  node? n := (access.view.nodeListing_nodes.lookup_eq n).symm
  find? n key := by
    change access.view.find? n key = (access.view.node? n).bind _
    rw [VersionedView.find?_eq_set?, Content.set?, VersionedView.content, Option.bind_map]
    rfl
  contains n := by
    change access.view.contains n = (access.view.node? n).isSome
    rw [VersionedView.contains_eq_isSome, VersionedView.content, Option.isSome_map]
  sets := access.view.sets_eq_ownedSets

namespace Draft

/-- The working copy, if it was made, has changes. -/
def Touched (d : Draft) : Prop := ∀ w, d.copy? = some w → w.hasChanges = true

theorem touched_modify {d : Draft} {f : WorkingCopy → WorkingCopy}
    (h : (f d.working).hasChanges = true) : (d.modify f).Touched := by
  intro w hw
  cases hw
  exact h

/-- Changes that fit what a writer sees make a working copy only to change it. -/
theorem touched_after {d : Draft} (h : d.Touched) {c : Change} (hfits : d.Fits c) :
    (d.after c).Touched := by
  cases c with
  | nothing => exact h
  | setOrigin origin => exact h
  | put n s => exact touched_modify (d.working.hasChanges_put n s)
  | eraseName n =>
      refine touched_modify (WorkingCopy.hasChanges_eraseName ?_)
      rw [d.contains_working]
      exact hfits
  | eraseSet n key =>
      refine touched_modify (WorkingCopy.hasChanges_eraseSet ?_)
      rw [d.find?_working]
      exact hfits
  | clear =>
      intro w hw
      cases hw

/-- A commit leaves the nodes that the writer has seen as the latest version. -/
theorem nodes_committed {d : Draft} (h : d.Touched) :
    (VersionedView.committed (d.version?.getD d.base)).nodes = d.view.nodes := by
  obtain ⟨base, replacement, copy?⟩ := d
  cases copy? with
  | some w =>
      have hchanged : (mk base replacement (some w)).changed = true := h w rfl
      rw [version?, if_pos hchanged]
      exact List.map_map
  | none =>
      cases replacement with
      | false => rfl
      | true =>
          -- nothing is written if there was no content to replace
          cases hempty : base.isEmpty with
          | false =>
              have hchanged : (mk base true none).changed = true := by simp [changed, hempty]
              rw [version?, if_pos hchanged]
              rfl
          | true =>
              have hnil : base.nodes.toList = [] := List.isEmpty_iff.mp hempty
              simp [version?, changed, hempty, VersionedView.nodes, view, hnil]

end Draft

namespace Usage

theorem touched_apply {z : VersionedZone} {t : Txn} (h : ∀ d, t.access = .writing d → d.Touched)
    {c : Change} (hfits : Transaction.Fits z t c) {d' : Draft}
    (hd' : (t.apply c).access = .writing d') : d'.Touched := by
  obtain ⟨d, hd, rfl⟩ := VersionedZone.draft_of_apply hd'
  exact Draft.touched_after (h d hd) (VersionedZone.fits_of_writing hd hfits)

theorem zoneInvariant_touched {checks : Bool} :
    ZoneInvariant checks (fun _ _ => True) (fun _ _ => True)
      (fun _ t => ∀ d, t.access = .writing d → d.Touched) where
  start z replacement _ _ d hd := by
    cases hd
    intro w hw
    cases hw
  keeps z o :=
    { adds := fun _ _ => trivial
      learns := fun _ _ _ => trivial
      apply := fun t e r _ hplan h d hd => touched_apply h (Transaction.plan_eq_ok hplan).2 hd
      check := fun _ _ h => h }
  commit _ _ _ _ _ := trivial
  learn _ _ := trivial

/-- Every open writer of the zone publishes what it sees. -/
def Published (u : Usage) : Prop := ∀ p ∈ u.txns, p.writes = true → p.txn.Publishes u.zone

/-- A writer whose draft is touched publishes what it sees. -/
theorem Writers.publishes {u : Usage} (hw : u.Writers) {p : Participant} (hp : p ∈ u.txns)
    {d : Draft} (hd : p.txn.access = .writing d) (htouched : d.Touched) :
    p.txn.Publishes u.zone := by
  intro hok
  obtain ⟨hopen, hcommit⟩ := Transaction.close_of_commit_ok hok
  rw [hcommit, VersionedZone.close_of_writing hw.alive hd]
  generalize p.txn.learned? = learned?
  refine ⟨_, _, VersionedZone.reader_eq none (u.zone.install d learned?), ?_⟩
  -- a writer that adds no version is based on the one that stays the latest
  have hlatest := u.zone.latest_install d learned?
  rw [← (hw.based p hp d hd).1] at hlatest
  have hreader (z : VersionedZone) := z.seesNodes (.reading (u.zone.install d learned?).latest)
  refine .of_nodes (VersionedZone.seesNodes u.zone p.txn.access) ?_ hopen rfl
  have hnodes : p.txn.access.view.nodes =
      (VersionedView.committed (u.zone.install d learned?).latest).nodes := by
    rw [hlatest, Draft.nodes_committed htouched, hd]
    rfl
  rw [hnodes]
  exact hreader _

end Usage

theorem ZoneConfig.published_usage (config : ZoneConfig) (actions : List Action) :
    (config.usage actions).Published := by
  intro p hp hwrites
  have htouched := (ZoneConfig.holds_usage Usage.zoneInvariant_touched trivial
    (Usage.admitsAll_of_forall (fun _ _ => trivial) _ actions)).writers p hp hwrites
  cases hd : p.txn.access with
  | writing d => exact (config.writers_usage actions).publishes hp hd (htouched d hd)
  | _ => simp [Participant.writes, hd, Access.mode, VersionedAccess.mode] at hwrites

/-! ### Plain zones -/

namespace PlainZone

theorem seesNodes (z : PlainZone) {access : PlainAccess} (h : access.Proper) :
    SeesNodes z access (z.nodesIn access) where
  node? n := ((z.nodeListing_nodesIn access).lookup_eq n).symm
  find? n key := by
    change z.findIn? access n key = (z.nodeIn? access n).bind _
    rw [z.findIn?_eq_set? h, Content.set?, contentIn, Option.bind_map]
    rfl
  contains n := rfl
  sets := z.setsIn_eq_ownedSets access

/-- Whatever is asked of a writer, it stages record sets under their own keys. -/
theorem keeps_proper (z : PlainZone) :
    Transaction.Keeps (fun _ _ => True) z fun t => t.access.Proper where
  adds _ _ := trivial
  learns _ _ _ := trivial
  apply t e r _ _ h := by
    cases r.1 with
    | nothing => exact h
    | setOrigin origin => exact h
    | put n s => exact proper_put h n s
    | eraseName n => exact proper_eraseName h n
    | eraseSet n key => exact proper_eraseSet h n key
    | clear => exact proper_clear h
  check _ _ h := h

/-- An installed commit leaves the nodes that the writer has seen. -/
theorem nodes_install (z : PlainZone) (s : Staging) :
    (z.install s).nodesIn .reading = z.nodesIn (.writing s) := by
  change (z.install s).nodes.toList.map _ = s.nodes z.nodes z.generation.next
  rw [install]
  cases hchanges : s.hasChanges z.nodes with
  | true => exact s.toList_commit z.nodes z.generation.next
  | false => exact Staging.nodes_of_not_hasChanges hchanges z.generation.next

theorem publishes (z : PlainZone) {t : Transaction PlainAccess} (h : t.access.Proper) :
    t.Publishes z := by
  intro hok
  obtain ⟨hopen, hcommit⟩ := Transaction.close_of_commit_ok hok
  have hreader (z' : PlainZone) : SeesNodes z' .reading (z'.nodesIn .reading) :=
    z'.seesNodes fun s hs => by cases hs
  refine ⟨_, _, rfl, .of_nodes (z.seesNodes h) ?_ hopen rfl⟩
  rw [hcommit]
  cases haccess : t.access with
  | reading =>
      have hclose : (t.close true z).2.2 = (z.finish true t.learned? t.access).2 := rfl
      rw [hclose, haccess]
      exact hreader z
  | writing s =>
      rw [z.close_of_writing haccess]
      have hnodes := (z.learn t.learned?).nodes_install s
      change SeesNodes _ _ ((z.learn t.learned?).nodesIn (.writing s))
      rw [← hnodes]
      exact hreader _
  | ended =>
      rw [Transaction.isEnded, haccess] at hopen
      cases hopen

/-- Every writer that is started on the zone publishes what it sees, whatever calls come before. -/
def Published (z : PlainZone) : Prop :=
  ∀ replacement t z', Transaction.writer? replacement z = some (t, z') →
    ∀ calls, (t.exchange z' calls).2.1.Publishes (t.exchange z' calls).2.2

theorem published (z : PlainZone) : z.Published := by
  intro replacement t z' ht calls
  have hstart : t.access.Proper := by
    rw [writer?_eq] at ht
    split at ht
    · cases ht
    · cases ht
      exact proper_start _ _
  refine publishes _ (Transaction.Keeps.exchange keeps_proper (fun _ _ s hs => ?_) hstart
    (Transaction.admitsAll_of_forall (fun _ _ => trivial) t z' calls))
  cases hs

end PlainZone

/-- What a writer sees is what it publishes: on a versioned zone whatever its users have done, and
on every plain zone whatever calls were made on the writer. -/
theorem writers_publish_what_they_see :
    (∀ (config : ZoneConfig) (actions : List Action), (config.usage actions).Published) ∧
      ∀ z : PlainZone, z.Published :=
  ⟨ZoneConfig.published_usage, PlainZone.published⟩

end DnsZone
