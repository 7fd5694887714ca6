import DnsZone.Proofs.VersionChain
import DnsZone.Proofs.VersionedZone.Writers

/-!
# All versions that there ever were

The versions of a zone are numbered from one, and every commit that changes something adds the next
one. Those that the zone still has are the last of them.
-/

namespace DnsZone.Usage

open VersionedZone (Txn Move)

variable {u : Usage}

/-- The zone has kept the last of all versions, which are numbered in order. -/
structure Historic (u : Usage) : Prop where
  kept : u.zone.chain.toList <:+ u.history
  numbered : u.history.map (·.id.val) = List.range' 1 u.history.length

theorem historyWith_of_latest {z : VersionedZone} (h : z.latest = u.zone.latest) :
    u.historyWith z = u.history := if_pos (congrArg Version.id h)

/-- A commit adds at most one version to those that there ever were. -/
theorem historyWith_install {d : Draft} (hbase : d.base = u.zone.latest) (hnumbered : d.Numbered)
    (learned? : Option Name) :
    u.historyWith (u.zone.install d learned?) = u.history ++ d.version?.toList := by
  rw [historyWith, VersionedZone.latest_install, Draft.version?]
  cases d.changed with
  | false =>
      rw [if_neg Bool.false_ne_true, Option.getD_none, if_pos rfl]
      exact (List.append_nil _).symm
  | true =>
      rw [if_pos rfl, Option.getD_some, if_neg]
      · rfl
      · change d.working.id ≠ u.zone.latest.id
        rw [hnumbered, hbase]
        exact fun h => Nat.succ_ne_self _ (congrArg VersionId.val h)

/-- The latest version of the zone is the last one that there was. -/
theorem Historic.latest_suffix (h : Historic u) : [u.zone.latest] <:+ u.history :=
  (List.suffix_append u.zone.chain.older [u.zone.latest]).trans h.kept

theorem Historic.latest_id (h : Historic u) : u.zone.latest.id.val = u.history.length := by
  obtain ⟨dropped, hdropped⟩ := h.kept
  have hnumbered := h.numbered
  rw [← hdropped, VersionChain.toList, ← List.append_assoc] at hnumbered ⊢
  rw [List.length_append, List.length_singleton, List.range'_1_concat, List.map_append] at hnumbered
  have hlast := List.append_inj_right' hnumbered rfl
  rw [List.length_append, List.length_singleton]
  have hid : u.zone.chain.head.id.val = _ := List.head_eq_of_cons_eq hlast
  change u.zone.chain.head.id.val = _
  omega

/-- The version that a writer adds is the next one. -/
theorem Historic.append_version (h : Historic u) {d : Draft} (hbase : d.base = u.zone.latest)
    (hnumbered : d.Numbered) :
    (u.history ++ d.version?.toList).map (·.id.val) =
      List.range' 1 (u.history ++ d.version?.toList).length := by
  rw [Draft.version?]
  cases d.changed with
  | false =>
      rw [if_neg Bool.false_ne_true, Option.toList_none, List.append_nil]
      exact h.numbered
  | true =>
      have hid : d.working.freeze.id.val = u.history.length + 1 := by
        change d.working.id.val = _
        rw [hnumbered, hbase, ← h.latest_id]
        rfl
      rw [if_pos rfl, Option.toList_some, List.map_append, h.numbered, List.length_append,
        List.length_singleton, List.range'_1_concat, List.map_singleton, hid, Nat.add_comm 1]

/-- Dropping old versions does not change what there ever was. -/
theorem Historic.keep {u' : Usage} (h : Historic u) (hhistory : u'.history = u.history)
    (hkept : u'.zone.chain.toList <:+ u.zone.chain.toList) : Historic u' where
  kept := hhistory ▸ hkept.trans h.kept
  numbered := hhistory ▸ h.numbered

theorem Historic.move (h : Historic u) (hw : Writers u) {p : Participant} (hp : p ∈ u.txns)
    {t : Txn} {z : VersionedZone} (hmove : Move u.zone p.txn t z) (txns : List Participant)
    (committed : List Script) :
    Historic
      { u with
        zone := z
        txns := txns
        committed := committed
        history := u.historyWith z } := by
  cases hmove with
  | stays => exact h.keep (historyWith_of_latest rfl) (List.suffix_refl _)
  | readerEnds =>
      exact h.keep (historyWith_of_latest rfl) (VersionChain.toList_prune_suffix _ _ _)
  | writerCommits hd learned? =>
      obtain ⟨hbase, hnumbered⟩ := hw.based p hp _ hd
      constructor
      · change (u.zone.install _ learned?).chain.toList <:+ u.historyWith _
        rw [historyWith_install hbase hnumbered, VersionedZone.install_eq]
        refine (VersionChain.toList_prune_suffix _ _ _).trans ?_
        rw [VersionedZone.toList_append]
        obtain ⟨dropped, hdropped⟩ := h.kept
        exact ⟨dropped, by rw [← List.append_assoc, hdropped]⟩
      · change (u.historyWith _).map _ = List.range' 1 (u.historyWith _).length
        rw [historyWith_install hbase hnumbered]
        exact h.append_version hbase hnumbered
  | writerEnds => exact h.keep (historyWith_of_latest rfl) (List.suffix_refl _)

theorem Historic.effect (h : Historic u) (hw : Writers u) {u' : Usage} (heffect : Effect u u') :
    Historic u' := by
  cases heffect with
  | quiet hquiet => cases hquiet <;> exact h.keep rfl (List.suffix_refl _)
  | calls hp c =>
      exact h.move hw (List.mem_of_getElem? hp) (VersionedZone.move_call hw.alive c) _ _
  | drops hp => exact h.move hw (List.mem_of_getElem? hp) (VersionedZone.move_drop hw.alive) _ _

/-- All versions that there ever were have different numbers. -/
theorem Historic.eq_of_id_eq (h : Historic u) {v w : Version} (hv : v ∈ u.history)
    (hw : w ∈ u.history) (hid : v.id = w.id) : v = w := by
  have hnodup : (u.history.map (·.id.val)).Nodup := h.numbered ▸ List.nodup_range'
  exact List.inj_on_of_nodup_map hnodup hv hw (congrArg VersionId.val hid)

/-- An action adds a new latest version to those that there ever were, or none. -/
theorem history_effect {u' : Usage} (heffect : Effect u u') :
    u'.history = u.history ∨ u'.history = u.history ++ [u'.zone.latest] := by
  have hwith (z : VersionedZone) :
      u.historyWith z = u.history ∨ u.historyWith z = u.history ++ [z.latest] := by
    rw [historyWith]
    split
    · exact .inl rfl
    · exact .inr rfl
  cases heffect with
  | quiet hquiet => cases hquiet <;> exact .inl rfl
  | calls => exact hwith _
  | drops => exact hwith _

/-- What there ever was is not forgotten. -/
theorem history_prefix_effect {u' : Usage} (heffect : Effect u u') : u.history <+: u'.history := by
  rcases history_effect heffect with h | h
  · exact ⟨[], (List.append_nil _).trans h.symm⟩
  · exact ⟨_, h.symm⟩

theorem history_prefix_run (u : Usage) (actions : List Action) :
    u.history <+: (u.run actions).history :=
  run_induction (P := fun u' => u.history <+: u'.history)
    (fun heffect h => h.trans (history_prefix_effect heffect)) (List.prefix_refl _) actions

theorem historic_fresh {z : VersionedZone} (h : z.chain = .single z.latest)
    (hid : z.latest.id = .first) : Historic (fresh z) where
  kept := by
    change z.chain.toList <:+ [z.latest]
    rw [h]
    exact List.suffix_refl _
  numbered := by
    change [z.latest.id.val] = [1]
    rw [hid]
    rfl

end DnsZone.Usage

namespace DnsZone.ZoneConfig

theorem historic_usage (config : ZoneConfig) (actions : List Action) :
    (config.usage actions).Historic :=
  (Usage.run_induction (P := fun u => u.Writers ∧ u.Historic)
    (fun heffect h => ⟨h.1.effect heffect, h.2.effect h.1 heffect⟩)
    ⟨Usage.writers_fresh rfl rfl, Usage.historic_fresh rfl rfl⟩ actions).2

end DnsZone.ZoneConfig
