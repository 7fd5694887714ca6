import DnsZone.Proofs.VersionedZone.Turnover

/-!
# How versions are numbered

The versions that a zone has are numbered one after another, and there is always one. The latest
one moves on by one number with each commit that publishes a version, and with nothing else: the
number of the working copy comes from the version that the writer was based on, which is still the
latest when it commits, as nobody else could write. Whatever the policy drops is dropped from the
old end, so no number is left out.
-/

namespace DnsZone

namespace Usage

variable {u : Usage} {a : Action} {z : VersionedZone} {history : List Version}

/-- How many versions are published by some actions. -/
def publications (u : Usage) : List Action → Nat
  | [] => 0
  | a :: rest => (u.publishes a).toNat + (u.step a).publications rest

/-- An action that publishes adds one version, which is numbered next. -/
theorem Turnover.of_publishes (h : Turnover u a z history) (ha : u.publishes a = true) :
    ∃ v, v.id = u.zone.latest.id.next ∧ z.latest = v ∧
      z.chain.toList <:+ u.zone.chain.toList ++ [v] ∧ history = u.history ++ [v] := by
  cases h with
  | stays _ _ _ hpublishes => cases hpublishes.symm.trans ha
  | setsPolicy haction =>
      rw [haction] at ha
      cases ha
  | readerStarts haction =>
      rw [haction] at ha
      cases ha
  | readerEnds v _ _ _ hpublishes => cases hpublishes.symm.trans ha
  | writerCommits d learned? hbase hnumbered hpublishes =>
      have hversion : d.version? = some d.working.freeze := by
        rw [Draft.version?, ← hpublishes, ha, if_pos rfl]
      refine ⟨d.working.freeze, ?_, ?_, ?_, ?_⟩
      · rw [← hbase]
        exact hnumbered
      · rw [VersionedZone.latest_install, hversion]
        rfl
      · rw [VersionedZone.install_eq]
        refine (VersionChain.toList_prune_suffix _ _ _).trans ?_
        rw [VersionedZone.toList_append, hversion]
        exact List.suffix_refl _
      · rw [hversion]
        rfl

/-- An action that does not publish adds no version. -/
theorem Turnover.of_not_publishes (h : Turnover u a z history) (ha : u.publishes a = false) :
    z.latest = u.zone.latest ∧ z.chain.toList <:+ u.zone.chain.toList ∧ history = u.history := by
  cases h with
  | stays hchain => exact ⟨congrArg VersionChain.head hchain, hchain ▸ List.suffix_refl _, rfl⟩
  | setsPolicy => exact ⟨rfl, List.suffix_refl _, rfl⟩
  | readerStarts => exact ⟨rfl, List.suffix_refl _, rfl⟩
  | readerEnds => exact ⟨rfl, VersionChain.toList_prune_suffix _ _ _, rfl⟩
  | writerCommits d learned? hbase hnumbered hpublishes =>
      have hversion : d.version? = none := by
        rw [Draft.version?, ← hpublishes, ha, if_neg Bool.false_ne_true]
      refine ⟨?_, ?_, ?_⟩
      · rw [VersionedZone.latest_install, hversion]
        rfl
      · rw [VersionedZone.install_eq]
        refine (VersionChain.toList_prune_suffix _ _ _).trans ?_
        rw [VersionedZone.toList_append, hversion]
        exact ⟨[], by simp⟩
      · rw [hversion]
        exact List.append_nil _

/-- The number of the latest version after an action. -/
theorem Turnover.latest_id (h : Turnover u a z history) :
    z.latest.id.val = u.zone.latest.id.val + (u.publishes a).toNat := by
  cases ha : u.publishes a with
  | false => rw [(h.of_not_publishes ha).1]; rfl
  | true =>
      obtain ⟨v, hid, hlatest, -⟩ := h.of_publishes ha
      rw [hlatest, hid]
      rfl

theorem latest_id_run (hw : Writers u) (actions : List Action) :
    (u.run actions).zone.latest.id.val = u.zone.latest.id.val + u.publications actions := by
  induction actions generalizing u with
  | nil => rfl
  | cons a rest ih =>
      have hrest := ih (hw.effect (effect_step u a))
      rw [(turnover_step hw a).latest_id] at hrest
      rw [publications, ← Nat.add_assoc]
      exact hrest

/-- The versions that a zone has are the last of all that there ever were, so their numbers follow
on one another. -/
theorem Historic.isChain_ids (h : Historic u) :
    u.zone.chain.ids.IsChain fun a b => b = a.next := by
  have hall : (u.history.map (·.id.val)).IsChain fun a b => b = a + 1 := by
    rw [h.numbered]
    exact List.isChain_range' 1 _ 1
  rw [List.isChain_map] at hall
  have hkept := hall.suffix h.kept
  rw [VersionChain.ids, List.isChain_map]
  exact hkept.imp fun v w hvw => congrArg VersionId.mk hvw

/-- The versions of a zone are numbered in the order in which they are published. -/
structure NumberedInOrder (u : Usage) : Prop where
  /-- There is always a version. -/
  nonempty : u.zone.chain.ids ≠ []
  /-- The numbers follow on one another, oldest first. -/
  consecutive : u.zone.chain.ids.IsChain fun a b => b = a.next
  /-- A commit of a writer that has changed something and succeeds adds exactly one version after
  the latest, numbered next. -/
  publishing : ∀ a, u.publishes a = true → ∃ v, v.id = u.zone.latest.id.next ∧
    (u.step a).zone.latest = v ∧ (u.step a).zone.chain.toList <:+ u.zone.chain.toList ++ [v] ∧
      (u.step a).history = u.history ++ [v]
  /-- Nothing else adds a version or changes which is the latest. -/
  otherwise : ∀ a, u.publishes a = false → (u.step a).zone.latest = u.zone.latest ∧
    (u.step a).zone.chain.toList <:+ u.zone.chain.toList ∧ (u.step a).history = u.history
  /-- The number of the latest version grows by one with each version published from now on. -/
  counted : ∀ later,
    (u.run later).zone.latest.id.val = u.zone.latest.id.val + u.publications later

end Usage

/-- However readers and writers of a new zone come and go, whatever its policy is and however often
it is replaced: versions are numbered in the order in which they are published. -/
theorem ZoneConfig.numberedInOrder_usage (config : ZoneConfig) (actions : List Action) :
    (config.usage actions).NumberedInOrder where
  nonempty := by simp [VersionChain.ids, VersionChain.toList]
  consecutive := (config.historic_usage actions).isChain_ids
  publishing a ha := (Usage.turnover_step (config.writers_usage actions) a).of_publishes ha
  otherwise a ha := (Usage.turnover_step (config.writers_usage actions) a).of_not_publishes ha
  counted later := Usage.latest_id_run (config.writers_usage actions) later

end DnsZone
