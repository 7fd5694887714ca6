import DnsZone.Proofs.VersionedZone.Turnover

/-!
# Old versions are dropped as far as possible

Old versions are dropped when a writer commits and when a reader ends. Afterwards nothing is left to
be dropped: the oldest version is the latest one, or somebody reads it, or the policy keeps it. It
stays like this until the policy is replaced, since nothing else that happens in between makes a
version go that had to stay: a reader that is started only adds to what is read, and a writer that
is rolled back changes nothing.
-/

namespace DnsZone

theorem VersionedZone.prune_eq_self_iff {z : VersionedZone} :
    z.prune = z ↔ z.chain.prune z.policy z.readers = z.chain := by
  constructor
  · exact congrArg VersionedZone.chain
  · intro h
    rw [prune, h]

namespace Usage

variable {u : Usage} {a : Action} {z : VersionedZone} {history : List Version}

/-! ### The oldest version -/

theorem Historic.sorted (h : Historic u) :
    u.zone.chain.toList.Pairwise fun v w => v.id.val < w.id.val := by
  have hall : (u.history.map (·.id.val)).Pairwise (· < ·) := by
    rw [h.numbered]
    exact List.pairwise_lt_range'
  exact (List.pairwise_map.mp hall).sublist h.kept.sublist

theorem Historic.ne_latest (h : Historic u) {v : Version} {rest : List Version}
    (holder : u.zone.chain.older = v :: rest) : v ≠ u.zone.latest := by
  have hsorted := h.sorted
  rw [VersionChain.toList, holder, List.cons_append, List.pairwise_cons] at hsorted
  intro heq
  have hlt := hsorted.1 u.zone.chain.head (by simp)
  rw [heq] at hlt
  exact Nat.lt_irrefl _ hlt

/-- The lowest version that is read has a reader that has not ended. -/
theorem Pinned.exists_of_lowest? (h : Pinned u) {low : VersionId}
    (hlow : u.zone.readers.lowest? = some low) :
    ∃ p ∈ u.txns, ∃ v, p.txn.access = .reading v ∧ v.id = low := by
  have hcount := Readers.count_pos_of_lowest? h.positive hlow
  rw [h.counted] at hcount
  obtain ⟨p, hp, hreads⟩ := List.countP_pos_iff.mp hcount
  obtain ⟨v, hv, hid⟩ := Participant.reads_eq_true_iff.mp hreads
  exact ⟨p, hp, v, hv, hid⟩

/-- The oldest of several versions has to be kept exactly if it is the lowest that is read. -/
theorem leastKept_le_oldest_iff (hh : Historic u) (hpinned : Pinned u) {v : Version}
    {rest : List Version} (holder : u.zone.chain.older = v :: rest) :
    (u.zone.chain.leastKept u.zone.readers).val ≤ v.id.val ↔
      u.zone.readers.lowest? = some v.id := by
  have hsorted := hh.sorted
  rw [VersionChain.toList, holder, List.cons_append, List.pairwise_cons] at hsorted
  constructor
  · intro hle
    -- the head is not what bounds it, so a reader does, and nothing older is read
    cases hlow : u.zone.readers.lowest? with
    | none =>
        rw [VersionChain.leastKept, hlow] at hle
        have hhead := hsorted.1 u.zone.chain.head (by simp)
        exact absurd hle (Nat.not_le.mpr hhead)
    | some low =>
        obtain ⟨p, hp, w, hw, rfl⟩ := hpinned.exists_of_lowest? hlow
        have hmem := hpinned.kept p hp w hw
        rw [VersionChain.toList, holder, List.cons_append] at hmem
        rcases List.mem_cons.mp hmem with rfl | hmem
        · rfl
        · have hlt := hsorted.1 w hmem
          have hhead := hsorted.1 u.zone.chain.head (by simp)
          refine absurd (Nat.lt_of_lt_of_le ?_ hle) (Nat.lt_irrefl _)
          refine VersionChain.le_leastKept_iff.mpr ⟨hhead, fun low' hlow' => ?_⟩
          cases hlow.symm.trans hlow'
          exact hlt
  · exact u.zone.chain.leastKept_le_lowest

/-- Nothing is left to be dropped exactly if the oldest version is the latest, or is the lowest that
is read, or the policy keeps it. -/
theorem prune_eq_iff (hh : Historic u) (hpinned : Pinned u) :
    u.zone.prune = u.zone ↔
      u.zone.chain.oldest = u.zone.latest ∨
        u.zone.readers.lowest? = some u.zone.chain.oldest.id ∨
          u.zone.policy.drops u.zone.chain.oldest u.zone.chain.size = false := by
  rw [VersionedZone.prune_eq_self_iff, VersionChain.prune_eq_self_iff]
  cases holder : u.zone.chain.older with
  | nil =>
      refine iff_of_true rfl (.inl ?_)
      rw [VersionChain.oldest, holder]
      rfl
  | cons v rest =>
      have holdest : u.zone.chain.oldest = v := by
        rw [VersionChain.oldest, holder]
        rfl
      have hsize : u.zone.chain.size = rest.length + 2 := by
        rw [VersionChain.size, holder]
        rfl
      rw [holdest, hsize, VersionChain.dropOldest_eq_self_iff,
        leastKept_le_oldest_iff hh hpinned holder, or_iff_right (hh.ne_latest holder)]

/-! ### Nothing is left to be dropped -/

/-- Whether the policy has not been replaced since old versions were last dropped, after some
actions, if `kept` says so of the time before them. -/
def policyKept (u : Usage) (kept : Bool) : List Action → Bool
  | [] => kept
  | a :: rest => (u.step a).policyKept (u.prunes a || kept && !replacesPolicy a) rest

/-- Dropping old versions leaves none to be dropped, and until the policy is replaced there will be
none. -/
theorem Turnover.prune_eq (h : Turnover u a z history) (hpinned : Pinned u) {kept : Bool}
    (hsettled : kept = true → u.zone.prune = u.zone)
    (hkept : (u.prunes a || kept && !replacesPolicy a) = true) : z.prune = z := by
  cases h with
  | stays hchain hreaders hpolicy _ hprunes =>
      rw [hprunes, Bool.false_or, Bool.and_eq_true] at hkept
      have hbefore := VersionedZone.prune_eq_self_iff.mp (hsettled hkept.1)
      rw [VersionedZone.prune_eq_self_iff, hchain, hreaders, hpolicy]
      exact hbefore
  | setsPolicy haction hreplaces =>
      rw [hreplaces, haction] at hkept
      simp [prunes] at hkept
  | readerStarts haction v hv =>
      rw [haction] at hkept
      have hbefore := hsettled (by simpa [prunes, replacesPolicy] using hkept)
      rw [VersionedZone.prune_eq_self_iff, VersionChain.prune_eq_self_iff] at hbefore ⊢
      exact VersionChain.dropOldest_eq_self_of_le
        (u.zone.chain.leastKept_register_le hpinned.positive v.id) hbefore
  | readerEnds v => exact VersionedZone.prune_eq_self_iff.mpr (VersionChain.prune_prune ..)
  | writerCommits d learned? =>
      rw [VersionedZone.install_eq]
      exact VersionedZone.prune_eq_self_iff.mpr (VersionChain.prune_prune ..)

theorem prune_eq_run (hw : Writers u) (hpinned : Pinned u) {kept : Bool}
    (hsettled : kept = true → u.zone.prune = u.zone) {actions : List Action}
    (hkept : u.policyKept kept actions = true) :
    (u.run actions).zone.prune = (u.run actions).zone := by
  induction actions generalizing u kept with
  | nil => exact hsettled hkept
  | cons a rest ih =>
      have heffect := effect_step u a
      exact ih (hw.effect heffect) (hpinned.effect hw heffect)
        ((turnover_step hw a).prune_eq hpinned hsettled) hkept

/-! ### What leaves the chain alone -/

/-- Only what prunes takes versions away. It does so by the policy, which is asked about nothing
that is read or latest. -/
theorem Turnover.chain_of_prunes (h : Turnover u a z history) (ha : u.prunes a = true) :
    ∃ c : VersionChain, (c = u.zone.chain ∨ ∃ v, c = u.zone.chain.push v) ∧ c.head = z.latest ∧
      z.chain = c.prune u.zone.policy z.readers := by
  cases h with
  | stays _ _ _ _ hprunes => cases hprunes.symm.trans ha
  | setsPolicy haction =>
      rw [haction] at ha
      cases ha
  | readerStarts haction =>
      rw [haction] at ha
      cases ha
  | readerEnds v => exact ⟨u.zone.chain, .inl rfl, rfl, rfl⟩
  | writerCommits d learned? =>
      rw [VersionedZone.install_eq]
      refine ⟨(u.zone.append d.version?).chain, ?_, rfl, rfl⟩
      cases d.version? with
      | none => exact .inl rfl
      | some v => exact .inr ⟨v, rfl⟩

theorem Turnover.chain_of_not_prunes (h : Turnover u a z history) (ha : u.prunes a = false) :
    z.chain = u.zone.chain := by
  cases h with
  | stays hchain => exact hchain
  | setsPolicy => rfl
  | readerStarts => rfl
  | readerEnds v _ _ _ _ hprunes => cases hprunes.symm.trans ha
  | writerCommits d _ _ _ _ hprunes => cases hprunes.symm.trans ha

theorem publishes_of_not_changed {i : Nat} {p : Participant} (hp : u.txns[i]? = some p)
    (h : p.txn.changed u.zone = .ok false) : u.publishes (.call i .commit) = false := by
  simp only [publishes, hp, h]

/-- A commit of what has changed nothing leaves the chain alone as long as the same has to be kept
as before: it prunes, but nothing was left to be dropped. -/
theorem Turnover.chain_of_not_changed {i : Nat} {p : Participant}
    (h : Turnover u (.call i .commit) z history) (hp : u.txns[i]? = some p)
    (hsettled : u.zone.prune = u.zone) (hchanged : p.txn.changed u.zone = .ok false)
    (hreaders : p.writes = true ∨ z.readers.lowest? = u.zone.readers.lowest?) :
    z.chain = u.zone.chain := by
  have hbefore := VersionedZone.prune_eq_self_iff.mp hsettled
  cases h with
  | stays hchain => exact hchain
  | setsPolicy => rfl
  | readerStarts => rfl
  | readerEnds v hi hp' haccess =>
      cases hi
      cases hp.symm.trans hp'
      rcases hreaders with hwrites | hlowest
      · rw [Participant.writes_of_reading haccess] at hwrites
        cases hwrites
      · change u.zone.chain.prune u.zone.policy (u.zone.readers.unregister v.id) = _
        have hleast : u.zone.chain.leastKept (u.zone.readers.unregister v.id) =
            u.zone.chain.leastKept u.zone.readers := by
          rw [VersionChain.leastKept, VersionChain.leastKept]
          rw [show (u.zone.readers.unregister v.id).lowest? = _ from hlowest]
        rw [VersionChain.prune, hleast]
        exact hbefore
  | writerCommits d learned? _ _ hpublishes =>
      have hversion : d.version? = none := by
        rw [Draft.version?, ← hpublishes, publishes_of_not_changed hp hchanged,
          if_neg Bool.false_ne_true]
      rw [VersionedZone.install_eq, hversion]
      exact hbefore

/-! ### How many versions are kept -/

/-- A policy that keeps up to `n` versions has no more than these, unless the oldest is read. -/
theorem size_le_or_read (hh : Historic u) (hpinned : Pinned u) (hsettled : u.zone.prune = u.zone)
    {n : Nat} (hn : 0 < n)
    (hpolicy : u.zone.policy.drops u.zone.chain.oldest u.zone.chain.size =
      decide (u.zone.chain.size > n)) :
    u.zone.chain.size ≤ n ∨ ∃ p ∈ u.txns, p.txn.access = .reading u.zone.chain.oldest := by
  rcases (prune_eq_iff hh hpinned).mp hsettled with hlatest | hlow | hkeeps
  · cases holder : u.zone.chain.older with
    | nil =>
        rw [VersionChain.size, holder]
        exact .inl hn
    | cons v rest =>
        rw [VersionChain.oldest, holder] at hlatest
        exact absurd hlatest (hh.ne_latest holder)
  · obtain ⟨p, hp, v, hv, hid⟩ := hpinned.exists_of_lowest? hlow
    have hmem := hh.kept.subset (hpinned.kept p hp v hv)
    have holdest := hh.kept.subset u.zone.chain.oldest_mem
    cases hh.eq_of_id_eq hmem holdest hid
    exact .inr ⟨p, hp, hv⟩
  · rw [hpolicy] at hkeeps
    exact .inl (Nat.not_lt.mp (of_decide_eq_false hkeeps))

/-- Old versions are dropped as far as readers and the policy let them go. `kept` says whether the
policy has not been replaced since they were last dropped. -/
structure DropsAllItCan (kept : Bool) (u : Usage) : Prop where
  /-- Dropping old versions once more changes nothing exactly if the oldest version is the latest,
  or is the lowest that is read, or the policy keeps it. -/
  changes_nothing_iff : u.zone.prune = u.zone ↔
    u.zone.chain.oldest = u.zone.latest ∨
      u.zone.readers.lowest? = some u.zone.chain.oldest.id ∨
        u.zone.policy.drops u.zone.chain.oldest u.zone.chain.size = false
  /-- Until the policy is replaced, dropping old versions once more changes nothing. -/
  changes_nothing : kept = true → u.zone.prune = u.zone
  /-- A reader that is started leaves the versions alone, and so does one that is refused. -/
  reader_starts : ∀ query?, (u.step (.read query?)).zone.chain = u.zone.chain
  /-- A commit of what has changed nothing leaves them alone, too, be it of a writer or of a reader
  with which the lowest version that is read stays the same. -/
  idle_commit : kept = true → ∀ (i : Nat) p, u.txns[i]? = some p →
    p.txn.changed u.zone = .ok false →
      (p.writes = true ∨
        (u.step (.call i .commit)).zone.readers.lowest? = u.zone.readers.lowest?) →
      (u.step (.call i .commit)).zone.chain = u.zone.chain
  /-- Old versions are dropped, after perhaps one was added, only when a writer commits or a reader
  ends. It depends on the policy only in what it is asked, and it is asked only about versions that
  are older than the latest and than all that are read. -/
  asked : ∀ a, u.prunes a = true → ∃ c : VersionChain,
    (c = u.zone.chain ∨ ∃ v, c = u.zone.chain.push v) ∧
      (∀ policy', (∀ q ∈ c.asked u.zone.policy (u.step a).zone.readers,
          policy'.drops q.1 q.2 = u.zone.policy.drops q.1 q.2) →
        (u.step a).zone.chain = c.prune policy' (u.step a).zone.readers) ∧
      ∀ q ∈ c.asked u.zone.policy (u.step a).zone.readers,
        q.1.id.val < (u.step a).zone.latest.id.val ∧
          ∀ p ∈ (u.step a).txns, ∀ v, p.txn.access = .reading v → q.1.id.val < v.id.val
  not_asked : ∀ a, u.prunes a = false → (u.step a).zone.chain = u.zone.chain
  /-- A policy that keeps the latest version only has no other kept, unless the oldest is read. -/
  latest_only : kept = true → u.zone.policy = .latest →
    u.zone.chain.size ≤ 1 ∨ ∃ p ∈ u.txns, p.txn.access = .reading u.zone.chain.oldest
  /-- A policy that keeps up to `n` versions has no more kept, unless the oldest is read. -/
  at_most : kept = true → ∀ n, 0 < n → u.zone.policy = .atMost n →
    u.zone.chain.size ≤ n ∨ ∃ p ∈ u.txns, p.txn.access = .reading u.zone.chain.oldest

theorem dropsAllItCan (hw : Writers u) (hh : Historic u) (hpinned : Pinned u) {kept : Bool}
    (hsettled : kept = true → u.zone.prune = u.zone) : u.DropsAllItCan kept where
  changes_nothing_iff := prune_eq_iff hh hpinned
  changes_nothing := hsettled
  reader_starts query? := (turnover_step hw _).chain_of_not_prunes rfl
  idle_commit hkept i p hp hchanged hreaders :=
    (turnover_step hw _).chain_of_not_changed hp (hsettled hkept) hchanged hreaders
  asked a ha := by
    obtain ⟨c, hc, hhead, hchain⟩ := (turnover_step hw a).chain_of_prunes ha
    have hafter := hpinned.effect hw (effect_step u a)
    refine ⟨c, hc, fun policy' hpolicy' => ?_, fun q hq => ?_⟩
    · rw [hchain]
      exact (VersionChain.prune_congr hpolicy').symm
    · obtain ⟨hlatest, hread⟩ := VersionChain.lt_of_mem_asked hq
      rw [← hhead]
      exact ⟨hlatest, fun p hp v hv => hread v.id (count_pos_of_reading hafter.counted hp hv)⟩
  not_asked a ha := (turnover_step hw a).chain_of_not_prunes ha
  latest_only hkept hpolicy :=
    size_le_or_read hh hpinned (hsettled hkept) Nat.one_pos (by rw [hpolicy]; rfl)
  at_most hkept n hn hpolicy :=
    size_le_or_read hh hpinned (hsettled hkept) hn (by rw [hpolicy]; rfl)

end Usage

/-- Whether the policy of a new zone has not been replaced since old versions were last dropped,
after some actions of its users. -/
def ZoneConfig.policyKept (config : ZoneConfig) (actions : List Action) : Bool :=
  (config.usage []).policyKept true actions

/-- However readers and writers of a new zone come and go, whatever its policy is and however often
it is replaced: old versions are dropped as far as possible, and no further. -/
theorem ZoneConfig.dropsAllItCan_usage (config : ZoneConfig) (actions : List Action) :
    (config.usage actions).DropsAllItCan (config.policyKept actions) :=
  Usage.dropsAllItCan (config.writers_usage actions) (config.historic_usage actions)
    (config.pinned_usage actions) fun hkept =>
      Usage.prune_eq_run (config.writers_usage []) (config.pinned_usage []) (fun _ => rfl) hkept

end DnsZone
