import DnsZone.Proofs.Sample
import DnsZone.Proofs.Traffic.SoleWriter
import DnsZone.Proofs.VersionedZone.Transfer

/-!
# Incremental transfers publish every batch

An incremental transfer comes in batches: records to delete, the new start of authority and records
to add. Each batch becomes a version of its own, which has the new start of authority and otherwise
the records of the version before without those deleted and with those added. By induction over the
batches, what has to be known between two of them is that the ledger of the writer has a start of
authority at the apex only and that it describes the latest version.
-/

namespace DnsZone

open VersionedZone (Txn)

/-- A batch of an incremental transfer. -/
structure Batch where
  /-- The start of authority of the version before. -/
  old : Record
  deleted : List Record
  soa : Record
  added : List Record

namespace Batch

/-- What comes after the beginning of the batch. -/
def content (b : Batch) : List Update :=
  b.deleted.map .deleteRecord ++ .beginBatchAdd b.soa :: b.added.map .addRecord

/-- What comes after the beginning of batch `b` if other batches follow it. -/
def remainder (b : Batch) : List Batch → List Update
  | [] => b.content ++ [.finished b.soa]
  | b' :: rest => b.content ++ .beginBatchDelete b'.old :: b'.remainder rest

theorem remainder_ne_nil (b : Batch) (rest : List Batch) : b.remainder rest ≠ [] := by
  cases rest <;> simp [remainder]

/-- The stream of one or more batches. -/
def stream (b : Batch) (rest : List Batch) : List Update :=
  .beginBatchDelete b.old :: b.remainder rest

/-- All records of the batch belong to the zone, and only its start of authority is one. -/
structure Fits (z : VersionedZone) (apex : Name) (b : Batch) : Prop where
  cls : ∀ r ∈ b.deleted ++ b.soa :: b.added, r.cls = z.cls
  stored : ∀ r ∈ b.deleted ++ b.added, ∃ m, z.origin.stored r.owner = .ok m
  rtype : ∀ r ∈ b.deleted ++ b.added, r.rtype ≠ .soa
  soa : b.soa.rtype = .soa
  atApex : ∃ m, z.origin.stored b.soa.owner = .ok m ∧ (m == apex) = true

/-- What a batch makes of the records of a zone. -/
def result (o : Origin) (apex : Name) (b : Batch) (has : Name → RecordData → Bool) (n : Name)
    (d : RecordData) : Bool :=
  if d.rtype = .soa then n == apex && d == b.soa.data
  else has n d && !o.placesAny b.deleted n d || o.placesAny b.added n d

/-- What the batch makes of version `w` is version `v`. -/
structure Makes (o : Origin) (apex : Name) (b : Batch) (w v : Version) : Prop where
  soa : v.find? apex .soa = some (.single b.soa.ttl b.soa.data)
  has_eq : ∀ n d, v.has n d = b.result o apex w.has n d

/-- Each batch makes one version of the version before. -/
inductive MakeAll (o : Origin) (apex : Name) : Version → List Batch → List Version → Prop where
  | nil (w : Version) : MakeAll o apex w [] []
  | cons {w v : Version} {b : Batch} {rest : List Batch} {versions : List Version}
      (h : b.Makes o apex w v) (hrest : MakeAll o apex v rest versions) :
      MakeAll o apex w (b :: rest) (v :: versions)

end Batch

/-! ### Runs of deletions and of additions -/

/-- No start of authority is among records of other types. -/
theorem Origin.placesAny_of_rtype (o : Origin) {rs : List Record} (h : ∀ r ∈ rs, r.rtype ≠ .soa)
    (n : Name) {d : RecordData} (hd : d.rtype = .soa) : o.placesAny rs n d = false := by
  rw [placesAny, List.any_eq_false]
  intro r hr hplaces
  rw [places] at hplaces
  split at hplaces
  · obtain ⟨-, hbeq⟩ := (Bool.and_eq_true _ _).mp hplaces
    exact h r hr ((congrArg SetKey.rtype (RecordData.key_congr hbeq)).symm.trans hd)
  · cases hplaces

namespace Transfer.Open

variable {z : VersionedZone} {versions : List Version} {batching : Bool} {w : Txn}
  {l : Ledger} {t : Transfer}

theorem run_deletes (h : t.Open z versions batching w l) (hl : l.Plain) {rs : List Record}
    (hcls : ∀ r ∈ rs, r.cls = z.cls) (hstored : ∀ r ∈ rs, ∃ m, z.origin.stored r.owner = .ok m)
    {ds : List Delivery} (hds : ds.map (·.update) = rs.map .deleteRecord)
    (hcalm : t.Undisturbed ds) :
    ∃ w' l', (t.run ds).Open z versions batching w' l' ∧
      l.Becomes (fun n d => l.table.has n d && !z.origin.placesAny rs n d) l' := by
  induction rs generalizing t w l ds with
  | nil =>
      cases List.map_eq_nil_iff.mp hds
      exact ⟨w, l, h, hl, rfl, fun n d => (Bool.and_true _).symm⟩
  | cons r rs ih =>
      obtain ⟨⟨meanwhile, update⟩, ds, rfl, rfl, hrest⟩ := List.map_eq_cons_iff.mp hds
      obtain ⟨hbefore, hafter⟩ := hcalm
      obtain ⟨hr, hstored⟩ := List.forall_mem_cons.mp hstored
      obtain ⟨hc, hcls⟩ := List.forall_mem_cons.mp hcls
      have hedit : (Update.deleteRecord r).edit? =
          some (r, .deleteData r.owner r.data false) := rfl
      obtain ⟨l₁, hl₁, hbecomes⟩ := Ledger.edit_deleteData hl (h.origin ▸ hr)
      have h₁ := (h.meanwhile hbefore).edit hedit hc hl₁ hbecomes.origin
      obtain ⟨w', l', h', hbecomes'⟩ := ih h₁ hbecomes.plain hcls hstored hrest hafter
      refine ⟨w', l', h', hbecomes'.plain, hbecomes'.origin.trans hbecomes.origin, fun n d => ?_⟩
      rw [hbecomes'.has_eq, hbecomes.has_eq, h.origin, Origin.placesAny, Origin.placesAny,
        List.any_cons, Bool.not_or, Bool.and_assoc]

/-- Additions leave the starts of authority alone and undo no change. -/
theorem run_adds (h : t.Open z versions batching w l) (hl : l.Plain)
    (hchanges : VersionedZone.Changes w) {rs : List Record} (hcls : ∀ r ∈ rs, r.cls = z.cls)
    (hstored : ∀ r ∈ rs, ∃ m, z.origin.stored r.owner = .ok m) (hrtype : ∀ r ∈ rs, r.rtype ≠ .soa)
    {ds : List Delivery} (hds : ds.map (·.update) = rs.map .addRecord)
    (hcalm : t.Undisturbed ds) :
    ∃ w' l', (t.run ds).Open z versions batching w' l' ∧ VersionedZone.Changes w' ∧
      l.Becomes (fun n d => l.table.has n d || z.origin.placesAny rs n d) l' ∧
      ∀ n, l'.table.set? n .soa = l.table.set? n .soa := by
  induction rs generalizing t w l ds with
  | nil =>
      cases List.map_eq_nil_iff.mp hds
      exact ⟨w, l, h, hchanges, ⟨hl, rfl, fun n d => (Bool.or_false _).symm⟩, fun n => rfl⟩
  | cons r rs ih =>
      obtain ⟨⟨meanwhile, update⟩, ds, rfl, rfl, hrest⟩ := List.map_eq_cons_iff.mp hds
      obtain ⟨hbefore, hafter⟩ := hcalm
      obtain ⟨hr, hstored⟩ := List.forall_mem_cons.mp hstored
      obtain ⟨hc, hcls⟩ := List.forall_mem_cons.mp hcls
      obtain ⟨ht, hrtype⟩ := List.forall_mem_cons.mp hrtype
      have hedit : (Update.addRecord r).edit? = some (r, .addRecord r) := rfl
      obtain ⟨l₁, hl₁, hbecomes⟩ := Ledger.edit_addRecord hl (h.origin ▸ hr)
      have h₁ := (h.meanwhile hbefore).edit hedit hc hl₁ hbecomes.origin
      obtain ⟨w', l', h', hchanges', hbecomes', hsoa⟩ := ih h₁ hbecomes.plain
        (hchanges.edit rfl rfl) hcls hstored hrtype hrest hafter
      refine ⟨w', l', h', hchanges', ⟨hbecomes'.plain, hbecomes'.origin.trans hbecomes.origin,
        fun n d => ?_⟩, fun n => ?_⟩
      · rw [hbecomes'.has_eq, hbecomes.has_eq, h.origin, Origin.placesAny, Origin.placesAny,
          List.any_cons, Bool.or_assoc]
      · have hframe : ¬ Ledger.touches l.origin n .soa (.addRecord r) := by
          rintro ⟨m, -, -, hkey⟩
          exact ht (congrArg SetKey.rtype hkey).symm
        rw [hsoa, ← l.frame_edit hframe, hl₁]

end Transfer.Open

/-! ### One batch -/

/-- The only starts of authority are at the apex. -/
def Ledger.SoaAt (apex : Name) (l : Ledger) : Prop :=
  ∀ n d, d.rtype = .soa → l.table.has n d = true → (n == apex) = true

/-- The ledger holds what batch `b` makes of the records told by `has`. -/
structure Batch.Held (o : Origin) (apex : Name) (b : Batch) (has : Name → RecordData → Bool)
    (l : Ledger) : Prop where
  plain : l.Plain
  soa : l.table.set? apex .soa = some (.single b.soa.ttl b.soa.data)
  has_eq : ∀ n d, l.table.has n d = b.result o apex has n d

namespace Ledger

variable {z : VersionedZone} {apex : Name} {b : Batch} {l l' : Ledger}

/-- Replacing the start of authority at the apex. -/
theorem edit_soa (h : l.Plain) (horigin : l.origin = z.origin) (hb : b.Fits z apex) :
    ∃ l', l.edit (.replace b.soa.owner (.single b.soa.ttl b.soa.data)) = (.ok none, l') ∧
      l.Becomes (fun n d => if (n == apex) = true ∧ d.rtype = .soa then d == b.soa.data
        else l.table.has n d) l' ∧
      l'.table.set? apex .soa = some (.single b.soa.ttl b.soa.data) := by
  obtain ⟨m, hm, hapex⟩ := hb.atApex
  have hkey : b.soa.data.key = .soa := RecordData.key_eq_soa_iff.mpr hb.soa
  obtain ⟨l', hl', hbecomes, hsoa⟩ := edit_replace_single h (horigin ▸ hm)
  refine ⟨l', hl', ⟨hbecomes.plain, hbecomes.origin, fun n d => ?_⟩, ?_⟩
  · rw [hbecomes.has_eq, hkey, BEq.congr_right hapex]
    simp only [RecordData.key_eq_soa_iff]
  · rw [← l'.table.set?_congr hapex, ← hkey, hsoa]

end Ledger

namespace Batch

variable {o : Origin} {apex : Name} {b : Batch} {l l' : Ledger} {has : Name → RecordData → Bool}

theorem Held.soaAt (h : b.Held o apex has l) : l.SoaAt apex := by
  intro n d hd hfound
  rw [h.has_eq, result, if_pos hd, Bool.and_eq_true] at hfound
  exact hfound.1

/-- Replacing the start of authority by itself changes nothing. -/
theorem Held.replaceSoa (h : b.Held o apex has l)
    (hbecomes : l.Becomes (fun n d => if (n == apex) = true ∧ d.rtype = .soa then d == b.soa.data
      else l.table.has n d) l')
    (hsoa : l'.table.set? apex .soa = some (.single b.soa.ttl b.soa.data)) :
    b.Held o apex has l' where
  plain := hbecomes.plain
  soa := hsoa
  has_eq n d := by
    rw [hbecomes.has_eq, ← h.has_eq]
    split
    · rename_i hat
      rw [h.has_eq, result, if_pos hat.2, hat.1, Bool.true_and]
    · rfl

/-- The version that the ledger describes is what the batch makes. -/
theorem Held.makes {w v : Version} (h : b.Held o apex w.has l) (hv : l.Describes v) :
    b.Makes o apex w v where
  soa := (hv.find?_eq apex .soa).trans h.soa
  has_eq n d := by rw [hv.has_eq h.plain, h.has_eq]

/-- Deletions, the new start of authority and additions, one after another. -/
theorem held_of_becomes {l₁ l₂ l₃ : Ledger}
    (hdeleted : ∀ r ∈ b.deleted, r.rtype ≠ .soa) (hadded : ∀ r ∈ b.added, r.rtype ≠ .soa)
    (hsoaAt : l.SoaAt apex)
    (h₁ : l.Becomes (fun n d => l.table.has n d && !o.placesAny b.deleted n d) l₁)
    (h₂ : l₁.Becomes (fun n d => if (n == apex) = true ∧ d.rtype = .soa then d == b.soa.data
      else l₁.table.has n d) l₂)
    (h₃ : l₂.Becomes (fun n d => l₂.table.has n d || o.placesAny b.added n d) l₃)
    (hsoa : l₃.table.set? apex .soa = some (.single b.soa.ttl b.soa.data)) :
    b.Held o apex l.table.has l₃ where
  plain := h₃.plain
  soa := hsoa
  has_eq n d := by
    rw [h₃.has_eq, h₂.has_eq, h₁.has_eq, result]
    by_cases hd : d.rtype = .soa
    · rw [o.placesAny_of_rtype hadded n hd, o.placesAny_of_rtype hdeleted n hd, if_pos hd]
      by_cases hn : (n == apex) = true
      · rw [if_pos ⟨hn, hd⟩, hn, Bool.or_false, Bool.true_and]
      · have hnone : l.table.has n d = false := Bool.eq_false_iff.mpr fun h => hn (hsoaAt n d hd h)
        rw [if_neg fun h => hn h.1, hnone, Bool.eq_false_iff.mpr hn]
        rfl
    · rw [if_neg fun h => hd h.2, if_neg hd]

end Batch

namespace Transfer

variable {z : VersionedZone} {versions : List Version} {w : Txn} {l : Ledger} {t : Transfer}
  {apex : Name} {b : Batch}

/-- The content of a batch has arrived. -/
theorem Open.run_content (h : t.Open z versions true w l) (hl : l.Plain) (hsoaAt : l.SoaAt apex)
    (hb : b.Fits z apex) {ds : List Delivery} (hds : ds.map (·.update) = b.content)
    (hcalm : t.Undisturbed ds) :
    ∃ w' l', (t.run ds).Open z versions true w' l' ∧ VersionedZone.Changes w' ∧
      b.Held z.origin apex l.table.has l' := by
  obtain ⟨hcls, hclsAdded⟩ := List.forall_mem_append.mp hb.cls
  obtain ⟨hclsSoa, hclsAdded⟩ := List.forall_mem_cons.mp hclsAdded
  obtain ⟨hstored, hstoredAdded⟩ := List.forall_mem_append.mp hb.stored
  obtain ⟨hrtype, hrtypeAdded⟩ := List.forall_mem_append.mp hb.rtype
  obtain ⟨deletes, ds, rfl, hdeletes, hds⟩ := List.map_eq_append_iff.mp hds
  obtain ⟨⟨meanwhile, update⟩, adds, rfl, rfl, hadds⟩ := List.map_eq_cons_iff.mp hds
  obtain ⟨hcalm, ⟨hbefore, hafter⟩⟩ := undisturbed_append.mp hcalm
  obtain ⟨w₁, l₁, h₁, hbecomes₁⟩ := h.run_deletes hl hcls hstored hdeletes hcalm
  obtain ⟨l₂, hl₂, hbecomes₂, hsoa⟩ := Ledger.edit_soa hbecomes₁.plain h₁.origin hb
  obtain ⟨w₂, h₂, hchanges⟩ := (h₁.meanwhile hbefore).beginBatchAdd hclsSoa hb.soa hl₂
    hbecomes₂.origin
  obtain ⟨w₃, l₃, h₃, hchanges, hbecomes₃, hkept⟩ := h₂.run_adds hbecomes₂.plain hchanges
    hclsAdded hstoredAdded hrtypeAdded hadds hafter
  rw [run_append]
  exact ⟨w₃, l₃, h₃, hchanges, Batch.held_of_becomes hrtype hrtypeAdded hsoaAt hbecomes₁
    hbecomes₂ hbecomes₃ ((hkept apex).trans hsoa)⟩

/-- The batches from `b` on, once `b` has begun: each becomes a version, made of the one before. -/
theorem Open.run_remainder {v : Version} (h : t.Open z versions true w l) (hl : l.Plain)
    (hsoaAt : l.SoaAt apex) (hv : l.Describes v) (hz : z.origin?.isSome = true)
    {rest : List Batch} (hb : ∀ b' ∈ b :: rest, b'.Fits z apex) {ds : List Delivery}
    (hds : ds.map (·.update) = b.remainder rest) (hcalm : t.Undisturbed ds) :
    ∃ versions', Batch.MakeAll z.origin apex v (b :: rest) versions' ∧
      (t.run ds).Finished (versions ++ versions') := by
  -- at the beginning of every batch the ledger describes the latest version
  induction rest generalizing t versions w l v b ds with
  | nil =>
      have hfits := hb b List.mem_cons_self
      obtain ⟨content, ds, rfl, hcontent, hds⟩ := List.map_eq_append_iff.mp hds
      obtain ⟨⟨meanwhile, update⟩, ds, rfl, rfl, hnil⟩ := List.map_eq_cons_iff.mp hds
      cases List.map_eq_nil_iff.mp hnil
      obtain ⟨hcalm, ⟨hbefore, -⟩⟩ := undisturbed_append.mp hcalm
      obtain ⟨w₁, l₁, h₁, -, hheld⟩ := h.run_content hl hsoaAt hfits hcontent hcalm
      obtain ⟨l₂, hl₂, hbecomes, hsoa⟩ := Ledger.edit_soa hheld.plain h₁.origin hfits
      have hcls := hfits.cls b.soa (by simp)
      obtain ⟨v', hv', hfinished⟩ := (h₁.meanwhile hbefore).finished hbefore.calm_run hz hcls
        hfits.soa hl₂
      have hheld := hheld.replaceSoa hbecomes hsoa
      rw [← hv.has_eq hl] at hheld
      rw [run_append]
      exact ⟨[v'], .cons (hheld.makes hv') (.nil v'), hfinished⟩
  | cons b' rest ih =>
      have hfits := hb b List.mem_cons_self
      obtain ⟨content, ds, rfl, hcontent, hds⟩ := List.map_eq_append_iff.mp hds
      obtain ⟨⟨meanwhile, update⟩, ds, rfl, rfl, hrest⟩ := List.map_eq_cons_iff.mp hds
      obtain ⟨hcalm, ⟨hbefore, hafter⟩⟩ := undisturbed_append.mp hcalm
      obtain ⟨w₁, l₁, h₁, hchanges, hheld⟩ := h.run_content hl hsoaAt hfits hcontent hcalm
      have hne : ds ≠ [] := by
        rintro rfl
        exact b'.remainder_ne_nil rest hrest.symm
      obtain ⟨v', w₂, hv', h₂⟩ := (h₁.meanwhile hbefore).beginNextBatch hbefore.calm_run hz hchanges
        hheld.plain.unchecked (hafter.calm hne)
      obtain ⟨versions', hmade, hfinished⟩ := ih h₂ hheld.plain hheld.soaAt hv'
        (fun b'' hb'' => hb b'' (List.mem_cons_of_mem _ hb'')) hrest hafter
      rw [← hv.has_eq hl] at hheld
      refine ⟨v' :: versions', .cons (hheld.makes hv') hmade, ?_⟩
      rw [run_append, List.append_cons]
      exact hfinished

end Transfer

theorem Batch.MakeAll.length_eq {o : Origin} {apex : Name} {w : Version} {batches : List Batch}
    {versions : List Version} (h : MakeAll o apex w batches versions) :
    versions.length = batches.length := by
  induction h with
  | nil => rfl
  | cons _ _ ih => exact congrArg (· + 1) ih

theorem Transfer.length_results_run (t : Transfer) (ds : List Delivery) :
    (t.run ds).results.length = t.results.length + ds.length := by
  induction ds generalizing t with
  | nil => rfl
  | cons d rest ih =>
      have hfirst : (t.deliver d).results.length = t.results.length + 1 := List.length_append
      rw [run, List.foldl_cons, ← run, ih, hfirst, List.length_cons]
      omega

/-! ### The whole transfer -/

/-- A writer was granted access to a zone that has an origin and does not check commits. In its
latest version every record stands in the set of its own key, and there is no start of authority
away from the apex. -/
structure Usage.AwaitsTransfer (apex : Name) (u : Usage) : Prop where
  granted : u.granted ≠ 0
  origin : u.zone.origin?.isSome = true
  apex_eq : u.zone.origin.apex? = some apex
  unchecked : u.zone.checksOrigin = false
  filed : u.zone.latest.Filed
  soaAt : ∀ e ∈ u.zone.latest.sets, e.2.key.rtype = .soa → (e.1 == apex) = true

/-- The transfer to the zone that `u` used has published its batches. -/
structure Transfer.Published (u : Usage) (apex : Name) (batches : List Batch) (updates : Nat)
    (t : Transfer) : Prop where
  /-- No update was refused, and none had to wait. -/
  results : t.results = List.replicate updates (.settled (.ok ()))
  finished : t.updater.isFinished = true
  /-- The zone has kept the versions it had and has got one for each batch, made of the version
  before. -/
  versions : ∃ versions, versions.length = batches.length ∧
    t.users.zone.chain.toList = u.zone.chain.toList ++ versions ∧
      Batch.MakeAll u.zone.origin apex u.zone.latest batches versions

namespace ZoneConfig

variable {config : ZoneConfig} {actions : List Action}

/-- The writer that was granted access is the only one. -/
theorem reserved_start (hgranted : (config.usage actions).granted ≠ 0)
    (hunchecked : (config.usage actions).zone.checksOrigin = false) :
    (Transfer.start (config.usage actions)).users.Reserved (config.usage actions).zone
      (config.usage actions).zone.chain.toList := by
  have hw := config.writers_usage actions
  have hone := hw.holders_le_one
  have hactive := hw.sound.holders_eq
  rw [Usage.holders] at hone hactive
  refine ⟨hw.alive, ?_, ?_, ?_, rfl, rfl, hunchecked, rfl⟩
  · change (config.usage actions).zone.admission.active = true
    rw [← Bool.toNat_eq_one]
    have hle := Bool.toNat_le (config.usage actions).zone.admission.active
    omega
  · change (config.usage actions).granted - 1 = 0
    omega
  · have hnone : (config.usage actions).txns.countP Participant.writes = 0 := by omega
    exact fun p hp => Bool.eq_false_iff.mpr (List.countP_eq_zero.mp hnone p hp)

/-- What a transfer starts from: its writer goes by the ledger of the latest version. -/
theorem open_start {apex : Name} (h : (config.usage actions).AwaitsTransfer apex) :
    (Transfer.start (config.usage actions)).Open (config.usage actions).zone
      (config.usage actions).zone.chain.toList false ((config.usage actions).zone.startWriter false)
      (Ledger.ofZone (config.usage actions).zone false {}) where
  users := reserved_start h.granted h.unchecked
  writer := rfl
  batching_eq := rfl
  unchecked := h.unchecked
  mirrors := Ledger.mirrors_ofZone (config.solid_usage actions) false {}
  origin := rfl
  settled r hr := by cases hr

theorem plain_ofZone {apex : Name} (h : (config.usage actions).AwaitsTransfer apex) :
    (Ledger.ofZone (config.usage actions).zone false {}).Plain := by
  have hv := config.describes_ofZone actions
  exact ⟨rfl, Listing.filed_of_agree hv.agree hv.keyed h.filed⟩

theorem soaAt_ofZone {apex : Name} (h : (config.usage actions).AwaitsTransfer apex) :
    (Ledger.ofZone (config.usage actions).zone false {}).SoaAt apex := by
  intro n d hd hfound
  rw [← (config.describes_ofZone actions).has_eq (plain_ofZone h)] at hfound
  obtain ⟨e, he, hat⟩ := List.any_eq_true.mp hfound
  obtain ⟨hn, hcontains⟩ := (Bool.and_eq_true _ _).mp hat
  obtain ⟨d', hd', hbeq⟩ := List.contains_iff_exists_mem_beq.mp hcontains
  have hkey : e.2.key = d.key := (h.filed e he d' hd').symm.trans (RecordData.key_congr hbeq).symm
  exact BEq.trans (BEq.symm hn) (h.soaAt e he (hkey ▸ hd))

/-- Whatever has been done to a zone before, an incremental transfer to it publishes every batch,
whatever others do in the meantime as long as the zone keeps all versions and nobody else is
admitted as a writer. -/
theorem transfer_publishes_batches {apex : Name} (h : (config.usage actions).AwaitsTransfer apex)
    {b : Batch} {rest : List Batch}
    (hb : ∀ b' ∈ b :: rest, b'.Fits (config.usage actions).zone apex)
    {ds : List Delivery} (hds : ds.map (·.update) = b.stream rest)
    (hcalm : (Transfer.start (config.usage actions)).Undisturbed ds) :
    ((Transfer.start (config.usage actions)).run ds).Published (config.usage actions) apex
      (b :: rest) ds.length := by
  obtain ⟨⟨meanwhile, update⟩, ds, rfl, rfl, hrest⟩ := List.map_eq_cons_iff.mp hds
  obtain ⟨hbefore, hafter⟩ := hcalm
  have hbegun := ((open_start h).meanwhile hbefore).beginFirstBatch (r := b.old)
  obtain ⟨versions, hmade, hfinished⟩ := hbegun.run_remainder (plain_ofZone h) (soaAt_ofZone h)
    (config.describes_ofZone actions) h.origin hb hrest hafter
  refine ⟨List.eq_replicate_iff.mpr ⟨?_, hfinished.settled⟩, hfinished.finished, versions,
    hmade.length_eq, hfinished.versions, hmade⟩
  rw [Transfer.length_results_run]
  exact Nat.zero_add _

end ZoneConfig

/-! ### A transfer of two batches -/

namespace TwoBatches

open Sample (origin soa)
open SoleWriter (session)

def txt (strings : List (List Octet)) : Record := ⟨origin, .internet, .zero, .txt strings⟩

/-- All versions are kept. -/
def config : ZoneConfig := { Sample.config with policy := .all }

/-- A writer commits two records, then the writer of the transfer takes access. -/
def before : List Action :=
  session 0 [.load .internet [soa 1, txt []], .commit] ++ [.seize]

def first : Batch := ⟨soa 1, [txt []], soa 2, [txt [[0x61]]]⟩

def second : Batch := ⟨soa 2, [], soa 3, [txt []]⟩

/-- Before every update somebody starts to read, and another writer asks for access in vain. -/
def deliveries : List Delivery := (first.stream [second]).map fun u => ⟨[.read none, .seize], u⟩

theorem awaitsTransfer : (config.usage before).AwaitsTransfer .empty where
  granted := by decide
  origin := rfl
  apex_eq := rfl
  unchecked := rfl
  filed := by
    unfold Version.Filed
    decide
  soaAt := by decide

theorem undisturbed : (Transfer.start (config.usage before)).Undisturbed deliveries := by
  have hcalm {u : Usage} (h : u.Calm) (h' : (u.step (.read none)).Calm)
      (h'' : ((u.step (.read none)).step .seize).Calm) : u.StaysCalm [.read none, .seize] :=
    ⟨h, h', h''⟩
  refine ⟨?_, ?_, ?_, ?_, ?_, ?_, ?_, ?_, trivial⟩
  all_goals exact hcalm ⟨rfl, rfl⟩ ⟨rfl, rfl⟩ ⟨rfl, rfl⟩

theorem fits : ∀ b ∈ [first, second], b.Fits (config.usage before).zone .empty := by
  have hstored (strings : List (List Octet)) :
      ∃ m, (config.usage before).zone.origin.stored (txt strings).owner = .ok m :=
    ⟨.empty, rfl⟩
  intro b hb
  rcases List.mem_cons.mp hb with rfl | hb
  · refine ⟨by decide, ?_, by decide, rfl, .empty, rfl, rfl⟩
    simp [first, hstored]
  · cases List.mem_singleton.mp hb
    refine ⟨by decide, ?_, by decide, rfl, .empty, rfl, rfl⟩
    simp [second, hstored]

theorem transfer_publishes_two_batches :
    (config.usage before).AwaitsTransfer .empty ∧
      (∀ b ∈ [first, second], b.Fits (config.usage before).zone .empty) ∧
      deliveries.map (·.update) = first.stream [second] ∧
      (Transfer.start (config.usage before)).Undisturbed deliveries ∧
      ((Transfer.start (config.usage before)).run deliveries).Published (config.usage before) .empty
        [first, second] deliveries.length :=
  ⟨awaitsTransfer, fits, rfl, undisturbed,
    ZoneConfig.transfer_publishes_batches awaitsTransfer fits rfl undisturbed⟩

end TwoBatches

end DnsZone
