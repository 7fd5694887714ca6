import DnsZone.Proofs.Ledger.Records
import DnsZone.Proofs.OrderedMap.Correspondence
import DnsZone.Proofs.Sample
import DnsZone.Proofs.Traffic.SoleWriter
import DnsZone.Proofs.WellFormed

/-!
# The order of the records that are loaded

Loading adds records one after another, each to the set of its key at its owner. Each set gathers
those that belong to it, whatever comes in between, so it makes no difference in which order the
records are listed: the record sets that are there afterwards `Match`, at the same names.
-/

namespace DnsZone

/-- Whether a record is stored at a name in the set of a key. -/
def Origin.files (o : Origin) (n : Name) (key : SetKey) (r : Record) : Bool :=
  match o.stored r.owner with
  | .ok m => n == m && decide (key = r.data.key)
  | .error _ => false

/-! ### What a ledger gathers -/

namespace Ledger

/-- The ledger `l'` is as `l` but for some records, which every set has gathered that they belong
to. -/
structure Gathers (l : Ledger) (records : List Record) (l' : Ledger) : Prop where
  checks : l'.checks = l.checks
  origin : l'.origin = l.origin
  set?_eq : ∀ n key, l'.table.set? n key =
    RecordSet.gather (l.table.set? n key) (records.filter (l.origin.files n key))

variable {l l₁ l' : Ledger} {r : Record} {records : List Record}

theorem gathers_nil (l : Ledger) : l.Gathers [] l := ⟨rfl, rfl, fun _ _ => rfl⟩

theorem Gathers.cons (h : l.Gathers [r] l₁) (h' : l₁.Gathers records l') :
    l.Gathers (r :: records) l' where
  checks := h'.checks.trans h.checks
  origin := h'.origin.trans h.origin
  set?_eq n key := by
    rw [h'.set?_eq, h.set?_eq, h.origin, RecordSet.gather, RecordSet.gather, RecordSet.gather,
      ← List.foldl_append, ← List.filter_append, List.singleton_append]

/-- A record that is added is gathered by the set of its key at its owner. -/
theorem edit_addRecord_of_unchecked (h : l.checks = {})
    (hr : ∃ m, l.origin.stored r.owner = .ok m) :
    ∃ l', l.edit (.addRecord r) = (.ok none, l') ∧ l.Gathers [r] l' := by
  obtain ⟨m, hm⟩ := hr
  obtain ⟨l', hl', hstores⟩ := add_of_unchecked h m r.ttl r.data
  refine ⟨l', edit_of_atName rfl hm hl', hstores.checks, hstores.origin, fun n key => ?_⟩
  rw [hstores.set?_eq, List.filter_singleton, Origin.files, hm]
  by_cases hat : (n == m) = true ∧ key = r.data.key
  · simp [hat, RecordSet.gather, l.table.set?_congr hat.1]
  · rw [if_neg hat]
    have hfiles : (n == m && decide (key = r.data.key)) = false := by simpa using hat
    simp only [hfiles]
    rfl

variable {ζ τ : Type} [Access τ] [Backend ζ τ] {z : ζ} {good : τ → Prop} {t : Transaction τ}

/-- Once the origin is known, loading does no more than to add the records. -/
theorem AccountsFor.load (laws : Transaction.StagesSets z good) (h : AccountsFor z good l t)
    (hchecks : l.checks = {}) (horigin : l.origin.name?.isSome = true) {cls : RecordClass}
    (hrecords : ∀ r ∈ records, r.cls = cls ∧ ∃ m, l.origin.stored r.owner = .ok m) :
    ∃ t' l', t.load z cls records = (.ok records.length, t') ∧ l.Gathers records l' ∧
      AccountsFor z good l' t' := by
  induction records generalizing l t with
  | nil => exact ⟨t, l, rfl, gathers_nil l, h⟩
  | cons r rest ih =>
      obtain ⟨⟨hcls, hr⟩, hrest⟩ := List.forall_mem_cons.mp hrecords
      obtain ⟨l₁, hl₁, hgathers⟩ := edit_addRecord_of_unchecked hchecks hr
      obtain ⟨hresult, h₁⟩ := h.edit laws (.addRecord r)
      rw [hl₁] at hresult h₁
      obtain ⟨t', l', hload, hgathers', h'⟩ := ih h₁ (hgathers.checks.trans hchecks)
        (by rwa [hgathers.origin]) (by rwa [hgathers.origin])
      refine ⟨t', l', ?_, hgathers.cons hgathers', h'⟩
      have hlearn : t.learnFrom z r = (.ok none, t) := by
        rw [Transaction.learnFrom, h.origin, Option.isNone_eq_false_iff.mpr horigin]
        rfl
      have hedit : t.edit z (.addRecord r) = (.ok none, (t.edit z (.addRecord r)).2) :=
        Prod.ext hresult rfl
      rw [Transaction.load_cons, if_neg (not_not_intro hcls), hlearn, Transaction.andThen, hedit,
        Transaction.andThen, hload]
      rfl

end Ledger

section

variable {ζ τ : Type} [Access τ] [Backend ζ τ]

/-! ### Views with the same records -/

/-- The nodes hold the same record sets, in any order. -/
def Node.SameRecords (node node' : Node) : Prop :=
  Multiset.Rel RecordSet.Matches (node.recordSets : Multiset RecordSet)
    (node'.recordSets : Multiset RecordSet)

/-- Both transactions see the same record sets, up to the spelling of names, the order of records
in a set and that of sets at a name. -/
structure SeesSameRecords (z : ζ) (a a' : τ) : Prop where
  find? : ∀ n key,
    Option.Rel RecordSet.Matches (Backend.find? z a n key) (Backend.find? z a' n key)
  node? : ∀ n, Option.Rel Node.SameRecords (Backend.node? z a n) (Backend.node? z a' n)
  contains : ∀ n, Backend.contains z a n = Backend.contains z a' n
  names : List.Forall₂ (fun e e' => (e.1 == e'.1) = true) (Backend.sets z a) (Backend.sets z a')
  sets : ∀ n, Multiset.Rel RecordSet.Matches
    (Listing.setsAt (Backend.sets z a) n : Multiset RecordSet)
    (Listing.setsAt (Backend.sets z a') n : Multiset RecordSet)

/-- Nodes with different keys, if they match under every key. -/
theorem Node.sameRecords {node node' : Node} (h : node.Keyed) (h' : node'.Keyed)
    (hfind : ∀ key, Option.Rel RecordSet.Matches (node.find? key) (node'.find? key)) :
    node.SameRecords node' := by
  have hpairwise {node : Node} (h : node.Keyed) :
      node.recordSets.Pairwise fun s s' => s.key ≠ s'.key := List.pairwise_map.mpr h
  refine rel_of_pairwise (fun s hs => ?_) (fun s' hs' => ?_) ?_ ?_
  · have hrel := hfind s.key
    rw [(Node.mem_recordSets_iff h).mp hs] at hrel
    generalize hfound : node'.find? s.key = s? at hrel
    cases hrel with
    | some hmatches => exact ⟨_, (Node.mem_of_find?_eq_some hfound).1, hmatches⟩
  · have hrel := hfind s'.key
    rw [(Node.mem_recordSets_iff h').mp hs'] at hrel
    generalize hfound : node.find? s'.key = s? at hrel
    cases hrel with
    | some hmatches => exact ⟨_, (Node.mem_of_find?_eq_some hfound).1, hmatches⟩
  · exact (hpairwise h).imp fun hne b hs hs' => hne (hs.key_eq.trans hs'.key_eq.symm)
  · exact (hpairwise h').imp fun hne a hs hs' => hne (hs.key_eq.symm.trans hs'.key_eq)

namespace Displays

variable {z : ζ} {good : τ → Prop} {a a' : τ}

theorem contains_eq_of_matches (h : Displays z good) (ha : good a) (ha' : good a')
    (hfind : ∀ n key,
      Option.Rel RecordSet.Matches (Backend.find? z a n key) (Backend.find? z a' n key))
    (n : Name) : Backend.contains z a n = Backend.contains z a' n := by
  obtain ⟨c, hc⟩ := h.shows ha
  obtain ⟨c', hc'⟩ := h.shows ha'
  rw [Bool.eq_iff_iff, hc.contains_iff fun _ _ => h.isEmpty_of_node? ha,
    hc'.contains_iff fun _ _ => h.isEmpty_of_node? ha']
  simp only [fun key => isSome_eq_of_rel (hfind n key)]

theorem rel_node?_of_matches (h : Displays z good) (ha : good a) (ha' : good a')
    (hfind : ∀ n key,
      Option.Rel RecordSet.Matches (Backend.find? z a n key) (Backend.find? z a' n key))
    (n : Name) : Option.Rel Node.SameRecords (Backend.node? z a n) (Backend.node? z a' n) := by
  have hcontains := h.contains_eq_of_matches ha ha' hfind n
  obtain ⟨c, hc⟩ := h.shows ha
  obtain ⟨c', hc'⟩ := h.shows ha'
  have hfind := hfind n
  rw [hc.contains, hc'.contains, ← hc.node?, ← hc'.node?, Option.isSome_map,
    Option.isSome_map] at hcontains
  simp only [hc.find?_eq_bind, hc'.find?_eq_bind] at hfind
  cases hnode : Backend.node? z a n with
  | none =>
      cases hnode' : Backend.node? z a' n with
      | none => exact .none
      | some node' => rw [hnode, hnode'] at hcontains; cases hcontains
  | some node =>
      cases hnode' : Backend.node? z a' n with
      | none => rw [hnode, hnode'] at hcontains; cases hcontains
      | some node' =>
          rw [hnode, hnode'] at hfind
          exact .some (Node.sameRecords (hc.keyed n node hnode) (hc'.keyed n node' hnode') hfind)

/-- It is enough that the record sets match that are found under every name and key. -/
theorem seesSameRecords (h : Displays z good) (ha : good a) (ha' : good a')
    (hfind : ∀ n key,
      Option.Rel RecordSet.Matches (Backend.find? z a n key) (Backend.find? z a' n key)) :
    SeesSameRecords z a a' := by
  have hnodes := h.rel_node?_of_matches ha ha' hfind
  obtain ⟨c, hc⟩ := h.shows ha
  obtain ⟨c', hc'⟩ := h.shows ha'
  obtain ⟨nodes, hlisting, hsets⟩ := hc.sets
  obtain ⟨nodes', hlisting', hsets'⟩ := hc'.sets
  have hat (n : Name) : Multiset.Rel RecordSet.Matches
      (Listing.setsAt (ownedSets nodes) n : Multiset RecordSet)
      (Listing.setsAt (ownedSets nodes') n : Multiset RecordSet) := by
    rw [Listing.setsAt_ownedSets hlisting, Listing.setsAt_ownedSets hlisting']
    have hrel := hnodes n
    revert hrel
    generalize Backend.node? z a n = node?
    generalize Backend.node? z a' n = node?'
    rintro (hrel | -)
    · exact hrel
    · exact .zero
  refine ⟨hfind, hnodes, h.contains_eq_of_matches ha ha' hfind, ?_, by rwa [hsets, hsets']⟩
  rw [hsets, hsets']
  exact Listing.forall₂_of_length_setsAt (Listing.ordered_ownedSets hlisting.sorted)
    (Listing.ordered_ownedSets hlisting'.sorted) fun n => Multiset.card_eq_card_of_rel (hat n)

end Displays

/-! ### Loading -/

namespace Transaction

/-- Nothing stands in the way of a writer that is to load some records. -/
structure Takes (z : ζ) (t : Transaction τ) (cls : RecordClass) (records : List Record) : Prop where
  writing : Access.mode t.access = .writing
  origin : t.origin.name?.isSome = true
  checks : t.checks = {}
  distinct : FindsOnly RecordSet.Distinct z t.access
  cls : ∀ r ∈ records, r.cls = cls
  stored : ∀ r ∈ records, ∃ n, t.origin.stored r.owner = .ok n

/-- What loading records comes to, in whatever order they are listed. -/
structure Loads (z : ζ) (t : Transaction τ) (cls : RecordClass) (records : List Record) : Prop where
  count : (t.load z cls records).1 = .ok records.length
  /-- Every set gathers the records that belong to it. -/
  gathers : ∀ n key, RecordSet.Gathers (Backend.find? z t.access n key)
    (records.filter (t.origin.files n key))
    (Backend.find? z (t.load z cls records).2.access n key)
  of_perm : ∀ records', records.Perm records' →
    (t.load z cls records').1 = .ok records.length ∧
      SeesSameRecords z (t.load z cls records).2.access (t.load z cls records').2.access

variable {z : ζ} {good : τ → Prop} {t : Transaction τ} {cls : RecordClass} {records : List Record}

theorem Takes.of_perm (h : t.Takes z cls records) {records' : List Record}
    (hperm : records.Perm records') : t.Takes z cls records' where
  writing := h.writing
  origin := h.origin
  checks := h.checks
  distinct := h.distinct
  cls r hr := h.cls r (hperm.mem_iff.mpr hr)
  stored r hr := h.stored r (hperm.mem_iff.mpr hr)

/-- A writer keeps the ledger of what it sees. -/
theorem accountsFor_listing (laws : Displays z good) (h : good t.access) :
    Ledger.AccountsFor z good ⟨t.origin, t.checks, .ofListing (Backend.sets z t.access)⟩ t := by
  obtain ⟨c, hc⟩ := laws.shows h
  obtain ⟨nodes, hlisting, hsets⟩ := hc.sets
  refine ⟨h, rfl, rfl, fun n key => ?_⟩
  rw [hsets, SetTable.set?_ofListing_ownedSets hlisting, hc.find?_eq_bind]

theorem load_of_takes (laws : StagesSets z good) (hshows : Displays z good) (h : good t.access)
    (htakes : t.Takes z cls records) :
    ∃ t', t.load z cls records = (.ok records.length, t') ∧ good t'.access ∧
      ∀ n key, Backend.find? z t'.access n key = RecordSet.gather (Backend.find? z t.access n key)
        (records.filter (t.origin.files n key)) := by
  have haccount := accountsFor_listing hshows h
  obtain ⟨t', l', hload, hgathers, haccount'⟩ := haccount.load laws htakes.checks htakes.origin
    fun r hr => ⟨htakes.cls r hr, htakes.stored r hr⟩
  refine ⟨t', hload, haccount'.good, fun n key => ?_⟩
  rw [haccount'.find?_eq, hgathers.set?_eq, haccount.find?_eq]

/-- Whatever the writer stages its changes in, the order of the records makes no difference. -/
theorem Takes.loads (htakes : t.Takes z cls records) (laws : StagesSets z good)
    (hshows : Displays z good) (h : good t.access) : t.Loads z cls records := by
  have hgathers {records : List Record} {t' : Transaction τ}
      (hfind : ∀ n key, Backend.find? z t'.access n key =
        RecordSet.gather (Backend.find? z t.access n key)
          (records.filter (t.origin.files n key))) (n : Name) (key : SetKey) :
      RecordSet.Gathers (Backend.find? z t.access n key) (records.filter (t.origin.files n key))
        (Backend.find? z t'.access n key) :=
    hfind n key ▸ RecordSet.gathers_gather (htakes.distinct n key) _
  obtain ⟨t', hload, hgood, hfind⟩ := load_of_takes laws hshows h htakes
  refine ⟨by rw [hload], by rw [hload]; exact hgathers hfind, fun records' hperm => ?_⟩
  obtain ⟨t'', hload', hgood', hfind'⟩ := load_of_takes laws hshows h (htakes.of_perm hperm)
  rw [hload, hload', hperm.length_eq]
  refine ⟨rfl, hshows.seesSameRecords hgood hgood' fun n key => ?_⟩
  exact (hgathers hfind n key).rel_of_perm (hgathers hfind' n key) (hperm.filter _)
    (fun s hs => laws.key_eq hgood hs) fun s hs => laws.key_eq hgood' hs

end Transaction

end

/-! ### Both kinds of zones -/

theorem VersionedZone.displays (z : VersionedZone) :
    Displays z fun a : VersionedAccess => ∃ d, a = .writing d ∧ d.view.Solid ∧ True where
  shows := by
    rintro _ ⟨d, rfl, hsolid, -⟩
    exact ⟨_, z.shows (.writing d) hsolid.proper⟩
  isEmpty_of_node? := by
    rintro _ ⟨d, rfl, hsolid, -⟩ n node hnode
    exact VersionedView.isEmpty_of_node? hsolid.proper hnode

theorem PlainZone.Sound.displays {z : PlainZone} (h : z.Sound) : Displays z z.Ready where
  shows ha := ⟨_, PlainZone.shows h.proper _ ha.proper⟩
  isEmpty_of_node? _ _ _ hnode := isEmpty_of_nodeIn? h.proper hnode

/-- Records that a writer loads, all of them of the given class and in the zone, are gathered by the
sets of their keys at their owners, and no matter in which order they are listed: the number of
records is the same, and so are the records that the writer sees afterwards. -/
theorem ZoneConfig.records_load_in_any_order (config : ZoneConfig) (cls : RecordClass)
    (records : List Record) :
    (∀ actions, ∀ p ∈ (config.usage actions).txns,
      p.txn.Takes (config.usage actions).zone cls records →
        p.txn.Loads (config.usage actions).zone cls records) ∧
    ∀ actions, ∀ t ∈ (config.plainUsage actions).txns,
      t.Takes (config.plainUsage actions).zone cls records →
        t.Loads (config.plainUsage actions).zone cls records := by
  constructor
  · intro actions p hp htakes
    have hholds : (config.usage actions).Holds config.checksOrigin _ _ :=
      ZoneConfig.holds_usage Usage.zoneInvariant_solid (VersionedView.solid_empty _ _)
        (Usage.admitsAll_of_forall (fun _ _ => trivial) _ actions)
    obtain ⟨d, hd⟩ := VersionedZone.exists_draft htakes.writing
    have hsolid := hholds.writers p hp (Participant.writes_of_writing hd) d hd
    exact htakes.loads (Ledger.Mirrors.laws _) (VersionedZone.displays _)
      ⟨d, hd, hsolid, trivial⟩
  · intro actions t ht htakes
    have hadmits (a : PlainAction) (_ : a ∈ actions) (u : PlainUsage) :
        u.Admits (fun _ _ => True) a := Crowd.admits_of_forall (fun _ _ => trivial) u a
    have htended := config.tended_plainUsage PlainZone.plainInvariant_sound.toPlainWriterInvariant
      (PlainZone.sound_create ..) hadmits fun c _ => (PlainZone.plainInvariant_sound.change · c)
    have hready := htended.writers t ht (decide_eq_true htakes.writing)
    exact htakes.loads htended.good.stagesSets htended.good.displays hready

namespace LoadedTwice

open Sample SoleWriter

/-- A record without text, which is there before the others are loaded. -/
def present : Record := ⟨origin, .internet, .hour, .txt []⟩

/-- Another record of its key, and the first one again with a shorter time to live. -/
def records : List Record :=
  [⟨origin, .internet, .hour, .txt [[0x61]]⟩, ⟨shoutedOrigin, .internet, ⟨60⟩, .txt []⟩]

/-- The set that gathers them. -/
def gathered : RecordSet := ⟨{ rtype := .txt }, ⟨60⟩, [.txt [], .txt [[0x61]]]⟩

/-- The first record is added. -/
def calls : List Call := [.edit (.addRecord present)]

theorem loads_of_loadedTwice :
    let u := config.usage (session 0 calls)
    let u' := config.plainUsage (session 0 calls)
    (∃ p ∈ u.txns, p.txn.Takes u.zone .internet records ∧
      p.txn.Loads u.zone .internet records ∧
      Backend.find? u.zone (p.txn.load u.zone .internet records).2.access .empty gathered.key =
        some gathered) ∧
    ∃ t ∈ u'.txns, t.Takes u'.zone .internet records ∧ t.Loads u'.zone .internet records := by
  intro u u'
  have hactions : ∀ a ∈ (session 0 calls : List Action), a.Brings RecordSet.Distinct := by
    simp [session, Actions.start, Actions.call, calls, Action.Brings, Call.Brings, Edit.Brings]
  have hactions' : ∀ a ∈ (session 0 calls : List PlainAction), a.Brings RecordSet.Distinct := by
    simp [session, Actions.start, Actions.call, calls, PlainAction.Brings, Call.Brings, Edit.Brings]
  have hstored : ∀ r ∈ records, ∃ n, (Origin.mk (some origin) true).stored r.owner = .ok n :=
    List.forall_mem_cons.mpr ⟨⟨_, rfl⟩, List.forall_mem_cons.mpr ⟨⟨_, rfl⟩, List.forall_mem_nil _⟩⟩
  obtain ⟨hversioned, hplain⟩ := config.records_load_in_any_order .internet records
  have hp : u.txns[0] ∈ u.txns := List.getElem_mem _
  have ht : u'.txns[0] ∈ u'.txns := List.getElem_mem _
  have htakes : u.txns[0].txn.Takes u.zone .internet records :=
    ⟨rfl, rfl, rfl, ((config.wellFormed_usage hactions).2 _ hp).findsDistinct, by decide, hstored⟩
  have htakes' : u'.txns[0].Takes u'.zone .internet records :=
    ⟨rfl, rfl, rfl, ((config.wellFormed_plainUsage hactions').2 _ ht).findsDistinct, by decide,
      hstored⟩
  exact ⟨⟨_, hp, htakes, hversioned _ _ hp htakes, rfl⟩,
    ⟨_, ht, htakes', hplain _ _ ht htakes'⟩⟩

end LoadedTwice

end DnsZone
