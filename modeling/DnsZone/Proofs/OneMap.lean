import DnsZone.Proofs.Ledger.Listing
import DnsZone.Proofs.Sample
import DnsZone.Proofs.Traffic.SoleWriter
import DnsZone.Proofs.VersionedZone.Snapshots

/-!
# All ways to read agree

A transaction can look up a record set, fetch a node, ask whether a name exists, list all record
sets, and list all names. Whatever a writer has stored, deleted, wiped or replaced, the answers are
those of one map from names and keys to record sets, and the listings are in canonical order.
-/

namespace DnsZone

/-! ### The names of a listing -/

namespace Listing

open Transaction (distinctNames)

/-- The names of a listing in order ascend, and come after the name before. -/
theorem ascending_distinctNames {l : List (Name × RecordSet)} (h : Ordered l)
    {last? : Option Name} (hlast : ∀ k ∈ last?, ∀ e ∈ l, Name.compare k e.1 ≠ .gt) :
    (∀ k ∈ last?, ∀ m ∈ distinctNames last? l, Name.compare k m = .lt) ∧
      (distinctNames last? l).Pairwise fun a b => Name.compare a b = .lt := by
  induction l generalizing last? with
  | nil =>
      refine ⟨fun k _ m hm => ?_, List.Pairwise.nil⟩
      cases hm
  | cons e rest ih =>
      obtain ⟨he, hrest⟩ := List.pairwise_cons.mp h
      unfold distinctNames
      split
      · exact ih hrest fun k hk d hd => hlast k hk d (List.mem_cons_of_mem e hd)
      · rename_i hnew
        have hfirst : ∀ k ∈ some e.1, ∀ d ∈ rest, Name.compare k d.1 ≠ .gt :=
          fun k hk d hd => Option.some.inj hk ▸ he d hd
        obtain ⟨hafter, hascends⟩ := ih hrest hfirst
        refine ⟨fun k hk m hm => ?_, List.pairwise_cons.mpr ⟨hafter e.1 rfl, hascends⟩⟩
        have hlt : Name.compare k e.1 = .lt := by
          cases hc : Name.compare k e.1 with
          | lt => rfl
          | eq =>
              rw [hk] at hnew
              exact absurd (Name.compare_eq_iff.mp hc) hnew
          | gt => exact absurd hc (hlast k hk e List.mem_cons_self)
        rcases List.mem_cons.mp hm with rfl | hm
        · exact hlt
        · exact Std.TransCmp.lt_trans hlt (hafter e.1 rfl m hm)

theorem exists_of_mem_distinctNames {l : List (Name × RecordSet)} {last? : Option Name} {m : Name}
    (h : m ∈ distinctNames last? l) : ∃ e ∈ l, e.1 = m := by
  induction l generalizing last? with
  | nil => cases h
  | cons d rest ih =>
      unfold distinctNames at h
      split at h
      · obtain ⟨e, he, hm⟩ := ih h
        exact ⟨e, List.mem_cons_of_mem d he, hm⟩
      · rcases List.mem_cons.mp h with rfl | h
        · exact ⟨d, List.mem_cons_self, rfl⟩
        · obtain ⟨e, he, hm⟩ := ih h
          exact ⟨e, List.mem_cons_of_mem d he, hm⟩

/-- Every name of a listing is kept, unless it is the name before. -/
theorem exists_mem_distinctNames {l : List (Name × RecordSet)} (last? : Option Name)
    {e : Name × RecordSet} (h : e ∈ l) :
    (last? == some e.1) = true ∨ ∃ m ∈ distinctNames last? l, (m == e.1) = true := by
  induction l generalizing last? with
  | nil => cases h
  | cons d rest ih =>
      unfold distinctNames
      split
      · rename_i hsame
        rcases List.mem_cons.mp h with rfl | h
        · exact .inl hsame
        · exact ih last? h
      · rcases List.mem_cons.mp h with rfl | h
        · exact .inr ⟨e.1, List.mem_cons_self, BEq.rfl⟩
        · rcases ih (some d.1) h with hd | ⟨m, hm, hme⟩
          · exact .inr ⟨d.1, List.mem_cons_self, hd⟩
          · exact .inr ⟨m, List.mem_cons_of_mem d.1 hm, hme⟩

theorem setsAt_ne_nil_iff {l : List (Name × RecordSet)} {n : Name} :
    setsAt l n ≠ [] ↔ ∃ e ∈ l, (e.1 == n) = true := by
  rw [setsAt, Ne, List.map_eq_nil_iff, List.filter_eq_nil_iff]
  simp

theorem mem_distinctNames_iff (l : List (Name × RecordSet)) (n : Name) :
    (∃ m ∈ distinctNames none l, (m == n) = true) ↔ setsAt l n ≠ [] := by
  rw [setsAt_ne_nil_iff]
  constructor
  · rintro ⟨m, hm, hmn⟩
    obtain ⟨e, he, rfl⟩ := exists_of_mem_distinctNames hm
    exact ⟨e, he, hmn⟩
  · rintro ⟨e, he, hen⟩
    rcases exists_mem_distinctNames none he with hnone | ⟨m, hm, hme⟩
    · cases hnone
    · exact ⟨m, hm, BEq.trans hme hen⟩

/-- Nodes that hold at most one record set for each key are listed with at most one for each name
and key. -/
theorem pairwise_keys_ownedSets {nodes : List (Name × Node)}
    (hsorted : nodes.Pairwise fun a b => Name.compare a.1 b.1 = .lt)
    (hkeyed : ∀ e ∈ nodes, e.2.Keyed) :
    (ownedSets nodes).Pairwise fun e e' => (e.1 == e'.1) = true → e.2.key ≠ e'.2.key := by
  rw [ownedSets, List.pairwise_flatMap]
  refine ⟨fun e he => ?_, hsorted.imp fun {a b} hab => ?_⟩
  · rw [List.pairwise_map, Node.recordSets, List.pairwise_map]
    refine (hkeyed e he).imp ?_
    intro a b hne _
    exact hne
  · intro x hx y hy hxy
    obtain ⟨_, _, rfl⟩ := List.mem_map.mp hx
    obtain ⟨_, _, rfl⟩ := List.mem_map.mp hy
    have heq : Name.compare a.1 b.1 = .eq := Name.compare_eq_iff.mpr hxy
    rw [hab] at heq
    cases heq

end Listing

/-! ### What a transaction reads -/

section

variable {ζ τ : Type} [Access τ] [Backend ζ τ]

/-- An open transaction lists the record sets `sets` and the names `names`, and whichever way it
looks, it sees what is listed. -/
structure Transaction.ReadsOneMap (z : ζ) (t : Transaction τ) (sets : List (Name × RecordSet))
    (names : List Name) : Prop where
  sets_eq : t.sets z = .ok sets
  names_eq : t.names z = .ok names
  ordered : Listing.Ordered sets
  /-- No two record sets are listed under one name and key. -/
  nodup : sets.Pairwise fun e e' => (e.1 == e'.1) = true → e.2.key ≠ e'.2.key
  find?_iff : ∀ n key s, Backend.find? z t.access n key = some s ↔
    s ∈ Listing.setsAt sets n ∧ s.key = key
  isSome_node? : ∀ n, (Backend.node? z t.access n).isSome = true ↔ Listing.setsAt sets n ≠ []
  recordSets_eq : ∀ n node, Backend.node? z t.access n = some node →
    node.recordSets = Listing.setsAt sets n
  contains_eq : ∀ n, Backend.contains z t.access n = (Backend.node? z t.access n).isSome
  ascending : names.Pairwise fun a b => Name.compare a b = .lt
  mem_names_iff : ∀ n, (∃ m ∈ names, (m == n) = true) ↔ Backend.contains z t.access n = true
  /-- What a caller asks about a name is answered for its stored form. -/
  stored : ∀ n m, t.origin.stored n = .ok m →
    (∀ key, t.get z n key = .ok (Backend.find? z t.access m key)) ∧
    t.getNode z n = .ok (Backend.node? z t.access m) ∧
    t.nameExists z n = .ok (Backend.contains z t.access m)

variable {z : ζ} {a : τ} {c : Content}

/-- What is listed for a name is what its node holds. -/
theorem Shows.setsAt_eq (h : Shows z a c) (n : Name) :
    Listing.setsAt (Backend.sets z a) n = ((Backend.node? z a n).map Node.recordSets).getD [] := by
  obtain ⟨nodes, hlisting, hsets⟩ := h.sets
  rw [hsets]
  exact Listing.setsAt_ownedSets hlisting n

theorem Shows.ordered_sets (h : Shows z a c) : Listing.Ordered (Backend.sets z a) := by
  obtain ⟨nodes, hlisting, hsets⟩ := h.sets
  rw [hsets]
  exact Listing.ordered_ownedSets hlisting.sorted

theorem Shows.pairwise_keys (h : Shows z a c) :
    (Backend.sets z a).Pairwise fun e e' => (e.1 == e'.1) = true → e.2.key ≠ e'.2.key := by
  obtain ⟨nodes, hlisting, hsets⟩ := h.sets
  rw [hsets]
  refine Listing.pairwise_keys_ownedSets hlisting.sorted fun e he => h.keyed e.1 e.2 ?_
  rw [← hlisting.lookup_eq]
  exact OrderedMap.lookup_eq_some_of_mem hlisting.sorted he Std.ReflCmp.compare_self

theorem Shows.isSome_node?_iff (h : Shows z a c)
    (hsolid : ∀ n node, Backend.node? z a n = some node → node.isEmpty = false) (n : Name) :
    (Backend.node? z a n).isSome = true ↔ Listing.setsAt (Backend.sets z a) n ≠ [] := by
  rw [h.setsAt_eq]
  cases hn : Backend.node? z a n with
  | none => simp
  | some node =>
      have hfilled := hsolid n node hn
      simpa [Node.recordSets, Node.isEmpty] using hfilled

theorem Shows.find?_iff (h : Shows z a c) (n : Name) (key : SetKey) (s : RecordSet) :
    Backend.find? z a n key = some s ↔
      s ∈ Listing.setsAt (Backend.sets z a) n ∧ s.key = key := by
  rw [h.find?_eq_bind, h.setsAt_eq]
  cases hn : Backend.node? z a n with
  | none => simp
  | some node =>
      have hmem := Node.mem_recordSets_iff (h.keyed n node hn) (s := s)
      constructor
      · exact Node.mem_of_find?_eq_some
      · rintro ⟨hs, rfl⟩
        exact hmem.mp hs

/-- Names in different spellings find the same. -/
theorem Shows.find?_congr (h : Shows z a c) {n n' : Name} (hn : (n == n') = true)
    (key : SetKey) : Backend.find? z a n key = Backend.find? z a n' key := by
  have hat : Listing.setsAt (Backend.sets z a) n = Listing.setsAt (Backend.sets z a) n' := by
    simp only [Listing.setsAt, BEq.congr_right hn]
  refine Option.ext fun s => ?_
  rw [h.find?_iff, h.find?_iff, hat]

theorem Shows.contains_eq_isSome (h : Shows z a c) (n : Name) :
    Backend.contains z a n = (Backend.node? z a n).isSome := by
  rw [h.contains, ← h.node?, Option.isSome_map]

/-- Who sees one content without empty nodes reads one map. -/
theorem Shows.readsOneMap {t : Transaction τ} (h : Shows z t.access c)
    (hsolid : ∀ n node, Backend.node? z t.access n = some node → node.isEmpty = false)
    (hopen : t.isEnded = false) :
    t.ReadsOneMap z (Backend.sets z t.access)
      (Transaction.distinctNames none (Backend.sets z t.access)) where
  sets_eq := Transaction.sets_of_open hopen
  names_eq := by
    rw [Transaction.names, Transaction.sets_of_open hopen]
    rfl
  ordered := h.ordered_sets
  nodup := h.pairwise_keys
  find?_iff := h.find?_iff
  isSome_node? := h.isSome_node?_iff hsolid
  recordSets_eq n node hn := by
    rw [h.setsAt_eq, hn]
    rfl
  contains_eq := h.contains_eq_isSome
  ascending := by
    have hfirst : ∀ k ∈ (none : Option Name), ∀ e ∈ Backend.sets z t.access,
        Name.compare k e.1 ≠ .gt := nofun
    exact (Listing.ascending_distinctNames h.ordered_sets hfirst).2
  mem_names_iff n := by
    rw [Listing.mem_distinctNames_iff, h.contains_eq_isSome, h.isSome_node?_iff hsolid]
  stored n m hm := by
    have hrequire : t.requireOpen = .ok () := by
      rw [Transaction.requireOpen, hopen]
      rfl
    refine ⟨fun key => ?_, ?_, ?_⟩
    · rw [Transaction.get, hrequire, hm]
      rfl
    · rw [Transaction.getNode, hrequire, hm]
      rfl
    · rw [Transaction.nameExists, hrequire, hm]
      rfl

end

/-! ### Zones in use -/

/-- A transaction of a zone that keeps versions sees no empty nodes, whatever has become of the zone
meanwhile. -/
theorem ZoneConfig.proper_traffic (config : ZoneConfig) (events : List (Traffic.Event Action)) :
    ∀ t ∈ (config.traffic events).txns, t.isEnded = false → t.access.view.Proper := by
  intro t ht hopen
  obtain ⟨actions, -, hresembles⟩ := config.exists_resembles_traffic events
  obtain ⟨j, p, hp, rfl⟩ := hresembles.exists_participant ht hopen
  have hmem := List.mem_of_getElem? hp
  have hholds := config.holds_solid actions
  cases haccess : p.txn.access with
  | reading v =>
      exact (hholds.versions v ((config.pinned_usage actions).kept p hmem v haccess)).proper
  | writing d =>
      exact (hholds.writers p hmem (Participant.writes_of_writing haccess) d haccess).proper
  | ended =>
      rw [Transaction.isEnded, haccess] at hopen
      cases hopen

theorem ZoneConfig.ready_plainTraffic (config : ZoneConfig)
    (events : List (Traffic.Event PlainAction)) :
    (config.plainTraffic events).zone.Sound ∧
      ∀ t ∈ (config.plainTraffic events).txns, t.access.Proper := by
  have htended := config.sound_plainTraffic events
  refine ⟨htended.good, fun t ht => ?_⟩
  cases haccess : t.access with
  | writing s =>
      have hready := htended.writers t ht (decide_eq_true (congrArg Access.mode haccess))
      rw [haccess] at hready
      exact hready.proper
  | reading => exact fun s hs => by cases hs
  | ended => exact fun s hs => by cases hs

/-- Whatever is done to a zone through transactions, by updaters and, if it is a plain one,
directly: each open transaction reads one map. If the zone keeps versions, it does so whatever has
become of the zone since. -/
theorem ZoneConfig.transactions_read_one_map (config : ZoneConfig) :
    (∀ (events : List (Traffic.Event Action)) (z : VersionedZone),
      ∀ t ∈ (config.traffic events).txns, t.isEnded = false →
        ∃ sets names, t.ReadsOneMap z sets names) ∧
    ∀ events : List (Traffic.Event PlainAction), ∀ t ∈ (config.plainTraffic events).txns,
      t.isEnded = false →
        ∃ sets names, t.ReadsOneMap (config.plainTraffic events).zone sets names := by
  refine ⟨fun events z t ht hopen => ?_, fun events t ht hopen => ?_⟩
  · have hproper := config.proper_traffic events t ht hopen
    exact ⟨_, _, (z.shows t.access hproper).readsOneMap
      (fun _ _ => VersionedView.isEmpty_of_node? hproper) hopen⟩
  · obtain ⟨hsound, hproper⟩ := config.ready_plainTraffic events
    exact ⟨_, _, (PlainZone.shows hsound.proper t.access (hproper t ht)).readsOneMap
      (fun _ _ => PlainZone.isEmpty_of_nodeIn? hsound.proper) hopen⟩

namespace MixedWriter

open Sample SoleWriter

/-- All content is replaced, a record set is stored and another one deleted. -/
def calls : List Call :=
  [.edit (.addData origin .hour (.txt [])), .edit .deleteAll,
    .edit (.addData origin .hour (.a ⟨192, 0, 2, 1⟩)), .edit (.deleteData origin (.txt []) false)]

theorem transactions_read_one_map_of_mixedWriter :
    let t := config.traffic (events calls)
    let t' := config.plainTraffic (events calls)
    (∃ w ∈ t.txns, w.isEnded = false ∧ w.nameExists t.zone origin = .ok true ∧
      ∃ sets names, w.ReadsOneMap t.zone sets names) ∧
    ∃ w ∈ t'.txns, w.isEnded = false ∧ w.nameExists t'.zone origin = .ok true ∧
      ∃ sets names, w.ReadsOneMap t'.zone sets names := by
  intro t t'
  obtain ⟨hversioned, hplain⟩ := config.transactions_read_one_map
  have hopen : (config.writer calls).isEnded = false := rfl
  have hopen' : (config.plainWriter calls).isEnded = false := rfl
  have hmem := config.writer_mem_txns calls
  have hmem' := config.plainWriter_mem_txns calls
  exact ⟨⟨_, hmem, hopen, rfl, hversioned _ _ _ hmem hopen⟩,
    ⟨_, hmem', hopen', rfl, hplain _ _ hmem' hopen'⟩⟩

end MixedWriter

end DnsZone
