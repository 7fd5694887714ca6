import DnsZone.Proofs.Ledger.Listing
import DnsZone.Proofs.RecordSet.Gathering

/-!
# The records of a ledger

As long as every record stands in the set of its own key, a table of record sets is a set of pairs
of an owner name and record data, up to the case of letters. Adding a record, deleting one and
replacing a set by a single record come down to what they do to these pairs. Where no check can veto
it, each of them succeeds at every name.
-/

namespace DnsZone

/-- Data of the type of a start of authority belongs to the set of that type, whatever its form. -/
theorem RecordData.key_eq_soa_iff {d : RecordData} : d.key = .soa ↔ d.rtype = .soa := by
  refine ⟨fun h => congrArg SetKey.rtype h, fun h => ?_⟩
  cases d with
  | soa s => rfl
  | opaqueData t data =>
      cases (h : t = .soa)
      rfl
  | _ => cases h

namespace RecordSet

theorem contains_difference (s other : RecordSet) (d : RecordData) :
    (s.difference other).data.contains d = (s.data.contains d && !other.data.contains d) := by
  rw [Bool.eq_iff_iff, Bool.and_eq_true, difference]
  simp only [List.contains_iff_exists_mem_beq, List.mem_filter, Bool.not_eq_true', and_assoc]
  constructor
  · rintro ⟨d', hd', hother, hbeq⟩
    exact ⟨⟨d', hd', hbeq⟩, by rwa [List.contains_congr hbeq]⟩
  · rintro ⟨⟨d', hd', hbeq⟩, hother⟩
    exact ⟨d', hd', by rwa [← List.contains_congr hbeq], hbeq⟩

end RecordSet

namespace SetTable

/-- Whether a record of the given data is at a name, in the set of its key. -/
def has (m : SetTable) (n : Name) (d : RecordData) : Bool :=
  (m.set? n d.key).any fun s => s.data.contains d

/-- Every record stands in the set of its own key. -/
def Filed (m : SetTable) : Prop :=
  ∀ n key s, m.set? n key = some s → ∀ d ∈ s.data, d.key = key

theorem set?_congr (m : SetTable) {n n' : Name} (h : (n == n') = true) (key : SetKey) :
    m.set? n key = m.set? n' key :=
  OrderedMap.find?_congr m (OwnedKey.compare_eq_iff.mpr ⟨h, rfl⟩)

end SetTable

namespace Ledger

/-- No check vetoes anything, and every record stands in the set of its own key. -/
structure Plain (l : Ledger) : Prop where
  unchecked : l.checks = {}
  filed : l.table.Filed

/-- The ledger `l'` is as `l` but for its records, which are those that `has` tells. -/
structure Becomes (l : Ledger) (has : Name → RecordData → Bool) (l' : Ledger) : Prop where
  plain : l'.Plain
  origin : l'.origin = l.origin
  has_eq : ∀ n d, l'.table.has n d = has n d

/-- The ledger `l'` is as `l` but for one record set, which is now `s?`. -/
structure Stores (l : Ledger) (n : Name) (key : SetKey) (s? : Option RecordSet) (l' : Ledger) :
    Prop where
  checks : l'.checks = l.checks
  origin : l'.origin = l.origin
  set?_eq : ∀ n' key', l'.table.set? n' key' =
    if (n' == n) = true ∧ key' = key then s? else l.table.set? n' key'

variable {l l' : Ledger} {n : Name} {key : SetKey} {s : RecordSet}

theorem Stores.refl (l : Ledger) (n : Name) (key : SetKey) :
    l.Stores n key (l.table.set? n key) l := by
  refine ⟨rfl, rfl, fun n' key' => ?_⟩
  split
  · rename_i h
    rw [h.2, l.table.set?_congr h.1]
  · rfl

/-- The pairs that belong to the set are those that it tells, and all others stay as they are. -/
theorem Stores.becomes {s? : Option RecordSet} (h : l.Stores n key s? l') (hl : l.Plain)
    (hs : ∀ s ∈ s?, ∀ d ∈ s.data, d.key = key) {has : Name → RecordData → Bool}
    (hset : ∀ n' d, (n' == n) = true → d.key = key →
      has n' d = s?.any fun s => s.data.contains d)
    (hframe : ∀ n' d, ¬ ((n' == n) = true ∧ d.key = key) → has n' d = l.table.has n' d) :
    l.Becomes has l' where
  plain := by
    refine ⟨h.checks.trans hl.unchecked, fun n' key' s hfound d hd => ?_⟩
    rw [h.set?_eq] at hfound
    split at hfound
    · rename_i hat
      rw [hat.2]
      exact hs s hfound d hd
    · exact hl.filed n' key' s hfound d hd
  origin := h.origin
  has_eq n' d := by
    rw [SetTable.has, h.set?_eq]
    split
    · rename_i hat
      exact (hset n' d hat.1 hat.2).symm
    · rename_i hat
      exact (hframe n' d hat).symm

/-- Without checks, a set can be stored at any name. -/
theorem put_of_unchecked (h : l.checks = {}) (n : Name) (key : SetKey) (s : RecordSet) :
    l.put n key s = .ok { l with table := l.table.put n key s } := by
  rw [put, Checks.allowPut, h]
  rfl

theorem stores_put (l : Ledger) (n : Name) (key : SetKey) (s : RecordSet) :
    l.Stores n key (some s) { l with table := l.table.put n key s } :=
  ⟨rfl, rfl, fun n' key' => l.table.set?_put n n' key key' s⟩

/-- Without checks, a set can be taken out. -/
theorem erase_of_unchecked (h : l.checks = {}) (n : Name) (key : SetKey) :
    l.erase n key = .ok { l with table := l.table.eraseSet n key } := by
  rw [erase, Checks.allowDeleteSet, h]
  rfl

theorem stores_erase (l : Ledger) (n : Name) (key : SetKey) :
    l.Stores n key none { l with table := l.table.eraseSet n key } :=
  ⟨rfl, rfl, fun n' key' => l.table.set?_eraseSet n n' key key'⟩

/-! ### Edits of single records -/

/-- The set that is left holds what was there except for the record. -/
theorem stores_deleteRecords (h : l.Plain) (n : Name) (ttl : Ttl) (d : RecordData) :
    ∃ l' s?, l.deleteRecords n (.single ttl d) false = .ok l' ∧ l.Stores n d.key s? l' ∧
      (∀ s ∈ s?, ∀ d' ∈ s.data, d'.key = d.key) ∧
      ∀ d', (s?.any fun s => s.data.contains d') =
        (((l.table.set? n d.key).any fun s => s.data.contains d') && !(d' == d)) := by
  have hkey : (RecordSet.single ttl d).key = d.key := rfl
  cases hset : l.table.set? n d.key with
  | none =>
      rw [deleteRecords, hkey, hset]
      refine ⟨l, none, rfl, hset ▸ Stores.refl l n d.key, fun s hs => ?_, fun _ => rfl⟩
      cases hs
  | some old =>
      have hfiled := h.filed n d.key old hset
      have hcontains (d' : RecordData) :
          (old.difference (.single ttl d)).data.contains d' =
            (old.data.contains d' && !(d' == d)) := by
        rw [RecordSet.contains_difference, RecordSet.contains_single]
      rw [deleteRecords_of_some (s := .single ttl d) hset]
      simp only [Bool.false_and, Bool.false_eq_true, ↓reduceIte, hkey]
      split
      · rename_i hsize
        refine ⟨l, some old, rfl, hset ▸ Stores.refl l n d.key, ?_, fun d' => ?_⟩
        · rintro s ⟨⟩
          exact hfiled
        · rw [Option.any_some, ← hcontains, RecordSet.difference_eq_self hsize]
      · split
        · rename_i hempty
          refine ⟨_, none, erase_of_unchecked h.unchecked .., stores_erase .., fun s hs => ?_,
            fun d' => ?_⟩
          · cases hs
          · rw [Option.any_some, ← hcontains, List.isEmpty_iff.mp hempty]
            rfl
        · refine ⟨_, _, put_of_unchecked h.unchecked .., stores_put .., ?_, hcontains⟩
          rintro s ⟨⟩ d' hd'
          exact hfiled d' (List.mem_filter.mp hd').1

/-- A record that is added is added to the set that is there. -/
theorem add_of_unchecked (h : l.checks = {}) (n : Name) (ttl : Ttl) (d : RecordData) :
    ∃ l', l.add n (.single ttl d) = .ok l' ∧
      l.Stores n d.key (some (.adding (l.table.set? n d.key) ttl d)) l' := by
  have hkey : (RecordSet.single ttl d).key = d.key := rfl
  have hempty : (RecordSet.single ttl d).data.isEmpty = false := rfl
  rw [add, hempty, if_neg Bool.false_ne_true, hkey]
  cases hset : l.table.set? n d.key with
  | none => exact ⟨_, put_of_unchecked h .., stores_put ..⟩
  | some old =>
      simp only
      split
      · -- nothing is stored, for the set would stay as it is
        rename_i hsame
        rw [RecordSet.adding, RecordSet.merge_eq_self hsame, ← hset]
        exact ⟨l, rfl, Stores.refl l n d.key⟩
      · exact ⟨_, put_of_unchecked h .., stores_put ..⟩

/-- The set that is there afterwards holds what was there and the record. -/
theorem stores_add (h : l.Plain) (n : Name) (ttl : Ttl) (d : RecordData) :
    ∃ l' s?, l.add n (.single ttl d) = .ok l' ∧ l.Stores n d.key s? l' ∧
      (∀ s ∈ s?, ∀ d' ∈ s.data, d'.key = d.key) ∧
      ∀ d', (s?.any fun s => s.data.contains d') =
        (((l.table.set? n d.key).any fun s => s.data.contains d') || d' == d) := by
  obtain ⟨l', hl', hstores⟩ := add_of_unchecked h.unchecked n ttl d
  refine ⟨l', _, hl', hstores, ?_, RecordSet.contains_adding _ ttl d⟩
  rintro s ⟨⟩ d' hd'
  cases hset : l.table.set? n d.key with
  | none =>
      rw [hset] at hd'
      rw [List.mem_singleton.mp hd']
  | some old =>
      rw [hset, RecordSet.adding, RecordSet.data_merge_single, List.mem_append] at hd'
      rcases hd' with hd' | hd'
      · exact h.filed n d.key old hset d' hd'
      · split at hd'
        · cases hd'
        · rw [List.mem_singleton.mp hd']

/-- Equal pairs belong to one record set. -/
theorem beq_and_beq_eq_false {n n' : Name} {d d' : RecordData}
    (h : ¬ ((n' == n) = true ∧ d'.key = d.key)) : (n' == n && d' == d) = false := by
  rw [← Bool.not_eq_true, Bool.and_eq_true]
  exact fun hboth => h ⟨hboth.1, RecordData.key_congr hboth.2⟩

theorem deleteRecords_of_plain (h : l.Plain) (n : Name) (ttl : Ttl) (d : RecordData) :
    ∃ l', l.deleteRecords n (.single ttl d) false = .ok l' ∧
      l.Becomes (fun n' d' => l.table.has n' d' && !(n' == n && d' == d)) l' := by
  obtain ⟨l', s?, hl', hstores, hs, hany⟩ := stores_deleteRecords h n ttl d
  refine ⟨l', hl', hstores.becomes h hs (fun n' d' hn hkey => ?_) fun n' d' hat => ?_⟩
  · rw [hany, SetTable.has, l.table.set?_congr hn, hn, hkey, Bool.true_and]
  · rw [beq_and_beq_eq_false hat, Bool.not_false, Bool.and_true]

theorem add_of_plain (h : l.Plain) (n : Name) (ttl : Ttl) (d : RecordData) :
    ∃ l', l.add n (.single ttl d) = .ok l' ∧
      l.Becomes (fun n' d' => l.table.has n' d' || (n' == n && d' == d)) l' := by
  obtain ⟨l', s?, hl', hstores, hs, hany⟩ := stores_add h n ttl d
  refine ⟨l', hl', hstores.becomes h hs (fun n' d' hn hkey => ?_) fun n' d' hat => ?_⟩
  · rw [hany, SetTable.has, l.table.set?_congr hn, hn, hkey, Bool.true_and]
  · rw [beq_and_beq_eq_false hat, Bool.or_false]

theorem replace_of_plain (h : l.Plain) (n : Name) (ttl : Ttl) (d : RecordData) :
    ∃ l', l.replace n (.single ttl d) = .ok l' ∧
      l.Becomes (fun n' d' => if (n' == n) = true ∧ d'.key = d.key then d' == d
        else l.table.has n' d') l' ∧
      l'.table.set? n d.key = some (.single ttl d) := by
  have hstores := l.stores_put n d.key (.single ttl d)
  have hs : ∀ s ∈ some (RecordSet.single ttl d), ∀ d' ∈ s.data, d'.key = d.key := by
    rintro s ⟨⟩ d' hd'
    rw [List.mem_singleton.mp hd']
  refine ⟨_, put_of_unchecked h.unchecked ..,
    hstores.becomes h hs (fun n' d' hn hkey => ?_) fun n' d' hat => if_neg hat, ?_⟩
  · rw [if_pos ⟨hn, hkey⟩, Option.any_some, RecordSet.contains_single]
  · exact (hstores.set?_eq n d.key).trans (if_pos ⟨BEq.rfl, rfl⟩)

/-! ### Edits -/

/-- An edit at a name in the zone, where it is not refused. -/
theorem edit_of_atName {e : Edit} {n m : Name} {f : Name → Ledger → Except ZoneError Ledger}
    (hnext : l.next e = l.atName n f) (hm : l.origin.stored n = .ok m) (hl' : f m l = .ok l') :
    l.edit e = (.ok none, l') := by
  have hok : l.next e = .ok (l', none) := by
    rw [hnext, atName, hm]
    change (f m l).map _ = _
    rw [hl']
    rfl
  rw [edit, hok]

end Ledger

/-- Whether a record is stored at a name with the given data. -/
def Origin.places (o : Origin) (r : Record) (n : Name) (d : RecordData) : Bool :=
  match o.stored r.owner with
  | .ok m => n == m && d == r.data
  | .error _ => false

/-- Whether one of some records is stored at a name with the given data. -/
def Origin.placesAny (o : Origin) (records : List Record) (n : Name) (d : RecordData) : Bool :=
  records.any fun r => o.places r n d

namespace Ledger

variable {l : Ledger} {r : Record}

theorem edit_deleteData (h : l.Plain) (hr : ∃ m, l.origin.stored r.owner = .ok m) :
    ∃ l', l.edit (.deleteData r.owner r.data false) = (.ok none, l') ∧
      l.Becomes (fun n d => l.table.has n d && !l.origin.places r n d) l' := by
  obtain ⟨m, hm⟩ := hr
  obtain ⟨l', hl', hbecomes⟩ := deleteRecords_of_plain h m .zero r.data
  refine ⟨l', edit_of_atName rfl hm hl', ?_⟩
  simp only [Origin.places, hm]
  exact hbecomes

theorem edit_addRecord (h : l.Plain) (hr : ∃ m, l.origin.stored r.owner = .ok m) :
    ∃ l', l.edit (.addRecord r) = (.ok none, l') ∧
      l.Becomes (fun n d => l.table.has n d || l.origin.places r n d) l' := by
  obtain ⟨m, hm⟩ := hr
  obtain ⟨l', hl', hbecomes⟩ := add_of_plain h m r.ttl r.data
  refine ⟨l', edit_of_atName rfl hm hl', ?_⟩
  simp only [Origin.places, hm]
  exact hbecomes

theorem edit_replace_single (h : l.Plain) {m : Name} (hm : l.origin.stored r.owner = .ok m) :
    ∃ l', l.edit (.replace r.owner (.single r.ttl r.data)) = (.ok none, l') ∧
      l.Becomes (fun n d => if (n == m) = true ∧ d.key = r.data.key then d == r.data
        else l.table.has n d) l' ∧
      l'.table.set? m r.data.key = some (.single r.ttl r.data) := by
  obtain ⟨l', hl', hbecomes⟩ := replace_of_plain h m r.ttl r.data
  exact ⟨l', edit_of_atName rfl hm hl', hbecomes⟩

end Ledger

/-! ### The records of a listing -/

namespace Listing

/-- Whether a record of the given data is listed at a name. -/
def has (l : List (Name × RecordSet)) (n : Name) (d : RecordData) : Bool :=
  l.any fun e => e.1 == n && e.2.data.contains d

theorem has_iff {l : List (Name × RecordSet)} {n : Name} {d : RecordData} :
    has l n d = true ↔ ∃ s ∈ setsAt l n, s.data.contains d = true := by
  simp only [has, setsAt, List.any_eq_true, Bool.and_eq_true, List.mem_map, List.mem_filter]
  constructor
  · rintro ⟨e, he, hn, hd⟩
    exact ⟨e.2, ⟨e, ⟨he, hn⟩, rfl⟩, hd⟩
  · rintro ⟨_, ⟨e, ⟨he, hn⟩, rfl⟩, hd⟩
    exact ⟨e, he, hn, hd⟩

/-- A listing of the record sets of a table lists the records of the table. -/
theorem has_eq_of_agree {l : List (Name × RecordSet)} {m : SetTable} (h : Agree l m.listing)
    (hkeyed : m.Keyed) (hfiled : m.Filed) (n : Name) (d : RecordData) : has l n d = m.has n d := by
  rw [Bool.eq_iff_iff, has_iff, SetTable.has, Option.any_eq_true]
  simp only [(h.sets n).mem_iff, SetTable.mem_setsAt_listing hkeyed]
  constructor
  · rintro ⟨s, hs, hd⟩
    obtain ⟨d', hd', hbeq⟩ := List.contains_iff_exists_mem_beq.mp hd
    have hkey : d.key = s.key := (RecordData.key_congr hbeq).trans (hfiled n _ s hs d' hd')
    exact ⟨s, hkey ▸ hs, hd⟩
  · rintro ⟨s, hs, hd⟩
    exact ⟨s, (hkeyed n _ s hs).symm ▸ hs, hd⟩

/-- The table of a listing in which every record stands in the set of its own key. -/
theorem filed_of_agree {l : List (Name × RecordSet)} {m : SetTable} (h : Agree l m.listing)
    (hkeyed : m.Keyed) (hl : ∀ e ∈ l, ∀ d ∈ e.2.data, d.key = e.2.key) : m.Filed := by
  intro n key s hs d hd
  have hkey := hkeyed n key s hs
  have hmem : s ∈ setsAt l n := (h.sets n).mem_iff.mpr
    ((SetTable.mem_setsAt_listing hkeyed).mpr (hkey.symm ▸ hs))
  obtain ⟨e, he, rfl⟩ := List.mem_map.mp hmem
  exact (hl e (List.mem_filter.mp he).1 d hd).trans hkey

end Listing

end DnsZone
