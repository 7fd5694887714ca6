import DnsZone.Proofs.RecordSet
import DnsZone.Proofs.Staging.Content
import DnsZone.Proofs.Transaction.Plan

/-!
# The ledger of a writer

What a writer is to do with the record sets of a zone can be told without versions, working copies
and nodes. A `Ledger` keeps the sets in one finite map from owner names and keys, beside the origin
and the checks of the writer, and says of each edit whether it is refused and what it makes of the
map: records that are added are merged into the set that is there, a replacement overwrites it,
records that are deleted leave the others in order, and a set without records is taken out. An edit
leaves all sets alone that it does not touch.
-/

namespace DnsZone

/-- Record sets by owner name and key. -/
abbrev SetTable := OrderedMap OwnedKey OwnedKey.compare RecordSet

namespace SetTable

def set? (m : SetTable) (n : Name) (key : SetKey) : Option RecordSet := m.find? ⟨n, key⟩

/-- Whether there is any record set at a name. -/
def hasName (m : SetTable) (n : Name) : Bool := m.toList.any fun e => e.1.owner == n

def put (n : Name) (key : SetKey) (s : RecordSet) (m : SetTable) : SetTable := m.insert ⟨n, key⟩ s

def eraseSet (n : Name) (key : SetKey) (m : SetTable) : SetTable := m.erase ⟨n, key⟩

def eraseName (n : Name) (m : SetTable) : SetTable := m.filter fun k _ => !(k.owner == n)

/-- The record sets with their owner names, in order. -/
def listing (m : SetTable) : List (Name × RecordSet) := m.toList.map fun e => (e.1.owner, e.2)

/-- The table of the record sets that are listed. -/
def ofListing (l : List (Name × RecordSet)) : SetTable :=
  l.foldr (fun e m => put e.1 e.2.key e.2 m) .empty

theorem set?_put (m : SetTable) (n n' : Name) (key key' : SetKey) (s : RecordSet) :
    set? (put n key s m) n' key' =
      if (n' == n) = true ∧ key' = key then some s else set? m n' key' := by
  rw [set?, put, OrderedMap.find?_insert]
  simp only [OwnedKey.compare_eq_iff]
  rfl

theorem set?_eraseSet (m : SetTable) (n n' : Name) (key key' : SetKey) :
    set? (eraseSet n key m) n' key' =
      if (n' == n) = true ∧ key' = key then none else set? m n' key' := by
  rw [set?, eraseSet, OrderedMap.find?_erase]
  simp only [OwnedKey.compare_eq_iff]
  rfl

theorem set?_eraseName (m : SetTable) (n n' : Name) (key : SetKey) :
    set? (eraseName n m) n' key = if n' == n then none else set? m n' key := by
  have howner (j k : OwnedKey) (h : OwnedKey.compare j k = .eq) :
      (!(j.owner == n)) = !(k.owner == n) := by
    rw [BEq.congr_left (OwnedKey.compare_eq_iff.mp h).1]
  rw [set?, eraseName, OrderedMap.find?_filter_key howner]
  by_cases hn : (n' == n) = true
  · simp [hn]
  · simp [hn, set?]

theorem hasName_iff {m : SetTable} {n : Name} :
    hasName m n = true ↔ ∃ key, (set? m n key).isSome = true := by
  rw [hasName, List.any_eq_true]
  constructor
  · rintro ⟨e, he, hn⟩
    have hcmp : OwnedKey.compare ⟨n, e.1.key⟩ e.1 = .eq :=
      OwnedKey.compare_eq_iff.mpr ⟨BEq.symm hn, rfl⟩
    exact ⟨e.1.key, Option.isSome_of_eq_some (OrderedMap.find?_eq_some_of_mem he hcmp)⟩
  · rintro ⟨key, hkey⟩
    obtain ⟨s, hs⟩ := Option.isSome_iff_exists.mp hkey
    obtain ⟨e, he, hcmp, -⟩ := OrderedMap.mem_of_find?_eq_some hs
    exact ⟨e, he, BEq.symm (OwnedKey.compare_eq_iff.mp hcmp).1⟩

theorem set?_ofListing (l : List (Name × RecordSet)) (n : Name) (key : SetKey) :
    set? (ofListing l) n key =
      OrderedMap.lookup OwnedKey.compare ⟨n, key⟩ (l.map fun e => (⟨e.1, e.2.key⟩, e.2)) := by
  induction l with
  | nil => rfl
  | cons e l ih =>
      rw [ofListing, List.foldr_cons, set?_put, List.map_cons, OrderedMap.lookup_cons, ← ih]
      simp only [OwnedKey.compare_eq_iff]
      rfl

end SetTable

namespace Checks

/-- What the check on stored record sets says, if there is one. -/
def allowPut (c : Checks) (n : Name) (s : RecordSet) : Except ZoneError Unit :=
  match c.put? with
  | none => .ok ()
  | some check => (check n s).mapError .rejected

def allowDeleteSet (c : Checks) (n : Name) (key : SetKey) : Except ZoneError Unit :=
  match c.deleteSet? with
  | none => .ok ()
  | some check => (check n key).mapError .rejected

def allowDeleteName (c : Checks) (n : Name) : Except ZoneError Unit :=
  match c.deleteName? with
  | none => .ok ()
  | some check => (check n).mapError .rejected

end Checks

/-- What a writer goes by and the record sets that it sees. -/
structure Ledger where
  origin : Origin
  checks : Checks
  table : SetTable

namespace Ledger

/-- Stores a record set under a key. -/
def put (n : Name) (key : SetKey) (s : RecordSet) (l : Ledger) : Except ZoneError Ledger :=
  (l.checks.allowPut n s).map fun _ => { l with table := l.table.put n key s }

/-- Takes the record set known by a key out of the table. -/
def erase (n : Name) (key : SetKey) (l : Ledger) : Except ZoneError Ledger :=
  (l.checks.allowDeleteSet n key).map fun _ => { l with table := l.table.eraseSet n key }

def deleteSet (n : Name) (key : SetKey) (strict : Bool) (l : Ledger) : Except ZoneError Ledger :=
  if (l.table.set? n key).isSome then l.erase n key
  else if strict then .error (.missing .recordSet)
  else .ok l

def deleteName (n : Name) (strict : Bool) (l : Ledger) : Except ZoneError Ledger :=
  if l.table.hasName n then
    (l.checks.allowDeleteName n).map fun _ => { l with table := l.table.eraseName n }
  else if strict then .error (.missing .name)
  else .ok l

/-- Merges the records of `s` into the set that is there. Nothing is stored if that leaves the set
as it is. -/
def add (n : Name) (s : RecordSet) (l : Ledger) : Except ZoneError Ledger :=
  if s.data.isEmpty then .ok l
  else
    match l.table.set? n s.key with
    | none => l.put n s.key s
    | some old =>
        if (old.merge s).data.length = old.data.length ∧ (old.merge s).ttl = old.ttl then .ok l
        else l.put n s.key (old.merge s)

def replace (n : Name) (s : RecordSet) (l : Ledger) : Except ZoneError Ledger :=
  if s.data.isEmpty then l.deleteSet n s.key false else l.put n s.key s

/-- Takes the records of `s` out of the set that is there. The others stay in order and keep their
time to live; without others the set is taken out, and nothing is stored if none of the records was
there. If it has to be `strict`, not one of them may be missing. -/
def deleteRecords (n : Name) (s : RecordSet) (strict : Bool) (l : Ledger) :
    Except ZoneError Ledger :=
  match l.table.set? n s.key with
  | none => if strict then .error (.missing .records) else .ok l
  | some old =>
      if strict = true ∧ ∃ d ∈ s.data, old.data.contains d = false then .error (.missing .records)
      else
        match old.data.partition s.data.contains with
        | ([], _) => .ok l
        | (_, []) => l.erase n s.key
        | (_, left) => l.put n s.key { key := s.key, ttl := old.ttl, data := left }

/-- The serial number that follows another one: `value` itself or, if that is relative, the number
`value` steps further round the circle. Instead of zero it is one. -/
def nextSerial (serial : Serial) (value : UInt32) (relative : Bool) : Serial :=
  let next := if relative then (serial.val.toNat + value.toNat) % UInt32.size else value.toNat
  ⟨.ofNat (max 1 next)⟩

/-- Replaces a set that begins with a start of authority by that record, with the serial number that
follows. A step by half the circle or more is refused. -/
def updateSerial (value : UInt32) (relative : Bool) (n : Name) (l : Ledger) :
    Except ZoneError (Ledger × Serial) :=
  match l.table.set? n .soa with
  | some ⟨_, ttl, .soa soa :: _⟩ =>
      if relative = true ∧ UInt32.size / 2 ≤ value.toNat then .error (.invalidSerial value)
      else
        let serial := nextSerial soa.serial value relative
        (l.put n .soa ⟨.soa, ttl, [.soa { soa with serial := serial }]⟩).map (·, serial)
  | _ => .error .noSoa

def setOrigin (origin : Name) (l : Ledger) : Except ZoneError Ledger :=
  if origin.absolute then .ok { l with origin := { l.origin with name? := some origin } }
  else .error (.relativeOrigin origin)

/-- Does something at a name, once it is in stored form. -/
def atName (n : Name) (f : Name → Ledger → Except ZoneError Ledger) (l : Ledger) :
    Except ZoneError (Ledger × Option Serial) :=
  l.origin.stored n >>= fun m => (f m l).map (·, none)

/-- The ledger after an edit, and the new serial number if it updates one. -/
def next (e : Edit) (l : Ledger) : Except ZoneError (Ledger × Option Serial) :=
  match e with
  | .addData n ttl d => l.atName n fun m => add m ⟨⟨d.rtype, d.covers⟩, ttl, [d]⟩
  | .addRecord r => l.atName r.owner fun m => add m ⟨⟨r.data.rtype, r.data.covers⟩, r.ttl, [r.data]⟩
  | .addSet n s => l.atName n fun m => add m s
  | .replace n s => l.atName n fun m => replace m s
  | .deleteAll => .ok ({ l with table := .empty }, none)
  | .deleteName n strict => l.atName n fun m => deleteName m strict
  | .deleteSet n key strict => l.atName n fun m => deleteSet m key strict
  | .deleteRecords n s strict => l.atName n fun m => deleteRecords m s strict
  | .deleteData n d strict =>
      l.atName n fun m => deleteRecords m ⟨⟨d.rtype, d.covers⟩, .zero, [d]⟩ strict
  | .updateSerial value relative n? =>
      l.origin.target n? >>= fun m =>
        (l.updateSerial value relative m).map fun r => (r.1, some r.2)
  | .setOrigin origin => (l.setOrigin origin).map (·, none)

/-- Makes an edit, unless it is refused. -/
def edit (l : Ledger) (e : Edit) : Except ZoneError (Option Serial) × Ledger :=
  match l.next e with
  | .error fault => (.error fault, l)
  | .ok (l', serial?) => (.ok serial?, l')

/-- Makes edits in order, whether those before were refused or not. -/
def editAll (l : Ledger) : List Edit → List (Except ZoneError (Option Serial)) × Ledger
  | [] => ([], l)
  | e :: rest =>
      let r := (l.edit e).2.editAll rest
      ((l.edit e).1 :: r.1, r.2)

/-! ### Taking records out -/

/-- The records that are taken out can be told from those that are left. -/
theorem deleteRecords_of_some {l : Ledger} {n : Name} {s old : RecordSet}
    (h : l.table.set? n s.key = some old) (strict : Bool) :
    l.deleteRecords n s strict =
      if strict && !old.containsAll s then .error (.missing .records)
      else if (old.difference s).size = old.size then .ok l
      else if (old.difference s).isEmpty then l.erase n s.key
      else l.put n s.key { key := s.key, ttl := old.ttl, data := (old.difference s).data } := by
  have hmissing : (strict && !old.containsAll s) = true ↔
      strict = true ∧ ∃ d ∈ s.data, old.data.contains d = false := by
    simp [RecordSet.containsAll]
  rw [deleteRecords, h]
  simp only [hmissing, RecordSet.size_difference_eq_iff]
  split
  · rfl
  · rw [old.partition_contains s]
    cases old.data.filter s.data.contains with
    | nil => rfl
    | cons d taken =>
        rw [if_neg (List.cons_ne_nil d taken)]
        by_cases hleft : (old.difference s).isEmpty = true
        · rw [if_pos hleft, List.isEmpty_iff.mp hleft]
        · obtain ⟨d', left, hdata⟩ := List.exists_cons_of_ne_nil (mt List.isEmpty_iff.mpr hleft)
          rw [if_neg hleft, hdata]

/-! ### What an edit leaves alone -/

/-- Whether an edit is about the record set known by `key` at a name in stored form. -/
def touches (o : Origin) (n : Name) (key : SetKey) (e : Edit) : Prop :=
  match e with
  | .addData m _ d => ∃ m', o.stored m = .ok m' ∧ (n == m') = true ∧ key = ⟨d.rtype, d.covers⟩
  | .addRecord r =>
      ∃ m', o.stored r.owner = .ok m' ∧ (n == m') = true ∧ key = ⟨r.data.rtype, r.data.covers⟩
  | .addSet m s => ∃ m', o.stored m = .ok m' ∧ (n == m') = true ∧ key = s.key
  | .replace m s => ∃ m', o.stored m = .ok m' ∧ (n == m') = true ∧ key = s.key
  | .deleteAll => True
  | .deleteName m _ => ∃ m', o.stored m = .ok m' ∧ (n == m') = true
  | .deleteSet m key' _ => ∃ m', o.stored m = .ok m' ∧ (n == m') = true ∧ key = key'
  | .deleteRecords m s _ => ∃ m', o.stored m = .ok m' ∧ (n == m') = true ∧ key = s.key
  | .deleteData m d _ => ∃ m', o.stored m = .ok m' ∧ (n == m') = true ∧ key = ⟨d.rtype, d.covers⟩
  | .updateSerial _ _ n? => ∃ m', o.target n? = .ok m' ∧ (n == m') = true ∧ key = .soa
  | .setOrigin _ => False

variable {l l' : Ledger} {n n' : Name} {key key' : SetKey} {s : RecordSet}

theorem frame_put (h : l.put n key s = .ok l') (hne : ¬ ((n' == n) = true ∧ key' = key)) :
    l'.table.set? n' key' = l.table.set? n' key' := by
  obtain ⟨_, _, rfl⟩ := map_eq_ok_iff.mp h
  simp [SetTable.set?_put, hne]

theorem frame_erase (h : l.erase n key = .ok l') (hne : ¬ ((n' == n) = true ∧ key' = key)) :
    l'.table.set? n' key' = l.table.set? n' key' := by
  obtain ⟨_, _, rfl⟩ := map_eq_ok_iff.mp h
  simp [SetTable.set?_eraseSet, hne]

theorem frame_deleteSet {strict : Bool} (h : l.deleteSet n key strict = .ok l')
    (hne : ¬ ((n' == n) = true ∧ key' = key)) :
    l'.table.set? n' key' = l.table.set? n' key' := by
  rw [deleteSet] at h
  split at h
  · exact frame_erase h hne
  · split at h <;> cases h
    rfl

theorem frame_deleteName {strict : Bool} (h : l.deleteName n strict = .ok l')
    (hne : ¬ (n' == n) = true) : l'.table.set? n' key' = l.table.set? n' key' := by
  rw [deleteName] at h
  split at h
  · obtain ⟨_, _, rfl⟩ := map_eq_ok_iff.mp h
    simp [SetTable.set?_eraseName, hne]
  · split at h <;> cases h
    rfl

theorem frame_add (h : l.add n s = .ok l') (hne : ¬ ((n' == n) = true ∧ key' = s.key)) :
    l'.table.set? n' key' = l.table.set? n' key' := by
  rw [add] at h
  split at h
  · cases h
    rfl
  · split at h
    · exact frame_put h hne
    · split at h
      · cases h
        rfl
      · exact frame_put h hne

theorem frame_replace (h : l.replace n s = .ok l') (hne : ¬ ((n' == n) = true ∧ key' = s.key)) :
    l'.table.set? n' key' = l.table.set? n' key' := by
  rw [replace] at h
  split at h
  · exact frame_deleteSet h hne
  · exact frame_put h hne

theorem frame_deleteRecords {strict : Bool} (h : l.deleteRecords n s strict = .ok l')
    (hne : ¬ ((n' == n) = true ∧ key' = s.key)) :
    l'.table.set? n' key' = l.table.set? n' key' := by
  rw [deleteRecords] at h
  split at h
  · split at h <;> cases h
    rfl
  · split at h
    · cases h
    · split at h
      · cases h
        rfl
      · exact frame_erase h hne
      · exact frame_put h hne

theorem frame_updateSerial {value : UInt32} {relative : Bool} {r : Ledger × Serial}
    (h : l.updateSerial value relative n = .ok r) (hne : ¬ ((n' == n) = true ∧ key' = .soa)) :
    r.1.table.set? n' key' = l.table.set? n' key' := by
  rw [updateSerial] at h
  split at h
  · split at h
    · cases h
    · obtain ⟨l', hput, rfl⟩ := map_eq_ok_iff.mp h
      exact frame_put hput hne
  · cases h

theorem atName_eq_ok {f : Name → Ledger → Except ZoneError Ledger}
    {r : Ledger × Option Serial} (h : l.atName n f = .ok r) :
    ∃ m, l.origin.stored n = .ok m ∧ f m l = .ok r.1 := by
  obtain ⟨m, hm, h⟩ := bind_eq_ok_iff.mp h
  obtain ⟨l', hl', rfl⟩ := map_eq_ok_iff.mp h
  exact ⟨m, hm, hl'⟩

/-- An edit leaves all record sets alone that it is not about. -/
theorem frame_edit (l : Ledger) {e : Edit} (h : ¬ touches l.origin n key e) :
    (l.edit e).2.table.set? n key = l.table.set? n key := by
  rw [edit]
  cases hnext : l.next e with
  | error fault => rfl
  | ok r =>
      cases e with
      | deleteAll => exact absurd trivial h
      | setOrigin origin =>
          obtain ⟨l', hl', rfl⟩ := map_eq_ok_iff.mp hnext
          rw [setOrigin] at hl'
          split at hl' <;> cases hl'
          rfl
      | updateSerial value relative n? =>
          obtain ⟨m, hm, hnext⟩ := bind_eq_ok_iff.mp hnext
          obtain ⟨r', hr', rfl⟩ := map_eq_ok_iff.mp hnext
          exact frame_updateSerial hr' fun hne => h ⟨m, hm, hne⟩
      | deleteName m strict =>
          obtain ⟨m', hm', hl'⟩ := atName_eq_ok hnext
          exact frame_deleteName hl' fun hne => h ⟨m', hm', hne⟩
      | replace m s =>
          obtain ⟨m', hm', hl'⟩ := atName_eq_ok hnext
          exact frame_replace hl' fun hne => h ⟨m', hm', hne⟩
      | deleteSet m key' strict =>
          obtain ⟨m', hm', hl'⟩ := atName_eq_ok hnext
          exact frame_deleteSet hl' fun hne => h ⟨m', hm', hne⟩
      | deleteRecords m s strict =>
          obtain ⟨m', hm', hl'⟩ := atName_eq_ok hnext
          exact frame_deleteRecords hl' fun hne => h ⟨m', hm', hne⟩
      | deleteData m d strict =>
          obtain ⟨m', hm', hl'⟩ := atName_eq_ok hnext
          exact frame_deleteRecords hl' fun hne => h ⟨m', hm', hne⟩
      | addData m ttl d =>
          obtain ⟨m', hm', hl'⟩ := atName_eq_ok hnext
          exact frame_add hl' fun hne => h ⟨m', hm', hne⟩
      | addRecord r =>
          obtain ⟨m', hm', hl'⟩ := atName_eq_ok hnext
          exact frame_add hl' fun hne => h ⟨m', hm', hne⟩
      | addSet m s =>
          obtain ⟨m', hm', hl'⟩ := atName_eq_ok hnext
          exact frame_add hl' fun hne => h ⟨m', hm', hne⟩

end Ledger

end DnsZone
