import DnsZone.Proofs.Ledger.Basic
import DnsZone.Proofs.Transaction.Bisimulation
import DnsZone.Proofs.Transaction.Edited

/-!
# Writers keep a ledger

Whatever a writer stages its changes in, it keeps a ledger if each primitive change acts on the
record sets that it finds: storing a set replaces the one with the same key, and erasing takes sets
out. That is asked only of changes that are planned, so a stored set holds records and what is
erased is there. Then every edit is answered as the ledger answers it, and after it the writer finds
exactly the record sets of the ledger.
-/

namespace DnsZone

namespace Transaction

variable {ζ τ : Type} [Access τ] [Backend ζ τ]

/-- What writers stage acts on the record sets that they find, as long as their state is a good
one. -/
structure StagesSets (z : ζ) (good : τ → Prop) : Prop where
  writing {a : τ} (h : good a) : Access.mode a = .writing
  key_eq {a : τ} (h : good a) {n : Name} {key : SetKey} {s : RecordSet}
    (hs : Backend.find? z a n key = some s) : s.key = key
  filled {a : τ} (h : good a) {n : Name} {key : SetKey} {s : RecordSet}
    (hs : Backend.find? z a n key = some s) : s.isEmpty = false
  contains_iff {a : τ} (h : good a) (n : Name) :
    Backend.contains z a n = true ↔ ∃ key, (Backend.find? z a n key).isSome = true
  put {a : τ} (h : good a) (n : Name) {s : RecordSet} (hs : s.isEmpty = false) :
    good (Access.put n s a) ∧ ∀ m key, Backend.find? z (Access.put n s a) m key =
      if (m == n) = true ∧ key = s.key then some s else Backend.find? z a m key
  eraseName {a : τ} (h : good a) {n : Name} (hfound : Backend.contains z a n = true) :
    good (Access.eraseName n a) ∧ ∀ m key, Backend.find? z (Access.eraseName n a) m key =
      if m == n then none else Backend.find? z a m key
  eraseSet {a : τ} (h : good a) {n : Name} {key : SetKey}
    (hfound : (Backend.find? z a n key).isSome = true) :
    good (Access.eraseSet n key a) ∧ ∀ m key', Backend.find? z (Access.eraseSet n key a) m key' =
      if (m == n) = true ∧ key' = key then none else Backend.find? z a m key'
  clear {a : τ} (h : good a) :
    good (Access.clear a) ∧ ∀ n key, Backend.find? z (Access.clear a) n key = none

end Transaction

namespace Ledger

variable {ζ τ : Type} [Access τ] [Backend ζ τ]

/-- The writer goes by the origin and the checks of the ledger and finds its record sets. -/
structure AccountsFor (z : ζ) (good : τ → Prop) (l : Ledger) (t : Transaction τ) : Prop where
  good : good t.access
  origin : t.origin = l.origin
  checks : t.checks = l.checks
  find?_eq : ∀ n key, Backend.find? z t.access n key = l.table.set? n key

/-- The writer plans what the ledger makes of an edit, or both refuse it for the same reason. -/
abbrev Follows (z : ζ) (good : τ → Prop) (t : Transaction τ) (x : Except ZoneError Change)
    (y : Except ZoneError Ledger) : Prop :=
  SameResult (fun c l => AccountsFor z good l (t.apply c)) x y

/-- The result of an edit: the change and what the ledger becomes, and the new serial number. -/
abbrev Answers (z : ζ) (good : τ → Prop) (t : Transaction τ)
    (x : Except ZoneError (Change × Option Serial))
    (y : Except ZoneError (Ledger × Option Serial)) : Prop :=
  SameResult (fun r r' => AccountsFor z good r'.1 (t.apply r.1) ∧ r.2 = r'.2) x y

/-- The writer reckons with words that wrap around, the ledger with numbers. -/
theorem updatedSerial_eq (serial : Serial) (value : UInt32) (relative : Bool) :
    Transaction.updatedSerial serial value relative =
      if relative = true ∧ UInt32.size / 2 ≤ value.toNat then .error (.invalidSerial value)
      else .ok (nextSerial serial value relative) := by
  have hskip (next : UInt32) :
      (if next = 0 then ⟨1⟩ else ⟨next⟩ : Serial) = ⟨.ofNat (max 1 next.toNat)⟩ := by
    split
    · rename_i hzero
      rw [hzero]
      rfl
    · rename_i hzero
      rw [← UInt32.toNat_inj, UInt32.toNat_zero] at hzero
      rw [Nat.max_eq_right (by omega), UInt32.ofNat_toNat]
  cases relative with
  | false => exact congrArg Except.ok (hskip value)
  | true =>
      have hgreat : value > Serial.maxIncrement ↔ UInt32.size / 2 ≤ value.toNat := by
        rw [gt_iff_lt, UInt32.lt_iff_toNat_lt]
        exact Nat.lt_iff_add_one_le
      have hsum : (serial.val + value).toNat =
          (serial.val.toNat + value.toNat) % UInt32.size := UInt32.toNat_add ..
      rw [Transaction.updatedSerial, Serial.add?]
      by_cases hvalue : UInt32.size / 2 ≤ value.toNat
      · simp only [hgreat, hvalue, ↓reduceIte]
        rfl
      · simp only [hgreat, hvalue, ↓reduceIte]
        rw [nextSerial, if_pos rfl, ← hsum, ← hskip]
        rfl

namespace AccountsFor

variable {z : ζ} {good : τ → Prop} {l : Ledger} {t : Transaction τ}

theorem writable (laws : Transaction.StagesSets z good) (h : AccountsFor z good l t) :
    t.requireWritable = .ok () :=
  Transaction.requireWritable_eq_ok_iff.mpr (laws.writing h.good)

theorem key_of_set? (laws : Transaction.StagesSets z good) (h : AccountsFor z good l t) {n : Name}
    {key : SetKey} {s : RecordSet} (hs : l.table.set? n key = some s) : s.key = key := by
  rw [← h.find?_eq] at hs
  exact laws.key_eq h.good hs

theorem isEmpty_of_set? (laws : Transaction.StagesSets z good) (h : AccountsFor z good l t)
    {n : Name} {key : SetKey} {s : RecordSet} (hs : l.table.set? n key = some s) :
    s.isEmpty = false := by
  rw [← h.find?_eq] at hs
  exact laws.filled h.good hs

theorem contains_eq (laws : Transaction.StagesSets z good) (h : AccountsFor z good l t)
    (n : Name) : Backend.contains z t.access n = l.table.hasName n := by
  rw [Bool.eq_iff_iff, laws.contains_iff h.good, SetTable.hasName_iff]
  simp only [h.find?_eq]

/-- What a check of the ledger refuses, the writer refuses; otherwise it goes on. -/
theorem allowed {c : Change} {l' : Ledger} {x : Except String Unit}
    (h : AccountsFor z good l' (t.apply c)) :
    Follows z good t (match x with
      | .error reason => .error (.rejected reason)
      | .ok () => .ok c) ((x.mapError ZoneError.rejected).map fun _ => l') := by
  cases x with
  | error reason => exact .error _
  | ok _ => exact .ok h

variable (laws : Transaction.StagesSets z good)
include laws

/-! ### Changes -/

theorem apply_put (h : AccountsFor z good l t) (n : Name) {key : SetKey} {s : RecordSet}
    (hs : s.isEmpty = false) (hkey : s.key = key) :
    AccountsFor z good { l with table := l.table.put n key s } (t.apply (.put n s)) := by
  obtain ⟨hgood, hfind⟩ := laws.put h.good n hs
  refine ⟨hgood, h.origin, h.checks, fun m key' => ?_⟩
  rw [SetTable.set?_put, ← h.find?_eq, ← hkey]
  exact hfind m key'

theorem apply_eraseSet (h : AccountsFor z good l t) {n : Name} {key : SetKey}
    (hfound : (l.table.set? n key).isSome = true) :
    AccountsFor z good { l with table := l.table.eraseSet n key } (t.apply (.eraseSet n key)) := by
  rw [← h.find?_eq] at hfound
  obtain ⟨hgood, hfind⟩ := laws.eraseSet h.good hfound
  refine ⟨hgood, h.origin, h.checks, fun m key' => ?_⟩
  rw [SetTable.set?_eraseSet, ← h.find?_eq]
  exact hfind m key'

theorem apply_eraseName (h : AccountsFor z good l t) {n : Name}
    (hfound : l.table.hasName n = true) :
    AccountsFor z good { l with table := l.table.eraseName n } (t.apply (.eraseName n)) := by
  rw [← h.contains_eq laws] at hfound
  obtain ⟨hgood, hfind⟩ := laws.eraseName h.good hfound
  refine ⟨hgood, h.origin, h.checks, fun m key => ?_⟩
  rw [SetTable.set?_eraseName, ← h.find?_eq]
  exact hfind m key

theorem apply_clear (h : AccountsFor z good l t) :
    AccountsFor z good { l with table := .empty } (t.apply .clear) := by
  obtain ⟨hgood, hfind⟩ := laws.clear h.good
  exact ⟨hgood, h.origin, h.checks, hfind⟩

omit laws in
theorem apply_setOrigin (h : AccountsFor z good l t) (origin : Name) :
    AccountsFor z good { l with origin := { l.origin with name? := some origin } }
      (t.apply (.setOrigin origin)) where
  good := h.good
  origin := congrArg (fun o : Origin => { o with name? := some origin }) h.origin
  checks := h.checks
  find?_eq := h.find?_eq

/-! ### Edits at a name in stored form -/

theorem put (h : AccountsFor z good l t) (n : Name) {key : SetKey} {s : RecordSet}
    (hs : s.isEmpty = false) (hkey : s.key = key) :
    Follows z good t (t.planPut n s) (l.put n key s) := by
  rw [Transaction.planPut, Ledger.put, Checks.allowPut, h.checks]
  have happly := h.apply_put laws n hs hkey
  cases l.checks.put? with
  | none => exact .ok happly
  | some check => exact allowed happly

/-- A record set that is there is taken out, however strict the writer is to be. -/
theorem erase (h : AccountsFor z good l t) {n : Name} {key : SetKey} {s : RecordSet}
    (hs : l.table.set? n key = some s) (strict : Bool) :
    Follows z good t (t.planEraseSet z n key strict) (l.erase n key) := by
  have happly := h.apply_eraseSet laws (Option.isSome_of_eq_some hs)
  rw [Transaction.planEraseSet, Ledger.erase, h.find?_eq, hs, Checks.allowDeleteSet, h.checks]
  cases l.checks.deleteSet? with
  | none => exact .ok happly
  | some check => exact allowed happly

theorem deleteSet (h : AccountsFor z good l t) (n : Name) (key : SetKey) (strict : Bool) :
    Follows z good t (t.planEraseSet z n key strict) (l.deleteSet n key strict) := by
  rw [Ledger.deleteSet]
  cases hset : l.table.set? n key with
  | none =>
      rw [Transaction.planEraseSet, h.find?_eq, hset]
      cases strict with
      | true => exact .error _
      | false => exact .ok h
  | some s => exact h.erase laws hset strict

theorem deleteName (h : AccountsFor z good l t) (n : Name) (strict : Bool) :
    Follows z good t
      (if !Backend.contains z t.access n then
        if strict then .error (.missing .name) else .ok .nothing
      else
        match t.checks.deleteName? with
        | none => .ok (.eraseName n)
        | some check =>
            match check n with
            | .error reason => .error (.rejected reason)
            | .ok () => .ok (.eraseName n))
      (l.deleteName n strict) := by
  rw [Ledger.deleteName, h.contains_eq laws, Checks.allowDeleteName, h.checks]
  cases hname : l.table.hasName n with
  | false =>
      cases strict with
      | true => exact .error _
      | false => exact .ok h
  | true =>
      have happly := h.apply_eraseName laws hname
      cases l.checks.deleteName? with
      | none => exact .ok happly
      | some check => exact allowed happly

theorem add (h : AccountsFor z good l t) (n : Name) (s : RecordSet) :
    Follows z good t
      (if s.isEmpty then .ok .nothing
      else
        match Backend.find? z t.access n s.key with
        | none => t.planPut n s
        | some old =>
            if old.containsAll s && old.ttl.secs ≤ s.ttl.secs then .ok .nothing
            else t.planPut n (old.union s))
      (l.add n s) := by
  rw [Ledger.add, h.find?_eq, RecordSet.isEmpty]
  by_cases hs : s.data.isEmpty = true
  · simp only [hs, ↓reduceIte]
    exact .ok h
  · have hs := Bool.eq_false_iff.mpr hs
    simp only [hs, Bool.false_eq_true, ↓reduceIte]
    cases hset : l.table.set? n s.key with
    | none => exact h.put laws n hs rfl
    | some old =>
        -- the ledger compares the merged set with the old one, the writer does not build it
        have hold := h.isEmpty_of_set? laws hset
        have hkey : old.key = s.key := h.key_of_set? laws hset
        simp only [RecordSet.merge_same_iff, RecordSet.union_eq_merge hold]
        split
        · exact .ok h
        · exact h.put laws n (RecordSet.isEmpty_merge hold s) hkey

theorem replace (h : AccountsFor z good l t) (n : Name) (s : RecordSet) :
    Follows z good t (if s.isEmpty then t.planEraseSet z n s.key false else t.planPut n s)
      (l.replace n s) := by
  rw [Ledger.replace, RecordSet.isEmpty]
  split
  · exact h.deleteSet laws n s.key false
  · rename_i hs
    exact h.put laws n (Bool.eq_false_iff.mpr hs) rfl

theorem deleteRecords (h : AccountsFor z good l t) (n : Name) (s : RecordSet) (strict : Bool) :
    Follows z good t
      (match Backend.find? z t.access n s.key with
      | none => if strict then .error (.missing .records) else .ok .nothing
      | some old =>
          if strict && !old.containsAll s then .error (.missing .records)
          else if (old.difference s).isEmpty then t.planEraseSet z n s.key false
          else if (old.difference s).size = old.size then .ok .nothing
          else t.planPut n (old.difference s))
      (l.deleteRecords n s strict) := by
  rw [h.find?_eq]
  cases hset : l.table.set? n s.key with
  | none =>
      rw [Ledger.deleteRecords, hset]
      cases strict with
      | true => exact .error _
      | false => exact .ok h
  | some old =>
      have hkey : old.key = s.key := h.key_of_set? laws hset
      simp only [Ledger.deleteRecords_of_some hset]
      split
      · exact .error _
      · by_cases hsize : (old.difference s).size = old.size
        · -- a set that is stored holds records, so some are left
          simp only [RecordSet.difference_eq_self hsize, h.isEmpty_of_set? laws hset,
            Bool.false_eq_true, ↓reduceIte]
          exact .ok h
        · simp only [hsize, ↓reduceIte]
          split
          · exact h.erase laws hset false
          · rename_i hleft
            rw [← hkey]
            exact h.put laws n (Bool.eq_false_iff.mpr hleft) rfl

/-! ### Edits -/

/-- What is done alike at names in stored form is done alike at all names. -/
theorem atName (h : AccountsFor z good l t) (n : Name) {plan : Name → Except ZoneError Change}
    {f : Name → Ledger → Except ZoneError Ledger}
    (hf : ∀ m, Follows z good t (plan m) (f m l)) :
    Answers z good t
      ((t.requireWritable >>= fun _ => t.origin.stored n >>= plan).map (·, none))
      (l.atName n f) := by
  rw [h.writable laws, Ledger.atName, ← h.origin]
  cases t.origin.stored n with
  | error fault => exact .error fault
  | ok m => exact (hf m).map fun _ _ hc => ⟨hc, rfl⟩

theorem updateSerial (h : AccountsFor z good l t) (value : UInt32) (relative : Bool) (n : Name) :
    SameResult (fun r r' => AccountsFor z good r'.1 (t.apply r.1) ∧ r.2 = r'.2)
      (t.planSerialAt z value relative n) (l.updateSerial value relative n) := by
  rw [Transaction.planSerialAt, Ledger.updateSerial, h.find?_eq]
  cases l.table.set? n .soa with
  | none => exact .error _
  | some s =>
      obtain ⟨key, ttl, data⟩ := s
      cases data with
      | nil => exact .error _
      | cons d data =>
          cases d with
          | soa soa =>
              have hput (serial : Serial) := h.put laws n
                (RecordSet.isEmpty_single ttl (.soa (soa.withSerial serial))) rfl
              simp only [RecordSet.first?, List.head?_cons, Option.bind_some, RecordData.soa?,
                updatedSerial_eq]
              split
              · exact .error _
              · exact (hput (nextSerial soa.serial value relative)).bind fun _ _ hc => .ok ⟨hc, rfl⟩
          | _ => exact .error _

theorem plan (h : AccountsFor z good l t) (e : Edit) :
    Answers z good t (t.plan z e) (l.next e) := by
  cases e with
  | addData n ttl d => exact h.atName laws n fun m => h.add laws m (.single ttl d)
  | addRecord r => exact h.atName laws r.owner fun m => h.add laws m (.single r.ttl r.data)
  | addSet n s => exact h.atName laws n fun m => h.add laws m s
  | replace n s => exact h.atName laws n fun m => h.replace laws m s
  | deleteAll =>
      rw [Transaction.plan, h.writable laws]
      exact .ok ⟨h.apply_clear laws, rfl⟩
  | deleteName n strict => exact h.atName laws n fun m => h.deleteName laws m strict
  | deleteSet n key strict => exact h.atName laws n fun m => h.deleteSet laws m key strict
  | deleteRecords n s strict => exact h.atName laws n fun m => h.deleteRecords laws m s strict
  | deleteData n d strict =>
      exact h.atName laws n fun m => h.deleteRecords laws m (.single .zero d) strict
  | updateSerial value relative n? =>
      rw [Transaction.plan, Transaction.planUpdateSerial_eq, h.writable laws, Ledger.next,
        ← h.origin]
      cases t.origin.target n? with
      | error fault => exact .error fault
      | ok m =>
          exact (h.updateSerial laws value relative m).map fun _ _ hr =>
            ⟨hr.1, congrArg some hr.2⟩
  | setOrigin origin =>
      rw [Transaction.plan, Transaction.planSetOrigin, h.writable laws, Ledger.next,
        Ledger.setOrigin]
      cases origin.absolute with
      | false => exact .error _
      | true => exact .ok ⟨h.apply_setOrigin origin, rfl⟩

/-- Writer and ledger give the same result for every edit and go on alike. -/
theorem edit (h : AccountsFor z good l t) (e : Edit) :
    (t.edit z e).1 = (l.edit e).1 ∧ AccountsFor z good (l.edit e).2 (t.edit z e).2 := by
  have hplan := h.plan laws e
  rw [Transaction.edit, Ledger.edit]
  revert hplan
  generalize t.plan z e = x
  generalize l.next e = y
  intro hplan
  cases hplan with
  | error fault => exact ⟨rfl, h⟩
  | ok hr => exact ⟨congrArg Except.ok hr.2, hr.1⟩

theorem editAll (h : AccountsFor z good l t) (edits : List Edit) :
    (t.editAll z edits).1 = (l.editAll edits).1 ∧
      AccountsFor z good (l.editAll edits).2 (t.editAll z edits).2 := by
  induction edits generalizing l t with
  | nil => exact ⟨rfl, h⟩
  | cons e rest ih =>
      obtain ⟨hresult, hnext⟩ := h.edit laws e
      obtain ⟨hresults, hlast⟩ := ih hnext
      exact ⟨congrArg₂ List.cons hresult hresults, hlast⟩

end AccountsFor

end Ledger

end DnsZone
