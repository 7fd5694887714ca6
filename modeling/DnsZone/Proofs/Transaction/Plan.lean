import DnsZone.Proofs.Outcome
import DnsZone.Transaction.Ending

/-!
# What a planned edit may change

Planning refuses every edit of a transaction that is not an open writer. For a writer the change it
comes up with fits what the transaction sees: only names and record sets that are there are erased,
and only an absolute name becomes the origin. So whoever applies a planned change need not ask.
-/

namespace DnsZone

/-- A name in stored form, or else the name of what belongs to the origin. -/
def Origin.target (o : Origin) : Option Name → Except ZoneError Name
  | some n => o.stored n
  | none =>
      match o.apex? with
      | none => .error .noOrigin
      | some apex => .ok apex

namespace Transaction

variable {ζ τ : Type} [Access τ]

theorem requireOpen_eq_ok_iff {t : Transaction τ} {u : Unit} :
    t.requireOpen = .ok u ↔ Access.mode t.access ≠ .ended := by
  unfold requireOpen isEnded
  cases Access.mode t.access <;> simp

/-- Only an open writer is writable. -/
theorem requireWritable_eq_ok_iff {t : Transaction τ} {u : Unit} :
    t.requireWritable = .ok u ↔ Access.mode t.access = .writing := by
  unfold requireWritable isEnded isReadOnly
  cases Access.mode t.access <;> simp

/-- What goes on at a name goes on in an open writer. -/
theorem exists_target {t : Transaction τ} {α : Type} {target : Except ZoneError Name}
    {plan : Name → Except ZoneError α} {a : α}
    (h : (t.requireWritable >>= fun _ => target >>= plan) = .ok a) :
    Access.mode t.access = .writing ∧ ∃ m, target = .ok m ∧ plan m = .ok a := by
  obtain ⟨_, hopen, h⟩ := bind_eq_ok_iff.mp h
  exact ⟨requireWritable_eq_ok_iff.mp hopen, bind_eq_ok_iff.mp h⟩

variable [Backend ζ τ]

/-! ### Changes that a check can veto -/

section

variable {κ : Type}

/-- A change, unless the check vetoes it. -/
def consented (check? : Option κ) (ask : κ → Except String Unit) (c : Change) :
    Except ZoneError Change :=
  match check? with
  | none => .ok c
  | some check =>
      match ask check with
      | .error reason => .error (.rejected reason)
      | .ok () => .ok c

/-- Only a check refuses a change. -/
theorem exists_veto (check? : Option κ) (ask : κ → Except String Unit) {c : Change}
    {fault : ZoneError} (h : consented check? ask c = .error fault) :
    ∃ check reason, check? = some check ∧ ask check = .error reason ∧
      fault = .rejected reason := by
  cases check? with
  | none => cases h
  | some check =>
      cases hreason : ask check with
      | error reason =>
          simp only [consented, hreason] at h
          cases h
          exact ⟨check, reason, rfl, hreason, rfl⟩
      | ok _ =>
          simp only [consented, hreason] at h
          cases h

theorem consented_eq_ok (check? : Option κ) (ask : κ → Except String Unit) {c c' : Change}
    (h : consented check? ask c = .ok c') : c' = c := by
  unfold consented at h
  repeat' split at h
  all_goals cases h
  all_goals rfl

end

omit [Access τ] [Backend ζ τ] in
theorem planPut_eq (t : Transaction τ) (n : Name) (s : RecordSet) :
    t.planPut n s = consented t.checks.put? (fun check => check n s) (.put n s) := by
  rw [planPut]
  cases t.checks.put? <;> rfl

theorem planEraseSet_eq (z : ζ) (t : Transaction τ) (n : Name) (key : SetKey) (strict : Bool) :
    t.planEraseSet z n key strict =
      match Backend.find? z t.access n key with
      | none => if strict then .error (.missing .recordSet) else .ok .nothing
      | some _ => consented t.checks.deleteSet? (fun check => check n key) (.eraseSet n key) := by
  rw [planEraseSet]
  cases Backend.find? z t.access n key with
  | none => rfl
  | some s => cases t.checks.deleteSet? <;> rfl

theorem planDeleteName_eq (z : ζ) (t : Transaction τ) (n : Name) (strict : Bool) :
    t.planDeleteName z n strict = (do
      t.requireWritable
      let m ← t.origin.stored n
      if !Backend.contains z t.access m then
        if strict then .error (.missing .name) else .ok .nothing
      else consented t.checks.deleteName? (fun check => check m) (.eraseName m)) := by
  rw [planDeleteName]
  cases t.checks.deleteName? <;> rfl

/-! ### What is planned -/

/-- A change that only erases what the transaction sees. -/
def Fits (z : ζ) (t : Transaction τ) : Change → Prop
  | .eraseName n => Backend.contains z t.access n = true
  | .eraseSet n key => (Backend.find? z t.access n key).isSome = true
  | .setOrigin origin => origin.absolute = true
  | _ => True

variable {z : ζ} {t : Transaction τ}

omit [Access τ] [Backend ζ τ] in
theorem planPut_eq_ok {n : Name} {s : RecordSet} {c : Change} (h : t.planPut n s = .ok c) :
    c = .put n s := by
  rw [planPut_eq] at h
  exact consented_eq_ok t.checks.put? (fun check => check n s) h

theorem fits_of_planPut {n : Name} {s : RecordSet} {c : Change} (h : t.planPut n s = .ok c) :
    Fits z t c := by
  rw [planPut_eq_ok h]
  trivial

theorem fits_of_planEraseSet {n : Name} {key : SetKey} {strict : Bool} {c : Change}
    (h : t.planEraseSet z n key strict = .ok c) : Fits z t c := by
  rw [planEraseSet_eq] at h
  split at h
  · split at h
    · cases h
    · cases h
      trivial
  · rename_i s hfind
    rw [consented_eq_ok t.checks.deleteSet? (fun check => check n key) h]
    exact Option.isSome_of_eq_some hfind

theorem planAddSet_eq_ok {n : Name} {s : RecordSet} {c : Change}
    (h : t.planAddSet z n s = .ok c) : Access.mode t.access = .writing ∧ Fits z t c := by
  obtain ⟨hopen, m, -, h⟩ := exists_target h
  refine ⟨hopen, ?_⟩
  split at h
  · cases h
    trivial
  · split at h
    · exact fits_of_planPut h
    · split at h
      · cases h
        trivial
      · exact fits_of_planPut h

theorem planReplace_eq_ok {n : Name} {s : RecordSet} {c : Change}
    (h : t.planReplace z n s = .ok c) : Access.mode t.access = .writing ∧ Fits z t c := by
  obtain ⟨hopen, m, -, h⟩ := exists_target h
  refine ⟨hopen, ?_⟩
  split at h
  · exact fits_of_planEraseSet h
  · exact fits_of_planPut h

theorem planDeleteName_eq_ok {n : Name} {strict : Bool} {c : Change}
    (h : t.planDeleteName z n strict = .ok c) :
    Access.mode t.access = .writing ∧ Fits z t c := by
  rw [planDeleteName_eq] at h
  obtain ⟨hopen, m, -, h⟩ := exists_target h
  refine ⟨hopen, ?_⟩
  split at h
  · split at h
    · cases h
    · cases h
      trivial
  · rename_i hm
    rw [consented_eq_ok t.checks.deleteName? (fun check => check m) h]
    simpa [Fits] using hm

theorem planDeleteSet_eq_ok {n : Name} {key : SetKey} {strict : Bool} {c : Change}
    (h : t.planDeleteSet z n key strict = .ok c) :
    Access.mode t.access = .writing ∧ Fits z t c := by
  obtain ⟨hopen, m, -, h⟩ := exists_target h
  exact ⟨hopen, fits_of_planEraseSet h⟩

theorem planDeleteRecords_eq_ok {n : Name} {s : RecordSet} {strict : Bool} {c : Change}
    (h : t.planDeleteRecords z n s strict = .ok c) :
    Access.mode t.access = .writing ∧ Fits z t c := by
  obtain ⟨hopen, m, -, h⟩ := exists_target h
  refine ⟨hopen, ?_⟩
  split at h
  · split at h
    · cases h
    · cases h
      trivial
  · split at h
    · cases h
    · split at h
      · exact fits_of_planEraseSet h
      · split at h
        · cases h
          trivial
        · exact fits_of_planPut h

/-- Updating the serial number in the start of authority at a name in stored form. -/
def planSerialAt (z : ζ) (t : Transaction τ) (value : UInt32) (relative : Bool) (n : Name) :
    Except ZoneError (Change × Serial) :=
  match Backend.find? z t.access n .soa with
  | none => .error .noSoa
  | some s =>
      match s.first?.bind RecordData.soa? with
      | none => .error .noSoa
      | some soa => do
          let serial ← updatedSerial soa.serial value relative
          let change ← t.planPut n (.single s.ttl (.soa (soa.withSerial serial)))
          return (change, serial)

/-- A serial number is updated at one name, however that is given. -/
theorem planUpdateSerial_eq (z : ζ) (t : Transaction τ) (value : UInt32) (relative : Bool)
    (n? : Option Name) :
    t.planUpdateSerial z value relative n? =
      t.requireWritable >>= fun _ => t.origin.target n? >>= t.planSerialAt z value relative := by
  rw [planUpdateSerial, Origin.target.eq_def]
  cases n? with
  | some n => rfl
  | none => cases t.origin.apex? <;> rfl

/-- What an update of a serial number finds, and what it stores. -/
theorem exists_soa_of_planUpdateSerial {value : UInt32} {relative : Bool} {n? : Option Name}
    {r : Change × Serial} (h : t.planUpdateSerial z value relative n? = .ok r) :
    Access.mode t.access = .writing ∧
      ∃ m s soa, t.origin.target n? = .ok m ∧ Backend.find? z t.access m .soa = some s ∧
        s.first?.bind RecordData.soa? = some soa ∧
        updatedSerial soa.serial value relative = .ok r.2 ∧
        t.planPut m (.single s.ttl (.soa (soa.withSerial r.2))) = .ok r.1 := by
  rw [planUpdateSerial_eq] at h
  obtain ⟨hopen, m, hm, h⟩ := exists_target h
  refine ⟨hopen, ?_⟩
  rw [planSerialAt] at h
  split at h
  · cases h
  · rename_i s hs
    split at h
    · cases h
    · rename_i soa hsoa
      obtain ⟨serial, hserial, h⟩ := bind_eq_ok_iff.mp h
      obtain ⟨c, hput, h⟩ := bind_eq_ok_iff.mp h
      cases h
      exact ⟨m, s, soa, hm, hs, hsoa, hserial, hput⟩

/-- An update of a serial number stores one record. -/
theorem exists_planPut_of_planUpdateSerial {value : UInt32} {relative : Bool} {n? : Option Name}
    {r : Change × Serial} (h : t.planUpdateSerial z value relative n? = .ok r) :
    Access.mode t.access = .writing ∧
      ∃ m ttl d, t.origin.target n? = .ok m ∧ t.planPut m (.single ttl d) = .ok r.1 := by
  obtain ⟨hopen, m, s, soa, hm, -, -, -, hput⟩ := exists_soa_of_planUpdateSerial h
  exact ⟨hopen, m, s.ttl, .soa (soa.withSerial r.2), hm, hput⟩

theorem planUpdateSerial_eq_ok {value : UInt32} {relative : Bool} {n? : Option Name}
    {r : Change × Serial} (h : t.planUpdateSerial z value relative n? = .ok r) :
    Access.mode t.access = .writing ∧ Fits z t r.1 := by
  obtain ⟨hopen, m, ttl, d, -, hput⟩ := exists_planPut_of_planUpdateSerial h
  exact ⟨hopen, fits_of_planPut hput⟩

theorem planSetOrigin_eq_ok {origin : Name} {c : Change} (h : t.planSetOrigin origin = .ok c) :
    Access.mode t.access = .writing ∧ Fits z t c := by
  obtain ⟨_, hopen, h⟩ := bind_eq_ok_iff.mp h
  refine ⟨requireWritable_eq_ok_iff.mp hopen, ?_⟩
  split at h
  · cases h
  · rename_i habsolute
    cases h
    change origin.absolute = true
    simpa using habsolute

/-- A planned edit is one of an open writer, and its change fits what the writer sees. -/
theorem plan_eq_ok {e : Edit} {r : Change × Option Serial} (h : t.plan z e = .ok r) :
    Access.mode t.access = .writing ∧ Fits z t r.1 := by
  cases e with
  | addData n ttl d =>
      obtain ⟨c, hc, rfl⟩ := map_eq_ok_iff.mp h
      exact planAddSet_eq_ok hc
  | addRecord record =>
      obtain ⟨c, hc, rfl⟩ := map_eq_ok_iff.mp h
      exact planAddSet_eq_ok hc
  | addSet n s =>
      obtain ⟨c, hc, rfl⟩ := map_eq_ok_iff.mp h
      exact planAddSet_eq_ok hc
  | replace n s =>
      obtain ⟨c, hc, rfl⟩ := map_eq_ok_iff.mp h
      exact planReplace_eq_ok hc
  | deleteAll =>
      obtain ⟨_, hopen, rfl⟩ := map_eq_ok_iff.mp h
      exact ⟨requireWritable_eq_ok_iff.mp hopen, trivial⟩
  | deleteName n strict =>
      obtain ⟨c, hc, rfl⟩ := map_eq_ok_iff.mp h
      exact planDeleteName_eq_ok hc
  | deleteSet n key strict =>
      obtain ⟨c, hc, rfl⟩ := map_eq_ok_iff.mp h
      exact planDeleteSet_eq_ok hc
  | deleteRecords n s strict =>
      obtain ⟨c, hc, rfl⟩ := map_eq_ok_iff.mp h
      exact planDeleteRecords_eq_ok hc
  | deleteData n d strict =>
      obtain ⟨c, hc, rfl⟩ := map_eq_ok_iff.mp h
      exact planDeleteRecords_eq_ok hc
  | updateSerial value relative n? =>
      obtain ⟨r', hr', rfl⟩ := map_eq_ok_iff.mp h
      exact planUpdateSerial_eq_ok hr'
  | setOrigin origin =>
      obtain ⟨c, hc, rfl⟩ := map_eq_ok_iff.mp h
      exact planSetOrigin_eq_ok hc

/-- Whatever the edit, a transaction that is not an open writer refuses it for the same reason. -/
theorem plan_of_refused {fault : ZoneError} (h : t.requireWritable = .error fault) (e : Edit) :
    t.plan z e = .error fault := by
  cases e <;>
    simp only [plan, planAddSet, planReplace, planDeleteName, planDeleteSet, planDeleteRecords,
      planUpdateSerial, planSetOrigin, h] <;> rfl

/-! ### Loading records -/

/-- What is done next, unless the step before was refused. -/
def andThen {α β : Type} (x : Except ZoneError α × Transaction τ)
    (next : α → Transaction τ → Except ZoneError β × Transaction τ) :
    Except ZoneError β × Transaction τ :=
  match x with
  | (.error fault, t) => (.error fault, t)
  | (.ok a, t) => next a t

/-- Sets the origin if it is not known and the record tells it. -/
def learnFrom (z : ζ) (t : Transaction τ) (r : Record) :
    Except ZoneError (Option Serial) × Transaction τ :=
  if t.origin.name?.isNone && r.data.soa?.isSome && r.owner.absolute then
    t.edit z (.setOrigin r.owner)
  else (.ok none, t)

theorem load_cons (z : ζ) (cls : RecordClass) (t : Transaction τ) (r : Record)
    (rest : List Record) :
    t.load z cls (r :: rest) =
      if r.cls ≠ cls then (.error (.classMismatch cls r.cls), t)
      else
        andThen (t.learnFrom z r) fun _ t => andThen (t.edit z (.addRecord r)) fun _ t =>
          andThen (t.load z cls rest) fun count t => (.ok (count + 1), t) := by
  have hlearn : (if t.origin.name?.isNone && r.data.soa?.isSome && r.owner.absolute then
      t.edit z (.setOrigin r.owner) else (.ok none, t)) = t.learnFrom z r := rfl
  rw [load]
  simp only [hlearn]
  split
  · rfl
  · obtain ⟨_ | _, t₁⟩ := t.learnFrom z r
    · rfl
    · simp only [andThen]
      obtain ⟨_ | _, t₂⟩ := t₁.edit z (.addRecord r)
      · rfl
      · simp only
        obtain ⟨_ | _, t₃⟩ := t₂.load z cls rest <;> rfl

omit [Access τ] [Backend ζ τ] in
theorem andThen_eq_ok {α β : Type} {x : Except ZoneError α × Transaction τ} {b : β}
    {t : Transaction τ} {next : α → Transaction τ → Except ZoneError β × Transaction τ}
    (h : andThen x next = (.ok b, t)) : ∃ a t', x = (.ok a, t') ∧ next a t' = (.ok b, t) := by
  obtain ⟨result, t'⟩ := x
  cases result with
  | error fault => cases h
  | ok a => exact ⟨a, t', rfl, h⟩

omit [Access τ] [Backend ζ τ] in
theorem andThen_induction {α β : Type} {P : Transaction τ → Prop}
    {x : Except ZoneError α × Transaction τ} (h : P x.2)
    {next : α → Transaction τ → Except ZoneError β × Transaction τ}
    (hnext : ∀ a t, P t → P (next a t).2) : P (andThen x next).2 := by
  obtain ⟨result, t⟩ := x
  cases result with
  | error fault => exact h
  | ok a => exact hnext a t h

/-- Records are loaded on what was left of those before them. -/
theorem load_append {cls : RecordClass} {first : List Record} {count : Nat} {t' : Transaction τ}
    (h : t.load z cls first = (.ok count, t')) (rest : List Record) :
    t.load z cls (first ++ rest) =
      andThen (t'.load z cls rest) fun more t => (.ok (more + count), t) := by
  induction first generalizing t count with
  | nil =>
      cases h
      rw [List.nil_append]
      generalize t'.load z cls rest = x
      obtain ⟨_ | _, _⟩ := x <;> rfl
  | cons r first ih =>
      rw [load_cons] at h
      rw [List.cons_append, load_cons]
      split at h
      · cases h
      · rename_i hcls
        obtain ⟨_, t₁, hlearn, h⟩ := andThen_eq_ok h
        obtain ⟨_, t₂, hadd, h⟩ := andThen_eq_ok h
        obtain ⟨_, t₃, hfirst, h⟩ := andThen_eq_ok h
        cases h
        rw [if_neg hcls, hlearn]
        simp only [andThen, hadd, ih hfirst]
        generalize t'.load z cls rest = x
        obtain ⟨_ | _, _⟩ := x <;> rfl

/-- A load ends with the record that cannot be added. -/
theorem load_of_refused {cls : RecordClass} {first rest : List Record} {count : Nat} {r : Record}
    {t₁ t₂ : Transaction τ} {learned? : Option Serial} {fault : ZoneError}
    (hfirst : t.load z cls first = (.ok count, t₁)) (hcls : r.cls = cls)
    (hlearn : t₁.learnFrom z r = (.ok learned?, t₂))
    (hadd : t₂.edit z (.addRecord r) = (.error fault, t₂)) :
    t.load z cls (first ++ r :: rest) = (.error fault, t₂) := by
  rw [load_append hfirst, load_cons, if_neg (fun hne => hne hcls), hlearn]
  simp only [andThen, hadd]

/-- What is kept when a record is added, and when an origin is set that was not known, is kept when
records are loaded. -/
theorem load_induction {P : Transaction τ → Prop}
    (hadd : ∀ t r, P t → P (t.edit z (.addRecord r)).2)
    (hlearn : ∀ t origin, t.origin.name? = none → P t → P (t.edit z (.setOrigin origin)).2)
    (h : P t) (cls : RecordClass) (records : List Record) : P (t.load z cls records).2 := by
  induction records generalizing t with
  | nil => exact h
  | cons r rest ih =>
      rw [load_cons]
      split
      · exact h
      · have hlearned : P (t.learnFrom z r).2 := by
          rw [learnFrom]
          split
          · rename_i hlearns
            simp only [Bool.and_eq_true, Option.isNone_iff_eq_none] at hlearns
            exact hlearn t r.owner hlearns.1.1 h
          · exact h
        refine andThen_induction hlearned fun _ t₁ h₁ => ?_
        refine andThen_induction (hadd t₁ r h₁) fun _ t₂ h₂ => ?_
        exact andThen_induction (ih h₂) fun _ _ h₃ => h₃

end Transaction

end DnsZone
