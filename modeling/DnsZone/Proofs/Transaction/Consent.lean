import DnsZone.Proofs.Transaction.Invariant

/-!
# What checks make of an edit

Checks have no part in how an edit is planned: it comes to the change that it would come to without
them, and that is put to the check that is set for it, which can do no more than to refuse it. The
check is shown what is stored in the end, not what the caller has given. Only the change that drops
all content is put to no check at all.
-/

namespace DnsZone

/-- The name at which the edit may erase a record set. -/
def Edit.setOwner? : Edit → Option Name
  | .replace n s => if s.isEmpty then some n else none
  | .deleteSet n _ _ => some n
  | .deleteRecords n _ _ => some n
  | .deleteData n _ _ => some n
  | _ => none

/-- What is erased is what the edit is for. -/
def Edit.Allows (e : Edit) (o : Origin) : Change → Prop
  | .eraseSet m _ => ∃ n, e.setOwner? = some n ∧ o.stored n = .ok m
  | .eraseName _ => ∃ n strict, e = .deleteName n strict
  | .clear => e = .deleteAll
  | _ => True

/-- A change, unless the check that it is put to refuses it. -/
def Checks.vet (checks : Checks) : Change → Except ZoneError Change
  | .put n s => Transaction.consented checks.put? (fun check => check n s) (.put n s)
  | .eraseSet n key =>
      Transaction.consented checks.deleteSet? (fun check => check n key) (.eraseSet n key)
  | .eraseName n => Transaction.consented checks.deleteName? (fun check => check n) (.eraseName n)
  | c => .ok c

namespace Transaction

/-! ### Asking a check -/

section

variable {κ : Type} (check? : Option κ) (ask : κ → Except String Unit) {check : κ} {c c' : Change}

/-- A change that goes through was accepted. -/
theorem accepted_of_consented (h : consented check? ask c = .ok c') (hcheck : check? = some check) :
    ask check = .ok () := by
  rw [hcheck] at h
  simp only [consented] at h
  split at h
  · cases h
  · assumption

theorem consented_of_accepted (hcheck : check? = some check) (h : ask check = .ok ()) :
    consented check? ask c = .ok c := by
  simp only [consented, hcheck, h]

/-- A change that is refused is rejected for the reason that the check gives. -/
theorem consented_eq_error (hcheck : check? = some check) {reason : String}
    (h : ask check = .error reason) : consented check? ask c = .error (.rejected reason) := by
  simp only [consented, hcheck, h]

end

variable {ζ τ : Type} [Access τ] [Backend ζ τ] {z : ζ} {t : Transaction τ}

/-- The transaction without its checks. -/
def unchecked (t : Transaction τ) : Transaction τ := { t with checks := {} }

omit [Access τ] in
@[simp] theorem access_unchecked (t : Transaction τ) : t.unchecked.access = t.access := rfl

/-! ### Planning with checks -/

omit [Access τ] [Backend ζ τ] in
theorem planPut_vetted (t : Transaction τ) (n : Name) (s : RecordSet) :
    t.planPut n s = t.unchecked.planPut n s >>= t.checks.vet := by
  rw [planPut_eq]
  rfl

theorem planEraseSet_vetted (z : ζ) (t : Transaction τ) (n : Name) (key : SetKey) (strict : Bool) :
    t.planEraseSet z n key strict = t.unchecked.planEraseSet z n key strict >>= t.checks.vet := by
  rw [planEraseSet_eq, planEraseSet_eq, access_unchecked]
  cases Backend.find? z t.access n key with
  | none => cases strict <;> rfl
  | some s => rfl

/-- What is vetted at a name in stored form is vetted at all names. -/
theorem target_vetted {n : Name} {plan plan' : Name → Except ZoneError Change}
    (h : ∀ m, plan m = plan' m >>= t.checks.vet) :
    (do t.requireWritable; let m ← t.origin.stored n; plan m) =
      (do t.requireWritable; let m ← t.origin.stored n; plan' m) >>= t.checks.vet := by
  simp only [h, bind_assoc]

theorem planAddSet_vetted (n : Name) (s : RecordSet) :
    t.planAddSet z n s = t.unchecked.planAddSet z n s >>= t.checks.vet := by
  refine target_vetted fun m => ?_
  simp only [access_unchecked, planPut_vetted t]
  cases s.isEmpty with
  | true => rfl
  | false =>
      cases Backend.find? z t.access m s.key with
      | none => rfl
      | some old =>
          simp only [Bool.false_eq_true, ↓reduceIte]
          split <;> rfl

theorem planReplace_vetted (n : Name) (s : RecordSet) :
    t.planReplace z n s = t.unchecked.planReplace z n s >>= t.checks.vet := by
  refine target_vetted fun m => ?_
  split
  · exact planEraseSet_vetted z t m s.key false
  · exact planPut_vetted t m s

theorem planDeleteName_vetted (n : Name) (strict : Bool) :
    t.planDeleteName z n strict = t.unchecked.planDeleteName z n strict >>= t.checks.vet := by
  rw [planDeleteName_eq, planDeleteName_eq]
  refine target_vetted fun m => ?_
  rw [access_unchecked]
  cases Backend.contains z t.access m with
  | true => rfl
  | false => cases strict <;> rfl

theorem planDeleteRecords_vetted (n : Name) (s : RecordSet) (strict : Bool) :
    t.planDeleteRecords z n s strict =
      t.unchecked.planDeleteRecords z n s strict >>= t.checks.vet := by
  refine target_vetted fun m => ?_
  simp only [access_unchecked, planPut_vetted t, planEraseSet_vetted z t]
  cases Backend.find? z t.access m s.key with
  | none => cases strict <;> rfl
  | some old =>
      simp only
      repeat' split
      all_goals rfl

theorem planUpdateSerial_vetted (value : UInt32) (relative : Bool) (n? : Option Name) :
    t.planUpdateSerial z value relative n? =
      t.unchecked.planUpdateSerial z value relative n? >>= fun r =>
        (t.checks.vet r.1).map (·, r.2) := by
  have hat : t.planSerialAt z value relative = fun m =>
      t.unchecked.planSerialAt z value relative m >>= fun r =>
        (t.checks.vet r.1).map (·, r.2) := by
    funext m
    simp only [planSerialAt, access_unchecked, planPut_vetted t]
    cases Backend.find? z t.access m .soa with
    | none => rfl
    | some s =>
        simp only
        cases s.first?.bind RecordData.soa? with
        | none => rfl
        | some soa =>
            simp only
            cases updatedSerial soa.serial value relative <;> rfl
  rw [planUpdateSerial_eq, planUpdateSerial_eq, hat]
  simp only [bind_assoc]
  rfl

/-- An edit comes to the change that it would come to without checks, unless that is refused. -/
theorem plan_vetted (z : ζ) (t : Transaction τ) (e : Edit) :
    t.plan z e = t.unchecked.plan z e >>= fun r => (t.checks.vet r.1).map (·, r.2) := by
  have hmap {x y : Except ZoneError Change} (h : x = y >>= t.checks.vet) :
      x.map (·, (none : Option Serial)) =
        y.map (·, none) >>= fun r => (t.checks.vet r.1).map (·, r.2) := by
    rw [h]
    cases y <;> rfl
  cases e with
  | addData n ttl d => exact hmap (planAddSet_vetted n (.single ttl d))
  | addRecord r => exact hmap (planAddSet_vetted r.owner (.single r.ttl r.data))
  | addSet n s => exact hmap (planAddSet_vetted n s)
  | replace n s => exact hmap (planReplace_vetted n s)
  | deleteAll =>
      change t.requireWritable.map _ = t.requireWritable.map _ >>= _
      cases t.requireWritable <;> rfl
  | deleteName n strict => exact hmap (planDeleteName_vetted n strict)
  | deleteSet n key strict =>
      exact hmap (target_vetted fun m => planEraseSet_vetted z t m key strict)
  | deleteRecords n s strict => exact hmap (planDeleteRecords_vetted n s strict)
  | deleteData n d strict => exact hmap (planDeleteRecords_vetted n (.single .zero d) strict)
  | updateSerial value relative n? =>
      rw [plan, plan, planUpdateSerial_vetted]
      cases t.unchecked.planUpdateSerial z value relative n? with
      | error fault => rfl
      | ok r =>
          change Except.map _ ((t.checks.vet r.1).map _) = (t.checks.vet r.1).map _
          cases t.checks.vet r.1 <;> rfl
  | setOrigin origin =>
      change (t.planSetOrigin origin).map _ = (t.planSetOrigin origin).map _ >>= _
      rw [planSetOrigin]
      cases t.requireWritable with
      | error fault => rfl
      | ok _ => cases origin.absolute <;> rfl

theorem vet_eq_ok {checks : Checks} {c c' : Change} (h : checks.vet c = .ok c') : c' = c := by
  cases c with
  | put n s => exact consented_eq_ok checks.put? _ h
  | eraseSet n key => exact consented_eq_ok checks.deleteSet? _ h
  | eraseName n => exact consented_eq_ok checks.deleteName? _ h
  | _ => exact (Except.ok.inj h).symm

/-- What is planned was accepted by the check that it was put to. -/
theorem vet_of_plan {e : Edit} {r : Change × Option Serial} (h : t.plan z e = .ok r) :
    t.checks.vet r.1 = .ok r.1 := by
  rw [plan_vetted] at h
  obtain ⟨r', -, h⟩ := bind_eq_ok_iff.mp h
  obtain ⟨c, hc, rfl⟩ := map_eq_ok_iff.mp h
  have hsame := vet_eq_ok hc
  subst hsame
  exact hc

theorem accepted_of_plan_put {e : Edit} {n : Name} {s : RecordSet} {serial? : Option Serial}
    (h : t.plan z e = .ok (.put n s, serial?)) {check : Name → RecordSet → Except String Unit}
    (hcheck : t.checks.put? = some check) : check n s = .ok () :=
  accepted_of_consented t.checks.put? (fun check => check n s) (vet_of_plan h) hcheck

theorem accepted_of_plan_eraseName {e : Edit} {n : Name} {serial? : Option Serial}
    (h : t.plan z e = .ok (.eraseName n, serial?)) {check : Name → Except String Unit}
    (hcheck : t.checks.deleteName? = some check) : check n = .ok () :=
  accepted_of_consented t.checks.deleteName? (fun check => check n) (vet_of_plan h) hcheck

/-- What an edit comes to without checks is put to the checks. -/
theorem plan_of_unchecked {e : Edit} {r : Change × Option Serial}
    (h : t.unchecked.plan z e = .ok r) : t.plan z e = (t.checks.vet r.1).map (·, r.2) := by
  rw [plan_vetted, h]
  rfl

/-- An edit is refused with its change, and then it has no effect. -/
theorem edit_of_vet_eq_error {e : Edit} {r : Change × Option Serial} {fault : ZoneError}
    (h : t.unchecked.plan z e = .ok r) (hvet : t.checks.vet r.1 = .error fault) :
    t.edit z e = (.error fault, t) := by
  have hplan := plan_of_unchecked h
  rw [hvet] at hplan
  rw [edit, hplan]
  rfl

/-- An edit makes the change that is accepted. -/
theorem edit_of_vet_eq_ok {e : Edit} {r : Change × Option Serial}
    (h : t.unchecked.plan z e = .ok r) (hvet : t.checks.vet r.1 = .ok r.1) :
    t.edit z e = (.ok r.2, t.apply r.1) := by
  have hplan := plan_of_unchecked h
  rw [hvet] at hplan
  rw [edit, hplan]
  rfl

/-! ### Checks stay set -/

omit [Backend ζ τ] in
@[simp] theorem checks_apply (t : Transaction τ) (c : Change) :
    (t.apply c).checks = t.checks := by
  cases c <;> rfl

theorem checks_edit (z : ζ) (t : Transaction τ) (e : Edit) : (t.edit z e).2.checks = t.checks := by
  rw [edit]
  split
  · rfl
  · exact checks_apply ..

theorem checks_load (z : ζ) (t : Transaction τ) (cls : RecordClass) (records : List Record) :
    (t.load z cls records).2.checks = t.checks :=
  load_induction (fun t _ h => (checks_edit z t _).trans h)
    (fun t _ _ h => (checks_edit z t _).trans h) rfl cls records

theorem checks_learnFrom (z : ζ) (t : Transaction τ) (r : Record) :
    (t.learnFrom z r).2.checks = t.checks := by
  rw [learnFrom]
  split
  · exact checks_edit ..
  · rfl

/-! ### Which edits erase -/

omit [Access τ] [Backend ζ τ] in
theorem allows_of_planPut {e : Edit} {n : Name} {s : RecordSet} {c : Change}
    (h : t.planPut n s = .ok c) : e.Allows t.origin c := by
  rw [planPut_eq_ok h]
  trivial

theorem allows_of_planEraseSet {e : Edit} {n m : Name} (he : e.setOwner? = some n)
    (hm : t.origin.stored n = .ok m) {key : SetKey} {strict : Bool} {c : Change}
    (h : t.planEraseSet z m key strict = .ok c) : e.Allows t.origin c := by
  rw [planEraseSet_eq] at h
  split at h
  · split at h
    · cases h
    · cases h
      trivial
  · rw [consented_eq_ok t.checks.deleteSet? _ h]
    exact ⟨n, he, hm⟩

theorem allows_of_planAddSet {e : Edit} {n : Name} {s : RecordSet} {c : Change}
    (h : t.planAddSet z n s = .ok c) : e.Allows t.origin c := by
  obtain ⟨-, m, -, h⟩ := exists_target h
  split at h
  · cases h
    trivial
  · split at h
    · exact allows_of_planPut h
    · split at h
      · cases h
        trivial
      · exact allows_of_planPut h

theorem allows_of_planReplace {n : Name} {s : RecordSet} {c : Change}
    (h : t.planReplace z n s = .ok c) : (Edit.replace n s).Allows t.origin c := by
  obtain ⟨-, m, hm, h⟩ := exists_target h
  split at h
  · rename_i hs
    have he : (Edit.replace n s).setOwner? = some n := if_pos hs
    exact allows_of_planEraseSet he hm h
  · exact allows_of_planPut h

theorem allows_of_planDeleteName {n : Name} {strict : Bool} {c : Change}
    (h : t.planDeleteName z n strict = .ok c) : (Edit.deleteName n strict).Allows t.origin c := by
  rw [planDeleteName_eq] at h
  obtain ⟨-, m, -, h⟩ := exists_target h
  split at h
  · split at h
    · cases h
    · cases h
      trivial
  · rw [consented_eq_ok t.checks.deleteName? _ h]
    exact ⟨n, strict, rfl⟩

theorem allows_of_planDeleteRecords {e : Edit} {n : Name} (he : e.setOwner? = some n)
    {s : RecordSet} {strict : Bool} {c : Change} (h : t.planDeleteRecords z n s strict = .ok c) :
    e.Allows t.origin c := by
  obtain ⟨-, m, hm, h⟩ := exists_target h
  split at h
  · split at h
    · cases h
    · cases h
      trivial
  · split at h
    · cases h
    · split at h
      · exact allows_of_planEraseSet he hm h
      · split at h
        · cases h
          trivial
        · exact allows_of_planPut h

theorem allows_of_plan {e : Edit} {r : Change × Option Serial} (h : t.plan z e = .ok r) :
    e.Allows t.origin r.1 := by
  cases e with
  | addData n ttl d =>
      obtain ⟨c, hc, rfl⟩ := map_eq_ok_iff.mp h
      exact allows_of_planAddSet hc
  | addRecord record =>
      obtain ⟨c, hc, rfl⟩ := map_eq_ok_iff.mp h
      exact allows_of_planAddSet hc
  | addSet n s =>
      obtain ⟨c, hc, rfl⟩ := map_eq_ok_iff.mp h
      exact allows_of_planAddSet hc
  | replace n s =>
      obtain ⟨c, hc, rfl⟩ := map_eq_ok_iff.mp h
      exact allows_of_planReplace hc
  | deleteAll =>
      obtain ⟨_, _, rfl⟩ := map_eq_ok_iff.mp h
      rfl
  | deleteName n strict =>
      obtain ⟨c, hc, rfl⟩ := map_eq_ok_iff.mp h
      exact allows_of_planDeleteName hc
  | deleteSet n key strict =>
      obtain ⟨c, hc, rfl⟩ := map_eq_ok_iff.mp h
      obtain ⟨-, m, hm, hc⟩ := exists_target hc
      exact allows_of_planEraseSet rfl hm hc
  | deleteRecords n s strict =>
      obtain ⟨c, hc, rfl⟩ := map_eq_ok_iff.mp h
      exact allows_of_planDeleteRecords rfl hc
  | deleteData n d strict =>
      obtain ⟨c, hc, rfl⟩ := map_eq_ok_iff.mp h
      exact allows_of_planDeleteRecords rfl hc
  | updateSerial value relative n? =>
      obtain ⟨r', hr', rfl⟩ := map_eq_ok_iff.mp h
      obtain ⟨-, m, ttl, d, -, hput⟩ := exists_planPut_of_planUpdateSerial hr'
      exact allows_of_planPut hput
  | setOrigin origin =>
      obtain ⟨c, hc, rfl⟩ := map_eq_ok_iff.mp h
      obtain ⟨_, _, hc⟩ := bind_eq_ok_iff.mp hc
      split at hc
      · cases hc
      · cases hc
        trivial

end Transaction

end DnsZone
