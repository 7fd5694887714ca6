import DnsZone.Proofs.Name
import DnsZone.Proofs.Transaction.Exchange

/-!
# Owner names and the origin

A zone stores owner names in one form: relative ones, or absolute ones at or below its origin. Every
name that an origin yields has this form, and a writer that does not change an origin that it knows
goes by the origin that the zone has or will have. So the names that it sees all have the form that
the zone asks for.
-/

namespace DnsZone

namespace Origin

/-- The origin, where it is known, is an absolute name. -/
def Absolute (o : Origin) : Prop := ∀ origin, o.name? = some origin → origin.absolute = true

/-- The form in which a zone with this origin stores a name. -/
def Holds (o : Origin) (n : Name) : Prop :=
  if o.relativize then n.absolute = false
  else n.absolute = true ∧ ∃ origin, o.name? = some origin ∧ n.isSubdomain origin = true

/-- The origin with `learned?` as its name if it had none. -/
def learn (o : Origin) (learned? : Option Name) : Origin := ⟨o.name?.or learned?, o.relativize⟩

variable {o : Origin} {n m : Name}

theorem Holds.congr (h : o.Holds n) (hm : (m == n) = true) : o.Holds m := by
  have habsolute : m.absolute = n.absolute := (Name.beq_iff.mp hm).1
  simp only [Holds, habsolute, Name.isSubdomain_congr hm BEq.rfl]
  exact h

theorem Holds.learn (h : o.Holds n) (learned? : Option Name) : (o.learn learned?).Holds n := by
  rw [Holds] at h ⊢
  change if o.relativize = true then _ else _
  split at h
  · rwa [if_pos ‹_›]
  · obtain ⟨habsolute, origin, horigin, hsub⟩ := h
    rw [if_neg ‹_›]
    refine ⟨habsolute, origin, ?_, hsub⟩
    rw [Origin.learn, horigin]
    rfl

/-- The names of both origins are equal or not known, and names are stored in the same form. -/
structure Alike (o o' : Origin) : Prop where
  relativize : o.relativize = o'.relativize
  name? : Option.Rel (fun a b => (a == b) = true) o.name? o'.name?

theorem alike_learn_none (o : Origin) : o.Alike (o.learn none) := by
  refine ⟨rfl, ?_⟩
  change Option.Rel _ o.name? (o.name?.or none)
  cases o.name? with
  | none => exact .none
  | some origin => exact .some BEq.rfl

theorem Alike.symm {o o' : Origin} (h : o.Alike o') : o'.Alike o := by
  refine ⟨h.relativize.symm, ?_⟩
  have hname := h.name?
  revert hname
  generalize o.name? = name?
  generalize o'.name? = name'?
  intro hname
  cases hname with
  | some hbeq => exact .some (BEq.symm hbeq)
  | none => exact .none

theorem Alike.name?_eq_some {o o' : Origin} {origin : Name} (h : o.Alike o')
    (horigin : o.name? = some origin) :
    ∃ origin', o'.name? = some origin' ∧ (origin == origin') = true := by
  have hname := h.name?
  rw [horigin] at hname
  revert hname
  generalize o'.name? = name'?
  intro hname
  cases hname with
  | some hbeq => exact ⟨_, rfl, hbeq⟩

/-- An origin that is learned leaves an apex that is known. -/
theorem apex?_learn {apex : Name} (h : o.apex? = some apex) (learned? : Option Name) :
    (o.learn learned?).apex? = some apex := by
  rw [apex?] at h ⊢
  change (if o.relativize = true then _ else _) = _
  split at h
  · rwa [if_pos ‹_›]
  · rw [if_neg ‹_›, learn, h, Option.some_or]

theorem Alike.apex?_eq_some {o o' : Origin} {apex : Name} (h : o.Alike o')
    (hapex : o.apex? = some apex) :
    ∃ apex', o'.apex? = some apex' ∧ (apex == apex') = true := by
  rw [apex?, h.relativize] at hapex
  rw [apex?]
  split at hapex
  · rw [if_pos ‹_›]
    exact ⟨apex, hapex, BEq.rfl⟩
  · rw [if_neg ‹_›]
    exact h.name?_eq_some hapex

theorem Absolute.alike (h : o.Absolute) {o' : Origin} (hlike : o.Alike o') : o'.Absolute := by
  intro origin' horigin'
  obtain ⟨origin, horigin, hbeq⟩ := hlike.symm.name?_eq_some horigin'
  exact (Name.beq_iff.mp hbeq).1.trans (h origin horigin)

theorem Holds.alike (h : o.Holds n) {o' : Origin} (hlike : o.Alike o') : o'.Holds n := by
  rw [Holds, hlike.relativize] at h
  rw [Holds]
  split at h
  · rwa [if_pos ‹_›]
  · obtain ⟨habsolute, origin, horigin, hsub⟩ := h
    obtain ⟨origin', horigin', hbeq⟩ := hlike.name?_eq_some horigin
    rw [if_neg ‹_›]
    exact ⟨habsolute, origin', horigin', (Name.isSubdomain_congr BEq.rfl hbeq).symm.trans hsub⟩

/-- An absolute name that is stored is at or below the origin, and a relative one is stored as it is
or below the origin. -/
theorem stored_eq_ok (h : o.stored n = .ok m) :
    (n.absolute = true ∧ ∃ origin, o.name? = some origin ∧ n.isSubdomain origin = true ∧
        m = if o.relativize then n.relativize origin else n) ∨
      (n.absolute = false ∧ o.relativize = true ∧ m = n) ∨
      (n.absolute = false ∧ o.relativize = false ∧
        ∃ origin, o.name? = some origin ∧ n.derelativize origin = .ok m) := by
  rw [stored] at h
  split at h
  · rename_i hn
    refine .inl ⟨hn, ?_⟩
    split at h
    · cases h
    · rename_i origin horigin
      split at h
      · cases h
      · rename_i hsub
        refine ⟨origin, horigin, by simpa using hsub, ?_⟩
        split at h
        · cases h
          rw [if_pos ‹_›]
        · cases h
          rw [if_neg ‹_›]
  · rename_i hn
    have hn := Bool.eq_false_iff.mpr hn
    refine .inr ?_
    split at h
    · rename_i hrelativize
      cases h
      exact .inl ⟨hn, hrelativize, rfl⟩
    · rename_i hrelativize
      split at h
      · cases h
      · rename_i origin horigin
        refine .inr ⟨hn, Bool.eq_false_iff.mpr hrelativize, origin, horigin, ?_⟩
        cases hjoin : n.derelativize origin with
        | error fault =>
            rw [hjoin] at h
            cases h
        | ok joined =>
            rw [hjoin] at h
            cases h
            rfl

theorem holds_of_stored (h : o.Absolute) (hm : o.stored n = .ok m) : o.Holds m := by
  rw [Holds]
  rcases stored_eq_ok hm with ⟨hn, origin, horigin, hsub, rfl⟩ | ⟨hn, hrelativize, rfl⟩ |
    ⟨hn, hrelativize, origin, horigin, hjoin⟩
  · cases o.relativize with
    | true => exact Name.absolute_relativize hsub
    | false => exact ⟨hn, origin, horigin, hsub⟩
  · rw [if_pos hrelativize]
    exact hn
  · have hsub := Name.isSubdomain_of_derelativize hn hjoin
    rw [hrelativize, if_neg Bool.false_ne_true, Name.absolute_of_isSubdomain hsub]
    exact ⟨h origin horigin, origin, horigin, hsub⟩

theorem holds_of_yields (h : o.Absolute) (hn : o.Yields n) : o.Holds n := by
  rcases hn with ⟨m, hm⟩ | happex
  · exact holds_of_stored h hm
  · rw [apex?] at happex
    rw [Holds]
    split at happex
    · cases happex
      rw [if_pos ‹_›]
      rfl
    · rw [if_neg ‹_›]
      exact ⟨h n happex, n, happex, n.isSubdomain_self⟩

/-- In a zone that stores relative names, an absolute name is made relative or refused. -/
theorem stored_of_absolute {origin : Name} (hrelativize : o.relativize = true)
    (horigin : o.name? = some origin) (hn : n.absolute = true) :
    o.stored n =
      if n.isSubdomain origin then .ok (n.relativize origin) else .error (.outOfZone n) := by
  rw [stored, if_pos hn, horigin, hrelativize]
  cases hsub : n.isSubdomain origin <;> simp [hsub]

end Origin

namespace Transaction

variable {ζ τ : Type} [Access τ] [Backend ζ τ]

/-! ### The names that a writer sees -/

/-- Of what writers stage, only storing a set adds a name to those that they see. -/
structure StagesNames (z : ζ) (good : τ → Prop) : Prop where
  find? {a : τ} (h : good a) {n : Name} {key : SetKey}
    (hfound : (Backend.find? z a n key).isSome = true) : Backend.contains z a n = true
  put {a : τ} (h : good a) (hmode : Access.mode a = .writing) (n : Name) (s : RecordSet) :
    good (Access.put n s a) ∧
      ∀ m, Backend.contains z (Access.put n s a) m = (m == n || Backend.contains z a m)
  eraseName {a : τ} (h : good a) (hmode : Access.mode a = .writing) (n : Name) :
    good (Access.eraseName n a) ∧
      ∀ m, Backend.contains z (Access.eraseName n a) m = true → Backend.contains z a m = true
  eraseSet {a : τ} (h : good a) (hmode : Access.mode a = .writing) (n : Name) (key : SetKey) :
    good (Access.eraseSet n key a) ∧
      ∀ m, Backend.contains z (Access.eraseSet n key a) m = true → Backend.contains z a m = true
  clear {a : τ} (h : good a) (hmode : Access.mode a = .writing) :
    good (Access.clear a) ∧ ∀ m, Backend.contains z (Access.clear a) m = false

/-- What writers stage acts on the content that they see, as long as their state is a good one. -/
structure StagesContent (z : ζ) (good : τ → Prop) (content : τ → Content) : Prop where
  find? {a : τ} (h : good a) (n : Name) (key : SetKey) :
    Backend.find? z a n key = (content a).set? n key
  contains (a : τ) (n : Name) : Backend.contains z a n = (content a n).isSome
  put {a : τ} (h : good a) (hmode : Access.mode a = .writing) (n : Name) (s : RecordSet) :
    good (Access.put n s a) ∧ ∃ tag, content (Access.put n s a) = (content a).put tag n s
  eraseName {a : τ} (h : good a) (hmode : Access.mode a = .writing) (n : Name) :
    good (Access.eraseName n a) ∧ content (Access.eraseName n a) = (content a).eraseName n
  eraseSet {a : τ} (h : good a) (hmode : Access.mode a = .writing) (n : Name) (key : SetKey) :
    good (Access.eraseSet n key a) ∧ (content (Access.eraseSet n key a) = content a ∨
      ∃ tag, content (Access.eraseSet n key a) = (content a).eraseSet tag n key)
  clear {a : τ} (h : good a) (hmode : Access.mode a = .writing) :
    good (Access.clear a) ∧ content (Access.clear a) = .empty

theorem StagesContent.stagesNames {z : ζ} {good : τ → Prop} {content : τ → Content}
    (laws : StagesContent z good content) : StagesNames z good where
  find? h n key hfound := by
    rw [laws.find? h] at hfound
    rw [laws.contains]
    exact Content.isSome_of_set? hfound
  put h hmode n s := by
    obtain ⟨hgood, tag, hcontent⟩ := laws.put h hmode n s
    refine ⟨hgood, fun m => ?_⟩
    rw [laws.contains, laws.contains, hcontent, Content.isSome_put]
  eraseName h hmode n := by
    obtain ⟨hgood, hcontent⟩ := laws.eraseName h hmode n
    refine ⟨hgood, fun m hm => ?_⟩
    rw [laws.contains, hcontent] at hm
    rw [laws.contains]
    exact Content.isSome_of_eraseName hm
  eraseSet h hmode n key := by
    obtain ⟨hgood, hcontent⟩ := laws.eraseSet h hmode n key
    refine ⟨hgood, fun m hm => ?_⟩
    rw [laws.contains] at hm ⊢
    rcases hcontent with hsame | ⟨tag, herased⟩
    · rwa [hsame] at hm
    · rw [herased] at hm
      exact Content.isSome_of_eraseSet hm
  clear h hmode := by
    obtain ⟨hgood, hcontent⟩ := laws.clear h hmode
    refine ⟨hgood, fun m => ?_⟩
    rw [laws.contains, hcontent]
    rfl

omit [Access τ] in
/-- The edit does not change an origin that the transaction knows, but for its spelling. -/
def KeepsOrigin (t : Transaction τ) (e : Edit) : Prop :=
  ∀ origin known, e = .setOrigin origin → t.origin.name? = some known → (origin == known) = true

omit [Access τ] in
theorem keepsOrigin_of_ne (t : Transaction τ) (e : Edit)
    (h : ∀ origin, e ≠ .setOrigin origin) : t.KeepsOrigin e :=
  fun origin _ he => absurd he (h origin)

/-- The transaction goes by the origin that a commit leaves to a zone with origin `o`. -/
def FollowsOrigin (o : Origin) (t : Transaction τ) : Prop := t.origin.Alike (o.learn t.learned?)

section

variable {o : Origin} {t : Transaction τ}

omit [Backend ζ τ] in
/-- Setting the origin of a transaction that knows none, or setting the one that it knows. -/
theorem FollowsOrigin.setOrigin (h : t.FollowsOrigin o) {origin : Name}
    (hkeeps : ∀ known, t.origin.name? = some known → (origin == known) = true) :
    (t.apply (.setOrigin origin)).FollowsOrigin o := by
  refine ⟨h.relativize, ?_⟩
  change Option.Rel _ (some origin) (o.name?.or (some origin))
  cases ho : o.name? with
  | none => exact .some BEq.rfl
  | some known =>
      -- a zone that has an origin keeps it, and the transaction has known it
      have hname : (o.learn t.learned?).name? = some known := by
        rw [Origin.learn, ho, Option.some_or]
      obtain ⟨known', hknown', hbeq⟩ := h.symm.name?_eq_some hname
      exact .some (BEq.trans (hkeeps known' hknown') (BEq.symm hbeq))

/-- Whatever is asked of a writer, it goes by the origin of its zone, unless it changes that. -/
theorem keeps_followsOrigin (z : ζ) (o : Origin) :
    Keeps KeepsOrigin z fun t : Transaction τ => t.FollowsOrigin o where
  adds _ _ _ _ he := by cases he
  learns t origin hnone origin' known _ hknown := by
    rw [hnone] at hknown
    cases hknown
  apply t e r hkeeps hplan h := by
    obtain ⟨c, serial?⟩ := r
    cases c with
    | setOrigin origin =>
        cases eq_setOrigin_of_plan hplan
        exact h.setOrigin fun known => hkeeps origin known rfl
    | _ => exact h
  check _ _ h := h

end

/-- The transaction goes by the origin that a commit leaves to a zone with origin `o`, and all names
that it sees have the form that this asks for. -/
structure InZone (z : ζ) (good : τ → Prop) (o : Origin) (t : Transaction τ) : Prop where
  good : good t.access
  origin : t.origin.Alike (o.learn t.learned?)
  absolute : t.origin.Absolute
  within : ∀ n, Backend.contains z t.access n = true → t.origin.Holds n

variable {z : ζ} {good : τ → Prop} {o : Origin} {t : Transaction τ}

/-- Setting the origin of a transaction that knows none, or setting the one that it knows. -/
theorem InZone.setOrigin (h : InZone z good o t) {origin : Name}
    (habsolute : origin.absolute = true)
    (hkeeps : ∀ known, t.origin.name? = some known → (origin == known) = true) :
    InZone z good o (t.apply (.setOrigin origin)) := by
  have hlearn : (t.origin.learn (some origin)).Alike (t.apply (.setOrigin origin)).origin := by
    refine ⟨rfl, ?_⟩
    change Option.Rel _ (t.origin.name?.or (some origin)) (some origin)
    cases hname : t.origin.name? with
    | none => exact .some BEq.rfl
    | some known => exact .some (BEq.symm (hkeeps known hname))
  refine ⟨h.good, FollowsOrigin.setOrigin h.origin hkeeps, fun name hname => ?_, fun n hn => ?_⟩
  · cases hname
    exact habsolute
  · exact ((h.within n hn).learn _).alike hlearn

theorem InZone.apply (laws : StagesNames z good) (h : InZone z good o t) {e : Edit}
    (hkeeps : t.KeepsOrigin e) {z' : ζ} {r : Change × Option Serial}
    (hplan : t.plan z' e = .ok r) : InZone z good o (t.apply r.1) := by
  obtain ⟨hmode, hfits⟩ := plan_eq_ok hplan
  have hsound := sound_of_plan hplan
  obtain ⟨c, serial?⟩ := r
  cases c with
  | nothing => exact h
  | put n s =>
      obtain ⟨hgood, hsees⟩ := laws.put h.good hmode n s
      refine ⟨hgood, h.origin, h.absolute, fun m hm => ?_⟩
      have hm : (m == n || Backend.contains z t.access m) = true := (hsees m).symm.trans hm
      rcases (Bool.or_eq_true _ _).mp hm with hm | hm
      · exact (Origin.holds_of_yields h.absolute hsound.2).congr hm
      · exact h.within m hm
  | eraseName n =>
      obtain ⟨hgood, hsees⟩ := laws.eraseName h.good hmode n
      exact ⟨hgood, h.origin, h.absolute, fun m hm => h.within m (hsees m hm)⟩
  | eraseSet n key =>
      obtain ⟨hgood, hsees⟩ := laws.eraseSet h.good hmode n key
      exact ⟨hgood, h.origin, h.absolute, fun m hm => h.within m (hsees m hm)⟩
  | clear =>
      obtain ⟨hgood, hsees⟩ := laws.clear h.good hmode
      refine ⟨hgood, h.origin, h.absolute, fun m hm => ?_⟩
      cases (hsees m).symm.trans hm
  | setOrigin origin =>
      cases eq_setOrigin_of_plan hplan
      exact h.setOrigin hfits fun known => hkeeps origin known rfl

/-- Whatever is asked of a writer, it goes by the origin of its zone and sees only names that have
the form for it, unless it changes the origin. -/
theorem keeps_inZone (laws : StagesNames z good) (z' : ζ) (o : Origin) :
    Keeps KeepsOrigin z' (InZone z good o) where
  adds _ _ _ _ he := by cases he
  learns t origin hnone origin' known _ hknown := by
    rw [hnone] at hknown
    cases hknown
  apply _ _ _ hkeeps hplan h := h.apply laws hkeeps hplan
  check _ _ h := ⟨h.good, h.origin, h.absolute, h.within⟩

end Transaction

/-! ### Where sets are stored -/

/-- The record set that an edit adds or puts in place, after the name that it is given for. -/
def Edit.offered? : Edit → Option (Name × RecordSet)
  | .addData n ttl d => some (n, .single ttl d)
  | .addRecord r => some (r.owner, .single r.ttl r.data)
  | .addSet n s => some (n, s)
  | .replace n s => some (n, s)
  | _ => none

namespace Transaction

variable {ζ τ : Type} [Access τ] [Backend ζ τ]

/-- What is added or replaced at an absolute name is stored at the name relative to `origin`, and
refused if the name is not at or below `origin`. -/
structure StoresRelativeTo (z : ζ) (t : Transaction τ) (origin : Name) : Prop where
  refused : ∀ e n s, e.offered? = some (n, s) → n.absolute = true →
    n.isSubdomain origin = false → t.edit z e = (.error (.outOfZone n), t)
  stored : ∀ e n s, e.offered? = some (n, s) → n.absolute = true → n.isSubdomain origin = true →
    ∃ c : Change, c.IsAt (n.relativize origin) ∧ (t.edit z e).2 = t.apply c
  found : ∀ e n s serial?, e.offered? = some (n, s) → n.absolute = true → s.isEmpty = false →
    (t.edit z e).1 = .ok serial? →
      Backend.contains z (t.edit z e).2.access (n.relativize origin) = true

variable {z : ζ} {good : τ → Prop} {o : Origin} {t : Transaction τ}

theorem plan_of_offered {e : Edit} {n : Name} {s : RecordSet} (h : e.offered? = some (n, s)) :
    t.plan z e = (t.planAddSet z n s).map (·, none) ∨
      t.plan z e = (t.planReplace z n s).map (·, none) := by
  cases e with
  | addData m ttl d =>
      cases h
      exact .inl rfl
  | addRecord r =>
      cases h
      exact .inl rfl
  | addSet m s' =>
      cases h
      exact .inl rfl
  | replace m s' =>
      cases h
      exact .inr rfl
  | _ => cases h

theorem targets_of_offered {e : Edit} {n m : Name} {s : RecordSet}
    (h : e.offered? = some (n, s)) (hm : e.Targets o m) : o.stored n = .ok m := by
  cases e <;> cases h <;> exact hm

/-- A set that is added or put in place is stored, unless all of it is there. -/
theorem plan_of_offered_eq_ok {e : Edit} {n : Name} {s : RecordSet}
    (h : e.offered? = some (n, s)) (hs : s.isEmpty = false) {r : Change × Option Serial}
    (hplan : t.plan z e = .ok r) :
    ∃ m, t.origin.stored n = .ok m ∧ ((∃ s', r.1 = .put m s') ∨
      r.1 = .nothing ∧ (Backend.find? z t.access m s.key).isSome = true) := by
  rcases plan_of_offered (z := z) (t := t) h with heq | heq
  · rw [heq] at hplan
    obtain ⟨c, hc, rfl⟩ := map_eq_ok_iff.mp hplan
    obtain ⟨-, m, hm, hc⟩ := exists_target hc
    refine ⟨m, hm, ?_⟩
    rw [hs, if_neg Bool.false_ne_true] at hc
    split at hc
    · exact .inl ⟨_, planPut_eq_ok hc⟩
    · rename_i old hold
      split at hc
      · cases hc
        exact .inr ⟨rfl, Option.isSome_of_eq_some hold⟩
      · exact .inl ⟨_, planPut_eq_ok hc⟩
  · rw [heq] at hplan
    obtain ⟨c, hc, rfl⟩ := map_eq_ok_iff.mp hplan
    obtain ⟨-, m, hm, hc⟩ := exists_target hc
    refine ⟨m, hm, ?_⟩
    rw [hs, if_neg Bool.false_ne_true] at hc
    exact .inl ⟨_, planPut_eq_ok hc⟩

theorem edit_of_plan {e : Edit} {r : Change × Option Serial} (h : t.plan z e = .ok r) :
    t.edit z e = (.ok r.2, t.apply r.1) := by
  rw [edit, h]

theorem plan_of_offered_eq_error {e : Edit} {n : Name} {s : RecordSet} {fault : ZoneError}
    (h : e.offered? = some (n, s)) (hmode : Access.mode t.access = .writing)
    (hn : t.origin.stored n = .error fault) : t.plan z e = .error fault := by
  have hopen : t.requireWritable = .ok () := requireWritable_eq_ok_iff.mpr hmode
  rcases plan_of_offered (z := z) (t := t) h with heq | heq
  · rw [heq, planAddSet, hopen, hn]
    rfl
  · rw [heq, planReplace, hopen, hn]
    rfl

/-- An open writer of a zone that stores names relative to its origin does so for what it is
given. -/
theorem InZone.storesRelativeTo (laws : StagesNames z good) (h : InZone z good o t)
    (hmode : Access.mode t.access = .writing) {origin : Name} (hrelativize : o.relativize = true)
    (horigin : o.name? = some origin) : t.StoresRelativeTo z origin := by
  have hrelativize : t.origin.relativize = true := h.origin.relativize.trans hrelativize
  have hname : (o.learn t.learned?).name? = some origin := by
    rw [Origin.learn, horigin, Option.some_or]
  -- the transaction may spell the name of the origin in another way
  obtain ⟨known, hknown, hbeq⟩ := h.origin.symm.name?_eq_some hname
  have hstored {n : Name} (hn : n.absolute = true) : t.origin.stored n =
      if n.isSubdomain origin then .ok (n.relativize origin) else .error (.outOfZone n) := by
    rw [Origin.stored_of_absolute hrelativize hknown hn, Name.isSubdomain_congr BEq.rfl hbeq,
      n.relativize_congr hbeq]
  refine ⟨fun e n s he hn hsub => ?_, fun e n s he hn hsub => ?_,
    fun e n s serial? he hn hs hok => ?_⟩
  · have hfault : t.origin.stored n = .error (.outOfZone n) := by
      rw [hstored hn, hsub, if_neg Bool.false_ne_true]
    rw [edit, plan_of_offered_eq_error he hmode hfault]
  · cases hplan : t.plan z e with
    | error fault =>
        rw [edit, hplan]
        exact ⟨.nothing, trivial, rfl⟩
    | ok r =>
        rw [edit_of_plan hplan]
        refine ⟨r.1, ?_, rfl⟩
        rcases plan_cases hplan with ⟨m, htargets, hat⟩ | ⟨rfl, _⟩ | ⟨_, rfl, _⟩
        · have hm := targets_of_offered he htargets
          rw [hstored hn, if_pos hsub] at hm
          cases hm
          exact hat
        · cases he
        · cases he
  · cases hplan : t.plan z e with
    | error fault =>
        rw [edit, hplan] at hok
        cases hok
    | ok r =>
        obtain ⟨m, hm, hchange⟩ := plan_of_offered_eq_ok he hs hplan
        rw [hstored hn] at hm
        split at hm <;> cases hm
        rw [edit_of_plan hplan]
        rcases hchange with ⟨s', hput⟩ | ⟨hnothing, hfound⟩
        · have hsees := (laws.put h.good hmode (n.relativize origin) s').2 (n.relativize origin)
          rw [BEq.rfl, Bool.true_or] at hsees
          rw [hput]
          exact hsees
        · rw [hnothing]
          exact laws.find? h.good hfound

end Transaction

end DnsZone
