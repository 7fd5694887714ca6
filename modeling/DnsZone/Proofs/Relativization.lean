import DnsZone.Proofs.Name.Relative
import DnsZone.Proofs.Sample
import DnsZone.Proofs.Translation.Plain
import DnsZone.Proofs.Translation.Versioned
import DnsZone.Proofs.Undisturbed
import DnsZone.ZoneConfig

/-!
# The form in which a zone stores names

Of two zones with the same origin, one may store its names relative to the origin and the other
absolute ones. A name of the former stands for a name of the latter, and every name that a
transaction is given is stored as names of which this is true, as long as there is room for it below
the origin. So nobody who uses transactions can tell which form a zone stores, but for the form of
the names that are listed.
-/

namespace DnsZone

/-! ### Names that stand for others -/

/-- The relative name `n` gives the name `m` with the origin appended. -/
structure Name.StandsFor (n origin m : Name) : Prop where
  relative : n.absolute = false
  derelativize : ∃ a, n.derelativize origin = .ok a ∧ (a == m) = true

/-- The name can be given the origin, if it is relative. -/
def Name.Extends (n origin : Name) : Prop :=
  n.absolute = false → ∃ a, n.derelativize origin = .ok a

/-- What zones that store relative names are to those that store absolute ones. -/
def Translation.relativizing (origin : Name) : Translation where
  given n n' := n = n' ∧ n.Extends origin
  stored n m := n.StandsFor origin m
  named _ _ := False
  origin o o' := o = ⟨some origin, true⟩ ∧ o' = ⟨some origin, false⟩
  data := Eq

/-! ### Calls that make do with the origin -/

def Edit.owners : Edit → List Name
  | .addData n _ _ => [n]
  | .addRecord r => [r.owner]
  | .addSet n _ => [n]
  | .replace n _ => [n]
  | .deleteAll => []
  | .deleteName n _ => [n]
  | .deleteSet n _ _ => [n]
  | .deleteRecords n _ _ => [n]
  | .deleteData n _ _ => [n]
  | .updateSerial _ _ n? => n?.toList
  | .setOrigin _ => []

def Query.owners : Query → List Name
  | .recordSet n _ => [n]
  | .node n => [n]
  | .nameExists n => [n]
  | _ => []

/-- The owner names that a call is given. -/
def Call.owners : Call → List Name
  | .query q => q.owners
  | .edit e => e.owners
  | .load _ records => records.map (·.owner)
  | _ => []

/-- Whether a call sets the origin or a check. -/
def Call.setsUp : Call → Bool
  | .edit (.setOrigin _) => true
  | .checkPut _ => true
  | .checkDeleteSet _ => true
  | .checkDeleteName _ => true
  | _ => false

/-- Neither the origin nor checks are set, and every owner name can be given the origin. -/
def Script.Extends (s : Script) (origin : Name) : Prop :=
  ∀ c ∈ s.calls, c.setsUp = false ∧ ∀ n ∈ c.owners, n.Extends origin

/-! ### What is told -/

/-- Both calls have the same error, or replies in which names stand for others. -/
structure Exchange.StandsFor (origin : Name) (x x' : Exchange) : Prop where
  result : SameResult (Translation.relativizing origin).Replies x.result x'.result
  changed : x.changed = x'.changed

/-- Both scripts were refused with the same error, or started and have exchanges of which those of
the first stand for those of the second. -/
def Transcript.StandsFor (origin : Name) (x x' : Transcript) : Prop :=
  ∃ r r', x = some r ∧ x' = some r' ∧ SameResult (List.Forall₂ (Exchange.StandsFor origin)) r r'

/-! ### Relative names behave as the names that they stand for -/

namespace Translation

variable {origin : Name}

theorem keepsOrder_standsFor (origin : Name) :
    OrderedMap.KeepsOrder Name.compare Name.compare (relativizing origin).stored := by
  intro n m n' m' ⟨hn, a, ha, ham⟩ ⟨hn', a', ha', ham'⟩
  rw [Name.compare_of_derelativize hn hn' ha ha',
    Std.TransCmp.congr_left (Name.compare_eq_iff.mpr ham),
    Std.TransCmp.congr_right (Name.compare_eq_iff.mpr ham')]

/-- A name is refused by both zones or stored in both forms. -/
theorem stores_relativizing {n : Name} (hext : n.Extends origin) :
    (relativizing origin).Outcome (relativizing origin).stored
      (Origin.stored ⟨some origin, true⟩ n) (Origin.stored ⟨some origin, false⟩ n) := by
  cases hn : n.absolute with
  | true =>
      rw [Origin.stored_absolute hn, Origin.stored_absolute hn]
      split
      · rename_i hsub
        exact .ok ⟨Name.absolute_relativize hsub, Name.derelativize_relativize hsub⟩
      · exact .error (.same _)
  | false =>
      obtain ⟨a, ha⟩ := hext hn
      rw [Origin.stored_relative hn, Origin.stored_relative hn, ha]
      exact .ok ⟨hn, a, ha, BEq.rfl⟩

theorem standsFor_empty (origin : Name) : Name.empty.StandsFor origin origin := by
  have hfits : Name.empty.FitsBelow origin := by
    have := origin.fits
    rw [Name.FitsBelow]
    change 0 + wireLength origin.labels + 1 ≤ maxNameLength
    omega
  obtain ⟨a, ha⟩ := (Name.exists_derelativize_iff rfl).mpr hfits
  refine ⟨rfl, a, ha, Name.beq_iff.mpr ⟨(Name.labels_of_derelativize rfl ha).1, ?_⟩⟩
  rw [Name.foldedLabels_of_derelativize rfl ha]
  rfl

theorem lawful_relativizing (origin : Name) : (relativizing origin).Lawful where
  keepsOrder := keepsOrder_standsFor origin
  absolute_eq h := congrArg Name.absolute h.1
  stores ho n n' hn := by
    obtain ⟨rfl, rfl⟩ := ho
    obtain ⟨rfl, hext⟩ := hn
    exact stores_relativizing hext
  apex? ho := by
    obtain ⟨rfl, rfl⟩ := ho
    exact .some (standsFor_empty origin)
  isNone_name? ho := by
    obtain ⟨rfl, rfl⟩ := ho
    rfl
  named_of_given ho hnone := by
    obtain ⟨rfl, rfl⟩ := ho
    cases hnone
  absolute_eq_of_named h := h.elim
  origin_of_named _ _ _ h := h.elim
  learn ho _ _ _ := by
    obtain ⟨rfl, rfl⟩ := ho
    exact ⟨rfl, rfl⟩
  beq_eq h h' := by
    cases h
    cases h'
    rfl
  key_eq h := congrArg RecordData.key h
  soa? {d _} h := by
    cases h
    cases d.soa? with
    | some _ => exact .some rfl
    | none => exact .none
  serial_eq h := by
    cases h
    rfl
  withSerial h _ := by
    cases h
    rfl

/-! ### Calls are taken as they are -/

section

variable {n : Name} {l : List Name}

theorem given_of_mem (h : ∀ n ∈ l, n.Extends origin) (hn : n ∈ l) :
    (relativizing origin).given n n := ⟨rfl, h n hn⟩

theorem sets_self (s : RecordSet) : (relativizing origin).Sets s s :=
  ⟨rfl, rfl, List.forall₂_same.mpr fun _ _ => rfl⟩

theorem queries_self {q : Query} (h : ∀ n ∈ q.owners, n.Extends origin) :
    (relativizing origin).Queries q q := by
  cases q with
  | recordSet n key => exact .recordSet (given_of_mem h List.mem_cons_self) key
  | node n => exact .node (given_of_mem h List.mem_cons_self)
  | nameExists n => exact .nameExists (given_of_mem h List.mem_cons_self)
  | changed => exact .changed
  | sets => exact .sets
  | names => exact .names
  | status => exact .status

theorem edits_self {e : Edit} (hsets : (Call.edit e).setsUp = false)
    (h : ∀ n ∈ e.owners, n.Extends origin) : (relativizing origin).Edits e e := by
  cases e with
  | addData n ttl d => exact .addData (given_of_mem h List.mem_cons_self) ttl rfl
  | addRecord r => exact .addRecord ⟨given_of_mem h List.mem_cons_self, rfl, rfl, rfl⟩
  | addSet n s => exact .addSet (given_of_mem h List.mem_cons_self) (sets_self s)
  | replace n s => exact .replace (given_of_mem h List.mem_cons_self) (sets_self s)
  | deleteAll => exact .deleteAll
  | deleteName n strict => exact .deleteName (given_of_mem h List.mem_cons_self) strict
  | deleteSet n key strict => exact .deleteSet (given_of_mem h List.mem_cons_self) key strict
  | deleteRecords n s strict =>
      exact .deleteRecords (given_of_mem h List.mem_cons_self) (sets_self s) strict
  | deleteData n d strict => exact .deleteData (given_of_mem h List.mem_cons_self) rfl strict
  | updateSerial value relative n? =>
      refine .updateSerial value relative ?_
      cases n? with
      | none => exact .none
      | some n => exact .some (given_of_mem h List.mem_cons_self)
  | setOrigin n => cases hsets

theorem calls_self {c : Call} (hsets : c.setsUp = false) (h : ∀ n ∈ c.owners, n.Extends origin) :
    (relativizing origin).Calls c c := by
  cases c with
  | query q => exact .query (queries_self h)
  | edit e => exact .edit (edits_self hsets h)
  | load cls records =>
      refine .load cls (List.forall₂_same.mpr fun r hr => ?_)
      exact ⟨given_of_mem h (List.mem_map_of_mem hr), rfl, rfl, rfl⟩
  | commit => exact .commit
  | rollback => exact .rollback
  | checkPut check => cases hsets
  | checkDeleteSet check => cases hsets
  | checkDeleteName check => cases hsets

theorem scripts_self {s : Script} (h : s.Extends origin) : (relativizing origin).Scripts s s :=
  ⟨rfl, List.forall₂_same.mpr fun c hc => calls_self (h c hc).1 (h c hc).2⟩

end

/-! ### Errors are the same -/

theorem eq_of_fault {e e' : ZoneError} (h : (relativizing origin).Fault e e') : e = e' := by
  cases h with
  | same e => rfl
  | outOfZone h => rw [h.1]
  | relativeOrigin h => exact h.elim

theorem sameResult_of_outcome {α β : Type} {S S' : α → β → Prop} {x : Except ZoneError α}
    {y : Except ZoneError β} (h : (relativizing origin).Outcome S x y)
    (hS : ∀ a b, S a b → S' a b) : SameResult S' x y := by
  cases h with
  | error hfault =>
      cases eq_of_fault hfault
      exact .error _
  | ok h => exact .ok (hS _ _ h)

theorem standsFor_of_transcripts {x y : Transcript} (hstarted : ∃ r, x = some r)
    (h : (relativizing origin).Transcripts x y) : Transcript.StandsFor origin x y := by
  obtain ⟨r, rfl⟩ := hstarted
  cases h with
  | some h =>
      refine ⟨_, _, rfl, rfl, sameResult_of_outcome h fun _ _ hl => hl.imp fun _ _ hx => ?_⟩
      exact ⟨sameResult_of_outcome hx.result fun _ _ hr => hr, hx.changed⟩

/-- Zones of any kind that correspond tell the same, as long as they are used by scripts that are
run one after another. -/
theorem standsFor_runAll {ζ τ : Type} [Access τ] [Host ζ τ] {Z : ζ → ζ → Prop} {A : τ → τ → Prop}
    (hC : (relativizing origin).CarriedByHost Z A) {I : ζ → Mode → Prop} (hI : Undisturbed I)
    {z z' : ζ} (hz : Z z z') (hidle : I z .ended) {scripts : List Script}
    (hscripts : ∀ s ∈ scripts, s.Extends origin) :
    List.Forall₂ (fun x x' => Transcript.StandsFor origin x.1 x'.1 ∧ Z x.2 x'.2)
      (Script.runAll z scripts) (Script.runAll z' scripts) := by
  have hself : List.Forall₂ (relativizing origin).Scripts scripts scripts :=
    List.forall₂_same.mpr fun s hs => scripts_self (hscripts s hs)
  have hruns := hC.runAll (lawful_relativizing origin) hz hself
  refine ((List.forall₂_and_left _ _).mpr ⟨hI.runAll hidle scripts, hruns⟩).imp ?_
  exact fun _ _ h => ⟨standsFor_of_transcripts h.1 h.2.1, h.2.2⟩

end Translation

/-! ### Zones -/

/-- Two zones with the same origin, of which one stores relative names and the other absolute ones,
tell the same whatever scripts are run on them one after another, as long as their owner names can
be given the origin: the same errors and the same data, with names of the one for names of the
other, in the same order. The policies may be any that decide alike on versions that correspond, as
every built-in policy does; a policy of one's own that looks at names has to look at them in the
form in which the zone stores them. -/
theorem ZoneConfig.stored_form_invisible (config : ZoneConfig) (policy' : Retention) (origin : Name)
    (horigin : config.origin? = some origin)
    (hpolicy : (Translation.relativizing origin).Policies config.policy policy')
    (scripts : List Script) (hscripts : ∀ s ∈ scripts, s.Extends origin) :
    (∀ z z', { config with relativize := true }.buildVersioned = .ok z →
        { config with relativize := false, policy := policy' }.buildVersioned = .ok z' →
        List.Forall₂ (fun x x' => Transcript.StandsFor origin x.1 x'.1 ∧
          x.2.chain.ids = x'.2.chain.ids) (Script.runAll z scripts) (Script.runAll z' scripts)) ∧
      ∀ z z', { config with relativize := true }.buildPlain = .ok z →
        { config with relativize := false, policy := policy' }.buildPlain = .ok z' →
        List.Forall₂ (fun x x' => Transcript.StandsFor origin x.1 x'.1 ∧
          x.2.generation = x'.2.generation) (Script.runAll z scripts)
          (Script.runAll z' scripts) := by
  have hT := Translation.lawful_relativizing origin
  refine ⟨fun z z' hz hz' => ?_, fun z z' hz hz' => ?_⟩
  · obtain ⟨_, _, rfl⟩ := map_eq_ok_iff.mp hz
    obtain ⟨_, _, rfl⟩ := map_eq_ok_iff.mp hz'
    have hzones : (Translation.relativizing origin).VersionedZones
        (.create config.origin? config.cls true config.checksOrigin config.policy)
        (.create config.origin? config.cls false config.checksOrigin policy') := by
      rw [horigin]
      exact ⟨rfl, ⟨rfl, rfl⟩, ⟨.nil, rfl, .empty, rfl⟩, rfl, rfl, hpolicy, rfl⟩
    have hruns := Translation.standsFor_runAll (Translation.carriedByHost_versionedZones hT)
      undisturbed_versionedZone hzones (VersionedZone.usedAlone_create _ _ _ _ _) hscripts
    exact hruns.imp fun _ _ h => ⟨h.1, h.2.chain.ids_eq⟩
  · obtain ⟨_, _, rfl⟩ := map_eq_ok_iff.mp hz
    obtain ⟨_, _, rfl⟩ := map_eq_ok_iff.mp hz'
    have hzones : (Translation.relativizing origin).PlainZones
        (.create config.origin? config.cls true config.checksOrigin)
        (.create config.origin? config.cls false config.checksOrigin) := by
      rw [horigin]
      exact ⟨rfl, ⟨rfl, rfl⟩, .empty, rfl, rfl, rfl⟩
    have hruns := Translation.standsFor_runAll (Translation.carriedByHost_plainZones hT)
      undisturbed_plainZone hzones (fun _ => rfl) hscripts
    exact hruns.imp fun _ _ h => ⟨h.1, h.2.generation⟩

namespace TwoForms

open Sample

/-- A writer that adds two records to one name, given in both forms, and a reader that lists all
names. -/
def scripts : List Script :=
  [⟨.writer false, [.edit (.addData shoutedHost .hour (.txt [])),
    .edit (.addData host .hour (.txt [[0x61]])), .commit]⟩,
   ⟨.reader none, [.query .names, .query (.recordSet host { rtype := .txt })]⟩]

theorem stored_form_invisible_of_fresh :
    config.origin? = some origin ∧ (∀ s ∈ scripts, s.Extends origin) ∧
      List.Forall₂ (fun x x' => Transcript.StandsFor origin x.1 x'.1 ∧
          x.2.chain.ids = x'.2.chain.ids)
        (Script.runAll (VersionedZone.create (some origin) .internet true false .latest) scripts)
        (Script.runAll (VersionedZone.create (some origin) .internet false false .latest)
          scripts) ∧
      List.Forall₂ (fun x x' => Transcript.StandsFor origin x.1 x'.1 ∧
          x.2.generation = x'.2.generation)
        (Script.runAll (PlainZone.create (some origin) .internet true false) scripts)
        (Script.runAll (PlainZone.create (some origin) .internet false false) scripts) := by
  have hpolicy : (Translation.relativizing origin).Policies config.policy .latest :=
    Translation.policies_of_builtin fun _ h => by cases h
  have habsolute : shoutedHost.Extends origin := fun h => by cases h
  have hrelative : host.Extends origin := fun _ => ⟨_, rfl⟩
  have hscripts : ∀ s ∈ scripts, s.Extends origin := by
    simp [scripts, Script.Extends, Call.setsUp, Call.owners, Edit.owners, Query.owners, habsolute,
      hrelative]
  obtain ⟨hversioned, hplain⟩ :=
    config.stored_form_invisible .latest origin rfl hpolicy scripts hscripts
  exact ⟨rfl, hscripts, hversioned _ _ rfl rfl, hplain _ _ rfl rfl⟩

end TwoForms

end DnsZone
