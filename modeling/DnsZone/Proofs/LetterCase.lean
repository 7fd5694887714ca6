import DnsZone.Proofs.Name.Relative
import DnsZone.Proofs.RecordSet.Distinct
import DnsZone.Proofs.Sample
import DnsZone.Proofs.Translation.Interplay
import DnsZone.Proofs.Translation.Plain
import DnsZone.Proofs.Translation.Versioned
import DnsZone.ZoneConfig

/-!
# The case of letters in names

Names that are spelled in the same letters are equal, whatever the case of these. A zone keeps every
name as it was spelled, in owner names as in record data and in its origin, and still nothing that
it does depends on the spelling: whoever spells names in another way is told the same.
-/

namespace DnsZone

namespace Name

variable {n n' origin origin' : Name}

/-- What is left of equal names below equal origins is equal. -/
theorem relativize_beq (hn : (n == n') = true) (ho : (origin == origin') = true)
    (h : n.isSubdomain origin = true) :
    (n.relativize origin == n'.relativize origin') = true := by
  have h' : n'.isSubdomain origin' = true := by rwa [← isSubdomain_congr hn ho]
  refine beq_iff.mpr ⟨(absolute_relativize h).trans (absolute_relativize h').symm, ?_⟩
  have hlabels := foldedLabels_relativize h
  rw [(beq_iff.mp hn).2, ← foldedLabels_relativize h', (beq_iff.mp ho).2] at hlabels
  exact List.append_cancel_right hlabels

theorem fitsBelow_congr (hn : (n == n') = true) (ho : (origin == origin') = true) :
    n.FitsBelow origin ↔ n'.FitsBelow origin' := by
  have hlength {a b : Name} (h : (a == b) = true) : wireLength a.labels = wireLength b.labels := by
    rw [← wireLength_lower a.labels, ← wireLength_lower b.labels]
    exact congrArg wireLength (beq_iff.mp h).2
  rw [FitsBelow, FitsBelow, hlength hn, hlength ho]

/-- Below equal origins there is room for two equal names, which stand for equal ones, or for
neither. -/
theorem derelativize_beq (hn : (n == n') = true) (ho : (origin == origin') = true) :
    SameResult (fun m m' => (m == m') = true) (n.derelativize origin)
      (n'.derelativize origin') := by
  have habsolute := (beq_iff.mp hn).1
  cases hrelative : n.absolute with
  | true =>
      rw [derelativize_of_absolute hrelative, derelativize_of_absolute (habsolute ▸ hrelative)]
      exact .ok hn
  | false =>
      have hrelative' : n'.absolute = false := habsolute ▸ hrelative
      by_cases hfits : n.FitsBelow origin
      · obtain ⟨m, hm⟩ := (exists_derelativize_iff hrelative).mpr hfits
        obtain ⟨m', hm'⟩ :=
          (exists_derelativize_iff hrelative').mpr ((fitsBelow_congr hn ho).mp hfits)
        rw [hm, hm']
        refine .ok (beq_iff.mpr ⟨?_, ?_⟩)
        · rw [(labels_of_derelativize hrelative hm).1, (labels_of_derelativize hrelative' hm').1]
          exact (beq_iff.mp ho).1
        · rw [foldedLabels_of_derelativize hrelative hm,
            foldedLabels_of_derelativize hrelative' hm', (beq_iff.mp hn).2, (beq_iff.mp ho).2]
      · rw [derelativize_of_not_fits hrelative hfits,
          derelativize_of_not_fits hrelative' ((fitsBelow_congr hn ho).not.mp hfits)]
        exact .error _

end Name

/-! ### Names and data in another spelling -/

namespace Translation

/-- Names and data that are equal, in whatever case their letters are. -/
def spelling : Translation where
  given n n' := (n == n') = true
  stored n n' := (n == n') = true
  named n n' := (n == n') = true
  origin := Origin.Alike
  data d d' := (d == d') = true

theorem keepsOrder_spelling : OrderedMap.KeepsOrder Name.compare Name.compare spelling.stored := by
  intro n n' m m' hn hm
  rw [Std.TransCmp.congr_left (Name.compare_eq_iff.mpr hn),
    Std.TransCmp.congr_right (Name.compare_eq_iff.mpr hm)]

/-- Equal names are stored as equal names, or refused for the same reason. -/
theorem stores_spelling {o o' : Origin} (h : o.Alike o') {n n' : Name} (hn : (n == n') = true) :
    spelling.Outcome spelling.stored (o.stored n) (o'.stored n') := by
  obtain ⟨name?, relativize⟩ := o
  obtain ⟨name'?, _⟩ := o'
  obtain ⟨rfl, hname⟩ := h
  have habsolute := (Name.beq_iff.mp hn).1
  cases hname with
  | none =>
      rw [Origin.stored, Origin.stored, habsolute]
      split
      · exact .error (.same _)
      · split
        · exact .ok hn
        · exact .error (.same _)
  | some ho =>
      cases hn' : n.absolute with
      | true =>
          rw [Origin.stored_absolute hn', Origin.stored_absolute (habsolute ▸ hn'),
            Name.isSubdomain_congr hn ho]
          split
          · rename_i hsub
            refine .ok ?_
            split
            · exact Name.relativize_beq hn ho ((Name.isSubdomain_congr hn ho).trans hsub)
            · exact hn
          · exact .error (.outOfZone hn)
      | false =>
          rw [Origin.stored_relative hn', Origin.stored_relative (habsolute ▸ hn')]
          split
          · exact .ok hn
          · have hsame := Name.derelativize_beq hn ho
            revert hsame
            generalize n.derelativize _ = x
            generalize n'.derelativize _ = x'
            intro hsame
            cases hsame with
            | error e => exact .error (.same _)
            | ok hm => exact .ok hm

theorem lawful_spelling : spelling.Lawful where
  keepsOrder := keepsOrder_spelling
  absolute_eq h := (Name.beq_iff.mp h).1
  stores := stores_spelling
  apex? {o o'} h := by
    obtain ⟨name?, relativize⟩ := o
    obtain ⟨name'?, _⟩ := o'
    obtain ⟨rfl, hname⟩ := h
    cases relativize with
    | true => exact .some BEq.rfl
    | false => exact hname
  isNone_name? h := isNone_eq_of_rel h.name?
  named_of_given _ _ _ _ hn := hn
  absolute_eq_of_named h := (Name.beq_iff.mp h).1
  origin_of_named h _ _ hn := ⟨h.relativize, .some hn⟩
  learn h learned? learned'? hl := by
    have hlearned : Option.Rel (fun n n' => (n == n') = true) learned? learned'? := by
      cases hl with
      | nothing => exact .none
      | name h => exact h.name?
    exact ⟨h.relativize, rel_or h.name? hlearned⟩
  beq_eq h h' := by rw [BEq.congr_left h, BEq.congr_right h']
  key_eq := RecordData.key_congr
  soa? h := by
    cases RecordData.same_of_beq h with
    | soa h => exact .some h
    | _ => exact .none
  serial_eq h := (Soa.beq_iff.mp h).2.2.1
  withSerial {s s'} h serial := by
    obtain ⟨hmname, hrname, -, hrest⟩ := Soa.beq_iff.mp h
    have hsoa : (s.withSerial serial == s'.withSerial serial) = true :=
      Soa.beq_iff.mpr ⟨hmname, hrname, rfl, hrest⟩
    exact hsoa

/-- Record sets in another spelling are those that are equal. -/
theorem sets_spelling_iff {s s' : RecordSet} : spelling.Sets s s' ↔ (s == s') = true := by
  rw [RecordSet.beq_iff]
  exact ⟨fun h => ⟨h.key, h.ttl, h.data⟩, fun h => ⟨h.1, h.2.1, h.2.2⟩⟩

end Translation

/-! ### Zones -/

open Translation (spelling)

namespace ZoneConfig

variable {config config' : ZoneConfig}

/-- The configurations are the same but for the spelling of the origin. -/
structure Respells (config config' : ZoneConfig) : Prop where
  origin? : Option.Rel (fun n n' => (n == n') = true) config.origin? config'.origin?
  cls : config.cls = config'.cls
  relativize : config.relativize = config'.relativize
  policy : config.policy = config'.policy
  checksOrigin : config.checksOrigin = config'.checksOrigin

/-- Both configurations are valid, or neither is for the same reason. -/
theorem Respells.validate (h : config.Respells config') :
    spelling.Outcome Eq config.validate config'.validate := by
  have horigin := h.origin?
  rw [ZoneConfig.validate, ZoneConfig.validate, h.policy]
  generalize config.origin? = origin?, config'.origin? = origin'? at horigin ⊢
  cases horigin with
  | none => exact .refl
  | some hn =>
      simp only [(Name.beq_iff.mp hn).1]
      split
      · exact .error (.relativeOrigin hn)
      · exact .refl

/-- Whatever is done on two zones of the same configuration through any number of transactions that
take turns: nothing that is told depends on the case of letters, be it in the origin, in owner names
or in names inside of record data. The same is refused with the same error; the record sets, nodes
and names that are told are equal and come in the same order; and the zones have the same versions
after every turn. The policies may be any that do not look at what a version holds, as the built-in
ones do not. -/
theorem letter_case_invisible (h : config.Respells config')
    (hpolicy : ∀ f, config.policy ≠ .custom f) :
    spelling.Outcome (fun z z' => ∀ turns turns', List.Forall₂ spelling.Turns turns turns' →
        List.Forall₂ (fun x x' => spelling.Reports x.1 x'.1 ∧
          x.2.zone.chain.ids = x'.2.zone.chain.ids)
          (Interplay.run { zone := z } turns) (Interplay.run { zone := z' } turns'))
        config.buildVersioned config'.buildVersioned ∧
      spelling.Outcome (fun z z' => ∀ turns turns', List.Forall₂ spelling.Turns turns turns' →
        List.Forall₂ (fun x x' => spelling.Reports x.1 x'.1 ∧
          x.2.zone.generation = x'.2.zone.generation)
          (Interplay.run { zone := z } turns) (Interplay.run { zone := z' } turns'))
        config.buildPlain config'.buildPlain := by
  have hT := Translation.lawful_spelling
  have horigin : Origin.Alike ⟨config.origin?, config.relativize⟩
      ⟨config'.origin?, config'.relativize⟩ := ⟨h.relativize, h.origin?⟩
  constructor
  · refine h.validate.map fun _ _ _ turns turns' hturns => ?_
    have hzones : spelling.VersionedZones
        (.create config.origin? config.cls config.relativize config.checksOrigin config.policy)
        (.create config'.origin? config'.cls config'.relativize config'.checksOrigin
          config'.policy) := by
      refine ⟨h.checksOrigin, horigin, ⟨.nil, rfl, .empty, rfl⟩, rfl, rfl, ?_, rfl⟩
      exact h.policy ▸ Translation.policies_of_builtin hpolicy
    have hrun := (Translation.carriedByHost_versionedZones hT).runTurns hT
      (Translation.interplays_of_zones hzones) hturns
    exact hrun.imp fun _ _ hx => ⟨hx.1, hx.2.zone.chain.ids_eq⟩
  · refine h.validate.map fun _ _ _ turns turns' hturns => ?_
    have hzones : spelling.PlainZones
        (.create config.origin? config.cls config.relativize config.checksOrigin)
        (.create config'.origin? config'.cls config'.relativize config'.checksOrigin) :=
      ⟨h.checksOrigin, horigin, .empty, rfl, rfl, rfl⟩
    have hrun := (Translation.carriedByHost_plainZones hT).runTurns hT
      (Translation.interplays_of_zones hzones) hturns
    exact hrun.imp fun _ _ hx => ⟨hx.1, hx.2.zone.generation⟩

end ZoneConfig

namespace Shouting

open Sample

def shoutedConfig : ZoneConfig := { origin? := some shoutedOrigin }

def nameServers (host : Name) : RecordSet := .single .hour (.ns host)

/-- A writer adds a record set, which a reader that is started meanwhile does not see and the next
one does. -/
def turns (origin host : Name) : List Interplay.Turn :=
  [.start (.writer false), .call 0 (.edit (.addSet origin (nameServers host))),
    .start (.reader none), .call 0 .commit, .call 1 (.query (.nameExists host)),
    .start (.reader none), .call 2 (.query .sets), .drop 1]

theorem letter_case_invisible_of_shouting :
    config.Respells shoutedConfig ∧ (∀ f, config.policy ≠ .custom f) ∧
      List.Forall₂ spelling.Turns (turns origin fullHost) (turns shoutedOrigin shoutedHost) ∧
      List.Forall₂ (fun x x' => spelling.Reports x.1 x'.1 ∧
          x.2.zone.chain.ids = x'.2.zone.chain.ids)
        (Interplay.run { zone := VersionedZone.create (some origin) .internet true false .latest }
          (turns origin fullHost))
        (Interplay.run
          { zone := VersionedZone.create (some shoutedOrigin) .internet true false .latest }
          (turns shoutedOrigin shoutedHost)) ∧
      List.Forall₂ (fun x x' => spelling.Reports x.1 x'.1 ∧
          x.2.zone.generation = x'.2.zone.generation)
        (Interplay.run { zone := PlainZone.create (some origin) .internet true false }
          (turns origin fullHost))
        (Interplay.run { zone := PlainZone.create (some shoutedOrigin) .internet true false }
          (turns shoutedOrigin shoutedHost)) := by
  have horigin : (origin == shoutedOrigin) = true := by decide
  have hhost : (fullHost == shoutedHost) = true := by decide
  have hconfig : config.Respells shoutedConfig := ⟨.some horigin, rfl, rfl, rfl, rfl⟩
  have hpolicy (f) : config.policy ≠ .custom f := nofun
  have hsets : spelling.Sets (nameServers fullHost) (nameServers shoutedHost) :=
    Translation.sets_spelling_iff.mpr (by decide)
  have hturns : List.Forall₂ spelling.Turns (turns origin fullHost)
      (turns shoutedOrigin shoutedHost) :=
    .cons (.start _) <| .cons (.call 0 (.edit (.addSet horigin hsets))) <|
      .cons (.start _) <| .cons (.call 0 .commit) <|
      .cons (.call 1 (.query (.nameExists hhost))) <| .cons (.start _) <|
      .cons (.call 2 (.query .sets)) <| .cons (.drop 1) .nil
  obtain ⟨hversioned, hplain⟩ := ZoneConfig.letter_case_invisible hconfig hpolicy
  refine ⟨hconfig, hpolicy, hturns, ?_, ?_⟩
  · cases hversioned with
    | ok htold => exact htold _ _ hturns
  · cases hplain with
    | ok htold => exact htold _ _ hturns

end Shouting

end DnsZone
