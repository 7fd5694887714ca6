import DnsZone.Name.Wire
import DnsZone.Proofs.Name.Reading
import DnsZone.Proofs.Name.Relative

/-!
# Names kept as octets hold labels

Octets that are those of legal labels are taken apart into just these labels, and none of the steps
asks for more than there is. Every operation on names that are kept as octets does to the octets what
the operation on labels does to the labels, so the octets of a name stay those of legal labels, in
whatever way the name was made.
-/

namespace DnsZone

namespace WireName

variable {ls : List Label} {l : Label} {rest : List Octet}

/-! ### Labels -/

theorem split_append {beyond : Overrun} (front rest : List Octet) :
    split beyond front.length (front ++ rest) = .ok (front, rest) := by
  rw [split, if_pos (by rw [List.length_append]; exact Nat.le_add_right _ _), List.take_left,
    List.drop_left]

theorem next_wire_append (hl : l.IsLegal) (rest : List Octet) :
    next (l.wire ++ rest) = .ok (some (l, rest)) := by
  have hlength : (UInt8.ofNat l.length).toNat = l.length := by
    rw [UInt8.toNat_ofNat']
    exact Nat.mod_eq_of_lt (Nat.lt_of_le_of_lt hl.2 (by decide))
  rw [Label.wire, List.cons_append, next, hlength, split_append]
  rfl

/-- The octets of legal labels are taken apart into these labels. -/
theorem labelsOf_flatMap_wire (h : ∀ l ∈ ls, l.IsLegal) :
    labelsOf (ls.flatMap Label.wire) = .ok ls := by
  induction ls with
  | nil => exact labelsOf_nil
  | cons l ls ih =>
      rw [List.forall_mem_cons] at h
      rw [List.flatMap_cons, labelsOf_of_next (next_wire_append h.1 _), ih h.2]
      rfl

theorem firstLabels_flatMap_wire (h : ∀ l ∈ ls, l.IsLegal) (n : Nat) :
    firstLabels n (ls.flatMap Label.wire) = .ok (ls.take n) := by
  induction n generalizing ls with
  | zero => rfl
  | succ n ih =>
      cases ls with
      | nil => rfl
      | cons l ls =>
          rw [List.forall_mem_cons] at h
          rw [List.flatMap_cons, firstLabels, next_wire_append h.1]
          simp only [ih h.2]
          rfl

@[simp] theorem labels_toWire (n : Name) : n.toWire.labels = .ok n.labels :=
  labelsOf_flatMap_wire n.labels_legal

/-! ### Making names -/

theorem ofOctets?_flatMap_wire (h : ∀ l ∈ ls, l.IsLegal) (absolute : Bool) :
    ofOctets? (ls.flatMap Label.wire) absolute = (Name.build ls h absolute).map Name.toWire := by
  rw [ofOctets?, Name.build, Label.length_flatMap_wire]
  split
  next hlong => rw [dif_neg (Nat.not_le.mpr hlong)]; rfl
  next hfits => rw [dif_pos (Nat.not_lt.mp hfits)]; rfl

theorem foldlM_push? (ls : List Label) (octets : List Octet) :
    ls.foldlM push? octets =
      match ls.findSome? Label.fault? with
      | some e => .error e
      | none => .ok (octets ++ ls.flatMap Label.wire) := by
  induction ls generalizing octets with
  | nil => rw [List.findSome?_nil, List.flatMap_nil, List.append_nil]; rfl
  | cons l ls ih =>
      rw [List.foldlM_cons, List.findSome?_cons, push?]
      cases hfault : l.fault? with
      | some e => rfl
      | none =>
          change ls.foldlM push? (octets ++ l.wire) = _
          rw [ih, List.flatMap_cons, List.append_assoc]

/-- Labels put together as octets make the name that they make as labels. -/
theorem ofLabels?_eq (ls : List Label) (absolute : Bool) :
    ofLabels? ls absolute = (Name.ofLabels? ls absolute).map Name.toWire := by
  rw [ofLabels?, foldlM_push?]
  cases hfault : ls.findSome? Label.fault? with
  | some e => rw [Name.ofLabels?_of_fault hfault]; rfl
  | none =>
      have hlegal : ∀ l ∈ ls, l.IsLegal := fun l hl =>
        Label.fault?_eq_none_iff.mp (List.findSome?_eq_none_iff.mp hfault l hl)
      rw [Name.ofLabels?_of_legal hlegal, ← ofOctets?_flatMap_wire hlegal]
      rfl

/-- Items are read into the octets of the labels that they are read as. -/
theorem readItems_eq (octets : List Octet) (label : Label) (items : List Name.Item) :
    readItems octets label items =
      (Name.labelsOfItems label items).map fun r => (octets ++ r.1.flatMap Label.wire, r.2) := by
  have hone : ∀ l : Label, [l].flatMap Label.wire = l.wire := List.flatMap_singleton _
  induction items generalizing octets label with
  | nil =>
      rw [readItems, Name.labelsOfItems, push?]
      cases label.fault? with
      | some e => rfl
      | none => rw [Except.map, hone]; rfl
  | cons item rest ih =>
      cases item with
      | octet b => rw [readItems, Name.labelsOfItems, ih]
      | malformed => rfl
      | separator =>
          rw [readItems, Name.labelsOfItems, push?]
          cases label.fault? with
          | some e => rfl
          | none =>
              change (if rest.isEmpty then .ok (octets ++ label.wire, true)
                else readItems (octets ++ label.wire) [] rest) = _
              cases rest.isEmpty with
              | true => rw [if_pos rfl, if_pos rfl, Except.map, hone]
              | false =>
                  rw [if_neg Bool.false_ne_true, if_neg Bool.false_ne_true,
                    ih]
                  cases Name.labelsOfItems [] rest with
                  | error e => rfl
                  | ok r => simp only [Except.map, List.flatMap_cons, List.append_assoc]

theorem parse_eq (text : List Octet) : parse text = (Name.parse text).map Name.toWire := by
  rw [parse, Name.parse]
  split
  · rfl
  · split
    · rfl
    · rw [readItems_eq]
      cases hread : Name.labelsOfItems [] (Name.items text) with
      | error e => rfl
      | ok r =>
          have hlegal := (Name.labelsOfItems_eq_ok_iff.mp hread).2
          change ofOctets? (r.1.flatMap Label.wire) r.2 = _
          rw [ofOctets?_flatMap_wire hlegal, ← Name.ofLabels?_of_legal hlegal]

/-- A text is read into the octets of the name that it is read as. -/
theorem ofString?_eq (s : String) : ofString? s = (Name.ofString? s).map Name.toWire :=
  parse_eq _

/-! ### Names relative to an origin -/

/-- Labels are the first ones of others if no pair of them differs and there are enough. -/
theorem isPrefixOf_map_lower (a b : List Label) :
    (b.map Octets.lower).isPrefixOf (a.map Octets.lower) =
      (decide (b.length ≤ a.length) &&
        (a.zip b).all fun p => Octets.sameIgnoringCase p.1 p.2) := by
  induction b generalizing a with
  | nil => simp
  | cons l b ih =>
      cases a with
      | nil => rfl
      | cons k a =>
          have hsame : (Octets.lower l == Octets.lower k) = Octets.sameIgnoringCase k l :=
            BEq.comm
          rw [List.map_cons, List.map_cons, List.isPrefixOf_cons_cons, ih, hsame, List.zip_cons_cons,
            List.all_cons, List.length_cons, List.length_cons, Bool.and_left_comm]
          simp only [Nat.succ_le_succ_iff]

theorem isSubdomain_toWire (n origin : Name) :
    n.toWire.isSubdomain origin.toWire = .ok (n.isSubdomain origin) := by
  have hlabels := isPrefixOf_map_lower n.labels.reverse origin.labels.reverse
  rw [List.map_reverse, List.map_reverse, List.length_reverse, List.length_reverse] at hlabels
  rw [isSubdomain, Name.isSubdomain, Name.canonical, Name.canonical, hlabels]
  by_cases hkind : n.absolute = origin.absolute
  · have hsame : (n.toWire.absolute != origin.toWire.absolute) = false := by
      simpa [Name.toWire] using hkind
    rw [hsame, if_neg Bool.false_ne_true, labels_toWire, labels_toWire, beq_iff_eq.mpr hkind,
      Bool.true_and]
    simp only [bind, Except.bind, pure, Except.pure]
    by_cases hlength : origin.labels.length ≤ n.labels.length
    · rw [if_neg (Nat.not_lt.mpr hlength), decide_eq_true hlength, Bool.true_and]
    · rw [if_pos (Nat.not_le.mp hlength), decide_eq_false hlength, Bool.false_and]
  · have hdiffer : (n.toWire.absolute != origin.toWire.absolute) = true := by
      simpa [Name.toWire] using hkind
    rw [hdiffer, if_pos rfl, beq_false_of_ne hkind, Bool.false_and]

theorem kept_toWire {n origin : Name} (h : n.isSubdomain origin = true) :
    n.toWire.kept origin.toWire = .ok (n.labelCount - origin.labelCount) := by
  rw [kept, labels_toWire, labels_toWire]
  exact if_pos (Name.labelCount_le_of_isSubdomain h)

theorem foldl_length (ls : List Label) (start : Nat) :
    ls.foldl (fun length l => length + (l.length + 1)) start = start + wireLength ls := by
  induction ls generalizing start with
  | nil => rfl
  | cons l ls ih => rw [List.foldl_cons, ih, wireLength_cons, Nat.add_assoc]

/-- The first labels of a name take up as many octets as their lengths add up to. -/
theorem split_wire (n : Name) (k : Nat) :
    split .slice (wireLength (n.labels.take k)) n.wire =
      .ok ((n.labels.take k).flatMap Label.wire, (n.labels.drop k).flatMap Label.wire) := by
  have hwire : n.wire =
      (n.labels.take k).flatMap Label.wire ++ (n.labels.drop k).flatMap Label.wire := by
    rw [← List.flatMap_append, List.take_append_drop, Name.wire]
  rw [hwire, ← Label.length_flatMap_wire, split_append]

theorem relativize_toWire (n origin : Name) :
    n.toWire.relativize origin.toWire = .ok (n.relativize origin).toWire := by
  rw [relativize, isSubdomain_toWire, Name.relativize]
  cases hsub : n.isSubdomain origin with
  | false => rfl
  | true =>
      have hfront := firstLabels_flatMap_wire n.labels_legal (n.labelCount - origin.labelCount)
      have hsplit := split_wire n (n.labelCount - origin.labelCount)
      rw [Name.wire] at hsplit
      rw [kept_toWire hsub, Name.toWire, Name.wire]
      simp only [bind, Except.bind, pure, Except.pure, Bool.not_true, Bool.false_eq_true, if_false,
        hfront, foldl_length, Nat.zero_add, hsplit]
      rfl

/-- A name with the origin behind it is put together as octets as it is as labels. -/
theorem derelativize_toWire (n origin : Name) :
    n.toWire.derelativize origin.toWire = (n.derelativize origin).map Name.toWire := by
  rw [derelativize, Name.derelativize]
  change (if n.absolute then _ else _) = _
  split
  · rfl
  · rw [← ofOctets?_flatMap_wire, List.flatMap_append]
    rfl

/-! ### Names made in any way -/

/-- Why no name comes of an operation on names that are kept as octets. -/
inductive Failure where
  | refused (e : NameError)
  | overrun (beyond : Overrun)
  deriving DecidableEq, Repr

/-- A way to make a name: of labels or of a text, and from names made before. -/
inductive Recipe where
  | root
  | empty
  | labels (labels : List Label) (absolute : Bool)
  | text (s : String)
  | relativize (n origin : Recipe)
  | derelativize (n origin : Recipe)

namespace Recipe

/-- What is made if names are kept as octets. -/
def wire : Recipe → Except Failure WireName
  | .root => .ok .root
  | .empty => .ok .empty
  | .labels ls absolute => (ofLabels? ls absolute).mapError .refused
  | .text s => (ofString? s).mapError .refused
  | .relativize n origin => do ((← n.wire).relativize (← origin.wire)).mapError .overrun
  | .derelativize n origin => do ((← n.wire).derelativize (← origin.wire)).mapError .refused

/-- What is made of labels. -/
def name : Recipe → Except NameError Name
  | .root => .ok .root
  | .empty => .ok .empty
  | .labels ls absolute => Name.ofLabels? ls absolute
  | .text s => Name.ofString? s
  | .relativize n origin => do return (← n.name).relativize (← origin.name)
  | .derelativize n origin => do (← n.name).derelativize (← origin.name)

/-- Names kept as octets are the octets of the names, and are refused for the same faults. -/
theorem wire_eq (r : Recipe) : r.wire = (r.name.map Name.toWire).mapError .refused := by
  induction r with
  | root => rfl
  | empty => rfl
  | labels ls absolute => rw [wire, ofLabels?_eq]; rfl
  | text s => rw [wire, ofString?_eq]; rfl
  | relativize n origin ihn iho =>
      rw [wire, name, ihn, iho]
      cases n.name with
      | error e => rfl
      | ok n =>
          cases origin.name with
          | error e => rfl
          | ok origin =>
              change ((n.toWire).relativize origin.toWire).mapError _ = _
              rw [relativize_toWire]
              rfl
  | derelativize n origin ihn iho =>
      rw [wire, name, ihn, iho]
      cases n.name with
      | error e => rfl
      | ok n =>
          cases origin.name with
          | error e => rfl
          | ok origin =>
              change ((n.toWire).derelativize origin.toWire).mapError _ = _
              rw [derelativize_toWire]
              rfl

theorem exists_name {r : Recipe} {w : WireName} (h : r.wire = .ok w) :
    ∃ n, r.name = .ok n ∧ w = n.toWire := by
  rw [wire_eq] at h
  cases hname : r.name with
  | error e => rw [hname] at h; cases h
  | ok n =>
      rw [hname] at h
      cases h
      exact ⟨n, rfl, rfl⟩

theorem wire_ne_overrun (r : Recipe) (beyond : Overrun) : r.wire ≠ .error (.overrun beyond) := by
  rw [wire_eq]
  cases r.name with
  | error e => exact fun h => by cases h
  | ok n => exact fun h => by cases h

end Recipe

/-- The octets are those of the labels, which are legal and have room in a name, and are taken apart
into these. -/
structure Holds (w : WireName) (ls : List Label) : Prop where
  labels_eq : w.labels = .ok ls
  octets_eq : ls.flatMap Label.wire = w.octets
  label_length : ∀ l ∈ ls, 1 ≤ l.length ∧ l.length ≤ 63
  length_le : w.octets.length ≤ 254

theorem holds_toWire (n : Name) : n.toWire.Holds n.labels where
  labels_eq := labels_toWire n
  octets_eq := rfl
  label_length l hl := Name.isLegal_iff.mp (n.labels_legal l hl)
  length_le := by
    change n.wire.length ≤ 254
    rw [Name.length_wire]
    exact Nat.le_of_succ_le_succ n.fits

theorem holds_of_ofLabels? {w : WireName} {absolute : Bool} (h : ofLabels? ls absolute = .ok w) :
    w.Holds ls := by
  rw [ofLabels?_eq] at h
  obtain ⟨n, hname, rfl⟩ := map_eq_ok_iff.mp h
  rw [← (Name.ofLabels?_eq_ok_iff.mp hname).1]
  exact holds_toWire n

theorem holds_of_derelativize {n origin : Name} {w : WireName} (hn : n.absolute = false)
    (h : n.toWire.derelativize origin.toWire = .ok w) : w.Holds (n.labels ++ origin.labels) := by
  rw [derelativize_toWire] at h
  obtain ⟨m, hname, rfl⟩ := map_eq_ok_iff.mp h
  rw [← (Name.labels_of_derelativize hn hname).2]
  exact holds_toWire m

/-- In whatever way a name is made and kept as octets, its octets are those of legal labels, and no
step asks for more than there is. Labels that a name is made of are found in it again, a relative
name with an origin behind it has the labels of both, and a name without its origin has its first
labels, as many as it has more than the origin, and these end within its octets. -/
theorem recipes_keep_labels :
    (∀ r : Recipe, r.wire = (r.name.map Name.toWire).mapError .refused) ∧
      (∀ (r : Recipe) (beyond : Overrun), r.wire ≠ .error (.overrun beyond)) ∧
      (∀ (r : Recipe) w, r.wire = .ok w → ∃ ls, w.Holds ls) ∧
      (∀ ls absolute w, ofLabels? ls absolute = .ok w → w.Holds ls) ∧
      ∀ (r origin : Recipe) w v, r.wire = .ok w → origin.wire = .ok v →
        ∃ ls os, w.Holds ls ∧ v.Holds os ∧
          (w.absolute = false → ∀ u, w.derelativize v = .ok u → u.Holds (ls ++ os)) ∧
          (w.isSubdomain v = .ok true →
            os.length ≤ ls.length ∧ w.kept v = .ok (ls.length - os.length) ∧
              ((ls.take (ls.length - os.length)).map fun l => l.length + 1).sum ≤ w.octets.length ∧
              ∃ u, w.relativize v = .ok u ∧ u.Holds (ls.take (ls.length - os.length))) := by
  refine ⟨Recipe.wire_eq, Recipe.wire_ne_overrun, fun r w hw => ?_,
    fun ls absolute w => holds_of_ofLabels?, fun r origin w v hw hv => ?_⟩
  · obtain ⟨n, -, rfl⟩ := Recipe.exists_name hw
    exact ⟨n.labels, holds_toWire n⟩
  · obtain ⟨n, -, rfl⟩ := Recipe.exists_name hw
    obtain ⟨o, -, rfl⟩ := Recipe.exists_name hv
    refine ⟨n.labels, o.labels, holds_toWire n, holds_toWire o,
      fun hn u => holds_of_derelativize hn, fun hsub => ?_⟩
    rw [isSubdomain_toWire, Except.ok.injEq] at hsub
    refine ⟨Name.labelCount_le_of_isSubdomain hsub, kept_toWire hsub, ?_,
      (n.relativize o).toWire, relativize_toWire n o, ?_⟩
    · rw [← Name.wireLength_eq_sum]
      exact Nat.le_trans (wireLength_take_le _ _) (Nat.le_of_eq (Name.length_wire n).symm)
    · have htake := Name.labels_relativize hsub
      rw [Name.labelCount, Name.labelCount] at htake
      rw [← htake]
      exact holds_toWire _

namespace ThereAndBack

/-- The relative name `www`, read from its text. -/
def host : Recipe := .text "www"

/-- The name `e.C.`, made of its labels. -/
def zone : Recipe := .labels [[0x65], [0x43]] true

def hostWire : WireName := ⟨[3, 0x77, 0x77, 0x77], false⟩

def zoneWire : WireName := ⟨[1, 0x65, 1, 0x43], true⟩

/-- The octets of the host below the zone. -/
def belowWire : WireName := ⟨[3, 0x77, 0x77, 0x77, 1, 0x65, 1, 0x43], true⟩

theorem recipes_keep_labels_of_host :
    host.wire = .ok hostWire ∧ zone.wire = .ok zoneWire ∧
      (Recipe.derelativize host zone).wire = .ok belowWire ∧ hostWire.absolute = false ∧
      hostWire.derelativize zoneWire = .ok belowWire ∧
      belowWire.Holds [[0x77, 0x77, 0x77], [0x65], [0x43]] ∧
      belowWire.isSubdomain zoneWire = .ok true ∧
      ∃ u, belowWire.relativize zoneWire = .ok u ∧ u.Holds [[0x77, 0x77, 0x77]] := by
  have hhost : host.wire = .ok hostWire := rfl
  have hzone : zone.wire = .ok zoneWire := rfl
  have hbelow : (Recipe.derelativize host zone).wire = .ok belowWire := rfl
  have hput : hostWire.derelativize zoneWire = .ok belowWire := rfl
  have hsub : belowWire.isSubdomain zoneWire = .ok true := by decide +kernel
  have hhostLabels : hostWire.labels = .ok [[0x77, 0x77, 0x77]] := by decide +kernel
  have hzoneLabels : zoneWire.labels = .ok [[0x65], [0x43]] := by decide +kernel
  have hbelowLabels : belowWire.labels = .ok [[0x77, 0x77, 0x77], [0x65], [0x43]] := by decide +kernel
  obtain ⟨-, -, -, -, hpair⟩ := recipes_keep_labels
  obtain ⟨ls, os, hls, hos, hjoined, -⟩ := hpair host zone hostWire zoneWire hhost hzone
  obtain ⟨ms, os', hms, hos', -, hcut⟩ := hpair _ zone belowWire zoneWire hbelow hzone
  obtain ⟨-, -, -, hback⟩ := hcut hsub
  cases hls.labels_eq.symm.trans hhostLabels
  cases hos.labels_eq.symm.trans hzoneLabels
  cases hms.labels_eq.symm.trans hbelowLabels
  cases hos'.labels_eq.symm.trans hzoneLabels
  exact ⟨hhost, hzone, hbelow, rfl, hput, hjoined rfl _ hput, hsub, hback⟩

end ThereAndBack

end WireName

end DnsZone
