import DnsZone.Name.Relative
import DnsZone.Name.Text

/-!
# Names kept as octets

A name can be kept in one piece as the octets of its labels in wire form, each label behind its
length octet. Labels are then found by following the length octets from the front, and names are cut
and joined as octets. Nothing in this form says that the octets are those of labels: a label is cut
off where its length octet says, and what is left of a name in front of its origin where the lengths
add up to, so each of these steps may ask for more than there is. Such an overrun is an outcome of
its own here, apart from the faults for which labels and texts are refused.
-/

namespace DnsZone

/-- A step that asks for more than there is. -/
inductive Overrun where
  /-- The length octet of a label says more than what follows it. -/
  | label
  /-- The origin has more labels than the name that it is taken off. -/
  | count
  /-- The octets to be kept are more than the name has. -/
  | slice
  deriving DecidableEq, Repr

structure WireName where
  /-- The labels behind their length octets, without the root label. -/
  octets : List Octet
  absolute : Bool
  deriving DecidableEq, Repr

namespace WireName

/-! ### Labels -/

/-- The first `n` octets and those behind them. -/
def split (beyond : Overrun) (n : Nat) (octets : List Octet) :
    Except Overrun (List Octet × List Octet) :=
  if n ≤ octets.length then .ok (octets.take n, octets.drop n) else .error beyond

/-- The label in front and what follows it, unless the octets are at their end. -/
def next : List Octet → Except Overrun (Option (Label × List Octet))
  | [] => .ok none
  | length :: rest => (split .label length.toNat rest).map some

theorem length_lt_of_next {octets rest : List Octet} {l : Label}
    (h : next octets = .ok (some (l, rest))) : rest.length < octets.length := by
  cases octets with
  | nil => cases h
  | cons length tail =>
      rw [next, split] at h
      split at h
      · cases h
        rw [List.length_drop, List.length_cons]
        omega
      · cases h

/-- All labels, from the front. -/
def labelsOf (octets : List Octet) : Except Overrun (List Label) :=
  match _h : next octets with
  | .error e => .error e
  | .ok none => .ok []
  | .ok (some (l, rest)) => (labelsOf rest).map (l :: ·)
termination_by octets.length
decreasing_by exact length_lt_of_next _h

@[simp] theorem labelsOf_nil : labelsOf [] = .ok [] := by
  rw [labelsOf]
  rfl

theorem labelsOf_of_next {octets rest : List Octet} {l : Label}
    (h : next octets = .ok (some (l, rest))) :
    labelsOf octets = (labelsOf rest).map (l :: ·) := by
  rw [labelsOf]
  split
  · rename_i e he
    cases h.symm.trans he
  · rename_i hnone
    cases h.symm.trans hnone
  · rename_i l' rest' hsome
    cases h.symm.trans hsome
    rfl

/-- The first `n` labels, or all of them if there are fewer. -/
def firstLabels : Nat → List Octet → Except Overrun (List Label)
  | 0, _ => .ok []
  | n + 1, octets =>
      match next octets with
      | .error e => .error e
      | .ok none => .ok []
      | .ok (some (l, rest)) => (firstLabels n rest).map (l :: ·)

def labels (w : WireName) : Except Overrun (List Label) := labelsOf w.octets

/-! ### Making names -/

def root : WireName := ⟨[], true⟩

def empty : WireName := ⟨[], false⟩

def ofOctets? (octets : List Octet) (absolute : Bool) : Except NameError WireName :=
  if octets.length + 1 > maxNameLength then .error .longName else .ok ⟨octets, absolute⟩

/-- The octets with a further label behind them. -/
def push? (octets : List Octet) (l : Label) : Except NameError (List Octet) :=
  match l.fault? with
  | some e => .error e
  | none => .ok (octets ++ l.wire)

def ofLabels? (labels : List Label) (absolute : Bool) : Except NameError WireName := do
  ofOctets? (← labels.foldlM push? []) absolute

/-- Reads labels from items, with `octets` for those that have ended and `label` as the present one.
Yields all octets and whether the last item was a separator. -/
def readItems (octets : List Octet) (label : Label) :
    List Name.Item → Except NameError (List Octet × Bool)
  | [] => do return (← push? octets label, false)
  | .octet b :: rest => readItems octets (label ++ [b]) rest
  | .malformed :: _ => .error .badEscape
  | .separator :: rest => do
      let octets ← push? octets label
      if rest.isEmpty then return (octets, true) else readItems octets [] rest

def parse (text : List Octet) : Except NameError WireName :=
  if text = [] ∨ text = [0x40] then .ok empty
  else if text = [Octet.dot] then .ok root
  else do
    let (octets, absolute) ← readItems [] [] (Name.items text)
    ofOctets? octets absolute

def ofString? (s : String) : Except NameError WireName := parse (Octets.ofString s)

/-! ### Names relative to an origin -/

def isSubdomain (w origin : WireName) : Except Overrun Bool :=
  if w.absolute != origin.absolute then .ok false
  else do
    let mine ← w.labels
    let theirs ← origin.labels
    if theirs.length > mine.length then return false
    return (mine.reverse.zip theirs.reverse).all fun p => Octets.sameIgnoringCase p.1 p.2

/-- The number of labels that are left without those of the origin. -/
def kept (w origin : WireName) : Except Overrun Nat := do
  let count := (← w.labels).length
  let originCount := (← origin.labels).length
  if originCount ≤ count then return count - originCount else .error .count

/-- Cuts the labels of the origin off, if the name is at or below it. -/
def relativize (w origin : WireName) : Except Overrun WireName := do
  if !(← w.isSubdomain origin) then return w
  let front ← firstLabels (← w.kept origin) w.octets
  let length := front.foldl (fun length l => length + (l.length + 1)) 0
  return ⟨(← split .slice length w.octets).1, false⟩

def derelativize (w origin : WireName) : Except NameError WireName :=
  if w.absolute then .ok w else ofOctets? (w.octets ++ origin.octets) origin.absolute

end WireName

/-- The octets of a name in one piece. -/
def Name.toWire (n : Name) : WireName := ⟨n.wire, n.absolute⟩

end DnsZone
