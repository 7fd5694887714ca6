import DnsZone.Name.Basic

/-!
# Names in presentation format

Labels are separated by dots, and a dot at the end makes a name absolute. A single dot is the root;
the empty text and `@` are the empty relative name. Inside a label, a backslash before three decimal
digits stands for the octet of that value, and a backslash before any other octet for that octet.

A text is first split into items: octets of a label, dots that separate labels, and escapes that
are malformed. Names are read from the items, so the fault that is reported is the leftmost one,
and a name that is too long as a whole is reported last.

Names are written with dots and backslashes inside labels escaped, visible ASCII characters as
themselves, and all other octets as three decimal digits.
-/

namespace DnsZone.Name

/-- What a text in presentation format consists of. -/
inductive Item where
  | octet (b : Octet)
  /-- A dot that ends a label. -/
  | separator
  /-- A backslash that starts no legal escape. -/
  | malformed
  deriving DecidableEq, Repr

/-- The value of three decimal digits. -/
def escapeValue (a b c : Octet) : Nat := 100 * a.digitValue + 10 * b.digitValue + c.digitValue

/-- Splits a text into items. A malformed escape ends the list. -/
def items : List Octet → List Item
  | [] => []
  | b :: rest =>
      if b = Octet.dot then .separator :: items rest
      else if b = Octet.backslash then
        match rest with
        | [] => [.malformed]
        | c :: rest' =>
            if !c.isDigit then .octet c :: items rest'
            else
              match rest' with
              | d :: e :: rest'' =>
                  if d.isDigit && e.isDigit && escapeValue c d e ≤ 255 then
                    .octet (UInt8.ofNat (escapeValue c d e)) :: items rest''
                  else [.malformed]
              | _ => [.malformed]
      else .octet b :: items rest

/-- Reads labels from items, with `label` as the octets of the present label so far. Yields the
labels and whether the last item was a separator. -/
def labelsOfItems (label : Label) : List Item → Except NameError (List Label × Bool)
  | [] =>
      match label.fault? with
      | some e => .error e
      | none => .ok ([label], false)
  | .octet b :: rest => labelsOfItems (label ++ [b]) rest
  | .malformed :: _ => .error .badEscape
  | .separator :: rest =>
      match label.fault? with
      | some e => .error e
      | none =>
          if rest.isEmpty then .ok ([label], true)
          else (labelsOfItems [] rest).map fun r => (label :: r.1, r.2)

/-- Reads a name from the octets of its presentation format. -/
def parse (text : List Octet) : Except NameError Name :=
  if text = [] ∨ text = [0x40] then .ok empty
  else if text = [Octet.dot] then .ok root
  else
    match labelsOfItems [] (items text) with
    | .error e => .error e
    | .ok (labels, absolute) => ofLabels? labels absolute

def ofString? (s : String) : Except NameError Name := parse (Octets.ofString s)

def renderOctet (b : Octet) : List Octet :=
  if b = Octet.dot || b = Octet.backslash then [Octet.backslash, b]
  else if b.isGraphic then [b]
  else
    [Octet.backslash, Octet.ofDigit (b.toNat / 100), Octet.ofDigit (b.toNat / 10 % 10),
      Octet.ofDigit (b.toNat % 10)]

def renderLabel (l : Label) : List Octet := l.flatMap renderOctet

def render (n : Name) : List Octet :=
  if n.labels.isEmpty then (if n.absolute then [Octet.dot] else [0x40])
  else
    [Octet.dot].intercalate (n.labels.map renderLabel) ++ (if n.absolute then [Octet.dot] else [])

def text (n : Name) : String := Octets.toText n.render

instance : ToString Name := ⟨text⟩

end DnsZone.Name
