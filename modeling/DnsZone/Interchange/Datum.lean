import DnsZone.Octet

/-!
# Structured data

The form in which records are exchanged with other programs is a tree of numbers, texts, lists and
named fields. This module holds such trees and how their basic shapes are read: numbers up to a
bound, lists, and the fields of a structure, which may also be given as a list in the order of the
fields.
-/

namespace DnsZone.Interchange

/-- A tree of data. -/
inductive Datum where
  | null
  | bool (b : Bool)
  | int (i : Int)
  /-- A number that is not written as an integer. -/
  | fraction
  | text (s : String)
  | list (l : List Datum)
  | fields (l : List (String × Datum))
  deriving Inhabited

namespace Datum

/-- The integer from zero to `limit` that the tree is. -/
def nat? (limit : Nat) : Datum → Option Nat
  | .int i => if 0 ≤ i && i.toNat ≤ limit then some i.toNat else none
  | _ => none

def text? : Datum → Option String
  | .text s => some s
  | _ => none

def list? : Datum → Option (List Datum)
  | .list l => some l
  | _ => none

def field? (name : String) (l : List (String × Datum)) : Option Datum :=
  (l.find? fun e => e.1 == name).map (·.2)

/-- The fields of a structure in the order of `names`, none of which may be missing. Other fields
are skipped; a list has to have exactly the elements of the structure. -/
def structure? (names : List String) : Datum → Option (List Datum)
  | .fields l => names.mapM fun name => field? name l
  | .list l => if l.length = names.length then some l else none
  | _ => none

/-- The single field of a choice: its name says which alternative the data is. -/
def choice? : Datum → Option (String × Datum)
  | .fields [e] => some e
  | _ => none

/-- The octets that the tree is, as a list of integers or as a text in UTF-8. -/
def octets? : Datum → Option (List Octet)
  | .list l => l.mapM fun d => (d.nat? (UInt8.size - 1)).map UInt8.ofNat
  | .text s => some (Octets.ofString s)
  | _ => none

def ofNat (n : Nat) : Datum := .int n

def ofOctets (bs : List Octet) : Datum := .list (bs.map fun b => .ofNat b.toNat)

end Datum

end DnsZone.Interchange
