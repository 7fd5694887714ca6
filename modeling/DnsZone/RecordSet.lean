import DnsZone.RecordData.Text

/-!
# Record sets

The records of one type at one owner name form a set: a record that is already present is not added
again. The set is known by its key, that is, its type and, for signatures, the type they cover, and
its records share one time to live. The order in which records were added is kept.
-/

namespace DnsZone

/-- A set of records of one type. -/
structure RecordSet where
  key : SetKey
  ttl : Ttl
  /-- The data of the records in the order in which they were added. -/
  data : List RecordData
  deriving BEq, Inhabited

namespace RecordSet

def empty (key : SetKey) (ttl : Ttl) : RecordSet := ⟨key, ttl, []⟩

/-- The set of one record, with the key that its data asks for. -/
def single (ttl : Ttl) (d : RecordData) : RecordSet := ⟨d.key, ttl, [d]⟩

def size (s : RecordSet) : Nat := s.data.length

def isEmpty (s : RecordSet) : Bool := s.data.isEmpty

def first? (s : RecordSet) : Option RecordData := s.data.head?

/-- Whether the set is known by `key`. -/
def hasKey (s : RecordSet) (key : SetKey) : Bool := s.key = key

/-- Whether every record of `other` is part of the set. -/
def containsAll (s other : RecordSet) : Bool := other.data.all s.data.contains

def limitTtl (s : RecordSet) (ttl : Ttl) : RecordSet := { s with ttl := s.ttl.shorter ttl }

/-- The set with a record added at the end, unless it is present. -/
def push (s : RecordSet) (d : RecordData) : RecordSet :=
  if s.data.contains d then s else { s with data := s.data ++ [d] }

/-- The set with the records of `other` added. An empty set takes over the time to live of `other`;
otherwise the shorter one is kept. -/
def union (s other : RecordSet) : RecordSet :=
  other.data.foldl push (if s.isEmpty then { s with ttl := other.ttl } else s.limitTtl other.ttl)

def difference (s other : RecordSet) : RecordSet :=
  { s with data := s.data.filter fun d => !other.data.contains d }

/-- The serial number of the first record, if that is a start of authority. -/
def soaSerial? (s : RecordSet) : Option Serial := (s.first?.bind RecordData.soa?).map (·.serial)

def text (s : RecordSet) : String :=
  "\n".intercalate (s.data.map fun d => " ".intercalate [s.ttl.text, s.key.rtype.text, d.text])

instance : ToString RecordSet := ⟨text⟩

end RecordSet

end DnsZone
