import DnsZone.RecordClass
import DnsZone.RecordData.Text

/-!
# Records

A record as producers of zone data hand it over, a zone file or a zone transfer for instance, before
it becomes part of a record set.
-/

namespace DnsZone

structure Record where
  owner : Name
  cls : RecordClass
  ttl : Ttl
  data : RecordData
  deriving BEq, Hashable

namespace Record

def rtype (r : Record) : RecordType := r.data.rtype

/-- The record as a line of a zone listing. -/
def text (r : Record) : String :=
  " ".intercalate [r.owner.text, r.ttl.text, r.cls.text, r.rtype.text, r.data.text]

instance : ToString Record := ⟨text⟩

end Record

end DnsZone
