import DnsZone.Interchange.Datum
import DnsZone.Node
import DnsZone.Record
import DnsZone.RecordSet

/-!
# Records as structured data

Names and addresses are exchanged as texts, codes, serial numbers and times to live as integers,
octets as lists of integers, record data as a choice named for its form, and records and record sets
as structures. A record set is taken as it is given: records that occur twice in it are not dropped.
-/

namespace DnsZone

open Interchange

/-- A name from a text in presentation format; a tree that is no text has no fault to report. -/
def Name.ofDatum (d : Datum) : Except (Option NameError) Name :=
  match d with
  | .text s => (Name.ofString? s).mapError some
  | _ => .error none

def Name.ofDatum? (d : Datum) : Option Name := (Name.ofDatum d).toOption

def Name.toDatum (n : Name) : Datum := .text n.text

def RecordClass.ofDatum? (d : Datum) : Option RecordClass :=
  (d.nat? (UInt16.size - 1)).map fun n => ⟨UInt16.ofNat n⟩

def RecordClass.toDatum (c : RecordClass) : Datum := .ofNat c.code.toNat

def RecordType.ofDatum? (d : Datum) : Option RecordType :=
  (d.nat? (UInt16.size - 1)).map fun n => ⟨UInt16.ofNat n⟩

def RecordType.toDatum (t : RecordType) : Datum := .ofNat t.code.toNat

def Serial.ofDatum? (d : Datum) : Option Serial :=
  (d.nat? (UInt32.size - 1)).map fun n => ⟨UInt32.ofNat n⟩

def Serial.toDatum (s : Serial) : Datum := .ofNat s.val.toNat

def Ttl.ofDatum? (d : Datum) : Option Ttl :=
  (d.nat? (UInt32.size - 1)).map fun n => ⟨UInt32.ofNat n⟩

def Ttl.toDatum (t : Ttl) : Datum := .ofNat t.secs.toNat

/-- The number of a version from an integer of up to 64 bits. -/
def VersionId.ofDatum? (d : Datum) : Option VersionId :=
  (d.nat? (UInt64.size - 1)).map fun n => ⟨n⟩

def VersionId.toDatum (id : VersionId) : Datum := .ofNat id.val

namespace Soa

def fieldNames : List String :=
  ["mname", "rname", "serial", "refresh", "retry", "expire", "minimum"]

def ofDatum? (d : Datum) : Option Soa := do
  match ← d.structure? fieldNames with
  | [mname, rname, serial, refresh, retry, expire, minimum] =>
      return {
        mname := ← Name.ofDatum? mname
        rname := ← Name.ofDatum? rname
        serial := ← Serial.ofDatum? serial
        refresh := ← Ttl.ofDatum? refresh
        retry := ← Ttl.ofDatum? retry
        expire := ← Ttl.ofDatum? expire
        minimum := ← Ttl.ofDatum? minimum }
  | _ => none

def toDatum (s : Soa) : Datum :=
  .fields <| fieldNames.zip
    [s.mname.toDatum, s.rname.toDatum, s.serial.toDatum, s.refresh.toDatum, s.retry.toDatum,
      s.expire.toDatum, s.minimum.toDatum]

end Soa

namespace RecordData

def ofDatum? (d : Datum) : Option RecordData := do
  let (form, content) ← d.choice?
  match form with
  | "A" => return .a (← Address.V4.parse? (Octets.ofString (← content.text?)))
  | "Aaaa" => return .aaaa (← Address.V6.parse? (Octets.ofString (← content.text?)))
  | "Ns" => return .ns (← Name.ofDatum? content)
  | "Cname" => return .cname (← Name.ofDatum? content)
  | "Mx" =>
      match ← content.structure? ["preference", "exchange"] with
      | [preference, exchange] =>
          return .mx (UInt16.ofNat (← preference.nat? (UInt16.size - 1))) (← Name.ofDatum? exchange)
      | _ => none
  | "Txt" => return .txt (← (← content.list?).mapM Datum.octets?)
  | "Soa" => return .soa (← Soa.ofDatum? content)
  | "Rrsig" =>
      match ← content.structure? ["type_covered", "data"] with
      | [covered, data] => return .rrsig (← RecordType.ofDatum? covered) (← data.octets?)
      | _ => none
  | "Unknown" =>
      match ← content.structure? ["rtype", "data"] with
      | [rtype, data] => return .opaqueData (← RecordType.ofDatum? rtype) (← data.octets?)
      | _ => none
  | _ => none

def toDatum (d : RecordData) : Datum :=
  .fields <| List.singleton <|
    match d with
    | .a addr => ("A", .text addr.text)
    | .aaaa addr => ("Aaaa", .text addr.text)
    | .ns name => ("Ns", name.toDatum)
    | .cname name => ("Cname", name.toDatum)
    | .mx preference exchange =>
        ("Mx",
          .fields [("preference", .ofNat preference.toNat), ("exchange", exchange.toDatum)])
    | .txt strings => ("Txt", .list (strings.map Datum.ofOctets))
    | .soa s => ("Soa", s.toDatum)
    | .rrsig covered data =>
        ("Rrsig", .fields [("type_covered", covered.toDatum), ("data", .ofOctets data)])
    | .opaqueData rtype data =>
        ("Unknown", .fields [("rtype", rtype.toDatum), ("data", .ofOctets data)])

end RecordData

namespace RecordSet

def ofDatum? (d : Datum) : Option RecordSet := do
  match ← d.structure? ["rtype", "covers", "ttl", "data"] with
  | [rtype, covers, ttl, data] =>
      return {
        key := ⟨← RecordType.ofDatum? rtype, ← RecordType.ofDatum? covers⟩
        ttl := ← Ttl.ofDatum? ttl
        data := ← (← data.list?).mapM RecordData.ofDatum? }
  | _ => none

def toDatum (s : RecordSet) : Datum :=
  .fields
    [("rtype", s.key.rtype.toDatum), ("covers", s.key.covers.toDatum), ("ttl", s.ttl.toDatum),
      ("data", .list (s.data.map RecordData.toDatum))]

end RecordSet

namespace Record

def ofDatum? (d : Datum) : Option Record := do
  match ← d.structure? ["owner", "class", "ttl", "data"] with
  | [owner, cls, ttl, data] =>
      return {
        owner := ← Name.ofDatum? owner
        cls := ← RecordClass.ofDatum? cls
        ttl := ← Ttl.ofDatum? ttl
        data := ← RecordData.ofDatum? data }
  | _ => none

def toDatum (r : Record) : Datum :=
  .fields
    [("owner", r.owner.toDatum), ("class", r.cls.toDatum), ("ttl", r.ttl.toDatum),
      ("data", r.data.toDatum)]

end Record

end DnsZone
