import DnsZone.Name.Text
import DnsZone.RecordData.Basic

/-!
# Record data as text

The text of record data as it stands in a zone listing: addresses in canonical form, names in
presentation format, character strings in double quotes, and opaque data by its length and its
octets in hexadecimal.
-/

namespace DnsZone

/-- An octet of a character string: tabs, line ends, quotes and backslashes by a backslash and a
letter or themselves, other octets that are not visible ASCII or blank in hexadecimal. -/
def Octet.quoted (b : Octet) : List Octet :=
  if b = 0x09 then [Octet.backslash, 0x74]
  else if b = 0x0D then [Octet.backslash, 0x72]
  else if b = 0x0A then [Octet.backslash, 0x6E]
  else if b = 0x27 || b = Octet.quote || b = Octet.backslash then [Octet.backslash, b]
  else if b.isGraphic || b = Octet.space then [b]
  else [Octet.backslash, 0x78] ++ b.hexPair

def Octets.quotedText (bs : List Octet) : String :=
  "\"" ++ Octets.toText (bs.flatMap Octet.quoted) ++ "\""

def Soa.text (soa : Soa) : String :=
  " ".intercalate
    [soa.mname.text, soa.rname.text, soa.serial.text, soa.refresh.text, soa.retry.text,
      soa.expire.text, soa.minimum.text]

namespace RecordData

/-- The mark and the length that stand before opaque data. -/
def opaqueHead (data : List Octet) : String := "\\# " ++ Numeral.text data.length

def text : RecordData → String
  | .a addr => addr.text
  | .aaaa addr => addr.text
  | .ns name => name.text
  | .cname name => name.text
  | .mx preference exchange => Numeral.text preference.toNat ++ " " ++ exchange.text
  | .txt strings => " ".intercalate (strings.map Octets.quotedText)
  | .soa s => s.text
  | .rrsig covered data => covered.text ++ " " ++ opaqueHead data
  | .opaqueData _ data =>
      opaqueHead data ++ Octets.toText (data.flatMap fun b => Octet.space :: b.hexPair)

instance : ToString RecordData := ⟨text⟩

end RecordData

end DnsZone
