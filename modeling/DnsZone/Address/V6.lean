import DnsZone.Address.V4

/-!
# IPv6 addresses

An IPv6 address has eight groups of 16 bits, written in hexadecimal and separated by colons. In the
canonical form letters are small, leading zeros are left out, and the first of the longest runs of
at least two zero groups is written as `::`. An address that maps an IPv4 address is written as
`::ffff:` and that address in decimal. In a text that is read, `::` stands for at least one zero
group, and the last two groups may be an IPv4 address.
-/

namespace DnsZone.Address

structure V6 where
  /-- The groups, the most significant one first. -/
  groups : List UInt16
  length_groups : groups.length = 8
  deriving DecidableEq

namespace V6

instance : Hashable V6 := ⟨fun addr => hash addr.groups⟩

/-- Joins pairs of octets to groups. -/
def groupsOfOctets : List Octet → List UInt16
  | hi :: lo :: rest => (256 * hi.toUInt16 + lo.toUInt16) :: groupsOfOctets rest
  | _ => []

/-- The address whose octets are given, if there are sixteen of them. -/
def ofOctets? (bs : List Octet) : Option V6 :=
  if bs.length = 16 then
    if h : (groupsOfOctets bs).length = 8 then some ⟨groupsOfOctets bs, h⟩ else none
  else none

def octets (addr : V6) : List Octet :=
  addr.groups.flatMap fun g => [(g / 256).toUInt8, g.toUInt8]

/-- Reads a group of one to four hexadecimal digits off the front of a text. -/
def readGroup? (text : List Octet) : Option (UInt16 × List Octet) :=
  let digits := text.takeWhile fun b => b.hexValue?.isSome
  if digits.isEmpty || digits.length > 4 then none
  else
    some (UInt16.ofNat (digits.foldl (fun n b => 16 * n + b.hexValue?.getD 0) 0),
      text.drop digits.length)

structure Groups where
  /-- The groups. -/
  groups : List UInt16
  endsInV4 : Bool
  rest : List Octet

/-- Reads up to `room` groups separated by colons off the front of a text, the last two of which may
be an IPv4 address. A colon stands before the first group unless `first` holds. -/
def readGroups (room : Nat) (first : Bool) (text : List Octet) : Groups :=
  match room with
  | 0 => ⟨[], false, text⟩
  | room + 1 =>
      match if first then some text else skip? Octet.colon text with
      | none => ⟨[], false, text⟩
      | some here =>
          match if room = 0 then none else V4.read? here with
          | some (v4, rest) => ⟨groupsOfOctets [v4.a, v4.b, v4.c, v4.d], true, rest⟩
          | none =>
              match readGroup? here with
              | none => ⟨[], false, text⟩
              | some (g, rest) =>
                  let more := readGroups room false rest
                  ⟨g :: more.groups, more.endsInV4, more.rest⟩

/-- The groups of the address that makes up a whole text. -/
def parseGroups? (text : List Octet) : Option (List UInt16) := do
  let head := readGroups 8 true text
  if head.groups.length = 8 then
    if head.rest.isEmpty then return head.groups else none
  else if head.endsInV4 then none
  else
    let rest ← skip? Octet.colon (← skip? Octet.colon head.rest)
    let tail := readGroups (7 - head.groups.length) true rest
    if tail.rest.isEmpty then
      return head.groups ++ List.replicate (8 - head.groups.length - tail.groups.length) 0 ++
        tail.groups
    else none

def parse? (text : List Octet) : Option V6 :=
  match parseGroups? text with
  | some groups => if h : groups.length = 8 then some ⟨groups, h⟩ else none
  | none => none

def renderHex (n : Nat) : List Octet :=
  if n < 16 then [Octet.ofHexDigit n] else renderHex (n / 16) ++ [Octet.ofHexDigit (n % 16)]

def renderGroups (groups : List UInt16) : List Octet :=
  [Octet.colon].intercalate (groups.map fun g => renderHex g.toNat)

def zeroRun (groups : List UInt16) : Nat := (groups.takeWhile (· == 0)).length

/-- Position and length of the first of the longest runs of zero groups. -/
def longestZeroRun (groups : List UInt16) : Nat × Nat :=
  ((List.range groups.length).map fun i => (i, zeroRun (groups.drop i))).foldl
    (fun best run => if run.2 > best.2 then run else best) (0, 0)

/-- The IPv4 address that an address maps: five zero groups and `ffff` stand before it. -/
def mapped? (addr : V6) : Option V4 :=
  match addr.octets with
  | [0, 0, 0, 0, 0, 0, 0, 0, 0, 0, 0xFF, 0xFF, a, b, c, d] => some ⟨a, b, c, d⟩
  | _ => none

/-- An address in canonical form. -/
def render (addr : V6) : List Octet :=
  match addr.mapped? with
  | some v4 => Octets.ofString "::ffff:" ++ v4.render
  | none =>
      let run := longestZeroRun addr.groups
      if run.2 > 1 then
        renderGroups (addr.groups.take run.1) ++ [Octet.colon, Octet.colon] ++
          renderGroups (addr.groups.drop (run.1 + run.2))
      else renderGroups addr.groups

def text (addr : V6) : String := Octets.toText addr.render

end V6

end DnsZone.Address
