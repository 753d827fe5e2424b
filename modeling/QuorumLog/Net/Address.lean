import QuorumLog.Text.Decimal

/-! Socket addresses: an IPv4 or IPv6 address with a port. An IPv6 address is written in lower-case
groups with its first longest run of zero groups left out, an IPv4-mapped one with its last two
groups in dotted form, and reading accepts every usual spelling. -/

namespace QuorumLog

/-- Four octets. -/
structure Ipv4 where
  a : UInt8
  b : UInt8
  c : UInt8
  d : UInt8
deriving DecidableEq, Repr, Inhabited

/-- Eight groups of 16 bits. -/
structure Ipv6 where
  /-- The groups, the most significant first. -/
  groups : List UInt16
  length_groups : groups.length = 8
deriving DecidableEq, Repr

/-- Where a connection is made to or bound. -/
inductive SocketAddress where
  | v4 (ip : Ipv4) (port : UInt16)
  | v6 (ip : Ipv6) (zone : UInt32) (port : UInt16)
deriving DecidableEq, Repr

instance : Inhabited SocketAddress := ⟨.v4 default 0⟩

/-- A step of reading: the value found at the front and what follows it. -/
abbrev Scan (α : Type) := List Char → Option (α × List Char)

namespace Scan

/-- Passes one given character. -/
def char (c : Char) : Scan Unit
  | [] => none
  | d :: rest => if c = d then some ((), rest) else none

def digit? (radix : Nat) (c : Char) : Option Nat :=
  let value? :=
    if '0' ≤ c ∧ c ≤ '9' then some (c.toNat - 48)
    else if 'a' ≤ c ∧ c ≤ 'f' then some (c.toNat - 87)
    else if 'A' ≤ c ∧ c ≤ 'F' then some (c.toNat - 55)
    else none
  value?.filter (· < radix)

/-- The digits at the front of a text, as values. -/
def digits (radix : Nat) : List Char → List Nat × List Char
  | [] => ([], [])
  | c :: rest =>
    match digit? radix c with
    | none => ([], c :: rest)
    | some d => (d :: (digits radix rest).1, (digits radix rest).2)

/-- A number below `bound` of at least one digit and at most `most?` digits; several digits may
start with a zero only if `padded`. -/
def number (radix : Nat) (most? : Option Nat) (padded : Bool) (bound : Nat) : Scan Nat := fun cs =>
  let (ds, rest) := digits radix cs
  let value := ds.foldl (fun n d => radix * n + d) 0
  if ds.isEmpty || most?.any (· < ds.length) || (!padded && ds.head? = some 0 && 1 < ds.length)
      || bound ≤ value then none
  else some (value, rest)

end Scan

namespace Ipv4

def octet : Scan UInt8 := fun cs =>
  (Scan.number 10 (some 3) false 256 cs).map fun (n, rest) => (UInt8.ofNat n, rest)

def scan : Scan Ipv4 := fun cs => do
  let (a, cs) ← octet cs
  let (_, cs) ← Scan.char '.' cs
  let (b, cs) ← octet cs
  let (_, cs) ← Scan.char '.' cs
  let (c, cs) ← octet cs
  let (_, cs) ← Scan.char '.' cs
  let (d, cs) ← octet cs
  some (⟨a, b, c, d⟩, cs)

def render (ip : Ipv4) : List Char :=
  let part (octet : UInt8) := Decimal.digits octet.toNat
  part ip.a ++ '.' :: part ip.b ++ '.' :: part ip.c ++ '.' :: part ip.d

/-- The address as the last two groups of an IPv6 address. -/
def groups (ip : Ipv4) : List UInt16 :=
  [ip.a.toUInt16 * 256 + ip.b.toUInt16, ip.c.toUInt16 * 256 + ip.d.toUInt16]

end Ipv4

namespace Ipv6

def ofGroups? (groups : List UInt16) : Option Ipv6 :=
  if h : groups.length = 8 then some ⟨groups, h⟩ else none

def group : Scan UInt16 := fun cs =>
  (Scan.number 16 (some 4) true 65536 cs).map fun (n, rest) => (UInt16.ofNat n, rest)

/-- Reads at most `room` groups between colons, as far as they go. A dotted IPv4 address may stand
for the last two groups and ends the run; the flag tells whether one did. -/
def run : (room : Nat) → (first : Bool) → List Char → List UInt16 × Bool × List Char
  | 0, _, cs => ([], false, cs)
  | room + 1, first, cs =>
    match if first then some ((), cs) else Scan.char ':' cs with
    | none => ([], false, cs)
    | some (_, body) =>
      match if room = 0 then none else Ipv4.scan body with
      | some (ip, rest) => (ip.groups, true, rest)
      | none =>
        match group body with
        | none => ([], false, cs)
        | some (g, rest) =>
          let (gs, dotted, rest) := run room false rest
          (g :: gs, dotted, rest)

/-- Reads eight groups, or fewer around one double colon that stands for at least one zero group. -/
def scan : Scan Ipv6 := fun cs =>
  let (head, dotted, rest) := run 8 true cs
  if head.length = 8 then (ofGroups? head).map (·, rest)
  else if dotted then none
  else do
    let (_, rest) ← Scan.char ':' rest
    let (_, rest) ← Scan.char ':' rest
    let (tail, _, rest) := run (7 - head.length) true rest
    let zeros := List.replicate (8 - head.length - tail.length) 0
    (ofGroups? (head ++ zeros ++ tail)).map (·, rest)

/-- The IPv4 address that the last two groups hold, if the address is an IPv4-mapped one. -/
def mapped? (ip : Ipv6) : Option Ipv4 :=
  match ip.groups with
  | [0, 0, 0, 0, 0, 0xFFFF, high, low] =>
    some ⟨(high / 256).toUInt8, high.toUInt8, (low / 256).toUInt8, low.toUInt8⟩
  | _ => none

def zeros (groups : List UInt16) : Nat :=
  (groups.takeWhile (· = 0)).length

/-- Where the first longest run of zero groups starts, and its length. -/
def longestZeros (groups : List UInt16) : Nat × Nat :=
  (List.range groups.length).foldl (fun (best : Nat × Nat) start =>
    if best.2 < zeros (groups.drop start) then (start, zeros (groups.drop start)) else best) (0, 0)

def joined (groups : List UInt16) : List Char :=
  [':'].intercalate (groups.map fun g => Nat.toDigits 16 g.toNat)

/-- The address in its short form; a single zero group is written out. -/
def render (ip : Ipv6) : List Char :=
  match ip.mapped? with
  | some inner => "::ffff:".toList ++ inner.render
  | none =>
    let (start, length) := longestZeros ip.groups
    if length ≤ 1 then joined ip.groups
    else joined (ip.groups.take start) ++ "::".toList ++ joined (ip.groups.drop (start + length))

end Ipv6

namespace SocketAddress

def port : SocketAddress → UInt16
  | v4 _ port => port
  | v6 _ _ port => port

def withPort (port : UInt16) : SocketAddress → SocketAddress
  | v4 ip _ => v4 ip port
  | v6 ip zone _ => v6 ip zone port

def scanPort : Scan UInt16 := fun cs => do
  let (_, cs) ← Scan.char ':' cs
  let (n, cs) ← Scan.number 10 none true 65536 cs
  some (UInt16.ofNat n, cs)

def scanV4 : Scan SocketAddress := fun cs => do
  let (ip, cs) ← Ipv4.scan cs
  let (port, cs) ← scanPort cs
  some (v4 ip port, cs)

def scanZone : Scan UInt32 := fun cs =>
  match Scan.char '%' cs with
  | none => some (0, cs)
  | some (_, rest) =>
    match Scan.number 10 none true UInt32.size rest with
    | none => some (0, cs)
    | some (n, rest) => some (UInt32.ofNat n, rest)

def scanV6 : Scan SocketAddress := fun cs => do
  let (_, cs) ← Scan.char '[' cs
  let (ip, cs) ← Ipv6.scan cs
  let (zone, cs) ← scanZone cs
  let (_, cs) ← Scan.char ']' cs
  let (port, cs) ← scanPort cs
  some (v6 ip zone port, cs)

/-- The address that the whole text spells. -/
def read? (text : String) : Option SocketAddress :=
  match (scanV4 text.toList).orElse fun _ => scanV6 text.toList with
  | some (address, []) => some address
  | _ => none

def render (address : SocketAddress) : String :=
  String.ofList <|
    match address with
    | v4 ip port => ip.render ++ ':' :: Decimal.digits port.toNat
    | v6 ip zone port =>
      let suffix := if zone = 0 then [] else '%' :: Decimal.digits zone.toNat
      '[' :: ip.render ++ suffix ++ ']' :: ':' :: Decimal.digits port.toNat

end SocketAddress

end QuorumLog
