import SthCore.Lib.Text

/-!
Socket addresses in text, as the standard library reads them: every reader takes
characters from the front, and a reader that fails takes none.
-/

namespace SthCore

namespace P2p

/-- Reading from the front of a text; the state is what remains. -/
abbrev Scan (α : Type) := StateT (List Char) Option α

namespace Scan

def char (c : Char) : Scan Unit := fun text =>
  match text with
  | [] => none
  | d :: rest => if d = c then some ((), rest) else none

/-- `to_digit`, for the radices up to 36. -/
def toDigit (radix : Nat) (c : Char) : Option Nat :=
  let value :=
    if '0' ≤ c ∧ c ≤ '9' then c.toNat - '0'.toNat
    else if 'a' ≤ c ∧ c ≤ 'z' then c.toNat - 'a'.toNat + 10
    else if 'A' ≤ c ∧ c ≤ 'Z' then c.toNat - 'A'.toNat + 10
    else radix
  if value < radix then some value else none

/-- The digits in front, and what follows them. -/
def digits (radix : Nat) : List Char → List Nat × List Char
  | [] => ([], [])
  | c :: rest =>
      match toDigit radix c with
      | none => ([], c :: rest)
      | some d =>
          let (found, rest) := digits radix rest
          (d :: found, rest)

/-- `read_number` of a type with `bound` values. -/
def number (radix bound : Nat) (maxDigits : Option Nat) (allowZeroPrefix : Bool) : Scan Nat :=
  fun text =>
    let (found, rest) := digits radix text
    let value := found.foldl (fun n d => n * radix + d) 0
    if found = [] then none
    else if maxDigits.any (· < found.length) then none
    else if !allowZeroPrefix && found.head? == some 0 && 1 < found.length then none
    else if value < bound then some (value, rest)
    else none

/-- `read_separator`: the separator stands in front of all parts but the first. -/
def separated {α : Type} (sep : Char) (index : Nat) (inner : Scan α) : Scan α := do
  if 0 < index then char sep
  inner

end Scan

open Scan

structure Ipv4Addr where
  a : Nat
  b : Nat
  c : Nat
  d : Nat
  deriving DecidableEq

inductive IpAddr
  | v4 (address : Ipv4Addr)
  | v6 (segments : List Nat)
  deriving DecidableEq

structure SocketAddr where
  ip : IpAddr
  port : Nat
  scopeId : Nat := 0
  deriving DecidableEq

def readIpv4Addr : Scan Ipv4Addr := do
  let octet (index : Nat) := separated '.' index (number 10 256 (some 3) false)
  let a ← octet 0
  let b ← octet 1
  let c ← octet 2
  let d ← octet 3
  return ⟨a, b, c, d⟩

/-- `read_groups` from a group on: the groups that could be read, and whether the last two of
them are an embedded IPv4 address. -/
def readGroups (limit : Nat) : Nat → Nat → Scan (List Nat × Bool)
  | 0, _ => return ([], false)
  | left + 1, i => do
      match ← optional (if i < limit - 1 then separated ':' i readIpv4Addr else failure) with
      | some v4 => return ([v4.a * 256 + v4.b, v4.c * 256 + v4.d], true)
      | none =>
          match ← optional (separated ':' i (number 16 65536 (some 4) true)) with
          | none => return ([], false)
          | some group =>
              let (groups, v4) ← readGroups limit left (i + 1)
              return (group :: groups, v4)

def readIpv6Addr : Scan (List Nat) := do
  let (head, headIpv4) ← readGroups 8 8 0
  if head.length = 8 then return head
  -- an IPv4 part is not allowed before the two colons
  if headIpv4 then failure
  char ':'
  char ':'
  let limit := 8 - (head.length + 1)
  let (tail, _) ← readGroups limit limit 0
  return head ++ List.replicate (8 - head.length - tail.length) 0 ++ tail

def readPort : Scan Nat := do
  char ':'
  number 10 65536 none true

def readScopeId : Scan Nat := do
  char '%'
  number 10 (2 ^ 32) none true

def readSocketAddrV4 : Scan SocketAddr := do
  let ip ← readIpv4Addr
  let port ← readPort
  return ⟨.v4 ip, port, 0⟩

def readSocketAddrV6 : Scan SocketAddr := do
  char '['
  let ip ← readIpv6Addr
  let scopeId ← optional readScopeId
  char ']'
  let port ← readPort
  return ⟨.v6 ip, port, scopeId.getD 0⟩

def parseSocketAddr (text : Text) : Option SocketAddr :=
  match (readSocketAddrV4 <|> readSocketAddrV6) text.toList with
  | some (addr, []) => some addr
  | _ => none

/-- `is_public`: no private, loopback, link-local, unspecified, broadcast, documentation or
shared range. -/
def isPublic : IpAddr → Bool
  | .v4 ip =>
      !(ip.a == 10 || ip.a == 172 && 16 ≤ ip.b && ip.b < 32 || ip.a == 192 && ip.b == 168
        || ip.a == 127 || ip.a == 169 && ip.b == 254 || ip == ⟨0, 0, 0, 0⟩
        || ip == ⟨255, 255, 255, 255⟩ || ip.a == 192 && ip.b == 0 && ip.c == 2
        || ip.a == 198 && ip.b == 51 && ip.c == 100 || ip.a == 203 && ip.b == 0 && ip.c == 113
        || ip.a == 100 && 64 ≤ ip.b && ip.b < 128)
  | .v6 segments =>
      let s := segments.headD 0
      !(segments == [0, 0, 0, 0, 0, 0, 0, 1] || segments == [0, 0, 0, 0, 0, 0, 0, 0]
        || s &&& 0xfe00 == 0xfc00 || s &&& 0xffc0 == 0xfe80)

/-- Whether a text is a socket address that can be reached from outside. -/
def isPublicAddr (text : Text) : Bool :=
  (parseSocketAddr text).any fun addr => isPublic addr.ip

example : isPublicAddr "[2a01::1:1.2.3.4%5]:4001" = true := by decide +kernel

end P2p

end SthCore
