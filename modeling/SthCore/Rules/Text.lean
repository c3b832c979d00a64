import SthCore.Storage.Store

/-!
The character classes and text scans the transaction rules are written with.
-/

namespace SthCore

namespace Text

/-- `char::is_control`: the Unicode category Cc. -/
def isControl (c : Char) : Bool :=
  c.toNat < 0x20 || (0x7f ≤ c.toNat && c.toNat ≤ 0x9f)

/-- `char::is_whitespace`: the Unicode property White_Space. -/
def isWhitespace (c : Char) : Bool :=
  let n := c.toNat
  (9 ≤ n && n ≤ 13) || n = 0x20 || n = 0x85 || n = 0xa0 || n = 0x1680 ||
    (0x2000 ≤ n && n ≤ 0x200a) || n = 0x2028 || n = 0x2029 || n = 0x202f || n = 0x205f ||
    n = 0x3000

/-- `char::is_ascii_hexdigit`. -/
def isHexDigit (c : Char) : Bool :=
  c.isDigit || ('a' ≤ c && c ≤ 'f') || ('A' ≤ c && c ≤ 'F')

/-- `char::is_ascii_alphanumeric`. -/
def isAlphanumeric (c : Char) : Bool :=
  c.isDigit || ('a' ≤ c && c ≤ 'z') || ('A' ≤ c && c ≤ 'Z')

def isUpperOrDigit (c : Char) : Bool :=
  c.isDigit || ('A' ≤ c && c ≤ 'Z')

/-- Exactly 64 hexadecimal digits: the shape of a transaction id. -/
def isId (text : Text) : Bool :=
  text.utf8ByteSize = 64 && text.toList.all isHexDigit

def contains (text part : List Char) : Bool :=
  text.tails.any fun t => part.isPrefixOf t

/-- `split_once`: before and after the first `sep`. -/
def splitOnce (sep : Char) (text : List Char) : Option (List Char × List Char) :=
  let before := text.takeWhile (· ≠ sep)
  if before.length < text.length then some (before, text.drop (before.length + 1)) else none

/-- `str::parse::<u32>`. -/
def parseU32 (text : List Char) : Option UInt32 :=
  let digits := match text with
    | '+' :: rest => rest
    | chars => chars
  if digits.isEmpty || !digits.all Char.isDigit then none
  else
    let value := digits.foldl (fun n c => 10 * n + (c.toNat - 48)) 0
    if value < 2 ^ 32 then some (UInt32.ofNat value) else none

end Text

namespace Rules

/-- `ticker_ok`: the names under which tokens are registered. -/
def tickerOk (name : Text) : Bool :=
  3 ≤ name.utf8ByteSize && name.utf8ByteSize ≤ 10 && name.toList.all Text.isUpperOrDigit

def serviceRoles : List Text := ["relay", "seeder", "messenger", "microblog", "provider"]

/-- Parsed data of a service node: endpoint, roles, api, storage. -/
structure ServiceNode where
  endpoint : Text
  roles : List Text := []
  api : Option Text := none
  storage : Option UInt32 := none
  deriving DecidableEq

/-- One `key=value` pair of the query part. -/
def serviceNodeField (node : ServiceNode) (field : List Char) : Option ServiceNode := do
  let (key, value) ← Text.splitOnce '=' field
  if key = "roles".toList then
    let roles := (value.splitOn ',').filter fun r => !r.isEmpty
    return { node with roles := roles.map fun r => (Text.mk r).toLower }
  else if key = "api".toList then return { node with api := some (Text.mk value) }
  else if key = "storage".toList then
    return { node with storage := some (← Text.parseU32 value) }
  else none

/-- `parse_service_node`. -/
def parseServiceNode (data : Text) : Option ServiceNode := do
  let chars := data.toList
  let scheme := "iroh://".toList
  if !scheme.isPrefixOf chars then none
  let rest := chars.drop scheme.length
  let (id, query) := (Text.splitOnce '?' rest).getD (rest, [])
  let endpoint := Text.mk id
  if !Text.isId endpoint then none
  let fields := (query.splitOn '&').filter fun f => !f.isEmpty
  let node ← fields.foldlM serviceNodeField { endpoint := endpoint.toLower }
  if node.roles.isEmpty || node.roles.any fun r => !serviceRoles.contains r then none
  return node

/-- `sobj::static_fee`. -/
def sobjStaticFee : SobjAction → UInt64
  | .register => 5000000000
  | .update => 500000000
  | .resign => 500000000
  | .transfer => 500000000
  | .sell => 100000000
  | .buy => 100000000

/-- `pq_surcharge`: what a version-3 transaction owes for its signature blocks. -/
def pqSurcharge (tx : Transaction) (feePerByte : UInt64) : UInt64 :=
  if !tx.isPq then 0
  else satMul feePerByte
    ((tx.pqBlocks.map fun b => 3 + UInt64.ofNat (b.signature.utf8ByteSize / 2)).sum)

end Rules

end SthCore
