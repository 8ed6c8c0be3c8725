import Mtask.Lib.Buffers
import Mtask.Lib.Decimal
import Mtask.Lua.Strings

/-!
# Packets of the resolver

The functions of the resolver that pack a question, and that unpack an answer. The places of a packet
are those of Lua less one. The loop over a name has a bound on its rounds, and is found to be still
running when that is used up.
-/

namespace Mtask.Dns

open Buffers Lua

/-- What ends a function without a result. -/
inductive DnsFault
  | raised (message : String)
  | running
  deriving DecidableEq, Repr

/-! ### Queries -/

/-- `MAX_DOMAIN_LEN` -/
def maxDomainLen : ℕ := 1024

/-- `MAX_LABEL_LEN` -/
def maxLabelLen : ℕ := 63

/-- `DNS_HEADER_LEN` -/
def dnsHeaderLen : ℕ := 12

/-- The dot. -/
def dot : UInt8 := 46

/-- `[_%l%d%-%.]` -/
def isNameChar (c : UInt8) : Bool := c = 95 || 97 ≤ c && c ≤ 122 || isdigit c || c = 45 || c = dot

/-- `[_%w%-]` -/
def isLabelChar (c : UInt8) : Bool := c = 95 || isalnum c || c = 45

/-- What `gmatch` finds with `([_%w%-]+)%.?`: the longest runs of these characters. -/
def labels (name : Bytes) : List Bytes := (name.splitOnP (!isLabelChar ·)).filter (· ≠ [])

/-- `verify_domain_name` -/
def verifyDomainName (name : Bytes) : Bool :=
  name.length ≤ maxDomainLen && name ≠ [] && name.all isNameChar &&
    (labels name).all (·.length ≤ maxLabelLen)

/-- `>H` and `>I4` of `string.pack`, for numbers of `n` bytes. -/
def packUint : ℕ → ℕ → Except DnsFault Bytes
  | n, v =>
    if v < 256 ^ n then .ok ((List.range n).reverse.map fun i => .ofNat (v / 256 ^ i))
    else .error (.raised "unsigned overflow")

/-- `s1` of `string.pack` -/
def packString (s : Bytes) : Except DnsFault Bytes :=
  if s.length < 256 then .ok (.ofNat s.length :: s)
  else .error (.raised "string length does not fit in given size")

/-- `pack_header` for a query. -/
def packHeader (tid : ℕ) : Except DnsFault Bytes := do
  return (← packUint 2 tid) ++ (← packUint 2 0x100) ++ (← packUint 2 1) ++ (← packUint 2 0) ++
    (← packUint 2 0) ++ (← packUint 2 0)

/-- `pack_question` -/
def packQuestion (name : Bytes) (qtype qclass : ℕ) : Except DnsFault Bytes := do
  let labels ← (labels name).mapM packString
  return labels.flatten ++ [0] ++ ((← packUint 2 qtype) ++ (← packUint 2 qclass))

/-! ### Answers -/

/-- The next bytes of a packet. -/
def unpackBytes (chunk : Bytes) (n left : ℕ) : Except DnsFault (Bytes × ℕ) :=
  if chunk.length < left then .error (.raised "initial position out of string")
  else if chunk.length < left + n then .error (.raised "data string too short")
  else .ok (slice chunk left n, left + n)

/-- The number of some bytes. -/
def bigEndian (bytes : Bytes) : ℕ := bytes.foldl (fun v b => v * 256 + b.toNat) 0

/-- `B`, `>H` and `>I4` of `string.unpack`, for numbers of `n` bytes. -/
def unpackUint (chunk : Bytes) (n left : ℕ) : Except DnsFault (ℕ × ℕ) := do
  let (bytes, left) ← unpackBytes chunk n left
  return (bigEndian bytes, left)

/-- `s1` and `s2` of `string.unpack`, for a length of `n` bytes. -/
def unpackString (chunk : Bytes) (n left : ℕ) : Except DnsFault (Bytes × ℕ) := do
  let (len, left) ← unpackUint chunk n left
  unpackBytes chunk len left

/-- The loop of `unpack_name`. -/
def nameLoop (chunk : Bytes) : ℕ → ℕ → List Bytes → Option ℕ → Except DnsFault (Bytes × ℕ)
  | 0, _, _, _ => .error .running
  | fuel + 1, left, t, jumpPointer => do
    let (tag, next) ← unpackUint chunk 1 left
    if tag &&& 0xc0 = 0xc0 then
      let (offset, next) ← unpackUint chunk 2 left
      nameLoop chunk fuel (offset &&& 0x3fff) t (jumpPointer.or (some next))
    else if tag = 0 then return ([dot].intercalate t, jumpPointer.getD next)
    else
      let (label, next) ← unpackString chunk 1 left
      nameLoop chunk fuel next (t ++ [label]) jumpPointer

/-- `unpack_name` -/
def unpackName (fuel : ℕ) (chunk : Bytes) (left : ℕ) : Except DnsFault (Bytes × ℕ) :=
  nameLoop chunk fuel left [] none

/-- The result of `unpack_question`. -/
structure Question where
  name : Bytes
  atype : ℕ
  cls : ℕ
  deriving DecidableEq, Repr

/-- `unpack_question` -/
def unpackQuestion (fuel : ℕ) (chunk : Bytes) (left : ℕ) : Except DnsFault (Question × ℕ) := do
  let (name, left) ← unpackName fuel chunk left
  let (atype, left) ← unpackUint chunk 2 left
  let (cls, left) ← unpackUint chunk 2 left
  return (⟨name, atype, cls⟩, left)

/-- The result of `unpack_answer`. -/
structure Answer extends Question where
  ttl : ℕ
  rdata : Bytes
  deriving DecidableEq, Repr

/-- `unpack_answer` -/
def unpackAnswer (fuel : ℕ) (chunk : Bytes) (left : ℕ) : Except DnsFault (Answer × ℕ) := do
  let (question, left) ← unpackQuestion fuel chunk left
  let (ttl, left) ← unpackUint chunk 4 left
  let (rdata, left) ← unpackString chunk 2 left
  return (⟨question, ttl, rdata⟩, left)

/-- `QTYPE.A` -/
def qtypeA : ℕ := 1

/-- `QTYPE.AAAA` -/
def qtypeAAAA : ℕ := 28

/-- `QCLASS.IN` -/
def qclassIN : ℕ := 1

/-- `%x` of `string.format` -/
def hexText (n : ℕ) : Bytes := (Nat.toDigits 16 n).map fun c => .ofNat c.toNat

/-- The next numbers of a packet, of `n` bytes each. -/
def unpackUints (chunk : Bytes) (n : ℕ) : ℕ → ℕ → Except DnsFault (List ℕ)
  | 0, _ => return []
  | k + 1, left => do
    let (v, left) ← unpackUint chunk n left
    return v :: (← unpackUints chunk n k left)

/-- `unpack_rdata` -/
def unpackRdata (qtype : ℕ) (chunk : Bytes) : Except DnsFault Bytes := do
  if qtype = qtypeA then return [dot].intercalate ((← unpackUints chunk 1 4 0).map Decimal.text)
  else if qtype = qtypeAAAA then return [58].intercalate ((← unpackUints chunk 2 8 0).map hexText)
  else throw (.raised s!"Error qtype {qtype}")

/-- A request of `request_pool`; `co` is the coroutine that waits. -/
structure Request where
  name : Bytes
  qtype : ℕ
  co : ℕ
  deriving DecidableEq, Repr

/-- The loop over the answers of a packet, with the addresses. -/
def answersLoop (fuel : ℕ) (content : Bytes) (qtype : ℕ) : ℕ → ℕ → Except DnsFault (List Bytes)
  | 0, _ => return []
  | n + 1, left => do
    let (answer, left) ← unpackAnswer fuel content left
    if answer.atype = qtype then
      let ip ← unpackRdata qtype answer.rdata
      return ip :: (← answersLoop fuel content qtype n left)
    else answersLoop fuel content qtype n left

/-- What becomes of a packet. -/
inductive Resolved
  | dropped (message : String)
  | woken (tid : ℕ) (answers : List Bytes)
  deriving DecidableEq, Repr

/-- `resolve` -/
def resolve (fuel : ℕ) (pool : ℕ → Option Request) (content : Bytes) : Except DnsFault Resolved := do
  if content.length < dnsHeaderLen then
    return .dropped "Recv an invalid package when dns query"
  let (tid, _) ← unpackUint content 2 0
  let (qdcount, _) ← unpackUint content 2 4
  let (ancount, _) ← unpackUint content 2 6
  if qdcount ≠ 1 then throw (.raised "malformed packet")
  match pool tid with
  | none => return .dropped "Recv an invalid tid when dns query"
  | some resp =>
    let (question, left) ← unpackQuestion fuel content dnsHeaderLen
    if question.name ≠ resp.name then return .dropped "Recv an invalid name when dns query"
    else return .woken tid (← answersLoop fuel content resp.qtype ancount left)

end Mtask.Dns
