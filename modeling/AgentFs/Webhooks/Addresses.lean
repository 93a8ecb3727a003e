import Mathlib.Algebra.Group.Nat.Defs
import Mathlib.Data.List.Infix
import Mathlib.Data.List.TakeWhile
import AgentFs.Lib.Split
import AgentFs.Ops.Content

/-!
# Addresses

The classification of addresses in `egress-guard.ts`: IPv4 and IPv6 literals, and which of
them are private.  `toLowerCase` is the lower case of a string.
-/

namespace AgentFs

/-- The value of a digit in base 16 or below, in either case. -/
def digitValue (c : Char) : Nat :=
  if c.isDigit then c.toNat - '0'.toNat
  else if c.isLower then c.toNat - 'a'.toNat + 10
  else c.toNat - 'A'.toNat + 10

/-- The number that the digits of a text spell. -/
def digitsValue (base : Nat) (digits : Text) : Nat :=
  digits.foldl (fun n c => n * base + digitValue c) 0

def isHexDigit (c : Char) : Bool :=
  c.isDigit || ('a' ≤ c && c ≤ 'f') || ('A' ≤ c && c ≤ 'F')

/-! ### IPv4 -/

/-- An octet in decimal. -/
def parseOctet (part : Text) : Option Nat :=
  if part ≠ [] ∧ part.length ≤ 3 ∧ part.all Char.isDigit ∧ digitsValue 10 part ≤ 255 then
    some (digitsValue 10 part)
  else none

def parseIPv4 (host : Text) : Option Nat :=
  if (host.splitOn '.').length = 4 then
    ((host.splitOn '.').mapM parseOctet).map (fun octets =>
      octets.foldl (fun value octet => value * 256 + octet) 0)
  else none

/-- `BLOCKED_IPV4`: networks with the lengths of their prefixes. -/
def blockedIPv4 : List (String × Nat) :=
  [("0.0.0.0", 8), ("10.0.0.0", 8), ("100.64.0.0", 10), ("127.0.0.0", 8), ("169.254.0.0", 16),
    ("172.16.0.0", 12), ("192.0.0.0", 24), ("192.168.0.0", 16), ("198.18.0.0", 15),
    ("224.0.0.0", 4), ("240.0.0.0", 4)]

/-- The first address of a network, and how many it has. -/
structure AddressRange where
  start : Nat
  size : Nat
  deriving DecidableEq, Repr

def blockedIPv4Ranges : List AddressRange :=
  blockedIPv4.map (fun block =>
    ⟨(parseIPv4 block.1.toList).getD 0, 2 ^ (32 - block.2)⟩)

def isBlockedIPv4Number (value : Nat) : Bool :=
  blockedIPv4Ranges.any (fun range => range.start ≤ value && value < range.start + range.size)

/-! ### IPv6 -/

/-- The text after the last colon. -/
def afterLastColon (host : Text) : Text := (host.reverse.takeWhile (· ≠ ':')).reverse

/-- The text before the last colon. -/
def beforeLastColon (host : Text) : Text :=
  ((host.reverse.dropWhile (· ≠ ':')).drop 1).reverse

/-- `text.split("::")`. -/
def splitDoubleColon : Text → List Text
  | [] => [[]]
  | ':' :: ':' :: text => [] :: splitDoubleColon text
  | c :: text => (splitDoubleColon text).modifyHead (c :: ·)

def parseGroup (group : Text) : Option Nat :=
  if group ≠ [] ∧ group.length ≤ 4 ∧ group.all isHexDigit then some (digitsValue 16 group)
  else none

def toGroups (part : Text) : Option (List Nat) :=
  if part = [] then some [] else (part.splitOn ':').mapM parseGroup

/-- The text of an IPv6 literal without its IPv4 part, and the two groups of that part. -/
def splitIPv4Tail (host : Text) : Option (Text × List Nat) :=
  if '.' ∈ afterLastColon host then
    (parseIPv4 (afterLastColon host)).map (fun v4 =>
      (if (beforeLastColon host).getLast? = some ':' then beforeLastColon host ++ [':']
        else beforeLastColon host,
        [v4 / 65536, v4 % 65536]))
  else some (host, [])

/-- The eight groups of an IPv6 literal. -/
def parseIPv6Groups (host : Text) : Option (List Nat) := do
  let (text, tail) ← splitIPv4Tail host
  match splitDoubleColon text with
  | [only] => do
      let head ← toGroups only
      if head.length + tail.length ≠ 8 then none else pure (head ++ tail)
  | [first, second] => do
      let head ← toGroups first
      let rest ← toGroups second
      let known := head.length + rest.length + tail.length
      if known > 7 then none
      else pure (head ++ List.replicate (8 - known) 0 ++ rest ++ tail)
  | _ => none

/-- IPv6 text, without brackets and zone, to 16 bytes. -/
def parseIPv6 (host : Text) : Option (List Nat) :=
  if ':' ∈ host then
    (parseIPv6Groups host).map (fun groups =>
      groups.flatMap (fun group => [group / 256, group % 256]))
  else none

/-- The byte at an index. -/
def byteAt (bytes : List Nat) (index : Nat) : Nat := bytes.getD index 0

def embeddedIPv4 (bytes : List Nat) (offset : Nat) : Nat :=
  byteAt bytes offset * 2 ^ 24 + byteAt bytes (offset + 1) * 2 ^ 16 +
    byteAt bytes (offset + 2) * 2 ^ 8 + byteAt bytes (offset + 3)

def isBlockedIPv6Bytes (bytes : List Nat) : Bool :=
  let zeroUntil : Nat → Bool := fun stop => (bytes.take stop).all (· = 0)
  let b0 := byteAt bytes 0
  let b1 := byteAt bytes 1
  if zeroUntil 12 then true
  else if zeroUntil 10 ∧ byteAt bytes 10 = 0xff ∧ byteAt bytes 11 = 0xff then
    isBlockedIPv4Number (embeddedIPv4 bytes 12)
  else if b0 = 0x00 ∧ b1 = 0x64 ∧ byteAt bytes 2 = 0xff ∧ byteAt bytes 3 = 0x9b then
    if byteAt bytes 4 = 0 ∧ byteAt bytes 5 = 1 then true
    else isBlockedIPv4Number (embeddedIPv4 bytes 12)
  else if zeroUntil 8 ∧ byteAt bytes 8 = 0xff ∧ byteAt bytes 9 = 0xff ∧ byteAt bytes 10 = 0 ∧
      byteAt bytes 11 = 0 then true
  else if b0 = 0x20 ∧ b1 = 0x01 ∧ byteAt bytes 2 = 0 ∧ byteAt bytes 3 = 0 then true
  else if b0 = 0x20 ∧ b1 = 0x02 then isBlockedIPv4Number (embeddedIPv4 bytes 2)
  else if b0 = 0x01 ∧ b1 = 0x00 ∧ ((bytes.take 8).drop 2).all (· = 0) then true
  else if b0 / 2 = 0xfc / 2 then true
  else if b0 = 0xfe ∧ b1 / 64 = 0x80 / 64 then true
  else if b0 = 0xfe ∧ b1 / 64 = 0xc0 / 64 then true
  else b0 = 0xff

/-! ### Literals -/

/-- A host without the brackets of an IPv6 literal, and without a zone. -/
def stripBrackets (host : Text) : Text :=
  let unbracketed :=
    if host.head? = some '[' ∧ host.getLast? = some ']' then (host.drop 1).dropLast else host
  unbracketed.takeWhile (· ≠ '%')

/-- An address. -/
inductive IpAddress where
  | v4 (value : Nat)
  | v6 (bytes : List Nat)
  deriving DecidableEq, Repr

/-- The address that a literal, in brackets or not, stands for. -/
def ipAddress (host : Text) : Option IpAddress :=
  match parseIPv4 host with
  | some value => some (.v4 value)
  | none => (parseIPv6 (stripBrackets host)).map .v6

def isPrivateAddress (toLowerCase : Text → Text) (address : Text) : Bool :=
  let host := stripBrackets (toLowerCase (trim address))
  match parseIPv4 host with
  | some v4 => isBlockedIPv4Number v4
  | none =>
      match parseIPv6 host with
      | some v6 => isBlockedIPv6Bytes v6
      | none => false

def isIPv4Literal (host : Text) : Bool := (parseIPv4 host).isSome

def isIPv6Literal (host : Text) : Bool := (parseIPv6 (stripBrackets host)).isSome

/-- `host.replace(/\.$/, "")`. -/
def dropTrailingDot (host : Text) : Text :=
  if host.getLast? = some '.' then host.dropLast else host

def isLoopbackName (toLowerCase : Text → Text) (host : Text) : Bool :=
  let name := dropTrailingDot (toLowerCase host)
  name = "localhost".toList || ".localhost".toList <:+ name

theorem ipAddress_isSome (host : Text) :
  (ipAddress host).isSome = (isIPv4Literal host || isIPv6Literal host)
  := by
  unfold ipAddress isIPv4Literal isIPv6Literal
  cases parseIPv4 host with
  | some value => rfl
  | none => simp

/-- An IPv4 literal has digits and dots only. -/
theorem parseIPv4_digits {host : Text} (h : (parseIPv4 host).isSome) {c : Char} (hc : c ∈ host) :
  c.isDigit ∨ c = '.'
  := by
  by_cases hdot : c = '.'
  · exact .inr hdot
  · left
    obtain ⟨value, hvalue⟩ := Option.isSome_iff_exists.mp h
    unfold parseIPv4 at hvalue
    split_ifs at hvalue
    obtain ⟨octets, hoctets, -⟩ := Option.map_eq_some_iff.mp hvalue
    obtain ⟨part, hpart, hc⟩ := List.exists_mem_splitOn hc hdot
    have hsome := List.isSome_of_mapM hoctets hpart
    unfold parseOctet at hsome
    split_ifs at hsome with hdigits
    · exact List.all_eq_true.mp hdigits.2.2.1 c hc
    · cases hsome

theorem mem_of_mem_stripBrackets {host : Text} {c : Char} (hc : c ∈ stripBrackets host) :
  c ∈ host
  := by
  have hc := List.takeWhile_subset _ hc
  split_ifs at hc
  · exact List.mem_of_mem_drop (List.mem_of_mem_dropLast hc)
  · exact hc

/-- No text is a literal of both kinds. -/
theorem parseIPv4_of_isIPv6Literal {host : Text} (h : isIPv6Literal host = true) :
  parseIPv4 host = none
  := by
  by_contra hsome
  unfold isIPv6Literal parseIPv6 at h
  split_ifs at h with hcolon
  · obtain hdigit | hdot := parseIPv4_digits (Option.isSome_iff_ne_none.mpr hsome)
      (mem_of_mem_stripBrackets hcolon)
    · exact absurd hdigit (by decide)
    · exact absurd hdot (by decide)
  · cases h

theorem stripBrackets_brackets {host : Text} (hzone : '%' ∉ host) :
  stripBrackets ("[".toList ++ host ++ "]".toList) = host
  := by
  unfold stripBrackets
  have hends : ("[".toList ++ host ++ "]".toList).head? = some '[' ∧
      ("[".toList ++ host ++ "]".toList).getLast? = some ']' := by
    constructor
    · rfl
    · apply List.getLast?_concat
  dsimp only
  rw [if_pos hends]
  have hinner : (("[".toList ++ host ++ "]".toList).drop 1).dropLast = host := by
    show (host ++ [']']).dropLast = host
    exact List.dropLast_concat
  rw [hinner, List.takeWhile_eq_self_iff]
  intro c hc
  rw [decide_eq_true_iff]
  rintro rfl
  exact hzone hc

/-- IPv4 text without octets that start with a needless zero. -/
def IsIPv4Text (address : Text) : Prop :=
  (parseIPv4 address).isSome ∧
    ∀ part ∈ address.splitOn '.', part.head? = some '0' → part.length = 1

/-- IPv6 text, perhaps with a zone. -/
def IsIPv6Text (address : Text) : Prop :=
  address.head? ≠ some '[' ∧ (parseIPv6 (stripBrackets address)).isSome ∧
    ('.' ∈ stripBrackets address → IsIPv4Text (afterLastColon (stripBrackets address)))

instance (address : Text) : Decidable (IsIPv4Text address) :=
  inferInstanceAs (Decidable (_ ∧ _))

instance (address : Text) : Decidable (IsIPv6Text address) :=
  inferInstanceAs (Decidable (_ ∧ _ ∧ _))

/-- An IP literal, as a resolver returns it. -/
structure IpLiteral where
  text : Text
  literal : IsIPv4Text text ∨ IsIPv6Text text
  deriving DecidableEq

theorem IpLiteral.ipAddress_isSome (address : IpLiteral) :
  (ipAddress address.text).isSome
  := by
  rw [AgentFs.ipAddress_isSome, Bool.or_eq_true]
  obtain ⟨h, -⟩ | ⟨-, h, -⟩ := address.literal
  · exact .inl h
  · exact .inr h

theorem IpLiteral.text_ne_nil (address : IpLiteral) :
  address.text ≠ []
  := by
  intro hnil
  have hsome := address.ipAddress_isSome
  rw [hnil] at hsome
  exact absurd hsome (by decide)

example : isPrivateAddress (·.map Char.toLower) "::FFFF:10.1.2.3".toList = true := by
  decide +kernel

example : isPrivateAddress (·.map Char.toLower) "2606:4700::1111".toList = false := by
  decide +kernel

end AgentFs
