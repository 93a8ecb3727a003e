import Mathlib.Algebra.GroupWithZero.Nat
import AgentFs.Lib.Split
import AgentFs.Paths

/-!
# File contents

The text side of the file operations: encoding and decoding as `TextEncoder` and
`TextDecoder` do it, the string functions `edit` uses, and the content type that
`mime.ts` reads off a path.
-/

namespace AgentFs

/-! ### Encoding and decoding -/

/-- `new TextEncoder().encode(text)`. -/
def textEncode (text : Text) : Bytes :=
  text.flatMap String.utf8EncodeChar

/-- The state of the UTF-8 decoder between two bytes: how many bytes of the current
character are missing, the bounds on the next byte, and the bits read so far. -/
structure Utf8State where
  needed : Nat
  lower : Nat
  upper : Nat
  codePoint : Nat
  deriving DecidableEq, Repr

/-- The decoder between two characters. -/
def Utf8State.start : Utf8State := ⟨0, 0x80, 0xBF, 0⟩

/-- U+FFFD, which stands for malformed input. -/
def replacementChar : Char := Char.ofNat 0xFFFD

/-- Decode the first byte of a character. -/
def decodeFirst (b : Nat) : Text × Utf8State :=
  if b ≤ 0x7F then ([Char.ofNat b], .start)
  else if 0xC2 ≤ b ∧ b ≤ 0xDF then ([], ⟨1, 0x80, 0xBF, b % 0x20⟩)
  else if 0xE0 ≤ b ∧ b ≤ 0xEF then
    ([], ⟨2, if b = 0xE0 then 0xA0 else 0x80, if b = 0xED then 0x9F else 0xBF, b % 0x10⟩)
  else if 0xF0 ≤ b ∧ b ≤ 0xF4 then
    ([], ⟨3, if b = 0xF0 then 0x90 else 0x80, if b = 0xF4 then 0x8F else 0xBF, b % 0x08⟩)
  else ([replacementChar], .start)

/-- Decode one byte.  A byte that cannot continue the current character ends it as
malformed and is then decoded as a first byte. -/
def decodeByte (st : Utf8State) (b : Nat) : Text × Utf8State :=
  if st.needed = 0 then decodeFirst b
  else if b < st.lower ∨ st.upper < b then
    let (out, st') := decodeFirst b
    (replacementChar :: out, st')
  else
    let codePoint := st.codePoint * 0x40 + b % 0x40
    if st.needed = 1 then ([Char.ofNat codePoint], .start)
    else ([], ⟨st.needed - 1, 0x80, 0xBF, codePoint⟩)

/-- Decode the bytes from a state of the decoder on. -/
def decodeFrom : Utf8State → Bytes → Text
  | st, [] => if st.needed = 0 then [] else [replacementChar]
  | st, b :: bytes =>
      let (out, st') := decodeByte st b.toNat
      out ++ decodeFrom st' bytes

/-- `new TextDecoder().decode(bytes)`: malformed input is replaced, a byte order mark at
the start is dropped. -/
def textDecode : Bytes → Text
  | 0xEF :: 0xBB :: 0xBF :: bytes => decodeFrom .start bytes
  | bytes => decodeFrom .start bytes

/-! ### String functions -/

/-- The white space and line ends that `trim` removes. -/
def IsWhiteSpace (c : Char) : Prop :=
  (9 ≤ c.toNat ∧ c.toNat ≤ 13) ∨ (0x2000 ≤ c.toNat ∧ c.toNat ≤ 0x200A) ∨
    c.toNat ∈ [0x20, 0xA0, 0x1680, 0x2028, 0x2029, 0x202F, 0x205F, 0x3000, 0xFEFF]

instance (c : Char) : Decidable (IsWhiteSpace c) :=
  inferInstanceAs (Decidable (_ ∨ _))

/-- `text.trim()`. -/
def trim (text : Text) : Text :=
  ((text.dropWhile (fun c => IsWhiteSpace c)).reverse.dropWhile
    (fun c => IsWhiteSpace c)).reverse

theorem mem_of_mem_trim {c : Char} {text : Text} (h : c ∈ trim text) :
  c ∈ text
  := by
  unfold trim at h
  have hleft := (List.dropWhile_sublist _).mem (List.mem_reverse.mp h)
  exact (List.dropWhile_sublist _).mem (List.mem_reverse.mp hleft)

/-- The text of a number. -/
def decimal (n : Nat) : Text := Nat.toDigits 10 n

theorem isDigit_of_mem_decimal {n : Nat} {c : Char} (hc : c ∈ decimal n) :
  c.isDigit = true
  := Nat.isDigit_of_mem_toDigits (by decide) (by decide) hc

theorem decimal_injective {m n : Nat} (h : decimal m = decimal n) :
  m = n
  := by
  have hvalue := congrArg (fun digits => Nat.ofDigitChars 10 digits 0) h
  unfold decimal at hvalue
  simpa only [Nat.ofDigitChars_ten_toDigits] using hvalue

/-- A number at the end of a text is read off the text: it starts after the last `c`. -/
theorem append_decimal_inj {c : Char} (hc : c.isDigit = false) {text text' : Text} {m n : Nat}
    (h : text ++ c :: decimal m = text' ++ c :: decimal n) :
  text = text' ∧ m = n
  := by
  have hfree : ∀ n, c ∉ (decimal n).reverse := by
    intro n hmem
    have hdigit := isDigit_of_mem_decimal (List.mem_reverse.mp hmem)
    rw [hc] at hdigit
    cases hdigit
  have hreverse := congrArg List.reverse h
  simp only [List.reverse_append, List.reverse_cons, List.append_assoc,
    List.singleton_append] at hreverse
  obtain ⟨hdigits, htext⟩ := List.append_cons_inj (hfree _) (hfree _) hreverse
  exact ⟨List.reverse_injective htext, decimal_injective (List.reverse_injective hdigits)⟩

/-- The length of a string in UTF-16 code units. -/
def utf16Length (text : Text) : Nat :=
  (text.map (fun c => if c.toNat < 0x10000 then 1 else 2)).sum

/-- The number of matches of a non-empty `pattern` from left to right, each starting
after the one before; the first `skip` characters belong to the last match. -/
def countMatches (pattern : Text) : Nat → Text → Nat
  | _, [] => 0
  | skip + 1, _ :: text => countMatches pattern skip text
  | 0, c :: text =>
      if pattern <+: c :: text then 1 + countMatches pattern (pattern.length - 1) text
      else countMatches pattern 0 text

/-- `content.split(pattern).length - 1`.  The empty pattern splits between all code
units, and the empty string into nothing. -/
def occurrences (content pattern : Text) : Int :=
  if pattern = [] then (utf16Length content : Int) - 1 else countMatches pattern 0 content

/-- The text before and after the first match of `pattern`. -/
def splitAtFirst (pattern : Text) : Text → Option (Text × Text)
  | [] => if pattern = [] then some ([], []) else none
  | c :: text =>
      if pattern <+: c :: text then some ([], (c :: text).drop pattern.length)
      else (splitAtFirst pattern text).map (fun r => (c :: r.1, r.2))

/-- Expand the `$` patterns of a replacement string.  There are no captures, so that `$`
before another character stands for itself. -/
def expandReplacement (before matched after : Text) : Text → Text
  | '$' :: '$' :: rest => '$' :: expandReplacement before matched after rest
  | '$' :: '&' :: rest => matched ++ expandReplacement before matched after rest
  | '$' :: '\x60' :: rest => before ++ expandReplacement before matched after rest
  | '$' :: '\'' :: rest => after ++ expandReplacement before matched after rest
  | c :: rest => c :: expandReplacement before matched after rest
  | [] => []

/-- `content.replace(pattern, replacement)` with a string pattern. -/
def replaceFirst (content pattern replacement : Text) : Text :=
  match splitAtFirst pattern content with
  | none => content
  | some (before, after) =>
      before ++ expandReplacement before pattern after replacement ++ after

/-- One hex digit, in lower case. -/
def hexDigit (n : Nat) : Char :=
  if n < 10 then Char.ofNat (48 + n) else Char.ofNat (87 + n)

/-- A character inside a JSON string literal. -/
def jsonChar (c : Char) : Text :=
  if c = '"' then ['\\', '"']
  else if c = '\\' then ['\\', '\\']
  else if c = '\n' then ['\\', 'n']
  else if c = '\r' then ['\\', 'r']
  else if c = '\t' then ['\\', 't']
  else if c.toNat = 0x08 then ['\\', 'b']
  else if c.toNat = 0x0C then ['\\', 'f']
  else if c.toNat < 0x20 then
    ['\\', 'u', '0', '0', hexDigit (c.toNat / 16), hexDigit (c.toNat % 16)]
  else [c]

/-- `JSON.stringify` of a string. -/
def jsonString (text : Text) : Text :=
  ['"'] ++ text.flatMap jsonChar ++ ['"']

/-- `JSON.stringify({ old, new })`, the diff summary of an edit. -/
def editDiffSummary (oldString newString : Text) : Text :=
  "\x7b\"old\":".toList ++ jsonString oldString ++ ",\"new\":".toList ++
    jsonString newString ++ "\x7d".toList

/-- One hex digit, in upper case. -/
def upperHexDigit (n : Nat) : Char :=
  if n < 10 then Char.ofNat (48 + n) else Char.ofNat (55 + n)

/-- `%XX`. -/
def percentByte (b : UInt8) : Text :=
  ['%', upperHexDigit (b.toNat / 16), upperHexDigit (b.toNat % 16)]

/-- `encodeURIComponent`. -/
def encodeURIComponent (text : Text) : Text :=
  text.flatMap (fun c =>
    if c.isAlphanum ∨ c ∈ "-_.!~*'()".toList then [c]
    else (String.utf8EncodeChar c).flatMap percentByte)

/-! ### Content types -/

/-- The content types by file extension. -/
def mimeMap : List (String × String) :=
  [ ("png", "image/png"), ("jpg", "image/jpeg"), ("jpeg", "image/jpeg"),
    ("gif", "image/gif"), ("svg", "image/svg+xml"), ("webp", "image/webp"),
    ("ico", "image/x-icon"), ("pdf", "application/pdf"), ("txt", "text/plain"),
    ("md", "text/markdown"), ("mdx", "text/markdown"), ("html", "text/html"),
    ("css", "text/css"), ("csv", "text/csv"), ("tsv", "text/tab-separated-values"),
    ("xml", "application/xml"), ("json", "application/json"),
    ("jsonl", "application/x-ndjson"), ("ndjson", "application/x-ndjson"),
    ("yaml", "application/x-yaml"), ("yml", "application/x-yaml"),
    ("toml", "application/toml"), ("ts", "text/plain"), ("tsx", "text/plain"),
    ("js", "text/javascript"), ("jsx", "text/javascript"), ("py", "text/x-python"),
    ("rb", "text/x-ruby"), ("rs", "text/x-rust"), ("go", "text/x-go"),
    ("java", "text/x-java"), ("c", "text/x-c"), ("cpp", "text/x-c++"), ("h", "text/x-c"),
    ("hpp", "text/x-c++"), ("sh", "text/x-shellscript"), ("sql", "text/x-sql"),
    ("graphql", "text/x-graphql"), ("parquet", "application/vnd.apache.parquet"),
    ("xlsx", "application/vnd.openxmlformats-officedocument.spreadsheetml.sheet"),
    ("db", "application/vnd.sqlite3"), ("sqlite", "application/vnd.sqlite3"),
    ("sqlite3", "application/vnd.sqlite3"), ("zip", "application/zip"),
    ("tar", "application/x-tar"), ("gz", "application/gzip") ]

/-- The content type of a path, by what follows its last dot. -/
def detectMimeType (path : Text) : Text :=
  let ext := ((path.splitOnP (· = '.')).getLast?.getD []).map Char.toLower
  match mimeMap.find? (fun entry => entry.1.toList = ext) with
  | some entry => entry.2.toList
  | none => "application/octet-stream".toList

/-- The text-like content types. -/
def IsIndexableMimeType (contentType : Text) : Prop :=
  let normalized :=
    (trim ((contentType.splitOnP (· = ';')).head?.getD [])).map Char.toLower
  "text/".toList <+: normalized ∨
    normalized ∈ ["application/json", "application/x-ndjson", "application/xml",
      "application/x-yaml", "application/toml", "image/svg+xml"].map String.toList

instance (contentType : Text) : Decidable (IsIndexableMimeType contentType) :=
  inferInstanceAs (Decidable (_ ∨ _))

/-- The text of well-formed UTF-8, `none` for malformed bytes.  Decoding replaces what is
malformed, so that encoding gives back the bytes exactly when nothing was. -/
def decodeUtf8Strict (bytes : Bytes) : Option Text :=
  let text := textDecode bytes
  if textEncode text = bytes ∨ 0xEF :: 0xBB :: 0xBF :: textEncode text = bytes then some text
  else none

/-- Bytes without a NUL, less than one in a hundred of which is an unusual control. -/
def LooksLikeTextBytes (bytes : Bytes) : Prop :=
  bytes = [] ∨ (0 ∉ bytes ∧
    bytes.countP (fun b => b < 32 ∧ b ∉ [9, 10, 12, 13]) * 100 < bytes.length)

instance (bytes : Bytes) : Decidable (LooksLikeTextBytes bytes) :=
  inferInstanceAs (Decidable (_ ∨ _))

/-- The text to show or index, `none` when the bytes are not text. -/
def decodeIndexableText (bytes : Bytes) (contentType : Text) : Option Text :=
  match decodeUtf8Strict bytes with
  | none => none
  | some decoded =>
      if IsIndexableMimeType contentType then some decoded
      else if contentType = "application/octet-stream".toList ∧ LooksLikeTextBytes bytes then
        some decoded
      else none

end AgentFs
