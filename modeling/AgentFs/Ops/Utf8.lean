import AgentFs.Lib.Utf8
import AgentFs.Ops.Content

/-!
# UTF-8 round trip

The decoder undoes `TextEncoder`.
-/

namespace AgentFs

theorem decodeByte_start (b : Nat) :
  decodeByte .start b = decodeFirst b
  := rfl

/-- A byte that goes on with a character of more bytes. -/
theorem decodeByte_next {needed lower upper codePoint b : Nat} (hneeded : 1 < needed)
    (hlower : lower ≤ b) (hupper : b ≤ upper) :
  decodeByte ⟨needed, lower, upper, codePoint⟩ b =
    ([], ⟨needed - 1, 0x80, 0xBF, codePoint * 0x40 + b % 0x40⟩)
  := by
  unfold decodeByte
  dsimp only
  rw [if_neg (by omega), if_neg (by omega), if_neg (by omega)]

/-- The last byte of a character. -/
theorem decodeByte_last {lower upper codePoint b : Nat} (hlower : lower ≤ b) (hupper : b ≤ upper) :
  decodeByte ⟨1, lower, upper, codePoint⟩ b =
    ([Char.ofNat (codePoint * 0x40 + b % 0x40)], .start)
  := by
  unfold decodeByte
  dsimp only
  rw [if_neg (by omega), if_neg (by omega), if_pos rfl]

/-- Decode the octets from a state on. -/
def decodeOctetsFrom : Utf8State → List Nat → Text × Utf8State
  | st, [] => ([], st)
  | st, b :: octets =>
      let r := decodeOctetsFrom (decodeByte st b).2 octets
      ((decodeByte st b).1 ++ r.1, r.2)

theorem decodeFrom_append (st : Utf8State) (octets rest : Bytes) :
  decodeFrom st (octets ++ rest) =
    (decodeOctetsFrom st (octets.map UInt8.toNat)).1 ++
      decodeFrom (decodeOctetsFrom st (octets.map UInt8.toNat)).2 rest
  := by
  induction octets generalizing st with
  | nil => rfl
  | cons b octets ih =>
      change (decodeByte st b.toNat).1 ++ decodeFrom (decodeByte st b.toNat).2 (octets ++ rest) = _
      rw [ih, List.map_cons, decodeOctetsFrom, List.append_assoc]

/-- The octets of a character decode to it. -/
theorem decodeOctetsFrom_utf8Octets {c : Char} {octets : List Nat}
    (h : Utf8Octets c.toNat octets) :
  decodeOctetsFrom .start octets = ([c], .start)
  := by
  have hc : Char.ofNat c.toNat = c := Char.ofNat_toNat c
  generalize c.toNat = n at h hc
  cases h with
  | one hn =>
      simp only [decodeOctetsFrom, decodeByte_start, decodeFirst]
      rw [if_pos (by omega), hc]
      rfl
  | two hlow hn =>
      have hvalue : (0xC0 + n / 64) % 0x20 * 0x40 + (0x80 + n % 64) % 0x40 = n := by omega
      have hfirst : decodeFirst (0xC0 + n / 64) = ([], ⟨1, 0x80, 0xBF, (0xC0 + n / 64) % 0x20⟩) := by
        unfold decodeFirst
        rw [if_neg (by omega), if_pos (by omega)]
      simp only [decodeOctetsFrom, decodeByte_start, hfirst]
      rw [decodeByte_last (by omega) (by omega), hvalue, hc]
      rfl
  | three hlow hn hsurrogate =>
      have hvalue : ((0xE0 + n / 4096) % 0x10 * 0x40 + (0x80 + n / 64 % 64) % 0x40) * 0x40 +
          (0x80 + n % 64) % 0x40 = n := by omega
      have hfirst : decodeFirst (0xE0 + n / 4096) =
          ([], ⟨2, if 0xE0 + n / 4096 = 0xE0 then 0xA0 else 0x80,
            if 0xE0 + n / 4096 = 0xED then 0x9F else 0xBF, (0xE0 + n / 4096) % 0x10⟩) := by
        unfold decodeFirst
        rw [if_neg (by omega), if_neg (by omega), if_pos (by omega)]
      simp only [decodeOctetsFrom, decodeByte_start, hfirst]
      rw [decodeByte_next (by omega) (by split <;> omega) (by split <;> omega),
        decodeByte_last (by omega) (by omega), hvalue, hc]
      rfl
  | four hlow hn =>
      have hvalue : (((0xF0 + n / 262144) % 0x08 * 0x40 + (0x80 + n / 4096 % 64) % 0x40) * 0x40 +
          (0x80 + n / 64 % 64) % 0x40) * 0x40 + (0x80 + n % 64) % 0x40 = n := by omega
      have hfirst : decodeFirst (0xF0 + n / 262144) =
          ([], ⟨3, if 0xF0 + n / 262144 = 0xF0 then 0x90 else 0x80,
            if 0xF0 + n / 262144 = 0xF4 then 0x8F else 0xBF, (0xF0 + n / 262144) % 0x08⟩) := by
        unfold decodeFirst
        rw [if_neg (by omega), if_neg (by omega), if_neg (by omega), if_pos (by omega)]
      simp only [decodeOctetsFrom, decodeByte_start, hfirst]
      rw [decodeByte_next (by omega) (by split <;> omega) (by split <;> omega),
        decodeByte_next (by omega) (by omega) (by omega),
        decodeByte_last (by omega) (by omega), hvalue, hc]
      rfl

/-- `Buffer.from(text, "utf8").toString("utf8")` is the text. -/
theorem decodeFrom_textEncode (text : Text) :
  decodeFrom .start (textEncode text) = text
  := by
  induction text with
  | nil => rfl
  | cons c text ih =>
      obtain ⟨octets, hoctets, hencode⟩ := utf8Octets_utf8EncodeChar c
      have hcons : textEncode (c :: text) = String.utf8EncodeChar c ++ textEncode text :=
        List.flatMap_cons
      rw [hcons, decodeFrom_append, hencode, hoctets.map_toNat,
        decodeOctetsFrom_utf8Octets hoctets, ih]
      rfl

theorem textEncode_injective {text other : Text} (h : textEncode text = textEncode other) :
  text = other
  := by
  rw [← decodeFrom_textEncode text, h, decodeFrom_textEncode]

end AgentFs
