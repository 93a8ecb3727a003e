import AgentFs.Lib.Utf8
import AgentFs.Share.Site

/-!
# Percent escapes

Encoders that keep some characters and write the octets of the others as `%XX`;
`decodeURIComponent` undoes all of them that do not keep `%`.
-/

namespace AgentFs

/-- Keep the characters with `keep`, and escape the octets of the others. -/
def percentEncode (keep : Char → Prop) [DecidablePred keep] (text : Text) : Text :=
  text.flatMap (fun c => if keep c then [c] else (String.utf8EncodeChar c).flatMap percentByte)

@[simp]
theorem percentEncode_nil {keep : Char → Prop} [DecidablePred keep] :
  percentEncode keep [] = []
  := rfl

theorem percentEncode_append {keep : Char → Prop} [DecidablePred keep] (x y : Text) :
  percentEncode keep (x ++ y) = percentEncode keep x ++ percentEncode keep y
  := List.flatMap_append

/-- A text whose characters are all kept. -/
theorem percentEncode_of_forall {keep : Char → Prop} [DecidablePred keep] {text : Text}
    (h : ∀ c ∈ text, keep c) :
  percentEncode keep text = text
  := by
  induction text with
  | nil => rfl
  | cons c text ih =>
      rw [List.forall_mem_cons] at h
      rw [← List.singleton_append, percentEncode_append, ih h.2]
      unfold percentEncode
      rw [List.flatMap_singleton, if_pos h.1]

/-- The characters that `encodeURIComponent` keeps. -/
def IsUriUnreserved (c : Char) : Prop :=
  c.isAlphanum ∨ c ∈ "-_.!~*'()".toList

instance : DecidablePred IsUriUnreserved := fun c =>
  inferInstanceAs (Decidable (c.isAlphanum ∨ c ∈ "-_.!~*'()".toList))

theorem encodeURIComponent_eq (text : Text) :
  encodeURIComponent text = percentEncode IsUriUnreserved text
  := rfl

theorem hexDigit?_upperHexDigit {n : Nat} (hn : n < 16) :
  hexDigit? (upperHexDigit n) = some n
  := by
  revert n
  decide

theorem escapedOctets_percentByte (b : UInt8) (rest : Text) :
  escapedOctets (percentByte b ++ rest) = (escapedOctets rest).map (.inr b.toNat :: ·)
  := by
  have hb := b.toNat_lt
  have hoctet : hexOctet? (upperHexDigit (b.toNat / 16)) (upperHexDigit (b.toNat % 16)) =
      some b.toNat := by
    unfold hexOctet?
    rw [hexDigit?_upperHexDigit (by omega), hexDigit?_upperHexDigit (by omega)]
    have hsum : b.toNat / 16 * 16 + b.toNat % 16 = b.toNat := by omega
    simp [hsum]
  unfold percentByte
  rw [List.cons_append, List.cons_append, List.cons_append, List.nil_append, escapedOctets,
    if_neg (by decide)]
  simp [hoctet]

theorem escapedOctets_percentBytes (bytes : Bytes) (rest : Text) :
  escapedOctets (bytes.flatMap percentByte ++ rest) =
    (escapedOctets rest).map (bytes.map (fun b => .inr b.toNat) ++ ·)
  := by
  induction bytes with
  | nil => simp
  | cons b bytes ih =>
      rw [List.flatMap_cons, List.append_assoc, escapedOctets_percentByte, ih, Option.map_map]
      rfl

/-- The first octet of a character of more than one. -/
theorem decodeOctets_lead {octet : Nat} {char : PartialChar} (hoctet : 0x80 ≤ octet)
    (hlead : leadOctet? octet = some char) (rest : List (Char ⊕ Nat)) :
  decodeOctets none (.inr octet :: rest) = decodeOctets (some char) rest
  := by
  have hstep : decodeOctet octet none = some (.inl char) := by
    unfold decodeOctet
    rw [if_neg (by omega), hlead]
    rfl
  rw [decodeOctets, hstep]
  rfl

/-- A later octet of a character that is not the last one. -/
theorem decodeOctets_next {b missing value least : Nat} (hb : b < 64) (hmissing : 1 < missing)
    (rest : List (Char ⊕ Nat)) :
  decodeOctets (some ⟨missing, value, least⟩) (.inr (0x80 + b) :: rest) =
    decodeOctets (some ⟨missing - 1, value * 64 + b, least⟩) rest
  := by
  have hstep : decodeOctet (0x80 + b) (some ⟨missing, value, least⟩) =
      some (.inl ⟨missing - 1, value * 64 + b, least⟩) := by
    unfold decodeOctet
    dsimp only
    rw [if_neg (by omega), if_pos hmissing, Nat.add_sub_cancel_left]
  rw [decodeOctets, hstep]
  rfl

theorem decodeOctets_last {b value least : Nat} (hb : b < 64) (hleast : least ≤ value * 64 + b)
    (hvalid : (value * 64 + b).isValidChar) (rest : List (Char ⊕ Nat)) :
  decodeOctets (some ⟨1, value, least⟩) (.inr (0x80 + b) :: rest) =
    (decodeOctets none rest).map (Char.ofNat (value * 64 + b) :: ·)
  := by
  have hstep : decodeOctet (0x80 + b) (some ⟨1, value, least⟩) =
      some (.inr (Char.ofNat (value * 64 + b))) := by
    unfold decodeOctet
    dsimp only
    rw [if_neg (by omega), if_neg (by omega), Nat.add_sub_cancel_left, if_pos ⟨hleast, hvalid⟩]
  rw [decodeOctets, hstep]
  rfl

/-- The octets of a character are read back as the character. -/
theorem decodeOctets_utf8Octets {c : Char} {octets : List Nat} (h : Utf8Octets c.toNat octets)
    (rest : List (Char ⊕ Nat)) :
  decodeOctets none (octets.map .inr ++ rest) = (decodeOctets none rest).map (c :: ·)
  := by
  have hc : Char.ofNat c.toNat = c := Char.ofNat_toNat c
  have hvalid : c.toNat.isValidChar := c.valid
  generalize c.toNat = n at h hc hvalid
  cases h with
  | one hn => simp [decodeOctets, decodeOctet, hn, hc]
  | two hlow hn =>
      have hlead : leadOctet? (0xC0 + n / 64) = some ⟨1, n / 64, 0x80⟩ := by
        unfold leadOctet?
        rw [if_pos (by omega), Nat.add_sub_cancel_left]
      have hvalue : n / 64 * 64 + n % 64 = n := by omega
      rw [List.map_cons, List.cons_append, decodeOctets_lead (by omega) hlead, List.map_cons,
        List.cons_append, decodeOctets_last (by omega) (by omega) (by rwa [hvalue]), hvalue, hc]
      rfl
  | three hlow hn hsurrogate =>
      have hlead : leadOctet? (0xE0 + n / 4096) = some ⟨2, n / 4096, 0x800⟩ := by
        unfold leadOctet?
        rw [if_neg (by omega), if_pos (by omega), Nat.add_sub_cancel_left]
      have hvalue : (n / 4096 * 64 + n / 64 % 64) * 64 + n % 64 = n := by omega
      rw [List.map_cons, List.cons_append, decodeOctets_lead (by omega) hlead, List.map_cons,
        List.cons_append, decodeOctets_next (by omega) (by omega), List.map_cons,
        List.cons_append, decodeOctets_last (by omega) (by omega) (by rwa [hvalue]), hvalue, hc]
      rfl
  | four hlow hn =>
      have hlead : leadOctet? (0xF0 + n / 262144) = some ⟨3, n / 262144, 0x10000⟩ := by
        unfold leadOctet?
        rw [if_neg (by omega), if_neg (by omega), if_pos (by omega), Nat.add_sub_cancel_left]
      have hvalue : ((n / 262144 * 64 + n / 4096 % 64) * 64 + n / 64 % 64) * 64 + n % 64 = n := by
        omega
      rw [List.map_cons, List.cons_append, decodeOctets_lead (by omega) hlead, List.map_cons,
        List.cons_append, decodeOctets_next (by omega) (by omega), List.map_cons,
        List.cons_append, decodeOctets_next (by omega) (by omega), List.map_cons,
        List.cons_append, decodeOctets_last (by omega) (by omega) (by rwa [hvalue]), hvalue, hc]
      rfl

/-- One character of an encoded text. -/
theorem decodeURIComponent_percentEncode_cons {keep : Char → Prop} [DecidablePred keep]
    (hkeep : ¬ keep '%') (c : Char) (text : Text) :
  decodeURIComponent (percentEncode keep (c :: text)) =
    (decodeURIComponent (percentEncode keep text)).map (c :: ·)
  := by
  unfold decodeURIComponent percentEncode
  rw [List.flatMap_cons]
  by_cases hc : keep c
  · have hne : c ≠ '%' := by
      rintro rfl
      exact hkeep hc
    rw [if_pos hc, List.singleton_append, escapedOctets_cons hne]
    cases escapedOctets (text.flatMap _) with
    | none => rfl
    | some octets => rfl
  · rw [if_neg hc, escapedOctets_percentBytes]
    cases escapedOctets (text.flatMap _) with
    | none => rfl
    | some octets =>
        obtain ⟨bytes, hbytes, heq⟩ := utf8Octets_utf8EncodeChar c
        have hmap : (String.utf8EncodeChar c).map (fun b => (.inr b.toNat : Char ⊕ Nat)) =
            bytes.map .inr := by
          calc (String.utf8EncodeChar c).map (fun b => (.inr b.toNat : Char ⊕ Nat))
            _ = ((bytes.map UInt8.ofNat).map UInt8.toNat).map .inr := by
                simp [heq]
            _ = bytes.map .inr := by rw [hbytes.map_toNat]
        change decodeOctets none ((String.utf8EncodeChar c).map _ ++ octets) =
          (decodeOctets none octets).map (c :: ·)
        rw [hmap, decodeOctets_utf8Octets hbytes]

/-- An encoder that does not keep `%` is undone. -/
theorem decodeURIComponent_percentEncode {keep : Char → Prop} [DecidablePred keep]
    (hkeep : ¬ keep '%') (text : Text) :
  decodeURIComponent (percentEncode keep text) = some text
  := by
  induction text with
  | nil => rfl
  | cons c text ih =>
      rw [decodeURIComponent_percentEncode_cons hkeep, ih]
      rfl

end AgentFs
