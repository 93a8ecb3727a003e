import Mathlib.Data.Nat.Basic

/-!
# The octets of a character

UTF-8, by the code point: the octets of a character, and that they are what
`String.utf8EncodeChar` gives.
-/

/-- What holds of the first 128 code points holds of an ASCII character. -/
theorem Char.of_ascii {P : Char → Prop} (h : ∀ n < 128, P (Char.ofNat n)) {c : Char}
    (hc : c.toNat < 128) :
  P c
  := by
  rw [← Char.ofNat_toNat c]
  apply h _ hc

/-- The octets of a code point in UTF-8. -/
inductive Utf8Octets : Nat → List Nat → Prop where
  | one {n : Nat} (hn : n < 0x80) : Utf8Octets n [n]
  | two {n : Nat} (hlow : 0x80 ≤ n) (hn : n < 0x800) :
      Utf8Octets n [0xC0 + n / 64, 0x80 + n % 64]
  | three {n : Nat} (hlow : 0x800 ≤ n) (hn : n < 0x10000)
      (hsurrogate : n < 0xD800 ∨ 0xE000 ≤ n) :
      Utf8Octets n [0xE0 + n / 4096, 0x80 + n / 64 % 64, 0x80 + n % 64]
  | four {n : Nat} (hlow : 0x10000 ≤ n) (hn : n < 0x110000) :
      Utf8Octets n [0xF0 + n / 262144, 0x80 + n / 4096 % 64, 0x80 + n / 64 % 64, 0x80 + n % 64]

namespace Utf8Octets

theorem lt {n : Nat} {octets : List Nat} (h : Utf8Octets n octets) :
  ∀ octet ∈ octets, octet < 256
  := by
  cases h with
  | one hn =>
      simp only [List.mem_singleton, forall_eq]
      omega
  | two hlow hn =>
      simp only [List.mem_cons, List.not_mem_nil, or_false, forall_eq_or_imp, forall_eq]
      omega
  | three hlow hn hsurrogate =>
      simp only [List.mem_cons, List.not_mem_nil, or_false, forall_eq_or_imp, forall_eq]
      omega
  | four hlow hn =>
      simp only [List.mem_cons, List.not_mem_nil, or_false, forall_eq_or_imp, forall_eq]
      omega

/-- The octets as bytes, and back. -/
theorem map_toNat {n : Nat} {octets : List Nat} (h : Utf8Octets n octets) :
  (octets.map UInt8.ofNat).map UInt8.toNat = octets
  := by
  have hback : ∀ octet ∈ octets, (UInt8.toNat ∘ UInt8.ofNat) octet = id octet := by
    intro octet hoctet
    exact UInt8.toNat_ofNat_of_lt' (h.lt octet hoctet)
  rw [List.map_map, List.map_congr_left hback, List.map_id]

end Utf8Octets

theorem utf8Octets_utf8EncodeChar (c : Char) :
  ∃ octets, Utf8Octets c.toNat octets ∧ String.utf8EncodeChar c = octets.map UInt8.ofNat
  := by
  have hvalid : c.toNat < 0xD800 ∨ 0xDFFF < c.toNat ∧ c.toNat < 0x110000 := c.valid
  have hval : c.val.toNat = c.toNat := rfl
  unfold String.utf8EncodeChar
  dsimp only
  rw [hval]
  generalize c.toNat = n at hvalid
  by_cases hone : n ≤ 0x7f
  · rw [if_pos hone]
    exact ⟨_, .one (by omega), rfl⟩
  rw [if_neg hone]
  by_cases htwo : n ≤ 0x7ff
  · rw [if_pos htwo]
    refine ⟨_, .two (by omega) (by omega), ?_⟩
    have hlead : n / 64 % 0x20 + 0xc0 = 0xC0 + n / 64 := by omega
    have hlast : n % 0x40 + 0x80 = 0x80 + n % 64 := by omega
    rw [hlead, hlast]
    rfl
  rw [if_neg htwo]
  by_cases hthree : n ≤ 0xffff
  · rw [if_pos hthree]
    refine ⟨_, .three (by omega) (by omega) (by omega), ?_⟩
    have hlead : n / 4096 % 0x10 + 0xe0 = 0xE0 + n / 4096 := by omega
    have hnext : n / 64 % 0x40 + 0x80 = 0x80 + n / 64 % 64 := by omega
    have hlast : n % 0x40 + 0x80 = 0x80 + n % 64 := by omega
    rw [hlead, hnext, hlast]
    rfl
  · rw [if_neg hthree]
    refine ⟨_, .four (by omega) (by omega), ?_⟩
    have hlead : n / 262144 % 0x08 + 0xf0 = 0xF0 + n / 262144 := by omega
    have hsecond : n / 4096 % 0x40 + 0x80 = 0x80 + n / 4096 % 64 := by omega
    have hnext : n / 64 % 0x40 + 0x80 = 0x80 + n / 64 % 64 := by omega
    have hlast : n % 0x40 + 0x80 = 0x80 + n % 64 := by omega
    rw [hlead, hsecond, hnext, hlast]
    rfl
