import Mathlib.Data.Nat.Basic

/-!
# Base64

Bytes by six bits a character, in the URL-safe alphabet without padding and in the standard one
with padding.  The decoder takes the characters of both alphabets and skips all others.
-/

namespace Base64

/-- The character of six bits in the URL-safe alphabet. -/
def sextetChar (n : Nat) : Char :=
  if n < 26 then Char.ofNat ('A'.toNat + n)
  else if n < 52 then Char.ofNat ('a'.toNat + (n - 26))
  else if n < 62 then Char.ofNat ('0'.toNat + (n - 52))
  else if n = 62 then '-'
  else '_'

/-- The six bits of a character. -/
def sextet? (c : Char) : Option Nat :=
  if c.isUpper then some (c.toNat - 'A'.toNat)
  else if c.isLower then some (c.toNat - 'a'.toNat + 26)
  else if c.isDigit then some (c.toNat - '0'.toNat + 52)
  else if c = '-' ∨ c = '+' then some 62
  else if c = '_' ∨ c = '/' then some 63
  else none

/-- The bits of the bytes, by six. -/
def sextets : List UInt8 → List Nat
  | a :: b :: c :: bytes =>
      a.toNat / 4 :: (a.toNat % 4 * 16 + b.toNat / 16) :: (b.toNat % 16 * 4 + c.toNat / 64) ::
        c.toNat % 64 :: sextets bytes
  | [a, b] => [a.toNat / 4, a.toNat % 4 * 16 + b.toNat / 16, b.toNat % 16 * 4]
  | [a] => [a.toNat / 4, a.toNat % 4 * 16]
  | [] => []

/-- The bytes of six bits each; what does not make a byte is dropped. -/
def ofSextets : List Nat → List UInt8
  | a :: b :: c :: d :: rest =>
      UInt8.ofNat (a * 4 + b / 16) :: UInt8.ofNat (b % 16 * 16 + c / 4) ::
        UInt8.ofNat (c % 4 * 64 + d) :: ofSextets rest
  | [a, b, c] => [UInt8.ofNat (a * 4 + b / 16), UInt8.ofNat (b % 16 * 16 + c / 4)]
  | [a, b] => [UInt8.ofNat (a * 4 + b / 16)]
  | _ => []

def encodeUrl (bytes : List UInt8) : List Char :=
  (sextets bytes).map sextetChar

def decode (text : List Char) : List UInt8 :=
  ofSextets (text.filterMap sextet?)

theorem sextet?_sextetChar {n : Nat} (hn : n < 64) :
  sextet? (sextetChar n) = some n
  := by
  revert n
  decide

theorem sextets_lt (bytes : List UInt8) :
  ∀ n ∈ sextets bytes, n < 64
  := by
  induction bytes using sextets.induct with
  | case1 a b c bytes ih =>
      have ha := a.toNat_lt
      have hb := b.toNat_lt
      have hc := c.toNat_lt
      simp only [sextets, List.forall_mem_cons]
      exact ⟨by omega, by omega, by omega, by omega, ih⟩
  | case2 a b =>
      have ha := a.toNat_lt
      have hb := b.toNat_lt
      simp only [sextets, List.forall_mem_cons]
      exact ⟨by omega, by omega, by omega, fun _ h => absurd h List.not_mem_nil⟩
  | case3 a =>
      have ha := a.toNat_lt
      simp only [sextets, List.forall_mem_cons]
      exact ⟨by omega, by omega, fun _ h => absurd h List.not_mem_nil⟩
  | case4 => exact fun _ h => absurd h List.not_mem_nil

theorem ofNat_eq {n : Nat} {a : UInt8} (h : n = a.toNat) :
  UInt8.ofNat n = a
  := by
  rw [h]
  exact UInt8.ofNat_toNat

theorem ofSextets_sextets (bytes : List UInt8) :
  ofSextets (sextets bytes) = bytes
  := by
  induction bytes using sextets.induct with
  | case1 a b c bytes ih =>
      have ha := a.toNat_lt
      have hb := b.toNat_lt
      have hc := c.toNat_lt
      rw [sextets, ofSextets, ih, ofNat_eq (a := a), ofNat_eq (a := b), ofNat_eq (a := c)]
      · omega
      · omega
      · omega
  | case2 a b =>
      have ha := a.toNat_lt
      have hb := b.toNat_lt
      rw [sextets, ofSextets, ofNat_eq (a := a), ofNat_eq (a := b)]
      · omega
      · omega
  | case3 a =>
      have ha := a.toNat_lt
      rw [sextets, ofSextets, ofNat_eq (a := a)]
      omega
  | case4 => rfl

theorem filterMap_sextet? {ns : List Nat} (hns : ∀ n ∈ ns, n < 64) :
  (ns.map sextetChar).filterMap sextet? = ns
  := by
  induction ns with
  | nil => rfl
  | cons n ns ih =>
      rw [List.forall_mem_cons] at hns
      rw [List.map_cons, List.filterMap_cons_some (sextet?_sextetChar hns.1), ih hns.2]

/-- Decoding undoes encoding. -/
theorem decode_encodeUrl (bytes : List UInt8) :
  decode (encodeUrl bytes) = bytes
  := by
  rw [decode, encodeUrl, filterMap_sextet? (sextets_lt bytes), ofSextets_sextets]

/-! ### The standard alphabet -/

def standardChar (n : Nat) : Char :=
  if n = 62 then '+' else if n = 63 then '/' else sextetChar n

def encode (bytes : List UInt8) : List Char :=
  (sextets bytes).map standardChar ++ List.replicate ((3 - bytes.length % 3) % 3) '='

theorem sextet?_standardChar {n : Nat} (hn : n < 64) :
  sextet? (standardChar n) = some n
  := by
  revert n
  decide

theorem filterMap_standardChar {ns : List Nat} (hns : ∀ n ∈ ns, n < 64) :
  (ns.map standardChar).filterMap sextet? = ns
  := by
  induction ns with
  | nil => rfl
  | cons n ns ih =>
      rw [List.forall_mem_cons] at hns
      rw [List.map_cons, List.filterMap_cons_some (sextet?_standardChar hns.1), ih hns.2]

theorem filterMap_padding (n : Nat) :
  (List.replicate n '=').filterMap sextet? = []
  := by
  rw [List.filterMap_eq_nil_iff]
  intro c hc
  rw [List.eq_of_mem_replicate hc]
  rfl

theorem decode_encode (bytes : List UInt8) :
  decode (encode bytes) = bytes
  := by
  rw [decode, encode, List.filterMap_append, filterMap_standardChar (sextets_lt bytes),
    filterMap_padding, List.append_nil, ofSextets_sextets]

theorem encode_injective {bytes other : List UInt8} (h : encode bytes = encode other) :
  bytes = other
  := by
  rw [← decode_encode bytes, h, decode_encode]

theorem length_sextets (bytes : List UInt8) :
  (sextets bytes).length = (4 * bytes.length + 2) / 3
  := by
  induction bytes using sextets.induct with
  | case1 a b c bytes ih =>
      simp only [sextets, List.length_cons, ih]
      omega
  | case2 a b =>
      simp only [sextets, List.length_cons, List.length_nil, Nat.reduceAdd, Nat.reduceMul,
        Nat.reduceDiv]
  | case3 a =>
      simp only [sextets, List.length_cons, List.length_nil, Nat.reduceAdd, Nat.reduceMul,
        Nat.reduceDiv]
  | case4 => rfl

theorem length_encode (bytes : List UInt8) :
  (encode bytes).length = (bytes.length + 2) / 3 * 4
  := by
  rw [encode, List.length_append, List.length_map, length_sextets, List.length_replicate]
  omega

/-- Less than two are left. -/
theorem length_of_rest {ns : List Nat} (hthree : ∀ a b c, ns = [a, b, c] → False)
    (hfour : ∀ a b c d rest, ns = a :: b :: c :: d :: rest → False)
    (htwo : ∀ a b, ns = [a, b] → False) :
  ofSextets ns = [] ∧ ns.length ≤ 1
  := by
  match ns with
  | [] => exact ⟨rfl, Nat.zero_le _⟩
  | [_] => exact ⟨rfl, Nat.le_refl _⟩
  | [a, b] => exact (htwo a b rfl).elim
  | [a, b, c] => exact (hthree a b c rfl).elim
  | a :: b :: c :: d :: rest => exact (hfour a b c d rest rfl).elim

/-- Fewer characters decode to fewer of the bytes. -/
theorem ofSextets_append (ns rest : List Nat) :
  ofSextets ns <+: ofSextets (ns ++ rest)
  := by
  induction ns using ofSextets.induct with
  | case1 a b c d ns ih =>
      simp only [List.cons_append, ofSextets, List.prefix_cons_inj]
      exact ih
  | case2 a b c =>
      cases rest with
      | nil => exact List.prefix_refl _
      | cons d rest => exact ⟨_, rfl⟩
  | case3 a b =>
      match rest with
      | [] => exact List.prefix_refl _
      | [c] => exact ⟨_, rfl⟩
      | c :: d :: rest => exact ⟨_, rfl⟩
  | case4 ns hfour hthree htwo =>
      rw [(length_of_rest hthree hfour htwo).1]
      exact List.nil_prefix

theorem decode_append (text rest : List Char) :
  decode text <+: decode (text ++ rest)
  := by
  rw [decode, decode, List.filterMap_append]
  exact ofSextets_append _ _

/-- A cut text that decodes to as many bytes decodes to the same. -/
theorem decode_of_cut {text rest : List Char} {bytes : List UInt8}
    (h : text ++ rest = encode bytes) (hlength : (decode text).length = bytes.length) :
  decode text = bytes
  := by
  have hcut := decode_append text rest
  rw [h, decode_encode] at hcut
  exact hcut.eq_of_length hlength

/-- The characters of an encoding are of the alphabet, or padding. -/
theorem mem_encode {bytes : List UInt8} {c : Char} (hc : c ∈ encode bytes) :
  (∃ n < 64, standardChar n = c) ∨ c = '='
  := by
  rw [encode, List.mem_append, List.mem_map] at hc
  obtain ⟨n, hn, hc⟩ | hc := hc
  · exact .inl ⟨n, sextets_lt bytes n hn, hc⟩
  · exact .inr (List.eq_of_mem_replicate hc)

end Base64
