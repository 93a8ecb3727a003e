import AgentFs.Webhooks.AddressForms

/-!
# The verdicts on addresses

The verdict of `isPrivateAddress` on a text form of an IPv6 address is one of the bytes that it
denotes, in either case of its digits.  On an address that embeds an IPv4 address it is the
verdict on the latter.
-/

namespace AgentFs

/-! ### The case of digits -/

theorem IsGroupText.toLower {part : Text} (h : IsGroupText part) :
  IsGroupText (part.map Char.toLower) ∧
    digitsValue 16 (part.map Char.toLower) = digitsValue 16 part
  := by
  obtain ⟨hnil, hlength, hdigits⟩ := h
  refine ⟨⟨?_, ?_, ?_⟩, ?_⟩
  · rw [Ne, List.map_eq_nil_iff]
    exact hnil
  · rw [List.length_map]
    exact hlength
  · rw [List.forall_mem_map]
    exact fun c hc => (isHexDigit_toLower (hdigits c hc)).2.1
  · unfold digitsValue
    rw [List.foldl_map]
    apply List.foldl_ext
    intro n c hc
    rw [(isHexDigit_toLower (hdigits c hc)).2.2]

theorem GroupTexts.toLower {parts : List Text} {groups : List Nat}
    (h : GroupTexts parts groups) :
  GroupTexts (parts.map (·.map Char.toLower)) groups
  := by
  induction h with
  | nil => exact .nil
  | cons hpart hparts ih =>
      rw [List.map_cons, ← hpart.toLower.2]
      exact .cons hpart.toLower.1 ih

theorem colonJoin_toLower (parts : List Text) :
  (colonJoin parts).map Char.toLower = colonJoin (parts.map (·.map Char.toLower))
  := by
  unfold colonJoin
  induction parts with
  | nil => rfl
  | cons part parts ih =>
      cases parts with
      | nil => simp
      | cons next parts =>
          rw [List.intercalate_cons_cons, List.map_append, List.map_append, ih]
          simp only [List.map_cons, List.map_nil, List.intercalate_cons_cons]
          rfl

theorem toLower_of_isDigit {c : Char} (hc : c.isDigit = true) :
  c.toLower = c
  := by
  have hascii : c.isDigit = true → c.toLower = c := by
    apply Char.of_ascii (P := fun c => c.isDigit = true → c.toLower = c)
    · decide
    · apply isHexDigit_ascii
      rw [isHexDigit, hc]
      rfl
  exact hascii hc

theorem IsQuadText.toLower {quad : Text} {value : Nat} (h : IsQuadText quad value) :
  quad.map Char.toLower = quad
  := by
  calc quad.map Char.toLower = quad.map id := by
        apply List.map_congr_left
        intro c hc
        rcases h.chars.2 c hc with hdigit | rfl
        · exact toLower_of_isDigit hdigit
        · rfl
    _ = quad := List.map_id quad

/-- A form in lower case is a form of the same groups. -/
theorem TextForm.toLower {host : Text} {groups : List Nat} (h : TextForm host groups) :
  TextForm (host.map Char.toLower) groups
  := by
  cases h with
  | full hparts hlength =>
      rw [colonJoin_toLower]
      exact .full hparts.toLower hlength
  | fullQuad hparts hquad hlength =>
      rw [colonJoin_toLower, List.map_append, List.map_cons, hquad.toLower]
      exact .fullQuad hparts.toLower hquad hlength
  | compressed hleft hright hlength =>
      rw [List.map_append, List.map_cons, List.map_cons, colonJoin_toLower, colonJoin_toLower]
      exact .compressed hleft.toLower hright.toLower hlength
  | compressedQuad hleft hright hquad hlength =>
      rw [List.map_append, List.map_cons, List.map_cons, colonJoin_toLower, colonJoin_toLower,
        List.map_append, List.map_cons, hquad.toLower]
      exact .compressedQuad hleft.toLower hright.toLower hquad hlength

/-! ### Characters -/

/-- The characters of literals. -/
def isLiteralChar (c : Char) : Bool :=
  isHexDigit c || c = ':' || c = '.'

theorem IsQuadText.literal {quad : Text} {value : Nat} (h : IsQuadText quad value) :
  ∀ c ∈ quad, isLiteralChar c = true
  := by
  intro c hc
  rcases h.chars.2 c hc with hdigit | rfl
  · simp [isLiteralChar, isHexDigit, hdigit]
  · rfl

theorem colonJoin_literal {parts : List Text}
    (hparts : ∀ part ∈ parts, ∀ c ∈ part, isLiteralChar c = true) :
  ∀ c ∈ colonJoin parts, isLiteralChar c = true
  := by
  unfold colonJoin
  induction parts with
  | nil => simp
  | cons part parts ih =>
      rw [List.forall_mem_cons] at hparts
      cases parts with
      | nil =>
          rw [List.intercalate_singleton]
          exact hparts.1
      | cons next parts =>
          rw [List.intercalate_cons_cons, List.forall_mem_append, List.forall_mem_append]
          refine ⟨⟨hparts.1, ?_⟩, ih hparts.2⟩
          rw [List.forall_mem_singleton]
          rfl

theorem GroupTexts.literal {parts : List Text} {groups : List Nat} (h : GroupTexts parts groups) :
  ∀ part ∈ parts, ∀ c ∈ part, isLiteralChar c = true
  := by
  intro part hpart c hc
  rw [isLiteralChar, (h.forall part hpart).2.2 c hc]
  rfl

theorem concat_quad_literal {parts : List Text} {groups : List Nat} {quad : Text} {value : Nat}
    (h : GroupTexts parts groups) (hquad : IsQuadText quad value) :
  ∀ part ∈ parts ++ [quad], ∀ c ∈ part, isLiteralChar c = true
  := by
  rw [List.forall_mem_append, List.forall_mem_singleton]
  exact ⟨h.literal, hquad.literal⟩

theorem TextForm.literal {host : Text} {groups : List Nat} (h : TextForm host groups) :
  ∀ c ∈ host, isLiteralChar c = true
  := by
  cases h with
  | full hparts hlength => exact colonJoin_literal hparts.literal
  | fullQuad hparts hquad hlength => exact colonJoin_literal (concat_quad_literal hparts hquad)
  | compressed hleft hright hlength =>
      rw [List.forall_mem_append, List.forall_mem_cons, List.forall_mem_cons]
      exact ⟨colonJoin_literal hleft.literal, rfl, rfl, colonJoin_literal hright.literal⟩
  | compressedQuad hleft hright hquad hlength =>
      rw [List.forall_mem_append, List.forall_mem_cons, List.forall_mem_cons]
      exact ⟨colonJoin_literal hleft.literal, rfl, rfl,
        colonJoin_literal (concat_quad_literal hright hquad)⟩

/-- A character of a literal is neither white space nor a bracket nor the sign of a zone. -/
theorem isLiteralChar_plain {c : Char} (hc : isLiteralChar c = true) :
  c.toNat < 128 ∧ ¬ IsWhiteSpace c ∧ c ≠ '[' ∧ c ≠ '%'
  := by
  have hlt : c.toNat < 128 := by
    simp only [isLiteralChar, Bool.or_eq_true, decide_eq_true_eq] at hc
    rcases hc with (hdigit | rfl) | rfl
    · exact isHexDigit_ascii hdigit
    · decide
    · decide
  have hascii : isLiteralChar c = true → ¬ IsWhiteSpace c ∧ c ≠ '[' ∧ c ≠ '%' := by
    apply Char.of_ascii (P := fun c => isLiteralChar c = true →
      ¬ IsWhiteSpace c ∧ c ≠ '[' ∧ c ≠ '%')
    · decide
    · exact hlt
  exact ⟨hlt, hascii hc⟩

theorem trim_of_literal {text : Text} (hchars : ∀ c ∈ text, isLiteralChar c = true) :
  trim text = text
  := by
  have hdrop : ∀ {text : Text}, (∀ c ∈ text, isLiteralChar c = true) →
      text.dropWhile (fun c => IsWhiteSpace c) = text := by
    intro text hchars
    rw [List.dropWhile_eq_self_iff]
    intro hpos
    rw [decide_eq_true_eq]
    exact (isLiteralChar_plain (hchars _ (List.getElem_mem hpos))).2.1
  unfold trim
  rw [hdrop hchars, hdrop, List.reverse_reverse]
  intro c hc
  exact hchars c (List.mem_reverse.mp hc)

theorem stripBrackets_of_literal {text : Text} (hchars : ∀ c ∈ text, isLiteralChar c = true) :
  stripBrackets text = text
  := by
  have hhead : ¬ (text.head? = some '[' ∧ text.getLast? = some ']') := by
    rintro ⟨hhead, -⟩
    exact (isLiteralChar_plain (hchars _ (List.mem_of_head? hhead))).2.2.1 rfl
  unfold stripBrackets
  dsimp only
  rw [if_neg hhead, List.takeWhile_eq_self_iff]
  intro c hc
  rw [decide_eq_true_eq]
  exact (isLiteralChar_plain (hchars c hc)).2.2.2

/-! ### Embedded addresses -/

/-- The bytes of an IPv4 address. -/
def ipv4Bytes (value : Nat) : List Nat :=
  [value / 2 ^ 24, value / 2 ^ 16 % 2 ^ 8, value / 2 ^ 8 % 2 ^ 8, value % 2 ^ 8]

/-- The bytes of an IPv6 address that embeds an IPv4 address: one that is IPv4-mapped, in
`64:ff9b::/96` or in `2002::/16`. -/
inductive EmbedsIPv4 : List Nat → Nat → Prop where
  | mapped (value : Nat) :
      EmbedsIPv4 (List.replicate 10 0 ++ [0xff, 0xff] ++ ipv4Bytes value) value
  | translated (value : Nat) :
      EmbedsIPv4 ([0, 0x64, 0xff, 0x9b] ++ List.replicate 8 0 ++ ipv4Bytes value) value
  | sixToFour (value : Nat) (rest : List Nat) :
      EmbedsIPv4 ([0x20, 0x02] ++ ipv4Bytes value ++ rest) value

theorem ipv4Bytes_value (value : Nat) :
  value / 2 ^ 24 * 2 ^ 24 + value / 2 ^ 16 % 2 ^ 8 * 2 ^ 16 + value / 2 ^ 8 % 2 ^ 8 * 2 ^ 8 +
    value % 2 ^ 8 = value
  := by
  omega

/-- The bytes that embed an IPv4 address have its verdict. -/
theorem isBlockedIPv6Bytes_embeds {bytes : List Nat} {value : Nat} (h : EmbedsIPv4 bytes value) :
  isBlockedIPv6Bytes bytes = isBlockedIPv4Number value
  := by
  have hvalue := ipv4Bytes_value value
  cases h with
  | mapped =>
      simp only [isBlockedIPv6Bytes, byteAt, embeddedIPv4, ipv4Bytes, List.replicate,
        List.cons_append, List.nil_append, List.getD_cons_zero, List.getD_cons_succ,
        List.take_succ_cons, List.take_zero, List.all_cons, List.all_nil]
      rw [hvalue]
      simp
  | translated =>
      simp only [isBlockedIPv6Bytes, byteAt, embeddedIPv4, ipv4Bytes, List.replicate,
        List.cons_append, List.nil_append, List.getD_cons_zero, List.getD_cons_succ,
        List.take_succ_cons, List.take_zero, List.all_cons, List.all_nil]
      rw [hvalue]
      simp
  | sixToFour value rest =>
      simp only [isBlockedIPv6Bytes, byteAt, embeddedIPv4, ipv4Bytes, List.cons_append,
        List.nil_append, List.getD_cons_zero, List.getD_cons_succ, List.take_succ_cons,
        List.all_cons]
      rw [hvalue]
      simp

/-! ### Verdicts -/

section Verdicts

variable {toLowerCase : Text → Text}

/-- The verdict on a text form is that on its bytes. -/
theorem isPrivateAddress_of_parseIPv6
    (hlower : ∀ text : Text, (∀ c ∈ text, c.toNat < 128) →
      toLowerCase text = text.map Char.toLower)
    {text : Text} {bytes : List Nat} (h : parseIPv6 text = some bytes) :
  isPrivateAddress toLowerCase text = isBlockedIPv6Bytes bytes
  := by
  obtain ⟨groups, hform, rfl⟩ := parseIPv6_eq_some_iff.mp h
  have hparse : parseIPv6 (text.map Char.toLower) = some (groupBytes groups) :=
    parseIPv6_eq_some_iff.mpr ⟨groups, hform.toLower, rfl⟩
  have hv4 : parseIPv4 (text.map Char.toLower) = none := by
    by_contra hsome
    obtain ⟨value, hvalue⟩ := Option.ne_none_iff_exists'.mp hsome
    exact (parseIPv4_eq_some_iff.mp hvalue).colon hform.toLower.colon
  unfold isPrivateAddress
  rw [trim_of_literal hform.literal,
    hlower text (fun c hc => (isLiteralChar_plain (hform.literal c hc)).1),
    stripBrackets_of_literal hform.toLower.literal]
  dsimp only
  rw [hv4, hparse]

/-- The verdict on an IPv4 literal is that on its number. -/
theorem isPrivateAddress_of_parseIPv4
    (hlower : ∀ text : Text, (∀ c ∈ text, c.toNat < 128) →
      toLowerCase text = text.map Char.toLower)
    {quad : Text} {value : Nat} (h : parseIPv4 quad = some value) :
  isPrivateAddress toLowerCase quad = isBlockedIPv4Number value
  := by
  have hquad := parseIPv4_eq_some_iff.mp h
  unfold isPrivateAddress
  rw [trim_of_literal hquad.literal,
    hlower quad (fun c hc => (isLiteralChar_plain (hquad.literal c hc)).1), hquad.toLower,
    stripBrackets_of_literal hquad.literal]
  dsimp only
  rw [h]

/-- `parseIPv6` reads exactly the text forms and returns the 16 bytes that each denotes, all
the texts of one address get one verdict, and the verdict on an address that embeds an IPv4
address is that on the latter. -/
theorem address_classification
    (hlower : ∀ text : Text, (∀ c ∈ text, c.toNat < 128) →
      toLowerCase text = text.map Char.toLower) :
  (∀ (text : Text) (bytes : List Nat), parseIPv6 text = some bytes ↔
      ∃ groups, TextForm text groups ∧ bytes = groupBytes groups) ∧
    (∀ (text : Text) (groups : List Nat), TextForm text groups →
      (groupBytes groups).length = 16 ∧ ∀ byte ∈ groupBytes groups, byte < 256) ∧
    (∀ (text other : Text) (bytes : List Nat), parseIPv6 text = some bytes →
      parseIPv6 other = some bytes →
      isPrivateAddress toLowerCase text = isPrivateAddress toLowerCase other) ∧
    ∀ (text quad : Text) (bytes : List Nat) (value : Nat), parseIPv6 text = some bytes →
      EmbedsIPv4 bytes value → parseIPv4 quad = some value →
      isPrivateAddress toLowerCase text = isPrivateAddress toLowerCase quad
  := by
  refine ⟨fun text bytes => parseIPv6_eq_some_iff, fun text groups hform => hform.bytes, ?_, ?_⟩
  · intro text other bytes htext hother
    rw [isPrivateAddress_of_parseIPv6 hlower htext, isPrivateAddress_of_parseIPv6 hlower hother]
  · intro text quad bytes value htext hembeds hquad
    rw [isPrivateAddress_of_parseIPv6 hlower htext, isPrivateAddress_of_parseIPv4 hlower hquad]
    apply isBlockedIPv6Bytes_embeds hembeds

/-- An IPv4-mapped address has the verdict on its quad. -/
theorem address_classification_mapped :
  isPrivateAddress (·.map Char.toLower) "::FFFF:a01:203".toList =
    isPrivateAddress (·.map Char.toLower) "10.1.2.3".toList
  := by
  have hclassification := @address_classification (·.map Char.toLower) (fun _ _ => rfl)
  have hbytes : parseIPv6 "::FFFF:a01:203".toList =
      some (List.replicate 10 0 ++ [0xff, 0xff] ++ ipv4Bytes 0x0a010203) := by
    decide +kernel
  apply hclassification.2.2.2 _ _ _ _ hbytes (.mapped _)
  decide +kernel

end Verdicts

end AgentFs
