import AgentFs.Lib.Utf8
import AgentFs.Webhooks.Addresses

/-!
# The text forms of addresses

The forms that RFC 4291 gives for the text of an IPv6 address, what eight groups each of them
denotes, and that `parseIPv6` reads exactly these.  The verdict on an address is one of its
bytes; that on an address that embeds an IPv4 address is the verdict on it.
-/

namespace AgentFs

/-! ### Forms -/

/-- The text of a group of 16 bits. -/
def IsGroupText (part : Text) : Prop :=
  part ≠ [] ∧ part.length ≤ 4 ∧ ∀ c ∈ part, isHexDigit c = true

/-- Texts of groups, and the groups. -/
inductive GroupTexts : List Text → List Nat → Prop where
  | nil : GroupTexts [] []
  | cons {part : Text} {parts : List Text} {groups : List Nat} (hpart : IsGroupText part)
      (hparts : GroupTexts parts groups) :
      GroupTexts (part :: parts) (digitsValue 16 part :: groups)

/-- Groups with colons between them. -/
def colonJoin (parts : List Text) : Text :=
  [':'].intercalate parts

/-- The text of an octet in decimal. -/
def IsOctetText (part : Text) : Prop :=
  part ≠ [] ∧ part.length ≤ 3 ∧ (∀ x ∈ part, x.isDigit = true) ∧ digitsValue 10 part ≤ 255

/-- The text of four octets, and their number. -/
def IsQuadText (quad : Text) (value : Nat) : Prop :=
  ∃ a b c d : Text, quad = ['.'].intercalate [a, b, c, d] ∧
    (∀ part ∈ [a, b, c, d], IsOctetText part) ∧
    value = ((digitsValue 10 a * 256 + digitsValue 10 b) * 256 + digitsValue 10 c) * 256 +
      digitsValue 10 d

/-- The two groups of the last 32 bits. -/
def quadGroups (value : Nat) : List Nat :=
  [value / 65536, value % 65536]

/-- The text forms of an IPv6 address, and its eight groups. -/
inductive TextForm : Text → List Nat → Prop where
  | full {parts : List Text} {groups : List Nat} (hparts : GroupTexts parts groups)
      (hlength : groups.length = 8) :
      TextForm (colonJoin parts) groups
  | fullQuad {parts : List Text} {groups : List Nat} {quad : Text} {value : Nat}
      (hparts : GroupTexts parts groups) (hquad : IsQuadText quad value)
      (hlength : groups.length = 6) :
      TextForm (colonJoin (parts ++ [quad])) (groups ++ quadGroups value)
  /-- `::` stands for at least one group. -/
  | compressed {left right : List Text} {head rest : List Nat} (hleft : GroupTexts left head)
      (hright : GroupTexts right rest) (hlength : head.length + rest.length ≤ 7) :
      TextForm (colonJoin left ++ ':' :: ':' :: colonJoin right)
        (head ++ List.replicate (8 - (head.length + rest.length)) 0 ++ rest)
  | compressedQuad {left right : List Text} {head rest : List Nat} {quad : Text} {value : Nat}
      (hleft : GroupTexts left head) (hright : GroupTexts right rest)
      (hquad : IsQuadText quad value) (hlength : head.length + rest.length ≤ 5) :
      TextForm (colonJoin left ++ ':' :: ':' :: colonJoin (right ++ [quad]))
        (head ++ List.replicate (6 - (head.length + rest.length)) 0 ++ rest ++ quadGroups value)

/-! ### Quads -/

theorem parseOctet_eq_some_iff {part : Text} {octet : Nat} :
  parseOctet part = some octet ↔ IsOctetText part ∧ digitsValue 10 part = octet
  := by
  unfold parseOctet IsOctetText
  split
  · rename_i h
    rw [List.all_eq_true] at h
    rw [Option.some.injEq, and_iff_right h]
  · rename_i h
    rw [List.all_eq_true] at h
    exact iff_of_false (fun hsome => nomatch hsome) (fun hparts => h hparts.1)

theorem IsOctetText.dot {part : Text} (h : IsOctetText part) :
  '.' ∉ part
  := fun hmem => absurd (h.2.2.1 _ hmem) (by decide)

theorem parseIPv4_eq_some_iff {quad : Text} {value : Nat} :
  parseIPv4 quad = some value ↔ IsQuadText quad value
  := by
  unfold parseIPv4
  constructor
  · intro h
    split_ifs at h with hlength
    obtain ⟨octets, hoctets, rfl⟩ := Option.map_eq_some_iff.mp h
    have hjoin : ['.'].intercalate (quad.splitOn '.') = quad := List.intercalate_splitOn '.'
    obtain ⟨a, b, c, d, hparts⟩ := List.length_eq_four.mp hlength
    rw [hparts] at hoctets hjoin
    simp only [List.mapM_cons, List.mapM_nil, Option.pure_def, Option.bind_eq_bind,
      Option.bind_eq_some_iff, Option.some.injEq, parseOctet_eq_some_iff] at hoctets
    obtain ⟨_, ⟨ha, rfl⟩, _, ⟨_, ⟨hb, rfl⟩, _, ⟨_, ⟨hc, rfl⟩, _, ⟨_, ⟨hd, rfl⟩, _, rfl, rfl⟩,
      rfl⟩, rfl⟩, rfl⟩ := hoctets
    refine ⟨a, b, c, d, hjoin.symm, ?_, ?_⟩
    · simp only [List.forall_mem_cons]
      exact ⟨ha, hb, hc, hd, fun _ h => absurd h List.not_mem_nil⟩
    · simp
  · rintro ⟨a, b, c, d, rfl, hparts, rfl⟩
    have hsplit : (['.'].intercalate [a, b, c, d]).splitOn '.' = [a, b, c, d] :=
      List.splitOn_intercalate '.' (fun part h => (hparts part h).dot) (by simp)
    have hoctet : ∀ part ∈ [a, b, c, d], parseOctet part = some (digitsValue 10 part) :=
      fun part h => parseOctet_eq_some_iff.mpr ⟨hparts part h, rfl⟩
    simp only [List.forall_mem_cons] at hoctet
    obtain ⟨ha, hb, hc, hd, -⟩ := hoctet
    rw [hsplit, if_pos (by simp)]
    simp [ha, hb, hc, hd]

theorem IsQuadText.chars {quad : Text} {value : Nat} (h : IsQuadText quad value) :
  '.' ∈ quad ∧ ∀ c ∈ quad, c.isDigit = true ∨ c = '.'
  := by
  obtain ⟨a, b, c, d, rfl, hparts, -⟩ := h
  constructor
  · simp
  · intro x hx
    simp only [List.intercalate_cons_cons, List.intercalate_singleton, List.mem_append,
      List.mem_singleton] at hx
    have hdigit : ∀ part ∈ [a, b, c, d], x ∈ part → x.isDigit = true :=
      fun part hpart hmem => (hparts part hpart).2.2.1 x hmem
    simp only [List.forall_mem_cons] at hdigit
    tauto

theorem IsQuadText.colon {quad : Text} {value : Nat} (h : IsQuadText quad value) :
  ':' ∉ quad
  := by
  intro hmem
  rcases h.chars.2 _ hmem with hdigit | hdot
  · exact absurd hdigit (by decide)
  · exact absurd hdot (by decide)

/-! ### Groups -/

theorem parseGroup_eq_some_iff {part : Text} {group : Nat} :
  parseGroup part = some group ↔ IsGroupText part ∧ digitsValue 16 part = group
  := by
  unfold parseGroup IsGroupText
  split
  · rename_i h
    rw [List.all_eq_true] at h
    rw [Option.some.injEq, and_iff_right h]
  · rename_i h
    rw [List.all_eq_true] at h
    exact iff_of_false (fun hsome => nomatch hsome) (fun hparts => h hparts.1)

theorem mapM_parseGroup_iff {parts : List Text} {groups : List Nat} :
  parts.mapM parseGroup = some groups ↔ GroupTexts parts groups
  := by
  induction parts generalizing groups with
  | nil =>
      constructor
      · rintro ⟨⟩
        exact .nil
      · rintro ⟨⟩
        rfl
  | cons part parts ih =>
      rw [List.mapM_cons]
      constructor
      · intro h
        obtain ⟨group, hgroup, h⟩ := Option.bind_eq_some_iff.mp h
        obtain ⟨rest, hrest, heq⟩ := Option.bind_eq_some_iff.mp h
        obtain ⟨hpart, rfl⟩ := parseGroup_eq_some_iff.mp hgroup
        cases heq
        exact .cons hpart (ih.mp hrest)
      · rintro (⟨⟩ | ⟨hpart, hparts⟩)
        rw [parseGroup_eq_some_iff.mpr ⟨hpart, rfl⟩, ih.mpr hparts]
        rfl

theorem IsGroupText.colon {part : Text} (h : IsGroupText part) :
  ':' ∉ part
  := fun hmem => absurd (h.2.2 _ hmem) (by decide)

theorem IsGroupText.dot {part : Text} (h : IsGroupText part) :
  '.' ∉ part
  := fun hmem => absurd (h.2.2 _ hmem) (by decide)

theorem GroupTexts.forall {parts : List Text} {groups : List Nat} (h : GroupTexts parts groups) :
  ∀ part ∈ parts, IsGroupText part
  := by
  induction h with
  | nil => exact fun _ hmem => absurd hmem List.not_mem_nil
  | cons hpart hparts ih => exact List.forall_mem_cons.mpr ⟨hpart, ih⟩

theorem GroupTexts.length {parts : List Text} {groups : List Nat} (h : GroupTexts parts groups) :
  parts.length = groups.length
  := by
  induction h with
  | nil => rfl
  | cons hpart hparts ih => rw [List.length_cons, List.length_cons, ih]

theorem splitOn_colonJoin {parts : List Text} (hparts : ∀ part ∈ parts, ':' ∉ part)
    (hnil : parts ≠ []) :
  (colonJoin parts).splitOn ':' = parts
  := List.splitOn_intercalate ':' hparts hnil

theorem colonJoin_eq_nil {parts : List Text} (hparts : ∀ part ∈ parts, IsGroupText part) :
  colonJoin parts = [] ↔ parts = []
  := by
  unfold colonJoin
  cases parts with
  | nil => simp
  | cons part parts =>
      have hpart := (hparts part List.mem_cons_self).1
      cases parts with
      | nil => simp [hpart]
      | cons next parts => simp

/-- The groups of a part of the text between double colons. -/
theorem toGroups_eq_some_iff {text : Text} {groups : List Nat} :
  toGroups text = some groups ↔ ∃ parts, GroupTexts parts groups ∧ text = colonJoin parts
  := by
  unfold toGroups
  constructor
  · intro h
    split at h
    · rename_i hnil
      cases h
      exact ⟨[], .nil, hnil⟩
    · exact ⟨_, mapM_parseGroup_iff.mp h, (List.intercalate_splitOn ':').symm⟩
  · rintro ⟨parts, hparts, rfl⟩
    split
    · rename_i hnil
      rw [colonJoin_eq_nil hparts.forall] at hnil
      subst hnil
      cases hparts
      rfl
    · rename_i hnil
      rw [colonJoin_eq_nil hparts.forall] at hnil
      rw [splitOn_colonJoin (fun part h => (hparts.forall part h).colon) hnil]
      exact mapM_parseGroup_iff.mpr hparts

/-! ### Double colons -/

/-- No two colons are next to each other. -/
def NoDoubleColon : Text → Prop
  | [] => True
  | ':' :: ':' :: _ => False
  | _ :: text => NoDoubleColon text

theorem splitDoubleColon_of_no {text : Text} (h : NoDoubleColon text) :
  splitDoubleColon text = [text]
  := by
  induction text using splitDoubleColon.induct with
  | case1 => rfl
  | case2 text ih => exact h.elim
  | case3 c text hne ih =>
      rw [splitDoubleColon]
      · rw [NoDoubleColon] at h
        · rw [ih h]
          rfl
        · exact hne
      · exact hne

/-- The first double colon of a text. -/
theorem splitDoubleColon_append {front : Text} (h : NoDoubleColon front)
    (hlast : front.getLast? ≠ some ':') (text : Text) :
  splitDoubleColon (front ++ ':' :: ':' :: text) = front :: splitDoubleColon text
  := by
  induction front using splitDoubleColon.induct with
  | case1 => rfl
  | case2 front ih => exact h.elim
  | case3 c front hne ih =>
      have hfront : NoDoubleColon front := by
        rw [NoDoubleColon] at h
        · exact h
        · exact hne
      have hnext : ∀ rest, c = ':' → front ++ ':' :: ':' :: text = ':' :: rest → False := by
        intro rest hc hrest
        cases front with
        | nil =>
            apply hlast
            rw [hc]
            rfl
        | cons d front =>
            rw [List.cons_append, List.cons.injEq] at hrest
            exact hne front hc (by rw [hrest.1])
      have hlast' : front.getLast? ≠ some ':' := by
        cases front with
        | nil => simp
        | cons d front =>
            rw [List.getLast?_cons_cons] at hlast
            exact hlast
      rw [List.cons_append, splitDoubleColon, ih hfront hlast']
      · rfl
      · exact hnext

theorem splitDoubleColon_ne_nil (text : Text) :
  splitDoubleColon text ≠ []
  := by
  induction text using splitDoubleColon.induct with
  | case1 => exact List.cons_ne_nil _ _
  | case2 text ih => exact List.cons_ne_nil _ _
  | case3 c text hne ih =>
      rw [splitDoubleColon]
      · intro hnil
        exact ih (List.modifyHead_eq_nil_iff.mp hnil)
      · exact hne

/-- The parts between double colons, joined again. -/
theorem intercalate_splitDoubleColon (text : Text) :
  [':', ':'].intercalate (splitDoubleColon text) = text
  := by
  induction text using splitDoubleColon.induct with
  | case1 => rfl
  | case2 text ih =>
      rw [splitDoubleColon, List.intercalate_cons_of_ne_nil (splitDoubleColon_ne_nil text), ih]
      rfl
  | case3 c text hne ih =>
      rw [splitDoubleColon]
      · obtain ⟨first, rest, hsplit⟩ := List.exists_cons_of_ne_nil (splitDoubleColon_ne_nil text)
        rw [hsplit] at ih ⊢
        rw [List.modifyHead_cons, List.intercalate_cons_cons_left, ih]
      · exact hne

theorem noDoubleColon_cons {c : Char} {text : Text} (h : NoDoubleColon text)
    (hc : c = ':' → text.head? ≠ some ':') :
  NoDoubleColon (c :: text)
  := by
  rw [NoDoubleColon]
  · exact h
  · rintro rest rfl rfl
    exact hc rfl rfl

theorem noDoubleColon_append {part : Text} (hpart : ':' ∉ part) {text : Text}
    (h : NoDoubleColon text) :
  NoDoubleColon (part ++ text)
  := by
  induction part with
  | nil => exact h
  | cons c part ih =>
      rw [List.mem_cons, not_or] at hpart
      exact noDoubleColon_cons (ih hpart.2) (fun hc => absurd hc.symm hpart.1)

/-- Groups that are joined have no double colon, and no colon at either end. -/
theorem colonJoin_colons {parts : List Text} (hparts : ∀ part ∈ parts, part ≠ [] ∧ ':' ∉ part) :
  NoDoubleColon (colonJoin parts) ∧ (colonJoin parts).head? ≠ some ':' ∧
    (colonJoin parts).getLast? ≠ some ':'
  := by
  unfold colonJoin
  induction parts with
  | nil => exact ⟨trivial, by simp, by simp⟩
  | cons part parts ih =>
      rw [List.forall_mem_cons] at hparts
      obtain ⟨⟨hpart, hcolon⟩, hrest⟩ := hparts
      obtain ⟨hno, hhead, hlast⟩ := ih hrest
      have hfirst : part.head? ≠ some ':' := fun h => hcolon (List.mem_of_head? h)
      cases parts with
      | nil =>
          rw [List.intercalate_singleton]
          refine ⟨?_, hfirst, fun h => hcolon (List.mem_of_getLast? h)⟩
          rw [← List.append_nil part]
          exact noDoubleColon_append hcolon trivial
      | cons next parts =>
          have hne : [':'].intercalate (next :: parts) ≠ [] := by
            cases parts with
            | nil =>
                rw [List.intercalate_singleton]
                exact (hrest next List.mem_cons_self).1
            | cons _ _ => simp
          rw [List.intercalate_cons_cons, List.append_assoc, List.singleton_append]
          refine ⟨noDoubleColon_append hcolon (noDoubleColon_cons hno (fun _ => hhead)), ?_, ?_⟩
          · rw [List.head?_append_of_ne_nil _ hpart]
            exact hfirst
          · rw [List.getLast?_append_of_ne_nil _ (List.cons_ne_nil _ _),
              List.getLast?_cons_of_ne_nil hne]
            exact hlast

/-- What `parseIPv6Groups` does with the text before an IPv4 part and the groups of it. -/
def parseBody (text : Text) (tail : List Nat) : Option (List Nat) :=
  match splitDoubleColon text with
  | [only] => do
      let head ← toGroups only
      if head.length + tail.length ≠ 8 then none else pure (head ++ tail)
  | [first, second] => do
      let head ← toGroups first
      let rest ← toGroups second
      let known := head.length + rest.length + tail.length
      if known > 7 then none
      else pure (head ++ List.replicate (8 - known) 0 ++ rest ++ tail)
  | _ => none

theorem parseIPv6Groups_eq (host : Text) :
  parseIPv6Groups host = (splitIPv4Tail host).bind (fun r => parseBody r.1 r.2)
  := rfl

/-- The forms of the text before an IPv4 part, or of the whole. -/
inductive BodyForm (tail : List Nat) : Text → List Nat → Prop where
  | full {parts : List Text} {groups : List Nat} (hparts : GroupTexts parts groups)
      (hlength : groups.length + tail.length = 8) :
      BodyForm tail (colonJoin parts) (groups ++ tail)
  | compressed {left right : List Text} {head rest : List Nat} (hleft : GroupTexts left head)
      (hright : GroupTexts right rest) (hlength : head.length + rest.length + tail.length ≤ 7) :
      BodyForm tail (colonJoin left ++ ':' :: ':' :: colonJoin right)
        (head ++ List.replicate (8 - (head.length + rest.length + tail.length)) 0 ++ rest ++ tail)

theorem GroupTexts.colons {parts : List Text} {groups : List Nat} (h : GroupTexts parts groups) :
  ∀ part ∈ parts, part ≠ [] ∧ ':' ∉ part
  := fun part hpart => ⟨(h.forall part hpart).1, (h.forall part hpart).colon⟩

theorem parseBody_eq_some_iff {text : Text} {tail groups : List Nat} :
  parseBody text tail = some groups ↔ BodyForm tail text groups
  := by
  constructor
  · intro h
    have hjoin := intercalate_splitDoubleColon text
    unfold parseBody at h
    split at h
    · rename_i only hsplit
      rw [hsplit, List.intercalate_singleton] at hjoin
      obtain ⟨head, hhead, h'⟩ := Option.bind_eq_some_iff.mp h
      obtain ⟨parts, hparts, rfl⟩ := toGroups_eq_some_iff.mp hhead
      split_ifs at h' with hlength
      cases h'
      rw [← hjoin]
      exact .full hparts (not_not.mp hlength)
    · rename_i first second hsplit
      rw [hsplit, List.intercalate_cons_cons, List.intercalate_singleton, List.append_assoc]
        at hjoin
      obtain ⟨head, hhead, h'⟩ := Option.bind_eq_some_iff.mp h
      obtain ⟨rest, hrest, h''⟩ := Option.bind_eq_some_iff.mp h'
      obtain ⟨left, hleft, rfl⟩ := toGroups_eq_some_iff.mp hhead
      obtain ⟨right, hright, rfl⟩ := toGroups_eq_some_iff.mp hrest
      dsimp only at h''
      split_ifs at h'' with hlength
      cases h''
      rw [← hjoin]
      exact .compressed hleft hright (by omega)
    · cases h
  · rintro (⟨hparts, hlength⟩ | ⟨hleft, hright, hlength⟩)
    · rename_i parts groups
      have hcolons := colonJoin_colons hparts.colons
      unfold parseBody
      rw [splitDoubleColon_of_no hcolons.1]
      dsimp only
      rw [toGroups_eq_some_iff.mpr ⟨_, hparts, rfl⟩]
      simp [hlength]
    · rename_i left right head rest
      have hcolons := colonJoin_colons hleft.colons
      unfold parseBody
      rw [splitDoubleColon_append hcolons.1 hcolons.2.2,
        splitDoubleColon_of_no (colonJoin_colons hright.colons).1]
      dsimp only
      rw [toGroups_eq_some_iff.mpr ⟨_, hleft, rfl⟩, toGroups_eq_some_iff.mpr ⟨_, hright, rfl⟩]
      have hno : ¬ head.length + rest.length + tail.length > 7 := by omega
      simp [hno]

/-! ### The last colon -/

theorem lastColon_append {front last : Text} (hlast : ':' ∉ last) :
  afterLastColon (front ++ ':' :: last) = last ∧ beforeLastColon (front ++ ':' :: last) = front
  := by
  have hreverse : (front ++ ':' :: last).reverse = last.reverse ++ ':' :: front.reverse := by
    simp
  have hall : ∀ c ∈ last.reverse, decide (c ≠ ':') = true := by
    intro c hc
    rw [decide_eq_true_eq]
    rintro rfl
    exact hlast (List.mem_reverse.mp hc)
  unfold afterLastColon beforeLastColon
  rw [hreverse, List.takeWhile_append_of_pos hall, List.dropWhile_append_of_pos hall]
  simp

theorem exists_lastColon {host : Text} (h : ':' ∈ host) :
  ∃ front last, host = front ++ ':' :: last ∧ ':' ∉ last
  := by
  obtain ⟨last, front, heq, hlast⟩ := List.eq_append_cons_of_mem (List.mem_reverse.mpr h)
  refine ⟨front.reverse, last.reverse, ?_, by simpa using hlast⟩
  rw [← List.reverse_reverse host, heq]
  simp

theorem colonJoin_concat {parts : List Text} (hnil : parts ≠ []) (last : Text) :
  colonJoin (parts ++ [last]) = colonJoin parts ++ ':' :: last
  := by
  unfold colonJoin
  induction parts with
  | nil => exact absurd rfl hnil
  | cons part parts ih =>
      cases parts with
      | nil => simp
      | cons next parts =>
          rw [List.cons_append, List.cons_append, List.intercalate_cons_cons, ← List.cons_append,
            ih (List.cons_ne_nil _ _), List.intercalate_cons_cons]
          simp

theorem dot_not_mem_colonJoin {parts : List Text} {groups : List Nat}
    (h : GroupTexts parts groups) :
  '.' ∉ colonJoin parts
  := by
  unfold colonJoin
  induction h with
  | nil => simp
  | cons hpart hparts ih =>
      rename_i part parts groups
      cases parts with
      | nil =>
          rw [List.intercalate_singleton]
          exact hpart.dot
      | cons next parts =>
          rw [List.intercalate_cons_cons, List.mem_append, List.mem_append, List.mem_singleton]
          rintro ((hmem | hcolon) | hmem)
          · exact hpart.dot hmem
          · exact absurd hcolon (by decide)
          · exact ih hmem

/-- What `splitIPv4Tail` leaves of the text before an IPv4 part. -/
def bodyOfFront (front : Text) : Text :=
  if front.getLast? = some ':' then front ++ [':'] else front

theorem splitIPv4Tail_append {front last : Text} (hlast : ':' ∉ last) :
  splitIPv4Tail (front ++ ':' :: last) =
    if '.' ∈ last then
      (parseIPv4 last).map (fun value => (bodyOfFront front, quadGroups value))
    else some (front ++ ':' :: last, [])
  := by
  unfold splitIPv4Tail
  rw [(lastColon_append hlast).1, (lastColon_append hlast).2]
  rfl

/-! ### Texts with an IPv4 part -/

theorem IsQuadText.unique {quad : Text} {value other : Nat} (h : IsQuadText quad value)
    (h' : IsQuadText quad other) :
  value = other
  := by
  have heq := (parseIPv4_eq_some_iff.mpr h).symm.trans (parseIPv4_eq_some_iff.mpr h')
  exact Option.some.inj heq

theorem append_colon_inj {front front' last last' : Text} (hlast : ':' ∉ last)
    (hlast' : ':' ∉ last') (h : front ++ ':' :: last = front' ++ ':' :: last') :
  front = front' ∧ last = last'
  := by
  constructor
  · rw [← (@lastColon_append front _ hlast).2, h, (lastColon_append hlast').2]
  · rw [← (@lastColon_append front _ hlast).1, h, (lastColon_append hlast').1]

theorem getLast?_double_colon (front : Text) {parts : List Text} {groups : List Nat}
    (h : GroupTexts parts groups) :
  (front ++ ':' :: ':' :: colonJoin parts).getLast? = some ':' ↔ parts = []
  := by
  rw [List.getLast?_append_of_ne_nil _ (List.cons_ne_nil _ _), List.getLast?_cons_cons]
  constructor
  · intro hlast
    by_contra hnil
    rw [← colonJoin_eq_nil h.forall] at hnil
    rw [List.getLast?_cons_of_ne_nil hnil] at hlast
    exact (colonJoin_colons h.colons).2.2 hlast
  · rintro rfl
    rfl

theorem textForm_of_bodyForm {front quad : Text} {value : Nat} {groups : List Nat}
    (hquad : IsQuadText quad value)
    (h : BodyForm (quadGroups value) (bodyOfFront front) groups) :
  TextForm (front ++ ':' :: quad) groups
  := by
  generalize htext : bodyOfFront front = text at h
  unfold bodyOfFront at htext
  have htail : (quadGroups value).length = 2 := rfl
  cases h with
  | full hparts hlength =>
      rename_i parts groups
      have hnil : parts ≠ [] := by
        rintro rfl
        cases hparts
        rw [List.length_nil] at hlength
        omega
      split_ifs at htext with hend
      · have hlast := (colonJoin_colons hparts.colons).2.2
        rw [← htext, List.getLast?_concat] at hlast
        exact absurd rfl hlast
      · rw [htext, ← colonJoin_concat hnil]
        exact .fullQuad hparts hquad (by omega)
  | compressed hleft hright hlength =>
      rename_i left right head rest
      have hzeros : 8 - (head.length + rest.length + (quadGroups value).length) =
          6 - (head.length + rest.length) := by omega
      rw [hzeros]
      have hform := TextForm.compressedQuad hleft hright hquad (by omega)
      split_ifs at htext with hend
      · have hlast : (front ++ [':']).getLast? = some ':' := List.getLast?_concat
        rw [htext, getLast?_double_colon _ hright] at hlast
        subst hlast
        have hfront : front = colonJoin left ++ [':'] := by
          rw [← List.append_left_inj [':'], htext]
          simp [colonJoin]
        rw [hfront]
        simpa [colonJoin] using hform
      · rw [htext, getLast?_double_colon _ hright] at hend
        rw [colonJoin_concat hend] at hform
        rw [htext]
        simpa using hform

theorem bodyForm_of_textForm {front quad : Text} {value : Nat} {groups : List Nat}
    (hquad : IsQuadText quad value) (h : TextForm (front ++ ':' :: quad) groups) :
  BodyForm (quadGroups value) (bodyOfFront front) groups
  := by
  generalize hhost : front ++ ':' :: quad = host at h
  have hdot : '.' ∈ host := by
    rw [← hhost]
    exact List.mem_append_right _ (List.mem_cons_of_mem _ hquad.chars.1)
  unfold bodyOfFront
  cases h with
  | full hparts hlength => exact absurd hdot (dot_not_mem_colonJoin hparts)
  | fullQuad hparts hquad' hlength =>
      rename_i parts groups quad' value'
      have hnil : parts ≠ [] := by
        rintro rfl
        cases hparts
        cases hlength
      rw [colonJoin_concat hnil] at hhost
      obtain ⟨rfl, rfl⟩ := append_colon_inj hquad.colon hquad'.colon hhost
      rw [hquad.unique hquad', if_neg (colonJoin_colons hparts.colons).2.2]
      exact .full hparts (by rw [hlength]; rfl)
  | compressed hleft hright hlength =>
      rw [List.mem_append, List.mem_cons, List.mem_cons] at hdot
      rcases hdot with hmem | hcolon | hcolon | hmem
      · exact absurd hmem (dot_not_mem_colonJoin hleft)
      · exact absurd hcolon (by decide)
      · exact absurd hcolon (by decide)
      · exact absurd hmem (dot_not_mem_colonJoin hright)
  | compressedQuad hleft hright hquad' hlength =>
      rename_i left right head rest quad' value'
      have hlength' : head.length + rest.length + (quadGroups value').length ≤ 7 := by
        have htail : (quadGroups value').length = 2 := rfl
        omega
      have hform := BodyForm.compressed hleft hright hlength'
      have hzeros : 8 - (head.length + rest.length + (quadGroups value').length) =
          6 - (head.length + rest.length) := by
        have htail : (quadGroups value').length = 2 := rfl
        omega
      rw [hzeros] at hform
      by_cases hnil : right = []
      · subst hnil
        have hhost' : front ++ ':' :: quad = (colonJoin left ++ [':']) ++ ':' :: quad' := by
          rw [hhost]
          simp [colonJoin]
        obtain ⟨rfl, rfl⟩ := append_colon_inj hquad.colon hquad'.colon hhost'
        rw [hquad.unique hquad', if_pos List.getLast?_concat]
        simpa [colonJoin] using hform
      · rw [colonJoin_concat hnil] at hhost
        have hhost' : front ++ ':' :: quad =
            (colonJoin left ++ ':' :: ':' :: colonJoin right) ++ ':' :: quad' := by
          rw [hhost]
          simp
        obtain ⟨rfl, rfl⟩ := append_colon_inj hquad.colon hquad'.colon hhost'
        have hend : ¬ (colonJoin left ++ ':' :: ':' :: colonJoin right).getLast? = some ':' := by
          rw [getLast?_double_colon _ hright]
          exact hnil
        rw [hquad.unique hquad', if_neg hend]
        exact hform

/-! ### What is read -/

/-- A form has no dot and is one of groups alone, or it ends with an IPv4 part. -/
theorem TextForm.plain_or_quad {host : Text} {groups : List Nat} (h : TextForm host groups) :
  ('.' ∉ host ∧ BodyForm [] host groups) ∨
    ∃ front quad value, host = front ++ ':' :: quad ∧ IsQuadText quad value
  := by
  cases h with
  | full hparts hlength =>
      left
      have hform := @BodyForm.full [] _ _ hparts hlength
      rw [List.append_nil] at hform
      exact ⟨dot_not_mem_colonJoin hparts, hform⟩
  | fullQuad hparts hquad hlength =>
      right
      rename_i parts groups quad value
      have hnil : parts ≠ [] := by
        rintro rfl
        cases hparts
        cases hlength
      exact ⟨_, _, _, colonJoin_concat hnil quad, hquad⟩
  | compressed hleft hright hlength =>
      left
      have hform := @BodyForm.compressed [] _ _ _ _ hleft hright hlength
      rw [List.append_nil] at hform
      refine ⟨?_, hform⟩
      rw [List.mem_append, List.mem_cons, List.mem_cons]
      rintro (hmem | hcolon | hcolon | hmem)
      · exact dot_not_mem_colonJoin hleft hmem
      · exact absurd hcolon (by decide)
      · exact absurd hcolon (by decide)
      · exact dot_not_mem_colonJoin hright hmem
  | compressedQuad hleft hright hquad hlength =>
      right
      rename_i left right head rest quad value
      by_cases hnil : right = []
      · subst hnil
        refine ⟨colonJoin left ++ [':'], quad, value, ?_, hquad⟩
        simp [colonJoin]
      · refine ⟨colonJoin left ++ ':' :: ':' :: colonJoin right, quad, value, ?_, hquad⟩
        rw [colonJoin_concat hnil]
        simp

/-- A form of groups alone is a text form. -/
theorem BodyForm.textForm {host : Text} {groups : List Nat} (h : BodyForm [] host groups) :
  TextForm host groups
  := by
  cases h with
  | full hparts hlength =>
      rw [List.append_nil]
      exact .full hparts hlength
  | compressed hleft hright hlength =>
      rw [List.append_nil]
      exact .compressed hleft hright hlength

theorem parseIPv6Groups_eq_some_iff {host : Text} (hcolon : ':' ∈ host) {groups : List Nat} :
  parseIPv6Groups host = some groups ↔ TextForm host groups
  := by
  obtain ⟨front, last, rfl, hlast⟩ := exists_lastColon hcolon
  rw [parseIPv6Groups_eq, splitIPv4Tail_append hlast, Option.bind_eq_some_iff]
  constructor
  · rintro ⟨⟨text, tail⟩, hsplit, hbody⟩
    rw [parseBody_eq_some_iff] at hbody
    split_ifs at hsplit with hdot
    · obtain ⟨value, hvalue, heq⟩ := Option.map_eq_some_iff.mp hsplit
      cases heq
      exact textForm_of_bodyForm (parseIPv4_eq_some_iff.mp hvalue) hbody
    · cases hsplit
      exact hbody.textForm
  · intro h
    rcases h.plain_or_quad with ⟨hdot, hbody⟩ | ⟨front', quad, value, heq, hquad⟩
    · rw [if_neg (fun hmem => hdot (List.mem_append_right _ (List.mem_cons_of_mem _ hmem)))]
      exact ⟨_, rfl, parseBody_eq_some_iff.mpr hbody⟩
    · obtain ⟨rfl, rfl⟩ := append_colon_inj hlast hquad.colon heq
      rw [if_pos hquad.chars.1, parseIPv4_eq_some_iff.mpr hquad]
      exact ⟨_, rfl, parseBody_eq_some_iff.mpr (bodyForm_of_textForm hquad h)⟩

theorem TextForm.colon {host : Text} {groups : List Nat} (h : TextForm host groups) :
  ':' ∈ host
  := by
  cases h with
  | full hparts hlength =>
      rcases hparts with - | ⟨-, - | -⟩
      · cases hlength
      · cases hlength
      · simp [colonJoin]
  | fullQuad hparts hquad hlength =>
      rcases hparts with - | ⟨-, -⟩
      · cases hlength
      · rw [colonJoin_concat (List.cons_ne_nil _ _)]
        simp
  | compressed hleft hright hlength => simp
  | compressedQuad hleft hright hquad hlength => simp

/-- The bytes of the groups of an address. -/
def groupBytes (groups : List Nat) : List Nat :=
  groups.flatMap (fun group => [group / 256, group % 256])

/-- `parseIPv6` reads the text forms, and returns the bytes of each. -/
theorem parseIPv6_eq_some_iff {host : Text} {bytes : List Nat} :
  parseIPv6 host = some bytes ↔ ∃ groups, TextForm host groups ∧ bytes = groupBytes groups
  := by
  unfold parseIPv6
  constructor
  · intro h
    split_ifs at h with hcolon
    obtain ⟨groups, hgroups, rfl⟩ := Option.map_eq_some_iff.mp h
    exact ⟨groups, (parseIPv6Groups_eq_some_iff hcolon).mp hgroups, rfl⟩
  · rintro ⟨groups, hform, rfl⟩
    rw [if_pos hform.colon, (parseIPv6Groups_eq_some_iff hform.colon).mpr hform]
    rfl

/-! ### The bytes of a form -/

theorem isHexDigit_ascii {c : Char} (hc : isHexDigit c = true) :
  c.toNat < 128
  := by
  simp only [isHexDigit, Char.isDigit, Bool.or_eq_true, Bool.and_eq_true, decide_eq_true_eq,
    Char.le_def, UInt32.le_iff_toNat_le] at hc
  unfold Char.toNat
  rcases hc with (⟨-, hle⟩ | ⟨-, hle⟩) | ⟨-, hle⟩
  · exact Nat.lt_of_le_of_lt hle (by decide)
  · exact Nat.lt_of_le_of_lt hle (by decide)
  · exact Nat.lt_of_le_of_lt hle (by decide)

/-- A digit in either case is a digit of the same value below 16. -/
theorem isHexDigit_toLower {c : Char} (hc : isHexDigit c = true) :
  digitValue c < 16 ∧ isHexDigit c.toLower = true ∧ digitValue c.toLower = digitValue c
  := by
  have hascii : isHexDigit c = true → digitValue c < 16 ∧ isHexDigit c.toLower = true ∧
      digitValue c.toLower = digitValue c := by
    apply Char.of_ascii (P := fun c => isHexDigit c = true → digitValue c < 16 ∧
      isHexDigit c.toLower = true ∧ digitValue c.toLower = digitValue c)
    · decide
    · exact isHexDigit_ascii hc
  exact hascii hc

theorem foldl_digits_lt {base : Nat} {digits : Text} (hdigits : ∀ c ∈ digits, digitValue c < base)
    (n : Nat) :
  digits.foldl (fun n c => n * base + digitValue c) n < (n + 1) * base ^ digits.length
  := by
  induction digits generalizing n with
  | nil => simp
  | cons c digits ih =>
      rw [List.forall_mem_cons] at hdigits
      have hstep : n * base + digitValue c + 1 ≤ (n + 1) * base := by
        rw [Nat.add_mul, Nat.one_mul]
        exact Nat.add_le_add_left hdigits.1 _
      rw [List.foldl_cons, List.length_cons, Nat.pow_succ']
      calc digits.foldl (fun n c => n * base + digitValue c) (n * base + digitValue c)
          < (n * base + digitValue c + 1) * base ^ digits.length := ih hdigits.2 _
        _ ≤ (n + 1) * base * base ^ digits.length := Nat.mul_le_mul_right _ hstep
        _ = (n + 1) * (base * base ^ digits.length) := Nat.mul_assoc _ _ _

theorem IsGroupText.lt {part : Text} (h : IsGroupText part) :
  digitsValue 16 part < 65536
  := by
  obtain ⟨-, hlength, hdigits⟩ := h
  have hlt := foldl_digits_lt (fun c hc => (isHexDigit_toLower (hdigits c hc)).1) 0
  calc digitsValue 16 part < (0 + 1) * 16 ^ part.length := hlt
    _ ≤ 65536 := by
        rw [Nat.zero_add, Nat.one_mul]
        exact Nat.pow_le_pow_right (n := 16) (by decide) hlength

theorem GroupTexts.lt {parts : List Text} {groups : List Nat} (h : GroupTexts parts groups) :
  ∀ group ∈ groups, group < 65536
  := by
  induction h with
  | nil => exact fun _ hmem => absurd hmem List.not_mem_nil
  | cons hpart hparts ih => exact List.forall_mem_cons.mpr ⟨hpart.lt, ih⟩

theorem IsQuadText.lt {quad : Text} {value : Nat} (h : IsQuadText quad value) :
  value < 2 ^ 32
  := by
  obtain ⟨a, b, c, d, -, hparts, rfl⟩ := h
  have hoctet : ∀ part ∈ [a, b, c, d], digitsValue 10 part ≤ 255 :=
    fun part hpart => (hparts part hpart).2.2.2
  simp only [List.forall_mem_cons] at hoctet
  omega

/-- A form denotes eight groups of 16 bits. -/
theorem TextForm.groups {host : Text} {groups : List Nat} (h : TextForm host groups) :
  groups.length = 8 ∧ ∀ group ∈ groups, group < 65536
  := by
  have hquadGroups : ∀ {quad : Text} {value : Nat}, IsQuadText quad value →
      ∀ group ∈ quadGroups value, group < 65536 := by
    intro quad value hquad group hgroup
    have hlt := hquad.lt
    simp only [quadGroups, List.mem_cons, List.not_mem_nil, or_false] at hgroup
    omega
  have hzeros : ∀ {n : Nat}, ∀ group ∈ List.replicate n 0, group < 65536 := by
    intro n group hgroup
    rw [List.eq_of_mem_replicate hgroup]
    decide
  cases h with
  | full hparts hlength => exact ⟨hlength, hparts.lt⟩
  | fullQuad hparts hquad hlength =>
      constructor
      · rw [List.length_append, hlength]
        rfl
      · exact List.forall_mem_append.mpr ⟨hparts.lt, hquadGroups hquad⟩
  | compressed hleft hright hlength =>
      constructor
      · simp only [List.length_append, List.length_replicate]
        omega
      · simp only [List.forall_mem_append]
        exact ⟨⟨hleft.lt, hzeros⟩, hright.lt⟩
  | compressedQuad hleft hright hquad hlength =>
      constructor
      · simp only [List.length_append, List.length_replicate, quadGroups, List.length_cons,
          List.length_nil]
        omega
      · simp only [List.forall_mem_append]
        exact ⟨⟨⟨hleft.lt, hzeros⟩, hright.lt⟩, hquadGroups hquad⟩

/-- A form denotes 16 bytes. -/
theorem TextForm.bytes {host : Text} {groups : List Nat} (h : TextForm host groups) :
  (groupBytes groups).length = 16 ∧ ∀ byte ∈ groupBytes groups, byte < 256
  := by
  obtain ⟨hlength, hlt⟩ := h.groups
  constructor
  · simp [groupBytes, hlength]
  · intro byte hbyte
    obtain ⟨group, hgroup, hbyte⟩ := List.mem_flatMap.mp hbyte
    have hgroupLt := hlt group hgroup
    simp only [List.mem_cons, List.not_mem_nil, or_false] at hbyte
    omega

end AgentFs
