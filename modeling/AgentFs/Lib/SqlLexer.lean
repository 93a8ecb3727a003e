import Mathlib.Data.List.Induction
import Mathlib.Data.List.TakeWhile

/-!
# The tokens of SQL

SQL text is a list of tokens: words, white space, comments, quoted texts and single symbols.
Comments of the form `/* */` are nested, a quote inside a quoted text is doubled, `E'…'` has
backslash escapes, and `$tag$…$tag$` is a string without escapes.
-/

namespace SqlLexer

/-! ### Characters -/

/-- The white space of Unicode, line ends and the byte order mark. -/
def isSpace (c : Char) : Bool :=
  c = ' ' || ('\t' ≤ c && c ≤ '\r') || c = '\u00A0' || c = '\u1680' ||
    ('\u2000' ≤ c && c ≤ '\u200A') || c = '\u2028' || c = '\u2029' || c = '\u202F' ||
    c = '\u205F' || c = '\u3000' || c = '\uFEFF'

/-- A character of a word in ASCII. -/
def isWordChar (c : Char) : Bool :=
  c.isAlphanum || c = '_'

/-- A character with which a word or a number starts. -/
def isWordStart (c : Char) : Bool :=
  isWordChar c || (128 ≤ c.toNat && !isSpace c)

/-- A character with which a word or a number continues. -/
def isWordPart (c : Char) : Bool :=
  isWordStart c || c = '$'

/-- A quote of a string or of an identifier. -/
def isQuote (c : Char) : Bool :=
  c = '\'' || c = '"'

/-! ### Tokens -/

inductive Token where
  | space (text : List Char)
  | comment (text : List Char)
  | word (text : List Char)
  /-- A string or a quoted identifier, as written between its quotes; the last one of a text may
  be without its closing quote. -/
  | quoted (quote : Char) (body : List Char) (closed : Bool)
  /-- A string with escapes or between tags. -/
  | literal (text : List Char)
  | symbol (c : Char)
  deriving DecidableEq, Repr

namespace Token

def text : Token → List Char
  | space text => text
  | comment text => text
  | word text => text
  | quoted quote body closed => quote :: body ++ (if closed then [quote] else [])
  | literal text => text
  | symbol c => [c]

/-- Tokens between which the others stand. -/
def isBlank : Token → Bool
  | space _ => true
  | comment _ => true
  | _ => false

end Token

/-- The text of tokens. -/
def textOf (tokens : List Token) : List Char :=
  tokens.flatMap Token.text

/-- The value of a quoted text. -/
def undouble (quote : Char) : List Char → List Char
  | [] => []
  | [c] => [c]
  | c :: d :: rest =>
      if c = quote ∧ d = quote then quote :: undouble quote rest
      else c :: undouble quote (d :: rest)

/-! ### Reading

Each reader returns what it takes and what is left. -/

/-- The rest of a text between quotes, without its closing quote, and whether it has one. -/
def readQuoted (quote : Char) : List Char → List Char × Bool × List Char
  | [] => ([], false, [])
  | [c] => if c = quote then ([], true, []) else ([c], false, [])
  | c :: d :: rest =>
      if c ≠ quote then
        let (body, closed, rest) := readQuoted quote (d :: rest)
        (c :: body, closed, rest)
      else if d = quote then
        let (body, closed, rest) := readQuoted quote rest
        (c :: d :: body, closed, rest)
      else ([], true, d :: rest)

/-- The rest of a string with backslash escapes. -/
def readEscaped : List Char → List Char × List Char
  | [] => ([], [])
  | [c] => ([c], [])
  | c :: d :: rest =>
      if c = '\\' ∨ (c = '\'' ∧ d = '\'') then
        let (taken, rest) := readEscaped rest
        (c :: d :: taken, rest)
      else if c = '\'' then ([c], d :: rest)
      else
        let (taken, rest) := readEscaped (d :: rest)
        (c :: taken, rest)

/-- The text up to the first occurrence of a delimiter and with it. -/
def readThrough (delimiter : List Char) : List Char → List Char × List Char
  | [] => ([], [])
  | c :: rest =>
      if delimiter.isPrefixOf (c :: rest) then (delimiter, (c :: rest).drop delimiter.length)
      else
        let (taken, rest) := readThrough delimiter rest
        (c :: taken, rest)

/-- The rest of a comment in which `depth` others are open. -/
def readComment (depth : Nat) : List Char → List Char × List Char
  | [] => ([], [])
  | [c] => ([c], [])
  | c :: d :: rest =>
      if c = '*' ∧ d = '/' then
        if depth = 0 then ([c, d], rest)
        else
          let (taken, rest) := readComment (depth - 1) rest
          (c :: d :: taken, rest)
      else if c = '/' ∧ d = '*' then
        let (taken, rest) := readComment (depth + 1) rest
        (c :: d :: taken, rest)
      else
        let (taken, rest) := readComment depth (d :: rest)
        (c :: taken, rest)

/-- The delimiter of a string between tags, after its first `$`. -/
def tagOf (rest : List Char) : Option (List Char) :=
  let tag := rest.takeWhile isWordStart
  if (rest.dropWhile isWordStart).head? = some '$' ∧ tag.head?.all (fun c => !c.isDigit) then
    some ('$' :: tag ++ ['$'])
  else none

/-- The first token of a text that starts with `c`, and the text after it. -/
def readToken (c : Char) (rest : List Char) : Token × List Char :=
  if isSpace c then (.space (c :: rest.takeWhile isSpace), rest.dropWhile isSpace)
  else if isQuote c then
    let (body, closed, rest) := readQuoted c rest
    (.quoted c body closed, rest)
  else if c = '-' ∧ rest.head? = some '-' then
    (.comment (c :: rest.takeWhile (· ≠ '\n')), rest.dropWhile (· ≠ '\n'))
  else if c = '/' ∧ rest.head? = some '*' then
    let (taken, rest) := readComment 0 rest.tail
    (.comment (c :: '*' :: taken), rest)
  else if (c = 'e' ∨ c = 'E') ∧ rest.head? = some '\'' then
    let (taken, rest) := readEscaped rest.tail
    (.literal (c :: '\'' :: taken), rest)
  else if isWordStart c then (.word (c :: rest.takeWhile isWordPart), rest.dropWhile isWordPart)
  else if c = '$' then
    match tagOf rest with
    | some delimiter =>
        let (taken, rest) := readThrough delimiter (rest.drop (delimiter.length - 1))
        (.literal (delimiter ++ taken), rest)
    | none => (.symbol c, rest)
  else (.symbol c, rest)

/-- The tokens of a text of at most `fuel` characters. -/
def lexFuel : Nat → List Char → List Token
  | 0, _ => []
  | _ + 1, [] => []
  | fuel + 1, c :: rest =>
      let (token, rest) := readToken c rest
      token :: lexFuel fuel rest

/-- The tokens of a text. -/
def lex (text : List Char) : List Token :=
  lexFuel text.length text

/-! ### Kinds of characters -/

theorem isWordChar_spec {c : Char} (h : isWordChar c = true) :
  48 ≤ c.toNat ∧ c.toNat ≤ 122
  := by
  have hrange : ∀ low high : Char, 48 ≤ low.toNat → high.toNat ≤ 122 →
      c.val ≥ low.val ∧ c.val ≤ high.val → 48 ≤ c.toNat ∧ c.toNat ≤ 122 := by
    rintro low high hlow hhigh ⟨hle, hge⟩
    exact ⟨hlow.trans (UInt32.le_iff_toNat_le.mp hle), (UInt32.le_iff_toNat_le.mp hge).trans hhigh⟩
  simp only [isWordChar, Bool.or_eq_true, decide_eq_true_eq] at h
  obtain h | rfl := h
  · obtain h | hdigit := (Bool.or_eq_true _ _).mp h
    · obtain hupper | hlower := (Bool.or_eq_true _ _).mp h
      · exact hrange 'A' 'Z' (by decide) (by decide) (of_decide_eq_true hupper)
      · exact hrange 'a' 'z' (by decide) (by decide)
          (((Bool.and_eq_true _ _).mp hlower).imp of_decide_eq_true of_decide_eq_true)
    · exact hrange '0' '9' (by decide) (by decide)
        (((Bool.and_eq_true _ _).mp hdigit).imp of_decide_eq_true of_decide_eq_true)
  · decide

theorem isSpace_spec {c : Char} (h : isSpace c = true) :
  c.toNat ≤ 32 ∨ 128 ≤ c.toNat
  := by
  have hvalue : ∀ d : Char, d.toNat = d.val.toNat := fun _ => rfl
  simp only [isSpace, Bool.or_eq_true, Bool.and_eq_true, decide_eq_true_eq, Char.le_def,
    UInt32.le_iff_toNat_le] at h
  simp only [hvalue]
  obtain (((((((((rfl | h) | rfl) | rfl) | h) | rfl) | rfl) | rfl) | rfl) | rfl) | rfl := h
  · decide
  · have : '\r'.val.toNat = 13 := rfl
    omega
  · decide
  · decide
  · have : '\u2000'.val.toNat = 8192 := rfl
    omega
  · decide
  · decide
  · decide
  · decide
  · decide
  · decide

theorem isWordChar_eq_false_of_isSpace {c : Char} (h : isSpace c = true) :
  isWordChar c = false
  := by
  rw [Bool.eq_false_iff]
  intro hword
  have hword := isWordChar_spec hword
  have hspace := isSpace_spec h
  omega

theorem isSpace_eq_false_of_isWordStart {c : Char} (h : isWordStart c = true) :
  isSpace c = false
  := by
  unfold isWordStart at h
  rw [Bool.or_eq_true] at h
  cases h with
  | inl hword =>
      rw [Bool.eq_false_iff]
      intro hspace
      rw [isWordChar_eq_false_of_isSpace hspace] at hword
      cases hword
  | inr h => simpa using (Bool.and_eq_true_iff.mp h).2

theorem isWordPart_eq_false_of_isSpace {c : Char} (h : isSpace c = true) :
  isWordPart c = false
  := by
  rw [Bool.eq_false_iff]
  intro hpart
  rw [isWordPart, Bool.or_eq_true, decide_eq_true_eq] at hpart
  obtain hstart | rfl := hpart
  · rw [isSpace_eq_false_of_isWordStart hstart] at h
    cases h
  · cases h

theorem isSpace_eq_false_of_isQuote {c : Char} (h : isQuote c = true) :
  isSpace c = false
  := by
  rw [isQuote, Bool.or_eq_true, decide_eq_true_eq, decide_eq_true_eq] at h
  obtain rfl | rfl := h
  · decide
  · decide

/-! ### What the readers take -/

theorem readQuoted_append (quote : Char) (text : List Char) :
  (readQuoted quote text).1 ++
      ((if (readQuoted quote text).2.1 then [quote] else []) ++ (readQuoted quote text).2.2) = text
  := by
  fun_induction readQuoted quote text with
  | case1 => rfl
  | case2 => rfl
  | case3 c h => simp
  | case4 c d rest h body closed rest' heq ih =>
      rw [heq] at ih
      simpa using ih
  | case5 c rest h body closed rest' heq ih =>
      rw [heq] at ih
      simpa using ih
  | case6 c d rest h hd => simpa using (not_not.mp h).symm

/-- A quoted text ends at its last quote or at the end of the text. -/
theorem readQuoted_rest (quote : Char) (text : List Char) :
  if (readQuoted quote text).2.1 then (readQuoted quote text).2.2.head? ≠ some quote
  else (readQuoted quote text).2.2 = []
  := by
  fun_induction readQuoted quote text with
  | case1 => rfl
  | case2 => simp
  | case3 c h => simp
  | case4 c d rest h body closed rest' heq ih =>
      rw [heq] at ih
      exact ih
  | case5 c rest h body closed rest' heq ih =>
      rw [heq] at ih
      exact ih
  | case6 => simpa

/-- A text without a quote, up to a quote that is not doubled. -/
theorem readQuoted_of_plain {quote : Char} {body rest : List Char} (hbody : quote ∉ body)
    (hrest : rest.head? ≠ some quote) :
  readQuoted quote (body ++ quote :: rest) = (body, true, rest)
  := by
  induction body with
  | nil =>
      cases rest with
      | nil => simp [readQuoted]
      | cons d rest =>
          have hd : d ≠ quote := fun h => hrest (congrArg some h)
          simp [readQuoted, hd]
  | cons c body ih =>
      have hc : c ≠ quote := (List.ne_of_not_mem_cons hbody).symm
      have ih := ih (List.not_mem_of_not_mem_cons hbody)
      obtain ⟨d, tail, htail⟩ : ∃ d tail, body ++ quote :: rest = d :: tail :=
        List.exists_cons_of_ne_nil (by simp)
      rw [htail] at ih
      rw [List.cons_append, htail, readQuoted, if_pos hc, ih]

theorem readEscaped_append (text : List Char) :
  (readEscaped text).1 ++ (readEscaped text).2 = text
  := by
  fun_induction readEscaped text with
  | case1 => rfl
  | case2 => rfl
  | case3 c d rest h taken rest' heq ih =>
      rw [heq] at ih
      simpa using ih
  | case4 => rfl
  | case5 c d rest h hc taken rest' heq ih =>
      rw [heq] at ih
      simpa using ih

theorem readThrough_append (delimiter text : List Char) :
  (readThrough delimiter text).1 ++ (readThrough delimiter text).2 = text
  := by
  fun_induction readThrough delimiter text with
  | case1 => rfl
  | case2 c rest h =>
      obtain ⟨tail, htail⟩ := List.isPrefixOf_iff_prefix.mp h
      rw [← htail]
      simp
  | case3 c rest h taken rest' heq ih =>
      rw [heq] at ih
      simpa using ih

theorem readComment_append (depth : Nat) (text : List Char) :
  (readComment depth text).1 ++ (readComment depth text).2 = text
  := by
  fun_induction readComment depth text <;> simp_all

/-! ### Where the readers stop -/

theorem readEscaped_last {text : List Char} (h : (readEscaped text).2 ≠ []) :
  (readEscaped text).1.getLast? = some '\''
  := by
  fun_induction readEscaped text with
  | case1 => exact absurd rfl h
  | case2 => exact absurd rfl h
  | case3 c d rest hc taken rest' heq ih =>
      rw [heq] at ih
      simp [List.getLast?_cons, ih h]
  | case4 d rest hc => rfl
  | case5 c d rest hc hquote taken rest' heq ih =>
      rw [heq] at ih
      simp [List.getLast?_cons, ih h]

theorem readThrough_last {delimiter text : List Char} (hne : delimiter ≠ [])
    (h : (readThrough delimiter text).2 ≠ []) :
  (readThrough delimiter text).1.getLast? = delimiter.getLast?
  := by
  fun_induction readThrough delimiter text with
  | case1 => exact absurd rfl h
  | case2 => rfl
  | case3 c rest hc taken rest' heq ih =>
      rw [heq] at ih
      rw [List.getLast?_cons, ih h]
      simp [List.getLast?_eq_some_getLast hne]

theorem readComment_last {depth : Nat} {text : List Char} (h : (readComment depth text).2 ≠ []) :
  (readComment depth text).1.getLast? = some '/'
  := by
  fun_induction readComment depth text with
  | case1 => exact absurd rfl h
  | case2 => exact absurd rfl h
  | case3 => simp_all
  | case4 depth c d rest hc hdepth taken rest' heq ih =>
      rw [heq] at ih
      simp [List.getLast?_cons, ih h]
  | case5 depth c d rest hc hopen taken rest' heq ih =>
      rw [heq] at ih
      simp [List.getLast?_cons, ih h]
  | case6 depth c d rest hc hopen taken rest' heq ih =>
      rw [heq] at ih
      simp [List.getLast?_cons, ih h]

/-! ### Tokens of a text -/

theorem tagOf_spec {rest delimiter : List Char} (h : tagOf rest = some delimiter) :
  ∃ tag, delimiter = '$' :: tag ++ ['$'] ∧ ∃ tail, rest = tag ++ '$' :: tail
  := by
  unfold tagOf at h
  dsimp only at h
  split at h
  · rename_i hhead
    obtain ⟨tail, htail⟩ := List.head?_eq_some_iff.mp hhead.1
    refine ⟨rest.takeWhile isWordStart, (Option.some.inj h).symm, tail, ?_⟩
    rw [← htail, List.takeWhile_append_dropWhile]
  · cases h

/-- A text is cut after its first token: no word starts where the token could go on with it. -/
structure Cut (token : Token) (rest text : List Char) : Prop where
  append : token.text ++ rest = text
  apart : ∀ d, rest.head? = some d → isWordStart d = true →
    ∀ e, token.text.getLast? = some e → isWordChar e = false

/-- A token whose last character is in no word, or after which nothing is left. -/
theorem Cut.of_last {token : Token} {rest text : List Char} (happend : token.text ++ rest = text)
    (hlast : rest ≠ [] → ∀ e, token.text.getLast? = some e → isWordChar e = false) :
  Cut token rest text
  := by
  refine ⟨happend, fun d hd _ => hlast ?_⟩
  intro hrest
  rw [hrest] at hd
  cases hd

theorem cut_space {c : Char} (rest : List Char) (h : isSpace c = true) :
  Cut (.space (c :: rest.takeWhile isSpace)) (rest.dropWhile isSpace) (c :: rest)
  := by
  apply Cut.of_last
  · simp [Token.text]
  · intro _ e he
    apply isWordChar_eq_false_of_isSpace
    obtain rfl | he := List.mem_cons.mp (List.mem_of_getLast? he)
    · exact h
    · exact List.mem_takeWhile_imp he

theorem cut_quoted {c : Char} (rest : List Char) (h : isQuote c = true) :
  Cut (.quoted c (readQuoted c rest).1 (readQuoted c rest).2.1) (readQuoted c rest).2.2 (c :: rest)
  := by
  apply Cut.of_last
  · simpa [Token.text] using readQuoted_append c rest
  · intro hrest e he
    have hclosed := readQuoted_rest c rest
    cases hend : (readQuoted c rest).2.1 with
    | false =>
        rw [hend] at hclosed
        exact absurd hclosed hrest
    | true =>
        rw [hend, Token.text, if_pos rfl, List.getLast?_concat, Option.some.injEq] at he
        rw [isQuote, Bool.or_eq_true, decide_eq_true_eq, decide_eq_true_eq] at h
        obtain rfl | rfl := h
        · rw [← he]
          rfl
        · rw [← he]
          rfl

theorem cut_line (c : Char) (rest : List Char) :
  Cut (.comment (c :: rest.takeWhile (· ≠ '\n'))) (rest.dropWhile (· ≠ '\n')) (c :: rest)
  := by
  refine ⟨by simp [Token.text], fun d hd hword => ?_⟩
  have hline := List.head?_dropWhile_not (· ≠ '\n') rest
  rw [hd] at hline
  have hline : d = '\n' := by simpa using hline
  rw [hline] at hword
  cases hword

theorem cut_comment (c : Char) (rest : List Char) :
  Cut (.comment (c :: '*' :: (readComment 0 rest).1)) (readComment 0 rest).2 (c :: '*' :: rest)
  := by
  apply Cut.of_last
  · simpa [Token.text] using readComment_append 0 rest
  · intro hrest e he
    rw [Token.text, List.getLast?_cons, List.getLast?_cons, readComment_last hrest] at he
    cases he
    rfl

theorem cut_escaped (c : Char) (rest : List Char) :
  Cut (.literal (c :: '\'' :: (readEscaped rest).1)) (readEscaped rest).2 (c :: '\'' :: rest)
  := by
  apply Cut.of_last
  · simpa [Token.text] using readEscaped_append rest
  · intro hrest e he
    rw [Token.text, List.getLast?_cons, List.getLast?_cons, readEscaped_last hrest] at he
    cases he
    rfl

theorem cut_tagged (tag rest : List Char) :
  Cut (.literal (('$' :: tag ++ ['$']) ++ (readThrough ('$' :: tag ++ ['$']) rest).1))
    (readThrough ('$' :: tag ++ ['$']) rest).2 ('$' :: tag ++ '$' :: rest)
  := by
  apply Cut.of_last
  · simpa [Token.text] using readThrough_append ('$' :: tag ++ ['$']) rest
  · intro hrest e he
    rw [Token.text, List.getLast?_append, readThrough_last (by simp) hrest,
      List.getLast?_concat] at he
    cases he
    rfl

theorem cut_word {c : Char} (rest : List Char) :
  Cut (.word (c :: rest.takeWhile isWordPart)) (rest.dropWhile isWordPart) (c :: rest)
  := by
  refine ⟨by simp [Token.text], fun d hd hword => ?_⟩
  have hpart := List.head?_dropWhile_not isWordPart rest
  rw [hd] at hpart
  have hpart : isWordPart d = false := by simpa using hpart
  rw [isWordPart, hword] at hpart
  cases hpart

theorem cut_symbol {c : Char} (rest : List Char) (h : isWordStart c = false) :
  Cut (.symbol c) rest (c :: rest)
  := by
  apply Cut.of_last
  · rfl
  · intro _ e he
    cases he
    exact (Bool.or_eq_false_iff.mp h).1

theorem readToken_cut (c : Char) (rest : List Char) :
  Cut (readToken c rest).1 (readToken c rest).2 (c :: rest)
  := by
  fun_cases readToken c rest with
  | case1 hspace => exact cut_space rest hspace
  | case2 hspace hquote body closed rest' heq =>
      have hcut := cut_quoted rest hquote
      rw [heq] at hcut
      exact hcut
  | case3 => exact cut_line c rest
  | case4 hspace hquote hdash hcomment taken rest' heq =>
      obtain ⟨tail, rfl⟩ := List.head?_eq_some_iff.mp hcomment.2
      have hcut := cut_comment c tail
      rw [List.tail_cons] at heq
      rw [heq] at hcut
      exact hcut
  | case5 hspace hquote hdash hcomment hescape taken rest' heq =>
      obtain ⟨tail, rfl⟩ := List.head?_eq_some_iff.mp hescape.2
      have hcut := cut_escaped c tail
      rw [List.tail_cons] at heq
      rw [heq] at hcut
      exact hcut
  | case6 => exact cut_word rest
  | case7 hspace hquote hdash hcomment hescape hword hdollar delimiter htag taken rest' heq =>
      obtain ⟨tag, rfl, tail, rfl⟩ := tagOf_spec htag
      have hdrop : (tag ++ '$' :: tail).drop (('$' :: tag ++ ['$']).length - 1) = tail := by simp
      have hcut := cut_tagged tag tail
      rw [hdrop] at heq
      rw [heq] at hcut
      rw [hdollar]
      exact hcut
  | case8 hspace hquote hdash hcomment hescape hword =>
      exact cut_symbol rest (Bool.eq_false_iff.mpr hword)
  | case9 hspace hquote hdash hcomment hescape hword =>
      exact cut_symbol rest (Bool.eq_false_iff.mpr hword)

theorem readToken_text_ne_nil (c : Char) (rest : List Char) :
  (readToken c rest).1.text ≠ []
  := by
  fun_cases readToken c rest with
  | case7 hspace hquote hdash hcomment hescape hword hdollar delimiter htag =>
      obtain ⟨tag, rfl, -⟩ := tagOf_spec htag
      simp [Token.text]
  | _ => simp [Token.text]

/-- What a token says about its characters and about the text after it. -/
def Token.Fits (rest : List Char) : Token → Prop
  | .space text => ∀ c ∈ text, isSpace c = true
  | .word text => ∃ c ∈ text.head?, isWordStart c = true
  | .quoted quote _ closed => isQuote quote = true ∧ (closed = true → rest.head? ≠ some quote)
  | _ => True

theorem readToken_fits (c : Char) (rest : List Char) :
  (readToken c rest).1.Fits (readToken c rest).2
  := by
  fun_cases readToken c rest with
  | case1 hspace =>
      intro d hd
      obtain rfl | hd := List.mem_cons.mp hd
      · exact hspace
      · exact List.mem_takeWhile_imp hd
  | case2 hspace hquote body closed rest' heq =>
      have hrest := readQuoted_rest c rest
      rw [heq] at hrest
      refine ⟨hquote, fun hclosed => ?_⟩
      rw [if_pos hclosed] at hrest
      exact hrest
  | case6 hspace hquote hdash hcomment hescape hword => exact ⟨c, rfl, hword⟩
  | _ => trivial

theorem length_readToken_lt (c : Char) (rest : List Char) :
  (readToken c rest).2.length < (c :: rest).length
  := by
  have hlength := congrArg List.length (readToken_cut c rest).append
  rw [List.length_append] at hlength
  have hpos := List.length_pos_iff.mpr (readToken_text_ne_nil c rest)
  omega

theorem lexFuel_cons (fuel : Nat) (c : Char) (rest : List Char) :
  lexFuel (fuel + 1) (c :: rest) = (readToken c rest).1 :: lexFuel fuel (readToken c rest).2
  := by
  conv_lhs => unfold lexFuel

theorem lexFuel_eq_lex {fuel : Nat} {text : List Char} (h : text.length ≤ fuel) :
  lexFuel fuel text = lex text
  := by
  unfold lex
  generalize hm : text.length = m at *
  have hlength : text.length ≤ m := Nat.le_of_eq hm
  clear hm
  induction m generalizing fuel text with
  | zero =>
      rw [List.length_eq_zero_iff.mp (Nat.le_zero.mp hlength)]
      cases fuel with
      | zero => rfl
      | succ fuel => rfl
  | succ m ih =>
      cases text with
      | nil =>
          cases fuel with
          | zero => rfl
          | succ fuel => rfl
      | cons c rest =>
          obtain ⟨fuel, rfl⟩ : ∃ n, fuel = n + 1 := ⟨fuel - 1, by omega⟩
          have hrest := length_readToken_lt c rest
          rw [List.length_cons] at hrest hlength
          rw [lexFuel_cons, lexFuel_cons, ih (by omega) (by omega)]

theorem lex_nil :
  lex [] = []
  := rfl

theorem lex_cons (c : Char) (rest : List Char) :
  lex (c :: rest) = (readToken c rest).1 :: lex (readToken c rest).2
  := by
  have hrest := length_readToken_lt c rest
  rw [List.length_cons] at hrest
  rw [lex, List.length_cons, lexFuel_cons, lexFuel_eq_lex (Nat.le_of_lt_succ hrest)]

theorem textOf_append (before after : List Token) :
  textOf (before ++ after) = textOf before ++ textOf after
  := List.flatMap_append

theorem textOf_cons (token : Token) (tokens : List Token) :
  textOf (token :: tokens) = token.text ++ textOf tokens
  := List.flatMap_cons

theorem textOf_lex (text : List Char) :
  textOf (lex text) = text
  := by
  induction hn : text.length using Nat.strong_induction_on generalizing text with
  | _ n ih =>
      cases text with
      | nil => rfl
      | cons c rest =>
          rw [lex_cons, textOf_cons, ih _ (hn ▸ length_readToken_lt c rest) _ rfl,
            (readToken_cut c rest).append]

/-- The tokens from a token on are those of the text from it on. -/
theorem lex_textOf {text : List Char} {before after : List Token} (h : lex text = before ++ after) :
  lex (textOf after) = after
  := by
  induction before generalizing text with
  | nil =>
      rw [List.nil_append] at h
      rw [← h, textOf_lex]
  | cons token before ih =>
      cases text with
      | nil => cases h
      | cons c rest =>
          rw [lex_cons, List.cons_append, List.cons.injEq] at h
          exact ih h.2

/-- The first token of a text and what it leaves. -/
theorem readToken_of_lex {text : List Char} {token : Token} {after : List Token}
    (h : lex text = token :: after) :
  ∃ c rest, text = c :: rest ∧ token = (readToken c rest).1 ∧ textOf after = (readToken c rest).2
  := by
  cases text with
  | nil => cases h
  | cons c rest =>
      rw [lex_cons, List.cons.injEq] at h
      refine ⟨c, rest, rfl, h.1.symm, ?_⟩
      rw [← h.2, textOf_lex]

theorem fits_of_lex {text : List Char} {token : Token} {before after : List Token}
    (h : lex text = before ++ token :: after) :
  token.Fits (textOf after) ∧ token.text ≠ []
  := by
  obtain ⟨c, rest, -, rfl, hafter⟩ := readToken_of_lex (lex_textOf h)
  rw [hafter]
  exact ⟨readToken_fits c rest, readToken_text_ne_nil c rest⟩

/-- A word does not start after a character of a word. -/
theorem isWordChar_before_word {text word : List Char} {before after : List Token}
    (h : lex text = before ++ .word word :: after) {e : Char}
    (he : (textOf before).getLast? = some e) :
  isWordChar e = false
  := by
  induction before using List.reverseRecOn with
  | nil => cases he
  | append_singleton before token _ =>
      rw [List.append_assoc] at h
      obtain ⟨hne, hlast⟩ : token.text ≠ [] ∧ (textOf (before ++ [token])).getLast? =
          token.text.getLast? := by
        have hne := (fits_of_lex h).2
        refine ⟨hne, ?_⟩
        rw [textOf_append, textOf_cons, List.getLast?_append, textOf, List.flatMap_nil,
          List.append_nil, List.getLast?_eq_some_getLast hne]
        rfl
      obtain ⟨c, rest, -, htoken, hafter⟩ := readToken_of_lex (lex_textOf h)
      have hword : lex text = (before ++ [token]) ++ .word word :: after := by
        rw [h, List.append_assoc]
      obtain ⟨⟨d, hd, hstart⟩, -⟩ := fits_of_lex hword
      have hhead : (readToken c rest).2.head? = some d := by
        rw [← hafter, List.append_eq, List.nil_append, textOf_cons, Token.text, List.head?_append, hd]
        rfl
      rw [hlast, htoken] at he
      exact (readToken_cut c rest).apart d hhead hstart e he

theorem eq_nil_of_textOf {text : List Char} {before middle after : List Token}
    (h : lex text = before ++ (middle ++ after)) (hmiddle : textOf middle = []) :
  middle = []
  := by
  cases middle with
  | nil => rfl
  | cons token middle =>
      rw [textOf_cons] at hmiddle
      exact absurd (List.append_eq_nil_iff.mp hmiddle).1 (fits_of_lex h).2

/-- The tokens before a place are determined by the text before it. -/
theorem before_unique {text : List Char} {before before' after after' : List Token}
    (h : lex text = before ++ after) (h' : lex text = before' ++ after')
    (htext : textOf before = textOf before') :
  before = before' ∧ after = after'
  := by
  obtain ⟨middle, rfl, rfl⟩ | ⟨middle, rfl, rfl⟩ := List.append_eq_append_iff.mp (h.symm.trans h')
  · rw [textOf_append, List.self_eq_append_right] at htext
    rw [eq_nil_of_textOf h htext, List.append_nil]
    exact ⟨rfl, rfl⟩
  · rw [textOf_append, List.append_right_eq_self] at htext
    rw [eq_nil_of_textOf h' htext, List.append_nil]
    exact ⟨rfl, rfl⟩

/-! ### Texts that are read as they are written -/

theorem readToken_word {c : Char} (rest : List Char) (hword : isWordChar c = true)
    (hescape : c ≠ 'e' ∧ c ≠ 'E') :
  readToken c rest = (.word (c :: rest.takeWhile isWordPart), rest.dropWhile isWordPart)
  := by
  have hstart : isWordStart c = true := by rw [isWordStart, hword, Bool.true_or]
  have hcode := isWordChar_spec hword
  have hne : ∀ d : Char, d.toNat < 48 → c ≠ d := by
    rintro d hd rfl
    omega
  have hquote : isQuote c = false := by
    rw [isQuote, decide_eq_false (hne '\'' (by decide)), decide_eq_false (hne '"' (by decide))]
    rfl
  rw [readToken, isSpace_eq_false_of_isWordStart hstart, hquote, hstart]
  simp [hne '-' (by decide), hne '/' (by decide), hescape.1, hescape.2]

theorem readToken_quote {c : Char} (rest : List Char) (h : isQuote c = true) :
  readToken c rest =
    (.quoted c (readQuoted c rest).1 (readQuoted c rest).2.1, (readQuoted c rest).2.2)
  := by
  rw [readToken, isSpace_eq_false_of_isQuote h, h]
  rfl

theorem readToken_space {c : Char} (rest : List Char) (h : isSpace c = true) :
  readToken c rest = (.space (c :: rest.takeWhile isSpace), rest.dropWhile isSpace)
  := by
  rw [readToken, if_pos h]

/-- The elements with `p` before the first one without. -/
theorem span_of_all {p : Char → Bool} {taken : List Char} (rest : List Char)
    (htaken : ∀ c ∈ taken, p c = true) (hrest : ∀ c, rest.head? = some c → p c = false) :
  (taken ++ rest).takeWhile p = taken ∧ (taken ++ rest).dropWhile p = rest
  := by
  rw [List.takeWhile_append_of_pos htaken, List.dropWhile_append_of_pos htaken]
  cases rest with
  | nil => simp
  | cons c rest => simp [hrest c rfl]

/-- A word, white space and a quoted text. -/
theorem lex_word_space_quoted {c quote : Char} {word space body rest : List Char}
    (hc : isWordChar c = true) (hescape : c ≠ 'e' ∧ c ≠ 'E')
    (hword : ∀ d ∈ word, isWordChar d = true) (hne : space ≠ [])
    (hspace : ∀ d ∈ space, isSpace d = true) (hquote : isQuote quote = true)
    (hbody : quote ∉ body) (hrest : rest.head? ≠ some quote) :
  lex (c :: word ++ (space ++ quote :: (body ++ quote :: rest))) =
    .word (c :: word) :: .space space :: .quoted quote body true :: lex rest
  := by
  obtain ⟨s, space, rfl⟩ := List.exists_cons_of_ne_nil hne
  have hpart : ∀ d ∈ word, isWordPart d = true := by
    intro d hd
    rw [isWordPart, isWordStart, hword d hd]
    rfl
  have hwordSpan := span_of_all (s :: space ++ quote :: (body ++ quote :: rest)) hpart (by
    rintro d hd
    cases hd
    exact isWordPart_eq_false_of_isSpace (hspace s List.mem_cons_self))
  have hspaceSpan := span_of_all (quote :: (body ++ quote :: rest))
    (fun d hd => hspace d (List.mem_cons_of_mem s hd)) (by
      rintro d hd
      cases hd
      exact isSpace_eq_false_of_isQuote hquote)
  rw [List.cons_append, lex_cons, readToken_word _ hc hescape, hwordSpan.1, hwordSpan.2,
    List.cons_append, lex_cons, readToken_space _ (hspace s List.mem_cons_self), hspaceSpan.1,
    hspaceSpan.2, lex_cons, readToken_quote _ hquote, readQuoted_of_plain hbody hrest]

end SqlLexer
