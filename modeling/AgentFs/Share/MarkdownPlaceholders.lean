import AgentFs.Share.MarkdownIds
import AgentFs.Share.MarkdownSlots

/-!
# Placeholders in html

A parser that hands on placeholders whole gets html in which they are still whole, so that the
renderer puts back what they stand for.
-/

namespace AgentFs

/-! ### Marked html -/

def PlainHtml (html : Html) : Prop :=
  ∀ c ∈ html, Plain c.char

/-- The slots of the placeholders in html. -/
def marksOf (html : Html) : List Nat :=
  (placeholders html).filterMap Sum.getRight?

@[simp]
theorem charsOf_append (html html' : Html) :
  charsOf (html ++ html') = charsOf html ++ charsOf html'
  := List.map_append

@[simp]
theorem charsOf_fromSource (text : Text) :
  charsOf (fromSource text) = text
  := by
  unfold charsOf fromSource
  rw [List.map_map]
  exact List.map_id text

@[simp]
theorem fromSource_append (text text' : Text) :
  fromSource (text ++ text') = fromSource text ++ fromSource text'
  := List.map_append

theorem takeWhile_decimal (i : Nat) {c : Char} (hc : c.isDigit = false) (text : Text) :
  (decimal i ++ c :: text).takeWhile Char.isDigit = decimal i
  := by
  rw [List.takeWhile_append_of_pos (fun _ => isDigit_of_mem_decimal),
    List.takeWhile_cons_of_neg (by rw [hc]; exact Bool.false_ne_true), List.append_nil]

/-- A placeholder is found as a whole. -/
theorem placeholderAt_mark {mark : Html} {i : Nat} (h : charsOf mark = placeholder i)
    (before html : Html) :
  placeholderAt before (mark ++ html) = some (mark.length, i)
  := by
  cases mark with
  | nil => cases h
  | cons c mark =>
      injection h with hopen hmark
      have hchars : charsOf (mark ++ html) = decimal i ++ phClose :: charsOf html := by
        rw [charsOf_append]
        unfold charsOf
        rw [hmark, List.append_assoc]
        rfl
      have hdigits : (charsOf (mark ++ html)).takeWhile Char.isDigit = decimal i := by
        rw [hchars]
        exact takeWhile_decimal i rfl _
      have hlength : mark.length = (decimal i).length + 1 := by
        have hlength := congrArg List.length hmark
        simpa using hlength
      have hvalue : Nat.ofDigitChars 10 (decimal i) 0 = i := Nat.ofDigitChars_ten_toDigits
      unfold placeholderAt
      simp only [List.cons_append]
      rw [hdigits, if_pos, hvalue, List.length_cons, hlength]
      refine ⟨hopen, Nat.toDigits_ne_nil, ?_⟩
      rw [hchars, List.drop_left, List.head?_cons]

/-- Marked html has the placeholders that spell it. -/
theorem placeholders_of_marked {n : Nat} {html : Html} {pieces : List (HtmlChar ⊕ Nat)}
    (h : Marked HtmlChar.char n html pieces) :
  placeholders html = pieces
  := by
  have hscan : ∀ before : Html, (Matches.scan placeholderAt 0 before html).map
      (Sum.map id Prod.snd) = pieces := by
    induction h with
    | nil => exact fun _ => rfl
    | @plain c html pieces hc h ih =>
        intro before
        have hnone : placeholderAt before (c :: html) = none := by
          simp only [placeholderAt, hc.1, false_and, if_false]
        rw [Matches.scan_cons_none hnone, List.map_cons, ih]
        rfl
    | @mark i mark html pieces hi hmark h ih =>
        intro before
        have hpos : 0 < mark.length := by
          have hlength := congrArg List.length hmark
          simp only [List.length_map, placeholder, List.length_cons] at hlength
          omega
        obtain ⟨before', hrest⟩ := Matches.scan_of_match (placeholderAt_mark hmark before html)
          hpos (by
            intro hnil
            rw [(List.append_eq_nil_iff.mp hnil).1] at hpos
            exact absurd hpos (Nat.lt_irrefl 0))
        rw [hrest, List.drop_left, List.map_cons, ih]
        rfl
  exact hscan []

/-- The slots that pieces name. -/
def pieceMarks {β : Type} (pieces : List (β ⊕ Nat)) : List Nat :=
  pieces.filterMap Sum.getRight?

section

variable {β : Type}

@[simp]
theorem pieceMarks_inl (b : β) (pieces : List (β ⊕ Nat)) :
  pieceMarks (.inl b :: pieces) = pieceMarks pieces
  := rfl

@[simp]
theorem pieceMarks_inr (i : Nat) (pieces : List (β ⊕ Nat)) :
  pieceMarks (.inr i :: pieces) = i :: pieceMarks pieces
  := rfl

@[simp]
theorem pieceMarks_append (pieces pieces' : List (β ⊕ Nat)) :
  pieceMarks (pieces ++ pieces') = pieceMarks pieces ++ pieceMarks pieces'
  := List.filterMap_append

@[simp]
theorem pieceMarks_map_inl (list : List β) :
  pieceMarks (list.map .inl) = []
  := by
  induction list with
  | nil => rfl
  | cons b list ih => exact ih

theorem mem_pieceMarks {pieces : List (β ⊕ Nat)} {i : Nat} :
  i ∈ pieceMarks pieces ↔ .inr i ∈ pieces
  := by simp [pieceMarks, List.mem_filterMap]

end

theorem marksOf_of_marked {n : Nat} {html : Html} {pieces : List (HtmlChar ⊕ Nat)}
    (h : Marked HtmlChar.char n html pieces) :
  marksOf html = pieceMarks pieces
  := by
  unfold marksOf pieceMarks
  rw [placeholders_of_marked h]

/-! ### Escaped text -/

theorem escapeHtml_append (text text' : Text) :
  escapeHtml (text ++ text') = escapeHtml text ++ escapeHtml text'
  := by simp [escapeHtml]

/-- What `escapeHtml` writes for a character. -/
theorem mem_escapeChar {c d : Char} (h : d ∈ escapeChar c) :
  d = c ∨ d ∈ "&lt;gtquo#39amp".toList
  := by
  unfold escapeChar at h
  split at h
  case h_6 => exact .inl (List.mem_singleton.mp h)
  all_goals
    right
    exact List.forall_mem_of_all (by decide) d h

theorem escapeChar_of_mem_placeholder {c : Char} {i : Nat} (h : c ∈ placeholder i) :
  escapeChar c = [c]
  := by
  have hspecial : ∀ d ∈ ['&', '<', '>', '"', '\''], Breaks d :=
    List.forall_mem_of_all (by decide)
  unfold escapeChar
  split
  case h_6 => rfl
  all_goals
    exact absurd h ((hspecial _ (by decide)).not_mem_placeholder i)

/-- The html of a text run has the placeholders of the run. -/
theorem marked_escapeHtml {n : Nat} {text : Text} {pieces : List (Char ⊕ Nat)}
    (h : Marked id n text pieces) :
  ∃ pieces', Marked HtmlChar.char n (escapeHtml text) pieces' ∧
    pieceMarks pieces' = pieceMarks pieces
  := by
  induction h with
  | nil => exact ⟨[], .nil, rfl⟩
  | @plain c text pieces hc h ih =>
      obtain ⟨pieces', hpieces, hmarks⟩ := ih
      have hplain : ∀ d ∈ escapeHtml [c], Plain d.char := by
        intro d hd
        obtain ⟨e, he, rfl⟩ := List.mem_map.mp hd
        rw [List.flatMap_cons, List.flatMap_nil, List.append_nil] at he
        have hwritten : ∀ d ∈ "&lt;gtquo#39amp".toList, Plain d :=
          List.forall_mem_of_all (by decide)
        obtain rfl | hmem := mem_escapeChar he
        · exact hc
        · exact hwritten e hmem
      refine ⟨(escapeHtml [c]).map .inl ++ pieces', ?_, ?_⟩
      · have hhtml : escapeHtml (c :: text) = escapeHtml [c] ++ escapeHtml text :=
          escapeHtml_append [c] text
        rw [hhtml]
        exact (Marked.ofPlain hplain).append hpieces
      · simp [hmarks]
  | @mark i mark text pieces hi hmark h ih =>
      obtain ⟨pieces', hpieces, hmarks⟩ := ih
      rw [List.map_id] at hmark
      refine ⟨.inr i :: pieces', ?_, by simp [hmarks]⟩
      rw [escapeHtml_append]
      apply Marked.mark hi _ hpieces
      have hsame : mark.flatMap escapeChar = mark := by
        rw [hmark]
        conv_rhs => rw [← List.flatMap_singleton' (placeholder i)]
        apply List.flatMap_congr
        intro c hc
        exact escapeChar_of_mem_placeholder hc
      unfold escapeHtml
      rw [hsame, ← hmark]
      exact charsOf_fromSource mark

/-- A text has the placeholders that it is spelled with. -/
theorem marked_fromSource {n : Nat} {text : Text} {pieces : List (Char ⊕ Nat)}
    (h : Marked id n text pieces) :
  ∃ pieces', Marked HtmlChar.char n (fromSource text) pieces' ∧
    pieceMarks pieces' = pieceMarks pieces
  := by
  induction h with
  | nil => exact ⟨[], .nil, rfl⟩
  | @plain c text pieces hc h ih =>
      obtain ⟨pieces', hpieces, hmarks⟩ := ih
      exact ⟨.inl ⟨c, .source⟩ :: pieces', .plain hc hpieces, by simp [hmarks]⟩
  | @mark i mark text pieces hi hmark h ih =>
      obtain ⟨pieces', hpieces, hmarks⟩ := ih
      refine ⟨.inr i :: pieces', ?_, by simp [hmarks]⟩
      rw [List.map_id] at hmark
      rw [fromSource_append]
      apply Marked.mark hi _ hpieces
      rw [← hmark]
      exact charsOf_fromSource mark

theorem marked_run {n : Nat} {run : Text} (h : Whole n run) :
  ∃ pieces, Marked HtmlChar.char n (escapeHtml run) pieces ∧
    pieceMarks pieces = marksOf (fromSource run)
  := by
  obtain ⟨spelled, hspelled⟩ := h
  obtain ⟨pieces, hpieces, hmarks⟩ := marked_escapeHtml hspelled
  obtain ⟨plain, hplain, hmarks'⟩ := marked_fromSource hspelled
  exact ⟨pieces, hpieces, by rw [hmarks, marksOf_of_marked hplain, hmarks']⟩

/-! ### Plain html -/

theorem PlainHtml.append {html html' : Html} (h : PlainHtml html) (h' : PlainHtml html') :
  PlainHtml (html ++ html')
  := by
  intro c hc
  obtain hc | hc := List.mem_append.mp hc
  · exact h c hc
  · exact h' c hc

theorem plain_shape {text : Text} (h : PlainText text) :
  PlainHtml (shape text)
  := by
  intro c hc
  obtain ⟨d, hd, rfl⟩ := List.mem_map.mp hc
  exact h d hd

theorem plain_tag (text : String)
    (h : text.toList.all (fun c => c ≠ phOpen && c ≠ phClose) = true) :
  PlainHtml (tag text)
  := by
  apply plain_shape
  intro c hc
  have hchar := List.all_eq_true.mp h c hc
  simpa [Plain] using hchar

theorem plain_decimal (n : Nat) :
  PlainHtml (shape (decimal n))
  := by
  apply plain_shape
  intro c hc
  have hdigit := isDigit_of_mem_decimal hc
  constructor
  · rintro rfl
    revert hdigit
    decide
  · rintro rfl
    revert hdigit
    decide

theorem plain_fromSource {text : Text} (h : PlainText text) :
  PlainHtml (fromSource text)
  := by
  intro c hc
  obtain ⟨d, hd, rfl⟩ := List.mem_map.mp hc
  exact h d hd

theorem plain_escapeHtml {text : Text} (h : PlainText text) :
  PlainHtml (escapeHtml text)
  := by
  apply plain_fromSource
  intro d hd
  obtain ⟨c, hc, hd⟩ := List.mem_flatMap.mp hd
  have hwritten : ∀ d ∈ "&lt;gtquo#39amp".toList, Plain d :=
    List.forall_mem_of_all (by decide)
  obtain rfl | hmem := mem_escapeChar hd
  · exact h d hc
  · exact hwritten d hmem

/-! ### Fragments of html -/

/-- Html that no placeholder reaches into from outside. -/
structure Fragment (html : Html) : Prop where
  plain : PlainHtml html
  ends : ∃ first inner last, html = first :: (inner ++ [last]) ∧ Breaks first.char ∧
    Breaks last.char

/-- The source text of a slot that holds no placeholder. -/
theorem Slot.Formed.fragment {slot : Slot} (h : slot.Formed) (hplain : PlainText slot.raw) :
  Fragment (fromSource slot.raw)
  := by
  refine ⟨plain_fromSource hplain, ?_⟩
  obtain ⟨first, inner, last, hfirst, hlast, hraw⟩ := h.ends
  refine ⟨⟨first, .source⟩, fromSource inner, ⟨last, .source⟩, ?_, hfirst, hlast⟩
  rw [hraw]
  simp [fromSource]

/-- The pieces of marked html have those of a fragment of it. -/
theorem Marked.fragment {n : Nat} {html fragment : Html} {pieces : List (HtmlChar ⊕ Nat)}
    (h : Marked HtmlChar.char n html pieces) (hfragment : Fragment fragment)
    (hin : fragment <:+: html) :
  fragment.map .inl <:+: pieces
  := by
  obtain ⟨before, after, rfl⟩ := hin
  obtain ⟨first, inner, last, rfl, hfirst, hlast⟩ := hfragment.ends
  have hinner : ∀ c ∈ inner, Plain c.char := by
    intro c hc
    apply hfragment.plain
    simp [hc]
  have hlist : before ++ first :: (inner ++ [last]) ++ after =
      before ++ first :: (inner ++ last :: after) := by simp
  rw [hlist] at h
  obtain ⟨start, rest, -, hrest, rfl⟩ := h.split hfirst
  obtain ⟨middle, stop, hmiddle, -, rfl⟩ := hrest.split hlast
  have hsame : middle = inner.map .inl := by
    rw [← placeholders_of_marked hmiddle, placeholders_of_marked (n := n) (.ofPlain hinner)]
  refine ⟨start, stop, ?_⟩
  rw [hsame]
  simp

theorem infix_flatMap {α β : Type} {l : List α} {a : α} (h : a ∈ l) (f : α → List β) :
  f a <:+: l.flatMap f
  := by
  obtain ⟨before, after, rfl⟩ := List.append_of_mem h
  exact ⟨before.flatMap f, after.flatMap f, by simp⟩

theorem restorePiece_some {slots : List Slot} {i : Nat} {slot : Slot}
    (h : slots[i]? = some slot) :
  restorePiece slots (.inr i) = fromSource slot.raw
  := by simp [restorePiece, h]

/-! ### What html holds -/

/-- No slot holds a placeholder: nothing that was cut out lies inside something else. -/
def FlatSlots (slots : List Slot) : Prop :=
  ∀ slot ∈ slots, PlainText slot.raw

/-- The html has whole placeholders, which are those of `texts`, and the source texts of the slots
of `codes`. -/
structure Holds (slots : List Slot) (html : Html) (texts codes : List Nat) : Prop where
  marked : ∃ pieces, Marked HtmlChar.char slots.length html pieces ∧
    ∀ i, i ∈ texts ↔ .inr i ∈ pieces
  raw : ∀ i ∈ codes, ∀ slot, slots[i]? = some slot → fromSource slot.raw <:+: html

namespace Holds

variable {slots : List Slot} {html html' : Html} {texts texts' codes codes' : List Nat}

theorem ofPlain (h : PlainHtml html) :
  Holds slots html [] []
  := by
  refine ⟨⟨_, .ofPlain h, ?_⟩, fun _ hi => nomatch hi⟩
  intro i
  rw [← mem_pieceMarks, pieceMarks_map_inl]

theorem append (h : Holds slots html texts codes) (h' : Holds slots html' texts' codes') :
  Holds slots (html ++ html') (texts ++ texts') (codes ++ codes')
  := by
  obtain ⟨pieces, hmarked, htexts⟩ := h.marked
  obtain ⟨pieces', hmarked', htexts'⟩ := h'.marked
  constructor
  · refine ⟨_, hmarked.append hmarked', ?_⟩
    intro i
    rw [List.mem_append, List.mem_append, htexts i, htexts' i]
  · intro i hi slot hslot
    obtain hi | hi := List.mem_append.mp hi
    · exact (h.raw i hi slot hslot).trans (List.prefix_append _ _).isInfix
    · exact (h'.raw i hi slot hslot).trans (List.suffix_append _ _).isInfix

theorem framed (h : Holds slots html texts codes) {before after : Html}
    (hbefore : PlainHtml before) (hafter : PlainHtml after) :
  Holds slots (before ++ html ++ after) texts codes
  := by
  have hframed := ((ofPlain hbefore).append h).append (ofPlain hafter)
  simpa using hframed

/-- A slot is put back as its source text. -/
theorem restore (h : Holds slots html texts codes) (hflat : FlatSlots slots)
    (hformed : ∀ slot ∈ slots, slot.Formed) :
  PlainHtml (restore slots html) ∧ Holds slots (restore slots html) [] (texts ++ codes)
  := by
  obtain ⟨pieces, hmarked, htexts⟩ := h.marked
  unfold AgentFs.restore
  rw [placeholders_of_marked hmarked]
  have hplain : PlainHtml (pieces.flatMap (restorePiece slots)) := by
    clear htexts h
    induction hmarked with
    | nil => exact fun c hc => nomatch hc
    | @plain c html pieces hc h ih =>
        apply PlainHtml.append _ ih
        intro d hd
        rwa [List.mem_singleton.mp hd]
    | @mark i mark html pieces hi hmark h ih =>
        apply PlainHtml.append _ ih
        rw [restorePiece_some (List.getElem?_eq_getElem hi)]
        exact plain_fromSource (hflat _ (List.getElem_mem hi))
  refine ⟨hplain, (ofPlain hplain).marked, ?_⟩
  intro i hi slot hslot
  obtain hi | hi := List.mem_append.mp hi
  · rw [← restorePiece_some hslot]
    exact infix_flatMap ((htexts i).mp hi) _
  · have hslot' := List.mem_of_getElem? hslot
    obtain ⟨before, after, hin⟩ := hmarked.fragment
      ((hformed slot hslot').fragment (hflat slot hslot')) (h.raw i hi slot hslot)
    refine ⟨before.flatMap (restorePiece slots), after.flatMap (restorePiece slots), ?_⟩
    rw [← hin]
    simp [List.flatMap_map, restorePiece]

end Holds

/-! ### Heads of callouts -/

/-- Plain html at the start is left out of the pieces. -/
theorem Marked.drop {n : Nat} {before after : Html} {pieces : List (HtmlChar ⊕ Nat)}
    (h : Marked HtmlChar.char n (before ++ after) pieces) (hbefore : PlainHtml before) :
  ∃ pieces', Marked HtmlChar.char n after pieces' ∧ pieces = before.map .inl ++ pieces'
  := by
  induction before generalizing pieces with
  | nil => exact ⟨pieces, h, rfl⟩
  | cons c before ih =>
      generalize hlist : c :: before ++ after = list at h
      cases h with
      | nil => cases hlist
      | plain hc h =>
          injection hlist with hhead htail
          subst hhead htail
          obtain ⟨pieces', hpieces, rfl⟩ := ih h
            (fun d hd => hbefore d (List.mem_cons_of_mem _ hd))
          exact ⟨pieces', hpieces, rfl⟩
      | @mark i mark list pieces hi hmark h =>
          cases mark with
          | nil => cases hmark
          | cons d mark =>
              injection hlist with hhead _
              injection hmark with hopen _
              rw [← hhead] at hopen
              exact absurd hopen (hbefore c List.mem_cons_self).1

/-- A list in another is in the second part of it, or starts in the first part. -/
theorem infix_append_cases {α : Type} {list before after : List α} (h : list <:+: before ++ after) :
  list <:+: after ∨ ∃ start d rest, before = start ++ d :: rest ∧ list.head? = some d ∧
    ∀ e ∈ rest.head?, ∀ e' ∈ list.tail.head?, e = e'
  := by
  obtain ⟨a, b, hlist⟩ := h
  rw [List.append_assoc] at hlist
  obtain ⟨rest, hbefore, hrest⟩ | ⟨rest, -, hafter⟩ := List.append_eq_append_iff.mp hlist
  · cases rest with
    | nil =>
        left
        rw [List.nil_append] at hrest
        rw [← hrest]
        exact (List.prefix_append list b).isInfix
    | cons d rest =>
        cases list with
        | nil => exact .inl (List.nil_infix)
        | cons d' list =>
            injection hrest with hhead htail
            subst hhead
            refine .inr ⟨a, d', rest, hbefore, rfl, ?_⟩
            intro e he e' he'
            obtain ⟨rest, rfl⟩ := List.head?_eq_some_iff.mp he
            obtain ⟨list, hlist'⟩ := List.head?_eq_some_iff.mp he'
            rw [List.tail_cons] at hlist'
            subst hlist'
            injection htail with hsame _
            exact hsame.symm
  · left
    rw [hafter]
    exact ⟨rest, b, by rw [List.append_assoc]⟩

/-- The source text of a slot does not start in a part of html without dollars in which no
bracket comes before a caret. -/
theorem Slot.Formed.infix_after {slot : Slot} (h : slot.Formed) {before after : Html}
    (hin : fromSource slot.raw <:+: before ++ after) (hdollar : ∀ c ∈ before, c.char ≠ '$')
    (hbracket : ∀ start c rest, before = start ++ c :: rest → c.char = '[' →
      ∃ e ∈ rest.head?, e.char ≠ '^') :
  fromSource slot.raw <:+: after
  := by
  obtain hafter | ⟨start, d, rest, rfl, hhead, hnext⟩ := infix_append_cases hin
  · exact hafter
  · have hmem : d ∈ start ++ d :: rest := by simp
    exfalso
    cases h with
    | display inner =>
        cases hhead
        exact hdollar _ hmem rfl
    | inline tex =>
        cases hhead
        exact hdollar _ hmem rfl
    | fnref hid =>
        cases hhead
        obtain ⟨e, he, hne⟩ := hbracket start _ rest rfl rfl
        rw [hnext e he ⟨'^', .source⟩ rfl] at hne
        exact hne rfl

namespace Holds

variable {slots : List Slot} {html : Html} {texts codes : List Nat}

/-- Plain html at the start is dropped, unless the source text of a slot starts in it. -/
theorem drop {before after : Html} (h : Holds slots (before ++ after) texts codes)
    (hformed : ∀ slot ∈ slots, slot.Formed) (hplain : PlainHtml before)
    (hdollar : ∀ c ∈ before, c.char ≠ '$')
    (hbracket : ∀ start c rest, before = start ++ c :: rest → c.char = '[' →
      ∃ e ∈ rest.head?, e.char ≠ '^') :
  Holds slots after texts codes
  := by
  obtain ⟨pieces, hmarked, htexts⟩ := h.marked
  obtain ⟨pieces', hpieces, rfl⟩ := hmarked.drop hplain
  constructor
  · refine ⟨pieces', hpieces, ?_⟩
    intro i
    rw [htexts i, ← mem_pieceMarks, ← mem_pieceMarks, pieceMarks_append, pieceMarks_map_inl,
      List.nil_append]
  · intro i hi slot hslot
    exact (hformed slot (List.mem_of_getElem? hslot)).infix_after (h.raw i hi slot hslot)
      hdollar hbracket

end Holds

/-- The characters of a head after its bracket and exclamation mark, in lower case. -/
def calloutChars : Text :=
  "noteipmarwgcu] \t\n".toList

/-- The head of a callout, in lower case. -/
theorem calloutHead_spec {html : Html} {len : Nat} {callout : String × String}
    (h : calloutHead html = some (len, callout)) :
  ∃ tail, (charsOf (html.take len)).map Char.toLower = "<p>[!".toList ++ tail ∧
    ∀ c ∈ tail, c ∈ calloutChars
  := by
  have htake : (charsOf (html.take len)).map Char.toLower =
      ((charsOf html).map Char.toLower).take len := by
    unfold charsOf
    rw [List.map_take, List.map_take]
  obtain ⟨found, hfound, hlen⟩ := Option.bind_eq_some_iff.mp h
  obtain ⟨hfront, _, _, hcallouts, -⟩ := List.find?_eq_some_iff_append.mp hfound
  have hmem : found ∈ callouts := by
    rw [hcallouts]
    simp
  obtain ⟨rest, hrest⟩ := of_decide_eq_true hfront
  rw [htake, ← hrest]
  rw [← hrest] at hlen
  simp only [List.drop_left, List.drop_length_add_append] at hlen
  have hname : ∀ callout ∈ callouts, ∀ c ∈ callout.1.toList ++ [']'], c ∈ calloutChars := by
    have hall : ∀ callout ∈ callouts,
        (callout.1.toList ++ [']']).all (fun c => c ∈ calloutChars) = true := by decide
    exact fun callout hcallout => List.forall_mem_of_all (hall callout hcallout)
  have hblank : ∀ c ∈ rest.takeWhile (fun c => c = ' ' || c = '\t'), c ∈ calloutChars := by
    intro c hc
    have hchar := List.mem_takeWhile_imp hc
    simp only [Bool.or_eq_true, decide_eq_true_eq] at hchar
    obtain rfl | rfl := hchar
    · decide
    · decide
  have hblanks : rest.take (rest.takeWhile (fun c => c = ' ' || c = '\t')).length =
      rest.takeWhile (fun c => c = ' ' || c = '\t') :=
    (List.prefix_iff_eq_take.mp (List.takeWhile_prefix _)).symm
  -- The head ends with the blanks, or with the line end after them.
  have hhead : ∀ more, (∀ c ∈ more, c ∈ calloutChars) →
      ((calloutStart found.1 ++ rest).take len = calloutStart found.1 ++ more) →
      ∃ tail, (calloutStart found.1 ++ rest).take len = "<p>[!".toList ++ tail ∧
        ∀ c ∈ tail, c ∈ calloutChars := by
    intro more hmore hvalue
    refine ⟨found.1.toList ++ [']'] ++ more, ?_, ?_⟩
    · have hstart : calloutStart found.1 = "<p>[!".toList ++ found.1.toList ++ [']'] := rfl
      rw [hvalue, hstart]
      simp only [List.append_assoc]
    · intro c hc
      obtain hc | hc := List.mem_append.mp hc
      · exact hname found hmem c hc
      · exact hmore c hc
  split at hlen
  · rename_i hline
    cases hlen
    obtain ⟨after, hafter⟩ := List.head?_eq_some_iff.mp hline
    apply hhead (rest.takeWhile (fun c => c = ' ' || c = '\t') ++ ['\n'])
    · intro c hc
      obtain hc | hc := List.mem_append.mp hc
      · exact hblank c hc
      · rw [List.mem_singleton.mp hc]
        decide
    · rw [Nat.add_assoc, List.take_length_add_append, List.take_add, hblanks, hafter]
      rfl
  · split at hlen
    · cases hlen
      apply hhead (rest.takeWhile (fun c => c = ' ' || c = '\t')) hblank
      rw [List.take_length_add_append, hblanks]
    · cases hlen

theorem calloutHead_mem {html : Html} {len : Nat} {callout : String × String}
    (h : calloutHead html = some (len, callout)) :
  callout ∈ callouts
  := by
  obtain ⟨found, hfound, hlen⟩ := Option.bind_eq_some_iff.mp h
  dsimp only at hlen
  have hmem := List.mem_of_find?_eq_some hfound
  split at hlen
  · cases hlen
    exact hmem
  · split at hlen
    · cases hlen
      exact hmem
    · cases hlen

/-- What the head of a callout is made of. -/
theorem calloutHead_chars {html : Html} {len : Nat} {callout : String × String}
    (h : calloutHead html = some (len, callout)) :
  PlainHtml (html.take len) ∧ (∀ c ∈ html.take len, c.char ≠ '$') ∧
    ∀ start c rest, html.take len = start ++ c :: rest → c.char = '[' →
      ∃ e ∈ rest.head?, e.char ≠ '^'
  := by
  obtain ⟨tail, hhead, htail⟩ := calloutHead_spec h
  have hchars : ∀ c ∈ html.take len, c.char.toLower ∈ "<p>[!".toList ++ calloutChars := by
    intro c hc
    have hmem : c.char.toLower ∈ (charsOf (html.take len)).map Char.toLower :=
      List.mem_map_of_mem (List.mem_map_of_mem hc)
    rw [hhead, List.mem_append] at hmem
    rw [List.mem_append]
    exact hmem.imp_right (htail _)
  refine ⟨?_, ?_, ?_⟩
  · intro c hc
    have hmem := hchars c hc
    constructor
    · intro hopen
      rw [hopen] at hmem
      revert hmem
      decide
    · intro hclose
      rw [hclose] at hmem
      revert hmem
      decide
  · intro c hc hdollar
    have hmem := hchars c hc
    rw [hdollar] at hmem
    revert hmem
    decide
  · -- The only bracket that opens is the fourth character.
    intro start c rest hsplit hbracket
    rw [hsplit, charsOf_append, List.map_append] at hhead
    have hcons : (charsOf (c :: rest)).map Char.toLower =
        '[' :: (charsOf rest).map Char.toLower := by
      simp only [charsOf, List.map_cons, hbracket]
      rfl
    rw [hcons] at hhead
    have hfree : '[' ∉ tail := by
      intro hmem
      have hin := htail _ hmem
      revert hin
      decide
    have hcount := congrArg (List.count '[') hhead
    have hone : List.count '[' ("<p>[!".toList ++ tail) = 1 := by
      rw [List.count_append, List.count_eq_zero_of_not_mem hfree]
      rfl
    rw [hone, List.count_append, List.count_cons_self] at hcount
    have hstart : '[' ∉ (charsOf start).map Char.toLower := by
      rw [← List.count_eq_zero]
      omega
    obtain ⟨-, hrest⟩ := List.append_cons_inj hstart
      (show '[' ∉ ['<', 'p', '>'] by decide) hhead
    cases rest with
    | nil => cases hrest
    | cons e rest =>
        injection hrest with hmark _
        refine ⟨e, rfl, ?_⟩
        intro hcaret
        rw [hcaret] at hmark
        revert hmark
        decide

/-! ### Escaped html -/

/-- A character that can begin or end a tag or an attribute. -/
def IsMarkup (c : Char) : Prop :=
  c = '<' ∨ c = '>' ∨ c = '"'

instance IsMarkup.decidable :
    DecidablePred IsMarkup :=
  fun _ => inferInstanceAs (Decidable (_ ∨ _))

/-- A text without such characters. -/
def InertText (text : Text) : Prop :=
  ∀ c ∈ text, ¬ IsMarkup c

/-- No such character is from the source. -/
def Escaped (html : Html) : Prop :=
  ∀ c ∈ html, c.origin = .source → ¬ IsMarkup c.char

instance Escaped.decidable :
    DecidablePred Escaped :=
  fun html => inferInstanceAs (Decidable (∀ c ∈ html, c.origin = .source → ¬ IsMarkup c.char))

@[simp]
theorem escaped_nil :
  Escaped []
  := List.forall_mem_nil _

@[simp]
theorem escaped_append {html html' : Html} :
  Escaped (html ++ html') ↔ Escaped html ∧ Escaped html'
  := List.forall_mem_append

@[simp]
theorem escaped_shape (text : Text) :
  Escaped (shape text)
  := by
  intro c hc horigin
  obtain ⟨d, -, rfl⟩ := List.mem_map.mp hc
  cases horigin

@[simp]
theorem escaped_tag (text : String) :
  Escaped (tag text)
  := escaped_shape text.toList

@[simp]
theorem escaped_fromSource {text : Text} :
  Escaped (fromSource text) ↔ InertText text
  := by
  constructor
  · intro h c hc
    exact h ⟨c, .source⟩ (List.mem_map_of_mem hc) rfl
  · intro h c hc _
    obtain ⟨d, hd, rfl⟩ := List.mem_map.mp hc
    exact h d hd

theorem not_isMarkup_of_mem_escapeChar {c d : Char} (h : d ∈ escapeChar c) :
  ¬ IsMarkup d
  := by
  unfold escapeChar at h
  split at h
  case h_6 hless hgreater hquote _ =>
    rw [List.mem_singleton.mp h]
    rintro (rfl | rfl | rfl)
    · exact hless rfl
    · exact hgreater rfl
    · exact hquote rfl
  all_goals
    exact @List.forall_mem_of_all _ (fun d => ¬ IsMarkup d) _ _ (by decide) d h

@[simp]
theorem escaped_escapeHtml (text : Text) :
  Escaped (escapeHtml text)
  := by
  unfold escapeHtml
  rw [escaped_fromSource]
  intro c hc
  obtain ⟨d, -, hd⟩ := List.mem_flatMap.mp hc
  exact not_isMarkup_of_mem_escapeChar hd

theorem Escaped.subset {html html' : Html} (h : Escaped html) (hsubset : html' ⊆ html) :
  Escaped html'
  := fun c hc => h c (hsubset hc)

/-! ### Callbacks -/

def MdKind.isCode : MdKind → Bool
  | .code _ => true
  | .codespan => true
  | _ => false

theorem plain_id (letters : Letters) (usedIds : List Text) (text : Text) :
  PlainText (unusedId usedIds (slugify letters text))
  := by
  intro c hc
  constructor
  · rintro rfl
    exact not_mem_unusedId (by decide) usedIds text hc
  · rintro rfl
    exact not_mem_unusedId (by decide) usedIds text hc

theorem plain_toLower {d : Char} (h : Plain d) :
  Plain d.toLower
  := by
  unfold Char.toLower
  split
  · rename_i hupper
    have hle : d.val.toNat ≤ 90 := hupper.2
    have hsum : (d.val + ('a'.val - 'A'.val)).toNat = d.val.toNat + 32 := by
      rw [UInt32.toNat_add]
      have h32 : ('a'.val - 'A'.val).toNat = 32 := rfl
      omega
    constructor
    · intro heq
      have hval := congrArg (fun c : Char => c.val.toNat) heq
      have hopen : phOpen.val.toNat = 0xE000 := rfl
      simp only [hsum, hopen] at hval
      omega
    · intro heq
      have hval := congrArg (fun c : Char => c.val.toNat) heq
      have hclose : phClose.val.toNat = 0xE001 := rfl
      simp only [hsum, hclose] at hval
      omega
  · exact h

theorem plain_codeLanguage {language : Option Text} {lang : Text}
    (h : codeLanguage language = some lang) :
  PlainText lang
  := by
  unfold codeLanguage at h
  dsimp only at h
  split at h
  · rename_i hlang
    cases h
    intro c hc
    obtain ⟨d, hd, rfl⟩ := List.mem_map.mp hc
    have hchar := List.all_eq_true.mp hlang.2.2 d hd
    apply plain_toLower
    constructor
    · rintro rfl
      revert hchar
      decide
    · rintro rfl
      revert hchar
      decide
  · cases h

theorem plain_callouts :
  ∀ callout ∈ callouts, PlainText callout.1.toList ∧ PlainText callout.2.toList
  := by
  have hall : ∀ callout ∈ callouts, callout.1.toList.all (fun c => Plain c) = true ∧
      callout.2.toList.all (fun c => Plain c) = true := by decide
  intro callout hcallout
  obtain ⟨hname, htitle⟩ := hall callout hcallout
  exact ⟨List.forall_mem_of_all hname, List.forall_mem_of_all htitle⟩

/-! ### Frames -/

/-- Html that a callback puts around that of its children. -/
structure Frame (html : Html) : Prop where
  plain : PlainHtml html
  escaped : Escaped html

namespace Frame

variable {html html' : Html}

theorem nil :
  Frame []
  := ⟨List.forall_mem_nil _, escaped_nil⟩

theorem append (h : Frame html) (h' : Frame html') :
  Frame (html ++ html')
  := ⟨h.plain.append h'.plain, escaped_append.mpr ⟨h.escaped, h'.escaped⟩⟩

theorem ofTag (text : String)
    (h : text.toList.all (fun c => c ≠ phOpen && c ≠ phClose) = true) :
  Frame (tag text)
  := ⟨plain_tag text h, escaped_tag text⟩

theorem ofShape {text : Text} (h : PlainText text) :
  Frame (shape text)
  := ⟨plain_shape h, escaped_shape text⟩

theorem ofDecimal (n : Nat) :
  Frame (shape (decimal n))
  := ⟨plain_decimal n, escaped_shape _⟩

theorem ofEscapeHtml {text : Text} (h : PlainText text) :
  Frame (escapeHtml text)
  := ⟨plain_escapeHtml h, escaped_escapeHtml text⟩

end Frame

/-- A property of html that is kept when html is framed, and when the head of a callout is dropped. -/
structure Framing (Q : Html → Prop) : Prop where
  framed : ∀ {before html after : Html}, Q html → Frame before → Frame after →
    Q (before ++ html ++ after)
  drop : ∀ {before html : Html}, Q (before ++ html) → PlainHtml before →
    (∀ c ∈ before, c.char ≠ '$') →
    (∀ start c rest, before = start ++ c :: rest → c.char = '[' →
      ∃ e ∈ rest.head?, e.char ≠ '^') → Q html

namespace Framing

variable {Q : Html → Prop} {children : Html}

theorem wrap (hQ : Framing Q) (h : Q children) (opening closing : String)
    (hopening : opening.toList.all (fun c => c ≠ phOpen && c ≠ phClose) = true)
    (hclosing : closing.toList.all (fun c => c ≠ phOpen && c ≠ phClose) = true) :
  Q (AgentFs.wrap opening children closing)
  := hQ.framed h (.ofTag opening hopening) (.ofTag closing hclosing)

theorem heading (hQ : Framing Q) (h : Q children) (letters : Letters) (slots : List Slot)
    (level : Nat) (st : RenderState) :
  Q (headingCallback letters slots level children st).1
  := by
  have hid := Frame.ofEscapeHtml (plain_id letters st.usedIds (headingText slots children))
  have hopening := ((((Frame.ofTag "<h" (by decide)).append
    (.ofDecimal (min 6 (max 1 level)))).append (.ofTag " id=\"" (by decide))).append hid).append
    (.ofTag "\">" (by decide))
  have hclosing := ((((Frame.ofTag "<a class=\"anchor\" href=\"#" (by decide)).append hid).append
    (.ofTag "\" aria-label=\"Link to this section\">#</a></h" (by decide))).append
    (.ofDecimal (min 6 (max 1 level)))).append (.ofTag ">\n" (by decide))
  have hframed := hQ.framed h hopening hclosing
  unfold headingCallback
  simpa only [List.append_assoc] using hframed

/-- Characters of an empty paragraph are dropped. -/
theorem dropEmptyParagraph (hQ : Framing Q) {html : Html} (h : Q html) :
  Q (dropEmptyParagraph html)
  := by
  have hdrop : ∀ n, (∀ c ∈ html.take n, c.char ∈ "<p>/\n".toList) → Q (html.drop n) := by
    intro n hchars
    have hknown : ∀ c ∈ "<p>/\n".toList, Plain c ∧ c ≠ '$' ∧ c ≠ '[' :=
      List.forall_mem_of_all (by decide)
    rw [← List.take_append_drop n html] at h
    apply hQ.drop h
    · exact fun c hc => (hknown _ (hchars c hc)).1
    · exact fun c hc => (hknown _ (hchars c hc)).2.1
    · intro start c rest hsplit hbracket
      have hmem : c ∈ html.take n := by
        rw [hsplit]
        simp
      exact absurd hbracket (hknown _ (hchars c hmem)).2.2
  have htake : ∀ n, charsOf (html.take n) = (charsOf html).take n := fun n => List.map_take
  unfold AgentFs.dropEmptyParagraph
  split
  · rename_i hparagraph
    have hseven : ∀ c ∈ html.take 7, c.char ∈ "<p>/\n".toList := by
      intro c hc
      have hmem : c.char ∈ charsOf (html.take 7) := List.mem_map_of_mem hc
      rw [htake, hparagraph] at hmem
      exact List.forall_mem_of_all (by decide) _ hmem
    split
    · rename_i hline
      apply hdrop
      intro c hc
      rw [List.take_add_one, List.mem_append] at hc
      obtain hc | hc := hc
      · exact hseven c hc
      · have hat : html[7]? = some c := Option.mem_toList.mp hc
        have hchar : (charsOf html)[7]? = some c.char := by simp [charsOf, hat]
        rw [List.head?_drop, hchar, Option.some_inj] at hline
        rw [hline]
        decide
    · exact hdrop 7 hseven
  · exact h

theorem blockquote (hQ : Framing Q) (h : Q children) :
  Q (blockquoteCallback children)
  := by
  unfold blockquoteCallback
  split
  · exact hQ.framed h (.ofTag _ (by decide)) (.ofTag _ (by decide))
  · rename_i len name title hhead
    obtain ⟨hplain, hdollar, hbracket⟩ := calloutHead_chars hhead
    obtain ⟨hname, htitle⟩ := plain_callouts _ (calloutHead_mem hhead)
    rw [← List.take_append_drop len children] at h
    have hrest := hQ.drop h hplain hdollar hbracket
    have hparagraph := hQ.framed hrest (.ofTag "<p>" (by decide)) .nil
    rw [List.append_nil] at hparagraph
    apply hQ.framed (hQ.dropEmptyParagraph hparagraph) _ (.ofTag _ (by decide))
    exact ((((Frame.ofTag _ (by decide)).append (.ofShape hname)).append
      (.ofTag _ (by decide))).append (.ofShape htitle)).append (.ofTag _ (by decide))

theorem list (hQ : Framing Q) (h : Q children) (ordered : Bool) (start : Option Nat) :
  Q (listCallback ordered start children)
  := by
  unfold listCallback
  split
  · split
    · split
      · exact hQ.wrap h "<ol>\n" "</ol>\n" (by decide) (by decide)
      · exact hQ.framed h (((Frame.ofTag _ (by decide)).append (.ofDecimal _)).append
          (.ofTag _ (by decide))) (.ofTag _ (by decide))
    · exact hQ.wrap h "<ol>\n" "</ol>\n" (by decide) (by decide)
  · exact hQ.wrap h "<ul>\n" "</ul>\n" (by decide) (by decide)

theorem listItem (hQ : Framing Q) (h : Q children) (checked : Option Bool) :
  Q (listItemCallback checked children)
  := by
  unfold listItemCallback
  split
  · exact hQ.wrap h _ _ (by decide) (by decide)
  · exact hQ.wrap h _ _ (by decide) (by decide)
  · exact hQ.wrap h _ _ (by decide) (by decide)

theorem cell (hQ : Framing Q) (h : Q children) {name closing : String}
    (hname : Frame (tag name)) (hclosing : Frame (tag closing)) (align : Option Align) :
  Q (cellTag name align ++ children ++ tag closing)
  := by
  apply hQ.framed h _ hclosing
  unfold cellTag
  split
  all_goals
    exact ((Frame.ofTag _ (by decide)).append hname).append (.ofTag _ (by decide))

/-- Code frames what is put back. -/
theorem code (hQ : Framing Q) {slots : List Slot} (h : Q (restore slots children))
    (language : Option Text) (st : RenderState) :
  Q (codeCallback slots language children st).1
  := by
  unfold codeCallback
  dsimp only
  split
  · exact hQ.framed h (.ofTag _ (by decide)) (.ofTag _ (by decide))
  · rename_i lang hlang
    split
    · exact hQ.framed h (.ofTag _ (by decide)) (.ofTag _ (by decide))
    · split
      · exact hQ.framed h (.ofTag _ (by decide)) (.ofTag _ (by decide))
      · have hframe := Frame.ofEscapeHtml (plain_codeLanguage hlang)
        apply hQ.framed h _ (.ofTag _ (by decide))
        exact ((((Frame.ofTag _ (by decide)).append hframe).append
          (.ofTag _ (by decide))).append hframe).append (.ofTag _ (by decide))

/-- The callbacks that only frame their children. -/
theorem callback (hQ : Framing Q) (h : Q children) {kind : MdKind} (hcode : kind.isCode = false)
    (hlink : ∀ href, kind ≠ .link href) (hrule : kind ≠ .hr) (letters : Letters)
    (slots : List Slot) (st : RenderState) :
  Q (callback letters slots kind children st).1
  := by
  cases kind with
  | html => exact h
  | heading level => exact hQ.heading h letters slots level st
  | blockquote => exact hQ.blockquote h
  | code language => cases hcode
  | codespan => cases hcode
  | hr => exact absurd rfl hrule
  | list ordered start => exact hQ.list h ordered start
  | listItem checked => exact hQ.listItem h checked
  | th align => exact hQ.cell h (.ofTag _ (by decide)) (.ofTag _ (by decide)) align
  | td align => exact hQ.cell h (.ofTag _ (by decide)) (.ofTag _ (by decide)) align
  | link href => exact absurd rfl (hlink href)
  | image =>
      simp only [AgentFs.callback]
      split
      · rename_i hnil
        subst hnil
        have hframed := hQ.framed h
          (.ofTag "<span class=\"img-alt\">[image]</span>" (by decide)) .nil
        rw [List.append_nil, List.append_nil] at hframed
        exact hframed
      · exact hQ.wrap h _ _ (by decide) (by decide)
  | _ => exact hQ.wrap h _ _ (by decide) (by decide)

end Framing

namespace Holds

variable {slots : List Slot} {children : Html} {texts codes : List Nat}

theorem framing (hformed : ∀ slot ∈ slots, slot.Formed) :
  Framing (fun html => Holds slots html texts codes)
  where
    framed := fun h hbefore hafter => h.framed hbefore.plain hafter.plain
    drop := fun h => h.drop hformed

theorem link (h : Holds slots children texts codes) (hflat : FlatSlots slots)
    (hformed : ∀ slot ∈ slots, slot.Formed) {href : Option Text}
    (hhref : ∀ text ∈ href, Whole slots.length text) :
  Holds slots (linkCallback slots href children) texts codes
  := by
  have hraw : PlainText ((href.map (fun href =>
      charsOf (AgentFs.restore slots (fromSource href)))).getD []) := by
    cases href with
    | none => exact fun c hc => nomatch hc
    | some text =>
        obtain ⟨spelled, hspelled⟩ := hhref text rfl
        obtain ⟨pieces, hpieces, -⟩ := marked_fromSource hspelled
        have hrestored := (@Holds.restore _ _ (pieceMarks pieces) []
          ⟨⟨pieces, hpieces, fun _ => mem_pieceMarks⟩, fun _ hi => nomatch hi⟩ hflat hformed).1
        intro c hc
        obtain ⟨d, hd, rfl⟩ := List.mem_map.mp hc
        exact hrestored d hd
  unfold linkCallback
  dsimp only
  split
  · exact h.framed (((plain_tag _ (by decide)).append (plain_escapeHtml hraw)).append
      (plain_tag _ (by decide))) (plain_tag _ (by decide))
  · split
    · exact h
    · rename_i safe hsafe
      have hplain : PlainText safe := by
        split at hsafe
        · cases hsafe
        · unfold safeHref at hsafe
          dsimp only at hsafe
          split at hsafe
          · cases hsafe
            exact fun c hc => hraw c (mem_of_mem_trim hc)
          · cases hsafe
      exact h.framed (((plain_tag _ (by decide)).append (plain_escapeHtml hplain)).append
        (plain_tag _ (by decide))) (plain_tag _ (by decide))

/-- A callback keeps what it gets; in code, slots are put back as their source text. -/
theorem callback (h : Holds slots children texts codes) (hflat : FlatSlots slots)
    (hformed : ∀ slot ∈ slots, slot.Formed) {kind : MdKind}
    (hhref : ∀ href, kind = .link (some href) → Whole slots.length href)
    (hrule : kind = .hr → texts = [] ∧ codes = []) (letters : Letters) (st : RenderState) :
  Holds slots (callback letters slots kind children st).1
    (if kind.isCode then [] else texts) (if kind.isCode then texts ++ codes else codes)
  := by
  cases kind with
  | code language => exact (framing hformed).code (h.restore hflat hformed).2 language st
  | codespan =>
      exact (framing hformed).wrap (h.restore hflat hformed).2 "<code>" "</code>"
        (by decide) (by decide)
  | hr =>
      obtain ⟨rfl, rfl⟩ := hrule rfl
      exact ofPlain (plain_tag _ (by decide))
  | link href =>
      apply h.link hflat hformed
      rintro text ⟨⟩
      exact hhref text rfl
  | _ =>
      exact (framing hformed).callback h rfl (by rintro href ⟨⟩) (by rintro ⟨⟩) letters slots st

end Holds

end AgentFs
