import AgentFs.Share.MarkdownPlaceholders

/-!
# Placeholders are put back

The html of a document has no placeholder left, and it has what every placeholder in the parsed
text stands for, if nothing that was cut out lies inside something else.
-/

namespace AgentFs

/-! ### Parsed documents -/

/-- The tree hands on placeholders whole, in its text runs and in the destinations of links, and
nothing is inside a rule. -/
def MdTree.Whole (n : Nat) : MdTree → Prop
  | .nil => True
  | .text run rest => AgentFs.Whole n run ∧ rest.Whole n
  | .node kind children rest =>
      (∀ href, kind = .link (some href) → AgentFs.Whole n href) ∧
        (kind = .hr → children = .nil) ∧ children.Whole n ∧ rest.Whole n

/-- The placeholders in the text of a tree, outside of code. -/
def MdTree.textMarks : MdTree → List Nat
  | .nil => []
  | .text run rest => marksOf (fromSource run) ++ rest.textMarks
  | .node kind children rest =>
      (if kind.isCode then [] else children.textMarks) ++ rest.textMarks

/-- The placeholders in the text of a tree, inside code. -/
def MdTree.codeMarks : MdTree → List Nat
  | .nil => []
  | .text _ rest => rest.codeMarks
  | .node kind children rest =>
      (if kind.isCode then children.textMarks ++ children.codeMarks else children.codeMarks) ++
        rest.codeMarks

/-- The html of a tree has the placeholders of the tree. -/
theorem renderTree_holds {slots : List Slot} (hflat : FlatSlots slots)
    (hformed : ∀ slot ∈ slots, slot.Formed) (letters : Letters) {tree : MdTree}
    (h : tree.Whole slots.length) (st : RenderState) :
  Holds slots (renderTree letters slots tree st).1 tree.textMarks tree.codeMarks
  := by
  induction tree generalizing st with
  | nil => exact Holds.ofPlain (fun c hc => nomatch hc)
  | text run rest ih =>
      obtain ⟨pieces, hpieces, hmarks⟩ := marked_run h.1
      have hrun : Holds slots (escapeHtml run) (marksOf (fromSource run)) [] := by
        refine ⟨⟨pieces, hpieces, ?_⟩, fun _ hi => nomatch hi⟩
        intro i
        rw [← hmarks]
        exact mem_pieceMarks
      exact hrun.append (ih h.2 st)
  | node kind children rest ihchildren ihrest =>
      obtain ⟨hhref, hrule, hchildren, hrest⟩ := h
      have hinner := ihchildren hchildren st
      have hout := hinner.callback hflat hformed hhref (by
        intro hkind
        rw [hrule hkind]
        exact ⟨rfl, rfl⟩) letters (renderTree letters slots children st).2
      exact hout.append (ihrest hrest _)

/-! ### Filled html -/

/-- The html has no placeholder, and it has the html of the slots of `texts` and the source texts
of the slots of `codes`. -/
structure Shows (slots : List Slot) (html : Html) (texts codes : List Nat) : Prop where
  plain : PlainHtml html
  typeset : ∀ i ∈ texts, ∀ slot, slots[i]? = some slot → ∃ st, (fillSlot slot st).1 <:+: html
  raw : ∀ i ∈ codes, ∀ slot, slots[i]? = some slot → fromSource slot.raw <:+: html

/-- The ids of footnotes are plain. -/
theorem plain_footnoteId {id : Text} (hid : ∀ c ∈ id, isFootnoteIdChar c = true) :
  PlainText id
  := by
  intro c hc
  have hchar := hid c hc
  constructor
  · rintro rfl
    revert hchar
    decide
  · rintro rfl
    revert hchar
    decide

theorem plain_prefixed (start : String)
    (hstart : start.toList.all (fun c => c ≠ phOpen && c ≠ phClose) = true) {text : Text}
    (h : PlainText text) :
  PlainText (start.toList ++ text)
  := by
  intro c hc
  obtain hc | hc := List.mem_append.mp hc
  · have hchar := List.all_eq_true.mp hstart c hc
    simpa [Plain] using hchar
  · exact h c hc

theorem plain_refId {id : Text} (h : PlainText id) (seen : Nat) :
  PlainText (refId id seen)
  := by
  apply plain_prefixed "fnref:" (by decide)
  split
  · exact h
  · intro c hc
    rw [List.mem_append, List.mem_cons] at hc
    obtain hc | rfl | hc := hc
    · exact h c hc
    · decide
    · exact plain_decimal (seen + 1) ⟨c, .shape⟩ (List.mem_map_of_mem hc)

theorem plain_fillSlot {slot : Slot} (hformed : slot.Formed) (hplain : PlainText slot.raw)
    (st : RenderState) :
  PlainHtml (fillSlot slot st).1
  := by
  cases hformed with
  | display inner =>
      have htex : PlainText (trim inner) := by
        intro c hc
        apply hplain
        simp [Slot.raw, mem_of_mem_trim hc]
      exact ((plain_tag _ (by decide)).append (plain_escapeHtml htex)).append
        (plain_tag _ (by decide))
  | inline tex =>
      have htex : PlainText tex := by
        intro c hc
        apply hplain
        simp [Slot.raw, hc]
      exact ((plain_tag _ (by decide)).append (plain_escapeHtml htex)).append
        (plain_tag _ (by decide))
  | @fnref id hid =>
      have hplainid := plain_footnoteId hid
      exact ((((((plain_tag _ (by decide)).append
        (plain_fromSource (plain_prefixed "fn:" (by decide) hplainid))).append
        (plain_tag _ (by decide))).append (plain_fromSource (plain_refId hplainid _))).append
        (plain_tag _ (by decide))).append (plain_decimal _)).append (plain_tag _ (by decide))

theorem fillPieces_append (slots : List Slot) (pieces pieces' : List (HtmlChar ⊕ Nat))
    (st : RenderState) :
  (fillPieces slots (pieces ++ pieces') st).1 =
    (fillPieces slots pieces st).1 ++ (fillPieces slots pieces' (fillPieces slots pieces st).2).1
  := by
  induction pieces generalizing st with
  | nil => rfl
  | cons piece pieces ih =>
      cases piece with
      | inl c => simp only [List.cons_append, fillPieces, ih]
      | inr i => simp only [List.cons_append, fillPieces, ih, List.append_assoc]

theorem fillPieces_chars (slots : List Slot) (html : Html) (st : RenderState) :
  fillPieces slots (html.map .inl) st = (html, st)
  := by
  induction html with
  | nil => rfl
  | cons c html ih => simp only [List.map_cons, fillPieces, ih]

theorem exists_fillSlot_infix {slots : List Slot} {i : Nat} {slot : Slot}
    (hslot : slots[i]? = some slot) {pieces : List (HtmlChar ⊕ Nat)} (h : .inr i ∈ pieces)
    (st : RenderState) :
  ∃ st', (fillSlot slot st').1 <:+: (fillPieces slots pieces st).1
  := by
  obtain ⟨before, after, rfl⟩ := List.append_of_mem h
  refine ⟨(fillPieces slots before st).2, ?_⟩
  rw [fillPieces_append]
  simp only [fillPieces, hslot, Option.map_some, Option.getD_some]
  apply List.infix_append'

/-- `fill` leaves no placeholder and puts the html of every slot in its place. -/
theorem Holds.fill {slots : List Slot} {html : Html} {texts codes : List Nat}
    (h : Holds slots html texts codes) (hflat : FlatSlots slots)
    (hformed : ∀ slot ∈ slots, slot.Formed) (st : RenderState) :
  Shows slots (fill slots html st).1 texts codes
  := by
  obtain ⟨pieces, hmarked, htexts⟩ := h.marked
  unfold AgentFs.fill
  rw [placeholders_of_marked hmarked]
  refine ⟨?_, ?_, ?_⟩
  · clear htexts h
    induction hmarked generalizing st with
    | nil => exact fun c hc => nomatch hc
    | @plain c html pieces hc h ih =>
        intro d hd
        obtain rfl | hd := List.mem_cons.mp hd
        · exact hc
        · exact ih st d hd
    | @mark i mark html pieces hi hmark h ih =>
        simp only [fillPieces, List.getElem?_eq_getElem hi, Option.map_some, Option.getD_some]
        apply PlainHtml.append _ (ih _)
        have hmem := List.getElem_mem hi
        exact plain_fillSlot (hformed _ hmem) (hflat _ hmem) st
  · intro i hi slot hslot
    exact exists_fillSlot_infix hslot ((htexts i).mp hi) st
  · intro i hi slot hslot
    have hmem := List.mem_of_getElem? hslot
    obtain ⟨before, after, rfl⟩ := hmarked.fragment
      ((hformed slot hmem).fragment (hflat slot hmem)) (h.raw i hi slot hslot)
    rw [fillPieces_append, fillPieces_append, fillPieces_chars]
    apply List.infix_append

/-! ### Footnotes -/

/-- Html that is not cut at the ends of a footnote: it neither starts nor ends with white space,
and no `</p>` ends in it. -/
structure Sturdy (html : Html) : Prop where
  first : ∃ first rest, html = first :: rest ∧ ¬ IsWhiteSpace first.char
  last : ∃ init last, html = init ++ [last] ∧ ¬ IsWhiteSpace last.char ∧
    (last.char ∉ "</p>".toList ∨
      last.char = '>' ∧ ∃ init' c d, init = init' ++ [c, d] ∧ c.char ≠ '/')

theorem Slot.Formed.sturdy {slot : Slot} (h : slot.Formed) :
  Sturdy (fromSource slot.raw)
  := by
  have hchars : ∀ c ∈ ['$', '[', ']'], ¬ IsWhiteSpace c ∧ c ∉ "</p>".toList :=
    List.forall_mem_of_all (by decide)
  cases h with
  | display inner =>
      refine ⟨⟨_, _, rfl, (hchars '$' (by decide)).1⟩, ?_⟩
      refine ⟨fromSource ('$' :: '$' :: (inner ++ ['$'])), ⟨'$', .source⟩, ?_,
        (hchars '$' (by decide)).1, .inl (hchars '$' (by decide)).2⟩
      simp [Slot.raw, fromSource]
  | inline tex =>
      refine ⟨⟨_, _, rfl, (hchars '$' (by decide)).1⟩, ?_⟩
      refine ⟨fromSource ('$' :: tex), ⟨'$', .source⟩, ?_, (hchars '$' (by decide)).1,
        .inl (hchars '$' (by decide)).2⟩
      simp [Slot.raw, fromSource]
  | @fnref id hid =>
      refine ⟨⟨_, _, rfl, (hchars '[' (by decide)).1⟩, ?_⟩
      refine ⟨fromSource ('[' :: '^' :: id), ⟨']', .source⟩, ?_, (hchars ']' (by decide)).1,
        .inl (hchars ']' (by decide)).2⟩
      simp [Slot.raw, fromSource]

/-- Html between an opening tag and a closing tag that is not `</p>`. -/
theorem sturdy_between {opening : String} (closing : Text) (html : Html)
    (hopening : opening.toList.head? = some '<') (c d : Char) (hc : c ≠ '/') :
  Sturdy (tag opening ++ html ++ shape (closing ++ [c, d, '>']))
  := by
  have hwhite : ¬ IsWhiteSpace '<' ∧ ¬ IsWhiteSpace '>' := by decide
  obtain ⟨rest, hrest⟩ := List.head?_eq_some_iff.mp hopening
  constructor
  · refine ⟨⟨'<', .shape⟩, shape rest ++ html ++ shape (closing ++ [c, d, '>']), ?_, hwhite.1⟩
    simp [tag, hrest, shape]
  · refine ⟨tag opening ++ html ++ shape (closing ++ [c, d]), ⟨'>', .shape⟩, ?_, hwhite.2,
      .inr ⟨rfl, tag opening ++ html ++ shape closing, ⟨c, .shape⟩, ⟨d, .shape⟩, ?_, hc⟩⟩
    · simp [shape]
    · simp [shape]

theorem sturdy_fillSlot (slot : Slot) (st : RenderState) :
  Sturdy (fillSlot slot st).1
  := by
  cases slot with
  | math display tex raw =>
      cases display with
      | true => exact sturdy_between "</sp".toList _ rfl 'a' 'n' (by decide)
      | false => exact sturdy_between "</sp".toList _ rfl 'a' 'n' (by decide)
  | fnref id raw =>
      have hsturdy := @sturdy_between "<sup class=\"fnref\"><a href=\"#"
        "</a></s".toList
        (fromSource (fnId id) ++ tag "\" id=\"" ++
          fromSource (refId id (st.refs.count id)) ++ tag "\">" ++
          shape (decimal ((addFootnote st.fnOrder id).idxOf id + 1))) rfl 'u' 'p' (by decide)
      simp only [← List.append_assoc] at hsturdy
      exact hsturdy

theorem infix_dropWhile {α : Type} {p : α → Bool} {a : α} {list whole : List α}
    (ha : p a = false) (h : a :: list <:+: whole) :
  a :: list <:+: whole.dropWhile p
  := by
  obtain ⟨before, after, rfl⟩ := h
  induction before with
  | nil =>
      rw [List.nil_append, List.cons_append, List.dropWhile_cons_of_neg (by rw [ha]; simp)]
      exact (List.prefix_append (a :: list) after).isInfix
  | cons b before ih =>
      rw [List.cons_append, List.cons_append, List.dropWhile_cons]
      split
      · exact ih
      · exact ⟨b :: before, after, by simp⟩

/-- Sturdy html survives `trim`. -/
theorem Sturdy.infix_trimHtml {part html : Html} (hpart : Sturdy part) (h : part <:+: html) :
  part <:+: trimHtml html
  := by
  obtain ⟨first, rest, hfirst, hwhite⟩ := hpart.first
  obtain ⟨init, last, hlast, hwhite', -⟩ := hpart.last
  have hleft : part <:+: html.dropWhile (fun c => IsWhiteSpace c.char) := by
    rw [hfirst] at h ⊢
    exact infix_dropWhile (by simpa using hwhite) h
  have hreverse : part.reverse = last :: init.reverse := by
    rw [hlast]
    simp
  unfold trimHtml
  rw [← List.reverse_infix, List.reverse_reverse, hreverse]
  apply infix_dropWhile (by simpa using hwhite')
  rw [← hreverse, List.reverse_infix]
  exact hleft

/-- Html that ends with `</p>` has it behind sturdy html. -/
theorem Sturdy.four_le_length {part before after : Html} (hpart : Sturdy part)
    (h : "</p>".toList <:+ charsOf (before ++ part ++ after)) :
  4 ≤ after.length
  := by
  obtain ⟨init, last, rfl, -, hlast⟩ := hpart.last
  obtain ⟨start, hstart⟩ := h
  have hreverse := congrArg List.reverse hstart
  have hletters : ∀ c ∈ ['<', '/', 'p', '>'], c ∈ "</p>".toList := fun c hc => hc
  have hother : ∀ c ∈ ['<', '/', 'p'], last.char ≠ c := by
    rintro c hc rfl
    obtain hout | ⟨hclose, -⟩ := hlast
    · exact hout (hletters _ (List.mem_append_left ['>'] hc))
    · rw [hclose] at hc
      revert hc
      decide
  simp only [charsOf_append, List.reverse_append] at hreverse
  rcases after with _ | ⟨c, _ | ⟨d, _ | ⟨e, _ | ⟨f, after⟩⟩⟩⟩
  · have hend : last.char = '>' := by
      simp [charsOf] at hreverse
      exact hreverse.1.symm
    obtain hout | ⟨-, init', c, d, rfl, hc⟩ := hlast
    · rw [hend] at hout
      exact absurd (hletters '>' (by decide)) hout
    · simp [charsOf] at hreverse
      exact absurd hreverse.2.2.1.symm hc
  · simp [charsOf] at hreverse
    exact absurd hreverse.2.1.symm (hother 'p' (by decide))
  · simp [charsOf] at hreverse
    exact absurd hreverse.2.2.1.symm (hother '/' (by decide))
  · simp [charsOf] at hreverse
    exact absurd hreverse.2.2.2.1.symm (hother '<' (by decide))
  · simp

/-- The last paragraph does not end inside sturdy html. -/
theorem Sturdy.infix_withBack {part inner : Html} (hpart : Sturdy part) (h : part <:+: inner)
    (back : Html) :
  part <:+: withBack inner back
  := by
  obtain ⟨before, after, rfl⟩ := h
  unfold withBack
  split
  · rename_i hends
    have hfour := hpart.four_le_length hends
    have hkept : part <:+: (before ++ part ++ after).take
        ((before ++ part ++ after).length - 4) := by
      have hlength : (before ++ part ++ after).length - 4 =
          (before ++ part).length + (after.length - 4) := by
        rw [List.length_append]
        omega
      rw [hlength, List.take_length_add_append]
      apply List.infix_append
    rw [List.append_assoc, List.append_assoc]
    exact hkept.trans (List.prefix_append _ _).isInfix
  · rw [List.append_assoc]
    apply List.infix_append

namespace Shows

variable {slots : List Slot} {html : Html} {texts codes : List Nat}

theorem mono (h : Shows slots html texts codes) {whole : Html} (hin : html <:+: whole)
    (hplain : PlainHtml whole) :
  Shows slots whole texts codes
  := by
  refine ⟨hplain, ?_, ?_⟩
  · intro i hi slot hslot
    obtain ⟨st, hst⟩ := h.typeset i hi slot hslot
    exact ⟨st, hst.trans hin⟩
  · intro i hi slot hslot
    exact (h.raw i hi slot hslot).trans hin

/-- A footnote shows what its text does. -/
theorem footnote (h : Shows slots html texts codes) (hformed : ∀ slot ∈ slots, slot.Formed)
    {back : Html} (hback : PlainHtml back) :
  Shows slots (withBack (trimHtml html) back) texts codes
  := by
  have hkeep : ∀ {part : Html}, Sturdy part → part <:+: html →
      part <:+: withBack (trimHtml html) back :=
    fun hpart hin => hpart.infix_withBack (hpart.infix_trimHtml hin) back
  refine ⟨?_, ?_, ?_⟩
  · have htrim : PlainHtml (trimHtml html) := by
      intro c hc
      have hleft := (List.dropWhile_sublist _).mem (List.mem_reverse.mp hc)
      exact h.plain c ((List.dropWhile_sublist _).mem (List.mem_reverse.mp hleft))
    unfold withBack
    split
    · apply ((PlainHtml.append _ (plain_tag _ (by decide))).append hback).append
        (plain_tag _ (by decide))
      exact fun c hc => htrim c (List.mem_of_mem_take hc)
    · exact htrim.append hback
  · intro i hi slot hslot
    obtain ⟨st, hst⟩ := h.typeset i hi slot hslot
    exact ⟨st, hkeep (sturdy_fillSlot slot st) hst⟩
  · intro i hi slot hslot
    exact hkeep (hformed slot (List.mem_of_getElem? hslot)).sturdy (h.raw i hi slot hslot)

end Shows

/-! ### Documents -/

/-- A parser that hands on whole placeholders. -/
def HandsOnPlaceholders (parse : Text → MdTree) : Prop :=
  ∀ n text, Whole n text → (parse text).Whole n

/-- The texts that a document shows: its body, and the footnotes that a shown text refers to. -/
inductive ShownText (parse : Text → MdTree) (cut : CutSource) : Text → Prop where
  | body : ShownText parse cut cut.body
  | note {text : Text} {i : Nat} {id raw : Text} (h : ShownText parse cut text)
      (hi : i ∈ (parse text).textMarks) (hslot : cut.slots[i]? = some (.fnref id raw)) :
      ShownText parse cut (cut.note id)

/-- The footnotes that the text of a tree refers to, outside of code. -/
def MdTree.Refers (slots : List Slot) (tree : MdTree) (id : Text) : Prop :=
  ∃ i ∈ tree.textMarks, ∃ raw, slots[i]? = some (.fnref id raw)

theorem CutSource.Formed.note {cut : CutSource} (h : cut.Formed) (id : Text) :
  Whole cut.slots.length (cut.note id)
  := by
  unfold CutSource.note
  cases hnote : cut.notes.find? (fun note => note.1 = id) with
  | none => exact .ofPlain (fun c hc => nomatch hc)
  | some note => exact h.notes note (List.mem_of_find?_eq_some hnote)

section

variable {letters : Letters} {parse : Text → MdTree} {cut : CutSource}

/-- The references in html are those of its placeholders. -/
theorem mem_referencesIn {slots : List Slot} {n : Nat} {html : Html}
    {pieces : List (HtmlChar ⊕ Nat)} {marks : List Nat}
    (h : Marked HtmlChar.char n html pieces) (hmarks : ∀ i, i ∈ marks ↔ .inr i ∈ pieces) {id : Text} :
  id ∈ referencesIn slots html ↔ ∃ i ∈ marks, ∃ raw, slots[i]? = some (.fnref id raw)
  := by
  unfold referencesIn
  rw [placeholders_of_marked h, List.mem_filterMap]
  constructor
  · rintro ⟨piece, hpiece, hfootnote⟩
    cases piece with
    | inl c => cases hfootnote
    | inr i =>
        simp only [pieceFootnote] at hfootnote
        split at hfootnote
        · rename_i raw hslot
          cases hfootnote
          exact ⟨i, (hmarks i).mpr hpiece, raw, hslot⟩
        · cases hfootnote
  · rintro ⟨i, hi, raw, hslot⟩
    exact ⟨_, (hmarks i).mp hi, by simp only [pieceFootnote, hslot]⟩

theorem Holds.references {slots : List Slot} {html : Html} {texts codes : List Nat}
    (h : Holds slots html texts codes) {id : Text} :
  id ∈ referencesIn slots html ↔ ∃ i ∈ texts, ∃ raw, slots[i]? = some (.fnref id raw)
  := by
  obtain ⟨pieces, hmarked, htexts⟩ := h.marked
  exact mem_referencesIn hmarked htexts

/-- The item of a footnote shows its text. -/
theorem footnoteItem_shows (hparse : HandsOnPlaceholders parse) (hcut : cut.Formed)
    (hflat : FlatSlots cut.slots) {id : Text} (hid : PlainText id) (st : RenderState) :
  Shows cut.slots (footnoteItem letters parse cut id st).1 (parse (cut.note id)).textMarks
      (parse (cut.note id)).codeMarks ∧
    ∀ id', (parse (cut.note id)).Refers cut.slots id' →
      id' ∈ (footnoteItem letters parse cut id st).2.refs
  := by
  have hholds := renderTree_holds hflat hcut.slots letters (hparse _ _ (hcut.note id)) st
  have hback : PlainHtml (tag "<a class=\"fn-back\" href=\"#" ++ fromSource (refId id 0) ++
      tag "\" aria-label=\"Back to reference\">↩</a>") :=
    ((plain_tag _ (by decide)).append (plain_fromSource (plain_refId hid 0))).append
      (plain_tag _ (by decide))
  have hshows := (hholds.fill hflat hcut.slots (renderTree letters cut.slots
    (parse (cut.note id)) st).2).footnote hcut.slots hback
  constructor
  · apply hshows.mono
    · simp only [footnoteItem]
      apply List.infix_append
    · exact ((((plain_tag _ (by decide)).append
        (plain_fromSource (plain_prefixed "fn:" (by decide) hid))).append
        (plain_tag _ (by decide))).append hshows.plain).append (plain_tag _ (by decide))
  · rintro id' ⟨i, hi, raw, hslot⟩
    rw [footnoteItem_refs]
    exact List.mem_append_right _ (hholds.references.mpr ⟨i, hi, raw, hslot⟩)

theorem footnoteItems_refs_extend (fuel i : Nat) (st : RenderState) :
  st.refs <+: (footnoteItems letters parse cut fuel i st).2.refs
  := by
  induction fuel generalizing i st with
  | zero => exact List.prefix_rfl
  | succ fuel ih =>
      unfold footnoteItems
      split
      · exact List.prefix_rfl
      · rename_i id _
        have hitem : st.refs <+: (footnoteItem letters parse cut id st).2.refs := by
          rw [footnoteItem_refs]
          apply List.prefix_append
        exact hitem.trans (ih (i + 1) _)

theorem footnoteItems_order_extend {fuel i : Nat} {st : RenderState}
    (h : IdsInv cut.slots (st.fnOrder.take i) st) (hfuel : cut.slots.length ≤ fuel + i) :
  st.fnOrder <+: (footnoteItems letters parse cut fuel i st).2.fnOrder
  := by
  have hend := h.footnoteItems letters parse rfl hfuel
  obtain ⟨later, hlater⟩ := @footnoteItems_refs_extend letters parse cut fuel i st
  rw [hend.order, h.order, ← hlater, firstReferences_append]
  apply prefix_foldl_addFootnote

/-- What is referenced has the name of a footnote. -/
theorem IdsInv.footnoteId {slots : List Slot} {notes : List Text} {st : RenderState}
    (h : IdsInv slots notes st) (hformed : ∀ slot ∈ slots, slot.Formed) {id : Text}
    (hid : id ∈ st.refs) :
  ∀ c ∈ id, isFootnoteIdChar c = true
  := by
  obtain ⟨slot, hslot, hfootnote⟩ := List.mem_filterMap.mp (h.slots id hid)
  have hslotformed := hformed slot hslot
  cases hslotformed with
  | display inner => cases hfootnote
  | inline tex => cases hfootnote
  | fnref hchars =>
      cases hfootnote
      exact hchars

/-- Every item is that of a footnote that is referenced. -/
theorem mem_footnoteItems {i fuel : Nat} {st : RenderState}
    (h : IdsInv cut.slots (st.fnOrder.take i) st) {item : Html}
    (hitem : item ∈ (footnoteItems letters parse cut fuel i st).1) :
  ∃ id ∈ (footnoteItems letters parse cut fuel i st).2.refs, ∃ st',
    item = (footnoteItem letters parse cut id st').1
  := by
  induction fuel generalizing i st with
  | zero => cases hitem
  | succ fuel ih =>
      unfold footnoteItems at hitem ⊢
      cases hsome : st.fnOrder[i]? with
      | none =>
          rw [hsome] at hitem
          cases hitem
      | some id =>
          simp only [hsome] at hitem ⊢
          obtain rfl | hitem := List.mem_cons.mp hitem
          · have hid := h.mem_order_iff.mp (List.mem_of_getElem? hsome)
            have hmore : st.refs <+: (footnoteItem letters parse cut id st).2.refs := by
              rw [footnoteItem_refs]
              apply List.prefix_append
            exact ⟨id, (hmore.trans (footnoteItems_refs_extend fuel (i + 1) _)).mem hid, st, rfl⟩
          · exact ih (h.footnoteItem_take letters parse rfl hsome) hitem

/-- Every footnote from the `i`-th on has an item. -/
theorem exists_footnoteItem {i fuel : Nat} {st : RenderState}
    (h : IdsInv cut.slots (st.fnOrder.take i) st) (hfuel : cut.slots.length ≤ fuel + i) {j : Nat}
    (hj : i ≤ j) {id : Text}
    (hid : (footnoteItems letters parse cut fuel i st).2.fnOrder[j]? = some id) :
  ∃ st', (footnoteItem letters parse cut id st').1 ∈ (footnoteItems letters parse cut fuel i st).1 ∧
    (footnoteItem letters parse cut id st').2.refs ⊆
      (footnoteItems letters parse cut fuel i st).2.refs
  := by
  have hend : ∀ {i : Nat} {st : RenderState}, st.fnOrder.length ≤ i → ∀ j, i ≤ j → ∀ id,
      st.fnOrder[j]? ≠ some id := by
    intro i st hlength j hj id hid
    have hlt := (List.getElem?_eq_some_iff.mp hid).1
    omega
  induction fuel generalizing i st with
  | zero =>
      have hdone := h.length_order_le.trans hfuel
      rw [Nat.zero_add] at hdone
      exact absurd hid (hend hdone j hj id)
  | succ fuel ih =>
      have hfront := @footnoteItems_order_extend letters parse _ _ _ _ h hfuel
      unfold footnoteItems at hfront hid ⊢
      cases hsome : st.fnOrder[i]? with
      | none =>
          rw [hsome] at hid
          exact absurd hid (hend (List.getElem?_eq_none_iff.mp hsome) j hj id)
      | some first =>
          simp only [hsome] at hfront hid ⊢
          obtain rfl | hlt := Nat.eq_or_lt_of_le hj
          · obtain ⟨later, hlater⟩ := hfront
            rw [← hlater, List.getElem?_append_left (List.getElem?_eq_some_iff.mp hsome).1,
              hsome] at hid
            cases hid
            exact ⟨st, List.mem_cons_self, (footnoteItems_refs_extend fuel (i + 1) _).subset⟩
          · obtain ⟨st', hitem, hrefs⟩ :=
              ih (h.footnoteItem_take letters parse rfl hsome) (by omega) hlt hid
            exact ⟨st', List.mem_cons_of_mem _ hitem, hrefs⟩

/-- Every footnote from the `i`-th on has an item that shows its text. -/
theorem footnoteItems_shows (hparse : HandsOnPlaceholders parse) (hcut : cut.Formed)
    (hflat : FlatSlots cut.slots) {i fuel : Nat} {st : RenderState}
    (h : IdsInv cut.slots (st.fnOrder.take i) st) (hfuel : cut.slots.length ≤ fuel + i) :
  (∀ item ∈ (footnoteItems letters parse cut fuel i st).1, PlainHtml item) ∧
    ∀ j, i ≤ j → ∀ id, (footnoteItems letters parse cut fuel i st).2.fnOrder[j]? = some id →
      (∃ item ∈ (footnoteItems letters parse cut fuel i st).1,
        Shows cut.slots item (parse (cut.note id)).textMarks (parse (cut.note id)).codeMarks) ∧
      ∀ id', (parse (cut.note id)).Refers cut.slots id' →
        id' ∈ (footnoteItems letters parse cut fuel i st).2.refs
  := by
  have hend := h.footnoteItems letters parse rfl hfuel
  constructor
  · intro item hitem
    obtain ⟨id, hid, st', rfl⟩ := mem_footnoteItems h hitem
    have hplain := plain_footnoteId (hend.footnoteId hcut.slots hid)
    exact (footnoteItem_shows hparse hcut hflat hplain st').1.plain
  · intro j hj id hid
    obtain ⟨st', hitem, hrefs⟩ := exists_footnoteItem h hfuel hj hid
    have hplain := plain_footnoteId (hend.footnoteId hcut.slots
      (hend.mem_order_iff.mp (List.mem_of_getElem? hid)))
    obtain ⟨hshows, hrefers⟩ := @footnoteItem_shows letters _ _ hparse hcut hflat _ hplain st'
    exact ⟨⟨_, hitem, hshows⟩, fun id' hid' => hrefs (hrefers id' hid')⟩

end

/-! ### Texts of headings -/

theorem plain_replaceAll (pattern : String) {replacement : Char} (hreplacement : Plain replacement)
    {text : Text} (h : PlainText text) :
  PlainText (replaceAll pattern replacement text)
  := by
  intro c hc
  obtain hc | hc := Matches.mem_replace hc
  · exact h c hc
  · rw [List.mem_singleton.mp hc]
    exact hreplacement

theorem plain_stripTags {text : Text} (h : PlainText text) :
  PlainText (stripTags text)
  := by
  have hspecial : ∀ c ∈ ['&', '\'', '"', '>', '<'], Plain c :=
    List.forall_mem_of_all (by decide)
  apply plain_replaceAll _ (hspecial _ (by decide))
  apply plain_replaceAll _ (hspecial _ (by decide))
  apply plain_replaceAll _ (hspecial _ (by decide))
  apply plain_replaceAll _ (hspecial _ (by decide))
  apply plain_replaceAll _ (hspecial _ (by decide))
  intro c hc
  obtain hc | hc := Matches.mem_replace hc
  · exact h c hc
  · cases hc

theorem plain_headingText {slots : List Slot} {children : Html}
    (h : PlainHtml (restore slots children)) :
  PlainText (headingText slots children)
  := by
  have hchars : PlainText (charsOf (restore slots children)) := by
    intro c hc
    obtain ⟨d, hd, rfl⟩ := List.mem_map.mp hc
    exact h d hd
  unfold headingText
  exact fun c hc => plain_stripTags hchars c (mem_of_mem_trim hc)

/-- The headings so far have plain texts. -/
def HeadingsPlain (st : RenderState) : Prop :=
  ∀ entry ∈ st.headings, PlainText entry.text

theorem HeadingsPlain.renderTree {slots : List Slot} (hflat : FlatSlots slots)
    (hformed : ∀ slot ∈ slots, slot.Formed) (letters : Letters) {tree : MdTree}
    (htree : tree.Whole slots.length) {st : RenderState} (h : HeadingsPlain st) :
  HeadingsPlain (renderTree letters slots tree st).2
  := by
  induction tree generalizing st with
  | nil => exact h
  | text run rest ih => exact ih htree.2 h
  | node kind children rest ihchildren ihrest =>
      obtain ⟨-, -, hchildren, hrest⟩ := htree
      have hinner := ihchildren hchildren h
      have hholds := renderTree_holds hflat hformed letters hchildren st
      apply ihrest hrest
      obtain ⟨features, hstate⟩ | ⟨level, hstate⟩ := callback_state letters slots kind
        (AgentFs.renderTree letters slots children st).1
        (AgentFs.renderTree letters slots children st).2
      · rw [hstate]
        exact hinner
      · rw [hstate]
        intro entry hentry
        simp only [RenderState.withHeading] at hentry
        obtain hentry | hentry := List.mem_append.mp hentry
        · exact hinner entry hentry
        · rw [List.mem_singleton.mp hentry]
          dsimp only
          exact plain_headingText (hholds.restore hflat hformed).1

theorem fillPieces_headings (slots : List Slot) (pieces : List (HtmlChar ⊕ Nat))
    (st : RenderState) :
  (fillPieces slots pieces st).2.headings = st.headings
  := by
  induction pieces generalizing st with
  | nil => rfl
  | cons piece pieces ih =>
      cases piece with
      | inl c => exact ih st
      | inr i =>
          simp only [fillPieces, ih]
          cases slots[i]? with
          | none => rfl
          | some slot => cases slot <;> rfl

theorem HeadingsPlain.fill {st : RenderState} (h : HeadingsPlain st) (slots : List Slot)
    (html : Html) :
  HeadingsPlain (fill slots html st).2
  := by
  unfold HeadingsPlain AgentFs.fill
  rw [fillPieces_headings]
  exact h

theorem HeadingsPlain.footnoteItems {letters : Letters} {parse : Text → MdTree} {cut : CutSource}
    (hparse : HandsOnPlaceholders parse) (hcut : cut.Formed) (hflat : FlatSlots cut.slots)
    (fuel i : Nat) {st : RenderState} (h : HeadingsPlain st) :
  HeadingsPlain (footnoteItems letters parse cut fuel i st).2
  := by
  induction fuel generalizing i st with
  | zero => exact h
  | succ fuel ih =>
      unfold AgentFs.footnoteItems
      split
      · exact h
      · rename_i id _
        apply ih
        exact (h.renderTree hflat hcut.slots letters (hparse _ _ (hcut.note id))).fill cut.slots _

/-! ### The law -/

/-- No placeholder is left in the html and in the table of contents, and the html has what every
placeholder in a shown text stands for. -/
structure Restored (parse : Text → MdTree) (cut : CutSource) (doc : MarkdownDocument) : Prop where
  html : PlainHtml doc.html
  toc : ∀ entry ∈ doc.toc, PlainText entry.text
  shown : ∀ text, ShownText parse cut text →
    Shows cut.slots doc.html (parse text).textMarks (parse text).codeMarks

theorem footnoteItems_of_empty (letters : Letters) (parse : Text → MdTree) (cut : CutSource)
    (fuel : Nat) (st : RenderState) (h : st.fnOrder = []) :
  (footnoteItems letters parse cut fuel 0 st).1 = []
  := by
  cases fuel with
  | zero => rfl
  | succ fuel => simp only [footnoteItems, h, List.getElem?_nil]

/-- The footnotes of a document whose body is filled. -/
theorem restored_withFootnotes {parse : Text → MdTree} (hparse : HandsOnPlaceholders parse)
    {cut : CutSource} (hcut : cut.Formed) (hflat : FlatSlots cut.slots) (letters : Letters)
    {body : Html × RenderState}
    (hbody : Shows cut.slots body.1 (parse cut.body).textMarks (parse cut.body).codeMarks)
    (hrefs : ∀ id, (parse cut.body).Refers cut.slots id → id ∈ body.2.refs)
    (hheadings : HeadingsPlain body.2) (hinv : IdsInv cut.slots [] body.2) :
  Restored parse cut (withFootnotes letters parse cut body)
  := by
  obtain ⟨hitems, hfootnotes⟩ := @footnoteItems_shows letters _ _ hparse hcut hflat
    0 cut.slots.length _ hinv (by omega)
  have hend : IdsInv cut.slots (footnoteItems letters parse cut cut.slots.length 0 body.2).2.fnOrder
      (footnoteItems letters parse cut cut.slots.length 0 body.2).2 :=
    hinv.footnoteItems letters parse rfl (by omega)
  have hmore := @footnoteItems_refs_extend letters parse cut cut.slots.length 0 body.2
  have hplain : HeadingsPlain (footnoteItems letters parse cut cut.slots.length 0 body.2).2 :=
    hheadings.footnoteItems hparse hcut hflat cut.slots.length 0
  have hempty := footnoteItems_of_empty letters parse cut cut.slots.length body.2
  unfold withFootnotes
  generalize footnoteItems letters parse cut cut.slots.length 0 body.2 = items at *
  have hnotes : PlainHtml (footnoteSection body.2.fnOrder items.1) := by
    unfold footnoteSection
    split
    · exact fun c hc => nomatch hc
    · apply ((plain_tag _ (by decide)).append _).append (plain_tag _ (by decide))
      intro c hc
      obtain hc | ⟨item, hitem, hc⟩ := List.mem_of_mem_intercalate hc
      · exact plain_tag "\n" (by decide) c hc
      · exact hitems item hitem c hc
  have hhtml := hbody.plain.append hnotes
  -- A text that is shown is shown as a whole, and so are the footnotes that it refers to.
  have hshown : ∀ text, ShownText parse cut text →
      Shows cut.slots (body.1 ++ footnoteSection body.2.fnOrder items.1) (parse text).textMarks
          (parse text).codeMarks ∧
        ∀ id, (parse text).Refers cut.slots id → id ∈ items.2.refs := by
    intro text htext
    induction htext with
    | body =>
        exact ⟨hbody.mono (List.prefix_append _ _).isInfix hhtml,
          fun id hid => hmore.mem (hrefs id hid)⟩
    | @note text i id raw htext hi hslot ih =>
        have hid := ih.2 id ⟨i, hi, raw, hslot⟩
        obtain ⟨j, hj⟩ := List.mem_iff_getElem?.mp (hend.mem_order_iff.mpr hid)
        obtain ⟨⟨item, hitem, hshows⟩, hrefers⟩ := hfootnotes j (Nat.zero_le j) id hj
        refine ⟨hshows.mono ?_ hhtml, hrefers⟩
        have hsection : item <:+: footnoteSection body.2.fnOrder items.1 := by
          unfold footnoteSection
          rw [if_neg (fun hnone => by rw [hempty hnone] at hitem; cases hitem)]
          exact (List.infix_intercalate (tag "\n") hitem).trans (List.infix_append _ _ _)
        exact hsection.trans (List.suffix_append _ _).isInfix
  exact ⟨hhtml, fun entry hentry => hplain entry (mem_tocEntries hentry),
    fun text htext => (hshown text htext).1⟩

theorem restored {parse : Text → MdTree} (hparse : HandsOnPlaceholders parse) {cut : CutSource}
    (hcut : cut.Formed) (hflat : FlatSlots cut.slots) (letters : Letters) :
  Restored parse cut (renderCut letters parse cut)
  := by
  have hholds := renderTree_holds hflat hcut.slots letters (hparse _ _ hcut.body) .start
  unfold renderCut
  apply restored_withFootnotes hparse hcut hflat letters
  · exact hholds.fill hflat hcut.slots _
  · rintro id ⟨i, hi, raw, hslot⟩
    rw [fill_refs]
    exact List.mem_append_right _ (hholds.references.mpr ⟨i, hi, raw, hslot⟩)
  · apply HeadingsPlain.fill
    exact HeadingsPlain.renderTree hflat hcut.slots letters (hparse _ _ hcut.body)
      (fun entry hentry => nomatch hentry)
  · exact ((IdsInv.start cut.slots).renderTree letters (parse cut.body)).fillPieces _

theorem paragraphParser_handsOn :
  HandsOnPlaceholders paragraphParser
  := by
  intro n text htext
  refine ⟨?_, ?_, ⟨htext, trivial⟩, trivial⟩
  · intro href hkind
    cases hkind
  · intro hkind
    cases hkind

end AgentFs
