import AgentFs.Share.MarkdownRestored

/-!
# Escaping in rendered documents

The characters `<`, `>` and `"` in the html of a document come from the shapes of the callbacks,
unless the placeholder of math with one of them is parsed as code: there the source text is put back
as it is.
-/

namespace AgentFs

/-! ### Marked html -/

section

variable {β : Type} {char : β → Char} {n : Nat} {list : List β} {pieces : List (β ⊕ Nat)}

theorem Marked.mem_of_inl (h : Marked char n list pieces) {b : β} (hb : .inl b ∈ pieces) :
  b ∈ list
  := by
  induction h with
  | nil => cases hb
  | plain _ _ ih =>
      obtain hb | hb := List.mem_cons.mp hb
      · cases hb
        exact List.mem_cons_self
      · exact List.mem_cons_of_mem _ (ih hb)
  | mark _ _ _ ih =>
      obtain hb | hb := List.mem_cons.mp hb
      · cases hb
      · exact List.mem_append_right _ (ih hb)

theorem Marked.inl_of_mem (h : Marked char n list pieces) {b : β} (hb : Breaks (char b))
    (hmem : b ∈ list) :
  .inl b ∈ pieces
  := by
  obtain ⟨before, after, rfl⟩ := List.append_of_mem hmem
  obtain ⟨first, last, -, -, rfl⟩ := h.split hb
  exact List.mem_append_right _ List.mem_cons_self

theorem Marked.whole (h : Marked char n list pieces) :
  Whole n (list.map char)
  := by
  induction h with
  | nil => exact ⟨[], .nil⟩
  | plain hb _ ih =>
      obtain ⟨pieces', hpieces⟩ := ih
      exact ⟨_, .plain hb hpieces⟩
  | mark hi hmark _ ih =>
      obtain ⟨pieces', hpieces⟩ := ih
      rw [List.map_append]
      exact ⟨_, .mark hi (by rw [List.map_id, hmark]) hpieces⟩

end

theorem breaks_of_isMarkup {c : Char} (h : IsMarkup c) :
  Breaks c
  := by
  obtain rfl | rfl | rfl := h
  · decide
  · decide
  · decide

/-- The html has whole placeholders, which are those of `marks`. -/
def Places (html : Html) (marks : List Nat) : Prop :=
  ∃ n pieces, Marked HtmlChar.char n html pieces ∧ ∀ i, i ∈ marks ↔ .inr i ∈ pieces

/-- The placeholders in the source text of a slot. -/
def rawMarks (slots : List Slot) (i : Nat) : List Nat :=
  (slots[i]?.map (fun slot => marksOf (fromSource slot.raw))).getD []

namespace Places

variable {html html' : Html} {marks marks' : List Nat} {slots : List Slot}

theorem congr (h : Places html marks) (hsame : ∀ i, i ∈ marks ↔ i ∈ marks') :
  Places html marks'
  := by
  obtain ⟨n, pieces, hmarked, hmarks⟩ := h
  exact ⟨n, pieces, hmarked, fun i => (hsame i).symm.trans (hmarks i)⟩

theorem ofPlain (h : PlainHtml html) :
  Places html []
  := by
  refine ⟨0, _, .ofPlain h, ?_⟩
  intro i
  rw [← mem_pieceMarks, pieceMarks_map_inl]

theorem append (h : Places html marks) (h' : Places html' marks') :
  Places (html ++ html') (marks ++ marks')
  := by
  obtain ⟨n, pieces, hmarked, hmarks⟩ := h
  obtain ⟨n', pieces', hmarked', hmarks'⟩ := h'
  refine ⟨max n n', _, (hmarked.mono (Nat.le_max_left n n')).append
    (hmarked'.mono (Nat.le_max_right n n')), ?_⟩
  intro i
  rw [List.mem_append, List.mem_append, hmarks i, hmarks' i]

theorem ofText {n : Nat} {text : Text} (h : Whole n text) :
  Places (escapeHtml text) (marksOf (fromSource text))
  := by
  obtain ⟨pieces, hpieces, hmarks⟩ := marked_run h
  refine ⟨n, pieces, hpieces, ?_⟩
  intro i
  rw [← hmarks]
  exact mem_pieceMarks

theorem ofSource {n : Nat} {text : Text} (h : Whole n text) :
  Places (fromSource text) (marksOf (fromSource text))
  := by
  obtain ⟨spelled, hspelled⟩ := h
  obtain ⟨pieces, hpieces, -⟩ := marked_fromSource hspelled
  refine ⟨n, pieces, hpieces, ?_⟩
  intro i
  rw [marksOf_of_marked hpieces]
  exact mem_pieceMarks

theorem drop {before : Html} (h : Places (before ++ html) marks) (hplain : PlainHtml before) :
  Places html marks
  := by
  obtain ⟨n, pieces, hmarked, hmarks⟩ := h
  obtain ⟨pieces', hpieces, rfl⟩ := hmarked.drop hplain
  refine ⟨n, pieces', hpieces, ?_⟩
  intro i
  rw [hmarks i, ← mem_pieceMarks, ← mem_pieceMarks, pieceMarks_append, pieceMarks_map_inl,
    List.nil_append]

theorem restorePiece (hraws : ∀ slot ∈ slots, ∃ n, Whole n slot.raw) (i : Nat) :
  Places (restorePiece slots (.inr i)) (rawMarks slots i)
  := by
  cases hslot : slots[i]? with
  | none =>
      simp only [AgentFs.restorePiece, rawMarks, hslot, Option.map_none, Option.getD_none]
      exact ofPlain (List.forall_mem_nil _)
  | some slot =>
      obtain ⟨n, hraw⟩ := hraws slot (List.mem_of_getElem? hslot)
      simp only [AgentFs.restorePiece, rawMarks, hslot, Option.map_some, Option.getD_some]
      exact ofSource hraw

/-- Where slots are put back, their placeholders are. -/
theorem restore (h : Places html marks) (hraws : ∀ slot ∈ slots, ∃ n, Whole n slot.raw) :
  Places (restore slots html) (marks.flatMap (rawMarks slots))
  := by
  obtain ⟨n, pieces, hmarked, hmarks⟩ := h
  have hpieces : Places (pieces.flatMap (AgentFs.restorePiece slots))
      ((pieceMarks pieces).flatMap (rawMarks slots)) := by
    clear hmarks
    induction hmarked with
    | nil => exact ofPlain (List.forall_mem_nil _)
    | @plain c html pieces hc _ ih =>
        have hchar : Places [c] [] := ofPlain (List.forall_mem_singleton.mpr hc)
        exact hchar.append ih
    | @mark i mark html pieces _ _ _ ih => exact (restorePiece hraws i).append ih
  unfold AgentFs.restore
  rw [placeholders_of_marked hmarked]
  apply hpieces.congr
  intro i
  simp only [List.mem_flatMap, mem_pieceMarks, hmarks]

theorem whole (h : Places html marks) :
  ∃ n, Whole n (charsOf html)
  := by
  obtain ⟨n, pieces, hmarked, -⟩ := h
  exact ⟨n, hmarked.whole⟩

theorem references (h : Places html marks) {id : Text} :
  id ∈ referencesIn slots html ↔ ∃ i ∈ marks, ∃ raw, slots[i]? = some (.fnref id raw)
  := by
  obtain ⟨n, pieces, hmarked, hmarks⟩ := h
  exact mem_referencesIn hmarked hmarks

end Places

/-! ### Inert texts -/

/-- The source texts of these slots are without markup. -/
def InertSlots (slots : List Slot) (marks : List Nat) : Prop :=
  ∀ i ∈ marks, ∀ slot, slots[i]? = some slot → InertText slot.raw

@[simp]
theorem inertSlots_nil {slots : List Slot} :
  InertSlots slots []
  := List.forall_mem_nil _

@[simp]
theorem inertSlots_append {slots : List Slot} {marks marks' : List Nat} :
  InertSlots slots (marks ++ marks') ↔ InertSlots slots marks ∧ InertSlots slots marks'
  := List.forall_mem_append

theorem inertText_append {text text' : Text} (h : InertText text) (h' : InertText text') :
  InertText (text ++ text')
  := List.forall_mem_append.mpr ⟨h, h'⟩

theorem inertText_footnoteId {id : Text} (hid : ∀ c ∈ id, isFootnoteIdChar c = true) :
  InertText id
  := by
  intro c hc hmarkup
  have hchar := hid c hc
  obtain rfl | rfl | rfl := hmarkup
  · revert hchar
    decide
  · revert hchar
    decide
  · revert hchar
    decide

theorem inertText_fnId {id : Text} (hid : InertText id) :
  InertText (fnId id)
  := inertText_append (List.forall_mem_of_all (by decide)) hid

theorem inertText_refId {id : Text} (hid : InertText id) (seen : Nat) :
  InertText (refId id seen)
  := by
  apply inertText_append (List.forall_mem_of_all (by decide))
  split
  · exact hid
  · apply inertText_append hid
    intro c hc
    obtain rfl | hc := List.mem_cons.mp hc
    · decide
    · have hdigit := isDigit_of_mem_decimal hc
      rintro (rfl | rfl | rfl)
      · cases hdigit
      · cases hdigit
      · cases hdigit

/-! ### Unescaped math -/

theorem exists_of_not_escaped {html : Html} (h : ¬ Escaped html) :
  ∃ c ∈ html, c.origin = .source ∧ IsMarkup c.char
  := by
  unfold Escaped at h
  push Not at h
  exact h

/-- Html from a dollar to a dollar that is not escaped. -/
structure Fenced (part : Html) : Prop where
  ends : ∃ first inner last, part = first :: (inner ++ [last]) ∧ first.char = '$' ∧
    last.char = '$'
  unescaped : ¬ Escaped part

namespace Fenced

variable {part html : Html}

theorem of_mem {first last c : HtmlChar} {inner : Html} (hfirst : first.char = '$')
    (hlast : last.char = '$') (hc : c ∈ inner) (horigin : c.origin = .source)
    (hmarkup : IsMarkup c.char) :
  Fenced (first :: (inner ++ [last]))
  := by
  refine ⟨⟨first, inner, last, rfl, hfirst, hlast⟩, ?_⟩
  intro hescaped
  exact hescaped c (List.mem_cons_of_mem _ (List.mem_append_left _ hc)) horigin hmarkup

/-- The markup is between the dollars. -/
theorem exists_mem (h : Fenced part) :
  ∃ first inner last, part = first :: (inner ++ [last]) ∧ first.char = '$' ∧ last.char = '$' ∧
    ∃ c ∈ inner, c.origin = .source ∧ IsMarkup c.char
  := by
  obtain ⟨first, inner, last, rfl, hfirst, hlast⟩ := h.ends
  have hdollar : ¬ IsMarkup '$' := by decide
  obtain ⟨c, hc, horigin, hmarkup⟩ := exists_of_not_escaped h.unescaped
  refine ⟨first, inner, last, rfl, hfirst, hlast, c, ?_, horigin, hmarkup⟩
  rw [List.mem_cons, List.mem_append, List.mem_singleton] at hc
  obtain rfl | hc | rfl := hc
  · rw [hfirst] at hmarkup
    exact absurd hmarkup hdollar
  · exact hc
  · rw [hlast] at hmarkup
    exact absurd hmarkup hdollar

theorem not_escaped (h : Fenced part) (hin : part <:+: html) :
  ¬ Escaped html
  := fun hescaped => h.unescaped (hescaped.subset hin.subset)

theorem sturdy (h : Fenced part) :
  Sturdy part
  := by
  have hdollar : ¬ IsWhiteSpace '$' ∧ '$' ∉ "</p>".toList := by decide
  obtain ⟨first, inner, last, rfl, hfirst, hlast⟩ := h.ends
  refine ⟨⟨first, _, rfl, ?_⟩, first :: inner, last, rfl, ?_, .inl ?_⟩
  · rw [hfirst]
    exact hdollar.1
  · rw [hlast]
    exact hdollar.1
  · rw [hlast]
    exact hdollar.2

/-- It does not start in html without dollars. -/
theorem infix_after (h : Fenced part) {before : Html} (hin : part <:+: before ++ html)
    (hdollar : ∀ c ∈ before, c.char ≠ '$') :
  part <:+: html
  := by
  obtain hafter | ⟨start, d, rest, rfl, hhead, -⟩ := infix_append_cases hin
  · exact hafter
  · obtain ⟨first, inner, last, rfl, hfirst, -⟩ := h.ends
    cases hhead
    exact absurd hfirst (hdollar d (by simp))

/-- The pieces of marked html around it. -/
theorem pieces (h : Fenced part) (hin : part <:+: html) {n : Nat} {pieces : List (HtmlChar ⊕ Nat)}
    (hmarked : Marked HtmlChar.char n html pieces) :
  ∃ before first middle last after, pieces = before ++ .inl first :: (middle ++ .inl last :: after) ∧
    first.char = '$' ∧ last.char = '$' ∧
    ∃ c, .inl c ∈ middle ∧ c.origin = .source ∧ IsMarkup c.char
  := by
  have hdollar : Breaks '$' := by decide
  obtain ⟨start, stop, rfl⟩ := hin
  obtain ⟨first, inner, last, rfl, hfirst, hlast, c, hc, horigin, hmarkup⟩ := h.exists_mem
  have hlist : start ++ first :: (inner ++ [last]) ++ stop =
      start ++ first :: (inner ++ last :: stop) := by simp
  rw [hlist] at hmarked
  obtain ⟨before, rest, -, hrest, rfl⟩ := hmarked.split (by rw [hfirst]; exact hdollar)
  obtain ⟨middle, after, hmiddle, -, rfl⟩ := hrest.split (by rw [hlast]; exact hdollar)
  exact ⟨before, first, middle, last, after, rfl, hfirst, hlast, c,
    hmiddle.inl_of_mem (breaks_of_isMarkup hmarkup) hc, horigin, hmarkup⟩

end Fenced

/-- What is not escaped is between dollars. -/
def GuardedHtml (html : Html) : Prop :=
  ¬ Escaped html → ∃ part, Fenced part ∧ part <:+: html

theorem GuardedHtml.append {html html' : Html} (h : GuardedHtml html) (h' : GuardedHtml html') :
  GuardedHtml (html ++ html')
  := by
  intro hescaped
  rw [escaped_append, not_and_or] at hescaped
  obtain hescaped | hescaped := hescaped
  · obtain ⟨part, hpart, hin⟩ := h hescaped
    exact ⟨part, hpart, hin.trans (List.prefix_append _ _).isInfix⟩
  · obtain ⟨part, hpart, hin⟩ := h' hescaped
    exact ⟨part, hpart, hin.trans (List.suffix_append _ _).isInfix⟩

theorem Slot.Formed.fenced {slot : Slot} (h : slot.Formed) (hraw : ¬ InertText slot.raw) :
  Fenced (fromSource slot.raw)
  := by
  have hunescaped : ¬ Escaped (fromSource slot.raw) := by
    rw [escaped_fromSource]
    exact hraw
  cases h with
  | display inner =>
      refine ⟨⟨⟨'$', .source⟩, fromSource ('$' :: (inner ++ ['$'])), ⟨'$', .source⟩, ?_, rfl, rfl⟩,
        hunescaped⟩
      simp [Slot.raw, fromSource]
  | inline tex =>
      refine ⟨⟨⟨'$', .source⟩, fromSource tex, ⟨'$', .source⟩, ?_, rfl, rfl⟩, hunescaped⟩
      simp [Slot.raw, fromSource]
  | @fnref id hid =>
      exfalso
      apply hraw
      have hopening : InertText ['[', '^'] := List.forall_mem_of_all (by decide)
      have hclosing : InertText [']'] := List.forall_mem_of_all (by decide)
      exact inertText_append hopening (inertText_append (inertText_footnoteId hid) hclosing)

/-! ### Rendered html -/

/-- Html with the placeholders of `marks`, into which the source texts of the slots of `codes` were
put. -/
structure Rendered (slots : List Slot) (html : Html) (marks codes : List Nat) : Prop where
  places : Places html marks
  escaped : Escaped html ↔ InertSlots slots codes
  guarded : GuardedHtml html

/-- The target of a link, as it is written. -/
def linkTarget (slots : List Slot) (href : Option Text) : Text :=
  let raw := (href.map (fun href => charsOf (restore slots (fromSource href)))).getD []
  if isFragmentHref raw then raw else if raw = [] then [] else (safeHref raw).getD []

/-- The placeholders in the html of a callback, by those in the html of its children. -/
def MdKind.marks (slots : List Slot) (kind : MdKind) (inner : List Nat) : List Nat :=
  match kind with
  | .code _ => inner.flatMap (rawMarks slots)
  | .codespan => inner.flatMap (rawMarks slots)
  | .link href => marksOf (fromSource (linkTarget slots href)) ++ inner
  | _ => inner

/-- The placeholders in the html of a tree. -/
def MdTree.marks (slots : List Slot) : MdTree → List Nat
  | .nil => []
  | .text run rest => marksOf (fromSource run) ++ rest.marks slots
  | .node kind children rest => kind.marks slots (children.marks slots) ++ rest.marks slots

/-- The slots whose source text the code of a tree puts back. -/
def MdTree.codeSlots (slots : List Slot) : MdTree → List Nat
  | .nil => []
  | .text _ rest => rest.codeSlots slots
  | .node kind children rest =>
      (if kind.isCode then children.marks slots ++ children.codeSlots slots
        else children.codeSlots slots) ++ rest.codeSlots slots

theorem Whole.tail {n : Nat} {c : Char} {text : Text} (h : Whole n (c :: text)) (hc : Breaks c) :
  Whole n text
  := (@Whole.split n [] text c hc h).2

/-- Without white space at its ends a text still has whole placeholders. -/
theorem Whole.trim {n : Nat} {text : Text} (h : Whole n text) :
  Whole n (trim text)
  := by
  have hbreaks : ∀ {c : Char}, decide (IsWhiteSpace c) = true → Breaks c := by
    intro c hc
    rw [decide_eq_true_eq] at hc
    refine ⟨⟨?_, ?_⟩, ?_⟩
    · rintro rfl
      revert hc
      decide
    · rintro rfl
      revert hc
      decide
    · by_contra hdigit
      have hzero : '0'.toNat = 48 := rfl
      have hnine : '9'.toNat = 57 := rfl
      rw [Bool.not_eq_false, Char.isDigit_iff_toNat] at hdigit
      simp only [IsWhiteSpace, List.mem_cons, List.not_mem_nil, or_false] at hc
      omega
  have hleft : ∀ {text : Text}, Whole n text →
      Whole n (text.dropWhile (fun c => IsWhiteSpace c)) := by
    intro text h
    induction text with
    | nil => exact h
    | cons c text ih =>
        rw [List.dropWhile_cons]
        split
        · rename_i hc
          exact ih (h.tail (hbreaks hc))
        · exact h
  have hright : ∀ {text : Text}, Whole n text.reverse →
      Whole n (text.dropWhile (fun c => IsWhiteSpace c)).reverse := by
    intro text h
    induction text with
    | nil => exact h
    | cons c text ih =>
        rw [List.dropWhile_cons]
        split
        · rename_i hc
          rw [List.reverse_cons] at h
          exact ih (Whole.split (hbreaks hc) h).1
        · exact h
  unfold AgentFs.trim
  apply hright
  rw [List.reverse_reverse]
  exact hleft h

namespace Rendered

variable {slots : List Slot} {html html' : Html} {marks marks' codes codes' : List Nat}

theorem ofFrame (h : Frame html) :
  Rendered slots html [] []
  := ⟨.ofPlain h.plain, iff_of_true h.escaped inertSlots_nil, fun hescaped => absurd h.escaped hescaped⟩

theorem ofText {text : Text} (h : ∃ n, Whole n text) :
  Rendered slots (escapeHtml text) (marksOf (fromSource text)) []
  := by
  obtain ⟨n, hwhole⟩ := h
  exact ⟨.ofText hwhole, iff_of_true (escaped_escapeHtml text) inertSlots_nil,
    fun hescaped => absurd (escaped_escapeHtml text) hescaped⟩

theorem append (h : Rendered slots html marks codes) (h' : Rendered slots html' marks' codes') :
  Rendered slots (html ++ html') (marks ++ marks') (codes ++ codes')
  where
    places := h.places.append h'.places
    escaped := by rw [escaped_append, inertSlots_append, h.escaped, h'.escaped]
    guarded := h.guarded.append h'.guarded

theorem framed {before after : Html} (h : Rendered slots html marks codes) (hbefore : Frame before)
    (hafter : Frame after) :
  Rendered slots (before ++ html ++ after) marks codes
  := by
  have hframed := ((@ofFrame slots _ hbefore).append h).append (ofFrame hafter)
  rwa [List.nil_append, List.nil_append, List.append_nil, List.append_nil] at hframed

theorem drop {before : Html} (h : Rendered slots (before ++ html) marks codes)
    (hplain : PlainHtml before) (hdollar : ∀ c ∈ before, c.char ≠ '$') :
  Rendered slots html marks codes
  := by
  have hkept : ¬ Escaped (before ++ html) → ∃ part, Fenced part ∧ part <:+: html := by
    intro hescaped
    obtain ⟨part, hpart, hin⟩ := h.guarded hescaped
    exact ⟨part, hpart, hpart.infix_after hin hdollar⟩
  refine ⟨h.places.drop hplain, ?_, ?_⟩
  · rw [← h.escaped, escaped_append]
    constructor
    · intro hhtml
      by_contra hescaped
      rw [← escaped_append] at hescaped
      obtain ⟨part, hpart, hin⟩ := hkept hescaped
      exact hpart.not_escaped hin hhtml
    · exact And.right
  · intro hescaped
    exact hkept (fun hboth => hescaped (escaped_append.mp hboth).2)

theorem framing :
  Framing (fun html => Rendered slots html marks codes)
  where
    framed := fun h hbefore hafter => h.framed hbefore hafter
    drop := fun h hplain hdollar _ => h.drop hplain hdollar

/-- Markup between dollars is still there when slots are put back. -/
theorem fenced_restore {part : Html} (h : Fenced part) (hin : part <:+: html)
    (hplaces : Places html marks) :
  ∃ part', Fenced part' ∧ part' <:+: restore slots html
  := by
  obtain ⟨n, pieces, hmarked, -⟩ := hplaces
  obtain ⟨before, first, middle, last, after, rfl, hfirst, hlast, c, hc, horigin, hmarkup⟩ :=
    h.pieces hin hmarked
  have hmem : c ∈ middle.flatMap (restorePiece slots) :=
    List.mem_flatMap.mpr ⟨_, hc, List.mem_singleton_self c⟩
  refine ⟨_, .of_mem hfirst hlast hmem horigin hmarkup, before.flatMap (restorePiece slots),
    after.flatMap (restorePiece slots), ?_⟩
  unfold AgentFs.restore
  rw [placeholders_of_marked hmarked]
  simp [restorePiece]

/-- The source text of a slot is in the html where it is put back. -/
theorem infix_restore (hplaces : Places html marks) {i : Nat} (hi : i ∈ marks) {slot : Slot}
    (hslot : slots[i]? = some slot) :
  fromSource slot.raw <:+: restore slots html
  := by
  obtain ⟨n, pieces, hmarked, hmarks⟩ := hplaces
  unfold AgentFs.restore
  rw [placeholders_of_marked hmarked, ← restorePiece_some hslot]
  exact infix_flatMap ((hmarks i).mp hi) _

theorem escaped_restore (hplaces : Places html marks) (h : Escaped html)
    (hmarks : InertSlots slots marks) :
  Escaped (restore slots html)
  := by
  obtain ⟨n, pieces, hmarked, hpieces⟩ := hplaces
  unfold AgentFs.restore
  rw [placeholders_of_marked hmarked]
  intro c hc
  obtain ⟨piece, hpiece, hc⟩ := List.mem_flatMap.mp hc
  cases piece with
  | inl d =>
      rw [restorePiece, List.mem_singleton] at hc
      rw [hc]
      exact h d (hmarked.mem_of_inl hpiece)
  | inr i =>
      cases hslot : slots[i]? with
      | none =>
          rw [restorePiece, hslot] at hc
          cases hc
      | some slot =>
          rw [restorePiece_some hslot] at hc
          exact escaped_fromSource.mpr (hmarks i ((hpieces i).mpr hpiece) slot hslot) c hc

/-- Slots are put back as their source text. -/
theorem restore (h : Rendered slots html marks codes) (hformed : ∀ slot ∈ slots, slot.Formed)
    (hraws : ∀ slot ∈ slots, ∃ n, Whole n slot.raw) :
  Rendered slots (restore slots html) (marks.flatMap (rawMarks slots)) (marks ++ codes)
  := by
  have hfenced : ¬ InertSlots slots (marks ++ codes) →
      ∃ part, Fenced part ∧ part <:+: AgentFs.restore slots html := by
    intro hinert
    rw [inertSlots_append, not_and_or] at hinert
    obtain hinert | hinert := hinert
    · unfold InertSlots at hinert
      push Not at hinert
      obtain ⟨i, hi, slot, hslot, hraw⟩ := hinert
      exact ⟨_, (hformed slot (List.mem_of_getElem? hslot)).fenced hraw,
        infix_restore h.places hi hslot⟩
    · rw [← h.escaped] at hinert
      obtain ⟨part, hpart, hin⟩ := h.guarded hinert
      exact fenced_restore hpart hin h.places
  have hescaped : InertSlots slots (marks ++ codes) → Escaped (AgentFs.restore slots html) := by
    intro hinert
    rw [inertSlots_append] at hinert
    exact escaped_restore h.places (h.escaped.mpr hinert.2) hinert.1
  refine ⟨h.places.restore hraws, ⟨?_, hescaped⟩, ?_⟩
  · intro hrestored
    by_contra hinert
    obtain ⟨part, hpart, hin⟩ := hfenced hinert
    exact hpart.not_escaped hin hrestored
  · intro hrestored
    exact hfenced (fun hinert => hrestored (hescaped hinert))

theorem whole_linkTarget (hraws : ∀ slot ∈ slots, ∃ n, Whole n slot.raw) {href : Option Text}
    (hhref : ∀ text ∈ href, ∃ n, Whole n text) :
  ∃ n, Whole n (linkTarget slots href)
  := by
  have hnil : ∃ n, Whole n [] := ⟨0, .ofPlain (List.forall_mem_nil _)⟩
  have hraw : ∃ n, Whole n ((href.map (fun href =>
      charsOf (AgentFs.restore slots (fromSource href)))).getD []) := by
    cases href with
    | none => exact hnil
    | some text =>
        obtain ⟨n, hwhole⟩ := hhref text rfl
        exact ((Places.ofSource hwhole).restore hraws).whole
  unfold linkTarget
  dsimp only
  split
  · exact hraw
  · split
    · exact hnil
    · unfold safeHref
      dsimp only
      split
      · obtain ⟨n, hwhole⟩ := hraw
        exact ⟨n, hwhole.trim⟩
      · exact hnil

theorem link (h : Rendered slots html marks codes)
    (hraws : ∀ slot ∈ slots, ∃ n, Whole n slot.raw) {href : Option Text}
    (hhref : ∀ text ∈ href, ∃ n, Whole n text) :
  Rendered slots (linkCallback slots href html) (marksOf (fromSource (linkTarget slots href)) ++ marks)
    codes
  := by
  have htarget : Rendered slots (escapeHtml (linkTarget slots href)) _ [] :=
    ofText (whole_linkTarget hraws hhref)
  have hlink : ∀ opening, Frame (tag opening) →
      Rendered slots (tag "<a href=\"" ++ escapeHtml (linkTarget slots href) ++ tag opening ++ html ++
        tag "</a>") (marksOf (fromSource (linkTarget slots href)) ++ marks) codes := by
    intro opening hopening
    have hopened := htarget.framed (.ofTag "<a href=\"" (by decide)) hopening
    have hwhole := (hopened.append h).append (ofFrame (.ofTag "</a>" (by decide)))
    rwa [List.append_nil, List.append_nil, List.nil_append] at hwhole
  have hnil : marksOf (fromSource []) = [] := rfl
  unfold linkCallback linkTarget at *
  dsimp only at *
  split
  · rename_i hfragment
    simp only [hfragment, if_true] at hlink ⊢
    exact hlink "\">" (.ofTag _ (by decide))
  · rename_i hfragment
    simp only [hfragment, Bool.false_eq_true, if_false] at hlink ⊢
    split
    · rename_i hnone
      split at hnone
      · rename_i hempty
        simpa only [hempty, if_true, hnil, List.nil_append] using h
      · rename_i hsome
        simpa only [hsome, if_false, hnone, Option.getD_none, hnil, List.nil_append] using h
    · rename_i safe hsafe
      split at hsafe
      · cases hsafe
      · rename_i hsome
        simp only [hsome, if_false, hsafe, Option.getD_some] at hlink ⊢
        exact hlink "\" rel=\"noopener noreferrer nofollow\" target=\"_blank\">" (.ofTag _ (by decide))

/-- What a callback does to the placeholders and to the source texts in its html. -/
theorem callback (h : Rendered slots html marks codes) (hformed : ∀ slot ∈ slots, slot.Formed)
    (hraws : ∀ slot ∈ slots, ∃ n, Whole n slot.raw) {kind : MdKind}
    (hhref : ∀ href, kind = .link (some href) → ∃ n, Whole n href)
    (hrule : kind = .hr → marks = [] ∧ codes = []) (letters : Letters) (st : RenderState) :
  Rendered slots (callback letters slots kind html st).1 (kind.marks slots marks)
    (if kind.isCode then marks ++ codes else codes)
  := by
  cases kind with
  | code language => exact framing.code (h.restore hformed hraws) language st
  | codespan =>
      exact framing.wrap (h.restore hformed hraws) "<code>" "</code>"
        (by decide) (by decide)
  | hr =>
      obtain ⟨rfl, rfl⟩ := hrule rfl
      exact ofFrame (.ofTag _ (by decide))
  | link href =>
      apply h.link hraws
      rintro text ⟨⟩
      exact hhref text rfl
  | _ => exact framing.callback h rfl (by rintro href ⟨⟩) (by rintro ⟨⟩) letters slots st

theorem tree (hformed : ∀ slot ∈ slots, slot.Formed)
    (hraws : ∀ slot ∈ slots, ∃ n, Whole n slot.raw) (letters : Letters) {n : Nat} {tree : MdTree}
    (h : tree.Whole n) (st : RenderState) :
  Rendered slots (renderTree letters slots tree st).1 (tree.marks slots) (tree.codeSlots slots)
  := by
  induction tree generalizing st with
  | nil => exact ofFrame .nil
  | text run rest ih => exact (ofText ⟨n, h.1⟩).append (ih h.2 st)
  | node kind children rest ihchildren ihrest =>
      obtain ⟨hhref, hrule, hchildren, hrest⟩ := h
      have hinner := ihchildren hchildren st
      have hout := hinner.callback hformed hraws (fun href hkind => ⟨n, hhref href hkind⟩) (by
        intro hkind
        rw [hrule hkind]
        exact ⟨rfl, rfl⟩) letters (renderTree letters slots children st).2
      exact hout.append (ihrest hrest _)

end Rendered

/-! ### Filled html -/

section

variable {slots : List Slot}

theorem escaped_fillSlot {slot : Slot} (hformed : slot.Formed) (st : RenderState) :
  Escaped (fillSlot slot st).1
  := by
  cases hformed with
  | display inner => simp [fillSlot, wrap]
  | inline tex => simp [fillSlot, wrap]
  | fnref hid =>
      have hinert := inertText_footnoteId hid
      simp [fillSlot, inertText_fnId hinert, inertText_refId hinert]

theorem escaped_fillPieces (hformed : ∀ slot ∈ slots, slot.Formed)
    {pieces : List (HtmlChar ⊕ Nat)}
    (h : ∀ c, .inl c ∈ pieces → c.origin = .source → ¬ IsMarkup c.char) (st : RenderState) :
  Escaped (fillPieces slots pieces st).1
  := by
  induction pieces generalizing st with
  | nil => exact escaped_nil
  | cons piece pieces ih =>
      have hrest : ∀ c, .inl c ∈ pieces → c.origin = .source → ¬ IsMarkup c.char :=
        fun c hc => h c (List.mem_cons_of_mem _ hc)
      cases piece with
      | inl c => exact List.forall_mem_cons.mpr ⟨h c List.mem_cons_self, ih hrest st⟩
      | inr i =>
          simp only [fillPieces]
          rw [escaped_append]
          constructor
          · cases hslot : slots[i]? with
            | none => exact escaped_nil
            | some slot => exact escaped_fillSlot (hformed slot (List.mem_of_getElem? hslot)) st
          · exact ih hrest _

theorem mem_fillPieces {pieces : List (HtmlChar ⊕ Nat)} {c : HtmlChar} (h : .inl c ∈ pieces)
    (st : RenderState) :
  c ∈ (fillPieces slots pieces st).1
  := by
  obtain ⟨before, after, rfl⟩ := List.append_of_mem h
  rw [fillPieces_append]
  simp [fillPieces]

/-- Markup between dollars is still there when slots are filled. -/
theorem fenced_fill {html : Html} {marks : List Nat} {part : Html} (h : Fenced part)
    (hin : part <:+: html) (hplaces : Places html marks) (st : RenderState) :
  ∃ part', Fenced part' ∧ part' <:+: (fill slots html st).1
  := by
  obtain ⟨n, pieces, hmarked, -⟩ := hplaces
  obtain ⟨before, first, middle, last, after, rfl, hfirst, hlast, c, hc, horigin, hmarkup⟩ :=
    h.pieces hin hmarked
  have hmem := @mem_fillPieces slots _ _ hc (fillPieces slots before st).2
  refine ⟨_, .of_mem hfirst hlast hmem horigin hmarkup, (fillPieces slots before st).1,
    (fillPieces slots after (fillPieces slots middle (fillPieces slots before st).2).2).1, ?_⟩
  unfold fill
  rw [placeholders_of_marked hmarked, fillPieces_append]
  simp [fillPieces, fillPieces_append]

/-- `fill` escapes what it puts in, and keeps what is not escaped. -/
theorem Rendered.fill {html : Html} {marks codes : List Nat} (h : Rendered slots html marks codes)
    (hformed : ∀ slot ∈ slots, slot.Formed) (st : RenderState) :
  (InertSlots slots codes → Escaped (fill slots html st).1) ∧
    (¬ InertSlots slots codes → ∃ part, Fenced part ∧ part <:+: (AgentFs.fill slots html st).1)
  := by
  constructor
  · intro hcodes
    have hescaped := h.escaped.mpr hcodes
    obtain ⟨n, pieces, hmarked, -⟩ := h.places
    unfold AgentFs.fill
    rw [placeholders_of_marked hmarked]
    apply escaped_fillPieces hformed
    intro c hc
    exact hescaped c (hmarked.mem_of_inl hc)
  · intro hcodes
    rw [← h.escaped] at hcodes
    obtain ⟨part, hpart, hin⟩ := h.guarded hcodes
    exact fenced_fill hpart hin h.places st

end

/-! ### Documents -/

/-- The texts that are read for a document: its body, and the footnotes to which the html of a text
refers. -/
inductive ReadText (parse : Text → MdTree) (cut : CutSource) : Text → Prop where
  | body : ReadText parse cut cut.body
  | note {text : Text} {i : Nat} {id raw : Text} (h : ReadText parse cut text)
      (hi : i ∈ (parse text).marks cut.slots) (hslot : cut.slots[i]? = some (.fnref id raw)) :
      ReadText parse cut (cut.note id)

/-- The code of the texts that are read puts back no math with markup. -/
def InertCode (parse : Text → MdTree) (cut : CutSource) : Prop :=
  ∀ text, ReadText parse cut text → InertSlots cut.slots ((parse text).codeSlots cut.slots)

theorem escaped_withBack {inner back : Html} (h : Escaped inner) (hback : Escaped back) :
  Escaped (withBack (trimHtml inner) back)
  := by
  have htrim : Escaped (trimHtml inner) := by
    apply h.subset
    intro c hc
    have hleft := (List.dropWhile_sublist _).mem (List.mem_reverse.mp hc)
    exact (List.dropWhile_sublist _).mem (List.mem_reverse.mp hleft)
  unfold withBack
  split
  · simp [htrim.subset (List.take_subset _ _), hback]
  · simp [htrim, hback]

section

variable {letters : Letters} {parse : Text → MdTree} {cut : CutSource}

theorem rendered_text (hparse : HandsOnPlaceholders parse) (hcut : cut.Formed) {text : Text}
    (htext : Whole cut.slots.length text) (st : RenderState) :
  Rendered cut.slots (renderTree letters cut.slots (parse text) st).1 ((parse text).marks cut.slots)
    ((parse text).codeSlots cut.slots)
  := .tree hcut.slots hcut.raws letters (hparse _ _ htext) st

/-- The item of a footnote is escaped if its code is inert, and only then. -/
theorem escaped_footnoteItem (hparse : HandsOnPlaceholders parse) (hcut : cut.Formed) {id : Text}
    (hid : InertText id) (st : RenderState) :
  Escaped (footnoteItem letters parse cut id st).1 ↔
    InertSlots cut.slots ((parse (cut.note id)).codeSlots cut.slots)
  := by
  have hrendered := @rendered_text letters _ _ hparse hcut _ (hcut.note id) st
  obtain ⟨hinert, hfenced⟩ := hrendered.fill hcut.slots
    (renderTree letters cut.slots (parse (cut.note id)) st).2
  constructor
  · intro hescaped
    by_contra hcodes
    obtain ⟨part, hpart, hin⟩ := hfenced hcodes
    apply hpart.not_escaped _ hescaped
    have hsturdy := hpart.sturdy
    simp only [footnoteItem]
    exact (hsturdy.infix_withBack (hsturdy.infix_trimHtml hin) _).trans (List.infix_append _ _ _)
  · intro hcodes
    have hback : Escaped (tag "<a class=\"fn-back\" href=\"#" ++ fromSource (refId id 0) ++
        tag "\" aria-label=\"Back to reference\">↩</a>") := by
      simp [inertText_refId hid]
    simp only [footnoteItem, escaped_append, escaped_tag, escaped_fromSource, and_true, true_and]
    exact ⟨inertText_fnId hid, escaped_withBack (hinert hcodes) hback⟩

/-- The footnotes that a text refers to. -/
theorem mem_references (hparse : HandsOnPlaceholders parse) (hcut : cut.Formed) {text : Text}
    (htext : Whole cut.slots.length text) (st : RenderState) {id : Text} :
  id ∈ referencesIn cut.slots (renderTree letters cut.slots (parse text) st).1 ↔
    ∃ i ∈ (parse text).marks cut.slots, ∃ raw, cut.slots[i]? = some (.fnref id raw)
  := (rendered_text hparse hcut htext st).places.references

theorem ReadText.of_reference (hparse : HandsOnPlaceholders parse) (hcut : cut.Formed) {text : Text}
    (htext : Whole cut.slots.length text) (h : ReadText parse cut text) {st : RenderState} {id : Text}
    (hid : id ∈ referencesIn cut.slots (renderTree letters cut.slots (parse text) st).1) :
  ReadText parse cut (cut.note id)
  := by
  obtain ⟨i, hi, raw, hslot⟩ := (mem_references hparse hcut htext st).mp hid
  exact h.note hi hslot

/-- What the footnotes refer to is read. -/
theorem readText_of_refs (hparse : HandsOnPlaceholders parse) (hcut : cut.Formed) {i fuel : Nat}
    {st : RenderState} (h : IdsInv cut.slots (st.fnOrder.take i) st)
    (hread : ∀ id ∈ st.refs, ReadText parse cut (cut.note id)) :
  ∀ id ∈ (footnoteItems letters parse cut fuel i st).2.refs, ReadText parse cut (cut.note id)
  := by
  induction fuel generalizing i st with
  | zero => exact hread
  | succ fuel ih =>
      unfold footnoteItems
      split
      · exact hread
      · rename_i id hsome
        have hid := hread id (h.mem_order_iff.mp (List.mem_of_getElem? hsome))
        apply ih (h.footnoteItem_take letters parse rfl hsome)
        intro id' hid'
        rw [footnoteItem_refs, List.mem_append] at hid'
        obtain hid' | hid' := hid'
        · exact hread id' hid'
        · exact hid.of_reference hparse hcut (hcut.note id) hid'

/-- The html of a document is escaped if and only if that of its body and of its footnotes is. -/
theorem escaped_withFootnotes (body : Html × RenderState) :
  Escaped (withFootnotes letters parse cut body).html ↔ Escaped body.1 ∧
    ∀ item ∈ (footnoteItems letters parse cut cut.slots.length 0 body.2).1, Escaped item
  := by
  have hempty := footnoteItems_of_empty letters parse cut cut.slots.length body.2
  unfold withFootnotes footnoteSection
  dsimp only
  generalize footnoteItems letters parse cut cut.slots.length 0 body.2 = items at *
  rw [escaped_append]
  apply and_congr_right
  intro _
  split
  · rename_i hnone
    rw [hempty hnone]
    exact iff_of_true escaped_nil (List.forall_mem_nil _)
  · constructor
    · intro h item hitem
      apply h.subset
      have hsection := (List.infix_intercalate (tag "\n") hitem).trans
        (List.infix_append (tag "<section class=\"footnotes\" aria-label=\"Footnotes\"><hr><ol>") _
          (tag "</ol></section>\n"))
      exact hsection.subset
    · intro h
      unfold wrap
      rw [escaped_append, escaped_append]
      refine ⟨⟨escaped_tag _, ?_⟩, escaped_tag _⟩
      intro c hc
      obtain hc | ⟨item, hitem, hc⟩ := List.mem_of_mem_intercalate hc
      · exact escaped_tag "\n" c hc
      · exact h item hitem c hc

theorem escaped_renderCut (hparse : HandsOnPlaceholders parse) (hcut : cut.Formed) :
  Escaped (renderCut letters parse cut).html ↔ InertCode parse cut
  := by
  have hrendered := @rendered_text letters _ _ hparse hcut _ hcut.body .start
  obtain ⟨hinert, hfenced⟩ := hrendered.fill hcut.slots
    (renderTree letters cut.slots (parse cut.body) .start).2
  have hinv : IdsInv cut.slots [] (fill cut.slots
      (renderTree letters cut.slots (parse cut.body) .start).1
      (renderTree letters cut.slots (parse cut.body) .start).2).2 :=
    ((IdsInv.start cut.slots).renderTree letters (parse cut.body)).fillPieces _
  have hrefs : ∀ id, id ∈ (fill cut.slots (renderTree letters cut.slots (parse cut.body) .start).1
      (renderTree letters cut.slots (parse cut.body) .start).2).2.refs ↔
      id ∈ referencesIn cut.slots (renderTree letters cut.slots (parse cut.body) .start).1 := by
    intro id
    rw [fill_refs, renderTree_refs]
    exact Iff.rfl
  unfold renderCut
  dsimp only
  rw [escaped_withFootnotes]
  generalize fill cut.slots (renderTree letters cut.slots (parse cut.body) .start).1
    (renderTree letters cut.slots (parse cut.body) .start).2 = body at *
  have hend := hinv.footnoteItems letters parse rfl (by omega : cut.slots.length ≤
    cut.slots.length + 0)
  have hmore := @footnoteItems_refs_extend letters parse cut cut.slots.length 0 body.2
  constructor
  · rintro ⟨hbody, hitems⟩ text htext
    -- A text that is read has its html in the document, and so have the footnotes it refers to.
    have hread : InertSlots cut.slots ((parse text).codeSlots cut.slots) ∧
        ∀ id, (∃ i ∈ (parse text).marks cut.slots, ∃ raw, cut.slots[i]? = some (.fnref id raw)) →
          id ∈ (footnoteItems letters parse cut cut.slots.length 0 body.2).2.refs := by
      induction htext with
      | body =>
          constructor
          · by_contra hcodes
            obtain ⟨part, hpart, hin⟩ := hfenced hcodes
            exact hpart.not_escaped hin hbody
          · intro id hid
            exact hmore.mem ((hrefs id).mpr ((mem_references hparse hcut hcut.body _).mpr hid))
      | @note text i id raw htext hi hslot ih =>
          have hid := ih.2 id ⟨i, hi, raw, hslot⟩
          obtain ⟨j, hj⟩ := List.mem_iff_getElem?.mp (hend.mem_order_iff.mpr hid)
          obtain ⟨st', hitem, hlater⟩ :=
            exists_footnoteItem hinv (by omega : cut.slots.length ≤ cut.slots.length + 0)
              (Nat.zero_le j) hj
          have hinertId := inertText_footnoteId (hend.footnoteId hcut.slots hid)
          refine ⟨(escaped_footnoteItem hparse hcut hinertId st').mp (hitems _ hitem), ?_⟩
          intro id' hid'
          apply hlater
          rw [footnoteItem_refs]
          exact List.mem_append_right _ ((mem_references hparse hcut (hcut.note id) st').mpr hid')
    exact hread.1
  · intro hcode
    refine ⟨hinert (hcode _ .body), ?_⟩
    intro item hitem
    obtain ⟨id, hid, st', rfl⟩ := mem_footnoteItems hinv hitem
    have hread := @readText_of_refs letters _ _ hparse hcut 0 cut.slots.length _ hinv (fun id hid =>
      ReadText.body.of_reference hparse hcut hcut.body ((hrefs id).mp hid)) id hid
    have hinertId := inertText_footnoteId (hend.footnoteId hcut.slots hid)
    exact (escaped_footnoteItem hparse hcut hinertId st').mpr (hcode _ hread)

end

/-- A parser that knows paragraphs and indented code. -/
def indentedParser : Text → MdTree
  | ' ' :: ' ' :: ' ' :: ' ' :: text => .node (.code none) (.text text .nil) .nil
  | text => paragraphParser text

theorem indentedParser_handsOn :
  HandsOnPlaceholders indentedParser
  := by
  intro n text htext
  unfold indentedParser
  split
  · rename_i text
    have hspace : Breaks ' ' := by decide
    have hcode : Whole n text := (((htext.tail hspace).tail hspace).tail hspace).tail hspace
    refine ⟨?_, ?_, ⟨hcode, trivial⟩, trivial⟩
    · intro href hkind
      cases hkind
    · intro hkind
      cases hkind
  · exact paragraphParser_handsOn n text htext

end AgentFs
