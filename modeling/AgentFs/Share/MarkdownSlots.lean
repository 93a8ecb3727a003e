import AgentFs.Share.MarkdownRender

/-!
# Slots and placeholders

What the source of a document looks like after math and references were cut out: the slots hold
matches of their patterns, and the placeholder code points occur only in whole placeholders.
-/

namespace AgentFs

/-! ### Lists of characters with placeholders -/

/-- A character that is no part of a placeholder. -/
def Plain (c : Char) : Prop :=
  c ≠ phOpen ∧ c ≠ phClose

instance Plain.decidable :
    DecidablePred Plain :=
  fun _ => inferInstanceAs (Decidable (_ ∧ _))

def PlainText (text : Text) : Prop :=
  ∀ c ∈ text, Plain c

/-- A character that ends a placeholder that is not whole. -/
def Breaks (c : Char) : Prop :=
  Plain c ∧ c.isDigit = false

instance Breaks.decidable :
    DecidablePred Breaks :=
  fun _ => inferInstanceAs (Decidable (_ ∧ _))

theorem mem_placeholder {c : Char} {i : Nat} (h : c ∈ placeholder i) :
  c = phOpen ∨ c.isDigit = true ∨ c = phClose
  := by
  rw [placeholder, List.mem_cons, List.mem_append, List.mem_singleton] at h
  exact h.imp_right (fun h => h.imp_left isDigit_of_mem_decimal)

theorem Breaks.not_mem_placeholder {c : Char} (hc : Breaks c) (i : Nat) :
  c ∉ placeholder i
  := by
  intro h
  obtain h | h | h := mem_placeholder h
  · exact hc.1.1 h
  · rw [hc.2] at h
    cases h
  · exact hc.1.2 h

/-- The list is spelled by the pieces: plain characters and whole placeholders of slots
below `n`. -/
inductive Marked {β : Type} (char : β → Char) (n : Nat) : List β → List (β ⊕ Nat) → Prop where
  | nil : Marked char n [] []
  | plain {b : β} {list : List β} {pieces : List (β ⊕ Nat)} (hb : Plain (char b))
      (h : Marked char n list pieces) : Marked char n (b :: list) (.inl b :: pieces)
  | mark {i : Nat} {mark list : List β} {pieces : List (β ⊕ Nat)} (hi : i < n)
      (hmark : mark.map char = placeholder i) (h : Marked char n list pieces) :
      Marked char n (mark ++ list) (.inr i :: pieces)

namespace Marked

variable {β : Type} {char : β → Char} {n : Nat}

theorem mono {m : Nat} (hnm : n ≤ m) {list : List β} {pieces : List (β ⊕ Nat)}
    (h : Marked char n list pieces) :
  Marked char m list pieces
  := by
  induction h with
  | nil => exact .nil
  | plain hb _ ih => exact .plain hb ih
  | mark hi hmark _ ih => exact .mark (hi.trans_le hnm) hmark ih

theorem append {list list' : List β} {pieces pieces' : List (β ⊕ Nat)}
    (h : Marked char n list pieces) (h' : Marked char n list' pieces') :
  Marked char n (list ++ list') (pieces ++ pieces')
  := by
  induction h with
  | nil => exact h'
  | plain hb _ ih => exact .plain hb ih
  | mark hi hmark _ ih =>
      rw [List.append_assoc]
      exact .mark hi hmark ih

theorem ofPlain {list : List β} (h : ∀ b ∈ list, Plain (char b)) :
  Marked char n list (list.map .inl)
  := by
  induction list with
  | nil => exact .nil
  | cons b list ih =>
      exact .plain (h b List.mem_cons_self) (ih (fun b hb => h b (List.mem_cons_of_mem _ hb)))

/-- A list is cut at a character that no placeholder has. -/
theorem split {before after : List β} {b : β} (hb : Breaks (char b)) {pieces : List (β ⊕ Nat)}
    (h : Marked char n (before ++ b :: after) pieces) :
  ∃ first last, Marked char n before first ∧ Marked char n after last ∧
    pieces = first ++ .inl b :: last
  := by
  generalize hlist : before ++ b :: after = list at h
  induction h generalizing before with
  | nil => simp at hlist
  | @plain b' list pieces hb' h ih =>
      cases before with
      | nil =>
          injection hlist with hhead htail
          subst hhead htail
          exact ⟨[], pieces, .nil, h, rfl⟩
      | cons d before =>
          injection hlist with hhead htail
          subst hhead
          obtain ⟨first, last, hfirst, hlast, rfl⟩ := ih htail
          exact ⟨_, last, .plain hb' hfirst, hlast, rfl⟩
  | @mark i mark list pieces hi hmark h ih =>
      have hfree : b ∉ mark := by
        intro hmem
        apply hb.not_mem_placeholder i
        rw [← hmark]
        exact List.mem_map_of_mem hmem
      obtain ⟨rest, hin, hrest⟩ | ⟨rest, hbefore, hrest⟩ := List.append_eq_append_iff.mp hlist
      · cases rest with
        | nil =>
            rw [List.append_nil] at hin
            subst hin
            obtain ⟨first, last, hfirst, hlast, rfl⟩ := @ih [] hrest
            refine ⟨.inr i :: first, last, ?_, hlast, rfl⟩
            have hwhole := Marked.mark hi hmark hfirst
            rwa [List.append_nil] at hwhole
        | cons d rest =>
            injection hrest with hhead _
            subst hhead
            exact absurd (hin ▸ List.mem_append_right _ List.mem_cons_self) hfree
      · subst hbefore
        obtain ⟨first, last, hfirst, hlast, rfl⟩ := ih hrest.symm
        exact ⟨.inr i :: first, last, .mark hi hmark hfirst, hlast, rfl⟩

end Marked

/-- The text has whole placeholders of slots below `n` only. -/
def Whole (n : Nat) (text : Text) : Prop :=
  ∃ pieces, Marked id n text pieces

namespace Whole

variable {n : Nat}

theorem mono {m : Nat} (hnm : n ≤ m) {text : Text} (h : Whole n text) :
  Whole m text
  := h.imp (fun _ hpieces => hpieces.mono hnm)

theorem append {text text' : Text} (h : Whole n text) (h' : Whole n text') :
  Whole n (text ++ text')
  := by
  obtain ⟨pieces, hpieces⟩ := h
  obtain ⟨pieces', hpieces'⟩ := h'
  exact ⟨_, hpieces.append hpieces'⟩

theorem ofPlain {text : Text} (h : PlainText text) :
  Whole n text
  := ⟨_, .ofPlain h⟩

theorem placeholder {i : Nat} (hi : i < n) :
  Whole n (AgentFs.placeholder i)
  := by
  refine ⟨[.inr i], ?_⟩
  have h := @Marked.mark Char id _ i _ _ [] hi (List.map_id (AgentFs.placeholder i)) .nil
  rwa [List.append_nil] at h

theorem split {before after : Text} {c : Char} (hc : Breaks c)
    (h : Whole n (before ++ c :: after)) :
  Whole n before ∧ Whole n after
  := by
  obtain ⟨pieces, hpieces⟩ := h
  obtain ⟨first, last, hfirst, hlast, -⟩ := hpieces.split hc
  exact ⟨⟨first, hfirst⟩, ⟨last, hlast⟩⟩

end Whole

/-! ### Matches of the patterns -/

theorem untilDollars_spec {text tex : Text} (h : untilDollars text = some tex) :
  ∃ rest, text = tex ++ '$' :: '$' :: rest
  := by
  fun_induction untilDollars text generalizing tex with
  | case1 => cases h
  | case2 c => cases h
  | case3 c d text hdollars =>
      cases h
      obtain ⟨rfl, rfl⟩ := hdollars
      exact ⟨text, rfl⟩
  | case4 c d text hdollars ih =>
      obtain ⟨tex', htex, rfl⟩ := Option.map_eq_some_iff.mp h
      obtain ⟨rest, hrest⟩ := ih htex
      exact ⟨rest, by rw [hrest]; rfl⟩

theorem displayMath_spec {before text tex : Text} {len : Nat}
    (h : displayMath before text = some (len, tex)) :
  0 < len ∧ text.take len = '$' :: '$' :: (tex ++ ['$', '$'])
  := by
  unfold displayMath at h
  split at h
  · obtain ⟨tex', htex, hfound⟩ := Option.map_eq_some_iff.mp h
    cases hfound
    obtain ⟨rest, rfl⟩ := untilDollars_spec htex
    refine ⟨Nat.succ_pos _, ?_⟩
    have htake := @List.take_length_add_append _ tex' ('$' :: '$' :: rest) 2
    simpa using htake
  · cases h

theorem inlineUnit_spec {text taken rest : Text} {last : Char}
    (h : inlineUnit text = some (taken, last, rest)) :
  text = taken ++ rest
  := by
  unfold inlineUnit at h
  split at h
  · split at h
    · cases h
    · cases h
      rfl
  · split at h
    · cases h
    · cases h
      rfl
  · cases h

theorem inlineTex_spec {fuel : Nat} {text tex : Text} (h : inlineTex fuel text = some tex) :
  ∃ rest, text = tex ++ '$' :: rest
  := by
  induction fuel generalizing text tex with
  | zero => cases h
  | succ fuel ih =>
      unfold inlineTex at h
      split at h
      · cases h
      · rename_i taken last rest hunit
        have htext := inlineUnit_spec hunit
        split at h
        · rename_i hcloses
          cases h
          unfold closesMath at hcloses
          simp only [Bool.and_eq_true, decide_eq_true_eq] at hcloses
          obtain ⟨tail, htail⟩ := List.head?_eq_some_iff.mp hcloses.1.2
          exact ⟨tail, by rw [htext, htail]⟩
        · obtain ⟨tex', htex, rfl⟩ := Option.map_eq_some_iff.mp h
          obtain ⟨tail, rfl⟩ := ih htex
          exact ⟨tail, by rw [htext, List.append_assoc]⟩

theorem inlineMath_spec {before text tex : Text} {len : Nat}
    (h : inlineMath before text = some (len, tex)) :
  0 < len ∧ text.take len = '$' :: (tex ++ ['$'])
  := by
  unfold inlineMath at h
  split at h
  · split at h
    · cases h
    · obtain ⟨tex', htex, hfound⟩ := Option.map_eq_some_iff.mp h
      cases hfound
      obtain ⟨rest, rfl⟩ := inlineTex_spec htex
      refine ⟨Nat.succ_pos _, ?_⟩
      have htake := @List.take_length_add_append _ tex ('$' :: rest) 1
      simpa using htake
  · cases h

theorem footnoteId_spec {text id rest : Text} (h : footnoteId text = some (id, rest)) :
  text = '[' :: '^' :: (id ++ ']' :: rest) ∧ ∀ c ∈ id, isFootnoteIdChar c = true
  := by
  unfold footnoteId at h
  split at h
  · rename_i text
    dsimp only at h
    split at h
    · rename_i hid
      cases h
      obtain ⟨tail, htail⟩ := List.head?_eq_some_iff.mp hid.2.2
      constructor
      · have htake : text.takeWhile isFootnoteIdChar =
            text.take (text.takeWhile isFootnoteIdChar).length :=
          List.prefix_iff_eq_take.mp (List.takeWhile_prefix _)
        congr 2
        calc text
          _ = text.take (text.takeWhile isFootnoteIdChar).length ++
                text.drop (text.takeWhile isFootnoteIdChar).length :=
              (List.take_append_drop _ _).symm
          _ = _ := by rw [← htake, htail, List.tail_cons]
      · intro c hc
        exact List.mem_takeWhile_imp hc
    · cases h
  · cases h

theorem footnoteRef_spec {before text id : Text} {len : Nat}
    (h : footnoteRef before text = some (len, id)) :
  0 < len ∧ text.take len = '[' :: '^' :: (id ++ [']']) ∧ ∀ c ∈ id, isFootnoteIdChar c = true
  := by
  obtain ⟨⟨id', rest⟩, hid, hfound⟩ := Option.map_eq_some_iff.mp h
  cases hfound
  obtain ⟨rfl, hchars⟩ := footnoteId_spec hid
  refine ⟨Nat.succ_pos _, ?_, hchars⟩
  have htake := @List.take_length_add_append _ id' (']' :: rest) 1
  simpa using htake

/-! ### Slots -/

/-- A slot holds a match of its pattern. -/
inductive Slot.Formed : Slot → Prop where
  | display (inner : Text) :
      Slot.Formed (.math true (trim inner) ('$' :: '$' :: (inner ++ ['$', '$'])))
  | inline (tex : Text) : Slot.Formed (.math false tex ('$' :: (tex ++ ['$'])))
  | fnref {id : Text} (hid : ∀ c ∈ id, isFootnoteIdChar c = true) :
      Slot.Formed (.fnref id ('[' :: '^' :: (id ++ [']'])))

/-- A match starts and ends with a character that no placeholder has. -/
theorem Slot.Formed.ends {slot : Slot} (h : slot.Formed) :
  ∃ first inner last, Breaks first ∧ Breaks last ∧ slot.raw = first :: (inner ++ [last])
  := by
  have hdollar : Breaks '$' := by decide
  have hopen : Breaks '[' := by decide
  have hclose : Breaks ']' := by decide
  cases h with
  | display inner =>
      exact ⟨_, '$' :: (inner ++ ['$']), _, hdollar, hdollar, by simp [Slot.raw]⟩
  | inline tex => exact ⟨_, tex, _, hdollar, hdollar, rfl⟩
  | fnref hid => exact ⟨_, '^' :: _, _, hopen, hclose, rfl⟩

/-- The text that a piece stands for. -/
def rawPiece : Char ⊕ Slot → Text
  | .inl c => [c]
  | .inr slot => slot.raw

/-- A slot that was cut out of a text with whole placeholders. -/
def Slot.Cut (slot : Slot) : Prop :=
  slot.Formed ∧ ∃ n, Whole n slot.raw

/-- Cutting out keeps the slots and puts whole placeholders for whole matches. -/
theorem cutOut_spec {slots : List Slot} {pieces : List (Char ⊕ Slot)} (before : Text)
    (hpieces : ∀ slot, .inr slot ∈ pieces → slot.Formed)
    (h : Whole slots.length (before ++ pieces.flatMap rawPiece)) :
  slots <+: (cutOut slots pieces).2 ∧
    (∀ slot ∈ (cutOut slots pieces).2, slot ∈ slots ∨
      .inr slot ∈ pieces ∧ ∃ n, Whole n slot.raw) ∧
    Whole (cutOut slots pieces).2.length (before ++ (cutOut slots pieces).1)
  := by
  induction pieces generalizing slots before with
  | nil => exact ⟨List.prefix_rfl, fun slot hslot => .inl hslot, h⟩
  | cons piece pieces ih =>
      have hrest : ∀ slot, .inr slot ∈ pieces → slot.Formed :=
        fun slot hslot => hpieces slot (List.mem_cons_of_mem _ hslot)
      cases piece with
      | inl c =>
          obtain ⟨hslots, hfrom, hwhole⟩ := ih (before ++ [c]) hrest (by
            rw [List.append_assoc]
            exact h)
          refine ⟨hslots, ?_, ?_⟩
          · intro slot hslot
            exact (hfrom slot hslot).imp_right (And.imp_left (List.mem_cons_of_mem _))
          · rw [List.append_assoc] at hwhole
            exact hwhole
      | inr slot =>
          obtain ⟨first, inner, last, hfirst, hlast, hraw⟩ :=
            (hpieces slot List.mem_cons_self).ends
          have htext : before ++ (.inr slot :: pieces).flatMap rawPiece =
              before ++ first :: (inner ++ last :: pieces.flatMap rawPiece) := by
            simp [rawPiece, hraw]
          rw [htext] at h
          obtain ⟨hbefore, hafter⟩ := h.split hfirst
          obtain ⟨hinner, hmore⟩ := hafter.split hlast
          have hcut : Whole slots.length slot.raw := by
            have hend : ∀ {c : Char}, Breaks c → Whole slots.length [c] := by
              intro c hc
              apply Whole.ofPlain
              intro d hd
              rw [List.mem_singleton.mp hd]
              exact hc.1
            rw [hraw]
            exact (hend hfirst).append (hinner.append (hend hlast))
          obtain ⟨⟨later, hlater⟩, hfrom, hwhole⟩ := @ih (slots ++ [slot]) []
            hrest (hmore.mono (by simp))
          have hlength : slots.length < (cutOut (slots ++ [slot]) pieces).2.length := by
            rw [← hlater]
            simp
          refine ⟨?_, ?_, ?_⟩
          · exact ⟨slot :: later, by rw [List.append_cons, hlater]; rfl⟩
          · intro other hother
            obtain hother | hother := hfrom other hother
            · obtain hother | hother := List.mem_append.mp hother
              · exact .inl hother
              · rw [List.mem_singleton.mp hother]
                exact .inr ⟨List.mem_cons_self, _, hcut⟩
            · exact .inr ⟨List.mem_cons_of_mem _ hother.1, hother.2⟩
          · exact (hbefore.mono hlength.le).append
              ((Whole.placeholder hlength).append hwhole)

/-- The text and the slots after something was cut out. -/
structure CutText (slots : List Slot) (cut : Text × List Slot) : Prop where
  kept : slots <+: cut.2
  formed : ∀ slot ∈ cut.2, slot.Cut
  whole : Whole cut.2.length cut.1

/-- A replacement cuts out whole matches, if every match with a slot is the one of the slot. -/
theorem replaceWithSlots_cut {α : Type} (matcher : Text → Text → Option (Nat × α))
    (slot : Text → α → Option Slot) {text : Text} {slots : List Slot}
    (hmatch : ∀ before text len found, matcher before text = some (len, found) →
      0 < len ∧ ∀ s, slot (text.take len) found = some s → s.Formed ∧ s.raw = text.take len)
    (hslots : ∀ slot ∈ slots, slot.Cut) (h : Whole slots.length text) :
  CutText slots (replaceWithSlots matcher slot text slots)
  := by
  obtain ⟨htext, hparts⟩ := Matches.scan_spec
    (P := fun raw found => ∀ s, slot raw found = some s → s.Formed ∧ s.raw = raw) hmatch [] text
  have hformed : ∀ s, .inr s ∈ (Matches.scan matcher 0 [] text).flatMap (slotPiece slot) →
      s.Formed := by
    intro s hs
    obtain ⟨piece, hpiece, hs⟩ := List.mem_flatMap.mp hs
    cases piece with
    | inl c => simp [slotPiece] at hs
    | inr part =>
        obtain ⟨raw, found⟩ := part
        cases hslot : slot raw found with
        | none => simp [slotPiece, hslot] at hs
        | some s' =>
            simp only [slotPiece, hslot, List.mem_singleton, Sum.inr.injEq] at hs
            subst hs
            exact (hparts raw found hpiece s hslot).1
  have hraw : ((Matches.scan matcher 0 [] text).flatMap (slotPiece slot)).flatMap rawPiece =
      text := by
    rw [List.flatMap_assoc]
    conv_rhs => rw [← htext]
    apply List.flatMap_congr
    intro piece hpiece
    cases piece with
    | inl c => rfl
    | inr part =>
        obtain ⟨raw, found⟩ := part
        simp only [slotPiece, Matches.original]
        cases hslot : slot raw found with
        | none => simp [List.flatMap_map, rawPiece]
        | some s => simpa [rawPiece] using (hparts raw found hpiece s hslot).2
  obtain ⟨hkept, hfrom, hwhole⟩ := cutOut_spec [] hformed (by
    rw [hraw]
    exact h)
  refine ⟨hkept, ?_, hwhole⟩
  intro s hs
  obtain hs | hs := hfrom s hs
  · exact hslots s hs
  · exact ⟨hformed s hs.1, hs.2⟩

namespace CutText

variable {defs : List (Text × Text)} {slots : List Slot}

theorem trans {cut : Text × List Slot} {cut' : Text × List Slot} (h : CutText slots cut)
    (h' : CutText cut.2 cut') :
  CutText slots cut'
  := ⟨h.kept.trans h'.kept, h'.formed, h'.whole⟩

theorem prose {text : Text} (hslots : ∀ slot ∈ slots, slot.Cut) (h : Whole slots.length text) :
  CutText slots (cutProse defs text slots)
  := by
  have hdisplay := replaceWithSlots_cut displayMath
    (fun raw tex => some (.math true (trim tex) raw)) (by
      intro before text len tex hfound
      obtain ⟨hpos, htake⟩ := displayMath_spec hfound
      refine ⟨hpos, ?_⟩
      rintro s hs
      cases hs
      exact ⟨htake ▸ .display tex, rfl⟩) hslots h
  have hinline := replaceWithSlots_cut inlineMath
    (fun raw tex => some (.math false tex raw)) (by
      intro before text len tex hfound
      obtain ⟨hpos, htake⟩ := inlineMath_spec hfound
      refine ⟨hpos, ?_⟩
      rintro s hs
      cases hs
      exact ⟨htake ▸ .inline tex, rfl⟩) hdisplay.formed hdisplay.whole
  apply (hdisplay.trans hinline).trans
  apply replaceWithSlots_cut _ _ _ hinline.formed hinline.whole
  intro before text len id hfound
  obtain ⟨hpos, htake, hid⟩ := footnoteRef_spec hfound
  refine ⟨hpos, ?_⟩
  intro s hs
  split at hs
  · cases hs
    exact ⟨htake ▸ .fnref hid, rfl⟩
  · cases hs

/-- Slices of plain text are cut one after the other. -/
theorem spans {text : Text} (htext : PlainText text) (ranges : List (Nat × Nat)) (last : Nat)
    (hslots : ∀ slot ∈ slots, slot.Cut) :
  CutText slots (cutSpans defs text last ranges slots)
  := by
  have hslice : ∀ start stop, PlainText (sliceText text start stop) := by
    intro start stop c hc
    exact htext c (List.mem_of_mem_drop (List.mem_of_mem_take hc))
  induction ranges generalizing last slots with
  | nil =>
      simp only [cutSpans]
      apply prose hslots
      apply Whole.ofPlain
      intro c hc
      exact htext c (List.mem_of_mem_drop hc)
  | cons range ranges ih =>
      obtain ⟨start, stop⟩ := range
      have hbefore : CutText slots (cutProse defs (sliceText text last start) slots) :=
        prose hslots (.ofPlain (hslice last start))
      have hafter := ih stop hbefore.formed
      simp only [cutSpans]
      refine ⟨hbefore.kept.trans hafter.kept, hafter.formed, ?_⟩
      exact ((hbefore.whole.mono hafter.kept.length_le).append
        (.ofPlain (hslice start stop))).append hafter.whole

end CutText

/-! ### Plain sources -/

theorem plain_newline :
  Plain '\n'
  := by decide

theorem plain_joinedLines {lines : List Text} (h : ∀ line ∈ lines, PlainText line) :
  PlainText (joinedLines lines)
  := by
  intro c hc
  obtain hc | ⟨line, hline, hc⟩ := List.mem_of_mem_intercalate hc
  · rw [List.mem_singleton.mp hc]
    exact plain_newline
  · exact h line hline c hc

theorem mem_of_mem_splitOn {text line : Text} (hline : line ∈ text.splitOn '\n') {c : Char}
    (hc : c ∈ line) :
  c ∈ text
  := by
  have hmem := (List.infix_intercalate ['\n'] hline).mem hc
  rwa [List.intercalate_splitOn] at hmem

theorem FencedBlocks.mem_lines {lines : List Text} {blocks : List LineBlock}
    (h : FencedBlocks lines blocks) {block : LineBlock} (hblock : block ∈ blocks) {line : Text}
    (hline : line ∈ block.lines) :
  line ∈ lines
  := by
  induction h with
  | done => cases hblock
  | prose hne hplain hrest h ih =>
      rw [List.mem_append]
      obtain rfl | hblock := List.mem_cons.mp hblock
      · exact .inl hline
      · exact .inr (ih hblock)
  | closed hopen hinside hclose h ih =>
      obtain rfl | hblock := List.mem_cons.mp hblock
      · simp only [List.mem_cons, List.mem_append, List.not_mem_nil, or_false] at hline ⊢
        exact hline.imp_right (fun hline => hline.imp_right .inl)
      · have hmem := ih hblock
        simp only [List.mem_cons, List.mem_append]
        exact .inr (.inr (.inr hmem))
  | unclosed hopen hinside =>
      rw [List.mem_singleton.mp hblock] at hline
      exact hline

/-- A chunk has no characters but those of the body. -/
theorem plain_chunk {body : Text} (h : PlainText body) {chunk : FenceChunk}
    (hchunk : chunk ∈ splitFences body) :
  PlainText chunk.text
  := by
  obtain ⟨blocks, hblocks, hsplit⟩ := splitFences_spec body
  rw [hsplit] at hchunk
  obtain ⟨block, hblock, rfl⟩ := List.mem_map.mp hchunk
  apply plain_joinedLines
  intro line hline c hc
  exact h c (mem_of_mem_splitOn (hblocks.mem_lines hblock hline) hc)

theorem mem_of_mem_dropBlank {text : Text} {c : Char} (h : c ∈ dropBlank text) :
  c ∈ text
  := by
  unfold dropBlank at h
  split at h
  · exact List.mem_of_mem_tail h
  · exact h

theorem footnoteDef_sublist {line id text : Text} (h : footnoteDef line = some (id, text)) :
  ∀ c ∈ text, c ∈ line
  := by
  unfold footnoteDef at h
  split at h
  · rename_i id' rest hid
    obtain ⟨rfl, -⟩ := footnoteId_spec hid
    dsimp only at h
    split at h
    · cases h
    · cases h
      intro c hc
      simp [mem_of_mem_dropBlank hc]
  · cases h

theorem plain_footnoteDef {line id text : Text} (h : PlainText line)
    (hdef : footnoteDef line = some (id, text)) :
  PlainText text
  := fun c hc => h c (footnoteDef_sublist hdef c hc)

/-- The loop over the lines of a chunk keeps plain lines and finds plain definitions. -/
theorem plain_defLines {current : Option (Text × List Text)} {lines : List Text}
    (hcurrent : ∀ found ∈ current, ∀ part ∈ found.2, PlainText part)
    (h : ∀ line ∈ lines, PlainText line) :
  (∀ line ∈ (defLines current lines).1, PlainText line) ∧
    ∀ found ∈ (defLines current lines).2, PlainText found.2
  := by
  have hsingle : ∀ {id text : Text}, PlainText text →
      ∀ found ∈ some (id, [text]), ∀ part ∈ found.2, PlainText part := by
    rintro id text htext _ ⟨⟩ part hpart
    rwa [List.mem_singleton.mp hpart]
  fun_induction defLines current lines with
  | case1 => exact ⟨h, fun found hfound => nomatch hfound⟩
  | case2 id parts =>
      refine ⟨h, ?_⟩
      intro found hfound
      rw [List.mem_singleton.mp hfound]
      exact plain_joinedLines (hcurrent (id, parts) rfl)
  | case3 line lines id text hdef ih =>
      rw [List.forall_mem_cons] at h
      exact ih (hsingle (plain_footnoteDef h.1 hdef)) h.2
  | case4 line lines hdef after ih =>
      rw [List.forall_mem_cons] at h
      obtain ⟨hkept, hdefs⟩ := ih hcurrent h.2
      exact ⟨List.forall_mem_cons.mpr ⟨h.1, hkept⟩, hdefs⟩
  | case5 id parts line lines hcontinues ih =>
      rw [List.forall_mem_cons] at h
      apply ih _ h.2
      rintro _ ⟨⟩ part hpart
      obtain hpart | hpart := List.mem_append.mp hpart
      · exact hcurrent (id, parts) rfl part hpart
      · rw [List.mem_singleton.mp hpart]
        exact fun c hc => h.1 c (mem_of_mem_trim hc)
  | case6 id parts line lines hends id' text hdef after ih =>
      rw [List.forall_mem_cons] at h
      obtain ⟨hkept, hdefs⟩ := ih (hsingle (plain_footnoteDef h.1 hdef)) h.2
      exact ⟨hkept, List.forall_mem_cons.mpr
        ⟨plain_joinedLines (hcurrent (id, parts) rfl), hdefs⟩⟩
  | case7 id parts line lines hends hdef after ih =>
      rw [List.forall_mem_cons] at h
      obtain ⟨hkept, hdefs⟩ := ih (fun _ hfound => nomatch hfound) h.2
      exact ⟨List.forall_mem_cons.mpr ⟨h.1, hkept⟩, List.forall_mem_cons.mpr
        ⟨plain_joinedLines (hcurrent (id, parts) rfl), hdefs⟩⟩

theorem mem_foldl_addDef {defs found : List (Text × Text)} {d : Text × Text}
    (h : d ∈ found.foldl addDef defs) :
  d ∈ defs ∨ d ∈ found
  := by
  induction found generalizing defs with
  | nil => exact .inl h
  | cons first found ih =>
      obtain h | h := ih h
      · unfold addDef at h
        split at h
        · exact .inl h
        · obtain h | h := List.mem_append.mp h
          · exact .inl h
          · exact .inr (List.mem_cons.mpr (.inl (List.mem_singleton.mp h)))
      · exact .inr (List.mem_cons_of_mem _ h)

/-- The body without its definitions and the definitions are plain. -/
theorem plain_extractFootnoteDefs {body : Text} (h : PlainText body) :
  PlainText (extractFootnoteDefs body).1 ∧
    ∀ found ∈ (extractFootnoteDefs body).2, PlainText found.2
  := by
  have hchunk : ∀ chunk ∈ splitFences body, PlainText (chunkDefs chunk).1 ∧
      ∀ found ∈ (chunkDefs chunk).2, PlainText found.2 := by
    intro chunk hchunk
    have htext := plain_chunk h hchunk
    unfold chunkDefs
    split
    · exact ⟨htext, fun found hfound => nomatch hfound⟩
    · obtain ⟨hkept, hdefs⟩ := @plain_defLines none
        (chunk.text.splitOn '\n') (fun _ hfound => nomatch hfound)
        (fun line hline c hc => htext c (mem_of_mem_splitOn hline hc))
      exact ⟨plain_joinedLines hkept, hdefs⟩
  constructor
  · apply plain_joinedLines
    intro text htext
    obtain ⟨_, hpair, rfl⟩ := List.mem_map.mp htext
    obtain ⟨chunk, hmem, rfl⟩ := List.mem_map.mp hpair
    exact (hchunk chunk hmem).1
  · intro found hfound
    obtain hfound | hfound := mem_foldl_addDef hfound
    · cases hfound
    · obtain ⟨_, hpair, hfound⟩ := List.mem_flatMap.mp hfound
      obtain ⟨chunk, hmem, rfl⟩ := List.mem_map.mp hpair
      exact (hchunk chunk hmem).2 found hfound

/-- A source is plain once its placeholders are stripped, and so is its body. -/
theorem plain_frontmatterBody (source : Text) :
  PlainText (frontmatterBody (stripPlaceholders source))
  := by
  have hstrip : PlainText (stripPlaceholders source) := by
    intro c hc
    obtain ⟨d, -, rfl⟩ := List.mem_map.mp hc
    split
    · decide
    · rename_i hplain
      exact ⟨fun h => hplain (.inl h), fun h => hplain (.inr h)⟩
  unfold frontmatterBody
  split
  · exact hstrip
  · exact fun c hc => hstrip c (List.mem_of_mem_drop hc)

/-! ### Cut sources -/

namespace CutText

variable {defs : List (Text × Text)} {slots : List Slot}

theorem chunk {chunk : FenceChunk} (h : PlainText chunk.text)
    (hslots : ∀ slot ∈ slots, slot.Cut) :
  CutText slots (cutChunk defs chunk slots)
  := by
  unfold cutChunk
  split
  · exact ⟨List.prefix_rfl, hslots, .ofPlain h⟩
  · exact spans h _ 0 hslots

/-- The chunks are cut one after the other. -/
theorem chunks {chunks : List FenceChunk} (h : ∀ chunk ∈ chunks, PlainText chunk.text)
    (hslots : ∀ slot ∈ slots, slot.Cut) :
  slots <+: (cutChunks defs chunks slots).2 ∧
    (∀ slot ∈ (cutChunks defs chunks slots).2, slot.Cut) ∧
    ∀ text ∈ (cutChunks defs chunks slots).1, Whole (cutChunks defs chunks slots).2.length text
  := by
  induction chunks generalizing slots with
  | nil => exact ⟨List.prefix_rfl, hslots, fun text htext => nomatch htext⟩
  | cons first chunks ih =>
      rw [List.forall_mem_cons] at h
      have hfirst : CutText slots (cutChunk defs first slots) := chunk h.1 hslots
      obtain ⟨hkept, hformed, hwhole⟩ := ih h.2 hfirst.formed
      simp only [cutChunks]
      refine ⟨hfirst.kept.trans hkept, hformed, ?_⟩
      rw [List.forall_mem_cons]
      exact ⟨hfirst.whole.mono hkept.length_le, hwhole⟩

theorem body {body : Text} (h : PlainText body) (hslots : ∀ slot ∈ slots, slot.Cut) :
  CutText slots (cutBody defs body slots)
  := by
  obtain ⟨hkept, hformed, hwhole⟩ := @chunks defs _ _ (fun _ => plain_chunk h) hslots
  refine ⟨hkept, hformed, ?_⟩
  have hjoin : ∀ (n : Nat) (texts : List Text), (∀ text ∈ texts, Whole n text) →
      Whole n (joinedLines texts) := by
    intro n texts htexts
    induction texts with
    | nil => exact .ofPlain (fun c hc => nomatch hc)
    | cons text texts ih =>
        rw [List.forall_mem_cons] at htexts
        by_cases hne : texts = []
        · subst hne
          simpa [joinedLines] using htexts.1
        · rw [joinedLines_cons text hne, List.append_cons]
          apply (htexts.1.append (.ofPlain _)).append (ih htexts.2)
          rintro c hc
          rw [List.mem_singleton.mp hc]
          exact plain_newline
  exact hjoin _ _ hwhole

end CutText

/-- What is left of a source: slots that hold matches, and texts with whole placeholders. -/
structure CutSource.Formed (cut : CutSource) : Prop where
  slots : ∀ slot ∈ cut.slots, slot.Formed
  raws : ∀ slot ∈ cut.slots, ∃ n, Whole n slot.raw
  body : Whole cut.slots.length cut.body
  notes : ∀ note ∈ cut.notes, Whole cut.slots.length note.2

theorem cutNotes_spec {defs notes : List (Text × Text)} {slots : List Slot}
    (h : ∀ note ∈ notes, PlainText note.2) (hslots : ∀ slot ∈ slots, slot.Cut) :
  slots <+: (cutNotes defs notes slots).2 ∧
    (∀ slot ∈ (cutNotes defs notes slots).2, slot.Cut) ∧
    ∀ note ∈ (cutNotes defs notes slots).1, Whole (cutNotes defs notes slots).2.length note.2
  := by
  induction notes generalizing slots with
  | nil => exact ⟨List.prefix_rfl, hslots, fun note hnote => nomatch hnote⟩
  | cons note notes ih =>
      obtain ⟨id, text⟩ := note
      rw [List.forall_mem_cons] at h
      have hfirst : CutText slots (cutBody defs text slots) := CutText.body h.1 hslots
      obtain ⟨hkept, hformed, hwhole⟩ := ih h.2 hfirst.formed
      simp only [cutNotes]
      refine ⟨hfirst.kept.trans hkept, hformed, ?_⟩
      rw [List.forall_mem_cons]
      exact ⟨hfirst.whole.mono hkept.length_le, hwhole⟩

theorem cutSource_formed (source : Text) :
  (cutSource source).Formed
  := by
  obtain ⟨hbody, hdefs⟩ := plain_extractFootnoteDefs (plain_frontmatterBody source)
  have hcut := @CutText.body (extractFootnoteDefs
    (frontmatterBody (stripPlaceholders source))).2 [] _ hbody
    (fun slot hslot => nomatch hslot)
  obtain ⟨hkept, hformed, hwhole⟩ := @cutNotes_spec (extractFootnoteDefs
    (frontmatterBody (stripPlaceholders source))).2 _ _ hdefs hcut.formed
  exact ⟨fun slot hslot => (hformed slot hslot).1, fun slot hslot => (hformed slot hslot).2,
    hcut.whole.mono hkept.length_le, hwhole⟩

end AgentFs
