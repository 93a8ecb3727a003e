import Mathlib.Data.List.Perm.Subperm
import Mathlib.Data.List.Range
import AgentFs.Lib.Numbered
import AgentFs.Share.MarkdownRender

/-!
# Ids of headings and footnotes

The ids that a rendered document gives to headings, to references and to footnotes, and those of
the headings in the live viewer.  Headings of a shared document never share an id.  References to
a footnote and headings of the live viewer are numbered by their occurrences, and such a number
can also end the name of another footnote or heading.
-/

namespace AgentFs

/-! ### Slugs -/

theorem mem_dashRuns {p : Char → Bool} {text : Text} {c : Char} (h : c ∈ dashRuns p text) :
  (c ∈ text ∧ p c = false) ∨ c = '-'
  := by
  induction text with
  | nil => cases h
  | cons d text ih =>
      have hrest : c ∈ dashRuns p text → (c ∈ d :: text ∧ p c = false) ∨ c = '-' := by
        intro hmem
        exact (ih hmem).imp_left (fun ⟨hin, hp⟩ => ⟨List.mem_cons_of_mem d hin, hp⟩)
      unfold dashRuns at h
      split at h
      · split at h
        · exact hrest h
        · obtain rfl | hmem := List.mem_cons.mp h
          · exact .inr rfl
          · exact hrest hmem
      · rename_i hp
        obtain rfl | hmem := List.mem_cons.mp h
        · exact .inl ⟨List.mem_cons_self, Bool.eq_false_iff.mpr hp⟩
        · exact hrest hmem

theorem mem_of_mem_stripDashes {text : Text} {c : Char} (h : c ∈ stripDashes text) :
  c ∈ text
  := by
  have htail : c ∈ (if text.head? = some '-' then text.tail else text) → c ∈ text := by
    intro hmem
    split at hmem
    · exact List.mem_of_mem_tail hmem
    · exact hmem
  have hinit : ∀ stripped : Text,
      c ∈ (if stripped.getLast? = some '-' then stripped.dropLast else stripped) →
        c ∈ stripped := by
    intro stripped hmem
    split at hmem
    · exact (List.dropLast_sublist stripped).mem hmem
    · exact hmem
  exact htail (hinit _ h)

/-- The characters of a slug. -/
theorem mem_slugify {letters : Letters} {text : Text} {c : Char} (h : c ∈ slugify letters text) :
  letters.isLetterOrNumber c = true ∨ c = '-' ∨ c ∈ "section".toList
  := by
  unfold slugify at h
  dsimp only at h
  split at h
  · exact .inr (.inr h)
  · obtain ⟨hspaces, -⟩ | hdash :=
      mem_dashRuns (mem_of_mem_stripDashes (List.mem_of_mem_take h))
    · obtain ⟨hkept, hwhite⟩ | hdash := mem_dashRuns hspaces
      · have hclass := (List.mem_filter.mp hkept).2
        simp only [Bool.or_eq_true, hwhite, Bool.false_eq_true, or_false,
          decide_eq_true_eq] at hclass
        exact hclass.imp_right .inl
      · exact .inr (.inl hdash)
    · exact .inr (.inl hdash)

theorem not_mem_slugify {letters : Letters} {c : Char} (hc : c ∈ [':', phOpen, phClose])
    (text : Text) :
  c ∉ slugify letters text
  := by
  intro h
  have hother : ∀ c ∈ [':', phOpen, phClose], c ≠ '-' ∧ c ∉ "section".toList :=
    List.forall_mem_of_all (by decide)
  obtain hletter | hdash | hname := mem_slugify h
  · rw [letters.not_letter c hc] at hletter
    cases hletter
  · exact (hother c hc).1 hdash
  · exact (hother c hc).2 hname

theorem mem_numberedSlug {slug : Text} {i : Nat} {c : Char} (h : c ∈ numberedSlug slug i) :
  c ∈ slug ∨ c = '-' ∨ c.isDigit = true
  := by
  unfold numberedSlug at h
  split at h
  · exact .inl h
  · rw [List.mem_append, List.mem_cons] at h
    exact h.imp_right (fun h => h.imp_right isDigit_of_mem_decimal)

theorem numberedSlug_injective (slug : Text) :
  Function.Injective (numberedSlug slug)
  := by
  intro i j h
  unfold numberedSlug at h
  split at h
  · split at h
    · omega
    · have hlength := congrArg List.length h
      simp only [List.length_append, List.length_cons] at hlength
      omega
  · split at h
    · have hlength := congrArg List.length h
      simp only [List.length_append, List.length_cons] at hlength
      omega
    · exact (append_decimal_inj (by decide) h).2

/-- The loop ends at an unused number, or all that it tries are used. -/
theorem unusedIdFrom_spec (usedIds : List Text) (slug : Text) (fuel i : Nat) :
  (∃ j, unusedIdFrom usedIds slug fuel i = numberedSlug slug j) ∧
    (unusedIdFrom usedIds slug fuel i ∉ usedIds ∨
      ∀ k ≤ fuel, numberedSlug slug (i + k) ∈ usedIds)
  := by
  induction fuel generalizing i with
  | zero =>
      refine ⟨⟨i, rfl⟩, ?_⟩
      by_cases hused : numberedSlug slug i ∈ usedIds
      · right
        intro k hk
        rw [Nat.le_zero.mp hk]
        exact hused
      · exact .inl hused
  | succ fuel ih =>
      unfold unusedIdFrom
      split
      · rename_i hused
        obtain ⟨hvalue, hfree | hall⟩ := ih (i + 1)
        · exact ⟨hvalue, .inl hfree⟩
        · refine ⟨hvalue, .inr ?_⟩
          intro k hk
          cases k with
          | zero => exact hused
          | succ k =>
              have hk' := hall k (Nat.le_of_succ_le_succ hk)
              rwa [Nat.add_right_comm, Nat.add_assoc] at hk'
      · exact ⟨⟨i, rfl⟩, .inl ‹_›⟩

/-- There are more numbers to try than used ids. -/
theorem unusedId_not_mem (usedIds : List Text) (slug : Text) :
  unusedId usedIds slug ∉ usedIds
  := by
  obtain ⟨-, hfree | hall⟩ := unusedIdFrom_spec usedIds slug usedIds.length 0
  · exact hfree
  · have htried : ((List.range (usedIds.length + 1)).map (numberedSlug slug)).Nodup :=
      List.nodup_range.map (numberedSlug_injective slug)
    have hsubset : (List.range (usedIds.length + 1)).map (numberedSlug slug) ⊆ usedIds := by
      intro id hid
      obtain ⟨k, hk, rfl⟩ := List.mem_map.mp hid
      have hk' := hall k (Nat.le_of_lt_succ (List.mem_range.mp hk))
      rwa [Nat.zero_add] at hk'
    have hlength := (htried.subperm hsubset).length_le
    rw [List.length_map, List.length_range] at hlength
    omega

theorem not_mem_unusedId {letters : Letters} {c : Char} (hc : c ∈ [':', phOpen, phClose])
    (usedIds : List Text) (text : Text) :
  c ∉ unusedId usedIds (slugify letters text)
  := by
  obtain ⟨⟨j, hvalue⟩, -⟩ := unusedIdFrom_spec usedIds (slugify letters text) usedIds.length 0
  unfold unusedId
  rw [hvalue]
  intro h
  have hother : ∀ c ∈ [':', phOpen, phClose], c ≠ '-' ∧ c.isDigit = false :=
    List.forall_mem_of_all (by decide)
  obtain hslug | hdash | hdigit := mem_numberedSlug h
  · exact not_mem_slugify hc text hslug
  · exact (hother c hc).1 hdash
  · rw [(hother c hc).2] at hdigit
    cases hdigit

/-! ### Records of the renderer -/

/-- The state after a heading. -/
def RenderState.withHeading (st : RenderState) (entry : TocEntry) : RenderState :=
  { st with
    headings := st.headings ++ [entry]
    usedIds := st.usedIds ++ [entry.id]
    ids := st.ids ++ [entry.id]
    links := st.links ++ [entry.id] }

/-- What a callback does to the records. -/
theorem callback_state (letters : Letters) (slots : List Slot) (kind : MdKind) (children : Html)
    (st : RenderState) :
  (∃ features, (callback letters slots kind children st).2 = { st with features := features }) ∨
    ∃ level, (callback letters slots kind children st).2 =
      st.withHeading ⟨level, unusedId st.usedIds (slugify letters (headingText slots children)),
        headingText slots children⟩
  := by
  cases kind with
  | heading level => exact .inr ⟨_, rfl⟩
  | code language =>
      left
      simp only [callback, codeCallback]
      split
      · exact ⟨st.features, rfl⟩
      · split
        · exact ⟨_, rfl⟩
        · split
          · exact ⟨_, rfl⟩
          · exact ⟨_, rfl⟩
  | _ => exact .inl ⟨st.features, rfl⟩

/-- The state after a reference. -/
def RenderState.withRef (st : RenderState) (id : Text) : RenderState :=
  { st with
    fnOrder := addFootnote st.fnOrder id
    refs := st.refs ++ [id]
    ids := st.ids ++ [refId id (st.refs.count id)]
    links := st.links ++ [fnId id] }

theorem fillSlot_math (display : Bool) (tex raw : Text) (st : RenderState) :
  (fillSlot (.math display tex raw) st).2 = { st with features.math := true }
  := rfl

theorem fillSlot_fnref (id raw : Text) (st : RenderState) :
  (fillSlot (.fnref id raw) st).2 = st.withRef id
  := rfl

/-- The footnote that a piece of html refers to. -/
def pieceFootnote (slots : List Slot) : HtmlChar ⊕ Nat → Option Text
  | .inl _ => none
  | .inr i =>
      match slots[i]? with
      | some (.fnref id _) => some id
      | _ => none

/-- The footnotes that html refers to, in the order of the references. -/
def referencesIn (slots : List Slot) (html : Html) : List Text :=
  (placeholders html).filterMap (pieceFootnote slots)

theorem renderTree_refs (letters : Letters) (slots : List Slot) (tree : MdTree)
    (st : RenderState) :
  (renderTree letters slots tree st).2.refs = st.refs
  := by
  induction tree generalizing st with
  | nil => rfl
  | text run rest ih => exact ih st
  | node kind children rest ihchildren ihrest =>
      simp only [renderTree]
      rw [ihrest]
      obtain ⟨features, hstate⟩ | ⟨level, hstate⟩ := callback_state letters slots kind
        (renderTree letters slots children st).1 (renderTree letters slots children st).2
      · rw [hstate]
        exact ihchildren st
      · rw [hstate]
        exact ihchildren st

theorem fillPieces_refs (slots : List Slot) (pieces : List (HtmlChar ⊕ Nat)) (st : RenderState) :
  (fillPieces slots pieces st).2.refs = st.refs ++ pieces.filterMap (pieceFootnote slots)
  := by
  induction pieces generalizing st with
  | nil => exact (List.append_nil _).symm
  | cons piece pieces ih =>
      cases piece with
      | inl c => exact ih st
      | inr i =>
          simp only [fillPieces, ih, List.filterMap_cons, pieceFootnote]
          cases slots[i]? with
          | none => rfl
          | some slot =>
              cases slot with
              | math display tex raw => rfl
              | fnref id raw =>
                  simp only [Option.map_some, Option.getD_some, fillSlot_fnref,
                    RenderState.withRef, List.append_assoc, List.singleton_append]

theorem fill_refs (slots : List Slot) (html : Html) (st : RenderState) :
  (fill slots html st).2.refs = st.refs ++ referencesIn slots html
  := fillPieces_refs slots (placeholders html) st

theorem footnoteItem_refs (letters : Letters) (parse : Text → MdTree) (cut : CutSource)
    (id : Text) (st : RenderState) :
  (footnoteItem letters parse cut id st).2.refs =
    st.refs ++ referencesIn cut.slots (renderTree letters cut.slots (parse (cut.note id)) st).1
  := by
  simp only [footnoteItem, fill_refs, renderTree_refs]

/-- The state after the item of a footnote. -/
def RenderState.withNote (st : RenderState) (id : Text) : RenderState :=
  { st with
    ids := st.ids ++ [fnId id]
    links := st.links ++ [refId id 0] }

/-! ### The invariant -/

theorem refLabel_injective {id id' : Text} {m n : Nat}
    (h : (if m + 1 = 0 then id else id ++ '-' :: decimal (m + 1 + 1)) =
      (if n + 1 = 0 then id' else id' ++ '-' :: decimal (n + 1 + 1))) :
  id = id' ∧ m = n
  := by
  rw [if_neg m.succ_ne_zero, if_neg n.succ_ne_zero] at h
  obtain ⟨hid, hnumber⟩ := append_decimal_inj (by decide) h
  exact ⟨hid, by omega⟩

/-- References to a footnote are numbered from the second one on. -/
def refNumbering : NameNumbering Text where
  label id n := if n = 0 then id else id ++ '-' :: decimal (n + 1)
  label_zero _ := if_pos rfl
  label_injective := refLabel_injective

/-- The footnotes in the order of their first reference. -/
def firstReferences (refs : List Text) : List Text :=
  refs.foldl addFootnote []

theorem firstReferences_append (refs more : List Text) :
  firstReferences (refs ++ more) = more.foldl addFootnote (firstReferences refs)
  := List.foldl_append

theorem prefix_foldl_addFootnote (order refs : List Text) :
  order <+: refs.foldl addFootnote order
  := by
  induction refs generalizing order with
  | nil => exact List.prefix_rfl
  | cons id refs ih =>
      apply List.IsPrefix.trans _ (ih _)
      unfold addFootnote
      split
      · exact List.prefix_rfl
      · apply List.prefix_append

theorem mem_foldl_addFootnote {order refs : List Text} {id : Text} :
  id ∈ refs.foldl addFootnote order ↔ id ∈ order ∨ id ∈ refs
  := by
  induction refs generalizing order with
  | nil => simp
  | cons other refs ih =>
      rw [List.foldl_cons, ih, List.mem_cons]
      unfold addFootnote
      split
      · rename_i hold
        constructor
        · exact fun h => h.imp_right .inr
        · rintro (h | rfl | h)
          · exact .inl h
          · exact .inl hold
          · exact .inr h
      · rw [List.mem_append, List.mem_singleton, or_assoc]

theorem mem_firstReferences {refs : List Text} {id : Text} :
  id ∈ firstReferences refs ↔ id ∈ refs
  := by
  unfold firstReferences
  rw [mem_foldl_addFootnote]
  simp

theorem nodup_firstReferences (refs : List Text) :
  (firstReferences refs).Nodup
  := by
  have hfold : ∀ order : List Text, order.Nodup → (refs.foldl addFootnote order).Nodup := by
    induction refs with
    | nil => exact fun _ h => h
    | cons id refs ih =>
        intro order horder
        apply ih
        unfold addFootnote
        split
        · exact horder
        · rename_i hnew
          rw [List.nodup_append_comm]
          exact List.nodup_cons.mpr ⟨hnew, horder⟩
  exact hfold [] List.nodup_nil

/-- The footnotes that slots refer to. -/
def slotFootnotes (slots : List Slot) : List Text :=
  slots.filterMap (fun slot => match slot with
    | .math .. => none
    | .fnref id _ => some id)

/-- The ids of references. -/
def refIds (refs : List Text) : List Text :=
  (refNumbering.labels refs).map ("fnref:".toList ++ ·)

theorem refIds_concat (refs : List Text) (id : Text) :
  refIds (refs ++ [id]) = refIds refs ++ [refId id (refs.count id)]
  := by
  unfold refIds
  rw [NameNumbering.labels_concat, List.map_append]
  rfl

/-- What the records of a renderer that has written the items `notes` say about each other. -/
structure IdsInv (slots : List Slot) (notes : List Text) (st : RenderState) : Prop where
  ids : st.ids.Perm (st.usedIds ++ (notes.map fnId ++ refIds st.refs))
  headings : st.headings.map TocEntry.id = st.usedIds
  used : st.usedIds.Nodup
  colon : ∀ id ∈ st.usedIds, ':' ∉ id
  order : st.fnOrder = firstReferences st.refs
  slots : ∀ id ∈ st.refs, id ∈ slotFootnotes slots
  links : ∀ link ∈ st.links, link ∈ st.usedIds ∨ ∃ id ∈ st.refs, link = fnId id ∨ link = refId id 0

namespace IdsInv

variable {slots : List Slot} {notes : List Text} {i : Nat} {st : RenderState}

theorem start (slots : List Slot) :
  IdsInv slots [] .start
  where
  ids := List.Perm.refl []
  headings := rfl
  used := List.nodup_nil
  colon := by simp [RenderState.start]
  order := rfl
  slots := by simp [RenderState.start]
  links := by simp [RenderState.start]

theorem withFeatures (h : IdsInv slots notes st) (features : Features) :
  IdsInv slots notes { st with features := features }
  := ⟨h.ids, h.headings, h.used, h.colon, h.order, h.slots, h.links⟩

theorem withHeading (h : IdsInv slots notes st) (letters : Letters) (level : Nat) (text : Text) :
  IdsInv slots notes
    (st.withHeading ⟨level, unusedId st.usedIds (slugify letters text), text⟩)
  where
  ids := by
    simp only [RenderState.withHeading, List.append_assoc]
    have hids := h.ids.append_right [unusedId st.usedIds (slugify letters text)]
    rw [List.append_assoc] at hids
    exact hids.trans (List.perm_append_comm.append_left _)
  headings := by
    simp only [RenderState.withHeading, List.map_append, h.headings, List.map_cons, List.map_nil]
  used := by
    simp only [RenderState.withHeading]
    rw [List.nodup_append_comm]
    exact List.nodup_cons.mpr ⟨unusedId_not_mem _ _, h.used⟩
  colon := by
    intro id hid
    obtain hid | hid := List.mem_append.mp hid
    · exact h.colon id hid
    · rw [List.mem_singleton.mp hid]
      exact not_mem_unusedId (by decide) _ _
  order := h.order
  slots := h.slots
  links := by
    intro link hlink
    obtain hlink | hlink := List.mem_append.mp hlink
    · exact (h.links link hlink).imp_left (fun hused => List.mem_append_left _ hused)
    · exact .inl (List.mem_append_right _ hlink)

theorem withRef (h : IdsInv slots notes st) {id : Text} (hid : id ∈ slotFootnotes slots) :
  IdsInv slots notes (st.withRef id)
  where
  ids := by
    simp only [RenderState.withRef, refIds_concat]
    have hids := h.ids.append_right [refId id (st.refs.count id)]
    simpa only [List.append_assoc] using hids
  headings := h.headings
  used := h.used
  colon := h.colon
  order := by
    simp only [RenderState.withRef, firstReferences_append, List.foldl_cons, List.foldl_nil,
      h.order]
  slots := by
    intro other hother
    obtain hother | hother := List.mem_append.mp hother
    · exact h.slots other hother
    · rwa [List.mem_singleton.mp hother]
  links := by
    intro link hlink
    obtain hlink | hlink := List.mem_append.mp hlink
    · obtain hused | ⟨other, hother, hvalue⟩ := h.links link hlink
      · exact .inl hused
      · exact .inr ⟨other, List.mem_append_left _ hother, hvalue⟩
    · exact .inr ⟨id, List.mem_append_right _ List.mem_cons_self,
        .inl (List.mem_singleton.mp hlink)⟩

theorem withNote (h : IdsInv slots notes st) {id : Text} (hid : id ∈ st.refs) :
  IdsInv slots (notes ++ [id]) (st.withNote id)
  where
  ids := by
    simp only [RenderState.withNote, List.map_append, List.map_cons, List.map_nil]
    have hids := h.ids.append_right [fnId id]
    simp only [List.append_assoc] at hids ⊢
    exact hids.trans ((List.perm_append_comm.append_left _).append_left _)
  headings := h.headings
  used := h.used
  colon := h.colon
  order := h.order
  slots := h.slots
  links := by
    intro link hlink
    obtain hlink | hlink := List.mem_append.mp hlink
    · exact h.links link hlink
    · exact .inr ⟨id, hid, .inr (List.mem_singleton.mp hlink)⟩

theorem renderTree (h : IdsInv slots notes st) (letters : Letters) (tree : MdTree) :
  IdsInv slots notes (renderTree letters slots tree st).2
  := by
  induction tree generalizing st with
  | nil => exact h
  | text run rest ih => exact ih h
  | node kind children rest ihchildren ihrest =>
      simp only [AgentFs.renderTree]
      apply ihrest
      have hinner := ihchildren h
      obtain ⟨features, hstate⟩ | ⟨level, hstate⟩ := callback_state letters slots kind
        (AgentFs.renderTree letters slots children st).1
        (AgentFs.renderTree letters slots children st).2
      · rw [hstate]
        exact hinner.withFeatures features
      · rw [hstate]
        exact hinner.withHeading letters level _

theorem fillPieces (h : IdsInv slots notes st) (pieces : List (HtmlChar ⊕ Nat)) :
  IdsInv slots notes (fillPieces slots pieces st).2
  := by
  induction pieces generalizing st with
  | nil => exact h
  | cons piece pieces ih =>
      cases piece with
      | inl c => exact ih h
      | inr i =>
          apply ih
          cases hslot : slots[i]? with
          | none => exact h
          | some slot =>
              cases slot with
              | math display tex raw => exact h.withFeatures _
              | fnref id raw =>
                  apply h.withRef
                  exact List.mem_filterMap.mpr ⟨_, List.mem_of_getElem? hslot, rfl⟩

theorem footnoteItem (h : IdsInv slots notes st) (letters : Letters) (parse : Text → MdTree)
    {cut : CutSource} (hcut : cut.slots = slots) {id : Text} (hid : id ∈ st.refs) :
  IdsInv slots (notes ++ [id]) (footnoteItem letters parse cut id st).2
  := by
  subst hcut
  have hrendered := h.renderTree letters (parse (cut.note id))
  have hfilled := hrendered.fillPieces
    (placeholders (AgentFs.renderTree letters cut.slots (parse (cut.note id)) st).1)
  apply hfilled.withNote
  rw [fillPieces_refs, renderTree_refs]
  exact List.mem_append_left _ hid

theorem mem_order_iff (h : IdsInv slots notes st) {id : Text} :
  id ∈ st.fnOrder ↔ id ∈ st.refs
  := by rw [h.order, mem_firstReferences]

/-- Every footnote in the order has a slot. -/
theorem length_order_le (h : IdsInv slots notes st) :
  st.fnOrder.length ≤ slots.length
  := by
  have hnodup : st.fnOrder.Nodup := by
    rw [h.order]
    apply nodup_firstReferences
  have hsubset : st.fnOrder ⊆ slotFootnotes slots := by
    intro id hid
    exact h.slots id (h.mem_order_iff.mp hid)
  apply (hnodup.subperm hsubset).length_le.trans
  apply List.length_filterMap_le

/-- The item of the next footnote; the order only grows. -/
theorem footnoteItem_take (h : IdsInv slots (st.fnOrder.take i) st) (letters : Letters)
    (parse : Text → MdTree) {cut : CutSource} (hcut : cut.slots = slots) {id : Text}
    (hid : st.fnOrder[i]? = some id) :
  IdsInv slots ((AgentFs.footnoteItem letters parse cut id st).2.fnOrder.take (i + 1))
    (AgentFs.footnoteItem letters parse cut id st).2
  := by
  have hitem := h.footnoteItem letters parse hcut (h.mem_order_iff.mp (List.mem_of_getElem? hid))
  obtain ⟨later, hlater⟩ : st.fnOrder <+: (AgentFs.footnoteItem letters parse cut id st).2.fnOrder
      := by
    rw [hitem.order, h.order, footnoteItem_refs, firstReferences_append]
    apply prefix_foldl_addFootnote
  have hi := (List.getElem?_eq_some_iff.mp hid).1
  rw [← hlater, List.take_append_of_le_length hi, List.take_add_one, hid]
  exact hitem

/-- The loop ends when all footnotes in the order have their item. -/
theorem footnoteItems (h : IdsInv slots (st.fnOrder.take i) st) (letters : Letters)
    (parse : Text → MdTree) {cut : CutSource} (hcut : cut.slots = slots) {fuel : Nat}
    (hfuel : slots.length ≤ fuel + i) :
  IdsInv slots (footnoteItems letters parse cut fuel i st).2.fnOrder
    (footnoteItems letters parse cut fuel i st).2
  := by
  induction fuel generalizing i st with
  | zero =>
      have hdone := h.length_order_le.trans hfuel
      rw [Nat.zero_add] at hdone
      rwa [List.take_of_length_le hdone] at h
  | succ fuel ih =>
      unfold AgentFs.footnoteItems
      split
      · rename_i hnone
        rwa [List.take_of_length_le (List.getElem?_eq_none_iff.mp hnone)] at h
      · rename_i id hsome
        apply ih (h.footnoteItem_take letters parse hcut hsome)
        omega

end IdsInv

/-! ### The references of a document -/

/-- The references in the footnotes from the `i`-th on, after those before; a footnote is read
when it is referenced for the first time. -/
def citationsFrom (letters : Letters) (parse : Text → MdTree) (cut : CutSource) :
    Nat → Nat → List Text → RenderState → List Text
  | 0, _, refs, _ => refs
  | fuel + 1, i, refs, st =>
      match (firstReferences refs)[i]? with
      | none => refs
      | some id =>
          let rendered := renderTree letters cut.slots (parse (cut.note id)) st
          citationsFrom letters parse cut fuel (i + 1)
            (refs ++ referencesIn cut.slots rendered.1) rendered.2

/-- The footnotes that a source refers to in its body and in the footnotes that it shows, in the
order of the references. -/
def citations (letters : Letters) (parse : Text → MdTree) (source : Text) : List Text :=
  let cut := cutSource source
  let rendered := renderTree letters cut.slots (parse cut.body) .start
  citationsFrom letters parse cut cut.slots.length 0 (referencesIn cut.slots rendered.1) rendered.2

/-- A callback reads nothing of the state but the used ids. -/
theorem callback_congr (letters : Letters) (slots : List Slot) (kind : MdKind) (children : Html)
    {st st' : RenderState} (h : st.usedIds = st'.usedIds) :
  (callback letters slots kind children st).1 = (callback letters slots kind children st').1 ∧
    (callback letters slots kind children st).2.usedIds =
      (callback letters slots kind children st').2.usedIds
  := by
  cases kind with
  | heading level =>
      simp only [callback, headingCallback, h]
      exact ⟨trivial, trivial⟩
  | code language =>
      simp only [callback, codeCallback]
      cases codeLanguage language with
      | none => exact ⟨rfl, h⟩
      | some lang =>
          by_cases hmermaid : lang = "mermaid".toList
          · simp only [if_pos hmermaid]
            exact ⟨trivial, h⟩
          · by_cases hmath : lang = "math".toList
            · simp only [if_neg hmermaid, if_pos hmath]
              exact ⟨trivial, h⟩
            · simp only [if_neg hmermaid, if_neg hmath]
              exact ⟨trivial, h⟩
  | _ => exact ⟨rfl, h⟩

theorem renderTree_congr (letters : Letters) (slots : List Slot) (tree : MdTree)
    {st st' : RenderState} (h : st.usedIds = st'.usedIds) :
  (renderTree letters slots tree st).1 = (renderTree letters slots tree st').1 ∧
    (renderTree letters slots tree st).2.usedIds = (renderTree letters slots tree st').2.usedIds
  := by
  induction tree generalizing st st' with
  | nil => exact ⟨rfl, h⟩
  | text run rest ih =>
      simp only [renderTree, (ih h).1]
      exact ⟨trivial, (ih h).2⟩
  | node kind children rest ihchildren ihrest =>
      obtain ⟨hinner, hused⟩ := ihchildren h
      obtain ⟨hout, hused⟩ := callback_congr letters slots kind
        (renderTree letters slots children st).1 hused
      obtain ⟨hafter, hused⟩ := ihrest hused
      simp only [renderTree]
      rw [hinner] at hout hafter hused
      rw [hinner, hout, hafter]
      exact ⟨rfl, hused⟩

theorem fillPieces_usedIds (slots : List Slot) (pieces : List (HtmlChar ⊕ Nat))
    (st : RenderState) :
  (fillPieces slots pieces st).2.usedIds = st.usedIds
  := by
  induction pieces generalizing st with
  | nil => rfl
  | cons piece pieces ih =>
      cases piece with
      | inl c => exact ih st
      | inr i =>
          simp only [fillPieces, ih]
          cases slots[i]? with
          | none => rfl
          | some slot => cases slot <;> rfl

/-- The references that the loop fills are those of the document. -/
theorem footnoteItems_refs {slots : List Slot} {notes : List Text} {st st' : RenderState}
    (h : IdsInv slots notes st) (hused : st.usedIds = st'.usedIds) (letters : Letters)
    (parse : Text → MdTree) {cut : CutSource} (hcut : cut.slots = slots) (fuel i : Nat) :
  (footnoteItems letters parse cut fuel i st).2.refs =
    citationsFrom letters parse cut fuel i st.refs st'
  := by
  induction fuel generalizing i notes st st' with
  | zero => rfl
  | succ fuel ih =>
      unfold footnoteItems citationsFrom
      rw [h.order]
      cases hsome : (firstReferences st.refs)[i]? with
      | none => rfl
      | some id =>
          have hid := mem_firstReferences.mp (List.mem_of_getElem? hsome)
          obtain ⟨hhtml, hused'⟩ :=
            renderTree_congr letters cut.slots (parse (cut.note id)) hused
          have hitem : (footnoteItem letters parse cut id st).2.usedIds =
              (renderTree letters cut.slots (parse (cut.note id)) st').2.usedIds := by
            simp only [footnoteItem, fill, fillPieces_usedIds, hused']
          dsimp only
          rw [ih (h.footnoteItem letters parse hcut hid) hitem, footnoteItem_refs, hhtml]

/-- The records of the renderer at the end. -/
theorem renderMarkdownDocument_inv (letters : Letters) (parse : Text → MdTree) (source : Text) :
  IdsInv (cutSource source).slots (renderMarkdownDocument letters parse source).final.fnOrder
    (renderMarkdownDocument letters parse source).final
  := by
  have hbody := ((IdsInv.start (cutSource source).slots).renderTree letters
    (parse (cutSource source).body)).fillPieces (placeholders (renderTree letters
      (cutSource source).slots (parse (cutSource source).body) .start).1)
  apply IdsInv.footnoteItems hbody letters parse rfl
  omega

theorem renderMarkdownDocument_refs (letters : Letters) (parse : Text → MdTree) (source : Text) :
  (renderMarkdownDocument letters parse source).final.refs = citations letters parse source
  := by
  have hbody := ((IdsInv.start (cutSource source).slots).renderTree letters
    (parse (cutSource source).body)).fillPieces (placeholders (renderTree letters
      (cutSource source).slots (parse (cutSource source).body) .start).1)
  apply (footnoteItems_refs hbody (fillPieces_usedIds _ _ _) letters parse rfl _ _).trans
  rw [fillPieces_refs, renderTree_refs]
  rfl

/-! ### The ids of a shared document -/

/-- No two ids of a document are the same, and every entry of the table of contents and every
link of the renderer points to one of them. -/
structure IdsLinked (doc : MarkdownDocument) : Prop where
  distinct : doc.final.ids.Nodup
  toc : ∀ entry ∈ doc.toc, entry.id ∈ doc.final.ids
  links : ∀ link ∈ doc.final.links, link ∈ doc.final.ids

/-- No footnote is named as a later reference to another is numbered. -/
def RefsApart (refs : List Text) : Prop :=
  ∀ id ∈ refs, ∀ n, 2 ≤ n → n ≤ refs.count id → id ++ '-' :: decimal n ∉ refs

theorem refsApart_iff (refs : List Text) :
  RefsApart refs ↔ refNumbering.NoClash refs
  := by
  have hlabel : ∀ (id : Text) (n : Nat), refNumbering.label id (n + 1) =
      id ++ '-' :: decimal (n + 2) := fun _ _ => rfl
  constructor
  · intro h id hid n hn hpos
    obtain ⟨n, rfl⟩ := Nat.exists_eq_add_of_le' hpos
    rw [hlabel]
    exact h id hid (n + 2) (by omega) hn
  · intro h id hid n htwo hn
    obtain ⟨n, rfl⟩ := Nat.exists_eq_add_of_le' htwo
    have hfree := h id hid (n + 1) hn n.succ_pos
    rwa [hlabel] at hfree

theorem mem_tocEntries {headings : List TocEntry} {entry : TocEntry}
    (h : entry ∈ tocEntries headings) :
  entry ∈ headings
  := by
  unfold tocEntries at h
  dsimp only at h
  split at h
  · cases h
  · have hmem := (List.mem_filter.mp h).1
    split at hmem
    · exact (List.mem_filter.mp hmem).1
    · exact hmem

namespace IdsInv

variable {slots : List Slot} {st : RenderState}

/-- An id starts as only one kind of id does. -/
theorem nodup_ids_iff (h : IdsInv slots st.fnOrder st) :
  st.ids.Nodup ↔ RefsApart st.refs
  := by
  have hfn : (st.fnOrder.map fnId).Nodup := by
    rw [h.order]
    exact (nodup_firstReferences st.refs).map (List.append_right_injective _)
  have hfnref : (st.fnOrder.map fnId).Disjoint (refIds st.refs) := by
    intro x hx hy
    obtain ⟨id, -, rfl⟩ := List.mem_map.mp hx
    obtain ⟨id', -, hsame⟩ := List.mem_map.mp hy
    simp [fnId] at hsame
  have hheading : st.usedIds.Disjoint (st.fnOrder.map fnId ++ refIds st.refs) := by
    intro x hx hy
    apply h.colon x hx
    obtain hy | hy := List.mem_append.mp hy
    · obtain ⟨id, -, rfl⟩ := List.mem_map.mp hy
      exact List.mem_append_left id (by decide)
    · obtain ⟨id, -, rfl⟩ := List.mem_map.mp hy
      exact List.mem_append_left id (by decide)
  rw [h.ids.nodup_iff, List.nodup_append', List.nodup_append', refsApart_iff,
    ← NameNumbering.nodup_labels_iff]
  constructor
  · intro hnodup
    exact List.Nodup.of_map _ hnodup.2.1.2.1
  · intro hnodup
    exact ⟨h.used, ⟨hfn, hnodup.map (List.append_right_injective _), hfnref⟩, hheading⟩

theorem linked (h : IdsInv slots st.fnOrder st) :
  ∀ link ∈ st.links, link ∈ st.ids
  := by
  intro link hlink
  rw [h.ids.mem_iff, List.mem_append, List.mem_append]
  obtain hused | ⟨id, hid, rfl | rfl⟩ := h.links link hlink
  · exact .inl hused
  · exact .inr (.inl (List.mem_map_of_mem (h.mem_order_iff.mpr hid)))
  · exact .inr (.inr (List.mem_map_of_mem (refNumbering.mem_labels_of_mem hid)))

end IdsInv

theorem renderCut_toc (letters : Letters) (parse : Text → MdTree) (cut : CutSource) :
  (renderCut letters parse cut).toc = tocEntries (renderCut letters parse cut).final.headings
  := by simp only [renderCut, withFootnotes]

theorem ids_linked_iff (letters : Letters) (parse : Text → MdTree) (source : Text) :
  IdsLinked (renderMarkdownDocument letters parse source) ↔
    RefsApart (citations letters parse source)
  := by
  have h := renderMarkdownDocument_inv letters parse source
  rw [← renderMarkdownDocument_refs, ← h.nodup_ids_iff]
  constructor
  · exact IdsLinked.distinct
  · intro hnodup
    constructor
    · exact hnodup
    · intro entry hentry
      unfold renderMarkdownDocument at hentry
      rw [renderCut_toc] at hentry
      rw [h.ids.mem_iff, List.mem_append, ← h.headings]
      exact .inl (List.mem_map_of_mem (mem_tocEntries hentry))
    · exact h.linked

end AgentFs
