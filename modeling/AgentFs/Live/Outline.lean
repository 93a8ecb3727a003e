import AgentFs.Lib.OrderedMap
import AgentFs.Share.MarkdownIds

/-!
# Ids of headings in the live viewer

`slugify` of `outline.ts` and the ids that `MarkdownViewer.tsx` gives to the headings of a rendered
document, and when the ids of both renderers are unique.
-/

namespace AgentFs

/-! ### The outline -/

/-- `slugify` of the live viewer. -/
def outlineSlug (letters : Letters) (text : Text) : Text :=
  let kept := (trim (letters.toLowerCase text)).filter (fun c =>
    isWord c || IsWhiteSpace c || c = '-')
  let dashed := dashRuns (· = '-') (dashRuns (fun c => IsWhiteSpace c) kept)
  ((dashed.dropWhile (· = '-')).reverse.dropWhile (· = '-')).reverse

/-- The slug that the id of a heading starts with. -/
def outlineName (letters : Letters) (text : Text) : Text :=
  if outlineSlug letters text = [] then "section".toList else outlineSlug letters text

/-- The ids of headings; `seen` counts the headings of each slug. -/
def outlineIdsFrom (letters : Letters) (seen : OrderedMap Text Nat) : List Text → List Text
  | [] => []
  | content :: contents =>
      let text := trim content
      if text = [] then outlineIdsFrom letters seen contents
      else
        let id := outlineName letters text
        let n := (seen.get id).getD 0
        numberedSlug id n :: outlineIdsFrom letters (seen.set id (n + 1)) contents

/-- The ids of the headings of a document, from their text contents. -/
def outlineIds (letters : Letters) (contents : List Text) : List Text :=
  outlineIdsFrom letters .empty contents

/-! ### When they differ -/

/-- Headings of a slug are numbered from the second one on. -/
def outlineNumbering : NameNumbering Text where
  label := numberedSlug
  label_zero _ := if_pos rfl
  label_injective := by
    intro a b m n h
    unfold numberedSlug at h
    rw [if_neg m.succ_ne_zero, if_neg n.succ_ne_zero] at h
    obtain ⟨hname, hnumber⟩ := append_decimal_inj (by decide) h
    exact ⟨hname, Nat.add_right_cancel hnumber⟩

/-- The slugs of the headings that have a text. -/
def outlineNames (letters : Letters) (contents : List Text) : List Text :=
  ((contents.map trim).filter (· ≠ [])).map (outlineName letters)

/-- The map of the loop counts the slugs that it has seen. -/
theorem outlineIdsFrom_eq_labels (letters : Letters) (counts : OrderedMap Text Nat)
    (seen contents : List Text) (hcounts : ∀ name, (counts.get name).getD 0 = seen.count name) :
  outlineIdsFrom letters counts contents =
    outlineNumbering.labelsFrom seen (outlineNames letters contents)
  := by
  induction contents generalizing counts seen with
  | nil => rfl
  | cons content contents ih =>
      simp only [outlineIdsFrom]
      by_cases hblank : trim content = []
      · rw [if_pos hblank, ih counts seen hcounts]
        simp only [outlineNames, List.map_cons, hblank, ne_eq, not_true_eq_false, decide_false,
          Bool.false_eq_true, not_false_eq_true, List.filter_cons_of_neg]
      · have hnames : outlineNames letters (content :: contents) =
            outlineName letters (trim content) :: outlineNames letters contents := by
          simp only [outlineNames, List.map_cons, ne_eq, hblank, not_false_eq_true, decide_true,
            List.filter_cons_of_pos]
        rw [if_neg hblank, hnames]
        simp only [NameNumbering.labelsFrom, hcounts]
        congr 1
        apply ih
        intro name
        rw [OrderedMap.get_set, List.count_cons]
        by_cases hname : name = outlineName letters (trim content)
        · simp [hname]
        · simp [hname, Ne.symm hname, hcounts name]

/-- No heading has the slug that a later heading of another slug is numbered with. -/
def SlugsApart (names : List Text) : Prop :=
  ∀ name ∈ names, ∀ n, 1 ≤ n → n < names.count name → name ++ '-' :: decimal n ∉ names

theorem nodup_outlineIds_iff (letters : Letters) (contents : List Text) :
  (outlineIds letters contents).Nodup ↔ SlugsApart (outlineNames letters contents)
  := by
  have hlabels : outlineIds letters contents =
      outlineNumbering.labels (outlineNames letters contents) := by
    apply outlineIdsFrom_eq_labels
    intro name
    rw [OrderedMap.get_empty, Option.getD_none, List.count_nil]
  have hlabel : ∀ (name : Text) (n : Nat), 1 ≤ n →
      outlineNumbering.label name n = name ++ '-' :: decimal n := by
    intro name n hn
    exact if_neg (Nat.ne_of_gt hn)
  rw [hlabels, outlineNumbering.nodup_labels_iff]
  constructor
  · intro h name hname n hpos hn
    rw [← hlabel name n hpos]
    exact h name hname n hn hpos
  · intro h name hname n hn hpos
    rw [hlabel name n hpos]
    exact h name hname n hpos hn

/-! ### Ids of both renderers -/

end AgentFs
