import Mathlib.Data.List.Infix

/-!
# LIKE patterns

The comparison `LIKE` of SQLite, without an escape character: `%` stands for any characters, `_`
for one, and the case of ASCII letters is ignored.
-/

namespace Like

/-- The text matches the pattern. -/
def like : (pattern text : List Char) → Bool
  | [], text => text.isEmpty
  | x :: pattern, text =>
      if x = '%' then text.tails.any (like pattern)
      else
        match text with
        | [] => false
        | c :: text => (x = '_' || x.toLower = c.toLower) && like pattern text

/-- The pattern of the texts with a prefix. -/
def startsLike (start text : List Char) : Bool :=
  like (start ++ ['%']) text

/-- A character that a pattern matches only with itself. -/
def IsPlain (c : Char) : Prop :=
  c ≠ '%' ∧ c ≠ '_' ∧ c.isAlpha = false

instance (c : Char) : Decidable (IsPlain c) :=
  inferInstanceAs (Decidable (_ ∧ _))

theorem like_percent (pattern text : List Char) :
  like ('%' :: pattern) text = text.tails.any (like pattern)
  := rfl

theorem startsLike_nil (text : List Char) :
  startsLike [] text = true
  := by
  unfold startsLike
  rw [List.nil_append, like_percent, List.any_eq_true]
  exact ⟨[], (List.mem_tails _ _).mpr (List.nil_suffix), rfl⟩

/-- A `%` may stand for any characters. -/
theorem startsLike_percent {start text : List Char} :
  startsLike ('%' :: start) text = true ↔ ∃ rest, rest <:+ text ∧ startsLike start rest = true
  := by
  unfold startsLike
  rw [List.cons_append, like_percent, List.any_eq_true]
  simp only [List.mem_tails]

theorem startsLike_cons_nil {x : Char} (hx : x ≠ '%') {start : List Char} :
  startsLike (x :: start) [] = false
  := by
  unfold startsLike
  rw [List.cons_append, like, if_neg hx]

theorem startsLike_cons_cons {x c : Char} (hx : x ≠ '%') {start text : List Char} :
  startsLike (x :: start) (c :: text) = true ↔
    (x = '_' ∨ x.toLower = c.toLower) ∧ startsLike start text = true
  := by
  unfold startsLike
  rw [List.cons_append, like, if_neg hx, Bool.and_eq_true, Bool.or_eq_true, decide_eq_true_iff,
    decide_eq_true_iff]

/-- A text matches the pattern of a prefix that it has. -/
theorem startsLike_append (start rest : List Char) :
  startsLike start (start ++ rest) = true
  := by
  induction start with
  | nil => exact startsLike_nil rest
  | cons x start ih =>
      by_cases hx : x = '%'
      · subst hx
        rw [startsLike_percent]
        exact ⟨start ++ rest, List.suffix_cons '%' _, ih⟩
      · rw [List.cons_append, startsLike_cons_cons hx]
        exact ⟨Or.inr rfl, ih⟩

/-! ### Plain prefixes -/

theorem toLower_of_not_isAlpha {c : Char} (h : c.isAlpha = false) :
  c.toLower = c
  := by
  have hupper : c.isUpper = false := (Bool.or_eq_false_iff.mp h).1
  exact dif_neg (of_decide_eq_false hupper)

theorem toNat_lt_of_isAlpha {c : Char} (h : c.isAlpha = true) :
  c.toNat < 128
  := by
  obtain hupper | hlower := (Bool.or_eq_true _ _).mp h
  · have hle := (of_decide_eq_true hupper).2
    exact Nat.lt_of_le_of_lt (UInt32.le_iff_toNat_le.mp hle) (by decide)
  · have hle := of_decide_eq_true ((Bool.and_eq_true _ _).mp hlower).2
    exact Nat.lt_of_le_of_lt (UInt32.le_iff_toNat_le.mp hle) (by decide)

theorem isAlpha_toLower (c : Char) :
  c.toLower.isAlpha = c.isAlpha
  := by
  have hall : ∀ k : Fin 128, (Char.ofNat k).toLower.isAlpha = (Char.ofNat k).isAlpha := by
    decide +kernel
  cases h : c.isAlpha with
  | true =>
      have hc := hall ⟨c.toNat, toNat_lt_of_isAlpha h⟩
      rwa [Char.ofNat_toNat, h] at hc
  | false => rwa [toLower_of_not_isAlpha h]

/-- A plain character has no other case. -/
theorem IsPlain.eq_of_toLower {x c : Char} (hx : IsPlain x) (h : x.toLower = c.toLower) :
  x = c
  := by
  obtain ⟨-, -, halpha⟩ := hx
  have hc : c.isAlpha = false := by
    rw [← isAlpha_toLower, ← h, isAlpha_toLower]
    exact halpha
  rw [← toLower_of_not_isAlpha halpha, h, toLower_of_not_isAlpha hc]

/-- A letter in its other case. -/
def otherCase (c : Char) : Char :=
  if c.isUpper then Char.ofNat (c.toNat + 32) else Char.ofNat (c.toNat - 32)

theorem otherCase_spec {c : Char} (h : c.isAlpha = true) :
  otherCase c ≠ c ∧ otherCase c ≠ '/' ∧ c.toLower = (otherCase c).toLower
  := by
  have hall : ∀ k : Fin 128, (Char.ofNat k).isAlpha = true →
      otherCase (Char.ofNat k) ≠ Char.ofNat k ∧ otherCase (Char.ofNat k) ≠ '/' ∧
        (Char.ofNat k).toLower = (otherCase (Char.ofNat k)).toLower := by
    decide +kernel
  have hc := hall ⟨c.toNat, toNat_lt_of_isAlpha h⟩
  rw [Char.ofNat_toNat] at hc
  exact hc h

/-- A plain prefix matches only the texts that have it. -/
theorem startsLike_iff_start {start text : List Char} (h : ∀ c ∈ start, IsPlain c) :
  startsLike start text = true ↔ start <+: text
  := by
  constructor
  · intro hlike
    induction start generalizing text with
    | nil => exact List.nil_prefix
    | cons x start ih =>
        obtain ⟨hpercent, hunderscore, -⟩ := h x List.mem_cons_self
        cases text with
        | nil =>
            rw [startsLike_cons_nil hpercent] at hlike
            cases hlike
        | cons c text =>
            obtain ⟨hchar, hrest⟩ := (startsLike_cons_cons hpercent).mp hlike
            have hsame := (h x List.mem_cons_self).eq_of_toLower (hchar.resolve_left hunderscore)
            rw [hsame, List.prefix_cons_inj]
            exact ih (fun y hy => h y (List.mem_cons_of_mem x hy)) hrest
  · rintro ⟨rest, rfl⟩
    exact startsLike_append start rest

/-- A character that a pattern matches with another one, which is no `/`. -/
theorem exists_other {x : Char} (h : ¬ IsPlain x) :
  ∃ c, c ≠ x ∧ c ≠ '/' ∧ ∀ start rest, startsLike start rest = true →
    startsLike (x :: start) (c :: rest) = true
  := by
  by_cases hpercent : x = '%'
  · subst hpercent
    refine ⟨'a', by decide, by decide, ?_⟩
    intro start rest hlike
    rw [startsLike_percent]
    exact ⟨rest, List.suffix_cons 'a' rest, hlike⟩
  by_cases hunderscore : x = '_'
  · refine ⟨'a', by rw [hunderscore]; decide, by decide, ?_⟩
    intro start rest hlike
    rw [startsLike_cons_cons hpercent]
    exact ⟨Or.inl hunderscore, hlike⟩
  · have halpha : x.isAlpha = true := by
      by_contra hx
      exact h ⟨hpercent, hunderscore, by simpa using hx⟩
    obtain ⟨hne, hslash, hlower⟩ := otherCase_spec halpha
    refine ⟨otherCase x, hne, hslash, ?_⟩
    intro start rest hlike
    rw [startsLike_cons_cons hpercent]
    exact ⟨Or.inr hlower, hlike⟩

/-- A prefix that is not plain matches a text that does not have it: the prefix with another
character. -/
theorem exists_stray {start : List Char} (h : ¬ ∀ c ∈ start, IsPlain c) :
  ∃ before x c after, start = before ++ x :: after ∧ ¬ IsPlain x ∧ c ≠ '/' ∧
    ∀ rest, startsLike start (before ++ c :: (after ++ rest)) = true ∧
      ¬ start <+: before ++ c :: (after ++ rest)
  := by
  induction start with
  | nil => exact absurd nofun h
  | cons y start ih =>
      by_cases hy : IsPlain y
      · have hstart : ¬ ∀ c ∈ start, IsPlain c := by
          intro hall
          apply h
          rw [List.forall_mem_cons]
          exact ⟨hy, hall⟩
        obtain ⟨before, x, c, after, rfl, hx, hc, hstray⟩ := ih hstart
        refine ⟨y :: before, x, c, after, rfl, hx, hc, ?_⟩
        intro rest
        obtain ⟨hlike, hprefix⟩ := hstray rest
        constructor
        · rw [List.cons_append, startsLike_cons_cons hy.1]
          exact ⟨Or.inr rfl, hlike⟩
        · rw [List.cons_append, List.prefix_cons_inj]
          exact hprefix
      · obtain ⟨c, hne, hslash, hother⟩ := exists_other hy
        refine ⟨[], y, c, start, rfl, hy, hslash, ?_⟩
        intro rest
        constructor
        · exact hother start _ (startsLike_append start rest)
        · intro hprefix
          exact hne (List.cons_prefix_cons.mp hprefix).1.symm

end Like
