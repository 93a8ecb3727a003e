import Mathlib.Data.List.Sort
import Mathlib.Logic.Relation
import AgentFs.Lib.Table

/-!
# Paging by a key

Rows are listed from the greatest key down, a page at a time.  The cursor of a page is the key
of its last row, and the next page goes on below it.  One row more than the page is fetched,
which tells whether there is another.  Rows that are inserted above the cursor between two
pages do not disturb the reading.
-/

namespace Keyset

open Tabular

variable {α β : Type} [LinearOrder β] (key : α → β)

/-! ### The order -/

/-- The rows from the greatest key down. -/
def sortDown (rows : List α) : List α :=
  rows.insertionSort (fun r s => key s ≤ key r)

instance total_rowLe : Std.Total (fun r s : α => key s ≤ key r) :=
  ⟨fun r s => le_total (key s) (key r)⟩

instance trans_rowLe : IsTrans α (fun r s : α => key s ≤ key r) :=
  ⟨fun _ _ _ h h' => le_trans h' h⟩

/-- Every row is above those after it. -/
def Descending (rows : List α) : Prop :=
  rows.Pairwise (fun r s => key s < key r)

variable {key}

theorem sortDown_perm (rows : List α) :
  (sortDown key rows).Perm rows
  := List.perm_insertionSort _ rows

theorem sortDown_descending {rows : List α} (h : Keyed key rows) :
  Descending key (sortDown key rows)
  := by
  have hkeys : (sortDown key rows).Pairwise (fun r s => key r ≠ key s) := by
    rw [← List.pairwise_map]
    exact ((sortDown_perm rows).map key).nodup_iff.mpr h
  apply ((List.pairwise_insertionSort _ rows).and hkeys).imp
  rintro r s ⟨hle, hne⟩
  exact lt_of_le_of_ne hle hne.symm

/-- There is one descending list of the rows. -/
theorem Descending.eq_of_perm {rows others : List α} (h : Descending key rows)
    (h' : Descending key others) (hperm : rows.Perm others) :
  rows = others
  := by
  apply hperm.eq_of_pairwise _ h h'
  intro r s _ _ hrs hsr
  exact absurd hrs (lt_asymm hsr)

theorem Descending.sortDown_eq {rows sorted : List α} (h : Descending key sorted)
    (hperm : sorted.Perm rows) :
  sortDown key rows = sorted
  := by
  have hkeyed : Keyed key rows := by
    unfold Keyed
    rw [← (hperm.map key).nodup_iff]
    unfold List.Nodup
    rw [List.pairwise_map]
    apply h.imp
    exact fun hlt => ne_of_gt hlt
  exact (sortDown_descending hkeyed).eq_of_perm h ((sortDown_perm rows).trans hperm.symm)

/-- The rows below the last row of the first part of a descending list are those of the rest. -/
theorem Descending.filter_append {front rest : List α} (h : Descending key (front ++ rest))
    {last : α} (hlast : front.getLast? = some last) :
  (front ++ rest).filter (fun r => key r < key last) = rest
  := by
  unfold Descending at h
  rw [List.pairwise_append] at h
  obtain ⟨hfront, -, hcross⟩ := h
  obtain ⟨init, rfl⟩ := List.getLast?_eq_some_iff.mp hlast
  rw [List.pairwise_append] at hfront
  rw [List.filter_append, List.filter_eq_nil_iff.mpr, List.filter_eq_self.mpr, List.nil_append]
  · intro r hr
    rw [decide_eq_true_eq]
    apply hcross last _ r hr
    simp
  · intro r hr
    rw [decide_eq_true_eq, not_lt]
    rcases List.mem_append.mp hr with hinit | hlast
    · exact le_of_lt (hfront.2.2 r hinit last (List.mem_singleton_self last))
    · rw [List.mem_singleton.mp hlast]

/-! ### Pages -/

variable (key)

/-- The rows below a cursor, if there is one. -/
def below (after : Option β) (rows : List α) : List α :=
  rows.filter (fun r => ∀ c ∈ after, key r < c)

/-- A page of at most `limit` rows below the cursor, and the cursor of the next page. -/
def page (limit : Nat) (after : Option β) (rows : List α) : List α × Option β :=
  let fetched := (sortDown key (below key after rows)).take (limit + 1)
  let page := fetched.take limit
  (page, if limit < fetched.length then page.getLast?.map key else none)

variable {key}

/-- The last page. -/
theorem page_of_le {limit : Nat} {after : Option β} {rows rest : List α}
    (hrest : sortDown key (below key after rows) = rest) (h : rest.length ≤ limit) :
  page key limit after rows = (rest, none)
  := by
  unfold page
  dsimp only
  rw [hrest, List.take_of_length_le (Nat.le_succ_of_le h), List.take_of_length_le h,
    if_neg (Nat.not_lt.mpr h)]

/-- A page that is not the last one. -/
theorem page_of_lt {limit : Nat} {after : Option β} {rows rest : List α}
    (hrest : sortDown key (below key after rows) = rest) (h : limit < rest.length) :
  page key limit after rows = (rest.take limit, (rest.take limit).getLast?.map key)
  := by
  unfold page
  dsimp only
  rw [hrest, List.take_take, Nat.min_eq_left (by omega), List.length_take,
    if_pos (by omega)]

/-- The cursor of the next page is the key of a row. -/
theorem exists_of_page_eq {limit : Nat} {after : Option β} {rows page : List α} {cursor : β}
    (h : Keyset.page key limit after rows = (page, some cursor)) :
  ∃ r ∈ rows, key r = cursor
  := by
  unfold Keyset.page at h
  rw [Prod.mk.injEq] at h
  obtain ⟨-, hcursor⟩ := h
  split_ifs at hcursor
  obtain ⟨r, hr, hkey⟩ := Option.map_eq_some_iff.mp hcursor
  have hmem := List.mem_of_mem_take (List.mem_of_mem_take (List.mem_of_getLast? hr))
  exact ⟨r, (List.mem_filter.mp ((sortDown_perm _).subset hmem)).1, hkey⟩

/-! ### Reading page after page -/

/-- A reader of the pages: the rows of the table, the cursor, what was read, and how many pages
were asked for. -/
structure Reading (α β : Type) where
  rows : List α
  after : Option β
  taken : List α
  requests : Nat
  finished : Bool

/-- A reader before the first page. -/
def Reading.start (rows : List α) : Reading α β := ⟨rows, none, [], 0, false⟩

variable (key)

/-- Read the next page. -/
def Reading.next (limit : Nat) (s : Reading α β) : Reading α β :=
  let p := page key limit s.after s.rows
  ⟨s.rows, p.2, s.taken ++ p.1, s.requests + 1, p.2.isNone⟩

/-- The reader reads the next page, or a row above the cursor is inserted between two pages. -/
inductive Reading.Step (limit : Nat) : Reading α β → Reading α β → Prop where
  | page {s : Reading α β} (hmore : s.finished = false) :
      Step limit s (s.next key limit)
  | insert {s : Reading α β} {cursor : β} {row : α} (hafter : s.after = some cursor)
      (hlater : cursor < key row) (hnew : ∀ r ∈ s.rows, key r ≠ key row) :
      Step limit s { s with rows := s.rows ++ [row] }

/-- What was read is the start of the first rows, and what is left to read is the rest. -/
structure Reading.Sound (first : List α) (s : Reading α β) : Prop where
  keyed : Keyed key s.rows
  cursor : s.finished = false → s.after = s.taken.getLast?.map key
  rest : ∃ rest, sortDown key first = s.taken ++ rest ∧
    if s.finished then rest = [] else sortDown key (below key s.after s.rows) = rest
  requests : s.requests ≤ s.taken.length + if s.finished then 1 else 0

variable {key}

@[simp]
theorem below_none (rows : List α) :
  below key none rows = rows
  := by
  unfold below
  rw [List.filter_eq_self]
  simp

/-- A row above the cursor does not change what is below it. -/
theorem below_concat {rows : List α} {cursor : β} {row : α} (hlater : cursor < key row) :
  below key (some cursor) (rows ++ [row]) = below key (some cursor) rows
  := by
  unfold below
  rw [List.filter_append, List.filter_singleton]
  simp [not_lt_of_gt hlater]

/-- What is below a row that is itself below the cursor. -/
theorem filter_below {after : Option β} {rows : List α} {last : α}
    (hlast : last ∈ below key after rows) :
  (below key after rows).filter (fun r => key r < key last) = below key (some (key last)) rows
  := by
  have hcursor : ∀ c ∈ after, key last < c := of_decide_eq_true (List.mem_filter.mp hlast).2
  unfold below
  rw [List.filter_filter]
  apply List.filter_congr
  intro r hr
  rw [Bool.and_eq_decide, decide_eq_decide]
  simp only [decide_eq_true_eq, Option.mem_some_iff, forall_eq']
  exact and_iff_left_of_imp (fun hlt c hc => hlt.trans (hcursor c hc))

theorem Reading.Sound.start {rows : List α} (h : Keyed key rows) :
  (Reading.start rows : Reading α β).Sound key rows
  := by
  refine ⟨h, fun _ => rfl, ⟨_, rfl, ?_⟩, Nat.le_refl _⟩
  exact congrArg _ (below_none rows)

theorem Reading.next_eq {limit : Nat} {s : Reading α β} {rows : List α} {after : Option β}
    (h : page key limit s.after s.rows = (rows, after)) :
  s.next key limit = ⟨s.rows, after, s.taken ++ rows, s.requests + 1, after.isNone⟩
  := by
  unfold next
  rw [h]

/-- What is left to read after a page that ends with `last`. -/
theorem sortDown_below_last {after : Option β} {rows front rest : List α} {last : α}
    (hkeyed : Keyed key rows) (hsort : sortDown key (below key after rows) = front ++ rest)
    (hlast : front.getLast? = some last) :
  sortDown key (below key (some (key last)) rows) = rest
  := by
  have hdesc : Descending key (front ++ rest) := by
    rw [← hsort]
    exact sortDown_descending (hkeyed.filter _)
  have hperm : (front ++ rest).Perm (below key after rows) := by
    rw [← hsort]
    apply sortDown_perm
  have hmem : last ∈ below key after rows :=
    hperm.subset (List.mem_append_left _ (List.mem_of_getLast? hlast))
  apply Descending.sortDown_eq
  · exact (List.pairwise_append.mp hdesc).2.1
  · rw [← filter_below hmem, ← hdesc.filter_append hlast]
    exact hperm.filter _

theorem Reading.Sound.step {first : List α} {limit : Nat} (hlimit : 1 ≤ limit)
    {s s' : Reading α β} (hs : s.Sound key first) (h : Step key limit s s') :
  s'.Sound key first
  := by
  obtain ⟨hkeyed, hcursor, ⟨rest, hsort, hrest⟩, hrequests⟩ := hs
  cases h with
  | page hmore =>
      rw [hmore, if_neg Bool.false_ne_true] at hrest hrequests
      by_cases hlast : rest.length ≤ limit
      · rw [next_eq (page_of_le hrest hlast)]
        constructor
        · exact hkeyed
        · intro hfinished
          cases hfinished
        · exact ⟨[], by rw [List.append_nil, hsort], rfl⟩
        · rw [List.length_append]
          exact Nat.succ_le_succ (Nat.le_add_right_of_le hrequests)
      · rw [Nat.not_le] at hlast
        have hne : rest.take limit ≠ [] := by
          apply List.ne_nil_of_length_pos
          rw [List.length_take]
          omega
        have hpage := page_of_lt hrest hlast
        rw [List.getLast?_eq_some_getLast hne, Option.map_some] at hpage
        rw [next_eq hpage]
        have hlength : (rest.take limit).length = limit := by
          rw [List.length_take]
          omega
        constructor
        · exact hkeyed
        · intro _
          rw [List.getLast?_append_of_ne_nil _ hne, List.getLast?_eq_some_getLast hne]
          rfl
        · refine ⟨rest.drop limit, ?_, ?_⟩
          · rw [List.append_assoc, List.take_append_drop, hsort]
          · have hsplit : sortDown key (below key s.after s.rows) =
                rest.take limit ++ rest.drop limit := by
              rw [List.take_append_drop, hrest]
            exact sortDown_below_last hkeyed hsplit (List.getLast?_eq_some_getLast hne)
        · rw [List.length_append, hlength]
          exact Nat.le_trans (Nat.succ_le_succ hrequests) (Nat.add_le_add_left hlimit _)
  | insert hafter hlater hnew =>
      rename_i cursor row
      refine ⟨hkeyed.concat hnew, hcursor, ⟨rest, hsort, ?_⟩, hrequests⟩
      split_ifs at hrest ⊢ with hfinished
      · exact hrest
      · rw [hafter] at hrest ⊢
        rw [below_concat hlater]
        exact hrest

theorem Reading.sound_of_reachable {first : List α} (hfirst : Keyed key first) {limit : Nat}
    (hlimit : 1 ≤ limit) {s : Reading α β}
    (h : Relation.ReflTransGen (Step key limit) (Reading.start first) s) :
  s.Sound key first
  := by
  induction h with
  | refl => exact .start hfirst
  | tail _ hstep ih => exact ih.step hlimit hstep

/-- A reader who has followed the cursors to the last page has read the rows of the first
page's table, from the greatest key down. -/
theorem Reading.Sound.taken_of_finished {first : List α} {s : Reading α β}
    (hs : s.Sound key first) (h : s.finished = true) :
  s.taken = sortDown key first
  := by
  obtain ⟨rest, hsort, hrest⟩ := hs.rest
  rw [if_pos h] at hrest
  rw [hsort, hrest, List.append_nil]

/-- A reader asks for one page more than there are rows at most. -/
theorem Reading.Sound.requests_le {first : List α} {s : Reading α β} (hs : s.Sound key first) :
  s.requests ≤ first.length + 1
  := by
  obtain ⟨rest, hsort, -⟩ := hs.rest
  have hlength := congrArg List.length hsort
  rw [(sortDown_perm first).length_eq, List.length_append] at hlength
  have hrequests := hs.requests
  split_ifs at hrequests <;> omega

end Keyset
