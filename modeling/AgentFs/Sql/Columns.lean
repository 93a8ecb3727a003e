import Mathlib.Algebra.BigOperators.Group.List.Defs
import AgentFs.Lib.Numbered
import AgentFs.Lib.OrderedMap
import AgentFs.Lib.Split
import AgentFs.Ops.Content

/-!
# Columns of a query

The names that `ops/sql.ts` gives to the columns of a result, and the row objects it builds with
them.  A repeated name gets the number of its occurrence as a suffix; nothing else is looked at,
so that `a, a, a_2` has two columns `a_2`.
-/

namespace AgentFs

/-! ### Names -/

/-- The name of a column after `n` columns of the same name. -/
def numberedColumn (name : Text) (n : Nat) : Text :=
  if n = 0 then name else name ++ '_' :: decimal (n + 1)

/-- The names of the columns; `seenCols` counts those already seen. -/
def columnNames (seenCols : OrderedMap Text Nat) : List Text → List Text
  | [] => []
  | name :: names =>
      let n := (seenCols.get name).getD 0
      numberedColumn name n :: columnNames (seenCols.set name (n + 1)) names

/-- The names of the columns of a result. -/
def uniqueColumnNames (names : List Text) : List Text :=
  columnNames .empty names

/-! ### Rows -/

/-- `row[name] = value` of an object literal: `__proto__` sets its prototype. -/
def setOwn {V : Type} (name : Text) (value : V) (row : OrderedMap Text V) : OrderedMap Text V :=
  if name = "__proto__".toList then row else row.set name value

/-- The object of a row. -/
def rowObject {V : Type} (columns : List Text) (values : List V) : OrderedMap Text V :=
  (columns.zip values).foldl (fun row x => setOwn x.1 x.2 row) .empty

/-! ### Occurrences -/

theorem numberedColumn_zero (name : Text) :
  numberedColumn name 0 = name
  := rfl

theorem numberedColumn_succ (name : Text) (n : Nat) :
  numberedColumn name (n + 1) = name ++ '_' :: decimal (n + 2)
  := rfl

/-- A suffix is read off the name: it starts after the last underscore. -/
theorem numberedColumn_injective {name name' : Text} {m n : Nat}
    (h : numberedColumn name (m + 1) = numberedColumn name' (n + 1)) :
  name = name' ∧ m = n
  := by
  rw [numberedColumn_succ, numberedColumn_succ] at h
  obtain ⟨hname, hnumber⟩ := append_decimal_inj (by decide) h
  exact ⟨hname, Nat.add_right_cancel hnumber⟩

theorem numberedColumn_ne_proto (name : Text) (n : Nat) :
  numberedColumn name (n + 1) ≠ "__proto__".toList
  := by
  intro h
  rw [numberedColumn_succ] at h
  have hlast := congrArg List.getLast? h
  have hdigits : decimal (n + 2) ≠ [] := Nat.toDigits_ne_nil
  rw [List.getLast?_append_of_ne_nil _ (List.cons_ne_nil _ _),
    List.getLast?_cons_of_ne_nil hdigits] at hlast
  exact Nat.underscore_not_in_toDigits (List.mem_of_getLast? hlast)

/-! ### The assigned names -/

/-- Columns are numbered from the second one of a name on. -/
def columnNumbering : NameNumbering Text where
  label := numberedColumn
  label_zero := numberedColumn_zero
  label_injective := numberedColumn_injective

/-- The map of the loop counts the columns of each name that it has seen. -/
theorem columnNames_eq_labels (seenCols : OrderedMap Text Nat) (seen names : List Text)
    (hseen : ∀ name, (seenCols.get name).getD 0 = seen.count name) :
  columnNames seenCols names = columnNumbering.labelsFrom seen names
  := by
  induction names generalizing seenCols seen with
  | nil => rfl
  | cons name names ih =>
      simp only [columnNames, NameNumbering.labelsFrom, hseen name]
      congr 1
      apply ih
      intro other
      rw [OrderedMap.get_set, List.count_cons]
      by_cases hname : other = name
      · simp [hname]
      · simp [hname, Ne.symm hname, hseen other]

theorem uniqueColumnNames_eq_labels (names : List Text) :
  uniqueColumnNames names = columnNumbering.labels names
  := by
  apply columnNames_eq_labels
  intro name
  rw [OrderedMap.get_empty, Option.getD_none, List.count_nil]

theorem length_uniqueColumnNames (names : List Text) :
  (uniqueColumnNames names).length = names.length
  := by rw [uniqueColumnNames_eq_labels, NameNumbering.length_labels]

theorem getElem_uniqueColumnNames {names : List Text} {i : Nat}
    (hi : i < (uniqueColumnNames names).length) (hi' : i < names.length) :
  (uniqueColumnNames names)[i] = numberedColumn names[i] (names.countBefore names[i] i)
  := by
  simp only [uniqueColumnNames_eq_labels]
  apply columnNumbering.getElem_labels

theorem mem_uniqueColumnNames_of_mem {names : List Text} {name : Text} (h : name ∈ names) :
  name ∈ uniqueColumnNames names
  := by
  rw [uniqueColumnNames_eq_labels]
  exact columnNumbering.mem_labels_of_mem h

/-- No column is named as a later occurrence of another is numbered. -/
def NoClash (names : List Text) : Prop :=
  ∀ name ∈ names, ∀ n < names.count name, 0 < n → numberedColumn name n ∉ names

/-- The assigned names differ exactly when no suffix makes the name of a column. -/
theorem nodup_uniqueColumnNames_iff (names : List Text) :
  (uniqueColumnNames names).Nodup ↔ NoClash names
  := by
  rw [uniqueColumnNames_eq_labels, columnNumbering.nodup_labels_iff]
  rfl

theorem proto_mem_uniqueColumnNames_iff {names : List Text} :
  "__proto__".toList ∈ uniqueColumnNames names ↔ "__proto__".toList ∈ names
  := by
  constructor
  · intro hmem
    obtain ⟨i, hi, hcolumn⟩ := List.getElem_of_mem hmem
    have hi' : i < names.length := by rwa [← length_uniqueColumnNames]
    rw [getElem_uniqueColumnNames hi hi'] at hcolumn
    cases hn : names.countBefore names[i] i with
    | zero =>
        rw [hn, numberedColumn_zero] at hcolumn
        rw [← hcolumn]
        apply List.getElem_mem
    | succ n =>
        rw [hn] at hcolumn
        exact absurd hcolumn (numberedColumn_ne_proto _ n)
  · apply mem_uniqueColumnNames_of_mem

/-! ### Rows -/

section

variable {V : Type}

theorem get_setOwn (name name' : Text) (value : V) (row : OrderedMap Text V) :
  (setOwn name value row).get name' =
    if name' = name ∧ name ≠ "__proto__".toList then some value else row.get name'
  := by
  unfold setOwn
  split
  · rename_i hproto
    rw [if_neg (fun h => h.2 hproto)]
  · rename_i hproto
    rw [OrderedMap.get_set]
    simp only [hproto, ne_eq, not_false_eq_true, and_true]

theorem get_foldl_setOwn {name : Text} {cells : List (Text × V)} (row : OrderedMap Text V)
    (h : ∀ cell ∈ cells, cell.1 ≠ name) :
  (cells.foldl (fun row x => setOwn x.1 x.2 row) row).get name = row.get name
  := by
  induction cells generalizing row with
  | nil => rfl
  | cons cell cells ih =>
      rw [List.foldl_cons, ih _ (fun c hc => h c (List.mem_cons_of_mem cell hc)), get_setOwn,
        if_neg (fun hcell => h cell List.mem_cons_self hcell.1.symm)]

/-- No row has an own property `__proto__`. -/
theorem get_rowObject_proto (columns : List Text) (values : List V) :
  (rowObject columns values).get "__proto__".toList = none
  := by
  unfold rowObject
  have hkept : ∀ (cells : List (Text × V)) (row : OrderedMap Text V),
      row.get "__proto__".toList = none →
      (cells.foldl (fun row x => setOwn x.1 x.2 row) row).get "__proto__".toList = none := by
    intro cells
    induction cells with
    | nil => exact fun _ h => h
    | cons cell cells ih =>
        intro row h
        apply ih
        rw [get_setOwn, if_neg (fun hcell => hcell.2 hcell.1.symm), h]
  exact hkept _ _ rfl

/-- With distinct names every value of a row is kept. -/
theorem get_rowObject {columns : List Text} {values : List V} (hnodup : columns.Nodup)
    (hproto : "__proto__".toList ∉ columns) {i : Nat} (hi : i < columns.length)
    (hi' : i < values.length) :
  (rowObject columns values).get columns[i] = some values[i]
  := by
  have hrow : ∀ (columns : List Text) (values : List V) (row : OrderedMap Text V) (i : Nat)
      (hi : i < columns.length) (hi' : i < values.length), columns.Nodup →
      "__proto__".toList ∉ columns →
      ((columns.zip values).foldl (fun row x => setOwn x.1 x.2 row) row).get columns[i] =
        some values[i] := by
    intro columns
    induction columns with
    | nil => exact fun _ _ _ hi => absurd hi (Nat.not_lt_zero _)
    | cons name columns ih =>
        intro values row i hi hi' hnodup hproto
        obtain ⟨hnew, hnodup⟩ := List.nodup_cons.mp hnodup
        have hname := List.ne_of_not_mem_cons hproto
        replace hproto := List.not_mem_of_not_mem_cons hproto
        cases values with
        | nil => exact absurd hi' (Nat.not_lt_zero _)
        | cons value values =>
            rw [List.zip_cons_cons, List.foldl_cons]
            cases i with
            | succ i =>
                apply ih values _ i (Nat.lt_of_succ_lt_succ hi) (Nat.lt_of_succ_lt_succ hi')
                  hnodup hproto
            | zero =>
                simp only [List.getElem_cons_zero]
                rw [get_foldl_setOwn, get_setOwn, if_pos ⟨rfl, Ne.symm hname⟩]
                rintro ⟨other, v⟩ hcell rfl
                exact hnew (List.of_mem_zip hcell).1
  exact hrow columns values .empty i hi hi' hnodup hproto

end

/-- The columns of a result are named apart, as many as there are, the first of a name by that
name, and a row object has every value of its row under the name of the column. -/
structure ColumnsKept (V : Type) (names : List Text) : Prop where
  apart : (uniqueColumnNames names).Nodup
  length : (uniqueColumnNames names).length = names.length
  first : ∀ i (hi : i < (uniqueColumnNames names).length) (hi' : i < names.length),
    names[i] ∉ names.take i → (uniqueColumnNames names)[i] = names[i]
  rows : ∀ values : List V, values.length = names.length →
    ∀ i (hi : i < (uniqueColumnNames names).length) (hi' : i < values.length),
      (rowObject (uniqueColumnNames names) values).get (uniqueColumnNames names)[i] =
        some values[i]

/-- The columns are kept exactly when no name is the numbered name of a repeated one, and none
is `__proto__`. -/
theorem columns_kept_iff {V : Type} [Inhabited V] (names : List Text) :
  ColumnsKept V names ↔
    (∀ name ∈ names, ∀ n, 2 ≤ n → n ≤ names.count name → name ++ '_' :: decimal n ∉ names) ∧
      "__proto__".toList ∉ names
  := by
  have hclash : NoClash names ↔ ∀ name ∈ names, ∀ n, 2 ≤ n → n ≤ names.count name →
      name ++ '_' :: decimal n ∉ names := by
    constructor
    · intro h name hname n htwo hn
      obtain ⟨n, rfl⟩ := Nat.exists_eq_add_of_le' htwo
      have hfree := h name hname (n + 1) hn n.succ_pos
      rwa [numberedColumn_succ] at hfree
    · intro h name hname n hn hpos
      obtain ⟨n, rfl⟩ := Nat.exists_eq_add_of_le' hpos
      rw [numberedColumn_succ]
      exact h name hname (n + 2) (by omega) hn
  rw [← hclash, ← nodup_uniqueColumnNames_iff]
  constructor
  · intro h
    refine ⟨h.apart, ?_⟩
    intro hproto
    obtain ⟨i, hi, hcolumn⟩ := List.getElem_of_mem (mem_uniqueColumnNames_of_mem hproto)
    have hvalue := h.rows (List.replicate names.length default) List.length_replicate i hi (by
      rw [List.length_replicate, ← length_uniqueColumnNames]
      exact hi)
    rw [hcolumn, get_rowObject_proto] at hvalue
    cases hvalue
  · rintro ⟨hnodup, hproto⟩
    constructor
    · exact hnodup
    · apply length_uniqueColumnNames
    · intro i hi hi' hfirst
      rw [getElem_uniqueColumnNames hi hi', List.countBefore_eq_count_take,
        List.count_eq_zero_of_not_mem hfirst, numberedColumn_zero]
    · intro values _ i hi hi'
      exact get_rowObject hnodup (fun h => hproto (proto_mem_uniqueColumnNames_iff.mp h)) hi hi'

/-- `SELECT 1 AS a, 2 AS a, 3 AS a_2`: the second and the third column are both `a_2`. -/
theorem columns_clash :
  ¬ ∀ names : List Text, ColumnsKept Nat names
  := by
  intro h
  have hapart := (h ["a".toList, "a".toList, "a_2".toList]).apart
  revert hapart
  decide +kernel

end AgentFs
