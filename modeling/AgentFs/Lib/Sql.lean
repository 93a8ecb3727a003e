import Mathlib.Data.List.Basic

/-!
# Conditions of SQL

Conditions over columns that may be NULL, in the logic of three values.  A row is selected when
its condition is true, not when it is NULL.
-/

namespace Sql

/-- The value of a condition; `none` is NULL. -/
abbrev Truth := Option Bool

def Truth.and : Truth → Truth → Truth
  | some false, _ => some false
  | _, some false => some false
  | some true, some true => some true
  | _, _ => none

def Truth.or : Truth → Truth → Truth
  | some true, _ => some true
  | _, some true => some true
  | some false, some false => some false
  | _, _ => none

/-- The conjunction of conditions. -/
def all (conditions : List Truth) : Truth :=
  conditions.foldr Truth.and (some true)

variable {α : Type}

def isNull (value : Option α) : Truth := some value.isNone

def eq [DecidableEq α] (x y : Option α) : Truth :=
  x.bind (fun a => y.map (fun b => decide (a = b)))

def lt [LT α] [DecidableLT α] (x y : Option α) : Truth :=
  x.bind (fun a => y.map (fun b => decide (a < b)))

/-- `x IN (values)`. -/
def isIn [DecidableEq α] (x : Option α) (values : List α) : Truth :=
  x.map (fun a => decide (a ∈ values))

/-- A WHERE clause keeps the rows for which it is true. -/
def Selects (condition : Truth) : Prop := condition = some true

instance (condition : Truth) : Decidable (Selects condition) :=
  inferInstanceAs (Decidable (condition = some true))

@[simp]
theorem selects_and (x y : Truth) :
  Selects (x.and y) ↔ Selects x ∧ Selects y
  := by
  unfold Selects
  rcases x with - | - | - <;> rcases y with - | - | - <;> decide

@[simp]
theorem selects_or (x y : Truth) :
  Selects (x.or y) ↔ Selects x ∨ Selects y
  := by
  unfold Selects
  rcases x with - | - | - <;> rcases y with - | - | - <;> decide

@[simp]
theorem selects_all (conditions : List Truth) :
  Selects (all conditions) ↔ ∀ condition ∈ conditions, Selects condition
  := by
  unfold all
  induction conditions with
  | nil => simp [Selects]
  | cons condition conditions ih => rw [List.foldr_cons, selects_and, ih, List.forall_mem_cons]

@[simp]
theorem selects_isNull (value : Option α) :
  Selects (isNull value) ↔ value = none
  := by
  cases value <;> simp [Selects, isNull]

@[simp]
theorem selects_eq [DecidableEq α] (a b : α) :
  Selects (eq (some a) (some b)) ↔ a = b
  := by
  simp [Selects, eq]

/-- A comparison with NULL selects nothing. -/
@[simp]
theorem selects_lt [LT α] [DecidableLT α] (a : α) (y : Option α) :
  Selects (lt (some a) y) ↔ ∃ b ∈ y, a < b
  := by
  cases y <;> simp [Selects, lt]

@[simp]
theorem selects_isIn [DecidableEq α] (a : α) (values : List α) :
  Selects (isIn (some a) values) ↔ a ∈ values
  := by
  simp [Selects, isIn]

end Sql
