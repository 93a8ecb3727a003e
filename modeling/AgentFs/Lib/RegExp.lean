import Mathlib.Computability.Language

/-!
# A fragment of regular expressions

Regular expressions without flags that are a sequence of terms between `^` and `$`: each term is
a character, an escaped character, `.` or `[^c]`, once or any number of times.  As in JavaScript
a character is a UTF-16 code unit.  The source of a regular expression is parsed to its terms;
a string passes the test of the terms exactly when it is in their language.
-/

/-- A UTF-16 code unit. -/
abbrev CodeUnit := UInt16

/-- The code unit of a character of the Basic Multilingual Plane. -/
def codeUnit (c : Char) : CodeUnit := c.toNat.toUInt16

/-- The code units of a text of the Basic Multilingual Plane. -/
def codeUnits (s : String) : List CodeUnit := s.toList.map codeUnit

namespace RegExp

/-- A code unit that `\s` matches, which are those that `trim` takes away. -/
def isSpace (code : CodeUnit) : Bool :=
  (code ≥ 0x09 && code ≤ 0x0D) || (code ≥ 0x2000 && code ≤ 0x200A) ||
    code ∈ ([0x20, 0xA0, 0x1680, 0x2028, 0x2029, 0x202F, 0x205F, 0x3000, 0xFEFF] : List CodeUnit)

/-- What matches a single character. -/
inductive Atom where
  | literal (c : CodeUnit)
  | dot
  /-- `[^c]`. -/
  | other (c : CodeUnit)
  deriving DecidableEq, Repr

inductive Term where
  | once (a : Atom)
  | many (a : Atom)
  deriving DecidableEq, Repr

/-- The characters that `.` does not match. -/
def lineTerminators : List CodeUnit :=
  [0x0A, 0x0D, 0x2028, 0x2029]

/-- The characters that have a meaning of their own. -/
def syntaxCharacters : List CodeUnit :=
  codeUnits "^$\\.*+?()[]\x7b\x7d|"

def Atom.accepts : Atom → CodeUnit → Bool
  | literal d, c => c = d
  | dot, c => c ∉ lineTerminators
  | other d, c => c ≠ d

/-! ### Parsing -/

/-- The lexical elements of a source. -/
inductive Token where
  | atom (a : Atom)
  | star
  /-- `$`. -/
  | final
  deriving DecidableEq, Repr

/-- The lexical elements; none where the source is not of this fragment. -/
def tokens : List CodeUnit → Option (List Token)
  | [] => some []
  | c :: rest =>
      if c = codeUnit '$' then (tokens rest).map (.final :: ·)
      else if c = codeUnit '*' then (tokens rest).map (.star :: ·)
      else if c = codeUnit '.' then (tokens rest).map (.atom .dot :: ·)
      else if c = codeUnit '\\' then
        match rest with
        | d :: rest => if d ∈ syntaxCharacters then (tokens rest).map (.atom (.literal d) :: ·) else none
        | [] => none
      else if c = codeUnit '[' then
        match rest with
        | hat :: d :: close :: rest =>
            if hat = codeUnit '^' ∧ d ∉ syntaxCharacters ∧ close = codeUnit ']' then
              (tokens rest).map (.atom (.other d) :: ·)
            else none
        | _ => none
      else if c ∈ syntaxCharacters then none
      else (tokens rest).map (.atom (.literal c) :: ·)

/-- A term is an atom and a star that may follow it; `$` is last. -/
def terms : List Token → Option (List Term)
  | .atom a :: .star :: rest => (terms rest).map (.many a :: ·)
  | .atom a :: rest => (terms rest).map (.once a :: ·)
  | [.final] => some []
  | _ => none

/-- `new RegExp(source)`. -/
def parse : List CodeUnit → Option (List Term)
  | [] => none
  | c :: rest => if c = codeUnit '^' then (tokens rest).bind terms else none

/-! ### Rendering -/

/-- The source of an atom. -/
def Atom.source : Atom → List CodeUnit
  | literal c => if c ∈ syntaxCharacters then [codeUnit '\\', c] else [c]
  | dot => [codeUnit '.']
  | other c => [codeUnit '[', codeUnit '^', c, codeUnit ']']

def Term.source : Term → List CodeUnit
  | once a => a.source
  | many a => a.source ++ [codeUnit '*']

/-- The source has this atom. -/
def Atom.Writable : Atom → Prop
  | literal _ => True
  | dot => True
  | other c => c ∉ syntaxCharacters

def Term.atom : Term → Atom
  | once a => a
  | many a => a

theorem tokens_star (rest : List CodeUnit) :
  tokens (codeUnit '*' :: rest) = (tokens rest).map (.star :: ·)
  := by
  rw [tokens.eq_def]
  dsimp only
  rw [if_neg (by decide), if_pos rfl]

theorem tokens_atom {a : Atom} (ha : a.Writable) (rest : List CodeUnit) :
  tokens (a.source ++ rest) = (tokens rest).map (.atom a :: ·)
  := by
  cases a with
  | dot =>
      change tokens (codeUnit '.' :: rest) = _
      rw [tokens.eq_def]
      dsimp only
      rw [if_neg (by decide), if_neg (by decide), if_pos rfl]
  | other c =>
      change tokens (codeUnit '[' :: codeUnit '^' :: c :: codeUnit ']' :: rest) = _
      rw [tokens.eq_def]
      dsimp only
      rw [if_neg (by decide), if_neg (by decide), if_neg (by decide), if_neg (by decide),
        if_pos rfl, if_pos ⟨rfl, ha, rfl⟩]
  | literal c =>
      by_cases hc : c ∈ syntaxCharacters
      · have hsource : (Atom.literal c).source = [codeUnit '\\', c] := if_pos hc
        rw [hsource, List.cons_append, List.singleton_append, tokens.eq_def]
        dsimp only
        rw [if_neg (by decide), if_neg (by decide), if_neg (by decide), if_pos rfl, if_pos hc]
      · have hsource : (Atom.literal c).source = [c] := if_neg hc
        have hne : ∀ d ∈ syntaxCharacters, c ≠ d := by
          rintro d hd rfl
          exact hc hd
        rw [hsource, List.singleton_append, tokens.eq_def]
        dsimp only
        rw [if_neg (hne (codeUnit '$') (by decide)), if_neg (hne (codeUnit '*') (by decide)),
          if_neg (hne (codeUnit '.') (by decide)), if_neg (hne (codeUnit '\\') (by decide)),
          if_neg (hne (codeUnit '[') (by decide)), if_neg hc]

/-- The lexical elements of a term. -/
def Term.tokens : Term → List Token
  | once a => [.atom a]
  | many a => [.atom a, .star]

theorem tokens_term {t : Term} (ht : t.atom.Writable) (rest : List CodeUnit) :
  RegExp.tokens (t.source ++ rest) = (RegExp.tokens rest).map (t.tokens ++ ·)
  := by
  cases t with
  | once a => exact tokens_atom ht rest
  | many a =>
      change RegExp.tokens ((a.source ++ [codeUnit '*']) ++ rest) = _
      rw [List.append_assoc, tokens_atom (show a.Writable from ht), List.singleton_append,
        tokens_star, Option.map_map]
      rfl

/-- A star belongs to the atom before it. -/
theorem terms_cons (t : Term) (rest : List Token) (hrest : ∀ rest', rest ≠ .star :: rest') :
  terms (t.tokens ++ rest) = (terms rest).map (t :: ·)
  := by
  cases t with
  | many a => rfl
  | once a =>
      cases rest with
      | nil => rfl
      | cons token rest =>
          cases token with
          | star => exact absurd rfl (hrest rest)
          | atom b => rfl
          | final => rfl

/-- Terms are read back from their source. -/
theorem parse_source {ts : List Term} (hts : ∀ t ∈ ts, t.atom.Writable) :
  parse (codeUnit '^' :: (ts.flatMap Term.source ++ [codeUnit '$'])) = some ts
  := by
  have htokens : RegExp.tokens (ts.flatMap Term.source ++ [codeUnit '$']) =
      some (ts.flatMap Term.tokens ++ [.final]) := by
    induction ts with
    | nil => rfl
    | cons t ts ih =>
        rw [List.flatMap_cons, List.append_assoc, tokens_term (hts t List.mem_cons_self),
          ih (fun t ht => hts t (List.mem_cons_of_mem _ ht)), Option.map_some,
          List.flatMap_cons, List.append_assoc]
  have hterms : terms (ts.flatMap Term.tokens ++ [.final]) = some ts := by
    clear htokens hts
    induction ts with
    | nil => rfl
    | cons t ts ih =>
        rw [List.flatMap_cons, List.append_assoc, terms_cons, ih, Option.map_some]
        intro rest hrest
        cases ts with
        | nil => cases hrest
        | cons t ts => cases t <;> cases hrest
  change (RegExp.tokens _).bind terms = _
  rw [htokens, Option.bind_some, hterms]

/-! ### Matching -/

/-- Characters of `a` from the front of the string, and then `rest`. -/
def testMany (a : Atom) (rest : List CodeUnit → Bool) : List CodeUnit → Bool
  | [] => rest []
  | c :: s => rest (c :: s) || (a.accepts c && testMany a rest s)

/-- The terms match the whole string. -/
def test : List Term → List CodeUnit → Bool
  | [], s => s.isEmpty
  | .once _ :: _, [] => false
  | .once a :: ts, c :: s => a.accepts c && test ts s
  | .many a :: ts, s => testMany a (test ts) s

/-- The strings that a term matches. -/
def Term.language : Term → Language CodeUnit
  | once a => {s | ∃ c, s = [c] ∧ a.accepts c}
  | many a => {s | ∀ c ∈ s, a.accepts c}

/-- The strings that a sequence of terms matches. -/
def language (ts : List Term) : Language CodeUnit :=
  (ts.map Term.language).prod

theorem testMany_iff {a : Atom} {rest : List CodeUnit → Bool} {s : List CodeUnit} :
  testMany a rest s = true ↔
    ∃ front back, s = front ++ back ∧ (∀ c ∈ front, a.accepts c) ∧ rest back = true
  := by
  induction s with
  | nil =>
      constructor
      · intro h
        exact ⟨[], [], rfl, nofun, h⟩
      · rintro ⟨front, back, hnil, -, h⟩
        rw [(List.nil_eq_append_iff.mp hnil).2] at h
        exact h
  | cons c s ih =>
      rw [testMany, Bool.or_eq_true, Bool.and_eq_true, ih]
      constructor
      · rintro (h | ⟨hc, front, back, rfl, hfront, h⟩)
        · exact ⟨[], c :: s, rfl, nofun, h⟩
        · refine ⟨c :: front, back, rfl, ?_, h⟩
          intro d hd
          rcases List.mem_cons.mp hd with rfl | hd
          · exact hc
          · exact hfront d hd
      · rintro ⟨front, back, hs, hfront, h⟩
        cases front with
        | nil =>
            left
            rw [List.nil_append] at hs
            rw [hs]
            exact h
        | cons d front =>
            obtain ⟨rfl, rfl⟩ := List.cons_eq_cons.mp hs
            right
            exact ⟨hfront c List.mem_cons_self, front, back, rfl,
              fun d hd => hfront d (List.mem_cons_of_mem c hd), h⟩

/-- The test decides the language. -/
theorem test_iff {ts : List Term} {s : List CodeUnit} :
  test ts s = true ↔ s ∈ language ts
  := by
  induction ts generalizing s with
  | nil =>
      unfold language
      rw [List.map_nil, List.prod_nil, Language.mem_one]
      exact List.isEmpty_iff
  | cons t ts ih =>
      unfold language at ih ⊢
      rw [List.map_cons, List.prod_cons, Language.mem_mul]
      cases t with
      | once a =>
          constructor
          · intro h
            cases s with
            | nil => cases h
            | cons c s =>
                rw [test, Bool.and_eq_true, ih] at h
                exact ⟨[c], ⟨c, rfl, h.1⟩, s, h.2, rfl⟩
          · rintro ⟨_, ⟨c, rfl, hc⟩, back, hback, rfl⟩
            rw [List.singleton_append, test, Bool.and_eq_true, ih]
            exact ⟨hc, hback⟩
      | many a =>
          rw [test, testMany_iff]
          constructor
          · rintro ⟨front, back, rfl, hfront, h⟩
            exact ⟨front, hfront, back, ih.mp h, rfl⟩
          · rintro ⟨front, hfront, back, h, rfl⟩
            exact ⟨front, back, rfl, hfront, ih.mpr h⟩

end RegExp
