import AgentFs.Lib.RegExp

/-!
# Glob patterns

`globToRegex` of `ops/glob.ts`, and the language that a glob pattern stands for.  The two differ
on the patterns with `**`: the regular expression has `.*` for it, which stops at a line
terminator, and drops a slash after it, so that `**/b` matches `ab`.
-/

namespace AgentFs

open RegExp

/-! ### The regular expression of a pattern -/

/-- The loop of `globToRegex`; the first `skip` characters are already done. -/
def globLoop : Nat → List CodeUnit → List CodeUnit
  | _, [] => []
  | skip + 1, _ :: rest => globLoop skip rest
  | 0, char :: rest =>
      if char = codeUnit '*' then
        if rest[0]? = some (codeUnit '*') then
          codeUnits ".*" ++ globLoop (if rest[1]? = some (codeUnit '/') then 2 else 1) rest
        else codeUnits "[^/]*" ++ globLoop 0 rest
      else if char = codeUnit '?' then codeUnits "[^/]" ++ globLoop 0 rest
      else if char ∈ codeUnits ".+^$\x7b\x7d()|[]\\" then codeUnit '\\' :: char :: globLoop 0 rest
      else char :: globLoop 0 rest

/-- The source of the regular expression of a pattern. -/
def globToRegex (pattern : List CodeUnit) : List CodeUnit :=
  codeUnit '^' :: (globLoop 0 pattern ++ [codeUnit '$'])

/-- `globToRegex(pattern).test(relativePath)`; false where the source is not of the fragment. -/
def globTest (pattern relativePath : List CodeUnit) : Bool :=
  match parse (globToRegex pattern) with
  | some ts => test ts relativePath
  | none => false

/-- The paths that `glob` returns, of the keys of a listing. -/
def globPaths (s3Prefix startPath pattern : List CodeUnit) (keys : List (List CodeUnit)) :
    List (List CodeUnit) :=
  keys.filterMap (fun key =>
    let relativePath := key.drop s3Prefix.length
    if relativePath = [] ∨ relativePath.getLast? = some (codeUnit '/') then none
    else if globTest pattern relativePath then some (startPath ++ relativePath)
    else none)

/-! ### The language of a pattern -/

/-- The parts of a pattern. -/
inductive GlobToken where
  | literal (c : CodeUnit)
  /-- `?` -/
  | one
  /-- `*` -/
  | run
  /-- `**`, with no slash after it. -/
  | any
  /-- `**` and a slash. -/
  | segments
  deriving DecidableEq, Repr

/-- The parts of a pattern, from left to right; the first `skip` characters belong to the part
before. -/
def globTokensFrom : Nat → List CodeUnit → List GlobToken
  | _, [] => []
  | skip + 1, _ :: rest => globTokensFrom skip rest
  | 0, c :: rest =>
      if c = codeUnit '*' then
        if rest[0]? = some (codeUnit '*') then
          if rest[1]? = some (codeUnit '/') then .segments :: globTokensFrom 2 rest
          else .any :: globTokensFrom 1 rest
        else .run :: globTokensFrom 0 rest
      else if c = codeUnit '?' then .one :: globTokensFrom 0 rest
      else .literal c :: globTokensFrom 0 rest

/-- What a part of a pattern stands for: itself, a character of a name, characters of a name,
anything, or whole names with their slashes. -/
def GlobToken.language : GlobToken → Language CodeUnit
  | literal c => {s | s = [c]}
  | one => {s | ∃ c, s = [c] ∧ c ≠ codeUnit '/'}
  | run => {s | codeUnit '/' ∉ s}
  | any => {_s | True}
  | segments => KStar.kstar {s | ∃ name, codeUnit '/' ∉ name ∧ s = name ++ [codeUnit '/']}

def globLanguage (pattern : List CodeUnit) : Language CodeUnit :=
  ((globTokensFrom 0 pattern).map GlobToken.language).prod

/-! ### The terms of the regular expression -/

/-- What `globToRegex` makes of a part. -/
def GlobToken.term : GlobToken → Term
  | literal c => .once (.literal c)
  | one => .once (.other (codeUnit '/'))
  | run => .many (.other (codeUnit '/'))
  | any => .many .dot
  | segments => .many .dot

theorem globLoop_eq (skip : Nat) (pattern : List CodeUnit) :
  globLoop skip pattern =
    ((globTokensFrom skip pattern).map GlobToken.term).flatMap Term.source
  := by
  induction pattern generalizing skip with
  | nil => cases skip <;> rfl
  | cons c rest ih =>
      cases skip with
      | succ skip => exact ih skip
      | zero =>
          unfold globLoop globTokensFrom
          by_cases hstar : c = codeUnit '*'
          · rw [if_pos hstar, if_pos hstar]
            by_cases hnext : rest[0]? = some (codeUnit '*')
            · rw [if_pos hnext, if_pos hnext]
              by_cases hslash : rest[1]? = some (codeUnit '/')
              · rw [if_pos hslash, if_pos hslash, ih]
                rfl
              · rw [if_neg hslash, if_neg hslash, ih]
                rfl
            · rw [if_neg hnext, if_neg hnext, ih]
              rfl
          · rw [if_neg hstar, if_neg hstar]
            by_cases hone : c = codeUnit '?'
            · rw [if_pos hone, if_pos hone, ih]
              rfl
            · rw [if_neg hone, if_neg hone, List.map_cons, List.flatMap_cons, ih]
              have hescaped : c ∈ syntaxCharacters ↔ c ∈ codeUnits ".+^$\x7b\x7d()|[]\\" := by
                have hall : syntaxCharacters.all (fun d => d = codeUnit '*' ∨ d = codeUnit '?' ∨
                    d ∈ codeUnits ".+^$\x7b\x7d()|[]\\") = true := by
                  decide
                have hback : (codeUnits ".+^$\x7b\x7d()|[]\\").all (· ∈ syntaxCharacters) =
                    true := by
                  decide
                constructor
                · intro hc
                  have h := of_decide_eq_true (List.all_eq_true.mp hall c hc)
                  rcases h with h | h | h
                  · exact absurd h hstar
                  · exact absurd h hone
                  · exact h
                · intro hc
                  exact of_decide_eq_true (List.all_eq_true.mp hback c hc)
              change _ = (Atom.literal c).source ++ _
              by_cases hc : c ∈ syntaxCharacters
              · have hsource : (Atom.literal c).source = [codeUnit '\\', c] := if_pos hc
                rw [if_pos (hescaped.mp hc), hsource]
                rfl
              · have hsource : (Atom.literal c).source = [c] := if_neg hc
                rw [if_neg (fun h => hc (hescaped.mpr h)), hsource]
                rfl

/-- The source is always a regular expression of the fragment. -/
theorem parse_globToRegex (pattern : List CodeUnit) :
  parse (globToRegex pattern) = some ((globTokensFrom 0 pattern).map GlobToken.term)
  := by
  unfold globToRegex
  rw [globLoop_eq, parse_source]
  intro t ht
  obtain ⟨token, -, rfl⟩ := List.mem_map.mp ht
  cases token with
  | literal c => trivial
  | any => trivial
  | segments => trivial
  | one =>
      change codeUnit '/' ∉ syntaxCharacters
      decide
  | run =>
      change codeUnit '/' ∉ syntaxCharacters
      decide

theorem globTest_iff {pattern path : List CodeUnit} :
  globTest pattern path = true ↔
    path ∈ language ((globTokensFrom 0 pattern).map GlobToken.term)
  := by
  unfold globTest
  rw [parse_globToRegex]
  exact test_iff

/-! ### Patterns without `**` -/

/-- The part stands for whole names or for anything. -/
def GlobToken.IsWide (token : GlobToken) : Prop :=
  token = .any ∨ token = .segments

/-- A part is wide where two stars stand next to each other. -/
theorem exists_wide_iff (pattern : List CodeUnit) :
  (∃ token ∈ globTokensFrom 0 pattern, token.IsWide) ↔
    [codeUnit '*', codeUnit '*'] <:+: pattern
  := by
  induction pattern with
  | nil => simp [globTokensFrom]
  | cons c rest ih =>
      rw [List.infix_cons_iff]
      unfold globTokensFrom
      by_cases hstar : c = codeUnit '*'
      · rw [if_pos hstar]
        by_cases hnext : rest[0]? = some (codeUnit '*')
        · have hpair : [codeUnit '*', codeUnit '*'] <+: c :: rest := by
            obtain ⟨rest', rfl⟩ := List.head?_eq_some_iff.mp
              (List.head?_eq_getElem?.trans hnext)
            rw [hstar]
            exact ⟨rest', rfl⟩
          rw [if_pos hnext]
          constructor
          · intro _
            exact .inl hpair
          · intro _
            split
            · exact ⟨_, List.mem_cons_self, .inr rfl⟩
            · exact ⟨_, List.mem_cons_self, .inl rfl⟩
        · rw [if_neg hnext, ← ih]
          constructor
          · rintro ⟨token, htoken, hwide⟩
            rcases List.mem_cons.mp htoken with rfl | htoken
            · rcases hwide with h | h <;> cases h
            · exact .inr ⟨token, htoken, hwide⟩
          · rintro (⟨rest', h⟩ | ⟨token, htoken, hwide⟩)
            · obtain ⟨-, rfl⟩ := List.cons_eq_cons.mp h
              exact absurd rfl hnext
            · exact ⟨token, List.mem_cons_of_mem _ htoken, hwide⟩
      · rw [if_neg hstar]
        have hnarrow : ∀ token, ¬ GlobToken.IsWide token →
            ((∃ t ∈ token :: globTokensFrom 0 rest, t.IsWide) ↔
              [codeUnit '*', codeUnit '*'] <+: c :: rest ∨
                [codeUnit '*', codeUnit '*'] <:+: rest) := by
          intro token hnot
          rw [← ih]
          constructor
          · rintro ⟨t, ht, hwide⟩
            rcases List.mem_cons.mp ht with rfl | ht
            · exact absurd hwide hnot
            · exact .inr ⟨t, ht, hwide⟩
          · rintro (⟨rest', h⟩ | ⟨t, ht, hwide⟩)
            · exact absurd (List.cons_eq_cons.mp h).1.symm hstar
            · exact ⟨t, List.mem_cons_of_mem _ ht, hwide⟩
        split
        · apply hnarrow
          rintro (h | h) <;> cases h
        · apply hnarrow
          rintro (h | h) <;> cases h

/-- A part that is not wide means what its term matches. -/
theorem language_term {token : GlobToken} (h : ¬ token.IsWide) :
  token.term.language = token.language
  := by
  cases token with
  | any => exact absurd (.inl rfl) h
  | segments => exact absurd (.inr rfl) h
  | literal c =>
      ext s
      constructor
      · rintro ⟨d, rfl, hd⟩
        have hdc : d = c := by simpa [Atom.accepts] using hd
        rw [hdc]
        rfl
      · rintro rfl
        exact ⟨c, rfl, by simp [Atom.accepts]⟩
  | one =>
      ext s
      constructor
      · rintro ⟨d, rfl, hd⟩
        exact ⟨d, rfl, by simpa [Atom.accepts] using hd⟩
      · rintro ⟨d, rfl, hd⟩
        exact ⟨d, rfl, by simpa [Atom.accepts] using hd⟩
  | run =>
      ext s
      constructor
      · intro h hslash
        have hc := h _ hslash
        simp [Atom.accepts] at hc
      · intro h c hc
        have hne : c ≠ codeUnit '/' := fun heq => h (heq ▸ hc)
        simpa [Atom.accepts] using hne

theorem language_terms {tokens : List GlobToken} (h : ∀ token ∈ tokens, ¬ token.IsWide) :
  language (tokens.map GlobToken.term) = (tokens.map GlobToken.language).prod
  := by
  unfold language
  rw [List.map_map]
  apply congrArg List.prod
  apply List.map_congr_left
  intro token htoken
  exact language_term (h token htoken)

/-! ### Patterns with `**` -/

/-- How often a newline stands right before a slash. -/
def breaks : List CodeUnit → Nat
  | [] => 0
  | a :: s => (if a = codeUnit '\n' ∧ s.head? = some (codeUnit '/') then 1 else 0) + breaks s

theorem breaks_cons_le (a : CodeUnit) (s : List CodeUnit) :
  breaks (a :: s) ≤ 1 + breaks s
  := by
  rw [breaks]
  split <;> omega

theorem le_breaks_cons (a : CodeUnit) (s : List CodeUnit) :
  breaks s ≤ breaks (a :: s)
  := by
  rw [breaks]
  omega

theorem le_breaks_append (front back : List CodeUnit) :
  breaks back ≤ breaks (front ++ back)
  := by
  induction front with
  | nil => exact le_rfl
  | cons a front ih => exact le_trans ih (le_breaks_cons a (front ++ back))

/-- Characters that are not both a newline and a slash end at most one break. -/
theorem breaks_append_le {front : List CodeUnit}
    (h : codeUnit '\n' ∉ front ∨ codeUnit '/' ∉ front) (back : List CodeUnit) :
  breaks (front ++ back) ≤ 1 + breaks back
  := by
  induction front with
  | nil => rw [List.nil_append]; omega
  | cons a front ih =>
      cases front with
      | nil => exact breaks_cons_le a back
      | cons b front =>
          have hrest := ih (by
            rcases h with h | h
            · exact .inl (List.not_mem_of_not_mem_cons h)
            · exact .inr (List.not_mem_of_not_mem_cons h))
          have hnone : ¬ (a = codeUnit '\n' ∧
              (b :: front ++ back).head? = some (codeUnit '/')) := by
            rintro ⟨rfl, hslash⟩
            obtain rfl := Option.some.inj hslash
            rcases h with h | h
            · exact h List.mem_cons_self
            · exact h (List.mem_cons_of_mem _ List.mem_cons_self)
          rw [List.cons_append, breaks, if_neg hnone, Nat.zero_add]
          exact hrest

/-- The regular expression of a pattern matches at most as many breaks as it has terms. -/
theorem breaks_le_length {tokens : List GlobToken} {s : List CodeUnit}
    (h : s ∈ language (tokens.map GlobToken.term)) :
  breaks s ≤ tokens.length
  := by
  induction tokens generalizing s with
  | nil =>
      rw [(Language.mem_one s).mp h]
      exact le_rfl
  | cons token tokens ih =>
      obtain ⟨front, hfront, back, hback, rfl⟩ := Language.mem_mul.mp h
      have hrest := ih hback
      have hdot : ∀ {front : List CodeUnit}, front ∈ (Term.many .dot).language →
          codeUnit '\n' ∉ front := by
        intro front hfront hnewline
        have haccepts := hfront _ hnewline
        revert haccepts
        decide
      have hfront : codeUnit '\n' ∉ front ∨ codeUnit '/' ∉ front := by
        cases token with
        | any => exact .inl (hdot hfront)
        | segments => exact .inl (hdot hfront)
        | run =>
            right
            intro hslash
            have haccepts := hfront _ hslash
            revert haccepts
            decide
        | one =>
            obtain ⟨c, rfl, hc⟩ := hfront
            right
            intro hslash
            rw [← List.mem_singleton.mp hslash] at hc
            revert hc
            decide
        | literal d =>
            obtain ⟨c, rfl, -⟩ := hfront
            by_cases hslash : c = codeUnit '/'
            · left
              rw [hslash]
              decide
            · right
              rw [List.mem_singleton]
              exact Ne.symm hslash
      rw [List.length_cons]
      have hboth := breaks_append_le hfront back
      omega

/-- `n` folders that are named by a newline. -/
def newlineFolders : Nat → List CodeUnit
  | 0 => []
  | n + 1 => codeUnit '\n' :: codeUnit '/' :: newlineFolders n

theorem le_breaks_newlineFolders (n : Nat) (back : List CodeUnit) :
  n ≤ breaks (newlineFolders n ++ back)
  := by
  induction n with
  | zero => apply Nat.zero_le
  | succ n ih =>
      have hrest := le_breaks_cons (codeUnit '/') (newlineFolders n ++ back)
      rw [newlineFolders, List.cons_append, List.cons_append, breaks, if_pos ⟨rfl, rfl⟩]
      omega

theorem newlineFolders_mem (n : Nat) {token : GlobToken} (h : token.IsWide) :
  newlineFolders n ∈ token.language
  := by
  rcases h with rfl | rfl
  · trivial
  · induction n with
    | zero => exact Language.nil_mem_kstar _
    | succ n ih =>
        obtain ⟨parts, hparts, hall⟩ := Language.mem_kstar.mp ih
        apply Language.mem_kstar.mpr
        refine ⟨[codeUnit '\n', codeUnit '/'] :: parts, ?_, ?_⟩
        · rw [List.flatten_cons, ← hparts]
          rfl
        · intro part hpart
          rcases List.mem_cons.mp hpart with rfl | hpart
          · exact ⟨[codeUnit '\n'], by decide, rfl⟩
          · exact hall part hpart

/-- Every part stands for something. -/
theorem exists_mem_language (token : GlobToken) :
  ∃ s, s ∈ token.language
  := by
  cases token with
  | literal c => exact ⟨[c], rfl⟩
  | one => exact ⟨[codeUnit 'a'], codeUnit 'a', rfl, by decide⟩
  | run => exact ⟨[], nofun⟩
  | any => exact ⟨[], trivial⟩
  | segments => exact ⟨[], Language.nil_mem_kstar _⟩

theorem exists_mem_prod (tokens : List GlobToken) :
  ∃ s, s ∈ (tokens.map GlobToken.language).prod
  := by
  induction tokens with
  | nil => exact ⟨[], rfl⟩
  | cons token tokens ih =>
      obtain ⟨front, hfront⟩ := exists_mem_language token
      obtain ⟨back, hback⟩ := ih
      exact ⟨front ++ back, Language.append_mem_mul hfront hback⟩

/-- A pattern with a wide part stands for a path that its regular expression does not match. -/
theorem exists_unmatched {tokens : List GlobToken} (h : ∃ token ∈ tokens, token.IsWide) :
  ∃ s ∈ (tokens.map GlobToken.language).prod, s ∉ language (tokens.map GlobToken.term)
  := by
  obtain ⟨token, htoken, hwide⟩ := h
  obtain ⟨before, after, rfl⟩ := List.append_of_mem htoken
  obtain ⟨front, hfront⟩ := exists_mem_prod before
  obtain ⟨back, hback⟩ := exists_mem_prod after
  let folders := newlineFolders ((before ++ token :: after).length + 1)
  refine ⟨front ++ (folders ++ back), ?_, ?_⟩
  · rw [List.map_append, List.prod_append, List.map_cons, List.prod_cons]
    apply Language.append_mem_mul hfront
    exact Language.append_mem_mul (newlineFolders_mem _ hwide) hback
  · intro hmatched
    have hfew := breaks_le_length hmatched
    have hmany := le_trans (le_breaks_newlineFolders _ back) (le_breaks_append front (folders ++ back))
    omega

/-- The regular expression of a pattern matches exactly the language of the pattern when and
only when the pattern has no `**`. -/
theorem glob_language_iff (pattern : List CodeUnit) :
  (∀ path, globTest pattern path = true ↔ path ∈ globLanguage pattern) ↔
    ¬ [codeUnit '*', codeUnit '*'] <:+: pattern
  := by
  rw [← exists_wide_iff]
  constructor
  · intro h hwide
    obtain ⟨path, hpath, hunmatched⟩ := exists_unmatched hwide
    exact hunmatched (globTest_iff.mp ((h path).mpr hpath))
  · intro h path
    rw [globTest_iff, language_terms]
    · rfl
    · intro token htoken hwide
      exact h ⟨token, htoken, hwide⟩

/-- `**` does not match a name with a newline, and `**/b` matches `ab`. -/
theorem glob_differs :
  (globTest (codeUnits "**") (codeUnits "a\nb") = false ∧
    codeUnits "a\nb" ∈ globLanguage (codeUnits "**")) ∧
  globTest (codeUnits "**/b") (codeUnits "ab") = true ∧
    codeUnits "ab" ∉ globLanguage (codeUnits "**/b")
  := by
  refine ⟨⟨by decide +kernel, ?_⟩, by decide +kernel, ?_⟩
  · apply Language.mem_mul.mpr
    exact ⟨codeUnits "a\nb", trivial, [], rfl, rfl⟩
  · intro h
    obtain ⟨front, hfront, back, hback, happend⟩ := Language.mem_mul.mp h
    obtain ⟨b, rfl, last, rfl, rfl⟩ := Language.mem_mul.mp hback
    obtain ⟨parts, rfl, hparts⟩ := Language.mem_kstar.mp hfront
    have hfolder : parts.flatten = [codeUnit 'a'] :=
      @List.append_cancel_right _ parts.flatten ([codeUnit 'b'] ++ []) _ happend
    cases parts with
    | nil => cases hfolder
    | cons part parts =>
        obtain ⟨name, -, rfl⟩ := hparts part List.mem_cons_self
        have hslash : codeUnit '/' ∈ [codeUnit 'a'] := by
          rw [← hfolder, List.flatten_cons]
          simp
        revert hslash
        decide

end AgentFs
