import Mathlib.Data.List.Nodup
import Mathlib.Data.List.Perm.Subperm
import AgentFs.Context
import AgentFs.Lib.SqlLexer
import AgentFs.Ops.Content

/-!
# Path literals in queries

`ops/sql.ts` binds the files that a query names after `FROM` or `JOIN` to tables of their own and
puts the names of the tables in their place.  The literals are found by a regular expression that
reads the text of the query and not its tokens.
-/

namespace AgentFs

open SqlLexer

/-! ### Formats -/

inductive SqlFormat where
  | csv
  | tsv
  | parquet
  | xlsx
  | json
  | ndjson
  | sqlite
  | duckdb
  /-- What `EXT_FORMATS` inherits from `Object.prototype`. -/
  | inherited
  deriving DecidableEq, Repr

/-- `EXT_FORMATS`, with the names in small letters that every object has. -/
def extFormats : List (Text × SqlFormat) :=
  [("csv".toList, .csv), ("tsv".toList, .tsv), ("tab".toList, .tsv), ("parquet".toList, .parquet),
    ("xlsx".toList, .xlsx), ("json".toList, .json), ("jsonl".toList, .ndjson),
    ("ndjson".toList, .ndjson), ("db".toList, .sqlite), ("sqlite".toList, .sqlite),
    ("sqlite3".toList, .sqlite), ("duckdb".toList, .duckdb),
    ("constructor".toList, .inherited), ("__proto__".toList, .inherited)]

def fileFormats : List SqlFormat :=
  [.csv, .tsv, .parquet, .xlsx, .json, .ndjson]

def gzippable : List SqlFormat :=
  [.csv, .tsv, .json, .ndjson]

/-- `toLowerCase` of a character, where the result is a letter of ASCII; the Kelvin sign is one
of those. -/
def lowerChar (c : Char) : Char :=
  if c = '\u212A' then 'k' else c.toLower

def lowerCase (text : Text) : Text :=
  text.map lowerChar

structure DetectedFormat where
  format : SqlFormat
  gzip : Bool
  deriving DecidableEq, Repr

/-- The last segment of a path. -/
def fileName (path : Text) : Text :=
  (path.splitOn '/').getLastD []

def detectSqlFormat (path : Text) : Option DetectedFormat :=
  match ((fileName (lowerCase path)).splitOn '.').reverse with
  | ext :: ext' :: parts =>
      let gzip : Bool := ext = "gz".toList ∧ parts ≠ []
      match extFormats.lookup (if gzip then ext' else ext) with
      | none => none
      | some format => if gzip ∧ format ∉ gzippable then none else some ⟨format, gzip⟩
  | _ => none

/-- `isGzip`. -/
def isGzip (path : Text) (format : SqlFormat) : Bool :=
  ".gz".toList.isSuffixOf (path.map Char.toLower) ∧ format ∈ gzippable

/-! ### Bindings -/

structure Binding where
  table : Text
  path : Text
  format : SqlFormat
  gzip : Bool
  autoBound : Bool
  size : Nat
  deriving DecidableEq, Repr

/-- An entry of `params.tables`. -/
inductive TableValue where
  | path (path : Text)
  | file (path : Text) (format : Option SqlFormat)
  deriving DecidableEq, Repr

structure SqlParams where
  query : Text
  tables : List (Text × TableValue) := []
  deriving DecidableEq, Repr

/-- `TABLE_NAME_RE`. -/
def isTableName : Text → Bool
  | [] => false
  | c :: rest => (c.isAlpha || c = '_') && rest.all isWordChar

def findFileByPath (db : Db) (driveId path : Text) : Option (Text × Nat) :=
  ((db.filesOf driveId path).find? (fun file => !file.isDeleted)).map
    (fun file => (file.path, file.size))

/-- One round of the first loop of `collectBindings`. -/
def bindTable (db : Db) (driveId : Text) (usedNames : List Text) (name : Text)
    (value : TableValue) : Except OpError Binding :=
  if isTableName name = false then
    .error (.validation {
      message := "Invalid table name: " ++ String.ofList name
      field := "tables"
      suggestion := "Table names must match [A-Za-z_][A-Za-z0-9_]*" })
  else if lowerCase name ∈ usedNames then
    .error (.validation {
      message := "Duplicate table name: " ++ String.ofList name
      field := "tables" })
  else
    let path := normalizePath (match value with
      | .path path => path
      | .file path _ => path)
    let explicitFormat := match value with
      | .path _ => none
      | .file _ format => format
    match explicitFormat.or ((detectSqlFormat path).map DetectedFormat.format) with
    | none =>
        .error (.validation {
          message := "Cannot infer format for " ++ String.ofList path
          field := "tables"
          suggestion := "Pass an explicit format: \x7b path, format: \"csv\" | \"tsv\" | " ++
            "\"parquet\" | \"xlsx\" | \"json\" | \"ndjson\" | \"sqlite\" | \"duckdb\" \x7d" })
    | some format =>
        match findFileByPath db driveId path with
        | none =>
            .error (.notFound {
              message := "File not found: " ++ String.ofList path
              path := some path })
        | some file => .ok ⟨name, path, format, isGzip path format, false, file.2⟩

/-- The first loop of `collectBindings`: the bindings and the names that are then in use. -/
def bindTables (db : Db) (driveId : Text) (usedNames : List Text) :
    List (Text × TableValue) → Except OpError (List Binding × List Text)
  | [] => .ok ([], usedNames)
  | (name, value) :: rest =>
      match bindTable db driveId usedNames name value with
      | .error e => .error e
      | .ok binding =>
          match bindTables db driveId (lowerCase name :: usedNames) rest with
          | .error e => .error e
          | .ok (bindings, usedNames) => .ok (binding :: bindings, usedNames)

/-! ### The pattern -/

/-- A match of `FROM_JOIN_PATH_RE`. -/
structure PathMatch where
  keyword : Text
  space : Text
  quote : Char
  raw : Text
  deriving DecidableEq, Repr

def PathMatch.text (m : PathMatch) : Text :=
  m.keyword ++ (m.space ++ m.quote :: (m.raw ++ [m.quote]))

/-- `from|join` in letters of either case. -/
def isFromOrJoin (word : Text) : Bool :=
  word.map Char.toLower = "from".toList ∨ word.map Char.toLower = "join".toList

/-- The end of the pattern between the quotes: a character, a dot and letters or digits.  A
further `.gz` is such an end itself. -/
def hasExtension (raw : Text) : Bool :=
  match raw.reverse.dropWhile Char.isAlphanum with
  | '.' :: _ :: _ => raw.getLast?.any Char.isAlphanum
  | _ => false

/-- The match at the start of a text, after a character or at the start of the query. -/
def matchAt (prev : Option Char) (text : Text) : Option PathMatch :=
  let keyword := text.take 4
  let space := (text.drop 4).takeWhile isSpace
  match (text.drop 4).dropWhile isSpace with
  | [] => none
  | quote :: rest =>
      let raw := rest.takeWhile (fun c => !isQuote c)
      if prev.all (fun c => !isWordChar c) ∧ isFromOrJoin keyword ∧ space ≠ [] ∧ isQuote quote ∧
          (rest.dropWhile (fun c => !isQuote c)).head? = some quote ∧ hasExtension raw then
        some ⟨keyword, space, quote, raw⟩
      else none

/-- A part of a query: a match, or a character that is in none. -/
inductive Piece where
  | char (c : Char)
  | found (m : PathMatch)
  deriving DecidableEq, Repr

def Piece.text : Piece → Text
  | .char c => [c]
  | .found m => m.text

def piecesText (pieces : List Piece) : Text :=
  pieces.flatMap Piece.text

/-- The parts of a text after `skip` characters. -/
def scan (prev : Option Char) : Nat → Text → List Piece
  | _, [] => []
  | skip + 1, c :: rest => scan (some c) skip rest
  | 0, c :: rest =>
      match matchAt prev (c :: rest) with
      | some m => .found m :: scan (some c) (m.text.length - 1) rest
      | none => .char c :: scan (some c) 0 rest

/-- The query as the global pattern divides it. -/
def pieces (query : Text) : List Piece :=
  scan none 0 query

/-! ### Rewriting -/

/-- The name that is tried with a number. -/
def docName (docIdx : Nat) : Text :=
  "doc_".toList ++ decimal docIdx

/-- The first name from a number on that is not in use, and the number after its own; at most
`fuel` names are in use. -/
def nextDocName (usedNames : List Text) : Nat → Nat → Text × Nat
  | 0, docIdx => (docName docIdx, docIdx + 1)
  | fuel + 1, docIdx =>
      if docName docIdx ∈ usedNames then nextDocName usedNames fuel (docIdx + 1)
      else (docName docIdx, docIdx + 1)

/-- The variables of the second loop of `collectBindings`. -/
structure AutoBinding where
  bindings : List Binding
  seenPaths : List Text
  usedNames : List Text
  docIdx : Nat

/-- One round of the second loop of `collectBindings`. -/
def autoBind (db : Db) (driveId : Text) (s : AutoBinding) (raw : Text) : AutoBinding :=
  match detectSqlFormat raw with
  | none => s
  | some detected =>
      if detected.format ∉ fileFormats then s
      else
        let path := normalizePath raw
        if path ∈ s.seenPaths then s
        else
          match findFileByPath db driveId path with
          | none => { s with seenPaths := path :: s.seenPaths }
          | some file =>
              let (name, docIdx) := nextDocName s.usedNames s.usedNames.length s.docIdx
              { bindings := s.bindings ++
                  [⟨name, path, detected.format, detected.gzip, true, file.2⟩]
                seenPaths := path :: s.seenPaths
                usedNames := name :: s.usedNames
                docIdx := docIdx }

/-- The text between the quotes of a match. -/
def Piece.raw? : Piece → Option Text
  | .char _ => none
  | .found m => some m.raw

def collectBindings (db : Db) (driveId : Text) (params : SqlParams) :
    Except OpError (List Binding) :=
  match bindTables db driveId [] params.tables with
  | .error e => .error e
  | .ok (bindings, usedNames) =>
      .ok (((pieces params.query).filterMap Piece.raw?).foldl (autoBind db driveId)
        ⟨bindings, [], usedNames, 1⟩).bindings

/-- `qid`. -/
def qid (name : Text) : Text :=
  '"' :: name.flatMap (fun c => if c = '"' then ['"', '"'] else [c]) ++ ['"']

/-- `autoBound.get(path)`: of bindings with one path the last counts. -/
def autoTable (bindings : List Binding) (path : Text) : Option Text :=
  (bindings.reverse.find? (fun b => b.autoBound ∧ b.path = path)).map Binding.table

def rewritePiece (bindings : List Binding) : Piece → Text
  | .char c => [c]
  | .found m =>
      match autoTable bindings (normalizePath m.raw) with
      | some table => if table = [] then m.text else m.keyword ++ ' ' :: qid table
      | none => m.text

def rewriteQuery (bindings : List Binding) (query : Text) : Text :=
  (pieces query).flatMap (rewritePiece bindings)

/-! ### Table positions -/

/-- `FROM` or `JOIN` is the last of the tokens other than white space and comments. -/
def InTablePosition (before : List Token) : Prop :=
  ∃ first keyword gap, before = first ++ .word keyword :: gap ∧ isFromOrJoin keyword = true ∧
    ∀ token ∈ gap, token.isBlank = true

/-- The path has the extension of a plain file that can be read. -/
def IsReadable (path : Text) : Prop :=
  ∃ detected, detectSqlFormat path = some detected ∧ detected.format ∈ fileFormats

/-- A literal with this value names a live file that is read as a plain file. -/
def NamesLiveFile (db : Db) (driveId value : Text) : Prop :=
  IsReadable value ∧ (findFileByPath db driveId (normalizePath value)).isSome = true

/-- After `before`, a keyword and the literal that follows it are replaced by the keyword and the
identifier of the table of the path. -/
def ReplacesAfter (bindings : List Binding) (query before : Text) (m : PathMatch) : Prop :=
  ∃ first last, pieces query = first ++ .found m :: last ∧ piecesText first = before ∧
    ∃ b ∈ bindings, b.autoBound = true ∧ b.path = normalizePath m.raw ∧
      rewritePiece bindings (.found m) = m.keyword ++ ' ' :: qid b.table

/-- The rewriting touches literals in table positions only, and all of them. -/
structure TouchesTablePositions (db : Db) (driveId : Text) (params : SqlParams)
    (bindings : List Binding) : Prop where
  /-- The rewritten query is the query in pieces, some of them rewritten. -/
  divided : piecesText (pieces params.query) = params.query ∧
    rewriteQuery bindings params.query =
      (pieces params.query).flatMap (rewritePiece bindings)
  /-- A piece that is changed is a keyword, white space and a literal among the tokens; the
  literal becomes the identifier of the table of its path. -/
  changed : ∀ first piece last, pieces params.query = first ++ piece :: last →
    rewritePiece bindings piece ≠ piece.text →
    ∃ m before after, piece = .found m ∧ isFromOrJoin m.keyword = true ∧
      lex params.query =
        before ++ .word m.keyword :: .space m.space :: .quoted m.quote m.raw true :: after ∧
      textOf before = piecesText first ∧
      ReplacesAfter bindings params.query (piecesText first) m
  /-- Every literal in table position that names a live readable file is replaced. -/
  every : ∀ before quote body after,
    lex params.query = before ++ .quoted quote body true :: after → InTablePosition before →
    NamesLiveFile db driveId (undouble quote body) →
    ∃ text keyword space, textOf before = text ++ (keyword ++ space) ∧
      ReplacesAfter bindings params.query text ⟨keyword, space, quote, body⟩
  /-- No name of an automatic binding is a given one. -/
  names : ∀ b ∈ bindings, b.autoBound = true → ∀ entry ∈ params.tables,
    lowerCase entry.1 ≠ lowerCase b.table

/-- What the pattern says about a match. -/
structure PathMatch.Fits (m : PathMatch) : Prop where
  keyword : isFromOrJoin m.keyword = true
  space : m.space ≠ [] ∧ ∀ c ∈ m.space, isSpace c = true
  quote : isQuote m.quote = true
  raw : ∀ c ∈ m.raw, isQuote c = false
  extension : hasExtension m.raw = true

/-- The pattern matches between two texts. -/
structure MatchesAt (query before : Text) (m : PathMatch) (after : Text) : Prop where
  text : query = before ++ (m.text ++ after)
  boundary : ∀ c, before.getLast? = some c → isWordChar c = false
  fits : m.Fits

/-- The pattern and the tokens agree on the literals that name live files. -/
structure PlainLiterals (db : Db) (driveId query : Text) : Prop where
  /-- The pattern matches from the start of a token on, and not before a doubled quote. -/
  aligned : ∀ before m after, MatchesAt query before m after → NamesLiveFile db driveId m.raw →
    (∃ tokens rest, lex query = tokens ++ rest ∧ textOf tokens = before) ∧
      after.head? ≠ some m.quote
  /-- A literal in table position has nothing but white space between itself and the keyword, no
  quotes in it, and more than an extension. -/
  plain : ∀ before quote body after, lex query = before ++ .quoted quote body true :: after →
    InTablePosition before → NamesLiveFile db driveId (undouble quote body) →
    (∃ first keyword space, before = first ++ [.word keyword, .space space] ∧
      isFromOrJoin keyword = true) ∧
    (∀ c ∈ body, isQuote c = false) ∧ hasExtension body = true

/-! ### Matches -/

theorem isWordChar_of_toLower {c : Char} (h : isWordChar c.toLower = true) :
  isWordChar c = true
  := by
  unfold Char.toLower at h
  split at h
  · rename_i hupper
    have hcode : c.isUpper = true := decide_eq_true hupper
    have halpha : c.isAlpha = true := (Bool.or_eq_true _ _).mpr (.inl hcode)
    have halphanum : c.isAlphanum = true := (Bool.or_eq_true _ _).mpr (.inl halpha)
    rw [isWordChar, halphanum, Bool.true_or]
  · exact h

/-- A keyword is a word of four letters. -/
theorem isFromOrJoin_spec {word : Text} (h : isFromOrJoin word = true) :
  word.length = 4 ∧ ∀ c ∈ word, isWordChar c = true ∧ c ≠ 'e' ∧ c ≠ 'E'
  := by
  have hletters : ∀ small : Text, small.all (fun d => isWordChar d && d ≠ 'e') = true →
      word.map Char.toLower = small →
      word.length = small.length ∧ ∀ c ∈ word, isWordChar c = true ∧ c ≠ 'e' ∧ c ≠ 'E' := by
    rintro small hsmall rfl
    refine ⟨(List.length_map _).symm, fun c hc => ?_⟩
    have hlower := List.all_eq_true.mp hsmall c.toLower (List.mem_map_of_mem hc)
    rw [Bool.and_eq_true, decide_eq_true_eq] at hlower
    refine ⟨isWordChar_of_toLower hlower.1, ?_, ?_⟩
    · rintro rfl
      exact hlower.2 rfl
    · rintro rfl
      exact hlower.2 rfl
  unfold isFromOrJoin at h
  obtain h | h := of_decide_eq_true h
  · exact hletters _ (by decide) h
  · exact hletters _ (by decide) h

theorem hasExtension_spec {raw : Text} (h : hasExtension raw = true) :
  '.' ∈ raw ∧ ∃ c, raw.getLast? = some c ∧ c.isAlphanum = true
  := by
  unfold hasExtension at h
  split at h
  · rename_i d rest hdot
    refine ⟨?_, ?_⟩
    · rw [← List.mem_reverse]
      exact (List.dropWhile_sublist _).subset (hdot ▸ List.mem_cons_self)
    · cases hlast : raw.getLast? with
      | none =>
          rw [hlast] at h
          cases h
      | some c =>
          rw [hlast] at h
          exact ⟨c, rfl, h⟩
  · cases h

theorem matchAt_sound {prev : Option Char} {text : Text} {m : PathMatch}
    (h : matchAt prev text = some m) :
  m.Fits ∧ (∀ c, prev = some c → isWordChar c = false) ∧ ∃ after, text = m.text ++ after
  := by
  unfold matchAt at h
  dsimp only at h
  split at h
  · cases h
  · rename_i quote rest hrest
    split at h
    · rename_i hmatch
      obtain ⟨hprev, hkeyword, hspace, hquote, hclosed, hextension⟩ := hmatch
      obtain rfl := Option.some.inj h
      refine ⟨⟨hkeyword, ⟨hspace, ?_⟩, hquote, ?_, hextension⟩, ?_, ?_⟩
      · intro c hc
        exact List.mem_takeWhile_imp hc
      · intro c hc
        simpa using List.mem_takeWhile_imp hc
      · rintro c rfl
        simpa using hprev
      · obtain ⟨after, hafter⟩ := List.head?_eq_some_iff.mp hclosed
        use after
        have htake : rest.takeWhile (fun c => !isQuote c) ++ quote :: after = rest := by
          rw [← hafter, List.takeWhile_append_dropWhile]
        have hdrop : (text.drop 4).takeWhile isSpace ++ quote :: rest = text.drop 4 := by
          rw [← hrest, List.takeWhile_append_dropWhile]
        simp only [PathMatch.text, List.append_assoc, List.cons_append, List.nil_append]
        rw [htake, hdrop, List.take_append_drop]
    · cases h

theorem matchAt_complete {prev : Option Char} {m : PathMatch} (after : Text) (h : m.Fits)
    (hprev : ∀ c, prev = some c → isWordChar c = false) :
  matchAt prev (m.text ++ after) = some m
  := by
  have htext : m.text ++ after =
      m.keyword ++ (m.space ++ m.quote :: (m.raw ++ m.quote :: after)) := by
    simp [PathMatch.text]
  have hlength := (isFromOrJoin_spec h.keyword).1
  have hspace := span_of_all (m.quote :: (m.raw ++ m.quote :: after)) h.space.2 (by
    intro c hc
    cases hc
    exact isSpace_eq_false_of_isQuote h.quote)
  have hraw := span_of_all (p := fun c => !isQuote c) (m.quote :: after)
    (fun c hc => by rw [h.raw c hc]; rfl) (by
      intro c hc
      cases hc
      rw [h.quote]
      rfl)
  have hboundary : prev.all (fun c => !isWordChar c) = true := by
    cases prev with
    | none => rfl
    | some c => simp [hprev c rfl]
  rw [htext, matchAt, List.drop_left' hlength, List.take_left' hlength, hspace.2, hspace.1]
  simp only [hraw.1, hraw.2]
  rw [if_pos ⟨hboundary, h.keyword, h.space.1, h.quote, rfl, h.extension⟩]

theorem PathMatch.text_eq (m : PathMatch) :
  m.text = m.keyword ++ (m.space ++ m.quote :: (m.raw ++ [m.quote]))
  := rfl

theorem PathMatch.Fits.keyword_ne_nil {m : PathMatch} (h : m.Fits) :
  ∃ c rest, m.keyword = c :: rest ∧ isWordChar c = true
  := by
  obtain ⟨hlength, hchars⟩ := isFromOrJoin_spec h.keyword
  cases hkeyword : m.keyword with
  | nil =>
      rw [hkeyword] at hlength
      cases hlength
  | cons c rest =>
      refine ⟨c, rest, rfl, (hchars c ?_).1⟩
      rw [hkeyword]
      apply List.mem_cons_self

theorem isQuote_eq_false_of_isWordChar {c : Char} (h : isWordChar c = true) :
  isQuote c = false
  := by
  rw [Bool.eq_false_iff]
  intro hquote
  rw [isQuote, Bool.or_eq_true, decide_eq_true_eq, decide_eq_true_eq] at hquote
  obtain rfl | rfl := hquote
  · cases h
  · cases h

/-- The text before the first quote is determined. -/
theorem first_quote_unique {l l' r r' : Text} {q q' : Char} (hl : ∀ c ∈ l, isQuote c = false)
    (hl' : ∀ c ∈ l', isQuote c = false) (hq : isQuote q = true) (hq' : isQuote q' = true)
    (h : l ++ q :: r = l' ++ q' :: r') :
  l = l'
  := by
  have hspan : ∀ {l r : Text} {q : Char}, (∀ c ∈ l, isQuote c = false) → isQuote q = true →
      (l ++ q :: r).takeWhile (fun c => !isQuote c) = l := by
    intro l r q hl hq
    refine (span_of_all (q :: r) (fun c hc => ?_) ?_).1
    · rw [hl c hc]
      rfl
    · rintro c hc
      cases hc
      rw [hq]
      rfl
  rw [← hspan (r := r) hl hq, h, hspan hl' hq']

/-- Up to the quote of a match there is no quote. -/
theorem PathMatch.Fits.no_quote {m : PathMatch} (h : m.Fits) :
  ∀ c ∈ m.keyword ++ m.space, isQuote c = false
  := by
  intro c hc
  obtain hc | hc := List.mem_append.mp hc
  · exact isQuote_eq_false_of_isWordChar ((isFromOrJoin_spec h.keyword).2 c hc).1
  · rw [Bool.eq_false_iff]
    intro hquote
    have hspace := isSpace_eq_false_of_isQuote hquote
    rw [h.space.2 c hc] at hspace
    cases hspace

/-- A word that starts inside a match starts inside its path. -/
theorem PathMatch.Fits.cut_in_raw {m : PathMatch} (h : m.Fits) {before cut : Text} {d : Char}
    (hne : before ≠ []) (hboundary : ∀ c, before.getLast? = some c → isWordChar c = false)
    (hd : isWordChar d = true) (hcut : m.text = before ++ d :: cut) :
  ∃ start tail, m.raw = start ++ tail ∧ d :: cut = tail ++ [m.quote]
  := by
  have hdQuote : d ≠ m.quote := by
    rintro rfl
    have hquote := isQuote_eq_false_of_isWordChar hd
    rw [h.quote] at hquote
    cases hquote
  rw [PathMatch.text_eq] at hcut
  obtain ⟨rest, -, hrest⟩ | ⟨rest, hkeyword, -⟩ := List.append_eq_append_iff.mp hcut
  swap
  · -- the text before would end inside the keyword
    obtain ⟨c, hc⟩ := Option.isSome_iff_exists.mp (List.getLast?_isSome.mpr hne)
    have hword := ((isFromOrJoin_spec h.keyword).2 c (by
      rw [hkeyword]
      exact List.mem_append_left _ (List.mem_of_getLast? hc))).1
    rw [hboundary c hc] at hword
    cases hword
  obtain ⟨rest', -, hrest'⟩ | ⟨rest', hspace, hd'⟩ := List.append_eq_append_iff.mp hrest
  swap
  · -- `d` would be in the white space or be the first quote
    cases rest' with
    | nil => exact absurd (List.cons.inj hd').1 hdQuote
    | cons c rest' =>
        obtain rfl := (List.cons.inj hd').1
        have hspace := h.space.2 d (by
          rw [hspace]
          exact List.mem_append_right _ List.mem_cons_self)
        rw [isWordChar_eq_false_of_isSpace hspace] at hd
        cases hd
  cases rest' with
  | nil => exact absurd (List.cons.inj hrest').1.symm hdQuote
  | cons c rest' =>
      obtain ⟨tail, -, htail⟩ | ⟨tail, htail, hend⟩ :=
        List.append_eq_append_iff.mp (List.cons.inj hrest').2
      · -- `d` would be the last quote
        cases tail with
        | nil => exact absurd (List.cons.inj htail).1.symm hdQuote
        | cons c tail => simp at htail
      · exact ⟨rest', tail, htail, hend⟩

/-- A match does not reach into another one that starts at the start of a word. -/
theorem not_overlaps {before after after' : Text} {m m' : PathMatch} (h : m.Fits) (h' : m'.Fits)
    (hne : before ≠ []) (hboundary : ∀ c, before.getLast? = some c → isWordChar c = false)
    (heq : before ++ (m.text ++ after) = m'.text ++ after') :
  ∃ between, before = m'.text ++ between
  := by
  obtain ⟨cut, hcut, hafter⟩ | ⟨between, hbetween, -⟩ := List.append_eq_append_iff.mp heq
  swap
  · exact ⟨between, hbetween⟩
  cases cut with
  | nil =>
      use []
      rw [hcut, List.append_nil, List.append_nil]
  | cons d cut =>
      exfalso
      have hd : isWordChar d = true := by
        obtain ⟨c, rest, hkeyword, hc⟩ := h.keyword_ne_nil
        rw [PathMatch.text_eq, hkeyword] at hafter
        rw [← (List.cons.inj hafter).1]
        exact hc
      obtain ⟨start, tail, hraw, hend⟩ := h'.cut_in_raw hne hboundary hd hcut
      -- the path of `m'` would end with the white space before the quote of `m`
      rw [hend, PathMatch.text_eq] at hafter
      have hunique : m.keyword ++ m.space = tail := by
        apply first_quote_unique h.no_quote _ h.quote h'.quote
        · simpa using hafter
        · intro c hc
          apply h'.raw c
          rw [hraw]
          exact List.mem_append_right _ hc
      obtain ⟨e, hlast, halnum⟩ := (hasExtension_spec h'.extension).2
      obtain ⟨f, hf⟩ := Option.isSome_iff_exists.mp (List.getLast?_isSome.mpr h.space.1)
      rw [hraw, ← hunique, List.getLast?_append, List.getLast?_append, hf] at hlast
      obtain rfl : f = e := by simpa using hlast
      have hword := isWordChar_eq_false_of_isSpace (h.space.2 f (List.mem_of_getLast? hf))
      rw [isWordChar, halnum] at hword
      cases hword

/-! ### Pieces -/

theorem PathMatch.text_length_pos (m : PathMatch) :
  0 < m.text.length
  := by
  simp only [PathMatch.text_eq, List.length_append, List.length_cons]
  omega

theorem scan_succ (prev : Option Char) (skip : Nat) (c : Char) (rest : Text) :
  scan prev (skip + 1) (c :: rest) = scan (some c) skip rest
  := rfl

theorem scan_cons (prev : Option Char) (c : Char) (rest : Text) :
  scan prev 0 (c :: rest) = match matchAt prev (c :: rest) with
    | some m => .found m :: scan (some c) (m.text.length - 1) rest
    | none => .char c :: scan (some c) 0 rest
  := rfl

theorem scan_skip (prev : Option Char) (taken rest : Text) :
  scan prev taken.length (taken ++ rest) = scan (taken.getLast?.or prev) 0 rest
  := by
  induction taken generalizing prev with
  | nil => rfl
  | cons c taken ih =>
      rw [List.length_cons, List.cons_append, scan_succ, ih, List.getLast?_cons]
      cases taken.getLast? with
      | none => rfl
      | some d => rfl

theorem scan_nil (prev : Option Char) :
  scan prev 0 [] = []
  := rfl

theorem scan_of_none {prev : Option Char} {c : Char} {rest : Text}
    (h : matchAt prev (c :: rest) = none) :
  scan prev 0 (c :: rest) = .char c :: scan (some c) 0 rest
  := by
  rw [scan_cons, h]

theorem scan_of_some {prev : Option Char} {text after : Text} {m : PathMatch}
    (h : matchAt prev text = some m) (htext : text = m.text ++ after) :
  scan prev 0 text = .found m :: scan (some m.quote) 0 after
  := by
  have hm := m.text_length_pos
  obtain ⟨c, rest, hcons⟩ := List.exists_cons_of_length_pos hm
  rw [hcons, List.cons_append] at htext
  rw [htext] at h ⊢
  have hlast : m.text.getLast? = some m.quote := by
    rw [PathMatch.text_eq, List.getLast?_append, List.getLast?_append, ← List.cons_append,
      List.getLast?_concat]
    rfl
  rw [hcons, List.getLast?_cons] at hlast
  have hskip := scan_skip (some c) rest after
  rw [Option.or_some, hlast] at hskip
  rw [scan_cons, h]
  dsimp only
  rw [hcons, List.length_cons, Nat.add_sub_cancel, hskip]

theorem piecesText_cons (piece : Piece) (l : List Piece) :
  piecesText (piece :: l) = piece.text ++ piecesText l
  := List.flatMap_cons

theorem piecesText_scan (prev : Option Char) (text : Text) :
  piecesText (scan prev 0 text) = text
  := by
  induction hn : text.length using Nat.strong_induction_on generalizing prev text with
  | _ n ih =>
      cases text with
      | nil => rfl
      | cons c rest =>
          cases hmatch : matchAt prev (c :: rest) with
          | none =>
              rw [scan_of_none hmatch, piecesText_cons, ih _ (hn ▸ Nat.lt_succ_self _) _ _ rfl]
              rfl
          | some m =>
              obtain ⟨-, -, after, hafter⟩ := matchAt_sound hmatch
              have hlength := congrArg List.length hafter
              rw [List.length_append] at hlength
              have hpos := m.text_length_pos
              rw [scan_of_some hmatch hafter, piecesText_cons, ih _ (by omega) _ _ rfl, hafter]
              rfl

theorem getLast?_text_append (m : PathMatch) (text : Text) (prev : Option Char) :
  ((m.text ++ text).getLast?).or prev = text.getLast?.or (some m.quote)
  := by
  rw [PathMatch.text_eq, ← List.cons_append, ← List.append_assoc, ← List.append_assoc,
    List.append_assoc, List.getLast?_append, List.getLast?_append]
  cases text.getLast? with
  | none => rfl
  | some c => rfl

/-- Where a match is found, the pattern matches. -/
theorem matchesAt_of_scan {prev : Option Char} {text : Text} {first last : List Piece}
    {m : PathMatch} (h : scan prev 0 text = first ++ .found m :: last) :
  text = piecesText first ++ (m.text ++ piecesText last) ∧ m.Fits ∧
    ∀ c, (piecesText first).getLast?.or prev = some c → isWordChar c = false
  := by
  have htext : text = piecesText first ++ (m.text ++ piecesText last) := by
    have hscan := piecesText_scan prev text
    rw [h, piecesText, List.flatMap_append, List.flatMap_cons] at hscan
    exact hscan.symm
  refine ⟨htext, ?_⟩
  clear htext
  induction first generalizing prev text with
  | nil =>
      cases text with
      | nil => cases h
      | cons c rest =>
          cases hmatch : matchAt prev (c :: rest) with
          | none =>
              rw [scan_of_none hmatch] at h
              cases h
          | some m' =>
              obtain ⟨hfits, hprev, after, hafter⟩ := matchAt_sound hmatch
              rw [scan_of_some hmatch hafter] at h
              obtain rfl := Piece.found.inj (List.cons.inj h).1
              exact ⟨hfits, hprev⟩
  | cons piece first ih =>
      cases text with
      | nil => cases h
      | cons c rest =>
          cases hmatch : matchAt prev (c :: rest) with
          | none =>
              rw [scan_of_none hmatch] at h
              obtain ⟨hpiece, hrest⟩ := List.cons.inj h
              have ih := ih hrest
              rw [← hpiece, piecesText_cons, Piece.text, List.singleton_append,
                List.getLast?_cons]
              rw [Option.or_some] at ih
              exact ih
          | some m' =>
              obtain ⟨-, -, after, hafter⟩ := matchAt_sound hmatch
              rw [scan_of_some hmatch hafter] at h
              obtain ⟨hpiece, hrest⟩ := List.cons.inj h
              rw [← hpiece, piecesText_cons, Piece.text, getLast?_text_append]
              exact ih hrest

/-- Where the pattern matches, a match is found. -/
theorem scan_of_occurs (prev : Option Char) {before : Text} {m : PathMatch} (after : Text)
    (h : m.Fits)
    (hboundary : ∀ c, before.getLast?.or prev = some c → isWordChar c = false) :
  ∃ first last, scan prev 0 (before ++ (m.text ++ after)) = first ++ .found m :: last ∧
    piecesText first = before
  := by
  induction hn : before.length using Nat.strong_induction_on generalizing prev before with
  | _ n ih =>
      cases before with
      | nil =>
          rw [List.nil_append]
          exact ⟨[], _, scan_of_some (matchAt_complete after h hboundary) rfl, rfl⟩
      | cons c rest =>
          have hlast : ∀ d, (c :: rest).getLast? = some d → isWordChar d = false := by
            intro d hd
            apply hboundary
            rw [hd]
            rfl
          cases hmatch : matchAt prev (c :: rest ++ (m.text ++ after)) with
          | none =>
              obtain ⟨first, last, hscan, htext⟩ := ih rest.length (by simp [← hn]) (some c) (by
                intro d hd
                apply hlast
                rw [List.getLast?_cons, ← Option.or_some, hd]) rfl
              refine ⟨.char c :: first, last, ?_, ?_⟩
              · rw [List.cons_append] at hmatch ⊢
                rw [scan_of_none hmatch, hscan]
                rfl
              · rw [piecesText_cons, htext]
                rfl
          | some m' =>
              obtain ⟨hfits, -, after', hafter'⟩ := matchAt_sound hmatch
              obtain ⟨between, hbetween⟩ :=
                not_overlaps h hfits (List.cons_ne_nil c rest) hlast hafter'
              rw [hbetween, List.append_assoc] at hmatch ⊢
              have hpos := m'.text_length_pos
              have hlength : between.length < n := by
                rw [← hn, hbetween, List.length_append]
                omega
              obtain ⟨first, last, hscan, htext⟩ := ih between.length hlength (some m'.quote) (by
                intro d hd
                apply hboundary
                rw [hbetween, getLast?_text_append, hd]) rfl
              refine ⟨.found m' :: first, last, ?_, ?_⟩
              · rw [scan_of_some hmatch rfl, hscan]
                rfl
              · rw [piecesText_cons, htext]
                rfl

theorem piecesText_pieces (query : Text) :
  piecesText (pieces query) = query
  := piecesText_scan none query

/-- The matches that are found are the places where the pattern matches. -/
theorem found_iff {query before after : Text} {m : PathMatch} :
  (∃ first last, pieces query = first ++ .found m :: last ∧ piecesText first = before ∧
    piecesText last = after) ↔ MatchesAt query before m after
  := by
  constructor
  · rintro ⟨first, last, hpieces, rfl, rfl⟩
    obtain ⟨htext, hfits, hboundary⟩ := matchesAt_of_scan hpieces
    exact ⟨htext, fun c hc => hboundary c (by rw [hc]; rfl), hfits⟩
  · intro h
    obtain ⟨first, last, hpieces, hfirst⟩ := scan_of_occurs none after h.fits (by
      intro c hc
      rw [Option.or_none] at hc
      exact h.boundary c hc)
    rw [← h.text] at hpieces
    refine ⟨first, last, hpieces, hfirst, ?_⟩
    have htext := (matchesAt_of_scan hpieces).1
    rw [hfirst, h.text] at htext
    exact (List.append_cancel_left (List.append_cancel_left htext)).symm

/-! ### Names of tables -/

theorem docName_injective {m n : Nat} (h : docName m = docName n) :
  m = n
  := decimal_injective (List.append_cancel_left h)

/-- The characters of a name. -/
theorem mem_docName {n : Nat} {c : Char} (h : c ∈ docName n) :
  c ∈ ['d', 'o', 'c', '_'] ∨ c.isDigit = true
  := by
  obtain h | h := List.mem_append.mp h
  · exact .inl h
  · exact .inr (isDigit_of_mem_decimal h)

theorem lowerCase_docName (n : Nat) :
  lowerCase (docName n) = docName n
  := by
  unfold lowerCase
  conv_rhs => rw [← List.map_id (docName n)]
  apply List.map_congr_left
  intro c hc
  have hsmall : c.toLower = c ∧ c ≠ '\u212A' := by
    obtain hc | hdigit := mem_docName hc
    · simp only [List.mem_cons, List.not_mem_nil, or_false] at hc
      obtain rfl | rfl | rfl | rfl := hc
      · decide
      · decide
      · decide
      · decide
    · refine ⟨?_, ?_⟩
      · unfold Char.toLower
        rw [dif_neg]
        simp only [Char.isDigit, Bool.and_eq_true, decide_eq_true_eq, ge_iff_le,
          UInt32.le_iff_toNat_le] at hdigit ⊢
        have : '9'.val.toNat = 57 := rfl
        have : 'A'.val.toNat = 65 := rfl
        omega
      · rintro rfl
        cases hdigit
  rw [lowerChar, if_neg hsmall.2, hsmall.1]
  rfl

theorem nextDocName_spec (usedNames : List Text) (fuel docIdx : Nat) :
  (∃ n, (nextDocName usedNames fuel docIdx).1 = docName n) ∧
    ((nextDocName usedNames fuel docIdx).1 ∈ usedNames →
      ∀ j ≤ fuel, docName (docIdx + j) ∈ usedNames)
  := by
  induction fuel generalizing docIdx with
  | zero =>
      refine ⟨⟨docIdx, rfl⟩, fun h j hj => ?_⟩
      rw [Nat.le_zero.mp hj]
      exact h
  | succ fuel ih =>
      unfold nextDocName
      split
      · rename_i hused
        refine ⟨(ih (docIdx + 1)).1, fun h j hj => ?_⟩
        cases j with
        | zero => exact hused
        | succ j =>
            rw [Nat.add_comm j 1, ← Nat.add_assoc]
            exact (ih (docIdx + 1)).2 h j (Nat.le_of_succ_le_succ hj)
      · rename_i hfree
        exact ⟨⟨docIdx, rfl⟩, fun h => absurd h hfree⟩

/-- Not all of one more names than are in use can be in use. -/
theorem nextDocName_not_mem (usedNames : List Text) (docIdx : Nat) :
  (nextDocName usedNames usedNames.length docIdx).1 ∉ usedNames
  := by
  intro h
  have hused := (nextDocName_spec usedNames usedNames.length docIdx).2 h
  have hnodup : ((List.range (usedNames.length + 1)).map (fun j => docName (docIdx + j))).Nodup := by
    apply List.Nodup.map
    · intro i j hij
      exact Nat.add_left_cancel (docName_injective hij)
    · apply List.nodup_range
  have hsubset : (List.range (usedNames.length + 1)).map (fun j => docName (docIdx + j)) ⊆
      usedNames := by
    intro name hname
    obtain ⟨j, hj, rfl⟩ := List.mem_map.mp hname
    exact hused j (Nat.le_of_lt_succ (List.mem_range.mp hj))
  have hlength := (hnodup.subperm hsubset).length_le
  rw [List.length_map, List.length_range] at hlength
  exact Nat.not_succ_le_self _ hlength

/-! ### Bindings -/

/-- What the second loop has bound after some of the paths. -/
structure AutoBinding.Inv (db : Db) (driveId : Text) (given done : List Text) (s : AutoBinding) :
    Prop where
  seen : ∀ path, path ∈ s.seenPaths ↔ ∃ raw ∈ done, IsReadable raw ∧ normalizePath raw = path
  bound : ∀ path, (∃ b ∈ s.bindings, b.autoBound = true ∧ b.path = path) ↔
    path ∈ s.seenPaths ∧ (findFileByPath db driveId path).isSome = true
  table : ∀ b ∈ s.bindings, b.autoBound = true → (∃ n, b.table = docName n) ∧ b.table ∉ given
  used : given ⊆ s.usedNames

/-- What a round of the second loop does. -/
theorem autoBind_cases (db : Db) (driveId : Text) (s : AutoBinding) (raw : Text) :
  (¬ IsReadable raw ∧ autoBind db driveId s raw = s) ∨
  (IsReadable raw ∧ normalizePath raw ∈ s.seenPaths ∧ autoBind db driveId s raw = s) ∨
  (IsReadable raw ∧ findFileByPath db driveId (normalizePath raw) = none ∧
    autoBind db driveId s raw = { s with seenPaths := normalizePath raw :: s.seenPaths }) ∨
  (IsReadable raw ∧ normalizePath raw ∉ s.seenPaths ∧ ∃ b docIdx, b.autoBound = true ∧
    b.path = normalizePath raw ∧ (findFileByPath db driveId (normalizePath raw)).isSome = true ∧
    b.table = (nextDocName s.usedNames s.usedNames.length s.docIdx).1 ∧
    autoBind db driveId s raw =
      ⟨s.bindings ++ [b], normalizePath raw :: s.seenPaths, b.table :: s.usedNames, docIdx⟩)
  := by
  unfold autoBind
  split
  · rename_i hnone
    refine .inl ⟨?_, rfl⟩
    rintro ⟨detected, hdetected, -⟩
    rw [hnone] at hdetected
    cases hdetected
  · rename_i detected hdetected
    split
    · rename_i hformat
      refine .inl ⟨?_, rfl⟩
      rintro ⟨detected', hdetected', hmem⟩
      rw [hdetected] at hdetected'
      obtain rfl := Option.some.inj hdetected'
      exact hformat hmem
    · rename_i hformat
      have hreadable : IsReadable raw := ⟨detected, hdetected, not_not.mp hformat⟩
      dsimp only
      split
      · rename_i hseen
        exact .inr (.inl ⟨hreadable, hseen, rfl⟩)
      · rename_i hseen
        split
        · rename_i hfile
          exact .inr (.inr (.inl ⟨hreadable, hfile, rfl⟩))
        · rename_i file hfile
          refine .inr (.inr (.inr ⟨hreadable, hseen, _, _, ?_, ?_, ?_, ?_, rfl⟩))
          · rfl
          · rfl
          · rw [hfile]
            rfl
          · rfl

theorem AutoBinding.Inv.seen_append {db : Db} {driveId : Text} {given done : List Text}
    {s : AutoBinding} (h : s.Inv db driveId given done) {raw : Text} (hread : IsReadable raw)
    (path : Text) :
  path ∈ normalizePath raw :: s.seenPaths ↔
    ∃ raw' ∈ done ++ [raw], IsReadable raw' ∧ normalizePath raw' = path
  := by
  rw [List.mem_cons, h.seen]
  constructor
  · rintro (rfl | ⟨raw', hraw', hrest⟩)
    · exact ⟨raw, List.mem_append_right _ List.mem_cons_self, hread, rfl⟩
    · exact ⟨raw', List.mem_append_left _ hraw', hrest⟩
  · rintro ⟨raw', hraw', hread', rfl⟩
    obtain hraw' | hraw' := List.mem_append.mp hraw'
    · exact .inr ⟨raw', hraw', hread', rfl⟩
    · rw [List.mem_singleton.mp hraw']
      exact .inl rfl

theorem AutoBinding.Inv.autoBind {db : Db} {driveId : Text} {given done : List Text}
    {s : AutoBinding} (h : s.Inv db driveId given done) (raw : Text) :
  (AgentFs.autoBind db driveId s raw).Inv db driveId given (done ++ [raw])
  := by
  obtain ⟨hread, heq⟩ | ⟨hread, hseen, heq⟩ | ⟨hread, hfile, heq⟩ |
    ⟨hread, hseen, b, docIdx, hauto, hpath, hfile, htable, heq⟩ :=
      autoBind_cases db driveId s raw
  · rw [heq]
    refine ⟨fun path => ?_, h.bound, h.table, h.used⟩
    rw [h.seen]
    constructor
    · rintro ⟨raw', hraw', hrest⟩
      exact ⟨raw', List.mem_append_left _ hraw', hrest⟩
    · rintro ⟨raw', hraw', hread', hpath⟩
      obtain hraw' | hraw' := List.mem_append.mp hraw'
      · exact ⟨raw', hraw', hread', hpath⟩
      · rw [List.mem_singleton.mp hraw'] at hread'
        exact absurd hread' hread
  · rw [heq]
    refine ⟨fun path => ?_, h.bound, h.table, h.used⟩
    rw [← h.seen_append hread, List.mem_cons]
    exact ⟨.inr, fun hmem => hmem.elim (fun hpath => hpath ▸ hseen) id⟩
  · rw [heq]
    refine ⟨h.seen_append hread, fun path => ?_, h.table, h.used⟩
    rw [h.bound, List.mem_cons]
    constructor
    · rintro ⟨hseen, hsome⟩
      exact ⟨.inr hseen, hsome⟩
    · rintro ⟨rfl | hseen, hsome⟩
      · rw [hfile] at hsome
        cases hsome
      · exact ⟨hseen, hsome⟩
  · rw [heq]
    have hfree := nextDocName_not_mem s.usedNames s.docIdx
    rw [← htable] at hfree
    refine ⟨h.seen_append hread, fun path => ?_, fun b' hb' hauto' => ?_, ?_⟩
    · constructor
      · rintro ⟨b', hb', hauto', rfl⟩
        obtain hb' | hb' := List.mem_append.mp hb'
        · obtain ⟨hseen', hsome⟩ := (h.bound b'.path).mp ⟨b', hb', hauto', rfl⟩
          exact ⟨List.mem_cons_of_mem _ hseen', hsome⟩
        · rw [List.mem_singleton.mp hb', hpath]
          exact ⟨List.mem_cons_self, hfile⟩
      · rintro ⟨hmem, hsome⟩
        obtain rfl | hseen' := List.mem_cons.mp hmem
        · exact ⟨b, List.mem_append_right _ List.mem_cons_self, hauto, hpath⟩
        · obtain ⟨b', hb', hrest⟩ := (h.bound path).mpr ⟨hseen', hsome⟩
          exact ⟨b', List.mem_append_left _ hb', hrest⟩
    · obtain hb' | hb' := List.mem_append.mp hb'
      · exact h.table b' hb' hauto'
      · rw [List.mem_singleton.mp hb']
        refine ⟨?_, fun hgiven => hfree (h.used hgiven)⟩
        rw [htable]
        exact (nextDocName_spec _ _ _).1
    · exact fun name hname => List.mem_cons_of_mem _ (h.used hname)

theorem AutoBinding.Inv.foldl {db : Db} {driveId : Text} {given : List Text} (raws : List Text)
    {done : List Text} {s : AutoBinding} (h : s.Inv db driveId given done) :
  (raws.foldl (AgentFs.autoBind db driveId) s).Inv db driveId given (done ++ raws)
  := by
  induction raws generalizing done s with
  | nil =>
      rw [List.append_nil]
      exact h
  | cons raw raws ih =>
      rw [List.foldl_cons, ← List.singleton_append, ← List.append_assoc]
      exact ih (h.autoBind raw)

theorem autoBound_of_bindTable {db : Db} {driveId name : Text} {usedNames : List Text}
    {value : TableValue} {b : Binding}
    (h : bindTable db driveId usedNames name value = .ok b) :
  b.autoBound = false
  := by
  unfold bindTable at h
  split at h
  · cases h
  · split at h
    · cases h
    · dsimp only at h
      split at h
      · cases h
      · split at h
        · cases h
        · rw [← Except.ok.inj h]

theorem bindTables_spec {db : Db} {driveId : Text} {tables : List (Text × TableValue)}
    {usedNames usedNames' : List Text} {bindings : List Binding}
    (h : bindTables db driveId usedNames tables = .ok (bindings, usedNames')) :
  (∀ b ∈ bindings, b.autoBound = false) ∧ usedNames ⊆ usedNames' ∧
    ∀ entry ∈ tables, lowerCase entry.1 ∈ usedNames'
  := by
  induction tables generalizing usedNames bindings with
  | nil =>
      obtain ⟨rfl, rfl⟩ := Prod.mk.inj (Except.ok.inj h)
      exact ⟨fun b hb => absurd hb List.not_mem_nil, List.Subset.refl _,
        fun entry hentry => absurd hentry List.not_mem_nil⟩
  | cons entry tables ih =>
      obtain ⟨name, value⟩ := entry
      unfold bindTables at h
      split at h
      · cases h
      · rename_i binding hbinding
        split at h
        · cases h
        · rename_i rest used hrest
          obtain ⟨rfl, rfl⟩ := Prod.mk.inj (Except.ok.inj h)
          obtain ⟨hauto, hsubset, hnames⟩ := ih hrest
          refine ⟨fun b hb => ?_, fun n hn => hsubset (List.mem_cons_of_mem _ hn), ?_⟩
          · obtain rfl | hb := List.mem_cons.mp hb
            · exact autoBound_of_bindTable hbinding
            · exact hauto b hb
          · intro entry hentry
            obtain rfl | hentry := List.mem_cons.mp hentry
            · exact hsubset List.mem_cons_self
            · exact hnames entry hentry

/-- What is bound when the second loop ends. -/
theorem collectBindings_spec {db : Db} {driveId : Text} {params : SqlParams}
    {bindings : List Binding} (h : collectBindings db driveId params = .ok bindings) :
  ∃ s : AutoBinding, s.bindings = bindings ∧
    s.Inv db driveId (params.tables.map (fun entry => lowerCase entry.1))
      ((pieces params.query).filterMap Piece.raw?)
  := by
  unfold collectBindings at h
  split at h
  · cases h
  · rename_i given usedNames hgiven
    obtain ⟨hauto, -, hnames⟩ := bindTables_spec hgiven
    have hstart : AutoBinding.Inv db driveId (params.tables.map (fun entry => lowerCase entry.1)) []
        ⟨given, [], usedNames, 1⟩ := by
      refine ⟨fun path => ?_, fun path => ?_, fun b hb hbound => ?_, fun name hname => ?_⟩
      · simp
      · simp only [List.not_mem_nil, false_and, iff_false]
        rintro ⟨b, hb, hbound, -⟩
        rw [hauto b hb] at hbound
        cases hbound
      · rw [hauto b hb] at hbound
        cases hbound
      · obtain ⟨entry, hentry, rfl⟩ := List.mem_map.mp hname
        exact hnames entry hentry
    refine ⟨_, Except.ok.inj h, ?_⟩
    exact hstart.foldl ((pieces params.query).filterMap Piece.raw?)

theorem fileName_cons_slash (path : Text) :
  fileName ('/' :: path) = fileName path
  := by
  unfold fileName
  rw [List.splitOn_cons_eq_if_modifyHead, if_pos (beq_self_eq_true '/'), List.getLastD_cons,
    List.getLastD_eq_getLast?]

/-- A path that does not end with `/` keeps its last segment. -/
theorem detectSqlFormat_normalizePath {path : Text} (h : path.getLast? ≠ some '/') :
  detectSqlFormat (normalizePath path) = detectSqlFormat path
  := by
  unfold normalizePath
  dsimp only
  split
  · rw [if_neg (fun hend => h hend.2)]
  · rw [if_neg]
    · unfold detectSqlFormat
      rw [show lowerCase ('/' :: path) = '/' :: lowerCase path from rfl, fileName_cons_slash]
    · rintro ⟨hlength, hend⟩
      cases path with
      | nil => exact absurd hlength (Nat.lt_irrefl 1)
      | cons c path => exact h hend

/-- The path of a match is read as the normalized path is. -/
theorem PathMatch.Fits.isReadable_normalizePath {m : PathMatch} (h : m.Fits) :
  IsReadable (normalizePath m.raw) ↔ IsReadable m.raw
  := by
  unfold IsReadable
  rw [detectSqlFormat_normalizePath]
  intro hslash
  obtain ⟨c, hc, halnum⟩ := (hasExtension_spec h.extension).2
  rw [hslash] at hc
  obtain rfl := Option.some.inj hc
  cases halnum

theorem autoTable_eq_some {bindings : List Binding} {path table : Text}
    (h : autoTable bindings path = some table) :
  ∃ b ∈ bindings, b.autoBound = true ∧ b.path = path ∧ b.table = table
  := by
  unfold autoTable at h
  obtain ⟨b, hb, rfl⟩ := Option.map_eq_some_iff.mp h
  have hmem := List.mem_reverse.mp (List.mem_of_find?_eq_some hb)
  have hfound := List.find?_some hb
  rw [decide_eq_true_eq] at hfound
  exact ⟨b, hmem, hfound.1, hfound.2, rfl⟩

theorem autoTable_isSome {bindings : List Binding} {path : Text} :
  (autoTable bindings path).isSome = true ↔ ∃ b ∈ bindings, b.autoBound = true ∧ b.path = path
  := by
  simp [autoTable, List.find?_isSome]

/-- A match is bound when its path names a live readable file. -/
theorem autoTable_isSome_iff {db : Db} {driveId : Text} {params : SqlParams}
    {bindings : List Binding} (h : collectBindings db driveId params = .ok bindings)
    {first last : List Piece} {m : PathMatch}
    (hpieces : pieces params.query = first ++ .found m :: last) :
  (autoTable bindings (normalizePath m.raw)).isSome = true ↔ NamesLiveFile db driveId m.raw
  := by
  have hfits := (matchesAt_of_scan hpieces).2.1
  obtain ⟨s, rfl, hs⟩ := collectBindings_spec h
  rw [autoTable_isSome, hs.bound, hs.seen, NamesLiveFile]
  refine and_congr_left (fun _ => ⟨?_, fun hread => ⟨m.raw, ?_, hread, rfl⟩⟩)
  · rintro ⟨raw, hraw, hread, hpath⟩
    obtain ⟨piece, hpiece, hpieceRaw⟩ := List.mem_filterMap.mp hraw
    cases piece with
    | char c => cases hpieceRaw
    | found m' =>
        obtain rfl := Option.some.inj hpieceRaw
        obtain ⟨first', last', hpieces'⟩ := List.append_of_mem hpiece
        have hfits' := (matchesAt_of_scan hpieces').2.1
        rw [← hfits.isReadable_normalizePath, ← hpath, hfits'.isReadable_normalizePath]
        exact hread
  · apply List.mem_filterMap.mpr
    refine ⟨.found m, ?_, rfl⟩
    rw [hpieces]
    exact List.mem_append_right _ List.mem_cons_self

/-! ### The pattern and the tokens -/

theorem not_dot_mem_qid (n : Nat) :
  '.' ∉ qid (docName n)
  := by
  intro h
  simp only [qid, List.mem_cons, List.mem_append, List.mem_flatMap, List.not_mem_nil,
    or_false] at h
  obtain (h | ⟨c, hc, hmem⟩) | h := h
  · cases h
  · split at hmem
    · simp at hmem
    · obtain rfl := List.mem_singleton.mp hmem
      obtain hc | hdigit := mem_docName hc
      · simp at hc
      · cases hdigit
  · cases h

/-- A match is rewritten when its path names a live readable file. -/
theorem rewritePiece_found {db : Db} {driveId : Text} {params : SqlParams}
    {bindings : List Binding} (h : collectBindings db driveId params = .ok bindings)
    {first last : List Piece} {m : PathMatch}
    (hpieces : pieces params.query = first ++ .found m :: last) :
  (NamesLiveFile db driveId m.raw →
    ReplacesAfter bindings params.query (piecesText first) m) ∧
  (rewritePiece bindings (.found m) ≠ m.text ↔ NamesLiveFile db driveId m.raw)
  := by
  have hfits := (matchesAt_of_scan hpieces).2.1
  have hbound := autoTable_isSome_iff h hpieces
  cases htable : autoTable bindings (normalizePath m.raw) with
  | none =>
      have hdead : ¬ NamesLiveFile db driveId m.raw := by
        rw [← hbound, htable]
        exact Bool.false_ne_true
      refine ⟨fun hlive => absurd hlive hdead, ?_, fun hlive => absurd hlive hdead⟩
      intro hne
      rw [rewritePiece, htable] at hne
      exact absurd rfl hne
  | some table =>
      rw [htable] at hbound
      have hlive := hbound.mp rfl
      obtain ⟨b, hb, hauto, hpath, rfl⟩ := autoTable_eq_some htable
      obtain ⟨s, rfl, hs⟩ := collectBindings_spec h
      obtain ⟨⟨n, hn⟩, -⟩ := hs.table b hb hauto
      have hne : b.table ≠ [] := by
        rw [hn]
        exact List.cons_ne_nil _ _
      have hrewrite : rewritePiece s.bindings (.found m) = m.keyword ++ ' ' :: qid b.table := by
        rw [rewritePiece, htable]
        exact if_neg hne
      refine ⟨fun _ => ⟨first, last, hpieces, rfl, b, hb, hauto, hpath, hrewrite⟩, fun _ => hlive,
        fun _ heq => ?_⟩
      -- only the match has a dot
      have hdot : '.' ∈ m.text := by
        rw [PathMatch.text_eq]
        simp [(hasExtension_spec hfits.extension).1]
      rw [← heq, hrewrite, hn] at hdot
      obtain hkeyword | hqid := List.mem_append.mp hdot
      · exact absurd ((isFromOrJoin_spec hfits.keyword).2 '.' hkeyword).1 (by decide)
      · obtain hspace | hqid := List.mem_cons.mp hqid
        · cases hspace
        · exact not_dot_mem_qid n hqid

/-- A match at a token, and not before a doubled quote, is a keyword, white space and a literal. -/
theorem MatchesAt.lex {query before after : Text} {m : PathMatch} (h : MatchesAt query before m after)
    {tokens rest : List Token} (hlex : SqlLexer.lex query = tokens ++ rest)
    (hbefore : textOf tokens = before) (hafter : after.head? ≠ some m.quote) :
  SqlLexer.lex query = tokens ++ .word m.keyword :: .space m.space ::
    .quoted m.quote m.raw true :: SqlLexer.lex after
  := by
  have htext : textOf rest = m.text ++ after := by
    have hquery := textOf_lex query
    rw [hlex, textOf_append, hbefore, h.text] at hquery
    exact List.append_cancel_left hquery
  have hchars := (isFromOrJoin_spec h.fits.keyword).2
  obtain ⟨c, word, hkeyword, -⟩ := h.fits.keyword_ne_nil
  rw [hkeyword] at hchars
  have hplain : m.quote ∉ m.raw := by
    intro hmem
    have hquote := h.fits.raw _ hmem
    rw [h.fits.quote] at hquote
    cases hquote
  have htokens := lex_word_space_quoted (hchars c List.mem_cons_self).1
    (hchars c List.mem_cons_self).2 (fun d hd => (hchars d (List.mem_cons_of_mem c hd)).1)
    h.fits.space.1 h.fits.space.2 h.fits.quote hplain hafter
  rw [hlex, ← lex_textOf hlex, htext, PathMatch.text_eq, hkeyword]
  rw [← htokens]
  simp

theorem undouble_of_plain {quote : Char} {body : Text} (h : ∀ c ∈ body, isQuote c = false)
    (hquote : isQuote quote = true) :
  undouble quote body = body
  := by
  fun_induction undouble quote body with
  | case1 => rfl
  | case2 => rfl
  | case3 c d rest hquotes =>
      have hc := h c List.mem_cons_self
      rw [hquotes.1, hquote] at hc
      cases hc
  | case4 c d rest hquotes ih => rw [ih (fun e he => h e (List.mem_cons_of_mem c he))]

/-- The literal of a table position that names a live file, preceded by the keyword and white
space, is where the pattern matches. -/
theorem matchesAt_of_tokens {query : Text} {first : List Token} {keyword space body : Text}
    {quote : Char} {after : List Token}
    (hlex : lex query = first ++ .word keyword :: .space space :: .quoted quote body true :: after)
    (hkeyword : isFromOrJoin keyword = true) (hbody : ∀ c ∈ body, isQuote c = false)
    (hextension : hasExtension body = true) :
  MatchesAt query (textOf first) ⟨keyword, space, quote, body⟩ (textOf after)
  := by
  have hspaceLex : lex query = (first ++ [.word keyword]) ++
      .space space :: .quoted quote body true :: after := by
    rw [hlex, List.append_assoc]
    rfl
  have hquotedLex : lex query = (first ++ [.word keyword, .space space]) ++
      .quoted quote body true :: after := by
    rw [hlex, List.append_assoc]
    rfl
  have hspace := fits_of_lex hspaceLex
  have hquoted := (fits_of_lex hquotedLex).1
  refine ⟨?_, fun c hc => isWordChar_before_word hlex hc, hkeyword, ⟨hspace.2, hspace.1⟩,
    hquoted.1, hbody, hextension⟩
  have htext := textOf_lex query
  rw [hlex, textOf_append, textOf_cons, textOf_cons, textOf_cons] at htext
  rw [← htext]
  simp [Token.text, PathMatch.text]

/-- A database with the file `/a.csv`. -/
def samplePathDb : Db :=
  { Db.empty with
    files := [⟨"/a.csv".toList, ['d'], 3, none, ['u'], none, 0, 0, false⟩] }

def sampleLiteral (query : String) : SqlParams where
  query := query.toList

end AgentFs
