import AgentFs.Share.MarkdownSource

/-!
# Rendering of markdown documents

The renderer of `share/markdown.ts`.  The parser of the runtime is a function from a text to the
tree of its callbacks; every callback puts the html of its children into a fixed shape.  A
character of html knows whether it is from such a shape or from the source, and the state of the
renderer keeps the id attributes and the in-page links that it has written.
-/

namespace AgentFs

/-! ### Html -/

inductive Origin where
  | shape
  | source
  deriving DecidableEq, Repr

structure HtmlChar where
  char : Char
  origin : Origin
  deriving DecidableEq, Repr

abbrev Html := List HtmlChar

/-- The html as a string. -/
def charsOf (html : Html) : Text :=
  html.map HtmlChar.char

/-- Characters that the renderer writes. -/
def shape (text : Text) : Html :=
  text.map (fun c => ⟨c, .shape⟩)

/-- Part of a fixed shape. -/
def tag (text : String) : Html :=
  shape text.toList

/-- Characters from the source. -/
def fromSource (text : Text) : Html :=
  text.map (fun c => ⟨c, .source⟩)

/-- `ESCAPES`. -/
def escapeChar : Char → Text
  | '&' => "&amp;".toList
  | '<' => "&lt;".toList
  | '>' => "&gt;".toList
  | '"' => "&quot;".toList
  | '\'' => "&#39;".toList
  | c => [c]

def escapeHtml (text : Text) : Html :=
  fromSource (text.flatMap escapeChar)

/-- `html.trim()`. -/
def trimHtml (html : Html) : Html :=
  ((html.dropWhile (fun c => IsWhiteSpace c.char)).reverse.dropWhile
    (fun c => IsWhiteSpace c.char)).reverse

/-- `text.replaceAll(pattern, replacement)`. -/
def replaceAll (pattern : String) (replacement : Char) (text : Text) : Text :=
  Matches.replace (fun _ rest =>
    if pattern.toList <+: rest then some (pattern.length, ()) else none) [replacement] text

/-- A tag: from `<` to the next `>`. -/
def tagAt (_ : Text) : Text → Option (Nat × Unit)
  | '<' :: text => if '>' ∈ text then some (text.idxOf '>' + 2, ()) else none
  | _ => none

def stripTags (html : Text) : Text :=
  replaceAll "&amp;" '&' (replaceAll "&#39;" '\'' (replaceAll "&quot;" '"' (replaceAll "&gt;" '>'
    (replaceAll "&lt;" '<' (Matches.replace tagAt [] html)))))

/-! ### Placeholders in html -/

/-- `PLACEHOLDER`, with the number of the slot. -/
def placeholderAt (_ : Html) : Html → Option (Nat × Nat)
  | c :: html =>
      let digits := (charsOf html).takeWhile Char.isDigit
      if c.char = phOpen ∧ digits ≠ [] ∧ ((charsOf html).drop digits.length).head? = some phClose then
        some (digits.length + 2, Nat.ofDigitChars 10 digits 0)
      else none
  | [] => none

/-- The characters of html and the slots of the placeholders in it. -/
def placeholders (html : Html) : List (HtmlChar ⊕ Nat) :=
  (Matches.scan placeholderAt 0 [] html).map (Sum.map id Prod.snd)

def restorePiece (slots : List Slot) : HtmlChar ⊕ Nat → Html
  | .inl c => [c]
  | .inr i => (slots[i]?.map (fun slot => fromSource slot.raw)).getD []

/-- Placeholders back to their source text. -/
def restore (slots : List Slot) (html : Html) : Html :=
  (placeholders html).flatMap (restorePiece slots)

/-! ### The parsed document -/

inductive Align where
  | left
  | right
  | center
  deriving DecidableEq, Repr

/-- The callbacks with what the parser tells them besides the html of their children. -/
inductive MdKind where
  | html
  | heading (level : Nat)
  | paragraph
  | blockquote
  | code (language : Option Text)
  | codespan
  | hr
  | strong
  | emphasis
  | strikethrough
  | list (ordered : Bool) (start : Option Nat)
  | listItem (checked : Option Bool)
  | table
  | thead
  | tbody
  | tr
  | th (align : Option Align)
  | td (align : Option Align)
  | link (href : Option Text)
  | image
  deriving DecidableEq, Repr

/-- What the parser finds in a text: runs of text and nodes, in their order. -/
inductive MdTree where
  | nil
  | text (run : Text) (rest : MdTree)
  | node (kind : MdKind) (children rest : MdTree)
  deriving DecidableEq, Repr

/-- A parser that knows only paragraphs. -/
def paragraphParser (text : Text) : MdTree :=
  .node .paragraph (.text text .nil) .nil

/-! ### Headings -/

/-- The functions of the runtime on letters. -/
structure Letters where
  toLowerCase : Text → Text
  isLetterOrNumber : Char → Bool
  not_letter : ∀ c ∈ [':', phOpen, phClose], isLetterOrNumber c = false

/-- The functions on letters for texts in ASCII. -/
def asciiLetters : Letters where
  toLowerCase := List.map Char.toLower
  isLetterOrNumber := Char.isAlphanum
  not_letter := List.forall_mem_of_all (by decide)

/-- A dash for every run of such characters. -/
def dashRuns (p : Char → Bool) : Text → Text
  | [] => []
  | c :: text =>
      if p c then if text.head?.any p then dashRuns p text else '-' :: dashRuns p text
      else c :: dashRuns p text

/-- A text without a dash at its start and at its end. -/
def stripDashes (text : Text) : Text :=
  let stripped := if text.head? = some '-' then text.tail else text
  if stripped.getLast? = some '-' then stripped.dropLast else stripped

def slugify (letters : Letters) (text : Text) : Text :=
  let kept := (trim (letters.toLowerCase text)).filter (fun c =>
    letters.isLetterOrNumber c || IsWhiteSpace c || c = '-')
  let dashed := dashRuns (· = '-') (dashRuns (fun c => IsWhiteSpace c) kept)
  let slug := (stripDashes dashed).take 80
  if slug = [] then "section".toList else slug

/-- A slug with the number that makes it unique. -/
def numberedSlug (slug : Text) (i : Nat) : Text :=
  if i = 0 then slug else slug ++ '-' :: decimal i

/-- The first unused id from a number on. -/
def unusedIdFrom (usedIds : List Text) (slug : Text) : Nat → Nat → Text
  | 0, i => numberedSlug slug i
  | fuel + 1, i =>
      if numberedSlug slug i ∈ usedIds then unusedIdFrom usedIds slug fuel (i + 1)
      else numberedSlug slug i

/-- An id for a heading; one of the first `usedIds.length + 1` numbers is free. -/
def unusedId (usedIds : List Text) (slug : Text) : Text :=
  unusedIdFrom usedIds slug usedIds.length 0

structure TocEntry where
  level : Nat
  id : Text
  text : Text
  deriving DecidableEq, Repr

/-! ### The state of the renderer -/

structure Features where
  mermaid : Bool
  math : Bool
  highlight : Bool
  deriving DecidableEq, Repr

structure RenderState where
  features : Features
  headings : List TocEntry
  usedIds : List Text
  /-- The footnotes in the order of their first reference. -/
  fnOrder : List Text
  /-- The references so far, which `fnRefCount` counts. -/
  refs : List Text
  /-- The id attributes that have been written. -/
  ids : List Text
  /-- The ids that the anchors of headings, references and footnotes link to. -/
  links : List Text
  deriving DecidableEq, Repr

def RenderState.start : RenderState where
  features := ⟨false, false, false⟩
  headings := []
  usedIds := []
  fnOrder := []
  refs := []
  ids := []
  links := []

/-! ### Callbacks -/

/-- The text of a heading. -/
def headingText (slots : List Slot) (children : Html) : Text :=
  trim (stripTags (charsOf (restore slots children)))

/-- `heading`. -/
def headingCallback (letters : Letters) (slots : List Slot) (level : Nat) (children : Html)
    (st : RenderState) : Html × RenderState :=
  let n := min 6 (max 1 level)
  let text := headingText slots children
  let id := unusedId st.usedIds (slugify letters text)
  (tag "<h" ++ shape (decimal n) ++ tag " id=\"" ++ escapeHtml id ++ tag "\">" ++ children ++
    tag "<a class=\"anchor\" href=\"#" ++ escapeHtml id ++
    tag "\" aria-label=\"Link to this section\">#</a></h" ++ shape (decimal n) ++ tag ">\n",
  { st with
    headings := st.headings ++ [⟨n, id, text⟩]
    usedIds := st.usedIds ++ [id]
    ids := st.ids ++ [id]
    links := st.links ++ [id] })

/-- `CALLOUTS`. -/
def callouts : List (String × String) :=
  [("note", "Note"), ("tip", "Tip"), ("important", "Important"), ("warning", "Warning"),
    ("caution", "Caution")]

/-- The start of a callout, in lower case. -/
def calloutStart (name : String) : Text :=
  "<p>[!".toList ++ name.toList ++ [']']

/-- `CALLOUT_HEAD`: the length of the head and the callout. -/
def calloutHead (html : Html) : Option (Nat × String × String) :=
  let lower := (charsOf html).map Char.toLower
  (callouts.find? (fun callout => calloutStart callout.1 <+: lower)).bind (fun callout =>
    let start := (calloutStart callout.1).length
    let blanks := ((lower.drop start).takeWhile (fun c => c = ' ' || c = '\t')).length
    let rest := lower.drop (start + blanks)
    if rest.head? = some '\n' then some (start + blanks + 1, callout)
    else if rest.take 4 = "</p>".toList then some (start + blanks, callout)
    else none)

/-- Html without an empty paragraph at its start. -/
def dropEmptyParagraph (html : Html) : Html :=
  if (charsOf html).take 7 = "<p></p>".toList then
    if ((charsOf html).drop 7).head? = some '\n' then html.drop 8 else html.drop 7
  else html

/-- `blockquote`. -/
def blockquoteCallback (children : Html) : Html :=
  match calloutHead children with
  | none => tag "<blockquote>" ++ children ++ tag "</blockquote>\n"
  | some (len, name, title) =>
      tag "<div class=\"callout callout-" ++ tag name ++ tag "\"><p class=\"callout-title\">" ++
        tag title ++ tag "</p>" ++ dropEmptyParagraph (tag "<p>" ++ children.drop len) ++
        tag "</div>\n"

def codeLanguage (language : Option Text) : Option Text :=
  let lang := (trim (language.getD [])).takeWhile (fun c => ¬ IsWhiteSpace c)
  if 1 ≤ lang.length ∧ lang.length ≤ 32 ∧
      lang.all (fun c => c.isAlphanum || c ∈ ['_', '+', '#', '.', '-']) then
    some (lang.map Char.toLower)
  else none

/-- `code`. -/
def codeCallback (slots : List Slot) (language : Option Text) (children : Html)
    (st : RenderState) : Html × RenderState :=
  let code := restore slots children
  match codeLanguage language with
  | none =>
      (tag "<div class=\"code-block\"><pre class=\"code\"><code>" ++ code ++
        tag "</code></pre></div>\n", st)
  | some lang =>
      if lang = "mermaid".toList then
        (tag "<div class=\"mermaid-block\"><pre class=\"mermaid-src\"><code>" ++ code ++
          tag "</code></pre></div>\n", { st with features.mermaid := true })
      else if lang = "math".toList then
        (tag "<p><span class=\"math math-display\">" ++ code ++ tag "</span></p>\n",
          { st with features.math := true })
      else
        (tag "<div class=\"code-block\" data-lang=\"" ++ escapeHtml lang ++
          tag "\"><pre class=\"code\"><code class=\"language-" ++ escapeHtml lang ++ tag "\">" ++
          code ++ tag "</code></pre></div>\n", { st with features.highlight := true })

/-- `SAFE_LINK` at the start of a text without control characters and spaces. -/
def safeHref (href : Text) : Option Text :=
  let compact := (href.filter (fun c =>
    ¬ (c.toNat ≤ 0x20 ∨ (0x7F ≤ c.toNat ∧ c.toNat ≤ 0x9F)))).map Char.toLower
  if ["http:", "https:", "mailto:"].any (fun scheme => scheme.toList <+: compact) then
    some (trim href)
  else none

/-- `FRAGMENT_HREF`. -/
def isFragmentHref : Text → Bool
  | '#' :: text =>
      utf16Length text ≤ 200 &&
        text.all (fun c => ¬ IsWhiteSpace c ∧ c ∉ ['"', '\'', '<', '>', '\x60'])
  | _ => false

/-- `link`. -/
def linkCallback (slots : List Slot) (href : Option Text) (children : Html) : Html :=
  let raw := (href.map (fun href => charsOf (restore slots (fromSource href)))).getD []
  if isFragmentHref raw then tag "<a href=\"" ++ escapeHtml raw ++ tag "\">" ++ children ++ tag "</a>"
  else
    match if raw = [] then none else safeHref raw with
    | none => children
    | some href =>
        tag "<a href=\"" ++ escapeHtml href ++
          tag "\" rel=\"noopener noreferrer nofollow\" target=\"_blank\">" ++ children ++ tag "</a>"

/-- Html between an opening and a closing tag. -/
def wrap (opening : String) (children : Html) (closing : String) : Html :=
  tag opening ++ children ++ tag closing

/-- `list`. -/
def listCallback (ordered : Bool) (start : Option Nat) (children : Html) : Html :=
  if ordered then
    match start with
    | some n =>
        if n = 1 then wrap "<ol>\n" children "</ol>\n"
        else tag "<ol start=\"" ++ shape (decimal n) ++ tag "\">\n" ++ children ++ tag "</ol>\n"
    | none => wrap "<ol>\n" children "</ol>\n"
  else wrap "<ul>\n" children "</ul>\n"

/-- `listItem`. -/
def listItemCallback (checked : Option Bool) (children : Html) : Html :=
  match checked with
  | some true => wrap "<li class=\"task\"><input type=\"checkbox\" disabled checked> " children "</li>\n"
  | some false => wrap "<li class=\"task\"><input type=\"checkbox\" disabled> " children "</li>\n"
  | none => wrap "<li>" children "</li>\n"

/-- The opening tag of a cell, with its `ALIGN_CLASS`. -/
def cellTag (name : String) (align : Option Align) : Html :=
  match align with
  | none => tag "<" ++ tag name ++ tag ">"
  | some .left => tag "<" ++ tag name ++ tag " class=\"al-l\">"
  | some .right => tag "<" ++ tag name ++ tag " class=\"al-r\">"
  | some .center => tag "<" ++ tag name ++ tag " class=\"al-c\">"

/-- The callback of a kind. -/
def callback (letters : Letters) (slots : List Slot) (kind : MdKind) (children : Html)
    (st : RenderState) : Html × RenderState :=
  match kind with
  | .html => (children, st)
  | .heading level => headingCallback letters slots level children st
  | .paragraph => (wrap "<p>" children "</p>\n", st)
  | .blockquote => (blockquoteCallback children, st)
  | .code language => codeCallback slots language children st
  | .codespan => (wrap "<code>" (restore slots children) "</code>", st)
  | .hr => (tag "<hr>\n", st)
  | .strong => (wrap "<strong>" children "</strong>", st)
  | .emphasis => (wrap "<em>" children "</em>", st)
  | .strikethrough => (wrap "<del>" children "</del>", st)
  | .list ordered start => (listCallback ordered start children, st)
  | .listItem checked => (listItemCallback checked children, st)
  | .table => (wrap "<div class=\"table-wrap\"><table>" children "</table></div>\n", st)
  | .thead => (wrap "<thead>" children "</thead>", st)
  | .tbody => (wrap "<tbody>" children "</tbody>", st)
  | .tr => (wrap "<tr>" children "</tr>", st)
  | .th align => (cellTag "th" align ++ children ++ tag "</th>", st)
  | .td align => (cellTag "td" align ++ children ++ tag "</td>", st)
  | .link href => (linkCallback slots href children, st)
  | .image =>
      (if children = [] then tag "<span class=\"img-alt\">[image]</span>"
        else wrap "<span class=\"img-alt\">[image: " children "]</span>", st)

/-- `md.render`: the html of the nodes, one after the other. -/
def renderTree (letters : Letters) (slots : List Slot) : MdTree → RenderState → Html × RenderState
  | .nil, st => ([], st)
  | .text run rest, st =>
      let after := renderTree letters slots rest st
      (escapeHtml run ++ after.1, after.2)
  | .node kind children rest, st =>
      let inner := renderTree letters slots children st
      let out := callback letters slots kind inner.1 inner.2
      let after := renderTree letters slots rest out.2
      (out.1 ++ after.1, after.2)

/-! ### Slots and footnotes -/

def fnId (id : Text) : Text := "fn:".toList ++ id

/-- The id of the reference to a footnote after `seen` others. -/
def refId (id : Text) (seen : Nat) : Text :=
  "fnref:".toList ++ (if seen = 0 then id else id ++ '-' :: decimal (seen + 1))

/-- A footnote gets its number when it is first referenced. -/
def addFootnote (fnOrder : List Text) (id : Text) : List Text :=
  if id ∈ fnOrder then fnOrder else fnOrder ++ [id]

/-- The html of a slot. -/
def fillSlot (slot : Slot) (st : RenderState) : Html × RenderState :=
  match slot with
  | .math display tex _ =>
      (wrap (if display then "<span class=\"math math-display\">"
          else "<span class=\"math math-inline\">") (escapeHtml tex) "</span>",
        { st with features.math := true })
  | .fnref id _ =>
      let fnOrder := addFootnote st.fnOrder id
      let ref := refId id (st.refs.count id)
      (tag "<sup class=\"fnref\"><a href=\"#" ++ fromSource (fnId id) ++ tag "\" id=\"" ++
          fromSource ref ++ tag "\">" ++ shape (decimal (fnOrder.idxOf id + 1)) ++ tag "</a></sup>",
        { st with
          fnOrder := fnOrder
          refs := st.refs ++ [id]
          ids := st.ids ++ [ref]
          links := st.links ++ [fnId id] })

def fillPieces (slots : List Slot) : List (HtmlChar ⊕ Nat) → RenderState → Html × RenderState
  | [], st => ([], st)
  | .inl c :: pieces, st =>
      let after := fillPieces slots pieces st
      (c :: after.1, after.2)
  | .inr i :: pieces, st =>
      let filled := (slots[i]?.map (fun slot => fillSlot slot st)).getD ([], st)
      let after := fillPieces slots pieces filled.2
      (filled.1 ++ after.1, after.2)

/-- `fill`. -/
def fill (slots : List Slot) (html : Html) (st : RenderState) : Html × RenderState :=
  fillPieces slots (placeholders html) st

/-- The back link of a footnote, inside its last paragraph if it ends with one. -/
def withBack (inner back : Html) : Html :=
  if "</p>".toList <:+ charsOf inner then
    inner.take (inner.length - 4) ++ tag " " ++ back ++ tag "</p>"
  else inner ++ back

/-! ### Documents -/

/-- A source whose math and footnotes are cut out. -/
structure CutSource where
  body : Text
  notes : List (Text × Text)
  slots : List Slot
  deriving DecidableEq, Repr

def cutNotes (defs : List (Text × Text)) : List (Text × Text) → List Slot →
    List (Text × Text) × List Slot
  | [], slots => ([], slots)
  | (id, text) :: rest, slots =>
      let cut := cutBody defs text slots
      let after := cutNotes defs rest cut.2
      ((id, cut.1) :: after.1, after.2)

def cutSource (source : Text) : CutSource :=
  let extracted := extractFootnoteDefs (frontmatterBody (stripPlaceholders source))
  let body := cutBody extracted.2 extracted.1 []
  let notes := cutNotes extracted.2 extracted.2 body.2
  ⟨body.1, notes.1, notes.2⟩

/-- `defBodies.get(id) ?? ""`. -/
def CutSource.note (cut : CutSource) (id : Text) : Text :=
  ((cut.notes.find? (fun note => note.1 = id)).map Prod.snd).getD []

/-- The item of a footnote. -/
def footnoteItem (letters : Letters) (parse : Text → MdTree) (cut : CutSource) (id : Text)
    (st : RenderState) : Html × RenderState :=
  let rendered := renderTree letters cut.slots (parse (cut.note id)) st
  let filled := fill cut.slots rendered.1 rendered.2
  let back := tag "<a class=\"fn-back\" href=\"#" ++ fromSource (refId id 0) ++
    tag "\" aria-label=\"Back to reference\">↩</a>"
  (tag "<li id=\"" ++ fromSource (fnId id) ++ tag "\">" ++ withBack (trimHtml filled.1) back ++
      tag "</li>",
    { filled.2 with
      ids := filled.2.ids ++ [fnId id]
      links := filled.2.links ++ [refId id 0] })

/-- The items of the footnotes from the `i`-th on; the list grows while it is built. -/
def footnoteItems (letters : Letters) (parse : Text → MdTree) (cut : CutSource) :
    Nat → Nat → RenderState → List Html × RenderState
  | 0, _, st => ([], st)
  | fuel + 1, i, st =>
      match st.fnOrder[i]? with
      | none => ([], st)
      | some id =>
          let item := footnoteItem letters parse cut id st
          let after := footnoteItems letters parse cut fuel (i + 1) item.2
          (item.1 :: after.1, after.2)

/-- Two levels below the top one are listed; a lone first level is the title. -/
def tocEntries (headings : List TocEntry) : List TocEntry :=
  let h1s := (headings.filter (fun h => h.level = 1)).length
  let candidates := if h1s = 1 then headings.filter (fun h => 1 < h.level) else headings
  match (candidates.map TocEntry.level).min? with
  | none => []
  | some top => candidates.filter (fun h => h.level ≤ top + 1)

structure MarkdownDocument where
  html : Html
  toc : List TocEntry
  features : Features
  /-- The state of the renderer at the end. -/
  final : RenderState
  deriving DecidableEq, Repr

/-- The section of the footnotes, if there are any. -/
def footnoteSection (fnOrder : List Text) (items : List Html) : Html :=
  if fnOrder = [] then []
  else wrap "<section class=\"footnotes\" aria-label=\"Footnotes\"><hr><ol>"
    ((tag "\n").intercalate items) "</ol></section>\n"

/-- The document with this body.  Every footnote has a slot, so that there are at most as many
items as slots. -/
def withFootnotes (letters : Letters) (parse : Text → MdTree) (cut : CutSource)
    (body : Html × RenderState) : MarkdownDocument :=
  let items := footnoteItems letters parse cut cut.slots.length 0 body.2
  { html := body.1 ++ footnoteSection body.2.fnOrder items.1
    toc := tocEntries items.2.headings
    features := items.2.features
    final := items.2 }

/-- Rendering of a source whose math and footnotes are cut out. -/
def renderCut (letters : Letters) (parse : Text → MdTree) (cut : CutSource) : MarkdownDocument :=
  let rendered := renderTree letters cut.slots (parse cut.body) .start
  withFootnotes letters parse cut (fill cut.slots rendered.1 rendered.2)

/-- `renderMarkdownDocument`, without the frontmatter block and the number of words. -/
def renderMarkdownDocument (letters : Letters) (parse : Text → MdTree) (source : Text) :
    MarkdownDocument :=
  renderCut letters parse (cutSource source)

end AgentFs
