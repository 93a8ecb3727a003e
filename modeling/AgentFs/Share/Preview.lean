import AgentFs.Share.Links

/-!
# What a share page shows

The part of `share/render.ts` that decides how the file of a share is delivered: its type,
whether it may be embedded, and the text that a preview shows.
-/

namespace AgentFs

/-! ### Types of files -/

/-- How a file is previewed. -/
inductive PreviewKind where
  | markdown
  | text
  | html
  | image
  | pdf
  | audio
  | video
  | sniff
  | none
  deriving DecidableEq, Repr

structure ShareFileType where
  /-- Content type used for delivery. -/
  mime : Text
  kind : PreviewKind
  /-- Active content that must only ever be downloaded. -/
  downloadOnly : Bool
  deriving DecidableEq, Repr

/-- Extensions the shared map of content types does not cover. -/
def extraMime : List (String × String) :=
  [ ("avif", "image/avif"), ("bmp", "image/bmp"), ("mp3", "audio/mpeg"), ("wav", "audio/wav"),
    ("ogg", "audio/ogg"), ("oga", "audio/ogg"), ("opus", "audio/ogg"), ("m4a", "audio/mp4"),
    ("aac", "audio/aac"), ("flac", "audio/flac"), ("mp4", "video/mp4"), ("m4v", "video/mp4"),
    ("webm", "video/webm"), ("mov", "video/quicktime"), ("ogv", "video/ogg") ]

def downloadOnlyExt : List String :=
  ["xhtml", "xht", "shtml", "mht", "mhtml", "svg", "svgz"]

def htmlExt : List String := ["html", "htm"]

/-- Types that may be embedded inline. -/
def embeddableMime : List String :=
  [ "image/png", "image/jpeg", "image/gif", "image/webp", "image/avif", "image/bmp",
    "image/x-icon", "application/pdf", "audio/mpeg", "audio/wav", "audio/ogg", "audio/mp4",
    "audio/aac", "audio/flac", "video/mp4", "video/webm", "video/quicktime", "video/ogg" ]

/-- Largest HTML file rendered from a share link. -/
def shareHtmlMaxBytes : Nat := 25 * 1024 * 1024

/-- Largest text or markdown file rendered into the page. -/
def maxPreviewBytes : Nat := 1024 * 1024

/-- The last segment of a path. -/
def lastSegment (path : Text) : Text :=
  (path.splitOnP (· = '/')).getLast?.getD []

/-- What follows the last dot of the name, in lower case. -/
def extensionOf (path : Text) : Text :=
  let name := lastSegment path
  if '.' ∈ name then ((name.splitOnP (· = '.')).getLast?.getD []).map Char.toLower else []

/-- A type that is only ever downloaded. -/
def ShareFileType.attachment : ShareFileType :=
  ⟨"application/octet-stream".toList, .none, true⟩

/-- The content type of a path, with the types of `extraMime`. -/
def shareMime (path : Text) : Text :=
  let mime := detectMimeType path
  if mime = "application/octet-stream".toList then
    match extraMime.find? (fun entry => entry.1.toList = extensionOf path) with
    | some entry => entry.2.toList
    | none => mime
  else mime

def classifyShareFile (path : Text) : ShareFileType :=
  let ext := extensionOf path
  let mime := shareMime path
  if ext ∈ downloadOnlyExt.map String.toList then .attachment
  else if ext ∈ htmlExt.map String.toList then ⟨"text/html".toList, .html, false⟩
  else if mime = "image/svg+xml".toList ∨ mime = "text/html".toList then .attachment
  else if mime = "text/markdown".toList then ⟨mime, .markdown, false⟩
  else if mime = "application/pdf".toList then ⟨mime, .pdf, false⟩
  else if mime ∈ embeddableMime.map String.toList then
    ⟨mime, if "image/".toList <+: mime then .image
      else if "audio/".toList <+: mime then .audio else .video, false⟩
  else if "text/".toList <+: mime ∨ mime ∈ ["application/json", "application/x-ndjson",
      "application/xml", "application/x-yaml", "application/toml"].map String.toList then
    ⟨mime, .text, false⟩
  else if mime = "application/octet-stream".toList then ⟨mime, .sniff, false⟩
  else ⟨mime, .none, false⟩

def ShareFileType.Embeddable (type : ShareFileType) : Prop :=
  type.mime ∈ embeddableMime.map String.toList ∧ type.downloadOnly = false

instance (type : ShareFileType) : Decidable type.Embeddable :=
  inferInstanceAs (Decidable (_ ∧ _))

/-- `; charset=` with any white space and in any case. -/
def HasCharset (contentType : Text) : Prop :=
  ∃ params ∈ (contentType.splitOnP (· = ';')).tail,
    "charset=".toList <+: (params.dropWhile (fun c => IsWhiteSpace c)).map Char.toLower

instance (contentType : Text) : Decidable (HasCharset contentType) :=
  inferInstanceAs (Decidable (∃ _ ∈ _, _))

/-- Add `charset=utf-8` to a text-family content type. -/
def withUtf8Charset (contentType : Text) : Text :=
  let base := trim ((contentType.splitOnP (· = ';')).head?.getD [])
  if ¬ IsIndexableMimeType base ∨ HasCharset contentType then contentType
  else contentType ++ "; charset=utf-8".toList

/-- The content type of the bytes a share route serves; HTML is opaque. -/
def shareContentType (type : ShareFileType) : Text :=
  if type.kind = .html then "application/octet-stream".toList else withUtf8Charset type.mime

/-- Encode a file name for a `Content-Disposition` header. -/
def encodeRFC5987ValueChars (value : Text) : Text :=
  (encodeURIComponent value).flatMap (fun c =>
    if c ∈ "'()*".toList then (String.utf8EncodeChar c).flatMap percentByte else [c])

def contentDisposition (kind : String) (filename : Text) : Text :=
  kind.toList ++ "; filename*=UTF-8''".toList ++ encodeRFC5987ValueChars filename

def filenameOf (share : ShareRow) : Text :=
  let name := lastSegment share.path
  if name = [] then "download".toList else name

/-! ### Markdown that is safe to parse -/

def maxMarkdownRenderChars : Nat := 256 * 1024

/-- The rest after one container mark: white space, then a quote mark, a bullet or a list
number of at most nine digits. -/
def containerMark? (text : Text) : Option Text :=
  match text.dropWhile (fun c => c = ' ' ∨ c = '\t') with
  | [] => none
  | c :: rest =>
      if c ∈ [ '>', '-', '*', '+'] then some rest
      else
        let number := (c :: rest).takeWhile Char.isDigit
        match (c :: rest).drop number.length with
        | d :: rest =>
            if 1 ≤ number.length ∧ number.length ≤ 9 ∧ (d = '.' ∨ d = ')') then some rest
            else none
        | [] => none

/-- The text starts with at least `n` container marks. -/
def StartsDeep : Nat → Text → Bool
  | 0, _ => true
  | n + 1, text =>
      match containerMark? text with
      | none => false
      | some rest => StartsDeep n rest

/-- A line end of a regular expression in multiline mode. -/
def IsLineEnd (c : Char) : Prop :=
  c = '\n' ∨ c = '\r' ∨ c.toNat = 0x2028 ∨ c.toNat = 0x2029

instance (c : Char) : Decidable (IsLineEnd c) :=
  inferInstanceAs (Decidable (_ ∨ _))

/-- Input that is not too long and has no line of forty nested containers. -/
def IsMarkdownSafeToRender (markdown : Text) : Prop :=
  utf16Length markdown ≤ maxMarkdownRenderChars ∧
    ∀ line ∈ markdown.splitOnP (fun c => IsLineEnd c), StartsDeep 40 line = false

instance (markdown : Text) : Decidable (IsMarkdownSafeToRender markdown) :=
  inferInstanceAs (Decidable (_ ∧ _))

/-! ### The body of the page -/

inductive EmbedTag where
  | html
  | iframe
  | img
  | audio
  | video
  deriving DecidableEq, Repr

/-- What the page shows of the file. -/
inductive ShareBody where
  | none (reason : String)
  | embed (tag : EmbedTag) (src : Text)
  | markdown (source : Text)
  | text (text : Text)
  deriving DecidableEq, Repr

/-- The tag that embeds a type. -/
def embedTag (type : ShareFileType) : EmbedTag :=
  match type.kind with
  | .pdf => .iframe
  | .image => .img
  | .audio => .audio
  | _ => .video

def grantQuery (grant : Option Text) : Text :=
  match grant with
  | none => []
  | some [] => []
  | some grant => "?g=".toList ++ encodeURIComponent grant

/-- The text preview of the bytes of a file. -/
def textBody (type : ShareFileType) (bytes : Bytes) : ShareBody :=
  let text := if type.kind = .sniff then
      decodeIndexableText bytes "application/octet-stream".toList
    else some (textDecode bytes)
  match text with
  | Option.none => .none "This file type can't be previewed here. Use Download to get it."
  | some text =>
      if type.kind = .markdown ∧ IsMarkdownSafeToRender text then .markdown text else .text text

/-- The crawlers that fetch a pasted link. -/
def previewBots : List String :=
  [ "slackbot", "slack-imgproxy", "twitterbot", "facebookexternalhit", "facebot", "whatsapp",
    "telegrambot", "discordbot", "linkedinbot", "skypeuripreview", "embedly", "pinterest",
    "redditbot", "googlebot", "bingbot", "applebot", "iframely", "vkshare", "mattermost" ]

/-- Link unfurlers must not consume a view. -/
def IsLinkPreviewBot (userAgent : Option Text) : Prop :=
  ∃ agent ∈ userAgent, ∃ bot ∈ previewBots, bot.toList <:+: agent.map Char.toLower

instance (userAgent : Option Text) : Decidable (IsLinkPreviewBot userAgent) :=
  inferInstanceAs (Decidable (∃ _ ∈ _, _))

end AgentFs
