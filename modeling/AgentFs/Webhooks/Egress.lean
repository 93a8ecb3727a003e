import AgentFs.Lib.Async
import AgentFs.Webhooks.Addresses

/-!
# The egress guard

`assertEgressAllowed`, `pinToAddress`, `nextHopRequest` and `createGuardedFetch` of
`egress-guard.ts`, and the options that `egress.ts` passes them.  The resolver and the base
fetch answer with inputs of the segments of the program, so that nothing ties one answer to
another.  The URL parser is a parameter; it is known to keep the address of a literal.
-/

namespace AgentFs

open Async

/-! ### URLs -/

/-- A parsed URL. -/
structure Url where
  /-- With the colon at its end. -/
  protocol : Text
  hostname : Text
  port : Text
  /-- The origin of a URL that is not of the web: `null`, or the one that a `blob:` names. -/
  innerOrigin : Text
  /-- The path, the query and the fragment. -/
  rest : Text
  deriving DecidableEq, Repr

def Url.IsHttp (url : Url) : Prop := url.protocol = "http:".toList ∨ url.protocol = "https:".toList

instance (url : Url) : Decidable url.IsHttp := inferInstanceAs (Decidable (_ ∨ _))

/-- A URL whose content never leaves the process. -/
def Url.IsLocal (url : Url) : Prop := url.protocol = "data:".toList ∨ url.protocol = "blob:".toList

instance (url : Url) : Decidable url.IsLocal := inferInstanceAs (Decidable (_ ∨ _))

def Url.host (url : Url) : Text :=
  if url.port = [] then url.hostname else url.hostname ++ ":".toList ++ url.port

def Url.origin (url : Url) : Text :=
  if url.IsHttp then url.protocol ++ "//".toList ++ url.host else url.innerOrigin

/-- The host of a URL that names an address. -/
def literalHost (address : Text) : Text :=
  if isIPv6Literal address then "[".toList ++ stripBrackets address ++ "]".toList else address

/-- The brackets around a literal, and its zone, do not change its address. -/
theorem ipAddress_literalHost (address : Text) :
  ipAddress (literalHost address) = ipAddress address
  := by
  unfold literalHost
  split_ifs with hv6
  · have hzone : '%' ∉ stripBrackets address := by
      intro hmem
      have hc := List.mem_takeWhile_imp hmem
      exact absurd hc (by decide)
    have hbracket : parseIPv4 ("[".toList ++ stripBrackets address ++ "]".toList) = none := by
      by_contra hsome
      obtain hdigit | hdot := parseIPv4_digits (c := '[') (Option.isSome_iff_ne_none.mpr hsome)
        (by simp)
      · exact absurd hdigit (by decide)
      · exact absurd hdot (by decide)
    unfold ipAddress
    rw [hbracket, parseIPv4_of_isIPv6Literal hv6, stripBrackets_brackets hzone]
  · rfl

/-- The URL parser of the runtime. -/
structure UrlParser where
  /-- `new URL(location, base)`. -/
  parse : Text → Url → Option Url
  /-- What an assignment to `hostname` makes of the host, unless it is not one. -/
  parseHost : Text → Option Text
  /-- A literal is parsed to the address that it stands for. -/
  parseHost_literal : ∀ address : IpLiteral, ∃ host,
    parseHost (literalHost address.text) = some host ∧ ipAddress host = ipAddress address.text

def UrlParser.setHostname (parser : UrlParser) (url : Url) (hostname : Text) : Url :=
  match parser.parseHost hostname with
  | some host => { url with hostname := host }
  | none => url

/-! ### Requests -/

/-- Headers by their names, which are in lower case. -/
abbrev Headers := List (String × Text)

def Headers.has (headers : Headers) (name : String) : Prop := ∃ h ∈ headers, h.1 = name

instance (headers : Headers) (name : String) : Decidable (headers.has name) :=
  inferInstanceAs (Decidable (∃ h ∈ headers, _))

def Headers.set (headers : Headers) (name : String) (value : Text) : Headers :=
  headers.filter (fun h => h.1 ≠ name) ++ [(name, value)]

def Headers.delete (headers : Headers) (name : String) : Headers :=
  headers.filter (fun h => h.1 ≠ name)

inductive RequestBody where
  | bytes (content : List UInt8)
  | stream
  deriving DecidableEq, Repr

inductive RedirectMode where
  | follow
  | manual
  | error
  deriving DecidableEq, Repr

/-- The fields of a `Request`, or of a `RequestInit`. -/
structure RequestInit where
  method : Option String := none
  headers : Option Headers := none
  body : Option RequestBody := none
  redirect : Option RedirectMode := none
  /-- `tls.serverName`. -/
  serverName : Option Text := none
  deriving DecidableEq, Repr

structure HopRequest where
  method : String
  headers : Headers
  body : Option RequestBody
  deriving DecidableEq, Repr

/-- What a fetch needs of a response. -/
structure FetchResponse where
  status : Nat
  /-- The `Location` header. -/
  location : Option Text
  deriving DecidableEq, Repr

inductive FetchError where
  | egressDenied (message : String)
  /-- `redirect: "error"`. -/
  | redirectRefused (url : Url)
  /-- `new URL` threw. -/
  | invalidUrl
  | bodyTooLarge (message : String)
  /-- The base fetch or the stream of the body failed. -/
  | failed (message : Text)
  deriving DecidableEq, Repr

/-! ### Policy -/

structure EgressPolicy where
  allowPrivate : Bool
  allowlist : Option (List Text)

structure GuardedFetchOptions where
  policy : EgressPolicy
  isTrusted : Option (Url → Bool) := none

def effectivePort (url : Url) : Text :=
  if url.port ≠ [] then url.port
  else if url.protocol = "https:".toList then "443".toList else "80".toList

/-- A port of digits after a colon, or none. -/
def bracketedPort : Text → Option (Option Text)
  | [] => some none
  | ':' :: port => if port ≠ [] ∧ port.all Char.isDigit then some (some port) else none
  | _ => none

/-- `/^\[([^\]]+)\](?::(\d+))?$/`, with its groups. -/
def bracketedEntry : Text → Option (Text × Option Text)
  | '[' :: entry =>
      if entry.takeWhile (· ≠ ']') ≠ [] ∧ ']' ∈ entry then
        (bracketedPort ((entry.dropWhile (· ≠ ']')).drop 1)).map (fun port =>
          (entry.takeWhile (· ≠ ']'), port))
      else none
  | _ => none

/-- The host of an entry of the allowlist, and its port when it has one. -/
def allowlistEntry (entry : Text) : Text × Option Text :=
  match bracketedEntry entry with
  | some bracketed => bracketed
  | none =>
      match entry.splitOn ':' with
      | [name, port] => (name, some port)
      | _ => (entry, none)

def matchesAllowlist (toLowerCase : Text → Text) (url : Url) (allowlist : List Text) : Bool :=
  let host := dropTrailingDot (stripBrackets (toLowerCase url.hostname))
  allowlist.any (fun rawEntry =>
    let entry := toLowerCase (trim rawEntry)
    if entry = [] then false
    else
      let (entryHost, entryPort) := allowlistEntry entry
      if ∃ port ∈ entryPort, port ≠ effectivePort url then false
      else if "*.".toList <+: entryHost then
        entryHost.drop 1 <:+ host && (entryHost.drop 1).length < host.length
      else host = entryHost)

structure WebhookEgressConfig where
  allowedHosts : Option (List Text)
  allowPrivate : Bool

/-- The options of `egress.ts`. -/
def guardOptions (toLowerCase : Text → Text) (config : WebhookEgressConfig) :
    GuardedFetchOptions where
  policy := ⟨config.allowPrivate, none⟩
  isTrusted := config.allowedHosts.map (fun allowed url => matchesAllowlist toLowerCase url allowed)

/-! ### The guard -/

/-- What the source of a streamed body yields: chunks, and then its end or a failure. -/
structure StreamSource where
  chunks : List (List UInt8)
  failure : Option Text
  deriving DecidableEq, Repr

/-- What a segment of a fetch is given: the answer of the resolver, of the base fetch, or of
the source of the body. -/
structure FetchAnswer where
  addresses : Except Text (List IpLiteral)
  response : Except Text FetchResponse
  source : StreamSource

inductive FetchEvent where
  | resolved (host : Text) (addresses : Except Text (List IpLiteral))
  /-- The request of a hop to `url`; the base fetch is given the `target`. -/
  | requested (url target : Url) (request : HopRequest) (serverName : Option Text)
  | bodyRead

/-- The program of a fetch. -/
abbrev Fetching (α : Type) := Fallible Unit FetchAnswer FetchEvent FetchError α

def egressRefused (reason : String) : FetchError :=
  .egressDenied ("Webhook egress refused: " ++ reason)

def privateRefused (url : Url) : FetchError :=
  egressRefused (String.ofList url.host ++ " is a private or loopback address. " ++
    "Add it to AGENT_FS_WEBHOOK_ALLOWED_HOSTS or set AGENT_FS_WEBHOOK_ALLOW_PRIVATE=true")

/-- `options.resolve(host)`. -/
def resolveHost (host : Text) : Fetching (List IpLiteral) :=
  Fallible.atomic fun _ answer =>
    (answer.addresses.mapError (fun message =>
        egressRefused ("could not resolve " ++ String.ofList host ++ " (" ++
          String.ofList message ++ ")")),
      .resolved host answer.addresses, ())

def assertEgressAllowed (toLowerCase : Text → Text) (options : GuardedFetchOptions) (url : Url) :
    Fetching (Option Text) :=
  if ¬ url.IsHttp then
    if url.IsLocal then pure none
    else throw (egressRefused ("unsupported protocol " ++ String.ofList url.protocol))
  else if ∃ isTrusted ∈ options.isTrusted, isTrusted url = true then pure none
  else
    match options.policy.allowlist.filter (fun allowlist => allowlist ≠ []) with
    | some allowlist =>
        if matchesAllowlist toLowerCase url allowlist then pure none
        else throw (egressRefused (String.ofList url.host ++
          " is not in AGENT_FS_WEBHOOK_ALLOWED_HOSTS"))
    | none =>
        let host := stripBrackets url.hostname
        if options.policy.allowPrivate then pure none
        else if isLoopbackName toLowerCase host then throw (privateRefused url)
        else if isIPv4Literal host || isIPv6Literal host then
          if isPrivateAddress toLowerCase host then throw (privateRefused url) else pure none
        else do
          let addresses ← resolveHost host
          match addresses.map IpLiteral.text with
          | [] => throw (egressRefused (String.ofList host ++ " resolved to no address"))
          | address :: rest =>
              if (address :: rest).any (isPrivateAddress toLowerCase) then
                throw (privateRefused url)
              else pure (some (((address :: rest).find? isIPv4Literal).getD address))

/-- The URL to connect to, and what is sent there. -/
structure PinnedRequest where
  target : Url
  request : HopRequest
  serverName : Option Text
  deriving DecidableEq, Repr

def pinToAddress (parser : UrlParser) (url : Url) (address : Text) (request : HopRequest)
    (serverName : Option Text) : PinnedRequest where
  target := parser.setHostname url (literalHost address)
  request :=
    { request with
      headers := if request.headers.has "host" then request.headers
        else request.headers.set "host" url.host }
  serverName :=
    if url.protocol = "https:".toList then some (dropTrailingDot url.hostname) else serverName

def maxRedirects : Nat := 5

def redirectStatuses : List Nat := [301, 302, 303, 307, 308]

def credentialHeaders : List String := ["authorization", "cookie", "proxy-authorization"]

def dropCredentials (headers : Headers) : Headers :=
  credentialHeaders.foldl Headers.delete headers

def nextHopRequest (status : Nat) (base next : Url) (request : HopRequest) : HopRequest :=
  let headers :=
    if next.origin ≠ base.origin then dropCredentials request.headers else request.headers
  let method := request.method.toUpper
  let toGet :=
    if status = 303 then decide (method ≠ "HEAD")
    else decide ((status = 301 ∨ status = 302) ∧ method = "POST")
  if toGet then ⟨"GET", (headers.delete "content-type").delete "content-length", none⟩
  else ⟨method, headers, request.body⟩

def maxReplayBodyBytes : Nat := 1024 * 1024

def bodyTooLarge : FetchError :=
  .bodyTooLarge ("Cannot resend a streamed request body over " ++
    toString (maxReplayBodyBytes / (1024 * 1024)) ++ " MiB on a 307/308 redirect: " ++
    "it is sent as it is read, not kept in memory. " ++
    "Send a smaller or non-streamed body, or use redirect: \"manual\"")

/-- What was read of a stream. -/
inductive StreamRead where
  | whole (content : List UInt8)
  | overCap
  | failed (message : Text)
  deriving DecidableEq, Repr

/-- Read a stream up to the cap. -/
def readStream (maxBytes : Nat) (failure : Option Text) :
    List UInt8 → List (List UInt8) → StreamRead
  | content, [] =>
      match failure with
      | some message => .failed message
      | none => .whole content
  | content, chunk :: chunks =>
      if (content ++ chunk).length > maxBytes then .overCap
      else readStream maxBytes failure (content ++ chunk) chunks

/-- The body to send, and whether it can be sent again. -/
def replayableBody : Option RequestBody → Fetching (Option RequestBody × Bool)
  | some .stream =>
      Fallible.atomic fun _ answer =>
        (match readStream maxReplayBodyBytes answer.source.failure [] answer.source.chunks with
        | .whole content => .ok (some (.bytes content), true)
        | .overCap => .ok (some .stream, false)
        | .failed message => .error (.failed message), .bodyRead, ())
  | body => pure (body, true)

/-- `baseFetch(target, init)`. -/
def baseFetch (url target : Url) (request : HopRequest) (serverName : Option Text) :
    Fetching FetchResponse :=
  Fallible.atomic fun _ answer =>
    (answer.response.mapError .failed, .requested url target request serverName, ())

/-- What stays the same over the hops of a fetch. -/
structure FetchSettings where
  mode : RedirectMode
  replayable : Bool
  serverName : Option Text
  deriving DecidableEq, Repr

section

variable (parser : UrlParser) (toLowerCase : Text → Text) (options : GuardedFetchOptions)

/-- Check a hop, and send its request. -/
def sendHop (serverName : Option Text) (url : Url) (request : HopRequest) :
    Fetching FetchResponse := do
  match (← assertEgressAllowed toLowerCase options url).filter (fun address => address ≠ []) with
  | some address =>
      let pinned := pinToAddress parser url address request serverName
      baseFetch url pinned.target pinned.request pinned.serverName
  | none => baseFetch url url request serverName

/-- What the loop makes of a response; `again` is its next pass, unless no redirect may be
followed any more. -/
def followRedirect (settings : FetchSettings)
    (again : Option (Url → HopRequest → Fetching FetchResponse)) (url : Url)
    (request : HopRequest) (response : FetchResponse) : Fetching FetchResponse :=
  if response.status ∉ redirectStatuses ∨ settings.mode = .manual then pure response
  else
    match response.location.filter (fun location => location ≠ []) with
    | none => pure response
    | some location =>
        if settings.mode = .error then throw (.redirectRefused url)
        else
          match again with
          | none => throw (egressRefused ("more than " ++ toString maxRedirects ++ " redirects"))
          | some again =>
              match parser.parse location url with
              | none => throw .invalidUrl
              | some next =>
                  let request' := nextHopRequest response.status url next request
                  if ¬ settings.replayable ∧ request'.body ≠ none then throw bodyTooLarge
                  else again next request'

/-- The loop of `createGuardedFetch`; the number is that of the redirects it may still follow. -/
def fetchHops (settings : FetchSettings) : Nat → Url → HopRequest → Fetching FetchResponse
  | 0, url, request => do
      let response ← sendHop parser toLowerCase options settings.serverName url request
      followRedirect parser settings none url request response
  | redirects + 1, url, request => do
      let response ← sendHop parser toLowerCase options settings.serverName url request
      followRedirect parser settings (some (fetchHops settings redirects)) url request response

/-- A call of a guarded fetch: its URL, and the fields of its request and of its init. -/
structure FetchCall where
  url : Url
  request : Option RequestInit
  init : Option RequestInit
  deriving DecidableEq, Repr

/-- A field of the init, else of the request. -/
def FetchCall.field {α : Type} (call : FetchCall) (get : RequestInit → Option α) : Option α :=
  call.init.bind get <|> call.request.bind get

/-- A fetch that `createGuardedFetch` made. -/
def guardedFetch (call : FetchCall) : Fetching FetchResponse := do
  let mode := (call.field RequestInit.redirect).getD .follow
  let method := ((call.field RequestInit.method).getD "GET").toUpper
  let headers := (call.field RequestInit.headers).getD []
  let (body, replayable) ←
    if mode = .follow then replayableBody (call.field RequestInit.body)
    else pure (call.field RequestInit.body, true)
  fetchHops parser toLowerCase options
    ⟨mode, replayable, call.init.bind RequestInit.serverName⟩ maxRedirects call.url
    ⟨method, headers, body⟩

end

end AgentFs
