import AgentFs.Webhooks.Egress

/-!
# Guarded fetches

Where the requests of a guarded fetch go, whatever the resolver and the servers answer: every
request goes to a trusted URL, to a literal that is not private, or to an address of the last
answer of the resolver, none of which is private.  A fetch sends at most one request for
itself and for each of five redirects, and its credentials never leave the origin it started
at.
-/

namespace AgentFs

open Async

/-! ### Headers -/

theorem Headers.has_delete {headers : Headers} {name other : String} :
  (headers.delete other).has name ↔ name ≠ other ∧ headers.has name
  := by
  constructor
  · rintro ⟨h, hmem, rfl⟩
    obtain ⟨hmem, hne⟩ := List.mem_filter.mp hmem
    exact ⟨of_decide_eq_true hne, h, hmem, rfl⟩
  · rintro ⟨hne, h, hmem, rfl⟩
    exact ⟨h, List.mem_filter.mpr ⟨hmem, decide_eq_true hne⟩, rfl⟩

theorem Headers.has_of_set {headers : Headers} {name other : String} {value : Text}
    (h : (headers.set other value).has name) :
  name = other ∨ headers.has name
  := by
  obtain ⟨header, hmem, rfl⟩ := h
  obtain hmem | hmem := List.mem_append.mp hmem
  · exact .inr ⟨header, List.mem_of_mem_filter hmem, rfl⟩
  · left
    rw [List.mem_singleton.mp hmem]

/-- The request carries credentials. -/
def Headers.HasCredentials (headers : Headers) : Prop :=
  ∃ name ∈ credentialHeaders, headers.has name

theorem Headers.hasCredentials_of_delete {headers : Headers} {name : String}
    (h : (headers.delete name).HasCredentials) :
  headers.HasCredentials
  := by
  obtain ⟨credential, hmem, hhas⟩ := h
  exact ⟨credential, hmem, (has_delete.mp hhas).2⟩

theorem dropCredentials_hasCredentials (headers : Headers) :
  ¬ (dropCredentials headers).HasCredentials
  := by
  rintro ⟨name, hmem, hhas⟩
  simp only [dropCredentials, credentialHeaders, List.foldl_cons, List.foldl_nil,
    Headers.has_delete] at hhas
  obtain ⟨hproxy, hcookie, hauthorization, -⟩ := hhas
  simp [credentialHeaders, hproxy, hcookie, hauthorization] at hmem

/-- Credentials are passed on to the same origin only. -/
theorem nextHopRequest_hasCredentials {status : Nat} {base next : Url} {request : HopRequest}
    (h : (nextHopRequest status base next request).headers.HasCredentials) :
  next.origin = base.origin ∧ request.headers.HasCredentials
  := by
  have hheaders : (if next.origin ≠ base.origin then dropCredentials request.headers
      else request.headers).HasCredentials := by
    unfold nextHopRequest at h
    dsimp only at h
    generalize (if status = 303 then _ else _) = toGet at h
    cases toGet with
    | true => exact Headers.hasCredentials_of_delete (Headers.hasCredentials_of_delete h)
    | false => exact h
  split_ifs at hheaders with horigin
  · exact absurd hheaders (dropCredentials_hasCredentials _)
  · exact ⟨not_not.mp horigin, hheaders⟩

/-- Pinning adds no credentials. -/
theorem pinToAddress_hasCredentials {parser : UrlParser} {url : Url} {address : Text}
    {request : HopRequest} {serverName : Option Text}
    (h : (pinToAddress parser url address request serverName).request.headers.HasCredentials) :
  request.headers.HasCredentials
  := by
  unfold pinToAddress at h
  dsimp only at h
  split_ifs at h
  · exact h
  · obtain ⟨name, hmem, hhas⟩ := h
    obtain rfl | hhas := Headers.has_of_set hhas
    · exact absurd hmem (by decide)
    · exact ⟨name, hmem, hhas⟩

/-- A pinned request goes to the address, and to no other part of the URL. -/
theorem pinToAddress_target (parser : UrlParser) (url : Url) (address : IpLiteral)
    (request : HopRequest) (serverName : Option Text) :
  ∃ host, ipAddress host = ipAddress address.text ∧
    (pinToAddress parser url address.text request serverName).target =
      { url with hostname := host }
  := by
  obtain ⟨host, hhost, haddress⟩ := parser.parseHost_literal address
  refine ⟨host, haddress, ?_⟩
  unfold pinToAddress UrlParser.setHostname
  rw [hhost]

/-! ### What a fetch may request -/

/-- The URLs of the hops that were requested, newest first. -/
def requestedUrls (events : List FetchEvent) : List Url :=
  events.filterMap (fun event => match event with
    | .requested url _ _ _ => some url
    | _ => none)

section

variable (toLowerCase : Text → Text) (options : GuardedFetchOptions)

/-- Where the request of a hop to `url` may go after the events of its fetch. -/
inductive Permitted (events : List FetchEvent) (url : Url) : Url → Prop where
  | local (h : url.IsLocal) : Permitted events url url
  | trusted (isTrusted : Url → Bool) (hoption : options.isTrusted = some isTrusted)
      (h : isTrusted url = true) : Permitted events url url
  | literal (address : IpAddress) (h : ipAddress (stripBrackets url.hostname) = some address)
      (hpublic : isPrivateAddress toLowerCase (stripBrackets url.hostname) = false) :
      Permitted events url url
  | pinned (addresses : List IpLiteral) (address : IpLiteral) (hmem : address ∈ addresses)
      (hresolved : events.head? =
        some (.resolved (stripBrackets url.hostname) (.ok addresses)))
      (hpublic : ∀ a ∈ addresses, isPrivateAddress toLowerCase a.text = false)
      (host : Text) (hhost : ipAddress host = ipAddress address.text) :
      Permitted events url { url with hostname := host }

/-- What a fetch may do next. -/
def FetchRule : Rule FetchEvent := fun events event =>
  match event with
  | .requested url target request _ =>
      Permitted toLowerCase options events url target ∧
        (requestedUrls events).length ≤ maxRedirects ∧
        (request.headers.HasCredentials → ∀ u ∈ requestedUrls events, u.origin = url.origin)
  | _ => True

/-- What the check of a hop to `url` finds: the URL can be used as it is, or the address to
connect to. -/
def EgressChecked (url : Url) (events : List FetchEvent) : Option Text → Prop
  | none => Permitted toLowerCase options events url url
  | some address => ∃ addresses : List IpLiteral, ∃ a ∈ addresses, a.text = address ∧
      events.head? = some (.resolved (stripBrackets url.hostname) (.ok addresses)) ∧
      ∀ b ∈ addresses, isPrivateAddress toLowerCase b.text = false

/-- The judgement of a part of a fetch. -/
abbrev Fetching.Follows {α : Type} (fetching : Fetching α) (Q : List FetchEvent → α → Prop)
    (events : List FetchEvent) : Prop :=
  Fallible.Follows (FetchRule toLowerCase options) Q (fun _ _ => True) fetching events

end

section

variable {toLowerCase : Text → Text} {options : GuardedFetchOptions} {events : List FetchEvent}

/-- The address to connect to is one of the answer, none of which is private. -/
theorem chosen_address {addresses : List IpLiteral} {address : Text} {rest : List Text}
    (htexts : addresses.map IpLiteral.text = address :: rest)
    (hpublic : (address :: rest).any (isPrivateAddress toLowerCase) = false) :
  (∃ a ∈ addresses, a.text = ((address :: rest).find? isIPv4Literal).getD address) ∧
    ∀ b ∈ addresses, isPrivateAddress toLowerCase b.text = false
  := by
  have hchosen : ((address :: rest).find? isIPv4Literal).getD address ∈ address :: rest := by
    cases hfind : (address :: rest).find? isIPv4Literal with
    | none => exact List.mem_cons_self
    | some found => exact List.mem_of_find?_eq_some hfind
  rw [List.any_eq_false] at hpublic
  constructor
  · apply List.mem_map.mp
    rw [htexts]
    exact hchosen
  · intro b hb
    apply eq_false_of_ne_true
    apply hpublic
    rw [← htexts]
    exact List.mem_map_of_mem hb

theorem assertEgressAllowed_follows (hallow : options.policy.allowPrivate = false)
    (hlist : options.policy.allowlist = none) (url : Url) :
  (assertEgressAllowed toLowerCase options url).Follows toLowerCase options
    (fun events' checked => requestedUrls events' = requestedUrls events ∧
      EgressChecked toLowerCase options url events' checked) events
  := by
  unfold assertEgressAllowed
  split
  · split
    · rename_i hlocal
      exact ⟨rfl, .local hlocal⟩
    · exact trivial
  · split
    · rename_i htrusted
      obtain ⟨isTrusted, hoption, htrusted⟩ := htrusted
      exact ⟨rfl, .trusted isTrusted hoption htrusted⟩
    · rw [hlist, hallow]
      dsimp only [Option.filter_none]
      rw [if_neg Bool.false_ne_true]
      split_ifs with hloopback hliteral hprivate
      · exact trivial
      · exact trivial
      · rw [← ipAddress_isSome, Option.isSome_iff_exists] at hliteral
        obtain ⟨address, haddress⟩ := hliteral
        exact ⟨rfl, .literal address haddress (eq_false_of_ne_true hprivate)⟩
      · apply Fallible.Follows.bind
        apply Fallible.Follows.atomic
        intro _ answer
        refine ⟨trivial, ?_⟩
        cases haddresses : answer.addresses with
        | error message => exact trivial
        | ok addresses =>
            dsimp only [Except.mapError]
            cases htexts : addresses.map IpLiteral.text with
            | nil => exact trivial
            | cons address rest =>
                dsimp only
                split_ifs with hprivate
                · exact trivial
                · obtain ⟨⟨a, ha, hchosen⟩, hpublic⟩ :=
                    chosen_address htexts (eq_false_of_ne_true hprivate)
                  exact ⟨rfl, addresses, a, ha, hchosen, rfl, hpublic⟩

theorem baseFetch_follows {url target : Url} {request : HopRequest} (serverName : Option Text)
    (hpermitted : Permitted toLowerCase options events url target)
    (hfew : (requestedUrls events).length ≤ maxRedirects)
    (hcredentials : request.headers.HasCredentials →
      ∀ u ∈ requestedUrls events, u.origin = url.origin) :
  (baseFetch url target request serverName).Follows toLowerCase options
    (fun events' _ => requestedUrls events' = url :: requestedUrls events) events
  := by
  apply Fallible.Follows.atomic
  intro _ answer
  refine ⟨⟨hpermitted, hfew, hcredentials⟩, ?_⟩
  cases answer.response with
  | error message => exact trivial
  | ok response => rfl

/-- A hop sends one request, to where it is permitted. -/
theorem sendHop_follows (parser : UrlParser) (hallow : options.policy.allowPrivate = false)
    (hlist : options.policy.allowlist = none) (serverName : Option Text) {url : Url}
    {request : HopRequest} (hfew : (requestedUrls events).length ≤ maxRedirects)
    (hcredentials : request.headers.HasCredentials →
      ∀ u ∈ requestedUrls events, u.origin = url.origin) :
  (sendHop parser toLowerCase options serverName url request).Follows toLowerCase options
    (fun events' _ => requestedUrls events' = url :: requestedUrls events) events
  := by
  apply Fallible.Follows.bind
  apply Fallible.Follows.mono _ (fun _ _ _ => trivial)
    (assertEgressAllowed_follows hallow hlist url)
  rintro events' checked ⟨hsame, hchecked⟩
  rw [← hsame] at hfew hcredentials ⊢
  cases checked with
  | none => exact baseFetch_follows serverName hchecked hfew hcredentials
  | some address =>
      obtain ⟨addresses, a, ha, rfl, hresolved, hpublic⟩ := hchecked
      rw [Option.filter_some, if_pos (decide_eq_true a.text_ne_nil)]
      obtain ⟨host, hhost, htarget⟩ := pinToAddress_target parser url a request serverName
      apply baseFetch_follows _ _ hfew
      · intro hpinned
        exact hcredentials (pinToAddress_hasCredentials hpinned)
      · rw [htarget]
        exact .pinned addresses a ha hresolved hpublic host hhost

/-- A redirect is followed with what the next pass of the loop may assume. -/
theorem followRedirect_follows (parser : UrlParser) (settings : FetchSettings)
    {again : Option (Url → HopRequest → Fetching FetchResponse)} {url : Url}
    {request : HopRequest} {response : FetchResponse}
    (hagain : ∀ pass ∈ again, ∀ next request',
      (request'.headers.HasCredentials →
        next.origin = url.origin ∧ request.headers.HasCredentials) →
      (pass next request').Follows toLowerCase options (fun _ _ => True) events) :
  (followRedirect parser settings again url request response).Follows toLowerCase options
    (fun _ _ => True) events
  := by
  unfold followRedirect
  split
  · exact trivial
  · split
    · exact trivial
    · split
      · exact trivial
      · split
        · exact trivial
        · split
          · exact trivial
          · dsimp only
            split
            · exact trivial
            · exact hagain _ rfl _ _ nextHopRequest_hasCredentials

/-- The loop, with as many redirects left as it has not followed yet. -/
theorem fetchHops_follows (parser : UrlParser) (hallow : options.policy.allowPrivate = false)
    (hlist : options.policy.allowlist = none) (settings : FetchSettings) {redirects : Nat}
    {url : Url} {request : HopRequest}
    (hleft : (requestedUrls events).length + redirects = maxRedirects)
    (hcredentials : request.headers.HasCredentials →
      ∀ u ∈ requestedUrls events, u.origin = url.origin) :
  (fetchHops parser toLowerCase options settings redirects url request).Follows
    toLowerCase options (fun _ _ => True) events
  := by
  induction redirects generalizing url request events with
  | zero =>
      apply Fallible.Follows.bind
      apply Fallible.Follows.mono _ (fun _ _ _ => trivial)
        (sendHop_follows parser hallow hlist settings.serverName (by omega) hcredentials)
      intro events' response hevents'
      apply followRedirect_follows
      rintro pass ⟨⟩
  | succ redirects ih =>
      apply Fallible.Follows.bind
      apply Fallible.Follows.mono _ (fun _ _ _ => trivial)
        (sendHop_follows parser hallow hlist settings.serverName (by omega) hcredentials)
      intro events' response hevents'
      apply followRedirect_follows
      rintro pass ⟨⟩ next request' hnext
      apply ih
      · rw [hevents', List.length_cons]
        omega
      · intro hhas
        obtain ⟨horigin, hrequest⟩ := hnext hhas
        rw [hevents', horigin]
        intro u hu
        obtain rfl | hu := List.mem_cons.mp hu
        · rfl
        · exact hcredentials hrequest u hu

theorem replayableBody_follows (body : Option RequestBody) (hnone : requestedUrls events = []) :
  (replayableBody body).Follows toLowerCase options
    (fun events' _ => requestedUrls events' = []) events
  := by
  unfold replayableBody
  split
  · apply Fallible.Follows.atomic
    intro _ answer
    refine ⟨trivial, ?_⟩
    split
    · exact hnone
    · exact trivial
  · exact hnone

theorem guardedFetch_follows (parser : UrlParser) (hallow : options.policy.allowPrivate = false)
    (hlist : options.policy.allowlist = none) (call : FetchCall) :
  (guardedFetch parser toLowerCase options call).Follows toLowerCase options
    (fun _ _ => True) []
  := by
  have hbody : ∀ events' : List FetchEvent, ∀ mode method headers, ∀ r : Option RequestBody × Bool,
      requestedUrls events' = [] →
      (fetchHops parser toLowerCase options ⟨mode, r.2, call.init.bind RequestInit.serverName⟩
        maxRedirects call.url ⟨method, headers, r.1⟩).Follows toLowerCase options
        (fun _ _ => True) events' := by
    intro events' mode method headers r hnone
    apply fetchHops_follows parser hallow hlist
    · rw [hnone]
      rfl
    · rw [hnone]
      rintro - u ⟨⟩
  unfold guardedFetch
  dsimp only
  split
  · apply Fallible.Follows.bind
    apply Fallible.Follows.mono _ (fun _ _ _ => trivial) (replayableBody_follows _ rfl)
    intro events' r hnone
    exact hbody events' _ _ _ r hnone
  · exact hbody [] _ _ _ _ rfl

end

/-! ### Runs -/

/-- What holds of the events of a guarded fetch, newest first. -/
structure FetchContained (toLowerCase : Text → Text) (options : GuardedFetchOptions)
    (events : List FetchEvent) : Prop where
  /-- Every request goes to where it is permitted. -/
  permitted : ∀ later url target request serverName earlier,
    events = later ++ .requested url target request serverName :: earlier →
    Permitted toLowerCase options earlier url target
  few : (requestedUrls events).length ≤ 6
  /-- Credentials are sent to the origin of all earlier requests. -/
  credentials : ∀ later url target request serverName earlier,
    events = later ++ .requested url target request serverName :: earlier →
    request.headers.HasCredentials → ∀ u ∈ requestedUrls earlier, u.origin = url.origin

theorem FetchContained.cons {toLowerCase : Text → Text} {options : GuardedFetchOptions}
    {events : List FetchEvent} (h : FetchContained toLowerCase options events)
    {event : FetchEvent} (hrule : FetchRule toLowerCase options events event) :
  FetchContained toLowerCase options (event :: events)
  where
    permitted := by
      intro later url target request serverName earlier hsplit
      obtain ⟨-, hcons⟩ | ⟨later', -, hevents⟩ := List.cons_eq_append_iff.mp hsplit
      · cases hcons
        exact hrule.1
      · exact h.permitted later' url target request serverName earlier hevents
    few := by
      cases event with
      | resolved host addresses => exact h.few
      | bodyRead => exact h.few
      | requested url target request serverName => exact Nat.succ_le_succ hrule.2.1
    credentials := by
      intro later url target request serverName earlier hsplit
      obtain ⟨-, hcons⟩ | ⟨later', -, hevents⟩ := List.cons_eq_append_iff.mp hsplit
      · cases hcons
        exact hrule.2.2
      · exact h.credentials later' url target request serverName earlier hevents

section

variable (parser : UrlParser) (toLowerCase : Text → Text) (options : GuardedFetchOptions)

/-- Fetches that run side by side. -/
def fetchPool (calls : List FetchCall) :
    Pool Unit FetchAnswer FetchEvent (Except FetchError FetchResponse) :=
  ⟨⟨(), []⟩, calls.map (fun call => (guardedFetch parser toLowerCase options call).run)⟩

/-- In every run of guarded fetches, whatever the resolver and the servers answer, each fetch
sends at most six requests, all of them to trusted URLs, to literals that are not private or
to addresses of an answer without private ones, and no credentials to a second origin. -/
theorem guarded_fetch_contained (hallow : options.policy.allowPrivate = false)
    (hlist : options.policy.allowlist = none) (calls : List FetchCall)
    (sched : List (Nat × FetchAnswer)) (i : Nat) :
  FetchContained toLowerCase options
    (((fetchPool parser toLowerCase options calls).run sched).conf.own i)
  := by
  have hfollows : ∀ (i : Nat) p, (fetchPool parser toLowerCase options calls).procs[i]? = some p →
      Prog.Follows (FetchRule toLowerCase options) (fun _ _ => True) p
        ((fetchPool parser toLowerCase options calls).conf.own i) := by
    intro i p hp
    obtain ⟨call, -, rfl⟩ := List.mem_map.mp (List.mem_of_getElem? hp)
    apply Prog.Follows.mono (fun _ _ _ => trivial)
    exact guardedFetch_follows parser hallow hlist call
  have hempty : FetchContained toLowerCase options [] := by
    constructor
    · intro later url target request serverName earlier hsplit
      cases later with
      | nil => cases hsplit
      | cons event later => cases hsplit
    · exact Nat.zero_le 6
    · intro later url target request serverName earlier hsplit
      cases later with
      | nil => cases hsplit
      | cons event later => cases hsplit
  have hadmits := (Pool.run_follows hfollows sched).1
  apply (hadmits.inv (I := fun cf => ∀ j, FetchContained toLowerCase options (cf.own j)) _ _).2 i
  · intro cf j r hrule hcontained k
    rw [Conf.own_push]
    split
    · rename_i hjk
      rw [← hjk]
      exact (hcontained j).cons hrule
    · exact hcontained k
  · intro j
    exact hempty

end

/-- A parser of `https` locations, that leaves hosts as they are. -/
def sampleUrlParser : UrlParser where
  parse location _ :=
    if "https://".toList <+: location then
      some ⟨"https:".toList, (location.drop 8).takeWhile (· ≠ '/'), [], [],
        (location.drop 8).dropWhile (· ≠ '/')⟩
    else none
  parseHost := some
  parseHost_literal address := ⟨_, rfl, ipAddress_literalHost address.text⟩

/-- A public address, as the resolver answers it. -/
def sampleAddress : IpLiteral := ⟨"1.1.1.1".toList, .inl (by decide +kernel)⟩

/-- Every name resolves to the public address, and every server redirects to the location. -/
def sampleAnswer (location : String) : FetchAnswer where
  addresses := .ok [sampleAddress]
  response := .ok ⟨302, some location.toList⟩
  source := ⟨[], none⟩

/-- A request with credentials. -/
def sampleFetch : FetchCall where
  url := ⟨"https:".toList, "a.io".toList, [], [], "/".toList⟩
  request := none
  init := some { headers := some [("authorization", "secret".toList)] }

/-- A redirect to another name is followed, and one to a private address is not. -/
theorem guarded_fetch_contained_sampleFetch :
  FetchContained (·.map Char.toLower)
      (guardOptions (·.map Char.toLower) ⟨none, false⟩)
      (((fetchPool sampleUrlParser (·.map Char.toLower)
        (guardOptions (·.map Char.toLower) ⟨none, false⟩) [sampleFetch]).run
        ((["", "https://b.io/", "", "https://10.0.0.1/", ""]).map
          (fun location => (0, sampleAnswer location)))).conf.own 0) ∧
    (requestedUrls (((fetchPool sampleUrlParser (·.map Char.toLower)
        (guardOptions (·.map Char.toLower) ⟨none, false⟩) [sampleFetch]).run
        ((["", "https://b.io/", "", "https://10.0.0.1/", ""]).map
          (fun location => (0, sampleAnswer location)))).conf.own 0)).map (·.hostname) =
      ["b.io".toList, "a.io".toList]
  := by
  constructor
  · exact guarded_fetch_contained sampleUrlParser (·.map Char.toLower)
      (guardOptions (·.map Char.toLower) ⟨none, false⟩) rfl rfl [sampleFetch] _ 0
  · decide +kernel

end AgentFs
