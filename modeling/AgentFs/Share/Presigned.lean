import AgentFs.Lib.Calendar
import AgentFs.Lib.Solo
import AgentFs.Share.Routes

/-!
# The deadline of a presigned URL

What `presignShareUrl` releases.  The deadline of a URL is its signing stamp, read by the
calendar, and its lifetime.  A URL whose deadline is beyond the range of `Date` is released
whatever the expiry of the share; any other is released only within it.
-/

namespace AgentFs

open Async

/-! ### Stamps -/

/-- The fields of `X-Amz-Date`. -/
structure Stamp where
  year : Nat
  month : Nat
  day : Nat
  hour : Nat
  minute : Nat
  second : Nat
  deriving DecidableEq, Repr

/-- The fields of a text `YYYYMMDDTHHMMSSZ`. -/
def readStamp (text : Text) : Option Stamp := do
  guard (text.length = 16 ∧ text[8]? = some 'T' ∧ text[15]? = some 'Z')
  let field (start length : Nat) : Option Nat := digits? ((text.drop start).take length)
  let year ← field 0 4
  let month ← field 4 2
  let day ← field 6 2
  let hour ← field 9 2
  let minute ← field 11 2
  let second ← field 13 2
  pure ⟨year, month, day, hour, minute, second⟩

/-- The days from 1 January 1970 to a day; months and days count from `1` and run over. -/
def calendarDay (year month day : Nat) : Int :=
  (Calendar.daysBefore (year + 399) (month + 11) : Int) + day - 1 - Calendar.daysBeforeYear 2370

/-- The milliseconds of a stamp in a year. -/
def Stamp.msInYear (stamp : Stamp) (year : Nat) : Int :=
  (((calendarDay year stamp.month stamp.day * 24 + stamp.hour) * 60 + stamp.minute) * 60 +
    stamp.second) * 1000

/-- The time of a stamp. -/
def Stamp.asWritten (stamp : Stamp) : Int := stamp.msInYear stamp.year

/-- The time of a stamp as `Date.UTC` takes it, where a year below 100 is one of the twentieth
century. -/
def Stamp.asRead (stamp : Stamp) : Int :=
  stamp.msInYear (if stamp.year ≤ 99 then 1900 + stamp.year else stamp.year)

theorem amzDate?_eq (text : Text) :
  amzDate? text = (readStamp text).map (fun stamp => dateUTC stamp.year ((stamp.month : Int) - 1)
    stamp.day stamp.hour stamp.minute stamp.second)
  := by
  unfold amzDate? readStamp
  simp only [Option.bind_eq_bind, Option.map_bind, Option.pure_def, Function.comp_def,
    Option.map_some]

theorem dayFromYear_eq (year : Nat) :
  dayFromYear ((year : Int) - 400) =
    (Calendar.daysBeforeYear year : Int) - Calendar.daysBeforeYear 2370
  := by
  have hyear := Calendar.daysBeforeYear_eq year
  have hepoch := Calendar.daysBeforeYear_eq 2370
  unfold dayFromYear
  omega

theorem dayOfMonthStart_eq (year : Nat) {month : Nat} (hmonth : month < 12) :
  dayOfMonthStart ((year : Int) - 400) month = Calendar.daysBeforeMonth year month
  := by
  have hleap : ((((year : Int) - 400) % 4 = 0 ∧ ((year : Int) - 400) % 100 ≠ 0) ∨
      ((year : Int) - 400) % 400 = 0) ↔ Calendar.IsLeapYear year := by
    unfold Calendar.IsLeapYear
    omega
  unfold dayOfMonthStart
  simp only [hleap]
  rw [Calendar.daysBeforeMonth_eq year hmonth]
  interval_cases month <;> simp

/-- The closed form of `Date.UTC` counts the days of the calendar. -/
theorem dateUTC_days (year month day : Nat) :
  dayFromYear ((year : Int) + ((month : Int) - 1) / 12) +
      dayOfMonthStart ((year : Int) + ((month : Int) - 1) / 12) (((month : Int) - 1) % 12) +
      day - 1 = calendarDay year month day
  := by
  have hyear : (year : Int) + ((month : Int) - 1) / 12 =
      ((year + 399 + (month + 11) / 12 : Nat) : Int) - 400 := by
    omega
  have hmonth : ((month : Int) - 1) % 12 = ((month + 11) % 12 : Nat) := by
    omega
  rw [hyear, hmonth, dayFromYear_eq, dayOfMonthStart_eq _ (Nat.mod_lt _ (by decide))]
  unfold calendarDay Calendar.daysBefore
  omega

theorem dateUTC_eq (stamp : Stamp) :
  dateUTC stamp.year ((stamp.month : Int) - 1) stamp.day stamp.hour stamp.minute stamp.second =
    stamp.asRead
  := by
  have hyear : (if 0 ≤ (stamp.year : Int) ∧ (stamp.year : Int) ≤ 99 then 1900 + (stamp.year : Int)
      else stamp.year) = ((if stamp.year ≤ 99 then 1900 + stamp.year else stamp.year : Nat) : Int) := by
    split_ifs <;> omega
  unfold dateUTC Stamp.asRead Stamp.msInYear
  dsimp only
  rw [hyear, dateUTC_days]

/-- What `Date.UTC` takes a stamp for is never before it. -/
theorem Stamp.asWritten_le (stamp : Stamp) :
  stamp.asWritten ≤ stamp.asRead
  := by
  unfold asWritten asRead
  split
  · have hyear : stamp.year + 399 ≤ 1900 + stamp.year + 399 := by omega
    have hday := Calendar.daysBefore_mono_year hyear (stamp.month + 11)
    unfold msInYear calendarDay
    omega
  · apply le_refl

theorem Stamp.asRead_lower (stamp : Stamp) :
  -8640000000000000 ≤ stamp.asRead
  := by
  have hepoch := Calendar.daysBeforeYear_eq 2370
  unfold asRead msInYear calendarDay
  omega

/-! ### Deadlines -/

/-- A parameter of the query of a URL. -/
def PresignedUrl.get (url : PresignedUrl) (name : String) : Option Text :=
  url.searchParams.bind (fun params =>
    (params.find? (fun p => p.1 = name.toList)).map (·.2))

/-- The signing stamp of a URL, and its lifetime in seconds. -/
def PresignedUrl.signature (url : PresignedUrl) : Option (Stamp × Nat) := do
  let stamp ← (url.get "X-Amz-Date").bind readStamp
  let lifetime ← (url.get "X-Amz-Expires").bind digits?
  pure (stamp, lifetime)

/-- When a URL stops working, in milliseconds: its signing time, and its lifetime. -/
def PresignedUrl.deadline (time : Stamp → Int) (url : PresignedUrl) : Option Int :=
  url.signature.map (fun s => time s.1 + s.2 * 1000)

/-- The code reads the deadline as a date. -/
theorem presignedUrlDeadline_eq (url : PresignedUrl) :
  presignedUrlDeadline url = (url.deadline Stamp.asRead).map dateOfMs
  := by
  unfold presignedUrlDeadline PresignedUrl.deadline PresignedUrl.signature PresignedUrl.get
  cases url.searchParams with
  | none => rfl
  | some params =>
      have hdate : amzDate? (((params.find? (fun p => p.1 = "X-Amz-Date".toList)).map
          (·.2)).getD []) = (((params.find? (fun p => p.1 = "X-Amz-Date".toList)).map
          (·.2)).bind readStamp).map Stamp.asRead := by
        cases (params.find? (fun p => p.1 = "X-Amz-Date".toList)).map (·.2) with
        | none => rfl
        | some text =>
            rw [Option.getD_some, amzDate?_eq]
            simp only [dateUTC_eq]
            rfl
      simp only [Option.bind_eq_bind, Option.bind_some, hdate]
      cases ((params.find? (fun p => p.1 = "X-Amz-Date".toList)).map (·.2)).bind readStamp with
      | none => rfl
      | some stamp =>
          simp only [Option.map_some, Option.bind_some]
          cases ((params.find? (fun p => p.1 = "X-Amz-Expires".toList)).map (·.2)).bind digits? with
          | none => rfl
          | some lifetime => rfl

/-! ### What is released -/

/-- The last time of a `Date`. -/
def maxDateMs : Int := 8640000000000000

/-- A URL may be released when its deadline is in time, or beyond the range of `Date`. -/
theorem urlWithinShare_iff (share : ShareRow) (url : PresignedUrl) :
  UrlWithinShare share url ↔ ∃ deadline ∈ url.deadline Stamp.asRead,
    deadline ≤ share.expiresAt * 1000 ∨ maxDateMs < deadline
  := by
  unfold UrlWithinShare
  rw [presignedUrlDeadline_eq]
  cases hdeadline : url.deadline Stamp.asRead with
  | none => simp
  | some deadline =>
      have hlower : -maxDateMs ≤ deadline := by
        obtain ⟨s, -, rfl⟩ := Option.map_eq_some_iff.mp hdeadline
        have hstamp := s.1.asRead_lower
        unfold maxDateMs
        omega
      unfold dateOfMs maxDateMs at *
      simp only [Option.map_some, Option.mem_some_iff, exists_eq_left']
      split_ifs with hrange
      · simp
        omega
      · simp
        omega

/-- The answer of `presignShareUrl`, when it reads the clock at `x` and the storage answers
`y`. -/
theorem presignShareUrl_meeting (share : ShareRow) (capSeconds : Nat) (missing : ShareResponse)
    (w w' : ShareWorld) (x y : ShareInput) :
  (presignShareUrl share capSeconds missing).run.meeting [(w, x), (w', y)] =
    match capUrlTtlSeconds share capSeconds x.now, y.fault with
    | none, _ => some (.ok none)
    | some _, none => some (.ok (if UrlWithinShare share y.url then some y.url else none))
    | some _, some .notFound => some (.error missing)
    | some _, some .other => some (.error internalError)
  := by
  unfold presignShareUrl storageCall look shareSegment
  rw [Fallible.meeting_atomic_bind]
  dsimp only
  cases capUrlTtlSeconds share capSeconds x.now with
  | none => rfl
  | some ttl =>
      dsimp only
      rw [Fallible.meeting_atomic_bind]
      dsimp only
      cases y.fault with
      | none => rfl
      | some fault =>
          cases fault with
          | notFound => rfl
          | other => rfl

/-- A URL is returned just when there is time left, the storage signs one, and its deadline may
be released. -/
theorem presignShareUrl_meeting_iff (share : ShareRow) (capSeconds : Nat)
    (missing : ShareResponse) (w w' : ShareWorld) (x y : ShareInput) (url : PresignedUrl) :
  (presignShareUrl share capSeconds missing).run.meeting [(w, x), (w', y)] =
      some (.ok (some url)) ↔
    capUrlTtlSeconds share capSeconds x.now ≠ none ∧ y.fault = none ∧ y.url = url ∧
      UrlWithinShare share url
  := by
  rw [presignShareUrl_meeting]
  cases capUrlTtlSeconds share capSeconds x.now with
  | none => simp
  | some ttl =>
      cases y.fault with
      | none =>
          by_cases hwithin : UrlWithinShare share y.url
          · simp [hwithin]
            rintro rfl
            exact hwithin
          · simp [hwithin]
            rintro rfl
            exact hwithin
      | some fault => cases fault <;> simp

/-- The lifetime for which a URL is signed: the cap, or what is left of the share. -/
theorem capUrlTtlSeconds_eq_some_iff (share : ShareRow) (capSeconds now ttl : Nat) :
  capUrlTtlSeconds share capSeconds now = some ttl ↔
    share.expiresAt * 1000 ≤ maxDateMs ∧ 1 ≤ ttl ∧
      ttl = min capSeconds ((share.expiresAt * 1000 - now) / 1000)
  := by
  have hdate : dateOfMs (share.expiresAt * 1000) ≠ none ↔ share.expiresAt * 1000 ≤ maxDateMs := by
    unfold dateOfMs maxDateMs
    split
    · rename_i hrange
      exact iff_of_true (Option.some_ne_none _) hrange.2
    · rename_i hrange
      exact iff_of_false (fun h => h rfl) (fun h => hrange ⟨by omega, h⟩)
  rw [← hdate]
  unfold capUrlTtlSeconds
  dsimp only
  split
  · rename_i h
    rw [Option.some.injEq]
    constructor
    · rintro rfl
      exact ⟨h.1, h.2, rfl⟩
    · exact fun hparts => hparts.2.2.symm
  · rename_i h
    refine iff_of_false (fun hsome => nomatch hsome) ?_
    rintro ⟨hrange, hpos, rfl⟩
    exact h ⟨hrange, hpos⟩

/-- The URL is signed at the pinned time: its stamp is the second of it, and its lifetime the
given one. -/
def HonoursPin (url : PresignedUrl) (signedAt ttl : Nat) : Prop :=
  ∃ stamp, url.signature = some (stamp, ttl) ∧ 100 ≤ stamp.year ∧
    stamp.asWritten = (signedAt : Int) / 1000 * 1000

theorem urlWithinShare_of_honoursPin {share : ShareRow} {capSeconds now ttl : Nat}
    {url : PresignedUrl} (httl : capUrlTtlSeconds share capSeconds now = some ttl)
    (hpin : HonoursPin url now ttl) :
  UrlWithinShare share url
  := by
  obtain ⟨stamp, hsignature, hyear, htime⟩ := hpin
  obtain ⟨hrange, hpos, heq⟩ := (capUrlTtlSeconds_eq_some_iff ..).mp httl
  rw [urlWithinShare_iff]
  have hread : stamp.asRead = stamp.asWritten := by
    unfold Stamp.asRead Stamp.asWritten
    rw [if_neg (by omega)]
  refine ⟨stamp.asRead + ttl * 1000, ?_, ?_⟩
  · unfold PresignedUrl.deadline
    rw [hsignature]
    rfl
  · left
    rw [hread, htime]
    have hle : ttl ≤ (share.expiresAt * 1000 - now) / 1000 := by omega
    omega

/-- What `presignShareUrl` returns is within the expiry of the share if and only if it is not a
URL with a deadline beyond the range of `Date`, and a URL that is signed at the pinned time is
returned. -/
theorem presigned_within_share_iff (share : ShareRow) (capSeconds : Nat)
    (missing : ShareResponse) (w w' : ShareWorld) (x y : ShareInput) :
  ((∀ url, (presignShareUrl share capSeconds missing).run.meeting [(w, x), (w', y)] =
        some (.ok (some url)) →
      ∃ deadline ∈ url.deadline Stamp.asRead, deadline ≤ share.expiresAt * 1000) ↔
    ¬ (capUrlTtlSeconds share capSeconds x.now ≠ none ∧ y.fault = none ∧
      ∃ deadline ∈ y.url.deadline Stamp.asRead, maxDateMs < deadline)) ∧
  (∀ (url : PresignedUrl) (written read : Int), url.deadline Stamp.asWritten = some written →
    url.deadline Stamp.asRead = some read → written ≤ read) ∧
  (∀ ttl, capUrlTtlSeconds share capSeconds x.now = some ttl ↔
    share.expiresAt * 1000 ≤ maxDateMs ∧ 1 ≤ ttl ∧
      ttl = min capSeconds ((share.expiresAt * 1000 - x.now) / 1000)) ∧
  (∀ ttl, capUrlTtlSeconds share capSeconds x.now = some ttl → y.fault = none →
    HonoursPin y.url x.now ttl →
    (presignShareUrl share capSeconds missing).run.meeting [(w, x), (w', y)] =
      some (.ok (some y.url)))
  := by
  refine ⟨⟨?_, ?_⟩, ?_, fun ttl => capUrlTtlSeconds_eq_some_iff .., ?_⟩
  · rintro h ⟨httl, hfault, deadline, hdeadline, hbeyond⟩
    have hwithin : UrlWithinShare share y.url :=
      (urlWithinShare_iff ..).mpr ⟨deadline, hdeadline, .inr hbeyond⟩
    obtain ⟨deadline', hdeadline', hle⟩ :=
      h y.url ((presignShareUrl_meeting_iff ..).mpr ⟨httl, hfault, rfl, hwithin⟩)
    obtain ⟨ttl, httl⟩ := Option.ne_none_iff_exists'.mp httl
    have hrange := ((capUrlTtlSeconds_eq_some_iff ..).mp httl).1
    rw [Option.mem_def] at hdeadline hdeadline'
    rw [hdeadline, Option.some.injEq] at hdeadline'
    omega
  · intro h url hurl
    obtain ⟨httl, hfault, rfl, hwithin⟩ := (presignShareUrl_meeting_iff ..).mp hurl
    obtain ⟨deadline, hdeadline, hle | hbeyond⟩ := (urlWithinShare_iff ..).mp hwithin
    · exact ⟨deadline, hdeadline, hle⟩
    · exact absurd ⟨httl, hfault, deadline, hdeadline, hbeyond⟩ h
  · intro url written read hwritten hread
    obtain ⟨s, hs, rfl⟩ := Option.map_eq_some_iff.mp hwritten
    obtain ⟨s', hs', rfl⟩ := Option.map_eq_some_iff.mp hread
    rw [hs, Option.some.injEq] at hs'
    subst hs'
    have hle := s.1.asWritten_le
    omega
  · intro ttl httl hfault hpin
    rw [presignShareUrl_meeting_iff]
    refine ⟨?_, hfault, rfl, urlWithinShare_of_honoursPin httl hpin⟩
    rw [httl]
    exact Option.some_ne_none ttl

/-- A share for one hour. -/
def samplePresignShare : ShareRow where
  id := "s1".toList
  orgId := "o".toList
  driveId := "d".toList
  path := "/a.md".toList
  kind := .file
  tokenHash := "h".toList
  expiresAt := 1774008000
  neverExpires := false
  maxViews := none
  views := 0
  lastViewedAt := none
  createdBy := "u".toList
  createdAt := 1774004400
  revokedAt := none
  revokedBy := none

/-- What a segment takes from outside at a time, when the storage answers with a URL. -/
def samplePresignInput (now : Nat) (url : PresignedUrl) : ShareInput where
  now := now
  fault := none
  size := 0
  bytes := []
  url := url
  pathKind := none
  token := []
  uuid := []
  isAdmin := false

/-- A URL with a signing stamp and a lifetime. -/
def samplePresignedUrl (date expires : String) : PresignedUrl where
  href := "https://s3.example/k".toList
  searchParams := some [("X-Amz-Date".toList, date.toList), ("X-Amz-Expires".toList, expires.toList)]

/-- A URL that is signed at the second of the pinned time, for what is left, is returned. -/
theorem presigned_within_share_iff_samplePresignShare :
  (presignShareUrl samplePresignShare 3600 internalError).run.meeting
      [(⟨0, .empty⟩, samplePresignInput 1774004400123 (samplePresignedUrl "" "")),
        (⟨0, .empty⟩, samplePresignInput 1774004401000
          (samplePresignedUrl "20260320T110000Z" "3599"))] =
    some (.ok (some (samplePresignedUrl "20260320T110000Z" "3599")))
  := by
  apply (presigned_within_share_iff ..).2.2.2 3599
  · decide
  · rfl
  · exact ⟨⟨2026, 3, 20, 11, 0, 0⟩, by decide +kernel, by decide, by decide +kernel⟩

/-- A URL that works for ten million million seconds is returned for a share of an hour. -/
theorem presigned_url_outlives_share :
  ¬ ∀ (share : ShareRow) (capSeconds : Nat) (missing : ShareResponse) (w w' : ShareWorld)
      (x y : ShareInput) (url : PresignedUrl),
    (presignShareUrl share capSeconds missing).run.meeting [(w, x), (w', y)] =
        some (.ok (some url)) →
      ∃ deadline ∈ url.deadline Stamp.asWritten, deadline ≤ share.expiresAt * 1000
  := by
  intro h
  obtain ⟨deadline, hdeadline, hle⟩ := h samplePresignShare 3600 internalError ⟨0, .empty⟩
    ⟨0, .empty⟩ (samplePresignInput 1774004400123 (samplePresignedUrl "" ""))
    (samplePresignInput 1774004401000 (samplePresignedUrl "20260320T110000Z" "10000000000000"))
    (samplePresignedUrl "20260320T110000Z" "10000000000000") (by decide +kernel)
  have hvalue : (samplePresignedUrl "20260320T110000Z" "10000000000000").deadline
      Stamp.asWritten = some 10001774004400000 := by
    decide +kernel
  rw [Option.mem_def, hvalue, Option.some.injEq] at hdeadline
  subst hdeadline
  exact absurd hle (by decide)

end AgentFs
