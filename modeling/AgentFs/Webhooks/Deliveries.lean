import Mathlib.Data.Char
import Mathlib.Data.List.Lex
import Mathlib.Data.Prod.Lex
import AgentFs.Lib.Keyset
import AgentFs.Lib.Sql
import AgentFs.Webhooks.DeliveryCursor
import AgentFs.Webhooks.System

/-!
# The delivery log

`webhook-deliveries` lists the deliveries of a subscription, newest first, a page at a time.  A
reader who follows the cursors reads all of them, also while newer deliveries are inserted.
-/

namespace AgentFs

open Tabular

/-! ### The operation -/

def defaultDeliveriesLimit : Nat := 50

/-- A delivery as operations return it; times in milliseconds. -/
structure PublicDelivery where
  id : Text
  subscriptionId : Text
  eventId : Text
  eventType : WebhookEventType
  status : DeliveryStatus
  attempts : Int
  nextAttemptAt : Option Nat
  lastAttemptAt : Option Nat
  lastStatusCode : Option Nat
  lastError : Option Text
  deliveredAt : Option Nat
  createdAt : Nat
  payload : Option Text
  deriving DecidableEq, Repr

def toPublicDelivery (includePayload : Bool) (row : DeliveryRow) : PublicDelivery where
  id := row.id
  subscriptionId := row.subscriptionId
  eventId := row.eventId
  eventType := row.eventType
  status := row.status
  attempts := row.attempts
  nextAttemptAt := if row.status = .pending then some row.nextAttemptAt else none
  lastAttemptAt := row.lastAttemptAt
  lastStatusCode := row.lastStatusCode
  lastError := row.lastError
  deliveredAt := row.deliveredAt
  createdAt := row.createdAt
  payload := if includePayload then some row.payload else none

structure WebhookDeliveriesParams where
  id : Text
  status : Option DeliveryStatus := none
  limit : Option Nat := none
  cursor : Option Text := none
  includePayload : Bool := false
  deriving DecidableEq, Repr

def WebhookDeliveriesParams.pageSize (params : WebhookDeliveriesParams) : Nat :=
  params.limit.getD defaultDeliveriesLimit

/-- The conditions on the rows of the log. -/
def deliveryFilters (subscriptionId : Text) (status : Option DeliveryStatus) (row : DeliveryRow) :
    List Sql.Truth :=
  Sql.eq (some row.subscriptionId) (some subscriptionId) ::
    match status with
    | none => []
    | some status => [Sql.eq (some row.status) (some status)]

/-- The conditions on the rows after a cursor; a time that is no date is bound as NULL. -/
def cursorFilters (after : Option DeliveriesCursor) (row : DeliveryRow) : List Sql.Truth :=
  match after with
  | none => []
  | some after =>
      let time := (dateOfMs after.createdAt).map Int.toNat
      [(Sql.lt (some row.createdAt) time).or
        ((Sql.eq (some row.createdAt) time).and (Sql.lt (some row.id) (some after.id)))]

/-- `ORDER BY created_at DESC, id DESC`. -/
def NewestFirst (row other : DeliveryRow) : Prop :=
  other.createdAt < row.createdAt ∨ (other.createdAt = row.createdAt ∧ other.id ≤ row.id)

instance (row other : DeliveryRow) : Decidable (NewestFirst row other) :=
  inferInstanceAs (Decidable (_ ∨ _))

/-- The position that the parameters name. -/
def decodeCursor? (cursor : Option Text) : Except OpError (Option DeliveriesCursor) :=
  match cursor with
  | none => .ok none
  | some cursor => (decodeDeliveriesCursor cursor).map some

/-- A subscription's deliveries, newest first, and the cursor of the next page.  One extra row
tells whether another page exists. -/
def webhookDeliveries (ctx : OpContext) (params : WebhookDeliveriesParams) (x : HookInput)
    (db : Db) : Except OpError (List PublicDelivery × Option Text) := do
  let sub ← getScopedSubscription ctx params.id x db
  let after ← decodeCursor? params.cursor
  let selected := db.deliveries.filter (fun row =>
    Sql.Selects (Sql.all (deliveryFilters sub.id params.status row ++ cursorFilters after row)))
  let rows := (selected.insertionSort NewestFirst).take (params.pageSize + 1)
  let page := rows.take params.pageSize
  pure (page.map (toPublicDelivery params.includePayload),
    if params.pageSize < rows.length then page.getLast?.map encodeDeliveriesCursor else none)

/-! ### Pages of the log -/

/-- The rows of the log. -/
def DeliveryRow.InLog (subscriptionId : Text) (status : Option DeliveryStatus)
    (row : DeliveryRow) : Prop :=
  row.subscriptionId = subscriptionId ∧ ∀ s ∈ status, row.status = s

instance (subscriptionId : Text) (status : Option DeliveryStatus) (row : DeliveryRow) :
    Decidable (row.InLog subscriptionId status) :=
  inferInstanceAs (Decidable (_ ∧ _))

def deliveryLog (subscriptionId : Text) (status : Option DeliveryStatus) (db : Db) :
    List DeliveryRow :=
  db.deliveries.filter (fun row => row.InLog subscriptionId status)

/-- A row as it is stored: with the id that was drawn for it, and the time of a `Date`. -/
structure DeliveryRow.Stored (row : DeliveryRow) : Prop where
  id : row.id ≠ []
  createdAt : row.createdAt ≤ 8640000000000000

/-- What the log is ordered by. -/
def DeliveryRow.position (row : DeliveryRow) : Nat ×ₗ Text :=
  toLex (row.createdAt, row.id)

theorem position_le_iff (row other : DeliveryRow) :
  other.position ≤ row.position ↔ NewestFirst row other
  := by
  unfold DeliveryRow.position NewestFirst
  rw [Prod.Lex.le_iff]
  rfl

theorem position_lt_iff (row : DeliveryRow) (createdAt : Nat) (id : Text) :
  row.position < toLex (createdAt, id) ↔
    row.createdAt < createdAt ∨ (row.createdAt = createdAt ∧ row.id < id)
  := by
  unfold DeliveryRow.position
  rw [Prod.Lex.lt_iff]
  rfl

theorem insertionSort_newestFirst (rows : List DeliveryRow) :
  rows.insertionSort NewestFirst = Keyset.sortDown DeliveryRow.position rows
  := by
  unfold Keyset.sortDown
  simp only [position_le_iff]

/-- The position of a cursor. -/
def DeliveriesCursor.position (after : DeliveriesCursor) : Nat ×ₗ Text :=
  toLex (after.createdAt, after.id)

theorem selects_deliveryFilters_iff (subscriptionId : Text) (status : Option DeliveryStatus)
    (row : DeliveryRow) :
  Sql.Selects (Sql.all (deliveryFilters subscriptionId status row)) ↔
    row.InLog subscriptionId status
  := by
  unfold deliveryFilters DeliveryRow.InLog
  cases status <;> simp

theorem selects_cursorFilters_iff {after : Option DeliveriesCursor}
    (hdate : ∀ c ∈ after, c.createdAt ≤ 8640000000000000) (row : DeliveryRow) :
  Sql.Selects (Sql.all (cursorFilters after row)) ↔
    ∀ c ∈ after.map DeliveriesCursor.position, row.position < c
  := by
  unfold cursorFilters
  cases after with
  | none => simp
  | some after =>
      have htime : (dateOfMs after.createdAt).map Int.toNat = some after.createdAt := by
        have hle := hdate after rfl
        unfold dateOfMs
        rw [if_pos (by omega)]
        rfl
      simp only [htime, Option.map_some, Option.mem_some_iff, forall_eq',
        DeliveriesCursor.position, position_lt_iff]
      simp

/-- The rows that a page is taken from. -/
theorem deliveries_selected {subscriptionId : Text} {status : Option DeliveryStatus}
    {after : Option DeliveriesCursor} (hdate : ∀ c ∈ after, c.createdAt ≤ 8640000000000000)
    (db : Db) :
  db.deliveries.filter (fun row => Sql.Selects (Sql.all
      (deliveryFilters subscriptionId status row ++ cursorFilters after row))) =
    Keyset.below DeliveryRow.position (after.map DeliveriesCursor.position)
      (deliveryLog subscriptionId status db)
  := by
  unfold Keyset.below deliveryLog
  rw [List.filter_filter]
  apply List.filter_congr
  intro row hrow
  rw [Bool.and_eq_decide, decide_eq_decide, decide_eq_true_eq, decide_eq_true_eq,
    ← selects_cursorFilters_iff hdate, ← selects_deliveryFilters_iff, Sql.selects_all,
    Sql.selects_all, Sql.selects_all, List.forall_mem_append]
  exact and_comm

/-- The cursor of a position. -/
def encodePosition (position : Nat ×ₗ Text) : Text :=
  Base64.encodeUrl (textEncode (decimal (ofLex position).1 ++ ':' :: (ofLex position).2))

/-- The operation answers with a page of the log. -/
theorem webhookDeliveries_eq {ctx : OpContext} {params : WebhookDeliveriesParams} {x : HookInput}
    {db : Db} {sub : SubscriptionRow} (hsub : getScopedSubscription ctx params.id x db = .ok sub)
    {after : Option DeliveriesCursor} (hafter : decodeCursor? params.cursor = .ok after)
    (hdate : ∀ c ∈ after, c.createdAt ≤ 8640000000000000) :
  webhookDeliveries ctx params x db =
    let page := Keyset.page DeliveryRow.position params.pageSize
      (after.map DeliveriesCursor.position) (deliveryLog sub.id params.status db)
    .ok (page.1.map (toPublicDelivery params.includePayload), page.2.map encodePosition)
  := by
  unfold webhookDeliveries Keyset.page
  rw [hsub, hafter]
  dsimp only [bind, Except.bind, pure, Except.pure]
  rw [deliveries_selected hdate, insertionSort_newestFirst]
  split
  · rw [Option.map_map]
    rfl
  · rfl

/-! ### Reading the log -/

/-- A reader who follows the cursors: the tables, the cursor it was given last, what it has
read, and how many pages it has asked for. -/
structure LogReading where
  db : Db
  cursor : Option Text
  taken : List PublicDelivery
  requests : Nat
  finished : Bool

/-- A reader before the first page. -/
def LogReading.start (db : Db) : LogReading := ⟨db, none, [], 0, false⟩

/-- The reader asks for the next page, or a delivery that is later than the last one it was
given is inserted between two pages. -/
inductive LogReading.Step (ctx : OpContext) (params : WebhookDeliveriesParams) (x : HookInput) :
    LogReading → LogReading → Prop where
  | page {s : LogReading} {page : List PublicDelivery} {next : Option Text}
      (hmore : s.finished = false)
      (hpage : webhookDeliveries ctx { params with cursor := s.cursor } x s.db =
        .ok (page, next)) :
      Step ctx params x s ⟨s.db, next, s.taken ++ page, s.requests + 1, next.isNone⟩
  | insert {s : LogReading} {cursor : Text} {after : DeliveriesCursor} {row : DeliveryRow}
      (hcursor : s.cursor = some cursor) (hafter : decodeDeliveriesCursor cursor = .ok after)
      (hlater : after.createdAt < row.createdAt) (hrow : row.Stored)
      (hnew : ∀ d ∈ s.db.deliveries, d.id ≠ row.id) :
      Step ctx params x s { s with db := { s.db with deliveries := s.db.deliveries ++ [row] } }

/-- The reader of the log reads the pages of its rows. -/
structure LogReading.Reads (subscriptionId : Text) (params : WebhookDeliveriesParams)
    (subscriptions : List SubscriptionRow) (s : LogReading)
    (r : Keyset.Reading DeliveryRow (Nat ×ₗ Text)) : Prop where
  subscriptions : s.db.subscriptions = subscriptions
  stored : ∀ d ∈ s.db.deliveries, d.Stored
  rows : r.rows = deliveryLog subscriptionId params.status s.db
  cursor : s.cursor = r.after.map encodePosition
  date : ∀ c ∈ r.after, (ofLex c).1 ≤ 8640000000000000 ∧ (ofLex c).2 ≠ []
  taken : s.taken = r.taken.map (toPublicDelivery params.includePayload)
  requests : s.requests = r.requests
  finished : s.finished = r.finished

variable {ctx : OpContext} {params : WebhookDeliveriesParams} {x : HookInput}

theorem LogReading.Reads.start {subscriptionId : Text} {db : Db}
    (hstored : ∀ d ∈ db.deliveries, d.Stored) :
  (LogReading.start db).Reads subscriptionId params db.subscriptions
    (.start (deliveryLog subscriptionId params.status db))
  where
  subscriptions := rfl
  stored := hstored
  rows := rfl
  cursor := rfl
  date := fun _ h => nomatch h
  taken := rfl
  requests := rfl
  finished := rfl

theorem position_stored {row : DeliveryRow} (h : row.Stored) :
  (ofLex row.position).1 ≤ 8640000000000000 ∧ (ofLex row.position).2 ≠ []
  := ⟨h.createdAt, h.id⟩

theorem decodeCursor?_encodePosition {after : Option (Nat ×ₗ Text)}
    (h : ∀ c ∈ after, (ofLex c).2 ≠ []) :
  decodeCursor? (after.map encodePosition) =
    .ok (after.map (fun c => ⟨(ofLex c).1, (ofLex c).2⟩))
  := by
  cases after with
  | none => rfl
  | some c =>
      change (decodeDeliveriesCursor (encodePosition c)).map some = _
      unfold encodePosition
      rw [decodeDeliveriesCursor_text _ (h c rfl)]
      rfl

/-- The page that the reader is given next. -/
theorem LogReading.Reads.page {s : LogReading} {r : Keyset.Reading DeliveryRow (Nat ×ₗ Text)}
    {sub : SubscriptionRow} {db : Db} (hsub : getScopedSubscription ctx params.id x db = .ok sub)
    (h : s.Reads sub.id params db.subscriptions r) :
  webhookDeliveries ctx { params with cursor := s.cursor } x s.db =
    let page := Keyset.page DeliveryRow.position params.pageSize r.after r.rows
    .ok (page.1.map (toPublicDelivery params.includePayload), page.2.map encodePosition)
  := by
  have hsub' : getScopedSubscription ctx params.id x s.db = .ok sub := by
    unfold getScopedSubscription
    rw [h.subscriptions]
    exact hsub
  have hafter : decodeCursor? s.cursor =
      .ok (r.after.map (fun c => ⟨(ofLex c).1, (ofLex c).2⟩)) := by
    rw [h.cursor, decodeCursor?_encodePosition (fun c hc => (h.date c hc).2)]
  have hdate : ∀ c ∈ r.after.map (fun c : Nat ×ₗ Text =>
      (⟨(ofLex c).1, (ofLex c).2⟩ : DeliveriesCursor)), c.createdAt ≤ 8640000000000000 := by
    intro c hc
    obtain ⟨p, hp, rfl⟩ := Option.map_eq_some_iff.mp hc
    exact (h.date p hp).1
  rw [@webhookDeliveries_eq ctx { params with cursor := s.cursor } x s.db sub hsub' _ hafter hdate,
    h.rows, Option.map_map]
  have hid : DeliveriesCursor.position ∘ (fun c : Nat ×ₗ Text =>
      (⟨(ofLex c).1, (ofLex c).2⟩ : DeliveriesCursor)) = id := rfl
  rw [hid, Option.map_id]
  rfl

/-- Each step of the reader is one of the reader of pages, or changes nothing for it. -/
theorem LogReading.Reads.step {s s' : LogReading} {r : Keyset.Reading DeliveryRow (Nat ×ₗ Text)}
    {sub : SubscriptionRow} {db : Db} (hsub : getScopedSubscription ctx params.id x db = .ok sub)
    (h : s.Reads sub.id params db.subscriptions r) (hstep : LogReading.Step ctx params x s s') :
  ∃ r', Relation.ReflTransGen (Keyset.Reading.Step DeliveryRow.position params.pageSize) r r' ∧
    s'.Reads sub.id params db.subscriptions r'
  := by
  cases hstep with
  | page hmore hpage =>
      rw [h.page hsub] at hpage
      cases hpage
      refine ⟨r.next DeliveryRow.position params.pageSize, .single (.page ?_), ?_⟩
      · rw [← h.finished]
        exact hmore
      · constructor
        · exact h.subscriptions
        · exact h.stored
        · exact h.rows
        · rfl
        · intro c hc
          obtain ⟨row, hrow, rfl⟩ := Keyset.exists_of_page_eq (Prod.ext rfl hc)
          rw [h.rows] at hrow
          exact position_stored (h.stored row (List.mem_of_mem_filter hrow))
        · change s.taken ++ _ = List.map _ (r.taken ++ _)
          rw [List.map_append, h.taken]
        · change s.requests + 1 = r.requests + 1
          rw [h.requests]
        · apply Option.isNone_map
  | insert hcursor hafter hlater hrow hnew =>
      rename_i cursor after row
      obtain ⟨c, hc, rfl⟩ := Option.map_eq_some_iff.mp (h.cursor.symm.trans hcursor)
      have hdecode := decodeDeliveriesCursor_text (ofLex c).1 (h.date c hc).2
      cases hdecode.symm.trans hafter
      have hstored : ∀ d ∈ s.db.deliveries ++ [row], d.Stored := by
        rw [List.forall_mem_append, List.forall_mem_singleton]
        exact ⟨h.stored, hrow⟩
      have hlog : deliveryLog sub.id params.status
          { s.db with deliveries := s.db.deliveries ++ [row] } =
          r.rows ++ [row].filter (fun row => row.InLog sub.id params.status) := by
        rw [h.rows]
        apply List.filter_append
      by_cases hin : row.InLog sub.id params.status
      · refine ⟨{ r with rows := r.rows ++ [row] }, .single (.insert hc ?_ ?_), ?_⟩
        · exact Prod.Lex.lt_iff.mpr (.inl hlater)
        · intro d hd hposition
          rw [h.rows] at hd
          exact hnew d (List.mem_of_mem_filter hd) (congrArg (fun p => (ofLex p).2) hposition)
        · exact { h with stored := hstored, rows := by rw [hlog]; simp [hin] }
      · refine ⟨r, .refl, ?_⟩
        exact { h with stored := hstored, rows := by rw [hlog]; simp [hin] }

theorem LogReading.Reads.reachable {s : LogReading} {sub : SubscriptionRow} {db : Db}
    (hsub : getScopedSubscription ctx params.id x db = .ok sub)
    (hstored : ∀ d ∈ db.deliveries, d.Stored)
    (h : Relation.ReflTransGen (LogReading.Step ctx params x) (.start db) s) :
  ∃ r, Relation.ReflTransGen (Keyset.Reading.Step DeliveryRow.position params.pageSize)
      (.start (deliveryLog sub.id params.status db)) r ∧
    s.Reads sub.id params db.subscriptions r
  := by
  induction h with
  | refl => exact ⟨_, .refl, .start hstored⟩
  | tail _ hstep ih =>
      obtain ⟨r, hr, hreads⟩ := ih
      obtain ⟨r', hr', hreads'⟩ := hreads.step hsub hstep
      exact ⟨r', hr.trans hr', hreads'⟩

/-- No two rows of the log are at one position. -/
theorem keyed_position {subscriptionId : Text} {status : Option DeliveryStatus} {db : Db}
    (hkeys : Keyed DeliveryRow.id db.deliveries) :
  Keyed DeliveryRow.position (deliveryLog subscriptionId status db)
  := by
  have hids : Keyed DeliveryRow.id (deliveryLog subscriptionId status db) := hkeys.filter _
  apply List.Nodup.of_map (fun p : Nat ×ₗ Text => (ofLex p).2)
  rw [List.map_map]
  exact hids

/-- A reader who follows the cursors gets a page each time, is at the last page after no more
requests than there are rows and one, and has then read each row of the log, newest first and
once, also when later deliveries are inserted between the pages.  Cursors are read back. -/
theorem deliveries_paging {sub : SubscriptionRow} {db : Db}
    (hsub : getScopedSubscription ctx params.id x db = .ok sub) (hlimit : 1 ≤ params.pageSize)
    (hkeys : Keyed DeliveryRow.id db.deliveries) (hstored : ∀ d ∈ db.deliveries, d.Stored) :
  (∀ s, Relation.ReflTransGen (LogReading.Step ctx params x) (.start db) s →
    s.requests ≤ (deliveryLog sub.id params.status db).length + 1 ∧
    (∃ page next, webhookDeliveries ctx { params with cursor := s.cursor } x s.db =
      .ok (page, next)) ∧
    (s.finished = true → ∃ rows : List DeliveryRow,
      s.taken = rows.map (toPublicDelivery params.includePayload) ∧
      rows.Perm (deliveryLog sub.id params.status db) ∧
      rows.Pairwise (fun d e => e.createdAt < d.createdAt ∨
        (e.createdAt = d.createdAt ∧ e.id < d.id)))) ∧
  ∀ row : DeliveryRow, row.Stored →
    decodeDeliveriesCursor (encodeDeliveriesCursor row) = .ok ⟨row.createdAt, row.id⟩
  := by
  refine ⟨?_, fun row hrow => decodeDeliveriesCursor_encodeDeliveriesCursor hrow.id⟩
  intro s h
  obtain ⟨r, hr, hreads⟩ := LogReading.Reads.reachable hsub hstored h
  have hsound := Keyset.Reading.sound_of_reachable (keyed_position hkeys) hlimit hr
  refine ⟨?_, ⟨_, _, hreads.page hsub⟩, ?_⟩
  · rw [hreads.requests]
    exact hsound.requests_le
  · intro hfinished
    rw [hreads.finished] at hfinished
    refine ⟨r.taken, hreads.taken, ?_⟩
    rw [hsound.taken_of_finished hfinished]
    refine ⟨Keyset.sortDown_perm _, ?_⟩
    apply (Keyset.sortDown_descending (keyed_position hkeys)).imp
    intro d e hlt
    exact (position_lt_iff e d.createdAt d.id).mp hlt

/-- A delivery of the sample subscription. -/
def sampleDelivery (id eventId : String) (now : Nat) : DeliveryRow :=
  newDelivery id.toList "sub".toList eventId.toList .fileChanged [] now

/-- Two deliveries of one time. -/
def sampleDeliveryLog : Db :=
  { Db.empty with
    subscriptions := [sampleSubscription]
    deliveries := [sampleDelivery "a" "event1" 7, sampleDelivery "b" "event2" 7] }

/-- The same log after a later delivery. -/
def sampleGrownLog : Db :=
  { sampleDeliveryLog with
    deliveries := sampleDeliveryLog.deliveries ++ [sampleDelivery "c" "event3" 8] }

/-- The reader after the first page of one row, when the log is `db`. -/
def sampleFirstPage (db : Db) : LogReading :=
  ⟨db, some (encodeDeliveriesCursor (sampleDelivery "b" "event2" 7)),
    [sampleDelivery "b" "event2" 7].map (toPublicDelivery false), 1, false⟩

/-- The log is read by pages of one row, and a later delivery is inserted after the first. -/
theorem deliveries_paging_sampleDeliveryLog :
  ∃ rows : List DeliveryRow,
    [sampleDelivery "b" "event2" 7, sampleDelivery "a" "event1" 7].map (toPublicDelivery false) =
        rows.map (toPublicDelivery false) ∧
      rows.Perm (deliveryLog "sub".toList none sampleDeliveryLog)
  := by
  have hstored : ∀ d ∈ sampleDeliveryLog.deliveries, d.Stored := by
    intro d hd
    simp only [sampleDeliveryLog, List.mem_cons, List.not_mem_nil, or_false] at hd
    rcases hd with rfl | rfl
    · exact ⟨by decide, by decide⟩
    · exact ⟨by decide, by decide⟩
  have hpaging := @deliveries_paging sampleContext { id := "sub".toList, limit := some 1 }
    (sampleHookInput 9 200) sampleSubscription sampleDeliveryLog rfl (by decide) (by decide) hstored
  have hlater : decodeDeliveriesCursor (encodeDeliveriesCursor (sampleDelivery "b" "event2" 7)) =
      .ok ⟨7, "b".toList⟩ := by
    decide +kernel
  have hfirst := @LogReading.Step.page sampleContext { id := "sub".toList, limit := some 1 }
    (sampleHookInput 9 200) (.start sampleDeliveryLog)
    ([sampleDelivery "b" "event2" 7].map (toPublicDelivery false))
    (some (encodeDeliveriesCursor (sampleDelivery "b" "event2" 7))) rfl (by decide +kernel)
  have hinsert := @LogReading.Step.insert sampleContext { id := "sub".toList, limit := some 1 }
    (sampleHookInput 9 200) (sampleFirstPage sampleDeliveryLog) _ _
    (sampleDelivery "c" "event3" 8) rfl hlater (by decide) ⟨by decide, by decide⟩ (by decide)
  have hsecond := @LogReading.Step.page sampleContext { id := "sub".toList, limit := some 1 }
    (sampleHookInput 9 200) (sampleFirstPage sampleGrownLog)
    ([sampleDelivery "a" "event1" 7].map (toPublicDelivery false)) none rfl (by decide +kernel)
  obtain ⟨rows, htaken, hperm, -⟩ :=
    (hpaging.1 _ (((Relation.ReflTransGen.refl.tail hfirst).tail hinsert).tail hsecond)).2.2 rfl
  exact ⟨rows, htaken, hperm⟩

end AgentFs
