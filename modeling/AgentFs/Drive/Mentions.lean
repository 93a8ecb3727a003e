import AgentFs.Drive.Threads
import AgentFs.Ops.CommentNotification

/-!
# Mention notifications

A call about comments either sets the mentions of one comment, or leaves all mentions as they
are; reading notifications does the latter.  From what these two do to the unread notifications
of a comment and a user it follows that there is at most one, and only while the user is
mentioned.
-/

namespace AgentFs

open Async

/-- The event notifies the user of a mention in the comment. -/
def EventRow.Mentions (commentId userId : Text) (e : EventRow) : Prop :=
  e.type = .commentMention ∧ e.resourceId = commentId ∧ e.target = some userId

instance (commentId userId : Text) (e : EventRow) : Decidable (e.Mentions commentId userId) :=
  inferInstanceAs (Decidable (_ ∧ _ ∧ _))

def EventRow.UnreadMention (commentId userId : Text) (e : EventRow) : Prop :=
  e.Mentions commentId userId ∧ e.status = .created

instance (commentId userId : Text) (e : EventRow) :
    Decidable (e.UnreadMention commentId userId) :=
  inferInstanceAs (Decidable (_ ∧ _))

/-- The number of notifications of mentions of a user in a comment. -/
def Db.mentionEvents (db : Db) (commentId userId : Text) : Nat :=
  db.events.countP (fun e => e.Mentions commentId userId)

/-- The number of those with status `created`. -/
def Db.unreadMentions (db : Db) (commentId userId : Text) : Nat :=
  db.events.countP (fun e => e.UnreadMention commentId userId)

def Db.Mentioned (db : Db) (commentId userId : Text) : Prop :=
  ∃ m ∈ db.commentMentions, m.commentId = commentId ∧ m.userId = userId

instance (db : Db) (commentId userId : Text) : Decidable (db.Mentioned commentId userId) :=
  inferInstanceAs (Decidable (∃ m ∈ _, _))

/-! ### The two kinds of calls -/

/-- The mentions of the comment become the users; those who were not mentioned before are
notified once, and the unread notifications of those who are no longer mentioned are gone. -/
structure SetsMentions (commentId : Text) (userIds : List Text) (db db' : Db) : Prop where
  mentioned : ∀ {c u}, db'.Mentioned c u ↔
    if c = commentId then u ∈ userIds else db.Mentioned c u
  unread : ∀ {c u}, db'.unreadMentions c u =
    if c = commentId then
      if u ∈ userIds then if db.Mentioned c u then db.unreadMentions c u else 1 else 0
    else db.unreadMentions c u
  notified : ∀ {c u}, db'.mentionEvents c u = db.mentionEvents c u +
    if c = commentId ∧ u ∈ userIds ∧ ¬ db.Mentioned c u then 1 else 0

/-- The mentions stay, and no notification is created. -/
structure KeepsMentions (db db' : Db) : Prop where
  mentioned : ∀ {c u}, db'.Mentioned c u ↔ db.Mentioned c u
  unread : ∀ {c u}, db'.unreadMentions c u ≤ db.unreadMentions c u
  notified : ∀ {c u}, db'.mentionEvents c u = db.mentionEvents c u

theorem KeepsMentions.refl (db : Db) :
  KeepsMentions db db
  := ⟨Iff.rfl, Nat.le_refl _, rfl⟩

theorem KeepsMentions.trans {db₁ db₂ db₃ : Db} (h : KeepsMentions db₁ db₂)
    (h' : KeepsMentions db₂ db₃) :
  KeepsMentions db₁ db₃
  := ⟨h'.mentioned.trans h.mentioned, Nat.le_trans h'.unread h.unread,
    h'.notified.trans h.notified⟩

/-- At most one unread notification for each comment and user, and only for one who is
mentioned. -/
structure MentionsBacked (db : Db) : Prop where
  once : ∀ c u, db.unreadMentions c u ≤ 1
  backed : ∀ c u, 0 < db.unreadMentions c u → db.Mentioned c u

theorem MentionsBacked.sets {db db' : Db} (h : MentionsBacked db) {commentId : Text}
    {userIds : List Text} (hstep : SetsMentions commentId userIds db db') :
  MentionsBacked db'
  := by
  constructor
  · intro c u
    rw [hstep.unread]
    split
    · split
      · split
        · exact h.once c u
        · exact Nat.le_refl 1
      · exact Nat.zero_le 1
    · exact h.once c u
  · intro c u hpos
    rw [hstep.unread] at hpos
    rw [hstep.mentioned]
    split at hpos
    · rename_i hc
      rw [if_pos hc]
      by_contra hu
      rw [if_neg hu] at hpos
      exact Nat.lt_irrefl 0 hpos
    · rename_i hc
      rw [if_neg hc]
      exact h.backed c u hpos

theorem MentionsBacked.keeps {db db' : Db} (h : MentionsBacked db) (hstep : KeepsMentions db db') :
  MentionsBacked db'
  := by
  constructor
  · intro c u
    exact Nat.le_trans hstep.unread (h.once c u)
  · intro c u hpos
    exact hstep.mentioned.mpr (h.backed c u (Nat.lt_of_lt_of_le hpos hstep.unread))

/-! ### Statements -/

theorem insertEvents_append {rows : List EventRow} {db db' : Db}
    (h : insertEvents rows db = .ok db') :
  db' = { db with events := db.events ++ rows }
  := by
  induction rows generalizing db with
  | nil =>
      cases h
      rw [List.append_nil]
  | cons row rows ih =>
      unfold insertEvents at h
      split at h
      · cases h
      · rw [ih h]
        simp

theorem notificationEvents_cons (ctx : OpContext) (type : EventType) (commentId : Text) (k : Nat)
    (x : Input) (u : Text) (userIds : List Text) :
  notificationEvents ctx type commentId k x (u :: userIds) =
    newEvent ctx (x.uuid k) type commentId (some u) x.now ::
      notificationEvents ctx type commentId (k + 1) x userIds
  := by
  unfold notificationEvents
  rw [List.mapIdx_cons]
  congr 1
  apply List.ext_getElem
  · simp
  · intro n _ _
    simp only [List.getElem_mapIdx]
    congr 2
    omega

/-- The mention events for some users: one for each. -/
theorem countP_mentionEvents (ctx : OpContext) (commentId : Text) (k : Nat) (x : Input)
    (userIds : List Text) (c u : Text) {p : EventRow → Prop} [DecidablePred p]
    (hp : ∀ id target, p (newEvent ctx id .commentMention commentId target x.now) ↔
      c = commentId ∧ target = some u) :
  (notificationEvents ctx .commentMention commentId k x userIds).countP (fun e => p e) =
    if c = commentId then userIds.count u else 0
  := by
  induction userIds generalizing k with
  | nil => simp [notificationEvents]
  | cons v userIds ih =>
      rw [notificationEvents_cons, List.countP_cons, ih, List.count_cons]
      simp only [decide_eq_true_eq, hp, Option.some.injEq, beq_iff_eq]
      by_cases hc : c = commentId
      · simp [hc]
      · simp [hc]

/-- Events of another type are no notifications of mentions. -/
theorem countP_of_type {rows : List EventRow} {p : EventRow → Prop} [DecidablePred p]
    (hp : ∀ e, p e → e.type = .commentMention) (h : ∀ e ∈ rows, e.type ≠ .commentMention) :
  rows.countP (fun e => p e) = 0
  := by
  rw [List.countP_eq_zero]
  intro e he hpe
  exact h e he (hp e (of_decide_eq_true hpe))

theorem notificationEvents_type {ctx : OpContext} {type : EventType} {commentId : Text} {k : Nat}
    {x : Input} {userIds : List Text} {e : EventRow}
    (h : e ∈ notificationEvents ctx type commentId k x userIds) :
  e.type = type
  := by
  obtain ⟨n, hn, rfl⟩ := List.mem_mapIdx.mp h
  rfl

/-- The first half of setting the mentions of a comment: nobody but the users is mentioned in
it, and the unread notifications of the others are gone. -/
structure Unmentions (commentId : Text) (userIds : List Text) (db db' : Db) : Prop where
  mentioned : ∀ {c u}, db'.Mentioned c u ↔ db.Mentioned c u ∧ (c = commentId → u ∈ userIds)
  unread : ∀ {c u}, db'.unreadMentions c u =
    if c = commentId ∧ u ∉ userIds then 0 else db.unreadMentions c u
  notified : ∀ {c u}, db'.mentionEvents c u = db.mentionEvents c u

/-- Nobody is mentioned in a new comment. -/
theorem unmentions_of_new {db db' : Db} (h : MentionsBacked db) {commentId : Text}
    (hnew : ∀ m ∈ db.commentMentions, m.commentId ≠ commentId) (userIds : List Text)
    (hmentions : db'.commentMentions = db.commentMentions) (hevents : db'.events = db.events) :
  Unmentions commentId userIds db db'
  := by
  have hnone : ∀ u, ¬ db.Mentioned commentId u := by
    rintro u ⟨m, hm, hid, -⟩
    exact hnew m hm hid
  constructor
  · intro c u
    unfold Db.Mentioned at hnone ⊢
    rw [hmentions, iff_self_and]
    rintro hm rfl
    exact absurd hm (hnone u)
  · intro c u
    unfold Db.unreadMentions
    rw [hevents]
    split
    · rename_i hc
      by_contra hne
      apply hnone u
      rw [← hc.1]
      exact h.backed c u (Nat.pos_of_ne_zero hne)
    · rfl
  · intro c u
    unfold Db.mentionEvents
    rw [hevents]

theorem mem_removedMentions {commentId : Text} {userIds : List Text} {db : Db} {u : Text} :
  u ∈ removedMentions commentId userIds db ↔ db.Mentioned commentId u ∧ u ∉ userIds
  := by
  unfold removedMentions Db.Mentioned
  constructor
  · intro h
    obtain ⟨m, hm, rfl⟩ := List.mem_map.mp h
    obtain ⟨hmem, hm⟩ := List.mem_filter.mp hm
    obtain ⟨hid, hout⟩ := of_decide_eq_true hm
    exact ⟨⟨m, hmem, hid, rfl⟩, hout⟩
  · rintro ⟨⟨m, hmem, hid, rfl⟩, hout⟩
    exact List.mem_map.mpr ⟨m, List.mem_filter.mpr ⟨hmem, decide_eq_true ⟨hid, hout⟩⟩, rfl⟩

/-- `removeMentions` withdraws an unread notification. -/
theorem withdraw_unread {c u commentId : Text} {removed : List Text} {ctx : OpContext}
    {e : EventRow}
    (horg : e.type = .commentMention → e.resourceId = commentId → e.orgId = ctx.orgId) :
  (if e.orgId = ctx.orgId ∧ e.type = .commentMention ∧ e.resourceId = commentId ∧
      (∃ v ∈ e.target, v ∈ removed) ∧ e.status = .created then
    { e with status := .deleted } else e).UnreadMention c u ↔
    e.UnreadMention c u ∧ ¬ (c = commentId ∧ u ∈ removed)
  := by
  split
  · rename_i hcond
    obtain ⟨-, -, hid, ⟨v, hv, hremoved⟩, -⟩ := hcond
    constructor
    · rintro ⟨-, hstatus⟩
      cases hstatus
    · rintro ⟨⟨⟨-, hc, hu⟩, -⟩, hnot⟩
      rw [hu, Option.mem_some_iff] at hv
      subst hv
      exact absurd ⟨hc.symm.trans hid, hremoved⟩ hnot
  · rename_i hcond
    rw [iff_self_and]
    rintro ⟨⟨htype, rfl, hu⟩, hstatus⟩ ⟨hid, hremoved⟩
    exact hcond ⟨horg htype hid, htype, hid, ⟨u, hu, hremoved⟩, hstatus⟩

theorem removeMentions_unmentions {db : Db} (h : MentionsBacked db) {ctx : OpContext}
    {commentId : Text} (horg : ∀ e ∈ db.events, e.type = .commentMention →
      e.resourceId = commentId → e.orgId = ctx.orgId) (userIds : List Text) :
  Unmentions commentId userIds db (removeMentions ctx commentId userIds db)
  := by
  constructor
  · intro c u
    unfold Db.Mentioned removeMentions
    dsimp only
    constructor
    · rintro ⟨m, hm, rfl, rfl⟩
      obtain ⟨hmem, hkept⟩ := List.mem_filter.mp hm
      have hkept := of_decide_eq_true hkept
      refine ⟨⟨m, hmem, rfl, rfl⟩, ?_⟩
      intro hid
      by_contra hout
      exact hkept ⟨hid, hout⟩
    · rintro ⟨⟨m, hmem, rfl, rfl⟩, hin⟩
      refine ⟨m, List.mem_filter.mpr ⟨hmem, decide_eq_true ?_⟩, rfl, rfl⟩
      rintro ⟨hid, hout⟩
      exact hout (hin hid)
  · intro c u
    unfold Db.unreadMentions removeMentions
    dsimp only
    rw [List.countP_map]
    by_cases hout : c = commentId ∧ u ∉ userIds
    · rw [if_pos hout, List.countP_eq_zero]
      intro e he hunread
      have hunread := (withdraw_unread (horg e he)).mp (of_decide_eq_true hunread)
      apply hunread.2
      refine ⟨hout.1, mem_removedMentions.mpr ⟨?_, hout.2⟩⟩
      rw [← hout.1]
      apply h.backed
      unfold Db.unreadMentions
      rw [List.countP_pos_iff]
      exact ⟨e, he, decide_eq_true hunread.1⟩
    · rw [if_neg hout]
      apply List.countP_congr
      intro e he
      simp only [Function.comp_apply, decide_eq_true_eq]
      rw [withdraw_unread (horg e he), and_iff_left_iff_imp]
      rintro - ⟨hid, hremoved⟩
      exact hout ⟨hid, (mem_removedMentions.mp hremoved).2⟩
  · intro c u
    unfold Db.mentionEvents removeMentions
    dsimp only
    rw [List.countP_map]
    apply List.countP_congr
    intro e he
    simp only [Function.comp_apply, decide_eq_true_eq]
    unfold EventRow.Mentions
    split <;> rfl

/-- The second half: the users who are not mentioned yet are added, each with one event. -/
theorem Unmentions.sets {db db₀ db' : Db} (hb : MentionsBacked db) {ctx : OpContext}
    {commentId : Text} {userIds : List Text} (h : Unmentions commentId userIds db db₀)
    (hnodup : userIds.Nodup) {k now : Nat} {x : Input} {rows : List EventRow}
    (hmentions : db'.commentMentions =
      (saveMentions commentId (newMentions commentId userIds db₀) now db₀).commentMentions)
    (hevents : db'.events = db₀.events ++ (notificationEvents ctx .commentMention commentId k x
      (newMentions commentId userIds db₀) ++ rows))
    (hrows : ∀ e ∈ rows, e.type ≠ .commentMention) :
  SetsMentions commentId userIds db db'
  := by
  have hadded : ∀ {u}, u ∈ newMentions commentId userIds db₀ ↔
      u ∈ userIds ∧ ¬ db.Mentioned commentId u := by
    intro u
    unfold newMentions
    rw [List.mem_filter, decide_eq_true_eq]
    apply and_congr_right
    intro hu
    apply not_congr
    exact h.mentioned.trans (and_iff_left (fun _ => hu))
  have hcount : ∀ u, (newMentions commentId userIds db₀).count u =
      if u ∈ userIds ∧ ¬ db.Mentioned commentId u then 1 else 0 := by
    intro u
    have hfilter : (newMentions commentId userIds db₀).Nodup := hnodup.filter _
    rw [hfilter.count]
    simp only [hadded]
  have hnew : ∀ {c u} {p : EventRow → Prop} [DecidablePred p],
      (∀ e, p e → e.type = .commentMention) →
      (∀ id target, p (newEvent ctx id .commentMention commentId target x.now) ↔
        c = commentId ∧ target = some u) →
      db'.events.countP (fun e => p e) = db₀.events.countP (fun e => p e) +
        if c = commentId ∧ u ∈ userIds ∧ ¬ db.Mentioned c u then 1 else 0 := by
    intro c u p _ htype hp
    rw [hevents, List.countP_append, List.countP_append, countP_of_type htype hrows,
      countP_mentionEvents ctx commentId k x _ c u hp, hcount]
    by_cases hc : c = commentId
    · simp [hc]
    · simp [hc]
  constructor
  · intro c u
    have hsplit : db'.Mentioned c u ↔
        db₀.Mentioned c u ∨ c = commentId ∧ u ∈ newMentions commentId userIds db₀ := by
      unfold Db.Mentioned
      rw [hmentions]
      unfold saveMentions
      constructor
      · rintro ⟨m, hm, rfl, rfl⟩
        rcases List.mem_append.mp hm with hm | hm
        · exact .inl ⟨m, hm, rfl, rfl⟩
        · obtain ⟨v, hv, rfl⟩ := List.mem_map.mp hm
          exact .inr ⟨rfl, hv⟩
      · rintro (⟨m, hm, rfl, rfl⟩ | ⟨rfl, hu⟩)
        · exact ⟨m, List.mem_append_left _ hm, rfl, rfl⟩
        · exact ⟨_, List.mem_append_right _ (List.mem_map_of_mem hu), rfl, rfl⟩
    rw [hsplit, h.mentioned, hadded]
    by_cases hc : c = commentId
    · subst hc
      rw [if_pos rfl]
      by_cases hm : db.Mentioned c u
      · simp [hm]
      · simp [hm]
    · simp [hc]
  · intro c u
    have hzero : ¬ db.Mentioned c u → db.unreadMentions c u = 0 := by
      intro hm
      by_contra hne
      exact hm (hb.backed c u (Nat.pos_of_ne_zero hne))
    have hunread := hnew (c := c) (u := u) (p := EventRow.UnreadMention c u)
      (fun e he => he.1.1) (by
        intro id target
        unfold EventRow.UnreadMention EventRow.Mentions newEvent
        simp [eq_comm])
    unfold Db.unreadMentions at hzero ⊢
    rw [hunread]
    have hbefore : db₀.events.countP (fun e => e.UnreadMention c u) = _ := h.unread
    rw [hbefore]
    unfold Db.unreadMentions
    by_cases hc : c = commentId
    · subst hc
      by_cases hu : u ∈ userIds
      · by_cases hm : db.Mentioned c u
        · simp [hu, hm]
        · simp [hu, hm, hzero hm]
      · simp [hu]
    · simp [hc]
  · intro c u
    have hmention := hnew (c := c) (u := u) (p := EventRow.Mentions c u) (fun e he => he.1) (by
        intro id target
        unfold EventRow.Mentions newEvent
        simp [eq_comm])
    unfold Db.mentionEvents
    rw [hmention]
    have hbefore : db₀.events.countP (fun e => e.Mentions c u) = _ := h.notified
    rw [hbefore]
    rfl

/-! ### The calls -/

/-- Mentions and notifications belong to comments of the table, which have an id of their own,
and a notification has the organization of its comment. -/
structure MentionRows (db : Db) : Prop where
  ids : (db.comments.map (·.id)).Nodup
  mentions : ∀ m ∈ db.commentMentions, ∃ c ∈ db.comments, c.id = m.commentId
  events : ∀ e ∈ db.events, e.type = .commentMention →
    ∃ c ∈ db.comments, c.id = e.resourceId ∧ c.orgId = e.orgId

/-- The invariant of mentions and their notifications. -/
structure MentionInv (db : Db) : Prop where
  rows : MentionRows db
  backed : MentionsBacked db

theorem mentionInv_empty (driveMembers : List DriveMember) :
  MentionInv { Db.empty with driveMembers := driveMembers }
  where
  rows := ⟨List.nodup_nil, by rintro m ⟨⟩, by rintro e ⟨⟩⟩
  backed := ⟨fun _ _ => Nat.zero_le 1, fun _ _ h => absurd h (Nat.lt_irrefl 0)⟩

theorem nodup_eraseDups (l : List Text) :
  l.eraseDups.Nodup
  := by
  induction hn : l.length using Nat.strong_induction_on generalizing l with
  | _ n ih =>
      cases l with
      | nil => exact List.nodup_nil
      | cons a l =>
          subst hn
          rw [List.eraseDups_cons, List.nodup_cons]
          refine ⟨?_, ?_⟩
          · rw [List.mem_eraseDups, List.mem_filter]
            simp
          · apply ih _ _ _ rfl
            exact Nat.lt_succ_of_le (List.length_filter_le _ l)

theorem resolveMentions_nodup {toLowerCase : Text → Text} {ctx : OpContext} {raw : List Text}
    {db : Db} {userIds : List Text} (h : resolveMentions toLowerCase ctx raw db = .ok userIds) :
  userIds.Nodup
  := by
  obtain ⟨found, -, h⟩ := bind_eq_ok_iff.mp h
  cases h
  apply nodup_eraseDups

/-- The comment whose mentions a request sets, and the users. -/
def CommentRequest.mentionList (toLowerCase : Text → Text) (ctx : OpContext) (x : Input)
    (db : Db) : CommentRequest → Option (Text × List Text)
  | .add params =>
      (resolveMentions toLowerCase ctx (params.mentions.getD []) db).toOption.map
        (fun userIds => (x.uuid 0, userIds))
  | .update params => params.mentions.bind (fun raw =>
      (resolveMentions toLowerCase ctx raw db).toOption.map (fun userIds => (params.id, userIds)))
  | .delete _ => none
  | .resolve _ => none

/-- What a committed change of comments does to mentions and notifications. -/
def MentionEffect (mentionList : Option (Text × List Text)) (db db' : Db) : Prop :=
  match mentionList with
  | some (commentId, userIds) => SetsMentions commentId userIds db db'
  | none => KeepsMentions db db'

/-- The rows after events about a comment of the table, and mentions in it. -/
theorem MentionRows.add {db db₀ : Db} (h : MentionRows db₀) {ctx : OpContext} {commentId : Text}
    (hcomment : ∃ c ∈ db₀.comments, c.id = commentId ∧ c.orgId = ctx.orgId) {k now : Nat}
    {x : Input} {added : List Text} {rows : List EventRow}
    (hcomments : db.comments = db₀.comments)
    (hmentions : db.commentMentions = (saveMentions commentId added now db₀).commentMentions)
    (hevents : db.events = db₀.events ++
      (notificationEvents ctx .commentMention commentId k x added ++ rows))
    (hrows : ∀ e ∈ rows, e.type ≠ .commentMention) :
  MentionRows db
  := by
  refine ⟨?_, ?_, ?_⟩
  · rw [hcomments]
    exact h.ids
  · intro m hm
    rw [hcomments]
    rw [hmentions] at hm
    rcases List.mem_append.mp hm with hm | hm
    · exact h.mentions m hm
    · obtain ⟨u, -, rfl⟩ := List.mem_map.mp hm
      obtain ⟨c, hc, hid, -⟩ := hcomment
      exact ⟨c, hc, hid⟩
  · intro e he htype
    rw [hcomments]
    rw [hevents, List.mem_append, List.mem_append] at he
    rcases he with he | he | he
    · exact h.events e he htype
    · obtain ⟨n, hn, rfl⟩ := List.mem_mapIdx.mp he
      exact hcomment
    · exact absurd htype (hrows e he)

/-- The rows after a change of other tables, and of comments and events that keep their ids and
organizations. -/
theorem MentionRows.of_map {db db' : Db} (h : MentionRows db) {f : CommentRow → CommentRow}
    (hcomments : db'.comments = db.comments.map f)
    (hf : ∀ c, (f c).id = c.id ∧ (f c).orgId = c.orgId)
    (hmentions : ∀ m ∈ db'.commentMentions, m ∈ db.commentMentions)
    (hevents : ∀ e ∈ db'.events, e.type = .commentMention →
      ∃ e' ∈ db.events, e'.type = .commentMention ∧ e'.resourceId = e.resourceId ∧
        e'.orgId = e.orgId) :
  MentionRows db'
  := by
  refine ⟨?_, ?_, ?_⟩
  · rw [hcomments, List.map_map]
    have hids : (fun c : CommentRow => c.id) ∘ f = (·.id) := by
      funext c
      exact (hf c).1
    rw [hids]
    exact h.ids
  · intro m hm
    obtain ⟨c, hc, hid⟩ := h.mentions m (hmentions m hm)
    rw [hcomments]
    exact ⟨f c, List.mem_map_of_mem hc, (hf c).1.trans hid⟩
  · intro e he htype
    obtain ⟨e', he', htype', hid, horg⟩ := hevents e he htype
    obtain ⟨c, hc, hcid, hcorg⟩ := h.events e' he' htype'
    rw [hcomments]
    exact ⟨f c, List.mem_map_of_mem hc, (hf c).1.trans (hcid.trans hid),
      (hf c).2.trans (hcorg.trans horg)⟩

/-- Events that are no notifications of mentions change nothing about mentions. -/
theorem keepsMentions_of_events {db db' : Db} {rows : List EventRow}
    (hmentions : db'.commentMentions = db.commentMentions)
    (hevents : db'.events = db.events ++ rows) (hrows : ∀ e ∈ rows, e.type ≠ .commentMention) :
  KeepsMentions db db'
  := by
  constructor
  · intro c u
    unfold Db.Mentioned
    rw [hmentions]
  · intro c u
    unfold Db.unreadMentions
    rw [hevents, List.countP_append, countP_of_type (fun e he => he.1.1) hrows]
    exact Nat.le_refl _
  · intro c u
    unfold Db.mentionEvents
    rw [hevents, List.countP_append, countP_of_type (fun e he => he.1) hrows]
    rfl

theorem commentAddTx_mentions {db db' : Db} (h : MentionInv db) {ctx : OpContext}
    {row : CommentRow} (horg : row.orgId = ctx.orgId) {userIds : List Text}
    (hnodup : userIds.Nodup) {x : Input} {events : List CommentWebhookEvent}
    (htx : commentAddTx ctx row userIds x db = .ok (db', events)) :
  MentionRows db' ∧ SetsMentions row.id userIds db db'
  := by
  unfold commentAddTx at htx
  split at htx
  · cases htx
  · rename_i hfresh
    obtain ⟨db₂, hins, hpure⟩ := bind_eq_ok_iff.mp htx
    cases hpure
    have hnew : ∀ m ∈ db.commentMentions, m.commentId ≠ row.id := by
      intro m hm hid
      obtain ⟨c, hc, hcid⟩ := h.rows.mentions m hm
      exact hfresh ⟨c, hc, hcid.trans hid⟩
    have hfirst : Unmentions row.id userIds db { db with comments := db.comments ++ [row] } :=
      unmentions_of_new h.backed hnew userIds rfl rfl
    have hrows₀ : MentionRows { db with comments := db.comments ++ [row] } := by
      refine ⟨?_, ?_, ?_⟩
      · show ((db.comments ++ [row]).map (·.id)).Nodup
        rw [List.map_append, List.map_singleton]
        apply List.Nodup.append h.rows.ids (List.nodup_singleton _)
        rw [List.disjoint_singleton]
        intro hmem
        obtain ⟨c, hc, hid⟩ := List.mem_map.mp hmem
        exact hfresh ⟨c, hc, hid⟩
      · intro m hm
        obtain ⟨c, hc, hid⟩ := h.rows.mentions m hm
        exact ⟨c, List.mem_append_left _ hc, hid⟩
      · intro e he htype
        obtain ⟨c, hc, hid⟩ := h.rows.events e he htype
        exact ⟨c, List.mem_append_left _ hc, hid⟩
    have hother : ∀ e ∈ [newEvent ctx (x.uuid (1 + (newMentions row.id userIds db).length))
        .commentCreated row.id none x.now] ++
        notificationEvents ctx .commentNotification row.id
          (2 + (newMentions row.id userIds db).length) x
          ((db.driveMembers.filter (fun m =>
            m.driveId = ctx.driveId ∧ m.userId ≠ ctx.userId)).map (·.userId)),
        e.type ≠ .commentMention := by
      intro e he
      rcases List.mem_append.mp he with he | he
      · rw [List.mem_singleton.mp he]
        rintro ⟨⟩
      · rw [notificationEvents_type he]
        rintro ⟨⟩
    rw [insertEvents_append hins, List.append_assoc]
    constructor
    · refine hrows₀.add ⟨row, ?_, rfl, horg⟩ rfl rfl rfl hother
      exact List.mem_append_right _ (List.mem_singleton_self row)
    · exact hfirst.sets h.backed hnodup rfl rfl hother

theorem commentUpdateTx_mentions {db db' : Db} (h : MentionInv db) {ctx : OpContext}
    {params : CommentUpdateParams} {row : CommentRow}
    (hrow : getScopedComment ctx params.id db = some row) {mentionUserIds : Option (List Text)}
    (hnodup : ∀ userIds ∈ mentionUserIds, userIds.Nodup) {x : Input}
    {events : List CommentWebhookEvent}
    (htx : commentUpdateTx ctx params mentionUserIds x db = .ok (db', events)) :
  MentionRows db' ∧ MentionEffect (mentionUserIds.map (params.id, ·)) db db'
  := by
  obtain ⟨hmem, hid, horg, -, -⟩ := getScopedComment_found hrow
  unfold commentUpdateTx at htx
  have hf : ∀ (p : CommentRow → Bool) (g : CommentRow → CommentRow),
      (∀ c, (g c).id = c.id ∧ (g c).orgId = c.orgId) →
      ∀ c, (if p c then g c else c).id = c.id ∧ (if p c then g c else c).orgId = c.orgId := by
    intro p g hg c
    split
    · exact hg c
    · exact ⟨rfl, rfl⟩
  have hother : ∀ id, ∀ e ∈ [newEvent ctx id .commentUpdated params.id none x.now],
      e.type ≠ .commentMention := by
    intro id e he
    rw [List.mem_singleton.mp he]
    rintro ⟨⟩
  cases mentionUserIds with
  | none =>
      obtain ⟨db₂, hins, hpure⟩ := bind_eq_ok_iff.mp htx
      cases hpure
      rw [insertEvents_append hins]
      constructor
      · apply h.rows.of_map rfl
        · apply hf
          exact fun c => ⟨rfl, rfl⟩
        · exact fun m hm => hm
        · intro e he htype
          rcases List.mem_append.mp he with he | he
          · exact ⟨e, he, htype, rfl, rfl⟩
          · exact absurd htype (hother _ e he)
      · exact keepsMentions_of_events rfl rfl (hother _)
  | some userIds =>
      obtain ⟨db₂, hins, hpure⟩ := bind_eq_ok_iff.mp htx
      cases hpure
      have hdb' := insertEvents_append hins
      let db₁ := updateComments
        (fun c => c.id = params.id ∧ c.orgId = ctx.orgId ∧ c.driveId = ctx.driveId)
        (fun c => { c with body := params.body, updatedAt := seconds x.now }) db
      have hrows₁ : MentionRows db₁ := by
        apply h.rows.of_map rfl
        · apply hf
          exact fun c => ⟨rfl, rfl⟩
        · exact fun m hm => hm
        · exact fun e he htype => ⟨e, he, htype, rfl, rfl⟩
      have hbacked₁ : MentionsBacked db₁ := ⟨h.backed.once, h.backed.backed⟩
      have horgs : ∀ e ∈ db₁.events, e.type = .commentMention → e.resourceId = params.id →
          e.orgId = ctx.orgId := by
        intro e he htype heid
        obtain ⟨c, hc, hcid, hcorg⟩ := h.rows.events e he htype
        have hsame : c = row := List.inj_on_of_nodup_map h.rows.ids hc hmem
          (hcid.trans (heid.trans hid.symm))
        rw [← hcorg, hsame, horg]
      have hfirst := removeMentions_unmentions hbacked₁ horgs userIds
      have hrows₀ : MentionRows (removeMentions ctx params.id userIds db₁) := by
        refine MentionRows.of_map hrows₁ (List.map_id _).symm (fun c => ⟨rfl, rfl⟩) ?_ ?_
        · exact fun m hm => (List.mem_filter.mp hm).1
        · intro e' he' htype
          obtain ⟨e, he, rfl⟩ := List.mem_map.mp he'
          refine ⟨e, he, ?_⟩
          split at htype
          · rename_i hcond
            rw [if_pos hcond]
            exact ⟨htype, rfl, rfl⟩
          · rename_i hcond
            rw [if_neg hcond]
            exact ⟨htype, rfl, rfl⟩
      constructor
      · refine hrows₀.add ?_ (by rw [hdb']; rfl) (by rw [hdb']) (by rw [hdb']; rfl) (hother _)
        refine ⟨_, List.mem_map_of_mem hmem, ?_⟩
        obtain ⟨hkeep, hkeeporg⟩ := hf
          (fun c => c.id = params.id ∧ c.orgId = ctx.orgId ∧ c.driveId = ctx.driveId)
          (fun c => { c with body := params.body, updatedAt := seconds x.now })
          (fun c => ⟨rfl, rfl⟩) row
        exact ⟨hkeep.trans hid, hkeeporg.trans horg⟩
      · have hsets : SetsMentions params.id userIds db₁ db' :=
          hfirst.sets hbacked₁ (hnodup userIds rfl) (by rw [hdb']) (by rw [hdb']; rfl) (hother _)
        exact ⟨hsets.mentioned, hsets.unread, hsets.notified⟩

/-- A call that inserts one event, of another type than a mention, and changes comments other
than in their ids and organizations. -/
theorem oneEvent_mentions {db db₁ db' : Db} (h : MentionInv db) {f : CommentRow → CommentRow}
    (hf : ∀ c, (f c).id = c.id ∧ (f c).orgId = c.orgId) {e : EventRow}
    (htype : e.type ≠ .commentMention) {events events' : List CommentWebhookEvent}
    (hdb : db₁ = { db with comments := db.comments.map f })
    (htx : (do let db₂ ← insertEvents [e] db₁; pure (db₂, events) :
      Except SqlError (Db × List CommentWebhookEvent)) = .ok (db', events')) :
  MentionRows db' ∧ KeepsMentions db db'
  := by
  obtain ⟨db₂, hins, hpure⟩ := bind_eq_ok_iff.mp htx
  cases hpure
  subst hdb
  rw [insertEvents_append hins]
  have hother : ∀ e' ∈ [e], e'.type ≠ .commentMention := by
    intro e' he'
    rw [List.mem_singleton.mp he']
    exact htype
  constructor
  · refine h.rows.of_map rfl hf (fun m hm => hm) ?_
    intro e' he' htype'
    rcases List.mem_append.mp he' with he' | he'
    · exact ⟨e', he', htype', rfl, rfl⟩
    · exact absurd htype' (hother e' he')
  · exact keepsMentions_of_events rfl rfl hother

/-- What a committed request about comments does to mentions and notifications. -/
theorem CommentRequest.commit_mentions {toLowerCase : Text → Text} {ctx : OpContext} {x : Input}
    {db db' : Db} (h : MentionInv db) {request : CommentRequest} {change : CommentChange}
    {mutation : Mutation} (hchange : request.change toLowerCase ctx x db = .ok change)
    (hcommit : commitComment ctx x change = .ok (db', mutation)) :
  MentionRows db' ∧ MentionEffect (request.mentionList toLowerCase ctx x db) db db'
  := by
  unfold commitComment at hcommit
  split at hcommit
  · cases hcommit
  · obtain ⟨⟨db₁, events⟩, htx, hcommit⟩ := bind_eq_ok_iff.mp hcommit
    obtain ⟨db₂, houtbox, hpure⟩ := bind_eq_ok_iff.mp hcommit
    cases hpure
    have hdeliveries : MentionRows db₁ ∧
        MentionEffect (request.mentionList toLowerCase ctx x db) db db₁ →
        MentionRows db' ∧ MentionEffect (request.mentionList toLowerCase ctx x db) db db' := by
      rw [enqueueCommentWebhooks_frame houtbox]
      rintro ⟨hrows, heffect⟩
      refine ⟨⟨hrows.ids, hrows.mentions, hrows.events⟩, ?_⟩
      unfold MentionEffect at heffect ⊢
      split
      · rename_i hlist
        rw [hlist] at heffect
        exact ⟨heffect.mentioned, heffect.unread, heffect.notified⟩
      · rename_i hlist
        rw [hlist] at heffect
        exact ⟨heffect.mentioned, heffect.unread, heffect.notified⟩
    apply hdeliveries
    clear hdeliveries houtbox
    cases request with
    | add params =>
        obtain ⟨path, -, hchange⟩ := bind_eq_ok_iff.mp hchange
        obtain ⟨userIds, husers, hchange⟩ := bind_eq_ok_iff.mp hchange
        cases hchange
        have hsets := commentAddTx_mentions h rfl (resolveMentions_nodup husers) htx
        unfold mentionList
        dsimp only
        rw [husers]
        exact hsets
    | update params =>
        obtain ⟨row, hrow, hchange⟩ := bind_eq_ok_iff.mp hchange
        obtain ⟨_, -, hchange⟩ := bind_eq_ok_iff.mp hchange
        unfold mentionList
        dsimp only at hchange ⊢
        split at hchange
        · rename_i hnone
          cases hchange
          rw [hnone]
          have hnodup : ∀ userIds ∈ (none : Option (List Text)), userIds.Nodup := by
            rintro _ ⟨⟩
          exact commentUpdateTx_mentions h (requireComment_found hrow) hnodup htx
        · rename_i raw hraw
          obtain ⟨mentions, hmentions, hchange⟩ := bind_eq_ok_iff.mp hchange
          cases hchange
          rw [hraw]
          dsimp only [Option.bind_some]
          cases husers : resolveMentions toLowerCase ctx raw db with
          | error e =>
              rw [husers] at hmentions
              cases hmentions
          | ok userIds =>
              rw [husers] at hmentions
              cases hmentions
              apply commentUpdateTx_mentions h (requireComment_found hrow) _ htx
              intro userIds' hmem
              cases hmem
              exact resolveMentions_nodup husers
    | delete id =>
        obtain ⟨row, -, hchange⟩ := bind_eq_ok_iff.mp hchange
        obtain ⟨_, -, hchange⟩ := bind_eq_ok_iff.mp hchange
        cases hchange
        refine oneEvent_mentions h ?_ ?_ rfl htx
        · intro c
          split <;> exact ⟨rfl, rfl⟩
        · rintro ⟨⟩
    | resolve params =>
        obtain ⟨row, -, hchange⟩ := bind_eq_ok_iff.mp hchange
        split at hchange
        · cases hchange
        · cases hchange
          refine oneEvent_mentions h ?_ ?_ rfl htx
          · intro c
            split <;> exact ⟨rfl, rfl⟩
          · dsimp only [newEvent]
            split <;> rintro ⟨⟩

/-! ### Reading notifications -/

theorem markRead_mentions {db : Db} (h : MentionRows db) (ctx : OpContext)
    (types : List EventType) (batch : List Text) :
  MentionRows (markRead ctx types batch db) ∧ KeepsMentions db (markRead ctx types batch db)
  := by
  constructor
  · refine h.of_map (List.map_id _).symm (fun c => ⟨rfl, rfl⟩) (fun m hm => hm) ?_
    intro e' he' htype
    obtain ⟨e, he, rfl⟩ := List.mem_map.mp he'
    refine ⟨e, he, ?_⟩
    split at htype
    · rw [if_pos ‹_›]
      exact ⟨htype, rfl, rfl⟩
    · rw [if_neg ‹_›]
      exact ⟨htype, rfl, rfl⟩
  · constructor
    · exact Iff.rfl
    · intro c u
      unfold Db.unreadMentions markRead
      dsimp only
      rw [List.countP_map]
      apply List.countP_mono_left
      intro e he hunread
      have hunread := of_decide_eq_true hunread
      apply decide_eq_true
      dsimp only at hunread
      split at hunread
      · cases hunread.2
      · exact hunread
    · intro c u
      unfold Db.mentionEvents markRead
      dsimp only
      rw [List.countP_map]
      apply List.countP_congr
      intro e he
      simp only [Function.comp_apply, decide_eq_true_eq]
      unfold EventRow.Mentions
      split <;> rfl

theorem markBatches_mentions (ctx : OpContext) (types : List EventType) (failAt : Option Nat)
    (batches : List (List Text)) {db : Db} (h : MentionRows db) :
  MentionRows (markBatches ctx types failAt batches db).2 ∧
    KeepsMentions db (markBatches ctx types failAt batches db).2
  := by
  induction batches generalizing failAt db with
  | nil =>
      unfold markBatches
      exact ⟨h, .refl db⟩
  | cons batch batches ih =>
      obtain ⟨hrows, hkeeps⟩ := markRead_mentions h ctx types batch
      rcases failAt with _ | _ | n
      · obtain ⟨hrest, hkeeps'⟩ := ih none hrows
        exact ⟨hrest, hkeeps.trans hkeeps'⟩
      · exact ⟨h, .refl db⟩
      · obtain ⟨hrest, hkeeps'⟩ := ih (some n) hrows
        exact ⟨hrest, hkeeps.trans hkeeps'⟩

/-! ### Runs -/

/-- A call about comments or notifications, each of which is one segment; in between, the
members of the drives may change. -/
inductive NotificationCall where
  | comment (ctx : OpContext) (request : CommentRequest) (x : Input)
  | read (ctx : OpContext) (params : CommentNotificationReadParams) (failAt : Option Nat)
  | members (driveMembers : List DriveMember)

/-- The database after a call; a request that fails, or whose transaction throws, leaves it as
it is. -/
def NotificationCall.run (toLowerCase : Text → Text) (db : Db) : NotificationCall → Db
  | .comment ctx request x =>
      match request.change toLowerCase ctx x db with
      | .error _ => db
      | .ok change =>
          match commitComment ctx x change with
          | .error _ => db
          | .ok (db', _) => db'
  | .read ctx params failAt => (commentNotificationRead ctx params failAt db).2
  | .members driveMembers => { db with driveMembers := driveMembers }

theorem MentionInv.effect {db db' : Db} (h : MentionInv db)
    {mentionList : Option (Text × List Text)}
    (hstep : MentionRows db' ∧ MentionEffect mentionList db db') :
  MentionInv db'
  := by
  obtain ⟨hrows, heffect⟩ := hstep
  unfold MentionEffect at heffect
  split at heffect
  · exact ⟨hrows, h.backed.sets heffect⟩
  · exact ⟨hrows, h.backed.keeps heffect⟩

theorem MentionInv.run {toLowerCase : Text → Text} {db : Db} (h : MentionInv db)
    (call : NotificationCall) :
  MentionInv (call.run toLowerCase db)
  := by
  unfold NotificationCall.run
  cases call with
  | comment ctx request x =>
      dsimp only
      split
      · exact h
      · rename_i change hchange
        split
        · exact h
        · rename_i db' mutation hcommit
          exact h.effect (CommentRequest.commit_mentions h hchange hcommit)
  | read ctx params failAt =>
      unfold commentNotificationRead
      dsimp only
      split
      · exact h
      · obtain ⟨hrows, hkeeps⟩ := markBatches_mentions ctx params.types failAt
          (readBatches (scopedIds ctx params db)) h.rows
        exact ⟨hrows, h.backed.keeps hkeeps⟩
  | members driveMembers =>
      exact ⟨⟨h.rows.ids, h.rows.mentions, h.rows.events⟩, ⟨h.backed.once, h.backed.backed⟩⟩

/-- After every sequence of calls: for each comment and user there is at most one unread
notification of a mention, and only while the user is mentioned in the comment.  A request that
then commits leaves the users it names mentioned, and notifies each of them who was not mentioned
exactly once, and no other. -/
theorem mention_notifications (toLowerCase : Text → Text) {db : Db} (h : MentionInv db)
    (calls : List NotificationCall) :
  let db' := calls.foldl (NotificationCall.run toLowerCase) db
  (∀ c u, db'.unreadMentions c u ≤ 1 ∧ (0 < db'.unreadMentions c u → db'.Mentioned c u)) ∧
    ∀ ctx x db'' mutation, ∀ request : CommentRequest,
      ∀ change, request.change toLowerCase ctx x db' = .ok change →
        commitComment ctx x change = .ok (db'', mutation) →
        ∀ commentId userIds, request.mentionList toLowerCase ctx x db' = some (commentId, userIds) →
          ∀ u ∈ userIds, db''.Mentioned commentId u ∧
            if db'.Mentioned commentId u then
              db''.mentionEvents commentId u = db'.mentionEvents commentId u
            else
              db''.mentionEvents commentId u = db'.mentionEvents commentId u + 1 ∧
                db''.unreadMentions commentId u = 1
  := by
  intro db'
  have hinv : MentionInv db' := by
    have hcalls : ∀ db, MentionInv db →
        MentionInv (calls.foldl (NotificationCall.run toLowerCase) db) := by
      induction calls with
      | nil => exact fun db h => h
      | cons call calls ih => exact fun db h => ih _ (h.run call)
    exact hcalls db h
  refine ⟨fun c u => ⟨hinv.backed.once c u, hinv.backed.backed c u⟩, ?_⟩
  intro ctx x db'' mutation request change hchange hcommit commentId userIds hlist u hu
  obtain ⟨-, heffect⟩ := CommentRequest.commit_mentions hinv hchange hcommit
  rw [hlist] at heffect
  have hsets : SetsMentions commentId userIds db' db'' := heffect
  refine ⟨hsets.mentioned.mpr (by rwa [if_pos rfl]), ?_⟩
  split
  · rename_i hmentioned
    rw [hsets.notified, if_neg (fun hnew => hnew.2.2 hmentioned), Nat.add_zero]
  · rename_i hmentioned
    rw [hsets.notified, if_pos ⟨rfl, hu, hmentioned⟩, hsets.unread, if_pos rfl, if_pos hu,
      if_neg hmentioned]
    exact ⟨rfl, rfl⟩

def sampleMentionInput (k : Nat) : Input :=
  { sampleInput with uuid := fun n => (toString (k + n)).toList }

/-- A comment that mentions `u2`, who reads the notification; then the mention is removed. -/
def sampleMentionCalls : List NotificationCall :=
  [.members [⟨sampleContext.driveId, sampleContext.userId, []⟩,
      ⟨sampleContext.driveId, "u2".toList, []⟩],
    .comment sampleContext (.add ⟨none, some ['/', 'f'], [], some ["u2".toList]⟩)
      (sampleMentionInput 0),
    .read { sampleContext with userId := "u2".toList } ⟨none, some true, some [.mention]⟩ none,
    .comment sampleContext (.update ⟨['0'], [], some []⟩) (sampleMentionInput 10)]

/-- The database after `sampleMentionCalls`. -/
def sampleMentionDb : Db :=
  sampleMentionCalls.foldl (NotificationCall.run id) { Db.empty with driveMembers := [] }

/-- The mention is added again. -/
def sampleMentionUpdate : CommentRequest :=
  .update ⟨['0'], [], some ["u2".toList]⟩

/-- A second notification is created, and it is the only unread one. -/
theorem mention_notifications_sampleMentionCalls :
  sampleMentionDb.mentionEvents ['0'] "u2".toList = 1 ∧
    ∃ change db'' mutation,
      sampleMentionUpdate.change id sampleContext (sampleMentionInput 20) sampleMentionDb =
        .ok change ∧
      commitComment sampleContext (sampleMentionInput 20) change = .ok (db'', mutation) ∧
      db''.mentionEvents ['0'] "u2".toList = 2 ∧ db''.unreadMentions ['0'] "u2".toList = 1
  := by
  have hone : sampleMentionDb.mentionEvents ['0'] "u2".toList = 1 := by
    decide +kernel
  refine ⟨hone, ?_⟩
  have hcommits : ((sampleMentionUpdate.change id sampleContext (sampleMentionInput 20)
      sampleMentionDb).toOption.bind (fun change =>
        (commitComment sampleContext (sampleMentionInput 20) change).toOption)).isSome = true := by
    decide +kernel
  cases hchange : sampleMentionUpdate.change id sampleContext (sampleMentionInput 20)
      sampleMentionDb with
  | error e =>
      rw [hchange] at hcommits
      cases hcommits
  | ok change =>
      rw [hchange] at hcommits
      cases hcommit : commitComment sampleContext (sampleMentionInput 20) change with
      | error e =>
          dsimp only [Except.toOption, Option.bind_some] at hcommits
          rw [hcommit] at hcommits
          cases hcommits
      | ok result =>
          obtain ⟨db'', mutation⟩ := result
          refine ⟨change, db'', mutation, rfl, hcommit, ?_⟩
          have hnotified := ((mention_notifications id (mentionInv_empty []) sampleMentionCalls).2
            sampleContext (sampleMentionInput 20) db'' mutation sampleMentionUpdate change hchange
            hcommit ['0'] ["u2".toList] (by decide +kernel) "u2".toList
            (List.mem_singleton_self _)).2
          rw [if_neg (by decide +kernel)] at hnotified
          refine ⟨?_, hnotified.2⟩
          rw [hnotified.1]
          exact congrArg (· + 1) hone

end AgentFs
