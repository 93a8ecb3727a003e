import AgentFs.Ops.Revert
import AgentFs.Ops.Solo
import AgentFs.Ops.Utf8
import AgentFs.Webhooks.Rows

/-!
# One occurrence

When `edit` replaces the one occurrence of `old_string` by `new_string`.  It counts matches that
do not overlap, splits an empty `old_string` between all code units, and expands the `$` patterns
of `new_string`.
-/

namespace AgentFs

open Async

/-! ### Occurrences -/

/-- The pattern occurs in the text between `before` and `after`. -/
def OccursAt (pattern text before after : Text) : Prop :=
  text = before ++ pattern ++ after

instance (pattern text before after : Text) : Decidable (OccursAt pattern text before after) :=
  inferInstanceAs (Decidable (_ = _))

/-- It occurs there and nowhere else. -/
def OccursOnce (pattern text before after : Text) : Prop :=
  OccursAt pattern text before after ∧
    ∀ before' after', OccursAt pattern text before' after' → before' = before

theorem OccursOnce.unique {pattern text before after before' after' : Text}
    (h : OccursOnce pattern text before after) (h' : OccursAt pattern text before' after') :
  before' = before ∧ after' = after
  := by
  have hbefore := h.2 _ _ h'
  subst hbefore
  have heq := h.1
  unfold OccursAt at heq h'
  rw [h'] at heq
  exact ⟨rfl, List.append_cancel_left heq⟩

/-- The characters of the last match are skipped. -/
theorem countMatches_skip (pattern : Text) (skip : Nat) (text : Text) :
  countMatches pattern skip text = countMatches pattern 0 (text.drop skip)
  := by
  induction text generalizing skip with
  | nil => simp [countMatches]
  | cons c text ih =>
      cases skip with
      | zero => rfl
      | succ skip =>
          rw [countMatches, List.drop_succ_cons]
          exact ih skip

/-- The first match, and those after it. -/
theorem countMatches_eq {pattern : Text} (hne : pattern ≠ []) (text : Text) :
  countMatches pattern 0 text =
    match splitAtFirst pattern text with
    | none => 0
    | some (_, after) => 1 + countMatches pattern 0 after
  := by
  induction text with
  | nil => simp [countMatches, splitAtFirst, hne]
  | cons c text ih =>
      rw [countMatches, splitAtFirst]
      by_cases hstart : pattern <+: c :: text
      · obtain ⟨d, rest, rfl⟩ := List.exists_cons_of_ne_nil hne
        rw [if_pos hstart, if_pos hstart, countMatches_skip]
        rfl
      · rw [if_neg hstart, if_neg hstart, ih]
        cases splitAtFirst pattern text <;> rfl

theorem occursAt_nil_iff {pattern text after : Text} :
  OccursAt pattern text [] after ↔ pattern <+: text ∧ after = text.drop pattern.length
  := by
  unfold OccursAt
  rw [List.nil_append]
  constructor
  · rintro rfl
    exact ⟨List.prefix_append _ _, by simp⟩
  · rintro ⟨hstart, rfl⟩
    exact (List.prefix_iff_eq_append.mp hstart).symm

theorem occursAt_cons_iff {pattern text before after : Text} {c d : Char} :
  OccursAt pattern (c :: text) (d :: before) after ↔ d = c ∧ OccursAt pattern text before after
  := by
  unfold OccursAt
  rw [List.cons_append, List.cons_append, List.cons.injEq]
  exact and_congr_left' eq_comm

/-- Where the text is split is the first occurrence. -/
theorem splitAtFirst_spec (pattern text : Text) :
  match splitAtFirst pattern text with
  | none => ∀ before after, ¬ OccursAt pattern text before after
  | some (before, after) => OccursAt pattern text before after ∧
      ∀ before' after', OccursAt pattern text before' after' → before.length ≤ before'.length
  := by
  induction text with
  | nil =>
      unfold splitAtFirst
      split_ifs with hnil
      · subst hnil
        exact ⟨rfl, fun _ _ _ => Nat.zero_le _⟩
      · intro before after h
        unfold OccursAt at h
        simp [hnil] at h
  | cons c text ih =>
      unfold splitAtFirst
      by_cases hstart : pattern <+: c :: text
      · rw [if_pos hstart]
        exact ⟨occursAt_nil_iff.mpr ⟨hstart, rfl⟩, fun _ _ _ => Nat.zero_le _⟩
      · rw [if_neg hstart]
        cases hsplit : splitAtFirst pattern text with
        | none =>
            rw [hsplit] at ih
            rintro (- | ⟨d, before⟩) after h
            · exact hstart (occursAt_nil_iff.mp h).1
            · exact ih before after (occursAt_cons_iff.mp h).2
        | some r =>
            rw [hsplit] at ih
            refine ⟨occursAt_cons_iff.mpr ⟨rfl, ih.1⟩, ?_⟩
            rintro (- | ⟨d, before⟩) after h
            · exact absurd (occursAt_nil_iff.mp h).1 hstart
            · exact Nat.succ_le_succ (ih.2 before after (occursAt_cons_iff.mp h).2)

/-! ### Counting -/

section

variable {pattern text before after before' after' : Text}

/-- An occurrence that starts after another one ends is an occurrence in the rest. -/
theorem OccursAt.rest (h : OccursAt pattern text before after)
    (h' : OccursAt pattern text before' after')
    (hlength : before.length + pattern.length ≤ before'.length) :
  ∃ between, OccursAt pattern after between after'
  := by
  unfold OccursAt at h h'
  have heq : before ++ pattern ++ after = before' ++ (pattern ++ after') := by
    rw [← h, h', List.append_assoc]
  have hstart : before ++ pattern <+: before' := by
    apply List.prefix_of_prefix_length_le (List.prefix_append _ after)
    · rw [heq]
      exact List.prefix_append _ _
    · rw [List.length_append]
      exact hlength
  obtain ⟨between, rfl⟩ := hstart
  use between
  rw [List.append_assoc (before ++ pattern)] at heq
  unfold OccursAt
  rw [List.append_assoc]
  exact List.append_cancel_left heq

theorem occurrences_eq_zero_iff (hne : pattern ≠ []) :
  occurrences text pattern = 0 ↔ ∀ before after, ¬ OccursAt pattern text before after
  := by
  have hspec := splitAtFirst_spec pattern text
  unfold occurrences
  rw [if_neg hne, countMatches_eq hne]
  cases hsplit : splitAtFirst pattern text with
  | none =>
      rw [hsplit] at hspec
      exact ⟨fun _ => hspec, fun _ => rfl⟩
  | some r =>
      obtain ⟨before, after⟩ := r
      rw [hsplit] at hspec
      constructor
      · intro hzero
        have hsum : (1 : Int) + countMatches pattern 0 after = 0 := hzero
        omega
      · intro hnever
        exact absurd hspec.1 (hnever _ _)

/-- One match is counted when the first occurrence has none after its end. -/
theorem occurrences_eq_one_iff (hne : pattern ≠ [])
    (hsplit : splitAtFirst pattern text = some (before, after)) :
  occurrences text pattern = 1 ↔ ∀ before' after', ¬ OccursAt pattern after before' after'
  := by
  rw [← occurrences_eq_zero_iff hne]
  unfold occurrences
  rw [if_neg hne, if_neg hne, countMatches_eq hne text, hsplit]
  dsimp only
  constructor
  · intro hone
    have hsum : (1 : Int) + countMatches pattern 0 after = 1 := hone
    omega
  · intro hzero
    change (1 : Int) + countMatches pattern 0 after = 1
    omega

/-- The only occurrence is where the text is split, and is counted once. -/
theorem OccursOnce.counted (h : OccursOnce pattern text before after) (hne : pattern ≠ []) :
  splitAtFirst pattern text = some (before, after) ∧ occurrences text pattern = 1
  := by
  have hspec := splitAtFirst_spec pattern text
  cases hsplit : splitAtFirst pattern text with
  | none =>
      rw [hsplit] at hspec
      exact absurd h.1 (hspec _ _)
  | some r =>
      rw [hsplit] at hspec
      obtain ⟨hbefore, hafter⟩ := h.unique hspec.1
      obtain ⟨first, rest⟩ := r
      dsimp only at hbefore hafter
      subst hbefore hafter
      refine ⟨rfl, (occurrences_eq_one_iff hne hsplit).mpr ?_⟩
      intro before' after' hrest
      have hagain : OccursAt pattern text (first ++ pattern ++ before') after' := by
        unfold OccursAt at hrest ⊢
        rw [h.1, hrest]
        simp
      have hlength := congrArg List.length (h.2 _ _ hagain)
      have hpos := List.length_pos_of_ne_nil hne
      simp only [List.length_append] at hlength
      omega

/-- A count that is not one is refused. -/
theorem refused_iff :
  occurrences text pattern = 0 ∨ occurrences text pattern > 1 ↔
    if pattern = [] then utf16Length text ≠ 0 ∧ utf16Length text ≠ 2
    else occurrences text pattern ≠ 1
  := by
  unfold occurrences
  split_ifs
  · omega
  · omega

end

/-! ### When the count is right -/

/-- The condition under which the counting and the replacement are those of one occurrence: an
empty `old_string` is refused, occurrences at several positions include two that do not overlap,
and the `$` patterns of `new_string` expand to it. -/
structure EditExact (content old new : Text) : Prop where
  empty : old = [] → utf16Length content ≠ 0 ∧ utf16Length content ≠ 2
  apart : old ≠ [] → ∀ before after before' after', OccursAt old content before after →
    OccursAt old content before' after' → before' ≠ before →
    ∃ first rest second rest', OccursAt old content first rest ∧
      OccursAt old content second rest' ∧ first.length + old.length ≤ second.length
  verbatim : old ≠ [] → ∀ before after, OccursOnce old content before after →
    expandReplacement before old after new = new

/-- A `new_string` without `$` has no patterns. -/
theorem expandReplacement_eq_self {before matched after new : Text} (h : '$' ∉ new) :
  expandReplacement before matched after new = new
  := by
  induction new with
  | nil => rfl
  | cons c new ih =>
      rw [List.mem_cons, not_or] at h
      have hcons : expandReplacement before matched after (c :: new) =
          c :: expandReplacement before matched after new := by
        rw [expandReplacement.eq_5]
        · rintro rest rfl
          exact absurd rfl h.1
        · rintro rest rfl
          exact absurd rfl h.1
        · rintro rest rfl
          exact absurd rfl h.1
        · rintro rest rfl
          exact absurd rfl h.1
      rw [hcons, ih h.2]

/-- One character cannot overlap itself. -/
theorem editExact_char (content : Text) (c : Char) {new : Text} (h : '$' ∉ new) :
  EditExact content [c] new
  := by
  refine ⟨fun hnil => absurd hnil (List.cons_ne_nil _ _), ?_,
    fun _ _ _ _ => expandReplacement_eq_self h⟩
  intro _ before after before' after' hocc hocc' hdiffers
  have hlength : before'.length ≠ before.length := by
    intro hlength
    unfold OccursAt at hocc hocc'
    rw [hocc, List.append_assoc, List.append_assoc] at hocc'
    exact hdiffers (List.append_inj_left hocc' hlength.symm).symm
  obtain hlt | hlt := Nat.lt_or_gt_of_ne hlength
  · exact ⟨before', after', before, after, hocc', hocc, hlt⟩
  · exact ⟨before, after, before', after', hocc, hocc', hlt⟩

section

variable {content old new : Text}

/-- Under the condition, what is counted once occurs once. -/
theorem EditExact.once (h : EditExact content old new) (hne : old ≠ [])
    (hone : occurrences content old = 1) :
  ∃ before after, OccursOnce old content before after
  := by
  have hspec := splitAtFirst_spec old content
  cases hsplit : splitAtFirst old content with
  | none =>
      rw [hsplit] at hspec
      rw [(occurrences_eq_zero_iff hne).mpr hspec] at hone
      cases hone
  | some r =>
      obtain ⟨before, after⟩ := r
      rw [hsplit] at hspec
      have hrest := (occurrences_eq_one_iff hne hsplit).mp hone
      refine ⟨before, after, hspec.1, ?_⟩
      intro before' after' hother
      by_contra hdiffers
      obtain ⟨first, rest, second, rest', hfirst, hsecond, hlength⟩ :=
        h.apart hne _ _ _ _ hspec.1 hother hdiffers
      have hleft := hspec.2 _ _ hfirst
      obtain ⟨between, hagain⟩ := hspec.1.rest hsecond (by omega)
      exact hrest _ _ hagain

/-- What is counted as one occurrence is one occurrence, replaced as it is written, exactly under
the condition. -/
theorem editExact_iff :
  EditExact content old new ↔
    if occurrences content old = 0 ∨ occurrences content old > 1 then
      old = [] ∨ ∀ before after, ¬ OccursOnce old content before after
    else
      old ≠ [] ∧ ∃ before after, OccursOnce old content before after ∧
        replaceFirst content old new = before ++ new ++ after
  := by
  by_cases hnil : old = []
  · constructor
    · intro h
      rw [if_pos (refused_iff.mpr (by rw [if_pos hnil]; exact h.empty hnil))]
      exact .inl hnil
    · intro h
      refine ⟨fun _ => ?_, fun hne => absurd hnil hne, fun hne => absurd hnil hne⟩
      by_contra haccepted
      rw [if_neg (fun hrefused => haccepted (by
        have hboth := refused_iff.mp hrefused
        rwa [if_pos hnil] at hboth))] at h
      exact h.1 hnil
  · have hcount : occurrences content old = 0 ∨ occurrences content old > 1 ↔
        occurrences content old ≠ 1 := by
      rw [refused_iff, if_neg hnil]
    constructor
    · intro h
      split_ifs with hrefused
      · right
        intro before after honce
        exact hcount.mp hrefused (honce.counted hnil).2
      · rw [hcount, not_not] at hrefused
        obtain ⟨before, after, honce⟩ := h.once hnil hrefused
        refine ⟨hnil, before, after, honce, ?_⟩
        unfold replaceFirst
        rw [(honce.counted hnil).1]
        dsimp only
        rw [h.verbatim hnil _ _ honce]
    · intro h
      refine ⟨fun hempty => absurd hempty hnil, ?_, ?_⟩
      · intro _ before after before' after' hocc hocc' hdiffers
        have hnotonce : ∀ b a, ¬ OccursOnce old content b a := by
          intro b a honce
          exact hdiffers ((honce.2 _ _ hocc').trans (honce.2 _ _ hocc).symm)
        have hmany : occurrences content old ≠ 1 := by
          intro hone
          rw [if_neg (fun hrefused => hcount.mp hrefused hone)] at h
          obtain ⟨-, b, a, honce, -⟩ := h
          exact hnotonce b a honce
        have hspec := splitAtFirst_spec old content
        cases hsplit : splitAtFirst old content with
        | none =>
            rw [hsplit] at hspec
            exact absurd hocc (hspec _ _)
        | some r =>
            obtain ⟨first, rest⟩ := r
            rw [hsplit] at hspec
            rw [Ne, occurrences_eq_one_iff hnil hsplit] at hmany
            push Not at hmany
            obtain ⟨between, last, hsecond⟩ := hmany
            refine ⟨first, rest, first ++ old ++ between, last, hspec.1, ?_, ?_⟩
            · unfold OccursAt at hsecond ⊢
              rw [hspec.1, hsecond]
              simp
            · simp
      · intro _ before after honce
        obtain ⟨hsplit, hone⟩ := honce.counted hnil
        rw [if_neg (fun hrefused => hcount.mp hrefused hone)] at h
        obtain ⟨-, b, a, honce', hreplaced⟩ := h
        obtain ⟨rfl, rfl⟩ := honce.unique honce'.1
        unfold replaceFirst at hreplaced
        rw [hsplit] at hreplaced
        exact List.append_cancel_left (List.append_cancel_right hreplaced)

end

/-! ### The edit alone -/

/-- The file of an edit is there and has the expected version, and no call to the storage or
the database fails. -/
structure EditReady (ctx : OpContext) (params : EditParams) (x : Input) (w : World)
    (obj : Obj) : Prop where
  stored : w.store.objects (locate ctx.backend (ctx.key (normalizePath params.path))) = some obj
  inside : ctx.backend ≠ .local ∨ KeyInsideDrive (ctx.key (normalizePath params.path))
  expected : ∀ e, params.expectedVersion = some e →
    HeadMatches w.db ctx.driveId (normalizePath params.path) e
  answers : x.fail = false
  enqueues : ∀ db, db.deliveries = w.db.deliveries → db.subscriptions = w.db.subscriptions →
    ∃ db', enqueueFileWebhooks ctx (normalizePath params.path) x db = .ok db'

section

variable {sha256 : Bytes → Text} {ctx : OpContext} {x : Input} {w : World}

/-- A transaction whose deliveries can be enqueued does not clash when nothing runs in
between. -/
theorem createVersion_alone {params : VersionParams} (hx : x.fail = false)
    (henqueues : ∀ db, db.deliveries = w.db.deliveries →
      db.subscriptions = w.db.subscriptions →
      ∃ db', enqueueFileWebhooks ctx params.path x db = .ok db') :
  ∃ version w', (createVersion ctx params).run.alone x w = (.ok version, w') ∧
    w'.store = w.store
  := by
  have hallocate : (allocateVersion ctx params.path).run.alone x w =
      (.ok (getNextVersion w.db ctx.driveId params.path), w) := by
    unfold allocateVersion
    rw [Fallible.alone_atomic]
  generalize hversion : getNextVersion w.db ctx.driveId params.path = version at hallocate
  have hinsert : ∀ now, ¬ ∃ r ∈ w.db.fileVersions,
      (versionRow ctx params version now w.db).Clashes r := by
    rintro now ⟨r, hr, hpath, hdrive, hnumber⟩
    have hmem : r ∈ w.db.versionsOf ctx.driveId params.path := by
      unfold Db.versionsOf
      apply List.mem_filter.mpr
      exact ⟨hr, decide_eq_true ⟨hpath, hdrive⟩⟩
    have hlt := version_lt_getNextVersion hmem
    rw [hversion] at hlt
    exact absurd hnumber (Nat.ne_of_lt hlt)
  obtain ⟨db', htx⟩ : ∃ db', createVersionTx ctx params version x w.db = .ok db' := by
    unfold createVersionTx insertVersion
    rw [if_neg (by rw [hx]; rintro ⟨⟩), if_neg (hinsert _)]
    apply henqueues
    · exact (upsertFile_hooks ctx params version x.now _).1
    · exact (upsertFile_hooks ctx params version x.now _).2
  have hrecord : (recordVersion ctx params version).run.alone x w =
      (.ok (), { w with db := db' }) := by
    unfold recordVersion
    rw [Fallible.alone_atomic, htx]
  refine ⟨version, { w with db := db' }, ?_, rfl⟩
  unfold createVersion
  rw [Fallible.alone_bind _ hallocate, Fallible.alone_bind _ hrecord]
  rfl

/-- A put that does not fail stores its bytes and leaves the database. -/
theorem putObject_remote {path : Text} (hx : x.fail = false)
    (hinside : ctx.backend ≠ .local ∨ KeyInsideDrive (ctx.key path)) (bytes : Bytes)
    (contentType : Option Text) :
  ∃ result w', (putObject sha256 ctx.backend (ctx.key path) bytes contentType).run.alone x w =
      (.ok result, w') ∧ w'.db = w.db ∧ w'.remote ctx path = some bytes
  := by
  obtain ⟨result, w', halone, hdb⟩ : ∃ result w',
      (putObject sha256 ctx.backend (ctx.key path) bytes contentType).run.alone x w =
        (.ok result, w') ∧ w'.db = w.db := by
    cases hbackend : ctx.backend with
    | «local» =>
        have hkey := hinside.resolve_left (fun hne => hne hbackend)
        obtain ⟨w', halone, hdb, -⟩ := @putObject_alone sha256 w x _ hkey hx bytes contentType
        exact ⟨_, w', halone, hdb⟩
    | s3 versioningEnabled =>
        unfold putObject putObjectS3
        rw [Fallible.alone_atomic, if_neg (by rw [hx]; rintro ⟨⟩)]
        exact ⟨_, _, rfl, World.keepVersion_db ..⟩
  obtain ⟨cs, hsolo⟩ := (putObject sha256 ctx.backend (ctx.key path) bytes
    contentType).run.exists_solo x w
  rw [halone] at hsolo
  exact ⟨result, w', halone, hdb, putObject_solo hsolo⟩

/-- New contents are stored under the path and recorded. -/
theorem storeVersion_alone {path : Text} {operation : Operation} {bytes : Bytes}
    {message diffSummary : Option Text} (hx : x.fail = false)
    (hinside : ctx.backend ≠ .local ∨ KeyInsideDrive (ctx.key path))
    (henqueues : ∀ db, db.deliveries = w.db.deliveries →
      db.subscriptions = w.db.subscriptions →
      ∃ db', enqueueFileWebhooks ctx path x db = .ok db') :
  ∃ version w', (storeVersion sha256 ctx path operation bytes message diffSummary).run.alone x w =
      (.ok version, w') ∧ w'.remote ctx path = some bytes
  := by
  obtain ⟨result, w₁, hput, hdb, hremote⟩ := @putObject_remote sha256 ctx x w _ hx hinside bytes
    (some (detectMimeType path))
  unfold storeVersion
  dsimp only
  rw [Fallible.alone_bind _ hput]
  obtain ⟨version, w₂, hcreate, hstore⟩ := @createVersion_alone ctx x w₁
    { path := path
      s3VersionId := result.versionId.getD []
      operation := operation
      message := message
      diffSummary := diffSummary
      size := some bytes.length
      etag := result.etag
      contentType := some (detectMimeType path)
      contentHash := some (sha256 bytes) } hx (by rw [hdb]; exact henqueues)
  refine ⟨version, w₂, hcreate, ?_⟩
  unfold World.remote at hremote ⊢
  rw [hstore]
  exact hremote

/-- An edit ends in a conflict that changes nothing, or stores the text with its first match
replaced. -/
theorem EditReady.outcome {params : EditParams} {obj : Obj} (h : EditReady ctx params x w obj) :
  let content := textDecode obj.bytes
  let outcome := (edit sha256 ctx params).run.alone x w
  if occurrences content params.oldString = 0 ∨ occurrences content params.oldString > 1 then
    (∃ e, outcome.1 = .error (.editConflict e)) ∧ outcome.2 = w
  else
    (∃ version, outcome.1 = .ok (.edited version (normalizePath params.path) 1)) ∧
      outcome.2.remote ctx (normalizePath params.path) =
        some (textEncode (replaceFirst content params.oldString params.newString))
  := by
  have hx := h.answers
  have hcheck : (checkExpectedVersion ctx (normalizePath params.path)
      params.expectedVersion).run.alone x w = (.ok (), w) := by
    cases he : params.expectedVersion with
    | none => rfl
    | some e =>
        apply Fallible.alone_bind
        unfold assertExpectedVersion
        rw [Fallible.alone_atomic, if_pos (h.expected e he)]
  have hguard : (assertKeyInsideDrive ctx.backend (ctx.key (normalizePath params.path))).run.alone
      x w = (.ok (), w) := by
    unfold assertKeyInsideDrive
    rw [if_pos h.inside]
    rfl
  have hread : ((getObject ctx.backend (ctx.key (normalizePath params.path))).mapError
      (orNotFound (normalizePath params.path))).run.alone x w = (.ok obj, w) := by
    unfold getObject readAt
    rw [Fallible.alone_mapError, Fallible.alone_bind _ hguard, Fallible.alone_atomic,
      if_neg (by rw [hx]; rintro ⟨⟩), h.stored]
    rfl
  intro content
  unfold edit
  dsimp only
  rw [Fallible.alone_bind _ hcheck, Fallible.alone_bind _ hread]
  by_cases hzero : occurrences content params.oldString = 0
  · rw [if_pos (.inl hzero), if_pos hzero]
    exact ⟨⟨_, rfl⟩, rfl⟩
  · by_cases hmany : occurrences content params.oldString > 1
    · rw [if_pos (.inr hmany), if_neg hzero, if_pos hmany]
      exact ⟨⟨_, rfl⟩, rfl⟩
    · rw [if_neg (not_or.mpr ⟨hzero, hmany⟩), if_neg hzero, if_neg hmany]
      generalize replaceFirst content params.oldString params.newString = newContent
      obtain ⟨version, w', hstore, hremote⟩ := @storeVersion_alone sha256 ctx x w _ .edit
        (textEncode newContent) params.message
        (some (editDiffSummary params.oldString params.newString)) hx h.inside h.enqueues
      have hafter : afterCommit.run.alone x w' = (.ok (), w') := by
        unfold afterCommit
        rw [Fallible.alone_atomic, if_neg (by rw [hx]; rintro ⟨⟩)]
      rw [Fallible.alone_bind _ hstore, Fallible.alone_bind _ hafter]
      exact ⟨⟨version, rfl⟩, hremote⟩

end

/-- The outcome of an edit replaces the one occurrence in `content`, the rest as it was, and where
there is not one it is a conflict that stores nothing. -/
structure EditsOne (ctx : OpContext) (params : EditParams) (content : Text) (w : World)
    (outcome : Except OpError Response × World) : Prop where
  replaced : params.oldString ≠ [] → ∀ before after,
    OccursOnce params.oldString content before after →
    (∃ version, outcome.1 = .ok (.edited version (normalizePath params.path) 1)) ∧
      outcome.2.remote ctx (normalizePath params.path) =
        some (textEncode (before ++ params.newString ++ after))
  refused : (params.oldString = [] ∨
      ∀ before after, ¬ OccursOnce params.oldString content before after) →
    (∃ e, outcome.1 = .error (.editConflict e)) ∧ outcome.2 = w

/-- An edit replaces exactly one occurrence if and only if the condition holds of the text and the
two strings. -/
theorem edit_replaces_one_iff {sha256 : Bytes → Text} {ctx : OpContext} {params : EditParams}
    {x : Input} {w : World} {obj : Obj} (h : EditReady ctx params x w obj) :
  EditsOne ctx params (textDecode obj.bytes) w ((edit sha256 ctx params).run.alone x w) ↔
    EditExact (textDecode obj.bytes) params.oldString params.newString
  := by
  rw [editExact_iff]
  have houtcome := @EditReady.outcome sha256 ctx x w params obj h
  dsimp only at houtcome
  generalize textDecode obj.bytes = content at *
  generalize (edit sha256 ctx params).run.alone x w = outcome at *
  split_ifs at houtcome ⊢ with hrefused
  · obtain ⟨⟨e, herror⟩, hsame⟩ := houtcome
    constructor
    · intro hedits
      by_contra haccepted
      rw [not_or, not_forall] at haccepted
      obtain ⟨hne, before, honce⟩ := haccepted
      rw [not_forall_not] at honce
      obtain ⟨after, honce⟩ := honce
      obtain ⟨⟨version, hok⟩, -⟩ := hedits.replaced hne before after honce
      rw [herror] at hok
      cases hok
    · intro hnone
      refine ⟨?_, fun _ => ⟨⟨e, herror⟩, hsame⟩⟩
      intro hne before after honce
      obtain hnil | hnever := hnone
      · exact absurd hnil hne
      · exact absurd honce (hnever before after)
  · obtain ⟨⟨version, hok⟩, hstored⟩ := houtcome
    constructor
    · intro hedits
      have haccepted : ¬ (params.oldString = [] ∨
          ∀ before after, ¬ OccursOnce params.oldString content before after) := by
        intro hnone
        obtain ⟨⟨e, herror⟩, -⟩ := hedits.refused hnone
        rw [hok] at herror
        cases herror
      rw [not_or, not_forall] at haccepted
      obtain ⟨hne, before, honce⟩ := haccepted
      rw [not_forall_not] at honce
      obtain ⟨after, honce⟩ := honce
      refine ⟨hne, before, after, honce, ?_⟩
      have hverbatim := (hedits.replaced hne before after honce).2
      rw [hstored, Option.some.injEq] at hverbatim
      exact textEncode_injective hverbatim
    · rintro ⟨hne, before, after, honce, hreplaced⟩
      constructor
      · intro _ before' after' honce'
        obtain ⟨rfl, rfl⟩ := honce.unique honce'.1
        rw [hreplaced] at hstored
        exact ⟨⟨version, hok⟩, hstored⟩
      · rintro (hnil | hnever)
        · exact absurd hnil hne
        · exact absurd honce (hnever before after)

/-- A drive whose file `/f` has the text `price: N`. -/
def samplePrice : World :=
  World.empty.store! (sampleContext.place "/f".toList)
    (some ⟨textEncode "price: N".toList, none⟩)

/-- SHA-256 of the texts `price: 5` and `price: $5`. -/
def samplePriceHash (bytes : Bytes) : Text :=
  if bytes = textEncode "price: 5".toList then
    "5e61aa4a222117c57ad0dec9c760b7def6d7f0609257b0764a4f876209152a71".toList
  else
    "3a4a33d8448eb829f6161c3628b45292a7f0cf5c899d61732cccdd0873593e3c".toList

/-- The edit of its `N`. -/
def samplePriceEdit (new : Text) : EditParams where
  path := "/f".toList
  oldString := "N".toList
  newString := new
  message := none
  expectedVersion := none

theorem editReady_samplePrice (new : Text) :
  EditReady sampleContext (samplePriceEdit new) sampleInput samplePrice
    ⟨textEncode "price: N".toList, none⟩
  where
  stored := by
    have hplace : locate sampleContext.backend
        (sampleContext.key (normalizePath "/f".toList)) = sampleContext.place "/f".toList := by
      decide +kernel
    unfold samplePrice World.store!
    dsimp only
    rw [show (samplePriceEdit new).path = "/f".toList from rfl, hplace]
    exact Function.update_self ..
  inside := by
    right
    change KeyInsideDrive (sampleContext.key (normalizePath "/f".toList))
    decide +kernel
  expected := by rintro e ⟨⟩
  answers := rfl
  enqueues := by
    intro db _ hsubscriptions
    use db
    unfold enqueueFileWebhooks fileDeliveries fileSubscribers
    rw [hsubscriptions]
    rfl

theorem edit_replaces_one_samplePrice :
  EditsOne sampleContext (samplePriceEdit "5".toList)
    (textDecode (textEncode "price: N".toList)) samplePrice
    ((edit samplePriceHash sampleContext (samplePriceEdit "5".toList)).run.alone
      sampleInput samplePrice)
  := by
  apply (edit_replaces_one_iff (editReady_samplePrice _)).mpr
  exact editExact_char _ 'N' (by decide)

/-- The one `N` becomes `$5`, not `$$5`. -/
theorem edit_expands_dollar :
  EditReady sampleContext (samplePriceEdit "$$5".toList) sampleInput samplePrice
      ⟨textEncode "price: N".toList, none⟩ ∧
    ¬ EditsOne sampleContext (samplePriceEdit "$$5".toList)
      (textDecode (textEncode "price: N".toList)) samplePrice
      ((edit samplePriceHash sampleContext (samplePriceEdit "$$5".toList)).run.alone
        sampleInput samplePrice)
  := by
  refine ⟨editReady_samplePrice _, ?_⟩
  intro hedits
  have hdecode : textDecode (textEncode "price: N".toList) = "price: ".toList ++ 'N' :: [] := by
    decide +kernel
  have honce : OccursOnce "N".toList (textDecode (textEncode "price: N".toList))
      "price: ".toList [] := by
    rw [hdecode]
    refine ⟨by decide +kernel, ?_⟩
    intro before after hocc
    unfold OccursAt at hocc
    rw [show "N".toList = ['N'] by decide +kernel, List.append_assoc, List.singleton_append,
      List.append_cons_inj_of_notMem (by decide +kernel) (by decide +kernel)] at hocc
    exact hocc.1.symm
  have hstored := (hedits.replaced (by decide +kernel) _ _ honce).2
  revert hstored
  decide +kernel

end AgentFs
