import AgentFs.Drive.Law

/-!
# Comment threads

A live reply should have a live root comment in its own drive.  `comment-delete` takes the
replies of a root comment with it by their parent, but `rm` takes the comments of a path by
their path, and a reply may carry a path of its own.  The threads stay whole in every run
in which `rm` meets no such reply, and in which no comment is added under the empty parent
id.
-/

namespace AgentFs

open Async

/-- Every live comment with a parent has one that is in its drive, live, and has no parent
itself. -/
def WellThreaded (comments : List CommentRow) : Prop :=
  ∀ c ∈ comments, c.isDeleted = false → ∀ parentId ∈ c.parentId,
    ∃ root ∈ comments, root.id = parentId ∧ root.driveId = c.driveId ∧
      root.isDeleted = false ∧ root.parentId = none

instance (comments : List CommentRow) : Decidable (WellThreaded comments) :=
  inferInstanceAs (Decidable (∀ _ ∈ _, _))

/-- The invariant of the comments: ids are unique, no parent id is empty, and the parent of
a live comment is a live root of its org and drive. -/
structure ThreadInv (comments : List CommentRow) : Prop where
  ids : (comments.map (·.id)).Nodup
  parents : ∀ c ∈ comments, c.parentId ≠ some []
  roots : ∀ c ∈ comments, c.isDeleted = false → ∀ parentId, c.parentId = some parentId →
    ∃ root ∈ comments, root.id = parentId ∧ root.orgId = c.orgId ∧ root.driveId = c.driveId ∧
      root.isDeleted = false ∧ root.parentId = none

/-- No comment is added under the empty parent id. -/
def DriveRequest.NamesParent : DriveRequest → Prop
  | .comment _ (.add params) => params.parentId ≠ some []
  | _ => True

instance (request : DriveRequest) : Decidable request.NamesParent := by
  unfold DriveRequest.NamesParent
  split <;> infer_instance

/-- The live replies to the comments of a path of a drive are at that path. -/
def RepliesAt (driveId path : Text) (comments : List CommentRow) : Prop :=
  ∀ root ∈ comments, ∀ c ∈ comments, root.path = path → root.driveId = driveId →
    c.isDeleted = false → c.parentId = some root.id → c.path = path

instance (driveId path : Text) (comments : List CommentRow) :
    Decidable (RepliesAt driveId path comments) :=
  inferInstanceAs (Decidable (∀ _ ∈ _, ∀ _ ∈ _, _))

/-- Where a step of `rm` changes the comments, the live replies to the comments of its path
are at that path. -/
def RemovesWhole (requests : List DriveRequest) : StepProp HookWorld HookEvent :=
  fun cf i r =>
    match requests[i]? with
    | some (.file ctx (.rm params)) =>
        r.2.world.db.comments ≠ cf.state.world.db.comments →
          RepliesAt ctx.driveId (normalizePath params.path) cf.state.world.db.comments
    | _ => True

instance (requests : List DriveRequest) (cf : Conf HookWorld HookEvent) (i : Nat)
    (r : HookEvent × HookWorld) : Decidable (RemovesWhole requests cf i r) := by
  unfold RemovesWhole
  split <;> infer_instance

/-! ### One step -/

theorem ThreadInv.wellThreaded {comments : List CommentRow} (h : ThreadInv comments) :
  WellThreaded comments
  := by
  intro c hc hlive parentId hparent
  obtain ⟨root, hroot, hid, -, hdrive, hrest⟩ := h.roots c hc hlive parentId hparent
  exact ⟨root, hroot, hid, hdrive, hrest⟩

theorem ThreadInv.eq_of_id {comments : List CommentRow} (h : ThreadInv comments)
    {c c' : CommentRow} (hc : c ∈ comments) (hc' : c' ∈ comments) (hid : c.id = c'.id) :
  c = c'
  := List.inj_on_of_nodup_map h.ids hc hc' hid

/-- Deleting comments keeps the threads when the replies of every deleted root go with
it. -/
theorem ThreadInv.delete {comments : List CommentRow} (h : ThreadInv comments)
    {p : CommentRow → Prop} [DecidablePred p] (now : Nat)
    (hp : ∀ root ∈ comments, ∀ c ∈ comments, c.isDeleted = false → c.parentId = some root.id →
      c.orgId = root.orgId → c.driveId = root.driveId → root.parentId = none → p root → p c) :
  ThreadInv (comments.map (fun c =>
    if p c then { c with isDeleted := true, updatedAt := now } else c))
  := by
  have hkeeps (c : CommentRow) : (if p c then { c with isDeleted := true, updatedAt := now }
      else c).id = c.id ∧ (if p c then { c with isDeleted := true, updatedAt := now }
      else c).parentId = c.parentId := by
    split
    · exact ⟨rfl, rfl⟩
    · exact ⟨rfl, rfl⟩
  constructor
  · rw [List.map_map]
    have hids : ((fun c : CommentRow => c.id) ∘ fun c =>
        if p c then { c with isDeleted := true, updatedAt := now } else c) = (·.id) := by
      funext c
      exact (hkeeps c).1
    rw [hids]
    exact h.ids
  · intro c' hc'
    obtain ⟨c, hc, rfl⟩ := List.mem_map.mp hc'
    rw [(hkeeps c).2]
    exact h.parents c hc
  · intro c' hc' hlive parentId hparent
    obtain ⟨c, hc, rfl⟩ := List.mem_map.mp hc'
    split at hlive
    · cases hlive
    · rename_i hcp
      rw [if_neg hcp] at hparent ⊢
      obtain ⟨root, hroot, rfl, horg, hdrive, hrootlive, hnone⟩ :=
        h.roots c hc hlive parentId hparent
      have hrootp : ¬ p root := fun hrootp =>
        hcp (hp root hroot c hc hlive hparent horg.symm hdrive.symm hnone hrootp)
      refine ⟨root, List.mem_map.mpr ⟨root, hroot, if_neg hrootp⟩, rfl, horg, hdrive,
        hrootlive, hnone⟩

theorem ThreadInv.revise {comments : List CommentRow} (h : ThreadInv comments)
    {change : CommentRow → CommentRow} (keeps : ∀ c, SameThread c (change c)) :
  ThreadInv (comments.map change)
  := by
  constructor
  · rw [List.map_map]
    have hids : ((fun c : CommentRow => c.id) ∘ change) = (·.id) := by
      funext c
      exact (keeps c).id
    rw [hids]
    exact h.ids
  · intro c' hc'
    obtain ⟨c, hc, rfl⟩ := List.mem_map.mp hc'
    rw [(keeps c).parentId]
    exact h.parents c hc
  · intro c' hc' hlive parentId hparent
    obtain ⟨c, hc, rfl⟩ := List.mem_map.mp hc'
    rw [(keeps c).isDeleted] at hlive
    rw [(keeps c).parentId] at hparent
    obtain ⟨root, hroot, hid, horg, hdrive, hrootlive, hnone⟩ :=
      h.roots c hc hlive parentId hparent
    refine ⟨change root, List.mem_map_of_mem hroot, ?_⟩
    rw [(keeps root).id, (keeps root).orgId, (keeps root).driveId, (keeps root).isDeleted,
      (keeps root).parentId, (keeps c).orgId, (keeps c).driveId]
    exact ⟨hid, horg, hdrive, hrootlive, hnone⟩

theorem ThreadInv.append {comments : List CommentRow} (h : ThreadInv comments)
    {row : CommentRow} (hfresh : ∀ c ∈ comments, c.id ≠ row.id) (hparent : row.parentId ≠ some [])
    (hroot : ∀ parentId, row.parentId = some parentId → ∃ root ∈ comments, root.id = parentId ∧
      root.orgId = row.orgId ∧ root.driveId = row.driveId ∧ root.isDeleted = false ∧
      root.parentId = none) :
  ThreadInv (comments ++ [row])
  := by
  constructor
  · rw [List.map_append, List.nodup_append]
    refine ⟨h.ids, List.nodup_singleton _, ?_⟩
    intro id hid id' hid'
    obtain ⟨c, hc, rfl⟩ := List.mem_map.mp hid
    rw [List.map_singleton, List.mem_singleton] at hid'
    rw [hid']
    exact hfresh c hc
  · intro c hc
    rw [List.mem_append, List.mem_singleton] at hc
    cases hc with
    | inl hold => exact h.parents c hold
    | inr hnew =>
        rw [hnew]
        exact hparent
  · intro c hc hlive parentId hparentId
    rw [List.mem_append, List.mem_singleton] at hc
    cases hc with
    | inl hold =>
        obtain ⟨root, hmem, hrest⟩ := h.roots c hold hlive parentId hparentId
        exact ⟨root, List.mem_append_left _ hmem, hrest⟩
    | inr hnew =>
        rw [hnew] at hparentId ⊢
        obtain ⟨root, hmem, hrest⟩ := hroot parentId hparentId
        exact ⟨root, List.mem_append_left _ hmem, hrest⟩

/-- A parent id that counts as none is none, when it is not the empty one. -/
theorem parentId_eq_none {parentId : Option Text} (h : parentId.filter (· ≠ []) = none)
    (hne : parentId ≠ some []) :
  parentId = none
  := by
  cases parentId with
  | none => rfl
  | some id =>
      by_cases hid : id = []
      · rw [hid] at hne
        exact absurd rfl hne
      · simp [hid] at h

theorem getScopedComment_found {ctx : OpContext} {id : Text} {db : Db} {row : CommentRow}
    (h : getScopedComment ctx id db = some row) :
  row ∈ db.comments ∧ row.id = id ∧ row.LiveIn ctx
  := by
  have hfound := List.find?_some h
  rw [decide_eq_true_iff] at hfound
  exact ⟨List.mem_of_find?_eq_some h, hfound.1, hfound.2⟩

/-- The invariant is kept by every step, under the conditions on `comment-add` and `rm`. -/
theorem ThreadInv.step {x : Input} {db db' : Db} {request : DriveRequest}
    (h : ThreadInv db.comments) (hstep : DriveStep x db db' request)
    (hadd : request.NamesParent)
    (hrm : ∀ ctx params, request = .file ctx (.rm params) → db'.comments ≠ db.comments →
      RepliesAt ctx.driveId (normalizePath params.path) db.comments) :
  ThreadInv db'.comments
  := by
  by_cases hsame : db'.comments = db.comments
  · rw [hsame]
    exact h
  · cases hstep with
    | same _ files versions comments => exact absurd comments hsame
    | file ctx request step =>
        cases step with
        | same files versions comments => exact absurd comments hsame
        | recorded path records files versions comments => exact absurd comments hsame
        | uncommented params rm files versions comments =>
            rw [rm] at hrm
            have hreplies := hrm ctx params rfl hsame
            rw [comments]
            apply h.delete
            intro root hroot c hc hlive hparent horg hdrive hnone hrootp
            refine ⟨hreplies root hroot c hc hrootp.1 hrootp.2 hlive hparent, ?_⟩
            rw [hdrive]
            exact hrootp.2
    | comment ctx request files versions step =>
        generalize db'.comments = comments at step
        cases step with
        | added params path at_path fresh =>
            have hne : params.parentId ≠ some [] := hadd
            apply h.append fresh hne
            intro parentId hparentId
            have hparent : params.parentId = some parentId := hparentId
            obtain ⟨hnone, -⟩ | ⟨id, root, hid, hfound, hroot, -⟩ := commentPath_cases at_path
            · rw [parentId_eq_none hnone hne] at hparent
              cases hparent
            · rw [hparent] at hid
              cases hid
              obtain ⟨hmem, hrootid, horg, hdrive, hlive⟩ := getScopedComment_found hfound
              exact ⟨root, hmem, hrootid, horg, hdrive, hlive,
                parentId_eq_none hroot (h.parents root hmem)⟩
        | revised _ change keeps => exact h.revise keeps
        | deleted id row found =>
            obtain ⟨hrow, -, -⟩ := getScopedComment_found found
            apply h.delete
            intro root hroot c hc hlive hparent horg hdrive hnone hrootp
            obtain ⟨hwhich, hrootorg, hrootdrive⟩ := hrootp
            cases hwhich with
            | inl hid =>
                have hrooteq := h.eq_of_id hroot hrow hid
                rw [← hrooteq]
                refine ⟨.inr ⟨?_, hparent⟩, horg.trans hrootorg, hdrive.trans hrootdrive⟩
                rw [hnone]
                rfl
            | inr hreply =>
                rw [hnone] at hreply
                cases hreply.2

/-! ### Runs -/

/-- In every run of file and comment requests from whole threads, in which no comment is
added under the empty parent id and `rm` deletes only comments whose live replies are at
the removed path, every live comment with a parent has, in every state, a live parent in
its drive that has no parent itself. -/
theorem threads_whole (sha256 : Bytes → Text) (toLowerCase : Text → Text) (w : HookWorld)
    (hstart : ThreadInv w.world.db.comments) (requests : List DriveRequest)
    (hadd : ∀ request ∈ requests, request.NamesParent) (sched : List (Nat × HookInput))
    (hrm : (drivePool sha256 toLowerCase w requests).Admits (RemovesWhole requests) sched) :
  (drivePool sha256 toLowerCase w requests).Admits
      (fun cf _ _ => WellThreaded cf.state.world.db.comments) sched ∧
    WellThreaded ((drivePool sha256 toLowerCase w requests).run
      sched).conf.state.world.db.comments
  := by
  have hsteps := Pool.admits_and.mpr
    ⟨drivePool_steps sha256 toLowerCase w requests sched, hrm⟩
  obtain ⟨hadm, hinv⟩ := hsteps.inv (I := fun cf => ThreadInv cf.state.world.db.comments)
    (by
      rintro cf i r ⟨⟨request, x, hrequest, hstep⟩, hwhole⟩ hinv
      apply hinv.step hstep (hadd request (List.mem_of_getElem? hrequest))
      intro ctx params hrm hchanged
      unfold RemovesWhole at hwhole
      rw [hrequest, hrm] at hwhole
      exact hwhole hchanged) hstart
  refine ⟨?_, hinv.wellThreaded⟩
  apply hadm.mono
  intro cf i r hcf
  exact hcf.wellThreaded

theorem threadInv_nil :
  ThreadInv []
  := by
  constructor
  · exact List.nodup_nil
  · intro c hc
    cases hc
  · intro c hc
    cases hc

/-- The input of a segment that draws the ids `k`, `k + 1`, .. -/
def sampleThreadInput (k : Nat) : HookInput :=
  let x := sampleHookInput 1 200
  { x with uuid := fun n => (toString (k + n)).toList }

/-- A comment on `/f`, a reply to it, with a path of its own if one is given, and the
removal of `/f`. -/
def sampleThread (path : Option Text) : List DriveRequest :=
  [.comment sampleContext (.add { path := some "/f".toList, body := [] }),
    .comment sampleContext (.add { parentId := some "0".toList, path := path, body := [] }),
    .file sampleContext (.rm { path := "/f".toList })]

/-- The requests of `sampleThread` one after the other. -/
def sampleThreadSchedule : List (Nat × HookInput) :=
  [(0, sampleThreadInput 0), (1, sampleThreadInput 10)] ++
    List.replicate 5 (2, sampleThreadInput 20)

theorem threads_whole_sampleThread :
  ((drivePool sampleHash id ⟨0, World.empty⟩ (sampleThread none)).run
      sampleThreadSchedule).conf.state.world.db.comments.map (·.isDeleted) = [true, true] ∧
    WellThreaded ((drivePool sampleHash id ⟨0, World.empty⟩ (sampleThread none)).run
      sampleThreadSchedule).conf.state.world.db.comments
  := by
  refine ⟨by decide +kernel, ?_⟩
  exact (threads_whole sampleHash id ⟨0, World.empty⟩ threadInv_nil (sampleThread none)
    (by decide) sampleThreadSchedule (by decide +kernel)).2

/-- A reply with a path of its own outlives its root. -/
theorem thread_of_removed_root :
  ¬ WellThreaded ((drivePool sampleHash id ⟨0, World.empty⟩
    (sampleThread (some "/g".toList))).run sampleThreadSchedule).conf.state.world.db.comments
  := by
  decide +kernel

end AgentFs
