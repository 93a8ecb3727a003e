import AgentFs.Drive.Law

/-!
# Stored paths

A stored path should start with `/` and have no trailing `/`, so that it is a fixed point
of `normalizePath` and an operation addressed by it reaches the file it was stored for.
`normalizePath` strips one trailing slash only, and yields such a path exactly when its
input does not end in two slashes.
-/

namespace AgentFs

open Async

/-- A path that starts with `/` and has no trailing `/` unless it is `/`. -/
def CanonicalPath (path : Text) : Prop :=
  path.head? = some '/' ∧ (path = ['/'] ∨ path.getLast? ≠ some '/')

instance (path : Text) : Decidable (CanonicalPath path) :=
  inferInstanceAs (Decidable (_ ∧ _))

/-- A path does not end in two slashes, unless it is two slashes. -/
def EndsOnce (path : Text) : Prop :=
  ['/', '/'] <:+ path → path = ['/', '/']

instance (path : Text) : Decidable (EndsOnce path) :=
  inferInstanceAs (Decidable (_ → _))

/-! ### One path -/

theorem two_slashes_suffix {s : Text} :
  ['/', '/'] <:+ s ++ ['/'] ↔ s.getLast? = some '/'
  := by
  rw [List.getLast?_eq_some_iff]
  constructor
  · rintro ⟨t, ht⟩
    use t
    have heq : t ++ ['/'] ++ ['/'] = s ++ ['/'] := by simpa using ht
    exact (List.append_cancel_right heq).symm
  · rintro ⟨t, rfl⟩
    exact ⟨t, by simp⟩

/-- A path without a trailing slash does not end in two. -/
theorem endsOnce_of_getLast? {path : Text} (h : path.getLast? ≠ some '/') :
  EndsOnce path
  := by
  rintro ⟨t, rfl⟩
  simp at h

/-- `normalizePath` of a path with its leading slash. -/
theorem normalizePath_cons (rest : Text) :
  normalizePath ('/' :: rest) =
    if rest ≠ [] ∧ rest.getLast? = some '/' then '/' :: rest.dropLast else '/' :: rest
  := by
  cases rest with
  | nil => rfl
  | cons c rest => simp [normalizePath]

/-- The leading slash may be left out. -/
theorem normalizePath_without_slash {path : Text} (h : path.head? ≠ some '/') :
  normalizePath path = normalizePath ('/' :: path)
  := by
  unfold normalizePath
  rw [if_neg h]
  rfl

/-- The fixed points of `normalizePath` are the canonical paths. -/
theorem normalizePath_eq_self_iff {path : Text} :
  normalizePath path = path ↔ CanonicalPath path
  := by
  constructor
  · intro h
    have hhead := head?_normalizePath path
    rw [h] at hhead
    refine ⟨hhead, ?_⟩
    cases path with
    | nil => cases hhead
    | cons c rest =>
        cases hhead
        rw [normalizePath_cons] at h
        split at h
        · rename_i hslash
          have hlength := congrArg List.length h
          have hpos := List.length_pos_of_ne_nil hslash.1
          simp only [List.length_cons, List.length_dropLast] at hlength
          omega
        · rename_i hslash
          cases rest with
          | nil => exact .inl rfl
          | cons d rest =>
              right
              simpa [List.getLast?_cons_cons] using hslash
  · rintro ⟨hhead, hlast⟩
    cases path with
    | nil => cases hhead
    | cons c rest =>
        cases hhead
        rw [normalizePath_cons, if_neg]
        rintro ⟨hne, hslash⟩
        cases rest with
        | nil => exact hne rfl
        | cons d rest =>
            rw [List.getLast?_cons_cons] at hlast
            cases hlast with
            | inl hroot => cases hroot
            | inr hlast => exact hlast hslash

/-- The result of `normalizePath` for a path with its leading slash. -/
theorem canonicalPath_normalizePath_cons (rest : Text) :
  CanonicalPath (normalizePath ('/' :: rest)) ↔ EndsOnce ('/' :: rest)
  := by
  rw [normalizePath_cons]
  rcases rest.eq_nil_or_concat' with rfl | ⟨init, c, rfl⟩
  · exact iff_of_true ⟨rfl, .inl rfl⟩ (by decide)
  · by_cases hc : c = '/'
    · subst hc
      rw [if_pos (by simp), List.dropLast_concat]
      unfold EndsOnce CanonicalPath
      rw [← List.cons_append, two_slashes_suffix]
      cases init with
      | nil => simp
      | cons d init => simp [List.getLast?_cons_cons]
    · rw [if_neg (by simp [hc])]
      apply iff_of_true
      · refine ⟨rfl, .inr ?_⟩
        rw [← List.cons_append, List.getLast?_concat]
        simpa using hc
      · apply endsOnce_of_getLast?
        rw [← List.cons_append, List.getLast?_concat]
        simpa using hc

theorem endsOnce_cons {path : Text} (h : path.head? ≠ some '/') :
  EndsOnce ('/' :: path) ↔ EndsOnce path
  := by
  rcases path.eq_nil_or_concat' with rfl | ⟨init, c, rfl⟩
  · decide
  · by_cases hc : c = '/'
    · subst hc
      unfold EndsOnce
      rw [← List.cons_append, two_slashes_suffix, two_slashes_suffix]
      cases init with
      | nil => simp at h
      | cons d init =>
          simp only [List.cons_append, List.head?_cons, ne_eq, Option.some.injEq] at h
          simp [List.getLast?_cons_cons, h]
    · apply iff_of_true
      · apply endsOnce_of_getLast?
        rw [← List.cons_append, List.getLast?_concat]
        simpa using hc
      · apply endsOnce_of_getLast?
        rw [List.getLast?_concat]
        simpa using hc

/-- `normalizePath` yields a canonical path exactly when its input does not end in two
slashes. -/
theorem canonicalPath_normalizePath_iff (path : Text) :
  CanonicalPath (normalizePath path) ↔ EndsOnce path
  := by
  by_cases h : path.head? = some '/'
  · cases path with
    | nil => cases h
    | cons c rest =>
        cases h
        apply canonicalPath_normalizePath_cons
  · rw [normalizePath_without_slash h, canonicalPath_normalizePath_cons, endsOnce_cons h]

/-! ### Runs -/

/-- The paths in the parameters of a request that it stores. -/
def Request.storedPaths : Request → List Text
  | .write p => [p.path]
  | .writeRaw _ p => [p.path]
  | .edit p => [p.path]
  | .append p => [p.path]
  | .revert p => [p.path]
  | .cp p => [p.toPath]
  | .mv p => [p.fromPath, p.toPath]
  | .rm p => [p.path]
  | .openRead _ => []
  | .getRaw _ => []

/-- The paths in the parameters of a request that it stores. -/
def DriveRequest.storedPaths : DriveRequest → List Text
  | .file _ request => request.storedPaths
  | .comment _ (.add params) => params.path.toList
  | .comment _ _ => []

/-- Every stored path is a fixed point of `normalizePath`. -/
structure Db.Canonical (db : Db) : Prop where
  files : ∀ f ∈ db.files, normalizePath f.path = f.path
  versions : ∀ r ∈ db.fileVersions, normalizePath r.path = r.path
  comments : ∀ c ∈ db.comments, normalizePath c.path = c.path

theorem Request.Records.normalized {request : Request} {path : Text}
    (h : request.Records path) :
  ∃ p ∈ request.storedPaths, path = normalizePath p
  := by
  cases h with
  | inl htarget =>
      cases request with
      | rm p => cases htarget
      | openRead p => cases htarget
      | getRaw p => cases htarget
      | mv p =>
          cases htarget
          exact ⟨p.toPath, by simp [storedPaths], rfl⟩
      | _ =>
          cases htarget
          exact ⟨_, List.mem_singleton_self _, rfl⟩
  | inr hremoved =>
      cases request with
      | mv p =>
          cases hremoved
          exact ⟨p.fromPath, by simp [storedPaths], rfl⟩
      | rm p =>
          cases hremoved
          exact ⟨p.path, by simp [storedPaths], rfl⟩
      | _ => cases hremoved

/-- A new comment is at the normalized form of its own path, or of the path of the comment
it replies to. -/
theorem commentPath_normalized {ctx : OpContext} {params : CommentAddParams} {db : Db}
    {path : Text} (h : commentPath ctx params db = .ok path) :
  ∃ p, path = normalizePath p ∧ (p ∈ params.path.toList ∨ ∃ c ∈ db.comments, c.path = p)
  := by
  obtain ⟨-, p, hp, rfl⟩ | ⟨parentId, parent, -, hparent, -, p, rfl, hp⟩ := commentPath_cases h
  · refine ⟨p, rfl, .inl ?_⟩
    rw [hp]
    apply List.mem_singleton_self
  · refine ⟨p, rfl, ?_⟩
    cases hp with
    | inl hown =>
        left
        rw [hown]
        apply List.mem_singleton_self
    | inr hroot => exact .inr ⟨parent, List.mem_of_find?_eq_some hparent, hroot⟩

/-- A step of a request whose paths do not end in two slashes keeps the stored paths
canonical. -/
theorem Db.Canonical.step {x : Input} {db db' : Db} {request : DriveRequest}
    (h : db.Canonical) (hstep : DriveStep x db db' request)
    (hpaths : ∀ p ∈ request.storedPaths, EndsOnce p) :
  db'.Canonical
  := by
  have hfixed {p : Text} (hp : EndsOnce p) :
      normalizePath (normalizePath p) = normalizePath p :=
    normalizePath_eq_self_iff.mpr ((canonicalPath_normalizePath_iff p).mpr hp)
  cases hstep with
  | same _ files versions comments =>
      constructor
      · rw [files]
        exact h.files
      · rw [versions]
        exact h.versions
      · rw [comments]
        exact h.comments
  | file ctx request step =>
      cases step with
      | same files versions comments =>
          constructor
          · rw [files]
            exact h.files
          · rw [versions]
            exact h.versions
          · rw [comments]
            exact h.comments
      | recorded path records files versions comments =>
          obtain ⟨p, hp, rfl⟩ := records.normalized
          constructor
          · intro f hf
            cases files f hf with
            | inl hold => exact h.files f hold
            | inr hnew => rw [hnew, hfixed (hpaths p hp)]
          · intro r hr
            cases versions r hr with
            | inl hold => exact h.versions r hold
            | inr hnew => rw [hnew, hfixed (hpaths p hp)]
          · rw [comments]
            exact h.comments
      | uncommented params rm files versions comments =>
          constructor
          · rw [files]
            exact h.files
          · rw [versions]
            exact h.versions
          · intro c hc
            rw [comments] at hc
            obtain ⟨c', hc', rfl⟩ := List.mem_map.mp hc
            split
            · exact h.comments c' hc'
            · exact h.comments c' hc'
  | comment ctx request files versions step =>
      constructor
      · rw [files]
        exact h.files
      · rw [versions]
        exact h.versions
      · generalize db'.comments = comments at step
        cases step with
        | added params path at_path fresh =>
            intro c hc
            rw [List.mem_append, List.mem_singleton] at hc
            cases hc with
            | inl hold => exact h.comments c hold
            | inr hnew =>
                obtain ⟨p, rfl, hp⟩ := commentPath_normalized at_path
                rw [hnew]
                show normalizePath (normalizePath p) = normalizePath p
                cases hp with
                | inl hown => exact hfixed (hpaths p hown)
                | inr hparent =>
                    obtain ⟨parent, hmem, rfl⟩ := hparent
                    rw [h.comments parent hmem, h.comments parent hmem]
        | revised _ change keeps =>
            intro c hc
            obtain ⟨c', hc', rfl⟩ := List.mem_map.mp hc
            rw [(keeps c').path]
            exact h.comments c' hc'
        | deleted id row found =>
            intro c hc
            obtain ⟨c', hc', rfl⟩ := List.mem_map.mp hc
            split
            · exact h.comments c' hc'
            · exact h.comments c' hc'

/-- `normalizePath` is idempotent on a path and yields a canonical path exactly when the
path does not end in two slashes; and in every run of file and comment requests whose
paths do not, from tables whose paths are fixed points of `normalizePath`, every path
stored in `files`, `file_versions` and `comments` is one in every state. -/
theorem stored_paths_canonical (sha256 : Bytes → Text) (toLowerCase : Text → Text) :
  (∀ path, (normalizePath (normalizePath path) = normalizePath path ∧
    CanonicalPath (normalizePath path)) ↔ EndsOnce path) ∧
  ∀ (w : HookWorld) (requests : List DriveRequest) (sched : List (Nat × HookInput)),
    w.world.db.Canonical → (∀ r ∈ requests, ∀ p ∈ r.storedPaths, EndsOnce p) →
    (drivePool sha256 toLowerCase w requests).Admits
        (fun cf _ _ => cf.state.world.db.Canonical) sched ∧
      ((drivePool sha256 toLowerCase w requests).run sched).conf.state.world.db.Canonical
  := by
  constructor
  · intro path
    rw [normalizePath_eq_self_iff, and_self, canonicalPath_normalizePath_iff]
  · intro w requests sched hstart hpaths
    have hsteps := drivePool_steps sha256 toLowerCase w requests sched
    apply hsteps.inv (I := fun cf => cf.state.world.db.Canonical) _ hstart
    rintro cf i r ⟨request, x, hrequest, hstep⟩ hcanonical
    apply hcanonical.step hstep
    exact hpaths request (List.mem_of_getElem? hrequest)

theorem canonical_empty :
  Db.empty.Canonical
  := by
  constructor
  · intro f hf
    cases hf
  · intro r hr
    cases hr
  · intro c hc
    cases hc

/-- A write of a path, as a request to its drive. -/
def sampleStore (path : String) : DriveRequest :=
  .file sampleContext (.writeRaw maxFileSize { path := path.toList, bytes := [97] })

theorem stored_paths_canonical_sampleStore :
  ((drivePool sampleHash id ⟨0, World.empty⟩ [sampleStore "x/"]).run
      (List.replicate 6 (0, sampleHookInput 1 200))).conf.state.world.db.files.map (·.path) =
        ["/x".toList] ∧
    ((drivePool sampleHash id ⟨0, World.empty⟩ [sampleStore "x/"]).run
      (List.replicate 6 (0, sampleHookInput 1 200))).conf.state.world.db.Canonical
  := by
  refine ⟨by decide +kernel, ?_⟩
  exact ((stored_paths_canonical sampleHash id).2 ⟨0, World.empty⟩ [sampleStore "x/"]
    (List.replicate 6 (0, sampleHookInput 1 200)) canonical_empty (by decide)).2

/-- A path that ends in two slashes is stored with one of them, and an operation addressed
by the stored path goes to another path. -/
theorem stored_path_of_two_slashes :
  normalizePath "/x//".toList = "/x/".toList ∧
    ((drivePool sampleHash id ⟨0, World.empty⟩ [sampleStore "/x//"]).run
      (List.replicate 6 (0, sampleHookInput 1 200))).conf.state.world.db.files.map (·.path) =
        ["/x/".toList] ∧
    normalizePath "/x/".toList = "/x".toList
  := by
  refine ⟨by decide, by decide +kernel, by decide⟩

end AgentFs
