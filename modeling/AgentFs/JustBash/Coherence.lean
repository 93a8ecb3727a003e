import Mathlib.Data.List.Infix
import AgentFs.JustBash.RequestCache

/-!
# The caches of a just-bash file system

The stat cache and the ls cache of one `AgentFsFileSystem`, what `statFile` and `lsEntries`
answer from them, and what `mutate`, `putRaw`, `rm` of a directory and `refreshAllPaths` drop.
An event is a piece of code between two awaits; the events of any number of operations come in
any order.
-/

namespace AgentFs.JustBash

open RequestCache

/-- `AgentFsStatResult`. -/
structure StatResult where
  size : Nat
  modifiedAt : Option Nat
  deriving DecidableEq, Repr

/-- How far the `rm` of a directory is. -/
inductive Removal where
  | running
  | removed
  | failed
  deriving DecidableEq, Repr

/-- The `rm` of a directory, and the files that it has still to remove. -/
structure DirectoryRm where
  path : Route
  files : List Route
  removal : Removal
  deriving DecidableEq, Repr

structure Caches where
  statCache : RequestCache (Option StatResult)
  lsCache : RequestCache (List LsEntry)
  rms : List DirectoryRm
  deriving DecidableEq

/-- What a listing of the parent says of a path. -/
structure ListedChild where
  file : Option LsEntry
  directory : Bool
  deriving DecidableEq, Repr

/-- What a call returns: a promise that is resolved with what the listing of the parent says, or
the promise of a cache. -/
inductive Reply (T : Type) where
  | listed (request : Nat) (value : T)
  | loaded (reply : CacheReply T)
  deriving DecidableEq, Repr

/-- The name of a path; the root has the name `/`. -/
def basename (route : Route) : Text :=
  route.getLast?.getD ['/']

/-- A listing names every child. -/
def childIn (path : Route) (entries : List LsEntry) : ListedChild :=
  let hits := entries.filter (fun entry => entry.name = basename path)
  ⟨hits.find? (fun entry => entry.type = .file), hits.any (fun entry => entry.type = .directory)⟩

/-- What a listed child says to `statFile`. -/
def ListedChild.stat? (listed : ListedChild) : Option (Option StatResult) :=
  match listed.file with
  | none => some none
  | some file => file.modifiedAt.map (fun modifiedAt => some ⟨file.size, some modifiedAt⟩)

/-- What a listed child says to `lsEntries`. -/
def ListedChild.ls? (listed : ListedChild) : Option (List LsEntry) :=
  if listed.directory then none else some []

namespace Caches

def new (ttlMs : Option Int) : Caches :=
  ⟨.new ttlMs, .new ttlMs, []⟩

/-- What a fresh listing of the parent says, and the request of the listing. -/
def listedChild (s : Caches) (path : Route) (now : Int) : Option (Nat × ListedChild) :=
  if path = [] then none
  else (s.lsCache.answer (dirname path) now).map (fun parent =>
    (parent.request, childIn path parent.value))

def statFile (s : Caches) (path : Route) (now : Int) : Reply (Option StatResult) × Caches :=
  match (s.listedChild path now).bind (fun (r, listed) => listed.stat?.map (r, ·)) with
  | some (r, value) => (.listed r value, s)
  | none => (.loaded (s.statCache.get path now).1,
      { s with statCache := (s.statCache.get path now).2 })

def lsEntries (s : Caches) (path : Route) (now : Int) : Reply (List LsEntry) × Caches :=
  match (s.listedChild path now).bind (fun (r, listed) => listed.ls?.map (r, ·)) with
  | some (r, value) => (.listed r value, s)
  | none => (.loaded (s.lsCache.get path now).1,
      { s with lsCache := (s.lsCache.get path now).2 })

/-- Drop the entries of a path, and the listing of every ancestor up to the root. -/
def invalidate (s : Caches) (path : Route) : Caches :=
  { s with
    statCache := s.statCache.delete path
    lsCache := path.inits.reverse.foldl RequestCache.delete s.lsCache }

def invalidateTree (s : Caches) (path : Route) : Caches :=
  let s := s.invalidate path
  { s with
    statCache := s.statCache.deleteTree path
    lsCache := s.lsCache.deleteTree path }

/-- A request to remove a file has been answered, or has failed. -/
def rmFile (s : Caches) (i : Nat) (ok : Bool) : Option Caches :=
  match s.rms[i]? with
  | some ⟨path, file :: files, .running⟩ =>
      let rm := if ok then ⟨path, files, .running⟩ else ⟨path, file :: files, .failed⟩
      some { s.invalidate file with rms := s.rms.set i rm }
  | _ => none

/-- All files have been removed. -/
def rmEnd (s : Caches) (i : Nat) : Option Caches :=
  match s.rms[i]? with
  | some ⟨path, [], .running⟩ =>
      some { s.invalidateTree path with rms := s.rms.set i ⟨path, [], .removed⟩ }
  | _ => none

/-- An event of the file system. -/
inductive Event where
  | statFile (path : Route) (now : Int)
  | lsEntries (path : Route) (now : Int)
  /-- The server has answered a request, or it has failed. -/
  | settleStat (r : Nat) (result : Option (Option StatResult))
  | settleLs (r : Nat) (result : Option (List LsEntry))
  | callbackStat (r : Nat) (now : Int)
  | callbackLs (r : Nat) (now : Int)
  /-- A request that writes has been answered, or it has failed. -/
  | mutated (op : DriveOp) (ok : Bool)
  /-- `rm` has found the files under a directory. -/
  | rm (path : Route) (files : List Route)
  | rmFile (i : Nat) (ok : Bool)
  | rmEnd (i : Nat)
  /-- `refreshAllPaths` is called. -/
  | refresh (path : Route)
  deriving DecidableEq, Repr

def step (s : Caches) : Event → Option Caches
  | .statFile path now => some (s.statFile path now).2
  | .lsEntries path now => some (s.lsEntries path now).2
  | .settleStat r result => (s.statCache.settle r result).map (fun c => { s with statCache := c })
  | .settleLs r result => (s.lsCache.settle r result).map (fun c => { s with lsCache := c })
  | .callbackStat r now => (s.statCache.callback r now).map (fun c => { s with statCache := c })
  | .callbackLs r now => (s.lsCache.callback r now).map (fun c => { s with lsCache := c })
  -- Whether it has failed or not: it may have reached the server.
  | .mutated op _ => some (op.touched.foldl invalidate s)
  | .rm path files => some { s with rms := s.rms ++ [⟨path, files, .running⟩] }
  | .rmFile i ok => s.rmFile i ok
  | .rmEnd i => s.rmEnd i
  | .refresh path => some (s.invalidateTree path)

def run (s : Caches) : List Event → Option Caches
  | [] => some s
  | e :: es => (s.step e).bind (fun s' => s'.run es)

/-- The value that a call of `statFile` has resolved to. -/
def statResult? (s : Caches) : Reply (Option StatResult) → Option (Option StatResult)
  | .listed _ value => some value
  | .loaded reply => s.statCache.resolved? reply

/-- The entries that a call of `lsEntries` has resolved to. -/
def lsResult? (s : Caches) : Reply (List LsEntry) → Option (List LsEntry)
  | .listed _ value => some value
  | .loaded reply => s.lsCache.resolved? reply

/-! ### What an event can change -/

/-- The files that an event may have changed. -/
def touched (s : Caches) : Event → List Route
  | .mutated op _ => op.touched
  | .rmFile i _ => (s.rms[i]?.bind (fun rm => rm.files.head?)).toList
  | _ => []

/-- The directories under which an event may have changed any file. -/
def trees (s : Caches) : Event → List Route
  | .rmEnd i => (s.rms[i]?.map DirectoryRm.path).toList
  | .refresh path => [path]
  | _ => []

/-- The answer of `stat` for the path may be another one after the event. -/
def StatAffected (s : Caches) (e : Event) (path : Route) : Prop :=
  path ∈ s.touched e ∨ ∃ tree ∈ s.trees e, tree <+: path

/-- The listing of the path may be another one after the event. -/
def LsAffected (s : Caches) (e : Event) (path : Route) : Prop :=
  (∃ file ∈ s.touched e, path <+: file) ∨ ∃ tree ∈ s.trees e, path <+: tree ∨ tree <+: path

/-! ### What a step does -/

/-- Both caches only drop entries. -/
structure Invalidates (s s' : Caches) : Prop where
  stat : Drops s.statCache s'.statCache
  ls : Drops s.lsCache s'.lsCache

theorem Invalidates.trans {s s' s'' : Caches} (h : Invalidates s s') (h' : Invalidates s' s'') :
  Invalidates s s''
  where
  stat := h.stat.trans h'.stat
  ls := h.ls.trans h'.ls

theorem invalidate_invalidates (s : Caches) (path : Route) :
  Invalidates s (s.invalidate path)
  where
  stat := delete_drops s.statCache path
  ls := deletes_drops s.lsCache path.inits.reverse

theorem invalidateTree_invalidates (s : Caches) (path : Route) :
  Invalidates s (s.invalidateTree path)
  where
  stat := (invalidate_invalidates s path).stat.trans (deleteTree_drops _ path)
  ls := (invalidate_invalidates s path).ls.trans (deleteTree_drops _ path)

theorem invalidates_foldl (s : Caches) (paths : List Route) :
  Invalidates s (paths.foldl invalidate s)
  := by
  induction paths generalizing s with
  | nil => exact ⟨Drops.refl _, Drops.refl _⟩
  | cons path paths ih =>
      rw [List.foldl_cons]
      apply (invalidate_invalidates s path).trans (ih _)

/-- Both caches move on. -/
structure Moves (s s' : Caches) : Prop where
  stat : Follows s.statCache s'.statCache
  ls : Follows s.lsCache s'.lsCache

theorem Invalidates.moves {s s' : Caches} (h : Invalidates s s') :
  Moves s s'
  where
  stat := h.stat.follows
  ls := h.ls.follows

theorem Moves.refl (s : Caches) :
  Moves s s
  := Invalidates.moves ⟨Drops.refl _, Drops.refl _⟩

theorem statFile_moves (s : Caches) (path : Route) (now : Int) :
  Moves s (s.statFile path now).2
  := by
  unfold statFile
  split
  · apply Moves.refl
  · exact ⟨get_follows _ _ _, (Moves.refl s).ls⟩

theorem lsEntries_moves (s : Caches) (path : Route) (now : Int) :
  Moves s (s.lsEntries path now).2
  := by
  unfold lsEntries
  split
  · apply Moves.refl
  · exact ⟨(Moves.refl s).stat, get_follows _ _ _⟩

/-- What the removal of a file comes to. -/
theorem rmFile_cases {s s' : Caches} {i : Nat} {ok : Bool} (h : s.rmFile i ok = some s') :
  ∃ rm file, s.rms[i]? = some rm ∧ rm.files.head? = some file ∧
    s'.statCache = (s.invalidate file).statCache ∧ s'.lsCache = (s.invalidate file).lsCache
  := by
  unfold rmFile at h
  split at h
  · rename_i path file files hrm
    cases h
    exact ⟨_, file, hrm, rfl, rfl, rfl⟩
  · cases h

/-- What the end of a removal comes to. -/
theorem rmEnd_cases {s s' : Caches} {i : Nat} (h : s.rmEnd i = some s') :
  ∃ rm, s.rms[i]? = some rm ∧ s'.statCache = (s.invalidateTree rm.path).statCache ∧
    s'.lsCache = (s.invalidateTree rm.path).lsCache
  := by
  unfold rmEnd at h
  split at h
  · rename_i path hrm
    cases h
    exact ⟨_, hrm, rfl, rfl⟩
  · cases h

theorem step_moves {s s' : Caches} {e : Event} (h : s.step e = some s') :
  Moves s s'
  := by
  cases e with
  | statFile path now =>
      cases h
      apply statFile_moves
  | lsEntries path now =>
      cases h
      apply lsEntries_moves
  | settleStat r result =>
      obtain ⟨c, hc, rfl⟩ := Option.map_eq_some_iff.mp h
      exact ⟨settle_follows hc, (Moves.refl s).ls⟩
  | settleLs r result =>
      obtain ⟨c, hc, rfl⟩ := Option.map_eq_some_iff.mp h
      exact ⟨(Moves.refl s).stat, settle_follows hc⟩
  | callbackStat r now =>
      obtain ⟨c, hc, rfl⟩ := Option.map_eq_some_iff.mp h
      exact ⟨callback_follows hc, (Moves.refl s).ls⟩
  | callbackLs r now =>
      obtain ⟨c, hc, rfl⟩ := Option.map_eq_some_iff.mp h
      exact ⟨(Moves.refl s).stat, callback_follows hc⟩
  | mutated op ok =>
      cases h
      exact (invalidates_foldl s op.touched).moves
  | rm path files =>
      cases h
      exact ⟨(Moves.refl s).stat, (Moves.refl s).ls⟩
  | rmFile i ok =>
      obtain ⟨rm, file, -, -, hstat, hls⟩ := rmFile_cases h
      have hmoves := (invalidate_invalidates s file).moves
      exact ⟨by rw [hstat]; exact hmoves.stat, by rw [hls]; exact hmoves.ls⟩
  | rmEnd i =>
      obtain ⟨rm, -, hstat, hls⟩ := rmEnd_cases h
      have hmoves := (invalidateTree_invalidates s rm.path).moves
      exact ⟨by rw [hstat]; exact hmoves.stat, by rw [hls]; exact hmoves.ls⟩
  | refresh path =>
      cases h
      exact (invalidateTree_invalidates s path).moves

/-- What every move keeps, a run keeps. -/
theorem run_keeps {I : Caches → Prop} (hI : ∀ {s s'}, Moves s s' → I s → I s') {s s' : Caches}
    {es : List Event} (hs : I s) (h : s.run es = some s') :
  I s'
  := by
  induction es generalizing s with
  | nil =>
      cases h
      exact hs
  | cons e es ih =>
      obtain ⟨t, hstep, hrest⟩ := Option.bind_eq_some_iff.mp h
      exact ih (hI (step_moves hstep) hs) hrest

theorem run_append {s : Caches} {es fs : List Event} :
  s.run (es ++ fs) = (s.run es).bind (fun t => t.run fs)
  := by
  induction es generalizing s with
  | nil => rfl
  | cons e es ih =>
      rw [List.cons_append, Caches.run, Caches.run, Option.bind_assoc]
      congr 1
      funext t
      exact ih

/-! ### What is newer than an event -/

/-- The entries of both caches are sound. -/
structure Sound (s : Caches) : Prop where
  stat : RequestCache.Sound s.statCache
  ls : RequestCache.Sound s.lsCache

theorem Sound.moves {s s' : Caches} (hmoves : Moves s s') (h : Sound s) :
  Sound s'
  where
  stat := h.stat.follows hmoves.stat
  ls := h.ls.follows hmoves.ls

theorem sound_new (ttlMs : Option Int) :
  Sound (new ttlMs)
  where
  stat := RequestCache.sound_new ttlMs
  ls := RequestCache.sound_new ttlMs

/-- The entries of the stat cache for `K` and those of the ls cache for `L` are of requests not
older than `n` and `m`. -/
structure FreshFrom (n m : Nat) (K L : Route → Prop) (s : Caches) : Prop where
  stat : RequestCache.FreshFrom n K s.statCache
  ls : RequestCache.FreshFrom m L s.lsCache

theorem FreshFrom.moves {n m : Nat} {K L : Route → Prop} {s s' : Caches} (hmoves : Moves s s')
    (h : FreshFrom n m K L s) :
  FreshFrom n m K L s'
  where
  stat := h.stat.follows hmoves.stat
  ls := h.ls.follows hmoves.ls

theorem FreshFrom.mono {n m : Nat} {K K' L L' : Route → Prop} {s : Caches}
    (h : FreshFrom n m K L s) (hK : ∀ k, K' k → K k) (hL : ∀ k, L' k → L k) :
  FreshFrom n m K' L' s
  where
  stat := h.stat.mono hK
  ls := h.ls.mono hL

theorem freshFrom_none (s : Caches) :
  FreshFrom s.statCache.requests.length s.lsCache.requests.length (fun _ => False)
    (fun _ => False) s
  where
  stat := RequestCache.freshFrom_none s.statCache
  ls := RequestCache.freshFrom_none s.lsCache

theorem FreshFrom.invalidate {n m : Nat} {K L : Route → Prop} {s : Caches}
    (h : FreshFrom n m K L s) (path : Route) :
  FreshFrom n m (fun k => K k ∨ k = path) (fun k => L k ∨ k <+: path) (s.invalidate path)
  where
  stat := h.stat.delete path
  ls := by
    apply (h.ls.deletes path.inits.reverse).mono
    intro k hk
    rw [List.mem_reverse, List.mem_inits]
    exact hk

theorem FreshFrom.invalidateTree {n m : Nat} {K L : Route → Prop} {s : Caches}
    (h : FreshFrom n m K L s) (path : Route) :
  FreshFrom n m (fun k => K k ∨ path <+: k) (fun k => L k ∨ k <+: path ∨ path <+: k)
    (s.invalidateTree path)
  where
  stat := by
    apply ((h.invalidate path).stat.deleteTree path).mono
    rintro k (hk | hk)
    · exact .inl (.inl hk)
    · exact .inr hk
  ls := by
    apply ((h.invalidate path).ls.deleteTree path).mono
    rintro k (hk | hk | hk)
    · exact .inl (.inl hk)
    · exact .inl (.inr hk)
    · exact .inr hk

theorem FreshFrom.invalidates {n m : Nat} {K L : Route → Prop} {s : Caches}
    (h : FreshFrom n m K L s) (paths : List Route) :
  FreshFrom n m (fun k => K k ∨ k ∈ paths) (fun k => L k ∨ ∃ path ∈ paths, k <+: path)
    (paths.foldl Caches.invalidate s)
  := by
  induction paths generalizing s K L with
  | nil =>
      apply h.mono
      · simp
      · simp
  | cons path paths ih =>
      rw [List.foldl_cons]
      apply (ih (h.invalidate path)).mono
      · intro k hk
        rw [List.mem_cons] at hk
        tauto
      · rintro k (hk | ⟨path', hpath, hk⟩)
        · exact .inl (.inl hk)
        · rcases List.mem_cons.mp hpath with rfl | hpath
          · exact .inl (.inr hk)
          · exact .inr ⟨path', hpath, hk⟩

/-- After an event, what it affects is in no cache and not in flight. -/
theorem freshFrom_step {s s' : Caches} {e : Event} (h : s.step e = some s') :
  FreshFrom s.statCache.requests.length s.lsCache.requests.length (s.StatAffected e)
    (s.LsAffected e) s'
  := by
  have hnone := FreshFrom.moves (step_moves h) (freshFrom_none s)
  have huntouched : s.touched e = [] → s.trees e = [] →
      FreshFrom s.statCache.requests.length s.lsCache.requests.length (s.StatAffected e)
        (s.LsAffected e) s' := by
    intro htouched htrees
    apply hnone.mono
    · unfold StatAffected
      simp [htouched, htrees]
    · unfold LsAffected
      simp [htouched, htrees]
  cases e with
  | statFile path now => exact huntouched rfl rfl
  | lsEntries path now => exact huntouched rfl rfl
  | settleStat r result => exact huntouched rfl rfl
  | settleLs r result => exact huntouched rfl rfl
  | callbackStat r now => exact huntouched rfl rfl
  | callbackLs r now => exact huntouched rfl rfl
  | rm path files => exact huntouched rfl rfl
  | mutated op ok =>
      cases h
      apply ((freshFrom_none s).invalidates op.touched).mono
      · simp [StatAffected, touched, trees]
      · simp [LsAffected, touched, trees]
  | rmFile i ok =>
      obtain ⟨rm, file, hrm, hfile, hstat, hls⟩ := rmFile_cases h
      have hfresh := (freshFrom_none s).invalidate file
      constructor
      · rw [hstat]
        apply hfresh.stat.mono
        simp [StatAffected, touched, trees, hrm, hfile]
      · rw [hls]
        apply hfresh.ls.mono
        simp [LsAffected, touched, trees, hrm, hfile]
  | rmEnd i =>
      obtain ⟨rm, hrm, hstat, hls⟩ := rmEnd_cases h
      have hfresh := (freshFrom_none s).invalidateTree rm.path
      constructor
      · rw [hstat]
        apply hfresh.stat.mono
        simp [StatAffected, touched, trees, hrm]
      · rw [hls]
        apply hfresh.ls.mono
        simp [LsAffected, touched, trees, hrm]
  | refresh path =>
      cases h
      apply ((freshFrom_none s).invalidateTree path).mono
      · simp [StatAffected, touched, trees]
      · simp [LsAffected, touched, trees]

/-- The parent of a path whose `stat` is affected is listed anew. -/
theorem LsAffected.of_stat {s : Caches} {e : Event} {path : Route} (h : s.StatAffected e path) :
  s.LsAffected e (dirname path)
  := by
  have hdirname : dirname path <+: path := List.dropLast_prefix path
  rcases h with hfile | ⟨tree, htree, hunder⟩
  · exact .inl ⟨path, hfile, hdirname⟩
  · right
    exact ⟨tree, htree, List.prefix_or_prefix_of_prefix hdirname hunder⟩

theorem LsAffected.dirname {s : Caches} {e : Event} {path : Route} (h : s.LsAffected e path) :
  s.LsAffected e (JustBash.dirname path)
  := by
  have hdirname : JustBash.dirname path <+: path := List.dropLast_prefix path
  rcases h with ⟨file, hfile, hstart⟩ | ⟨tree, htree, hstart | hunder⟩
  · exact .inl ⟨file, hfile, hdirname.trans hstart⟩
  · exact .inr ⟨tree, htree, .inl (hdirname.trans hstart)⟩
  · right
    exact ⟨tree, htree, List.prefix_or_prefix_of_prefix hdirname hunder⟩

/-! ### What a call is answered with -/

theorem listedChild_mem {s : Caches} {path : Route} {now : Int} {r : Nat} {listed : ListedChild}
    (h : s.listedChild path now = some (r, listed)) :
  ∃ a, (dirname path, a) ∈ s.lsCache.answers.entries ∧ childIn path a.value = listed
  := by
  unfold listedChild at h
  split at h
  · cases h
  · obtain ⟨a, ha, heq⟩ := Option.map_eq_some_iff.mp h
    cases heq
    exact ⟨a, answer_mem ha, rfl⟩

/-- The value of `stat` is loaded for the path, or it is what a listing of the parent says. -/
def StatLoaded (s : Caches) (n m : Nat) (path : Route) (value : Option StatResult) : Prop :=
  LoadedFrom s.statCache n path value ∨
    ∃ entries, LoadedFrom s.lsCache m (dirname path) entries ∧
      (childIn path entries).stat? = some value

/-- The entries are loaded for the path, or they are what a listing of the parent says. -/
def LsLoaded (s : Caches) (m : Nat) (path : Route) (value : List LsEntry) : Prop :=
  LoadedFrom s.lsCache m path value ∨
    ∃ entries, LoadedFrom s.lsCache m (dirname path) entries ∧
      (childIn path entries).ls? = some value

theorem FreshFrom.statFile {n m : Nat} {K L : Route → Prop} {s : Caches}
    (h : FreshFrom n m K L s) (hsound : Sound s) {path : Route} (hpath : K path)
    (hparent : L (dirname path)) {now : Int} {u : Caches} (hstat : Later
      (s.statFile path now).2.statCache u.statCache) (hls : Later s.lsCache u.lsCache)
    {value : Option StatResult} (hresult : u.statResult? (s.statFile path now).1 = some value) :
  u.StatLoaded n m path value
  := by
  unfold Caches.statFile at hresult hstat
  split at hresult
  · rename_i r listed hbind
    cases hresult
    obtain ⟨⟨r', listed'⟩, hchild, hsays⟩ := Option.bind_eq_some_iff.mp hbind
    obtain ⟨value', hsays, heq⟩ := Option.map_eq_some_iff.mp hsays
    cases heq
    obtain ⟨a, ha, rfl⟩ := listedChild_mem hchild
    exact .inr ⟨a.value, (h.ls.loadedFrom hsound.ls hparent ha).later hls, hsays⟩
  · rename_i hnone
    rw [hnone] at hstat
    exact .inl (h.stat.resolved hsound.stat hpath hstat hresult)

theorem FreshFrom.lsEntries {n m : Nat} {K L : Route → Prop} {s : Caches}
    (h : FreshFrom n m K L s) (hsound : Sound s) {path : Route} (hpath : L path)
    (hparent : L (dirname path)) {now : Int} {u : Caches}
    (hls : Later (s.lsEntries path now).2.lsCache u.lsCache)
    {value : List LsEntry} (hresult : u.lsResult? (s.lsEntries path now).1 = some value) :
  u.LsLoaded m path value
  := by
  unfold Caches.lsEntries at hresult hls
  split at hresult
  · rename_i r listed hbind
    rw [hbind] at hls
    cases hresult
    obtain ⟨⟨r', listed'⟩, hchild, hsays⟩ := Option.bind_eq_some_iff.mp hbind
    obtain ⟨value', hsays, heq⟩ := Option.map_eq_some_iff.mp hsays
    cases heq
    obtain ⟨a, ha, rfl⟩ := listedChild_mem hchild
    exact .inr ⟨a.value, (h.ls.loadedFrom hsound.ls hparent ha).later hls, hsays⟩
  · rename_i hnone
    rw [hnone] at hls
    exact .inl (h.ls.resolved hsound.ls hpath hls hresult)

theorem run_later {s s' : Caches} {es : List Event} (h : s.run es = some s') :
  Later s.statCache s'.statCache ∧ Later s.lsCache s'.lsCache
  := by
  apply run_keeps (I := fun t => Later s.statCache t.statCache ∧ Later s.lsCache t.lsCache) _
    ⟨Later.of_eq rfl, Later.of_eq rfl⟩ h
  rintro t t' hmoves ⟨hstat, hls⟩
  exact ⟨hstat.trans hmoves.stat.requests, hls.trans hmoves.ls.requests⟩

/-- In every run, neither cache has more than 10,000 answers; and after an event, for what it
affects, the answers in the caches are of requests made after the event, and so is what a call
of `statFile` or `lsEntries` resolves to. -/
theorem answers_fresh {ttlMs : Option Int} {es : List Event} {s : Caches}
    (hrun : (new ttlMs).run es = some s) :
  s.statCache.answers.size ≤ 10000 ∧ s.lsCache.answers.size ≤ 10000 ∧
    ∀ before e between t, es = before ++ e :: between → (new ttlMs).run before = some t →
      let n := t.statCache.requests.length
      let m := t.lsCache.requests.length
      (∀ path, t.StatAffected e path →
        (∀ a, (path, a) ∈ s.statCache.answers.entries → n ≤ a.request) ∧
        ∀ now after u value, (s.statFile path now).2.run after = some u →
          u.statResult? (s.statFile path now).1 = some value → u.StatLoaded n m path value) ∧
      (∀ path, t.LsAffected e path →
        (∀ a, (path, a) ∈ s.lsCache.answers.entries → m ≤ a.request) ∧
        ∀ now after u value, (s.lsEntries path now).2.run after = some u →
          u.lsResult? (s.lsEntries path now).1 = some value → u.LsLoaded m path value)
  := by
  have hsound : Sound s := run_keeps (fun hmoves h => h.moves hmoves) (sound_new ttlMs) hrun
  refine ⟨hsound.stat.size, hsound.ls.size, ?_⟩
  intro before e between t hes hbefore n m
  have hfresh : FreshFrom n m (t.StatAffected e) (t.LsAffected e) s := by
    rw [hes, run_append, hbefore, Option.bind_some] at hrun
    obtain ⟨t', hstep, hbetween⟩ := Option.bind_eq_some_iff.mp hrun
    exact run_keeps (fun hmoves h => h.moves hmoves) (freshFrom_step hstep) hbetween
  constructor
  · intro path hpath
    refine ⟨fun a ha => hfresh.stat.answers ha hpath, ?_⟩
    intro now after u value hafter hresult
    obtain ⟨hstat, hls⟩ := run_later hafter
    exact hfresh.statFile hsound hpath (LsAffected.of_stat hpath) hstat
      ((statFile_moves s path now).ls.requests.trans hls) hresult
  · intro path hpath
    refine ⟨fun a ha => hfresh.ls.answers ha hpath, ?_⟩
    intro now after u value hafter hresult
    exact hfresh.lsEntries hsound hpath hpath.dirname (run_later hafter).2 hresult

/-- A file that has been listed, is written and is then asked for. -/
def samplePutRun : List Event :=
  [.statFile [['a'], ['x']] 0, .settleStat 0 (some (some ⟨5, none⟩)), .callbackStat 0 1,
    .mutated (.put [['a'], ['x']] [7]) true]

theorem answers_fresh_samplePutRun :
  ∃ s, (new (some 5000)).run samplePutRun = some s ∧ s.statCache.answers.size ≤ 10000 ∧
    ∀ now after u value, (s.statFile [['a'], ['x']] now).2.run after = some u →
      u.statResult? (s.statFile [['a'], ['x']] now).1 = some value →
      u.StatLoaded 1 0 [['a'], ['x']] value
  := by
  have hrun : ((new (some 5000)).run samplePutRun).isSome = true := by decide +kernel
  obtain ⟨s, hs⟩ := Option.isSome_iff_exists.mp hrun
  have hbefore : ((new (some 5000)).run (samplePutRun.take 3)).map (fun t =>
      (t.statCache.requests.length, t.lsCache.requests.length)) = some (1, 0) := by
    decide +kernel
  obtain ⟨t, ht, hlengths⟩ := Option.map_eq_some_iff.mp hbefore
  obtain ⟨hn, hm⟩ := Prod.mk.inj hlengths
  obtain ⟨hsize, -, hfresh⟩ := answers_fresh hs
  have hstat := (hfresh (samplePutRun.take 3) (.mutated (.put [['a'], ['x']] [7]) true) [] t rfl
    ht).1 [['a'], ['x']] (.inl (List.mem_singleton.mpr rfl))
  rw [hn, hm] at hstat
  exact ⟨s, hs, hsize, hstat.2⟩

/-- The removal of a directory with two files, of which the second one has been asked for. -/
def sampleRmRun : List Event :=
  [.statFile [['a'], ['y']] 0, .settleStat 0 (some (some ⟨5, none⟩)), .callbackStat 0 1,
    .statFile [['a']] 2, .settleStat 1 (some none), .callbackStat 1 3,
    .lsEntries [['a']] 4,
    .settleLs 0 (some [⟨['x'], .file, 1, none⟩, ⟨['y'], .file, 5, none⟩]), .callbackLs 0 5,
    .rm [['a']] [[['a'], ['x']], [['a'], ['y']]]]

/-- When the first file is not removed, the second one is still answered for from before. -/
theorem stale_after_failed_rm :
  ∃ t s, (new (some 5000)).run sampleRmRun = some t ∧ t.step (.rmFile 0 false) = some s ∧
    t.rms[0]?.map DirectoryRm.path = some [['a']] ∧ [['a']] <+: [['a'], ['y']] ∧
    s.statResult? (s.statFile [['a'], ['y']] 6).1 = some (some ⟨5, none⟩) ∧
    ¬ s.StatLoaded t.statCache.requests.length t.lsCache.requests.length [['a'], ['y']]
      (some ⟨5, none⟩)
  := by
  have hrun : ((new (some 5000)).run sampleRmRun).isSome = true := by decide +kernel
  obtain ⟨t, ht⟩ := Option.isSome_iff_exists.mp hrun
  have hfacts : ((new (some 5000)).run sampleRmRun).bind (fun t =>
      (t.step (.rmFile 0 false)).map (fun s => (t.rms[0]?.map DirectoryRm.path,
        s.statResult? (s.statFile [['a'], ['y']] 6).1,
        decide (s.statCache.requests.length ≤ t.statCache.requests.length),
        decide (s.lsCache.requests.length ≤ t.lsCache.requests.length)))) =
      some (some [['a']], some (some ⟨5, none⟩), true, true) := by
    decide +kernel
  rw [ht, Option.bind_some] at hfacts
  obtain ⟨s, hs, heq⟩ := Option.map_eq_some_iff.mp hfacts
  simp only [Prod.mk.injEq, decide_eq_true_eq] at heq
  obtain ⟨hpath, hresult, hstat, hls⟩ := heq
  refine ⟨t, s, ht, hs, hpath, by decide, hresult, ?_⟩
  rintro (⟨r, q, hr, hq, -⟩ | ⟨entries, ⟨r, q, hr, hq, -⟩, -⟩)
  · have hlt := (List.getElem?_eq_some_iff.mp hq).1
    omega
  · have hlt := (List.getElem?_eq_some_iff.mp hq).1
    omega

end Caches

end AgentFs.JustBash
