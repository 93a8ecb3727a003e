import AgentFs.Ops.CompareAndSwap
import AgentFs.Ops.Move

/-!
# Reading a file with its version

`open_read` and the raw file `GET` fetch the bytes first and look up the head afterwards.
A version that commits in between pairs the old bytes with the new version number, and a
client that writes back with that number overwrites bytes it was not shown.  The answer
belongs to one version as long as the bytes that are fetched are those the head describes
and nothing commits to the path before the head is looked up.
-/

namespace AgentFs

open Async

/-- The path a read looks up the head of. -/
def Request.reads? : Request → Option Text
  | .openRead path => some path
  | .getRaw urlPath => some (normalizePath urlPath)
  | _ => none

/-- The answer shows the version: its number, its hash, and bytes with that hash. -/
def Response.Shows (sha256 : Bytes → Text) (row : FileVersionRow) : Response → Prop
  | .openRead bytes version contentHash _ _ =>
      version = row.version ∧ row.contentHash = some contentHash ∧ contentHash = sha256 bytes
  | .rawFile bytes version contentHash =>
      version = some row.version ∧ contentHash = row.contentHash.filter (· ≠ []) ∧
        row.contentHash = some (sha256 bytes)
  | _ => False

/-- `/f` is written, fetched, written again, and then its head is looked up. -/
def sampleRead : Server :=
  (Server.start sampleHash World.empty
    [(sampleContext, .openRead "/f".toList), sampleWrite [97] none, sampleWrite [98] none]).run
      ([1, 1, 1, 1, 1, 1, 0, 2, 2, 2, 2, 2, 2, 0].map (·, sampleInput))

/-- The answer pairs the bytes of version 1 with the number and the hash of version 2. -/
theorem not_shows_sampleRead :
  sampleRead.result? 0 = some (.ok (.openRead [97] 2 (sampleHash [98]) 1 0)) ∧
    ¬ ∃ row ∈ sampleRead.conf.state.db.versionsOf sampleContext.driveId "/f".toList,
      (Response.openRead [97] 2 (sampleHash [98]) 1 0).Shows sampleHash row
  := by
  refine ⟨by decide +kernel, ?_⟩
  rintro ⟨row, -, -, -, hhash⟩
  exact absurd hhash (by decide +kernel)

/-! ### The exact condition -/

/-- A read with history `h` has fetched the bytes and not looked up the head yet. -/
def Fetched (h : List Event) : Prop :=
  match h with
  | .readObject _ (some _) :: _ => True
  | _ => False

instance (h : List Event) : Decidable (Fetched h) := by
  unfold Fetched
  split <;> infer_instance

/-- The condition on the steps of a run in which request `m` reads the path: it fetches
what the head describes, and nothing commits to the path before it looks up the head. -/
def ReadStep (sha256 : Bytes → Text) (ctx : OpContext) (path : Text) (m : Nat) :
    StepProp World Event := fun cf i r =>
  match r.1 with
  | .readObject _ (some obj) => i = m →
      headHash ctx cf.state.db path = some (sha256 obj.bytes)
  | .commit row => row.path = path → row.driveId = ctx.driveId → ¬ Fetched (cf.own m)
  | _ => True

instance (sha256 : Bytes → Text) (ctx : OpContext) (path : Text) (m : Nat) (cf : Config)
    (i : Nat) (r : Event × World) : Decidable (ReadStep sha256 ctx path m cf i r) :=
  match r with
  | (.readObject _ (some _), _) => inferInstanceAs (Decidable (_ → _))
  | (.commit _, _) => inferInstanceAs (Decidable (_ → _ → _))
  | (.readObject _ none, _) | (.silent, _) | (.fault, _) | (.probe .., _) | (.readVersion .., _)
  | (.storeBlob .., _) | (.storeObject .., _) | (.removeObject .., _) | (.checkVersion .., _)
  | (.readHead .., _) | (.readRow .., _) | (.allocate .., _) | (.abort .., _) => isTrue trivial

/-- Every request that expects a version picks its number only while the head matches. -/
def PicksChecked (requests : List (OpContext × Request)) : StepProp World Event :=
  fun cf i r => ∀ c ∈ requests[i]?, ∀ k ∈ c.2.check, PicksMatching k.2 cf.state.db r.1

instance (requests : List (OpContext × Request)) (cf : Config) (i : Nat) (r : Event × World) :
    Decidable (PicksChecked requests cf i r) :=
  inferInstanceAs (Decidable (∀ c ∈ requests[i]?, _))

section

variable {sha256 : Bytes → Text} {ctx : OpContext} {requests : List (OpContext × Request)}
  {path : Text} {m : Nat} {cf : Config} {i : Nat} {r : Event × World}

/-- The invariant of a run with a read. -/
structure ReadInv (sha256 : Bytes → Text) (ctx : OpContext) (path : Text) (m : Nat)
    (cf : Config) : Prop where
  /-- The bytes fetched last are those the head describes. -/
  fetched : ∀ loc obj h, cf.own m = .readObject loc (some obj) :: h →
    headHash ctx cf.state.db path = some (sha256 obj.bytes)
  /-- The head looked up after them is a version with their hash. -/
  looked : ∀ row loc obj h,
    cf.own m = .readHead ctx.driveId path row :: .readObject loc (some obj) :: h →
      ∃ head, row = some head ∧ head ∈ cf.state.db.versionsOf ctx.driveId path ∧
        head.contentHash = some (sha256 obj.bytes)

theorem ReadInv.step (hinv : ReadInv sha256 ctx path m cf) (h : StepOf sha256 requests cf i r)
    (hcond : ReadStep sha256 ctx path m cf i r) :
  ReadInv sha256 ctx path m (cf.push i r)
  := by
  have hhash : ∀ loc obj hist, cf.own m = .readObject loc (some obj) :: hist →
      headHash ctx r.2.db path = headHash ctx cf.state.db path := by
    intro loc obj hist hown
    unfold headHash
    obtain ⟨row, hrow, hrec⟩ | ⟨-, hversions, -⟩ := h.lawful.tables_cases
    · rw [hrec.head_other]
      rintro ⟨hpath, hdrive⟩
      unfold ReadStep at hcond
      rw [hrow] at hcond
      apply hcond hpath.symm hdrive.symm
      rw [hown]
      trivial
    · rw [getHeadVersionRow_congr hversions]
  by_cases him : i = m
  · subst him
    constructor
    · intro loc obj hist hown
      rw [Conf.own_push_self, List.cons.injEq] at hown
      unfold ReadStep at hcond
      rw [hown.1] at hcond
      rw [Conf.push_state, h.headHash_eq (by simp [hown.1])]
      exact hcond rfl
    · intro row loc obj hist hown
      rw [Conf.own_push_self, List.cons.injEq] at hown
      have hreads := h.lawful.reads
      rw [hown.1] at hreads
      have hrow : row = getHeadVersionRow cf.state.db ctx.driveId path := hreads
      have hhead := hinv.fetched loc obj hist hown.2
      obtain ⟨head, hsome, hhash⟩ := Option.bind_eq_some_iff.mp hhead
      refine ⟨head, hrow.trans hsome, ?_, hhash⟩
      exact h.mem_versionsOf (mem_of_getHeadVersionRow hsome)
  · constructor
    · intro loc obj hist hown
      rw [Conf.own_push_of_ne him] at hown
      rw [Conf.push_state, hhash loc obj hist hown]
      exact hinv.fetched loc obj hist hown
    · intro row loc obj hist hown
      rw [Conf.own_push_of_ne him] at hown
      obtain ⟨head, hrow, hmem, hhead⟩ := hinv.looked row loc obj hist hown
      exact ⟨head, hrow, h.mem_versionsOf hmem, hhead⟩

/-- The numbers of a request that writes back on top of version `version` of the path:
those it picks and those it commits are the one above. -/
structure WriteBackInv (path : Text) (version j : Nat) (cf : Config) : Prop where
  picked : ∀ d p v, (cf.own j).head? = some (.allocate d p v) → v = version + 1
  committed : ∀ row, .commit row ∈ cf.own j → row.path = path ∧ row.version = version + 1

theorem WriteBackInv.step {version j : Nat} (hinv : WriteBackInv path version j cf)
    (h : StepOf sha256 requests cf i r) (hcond : PicksChecked requests cf i r)
    {c : OpContext} {request : Request} (hj : requests[j]? = some (c, request))
    (hwrites : request.Writes) (hcheck : request.check = some (path, (version : Int)))
    (hpos : 0 < version) :
  WriteBackInv path version j (cf.push i r)
  := by
  by_cases hij : i = j
  · subst hij
    obtain ⟨c', request', hi, hobeys⟩ := h.obeys
    rw [hj, Option.some.injEq, Prod.mk.injEq] at hi
    obtain ⟨rfl, rfl⟩ := hi
    constructor
    · intro d p v hhead
      rw [Conf.own_push_self, List.head?_cons, Option.some.injEq] at hhead
      have hreads := h.lawful.reads
      have hpick := hcond (c, request) (by simp [hj]) (path, (version : Int)) (by simp [hcheck])
      rw [hhead] at hreads hpick
      have hv : v = getNextVersion cf.state.db d p := hreads
      rw [hv, getNextVersion_eq]
      obtain hmatch | ⟨hzero, -⟩ := hpick
      · have hversion : (version : Int) = currentVersion cf.state.db d p := hmatch
        omega
      · have hversion : (version : Int) = 0 := hzero
        omega
    · intro row hrow
      rw [Conf.own_push_self] at hrow
      obtain hrow | hrow := List.mem_cons.mp hrow
      · rw [← hrow] at hobeys
        obtain ⟨hhead, -, -, hstore | hdelete⟩ := hobeys
        · refine ⟨?_, hinv.picked _ _ _ hhead⟩
          have htarget := hstore.target
          rw [hwrites.target hcheck] at htarget
          exact (Option.some.inj htarget).symm
        · have hremoved := hdelete.removed
          rw [hwrites.removed] at hremoved
          cases hremoved
      · exact hinv.committed row hrow
  · constructor
    · intro d p v hhead
      rw [Conf.own_push_of_ne hij] at hhead
      exact hinv.picked d p v hhead
    · intro row hrow
      rw [Conf.own_push_of_ne hij] at hrow
      exact hinv.committed row hrow

/-- A write-back commits right above the version it expects. -/
theorem writeBack_run {w : World} {sched : List (Nat × Input)} {version j : Nat}
    (hcond : (Server.start sha256 w requests).Admits (PicksChecked requests) sched)
    {c : OpContext} {request : Request} (hj : requests[j]? = some (c, request))
    (hwrites : request.Writes) (hcheck : request.check = some (path, (version : Int)))
    (hpos : 0 < version) :
  WriteBackInv path version j ((Server.start sha256 w requests).run sched).conf
  := by
  have hsteps := Pool.admits_and.mpr ⟨start_steps sha256 w requests sched, hcond⟩
  apply (hsteps.inv _ _).2
  · exact fun cf i r hr hinv => hinv.step hr.1 hr.2 hj hwrites hcheck hpos
  · exact ⟨fun d p v hhead => (by cases hhead), fun row hrow => (by cases hrow)⟩

end

/-- In every run in which request `m` reads a path and whose steps meet `ReadStep` and
`PicksChecked`, the answer shows one version of the path, and whoever writes back with the
number of that version commits right above it. -/
theorem read_shows_one_version (sha256 : Bytes → Text) (ctx : OpContext) (w : World)
    (path : Text) (m : Nat) (requests : List (OpContext × Request)) (reader : Request)
    (hm : requests[m]? = some (ctx, reader)) (hreader : reader.reads? = some path)
    (hhistory : History w.db) (sched : List (Nat × Input))
    (hread : (Server.start sha256 w requests).Admits (ReadStep sha256 ctx path m) sched)
    (hpicks : (Server.start sha256 w requests).Admits (PicksChecked requests) sched)
    (answer : Response)
    (hanswer : ((Server.start sha256 w requests).run sched).result? m = some (.ok answer)) :
  ∃ row ∈ ((Server.start sha256 w requests).run sched).conf.state.db.versionsOf ctx.driveId path,
    answer.Shows sha256 row ∧
      ∀ j c request, requests[j]? = some (c, request) → request.Writes →
        request.check = some (path, (row.version : Int)) →
        ∀ back, .commit back ∈ ((Server.start sha256 w requests).run sched).conf.own j →
          back.path = path ∧ back.version = row.version + 1
  := by
  have hinit : ReadInv sha256 ctx path m (Server.start sha256 w requests).conf :=
    ⟨fun loc obj h hown => (by cases hown), fun row loc obj h hown => (by cases hown)⟩
  have hsteps := Pool.admits_and.mpr ⟨start_steps sha256 w requests sched, hread⟩
  obtain ⟨-, hinv⟩ := hsteps.inv (I := ReadInv sha256 ctx path m)
    (fun cf i r hr hinv => hinv.step hr.1 hr.2) hinit
  obtain ⟨c', request', hi, hend, -⟩ := start_result hanswer
  rw [hm, Option.some.injEq, Prod.mk.injEq] at hi
  obtain ⟨rfl, rfl⟩ := hi
  have hshows : ∃ row ∈ ((Server.start sha256 w requests).run sched).conf.state.db.versionsOf
      ctx.driveId path, answer.Shows sha256 row := by
    cases reader with
    | openRead p =>
        cases hreader
        obtain ⟨obj, head, hown, rfl⟩ := hend
        obtain ⟨row, rfl, hmem, hhash⟩ := hinv.looked head _ obj [] hown
        refine ⟨row, hmem, rfl, ?_, ?_⟩
        · simp [hhash]
        · simp [hhash]
    | getRaw url =>
        cases hreader
        obtain ⟨obj, head, hown, rfl⟩ := hend
        obtain ⟨row, rfl, hmem, hhash⟩ := hinv.looked head _ obj [] hown
        exact ⟨row, hmem, rfl, rfl, hhash⟩
    | _ => cases hreader
  obtain ⟨row, hmem, hshows⟩ := hshows
  refine ⟨row, hmem, hshows, ?_⟩
  intro j c request hj hwrites hcheck back hback
  have hpos : 0 < row.version := by
    obtain ⟨n, hn⟩ := (history_run hhistory requests sched).2.history ctx.driveId path
    have hnum : row.version ∈ Db.versionNumbers _ ctx.driveId path :=
      List.mem_map.mpr ⟨row, hmem, rfl⟩
    rw [hn.numbers.mem_iff, List.mem_range'_1] at hnum
    omega
  exact (writeBack_run hpicks hj hwrites hcheck hpos).committed back hback

/-- A read of `/f` between two writes, and a write back with the version it answered. -/
theorem read_shows_one_version_sampleRead :
  ∃ row ∈ ((Server.start sampleHash World.empty
      [(sampleContext, .openRead "/f".toList), sampleWrite [97] none,
        sampleWrite [98] (some 1)]).run
      ([1, 1, 1, 1, 1, 1, 0, 0, 2, 2, 2, 2, 2, 2, 2, 2].map
        (·, sampleInput))).conf.state.db.versionsOf sampleContext.driveId "/f".toList,
    (Response.openRead [97] 1 (sampleHash [97]) 1 0).Shows sampleHash row
  := by
  obtain ⟨row, hmem, hshows, -⟩ := read_shows_one_version sampleHash sampleContext World.empty
    "/f".toList 0 [(sampleContext, .openRead "/f".toList), sampleWrite [97] none,
      sampleWrite [98] (some 1)] (.openRead "/f".toList) rfl rfl history_empty
    ([1, 1, 1, 1, 1, 1, 0, 0, 2, 2, 2, 2, 2, 2, 2, 2].map (·, sampleInput))
    (by decide +kernel) (by decide +kernel) (.openRead [97] 1 (sampleHash [97]) 1 0)
    (by decide +kernel)
  exact ⟨row, hmem, hshows⟩

end AgentFs
