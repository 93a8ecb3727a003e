import AgentFs.Ops.History

/-!
# Compare and swap

Requests that pass an expected version race on one path.  The check of the version, the
upload and the transaction are separate segments, and `createVersion` picks the next
number afresh: a request that passed the check before another one committed commits on
top of it.  At most one request commits as long as every number is picked while the head
still matches.
-/

namespace AgentFs

open Async

/-- Request `i` has committed a version. -/
def Commits (cf : Config) (i : Nat) : Prop :=
  ∃ row, .commit row ∈ cf.own i

/-- At most one request commits, at most one version row is added to those of `w`, and
every other request that has finished failed with `EditConflictError`. -/
structure CasSafe (w : World) (P : Server) : Prop where
  one : ∀ i j, Commits P.conf i → Commits P.conf j → i = j
  rows : ∃ rows, P.conf.state.db.fileVersions = w.db.fileVersions ++ rows ∧ rows.length ≤ 1
  others : ∀ i result, P.result? i = some result → ¬ Commits P.conf i →
    ∃ info, result = .error (.editConflict info)

/-- Two requests that expect `/f` not to exist, with different contents. -/
def sampleRace : Server :=
  (Server.start sampleHash World.empty [sampleWrite [97] (some 0), sampleWrite [98] (some 0)]).run
    ([0, 1, 0, 0, 0, 0, 0, 0, 1, 1, 1, 1, 1, 1].map (·, sampleInput))

/-- Both requests pass the check, then both commit. -/
theorem not_casSafe_sampleRace :
  ¬ CasSafe World.empty sampleRace
  := by
  intro h
  obtain ⟨rows, hrows, hlen⟩ := h.rows
  have htwo : sampleRace.conf.state.db.fileVersions.length = 2 := by decide +kernel
  rw [hrows, List.length_append] at htwo
  have hnil : World.empty.db.fileVersions.length = 0 := rfl
  omega

/-! ### The exact condition -/

/-- Event `ev` of a request leads to an exit other than a version conflict: a storage call
or transaction that fails, a missing object, contents that the head already has. -/
def OtherExit (sha256 : Bytes → Text) (c : Option (OpContext × Request)) (ev : Event) : Prop :=
  match ev with
  | .fault => True
  | .readObject _ none => True
  | .abort _ _ _ e => e ≠ .unique .fileVersions
  | .readHead _ _ row =>
      ((c.bind (·.2.bytes?)).map sha256).isSome ∧
        row.bind (·.contentHash) = (c.bind (·.2.bytes?)).map sha256
  | _ => False

/-- A version number is picked only while the head matches the expected version. -/
def PicksMatching (expected : Int) (db : Db) (ev : Event) : Prop :=
  match ev with
  | .allocate driveId path _ => HeadMatches db driveId path expected
  | _ => True

/-- The condition on the steps of a race for version `expected`. -/
def CasStep (sha256 : Bytes → Text) (requests : List (OpContext × Request)) (expected : Int) :
    StepProp World Event := fun cf i r =>
  PicksMatching expected cf.state.db r.1 ∧ ¬ OtherExit sha256 requests[i]? r.1

instance (sha256 : Bytes → Text) (c : Option (OpContext × Request)) (ev : Event) :
    Decidable (OtherExit sha256 c ev) :=
  match ev with
  | .readObject _ none => isTrue trivial
  | .readObject _ (some _) => isFalse id
  | .fault => isTrue trivial
  | .abort _ _ _ e => inferInstanceAs (Decidable (e ≠ .unique .fileVersions))
  | .readHead _ _ _ => inferInstanceAs (Decidable (_ ∧ _))
  | .silent | .probe .. | .readVersion .. | .storeBlob .. | .storeObject .. | .removeObject ..
  | .checkVersion .. | .readRow .. | .allocate .. | .commit .. => isFalse id

instance (expected : Int) (db : Db) (ev : Event) : Decidable (PicksMatching expected db ev) :=
  match ev with
  | .allocate .. => inferInstanceAs (Decidable (HeadMatches _ _ _ _))
  | .silent | .fault | .probe .. | .readObject .. | .readVersion .. | .storeBlob .. | .storeObject ..
  | .removeObject .. | .checkVersion .. | .readHead .. | .readRow .. | .commit ..
  | .abort .. => isTrue trivial

instance (sha256 : Bytes → Text) (requests : List (OpContext × Request)) (expected : Int)
    (cf : Config) (i : Nat) (r : Event × World) :
    Decidable (CasStep sha256 requests expected cf i r) :=
  inferInstanceAs (Decidable (_ ∧ _))

section

variable {sha256 : Bytes → Text} {requests : List (OpContext × Request)} {w : World}
  {driveId path : Text} {expected : Int} {cf : Config} {i : Nat} {r : Event × World}

/-- A race for version `expected` of a path. -/
def Race (driveId path : Text) (expected : Int) (requests : List (OpContext × Request)) : Prop :=
  ∀ c ∈ requests, c.2.Writes ∧ c.2.check = some (path, expected) ∧ c.1.driveId = driveId ∧
    c.2.Admissible c.1

/-- The table during the race: nobody has committed, or one request has, and the head no
longer matches. -/
inductive RaceState (w : World) (driveId path : Text) (expected : Int) (cf : Config) : Prop where
  | open (hversions : cf.state.db.fileVersions = w.db.fileVersions)
      (hnone : ∀ i, ¬ Commits cf i)
  | won (row : FileVersionRow) (k : Nat)
      (hversions : cf.state.db.fileVersions = w.db.fileVersions ++ [row])
      (hkey : row.path = path ∧ row.driveId = driveId)
      (hversion : row.version = getNextVersion w.db driveId path)
      (hhead : ¬ HeadMatches cf.state.db driveId path expected)
      (hone : ∀ i, Commits cf i → i = k)

/-- The invariant of a race. -/
structure RaceInv (sha256 : Bytes → Text) (requests : List (OpContext × Request)) (w : World)
    (driveId path : Text) (expected : Int) (cf : Config) : Prop where
  table : RaceState w driveId path expected cf
  /-- Every number picked is the one above the head at the start. -/
  picked : ∀ i d p v, (cf.own i).head? = some (.allocate d p v) →
    p = path ∧ d = driveId ∧ v = getNextVersion w.db driveId path ∧
      HeadMatches w.db driveId path expected
  /-- No request has met another exit. -/
  exits : ∀ i, ∀ ev ∈ cf.own i, ¬ OtherExit sha256 requests[i]? ev

theorem commits_push {j : Nat} :
  Commits (cf.push i r) j ↔ Commits cf j ∨ (j = i ∧ ∃ row, r.1 = .commit row)
  := by
  unfold Commits
  rw [Conf.own_push]
  by_cases hij : i = j
  · subst hij
    simp only [if_true, List.mem_cons, true_and]
    constructor
    · rintro ⟨row, hrow | hrow⟩
      · exact .inr ⟨row, hrow.symm⟩
      · exact .inl ⟨row, hrow⟩
    · rintro (⟨row, hrow⟩ | ⟨row, hrow⟩)
      · exact ⟨row, .inr hrow⟩
      · exact ⟨row, .inl hrow.symm⟩
  · simp [hij, Ne.symm hij]

/-- A commit of a request of the race. -/
theorem StepOf.race_commit (h : StepOf sha256 requests cf i r)
    (hrace : Race driveId path expected requests)
    (hinv : RaceInv sha256 requests w driveId path expected cf)
    {row : FileVersionRow} (hrow : r.1 = .commit row) :
  row.path = path ∧ row.driveId = driveId ∧ row.version = getNextVersion w.db driveId path ∧
    row.operation ≠ .delete ∧ HeadMatches w.db driveId path expected ∧
    Records cf.state.db row r.2.db
  := by
  have htables := h.lawful.tables
  obtain ⟨ctx, request, hi, hobeys⟩ := h.obeys
  rw [hrow] at hobeys htables
  obtain ⟨hhead, -, -, hdoc⟩ := hobeys
  obtain ⟨hpath, hdrive, hversion, hmatch⟩ := hinv.picked i _ _ _ hhead
  refine ⟨hpath, hdrive, hversion, ?_, hmatch, htables⟩
  obtain hstore | hdelete := hdoc
  · exact hstore.operation
  · have hwrites := (hrace _ (List.mem_of_getElem? hi)).1
    have hremoved := hdelete.removed
    rw [hwrites.removed] at hremoved
    cases hremoved

/-- Once a request has committed, the head does not match any more. -/
theorem not_headMatches_of_records {db db' : Db} {row : FileVersionRow}
    (hrec : Records db row db')
    (hversion : row.version = getNextVersion db row.driveId row.path)
    (hoperation : row.operation ≠ .delete)
    (hmatch : HeadMatches db row.driveId row.path expected) :
  ¬ HeadMatches db' row.driveId row.path expected
  := by
  have hhead := hrec.head_self hversion.ge
  rw [getNextVersion_eq] at hversion
  unfold HeadMatches at hmatch ⊢
  simp only [currentVersion, hhead, Option.map_some, Option.getD_some, Option.some.injEq,
    hoperation, and_false, or_false]
  obtain hmatch | ⟨hzero, -⟩ := hmatch
  · omega
  · omega

/-- Every step of a race that meets the condition keeps the invariant. -/
theorem RaceInv.step (hinv : RaceInv sha256 requests w driveId path expected cf)
    (hrace : Race driveId path expected requests) (h : StepOf sha256 requests cf i r)
    (hcond : CasStep sha256 requests expected cf i r) :
  RaceInv sha256 requests w driveId path expected (cf.push i r)
  := by
  obtain ⟨hpick, hexit⟩ := hcond
  constructor
  · obtain ⟨row, hrow, hrec⟩ | ⟨hne, hversions, -⟩ := h.lawful.tables_cases
    · obtain ⟨rfl, rfl, hversion, hop, hmatch, -⟩ := h.race_commit hrace hinv hrow
      obtain ⟨htable, hnone⟩ | ⟨row', k, htable, hkey, hversion', -, -⟩ := hinv.table
      · have hnext := getNextVersion_congr htable row.driveId row.path
        have hheads := getHeadVersionRow_congr htable row.driveId row.path
        refine .won row i ?_ ⟨rfl, rfl⟩ hversion ?_ ?_
        · rw [Conf.push_state, hrec.versions, htable]
        · apply not_headMatches_of_records hrec (hversion.trans hnext.symm) hop
          unfold HeadMatches currentVersion at hmatch ⊢
          rw [hheads]
          exact hmatch
        · intro j hj
          obtain hj | ⟨rfl, -⟩ := commits_push.mp hj
          · exact absurd hj (hnone j)
          · rfl
      · have hmem : row' ∈ cf.state.db.fileVersions := by
          rw [htable]
          simp
        exact absurd ⟨hkey.1, hkey.2, hversion'.trans hversion.symm⟩ (hrec.fresh row' hmem)
    · have hcommits : ∀ j, Commits (cf.push i r) j → Commits cf j := by
        intro j hj
        obtain hj | ⟨-, row, hrow⟩ := commits_push.mp hj
        · exact hj
        · exact absurd hrow (hne row)
      obtain ⟨htable, hnone⟩ | ⟨row', k, htable, hkey, hversion', hhead, hone⟩ := hinv.table
      · exact .open (hversions.trans htable) (fun j hj => hnone j (hcommits j hj))
      · refine .won row' k (hversions.trans htable) hkey hversion' ?_
          (fun j hj => hone j (hcommits j hj))
        unfold HeadMatches currentVersion at hhead ⊢
        rw [Conf.push_state, getHeadVersionRow_congr hversions]
        exact hhead
  · intro j d p v hhead
    by_cases hj : i = j
    · subst hj
      rw [Conf.own_push_self, List.head?_cons, Option.some.injEq] at hhead
      have hreads := h.lawful.reads
      obtain ⟨ctx, request, hi, hobeys⟩ := h.obeys
      rw [hhead] at hreads hobeys hpick
      obtain ⟨-, rfl, -, hpath⟩ := hobeys
      obtain ⟨hwrites, hcheck, rfl, -⟩ := hrace _ (List.mem_of_getElem? hi)
      rw [hwrites.removed, hwrites.target hcheck] at hpath
      obtain rfl : path = p := by simpa using hpath
      have hpick : HeadMatches cf.state.db ctx.driveId path expected := hpick
      obtain ⟨htable, -⟩ | ⟨row, k, -, -, -, hhead, -⟩ := hinv.table
      · refine ⟨rfl, rfl, ?_, ?_⟩
        · rw [← getNextVersion_congr htable]
          exact hreads
        · unfold HeadMatches currentVersion at hpick ⊢
          rw [← getHeadVersionRow_congr htable]
          exact hpick
      · exact absurd hpick hhead
    · rw [Conf.own_push_of_ne hj] at hhead
      exact hinv.picked j d p v hhead
  · intro j ev hev
    by_cases hj : i = j
    · subst hj
      rw [Conf.own_push_self] at hev
      obtain rfl | hev := List.mem_cons.mp hev
      · exact hexit
      · exact hinv.exits i ev hev
    · rw [Conf.own_push_of_ne hj] at hev
      exact hinv.exits j ev hev

theorem raceInv_start (sha256 : Bytes → Text) (requests : List (OpContext × Request)) (w : World)
    (driveId path : Text) (expected : Int) :
  RaceInv sha256 requests w driveId path expected (Server.start sha256 w requests).conf
  := by
  constructor
  · refine .open rfl ?_
    rintro i ⟨row, hrow⟩
    cases hrow
  · intro i d p v hhead
    cases hhead
  · intro i ev hev
    cases hev

/-- A request of the race that ended without a commit failed with `EditConflictError`. -/
theorem RaceInv.editConflict (hinv : RaceInv sha256 requests w driveId path expected cf)
    (hrace : Race driveId path expected requests) {result : Except OpError Response}
    (hend : EndOf sha256 requests i (cf.own i) result) (hcommit : ¬ Commits cf i) :
  ∃ info, result = .error (.editConflict info)
  := by
  obtain ⟨ctx, request, hi, hend⟩ := hend
  obtain ⟨hwrites, hcheck, -, hadm⟩ := hrace _ (List.mem_of_getElem? hi)
  have hexits := hinv.exits i
  rw [hi] at hexits
  cases result with
  | ok answer =>
      have hanswered : ∃ path, request.target? = some path ∧ (Stored path (cf.own i) ∨
          ∃ bytes row, request.bytes? = some bytes ∧
            .readHead ctx.driveId path (some row) ∈ cf.own i ∧
            row.contentHash = some (sha256 bytes)) := by
        cases request <;> first | exact hend.1 | exact hwrites.elim
      obtain ⟨p, -, ⟨row, hrow, -⟩ | ⟨bytes, row, hbytes, hread, hhash⟩⟩ := hanswered
      · exact absurd ⟨row, hrow⟩ hcommit
      · apply absurd _ (hexits _ hread)
        simp [OtherExit, hbytes, hhash]
  | error e =>
      have hexplained := hend.1
      cases e with
      | editConflict info => exact ⟨info, rfl⟩
      | storage => exact absurd trivial (hexits _ hexplained)
      | notFound info =>
          obtain ⟨loc, hread⟩ | ⟨params, rfl⟩ := hexplained
          · exact absurd trivial (hexits _ hread)
          · exact hwrites.elim
      | noSuchKey key =>
          obtain ⟨loc, hread⟩ | ⟨params, rfl⟩ := hexplained
          · exact absurd trivial (hexits _ hread)
          · exact hwrites.elim
      | sql e =>
          obtain ⟨row, hrow⟩ | ⟨d, p, v, habort, hne⟩ := hexplained
          · exact absurd ⟨row, hrow⟩ hcommit
          · exact absurd hne (hexits _ habort)
      | _ => exact absurd hadm hexplained

end

/-- In every run of a race for version `expected` of a path whose steps meet `CasStep`, at
most one request commits, and every other one that has finished failed with
`EditConflictError` and added no version row. -/
theorem casSafe_of_picksMatching (sha256 : Bytes → Text) (w : World) (driveId path : Text)
    (expected : Int) (requests : List (OpContext × Request))
    (hrace : Race driveId path expected requests) (sched : List (Nat × Input))
    (hcond : (Server.start sha256 w requests).Admits (CasStep sha256 requests expected) sched) :
  CasSafe w ((Server.start sha256 w requests).run sched)
  := by
  have hinv : RaceInv sha256 requests w driveId path expected
      ((Server.start sha256 w requests).run sched).conf := by
    have hsteps := Pool.admits_and.mpr ⟨start_steps sha256 w requests sched, hcond⟩
    apply (hsteps.inv _ (raceInv_start sha256 requests w driveId path expected)).2
    rintro cf i r ⟨hstep, hcond⟩ hinv
    exact hinv.step hrace hstep hcond
  constructor
  · intro i j hi hj
    obtain ⟨-, hnone⟩ | ⟨row, k, -, -, -, -, hone⟩ := hinv.table
    · exact absurd hi (hnone i)
    · rw [hone i hi, hone j hj]
  · obtain ⟨htable, -⟩ | ⟨row, k, htable, -⟩ := hinv.table
    · exact ⟨[], by rw [htable, List.append_nil], by simp⟩
    · exact ⟨[row], htable, by simp⟩
  · intro i result hresult hcommit
    exact hinv.editConflict hrace (start_result hresult) hcommit

theorem sampleWrite_admissible (bytes : Bytes) (hbytes : bytes.length ≤ maxFileSize.maxSize)
    (expectedVersion : Option Int) :
  (sampleWrite bytes expectedVersion).2.Admissible sampleContext
  := by
  refine ⟨?_, hbytes⟩
  intro p hp
  obtain rfl : "/f".toList = p := Option.some.inj hp
  exact .inr (by decide +kernel)

theorem sampleWrite_race :
  Race "drive".toList "/f".toList 0 [sampleWrite [97] (some 0), sampleWrite [98] (some 0)]
  := by
  intro c hc
  simp only [List.mem_cons, List.not_mem_nil, or_false] at hc
  obtain rfl | rfl := hc
  · exact ⟨trivial, rfl, rfl, sampleWrite_admissible _ (by decide +kernel) _⟩
  · exact ⟨trivial, rfl, rfl, sampleWrite_admissible _ (by decide +kernel) _⟩

/-- Both requests pass the check and pick version 1; the second transaction fails. -/
theorem casSafe_sampleRace :
  (Server.start sampleHash World.empty
      [sampleWrite [97] (some 0), sampleWrite [98] (some 0)]).Admits
      (CasStep sampleHash [sampleWrite [97] (some 0), sampleWrite [98] (some 0)] 0)
      ([0, 1, 0, 0, 0, 1, 1, 1, 0, 1, 0, 1, 0].map (·, sampleInput)) ∧
    CasSafe World.empty ((Server.start sampleHash World.empty
      [sampleWrite [97] (some 0), sampleWrite [98] (some 0)]).run
      ([0, 1, 0, 0, 0, 1, 1, 1, 0, 1, 0, 1, 0].map (·, sampleInput)))
  := by
  have hadmits : (Server.start sampleHash World.empty
      [sampleWrite [97] (some 0), sampleWrite [98] (some 0)]).Admits
      (CasStep sampleHash [sampleWrite [97] (some 0), sampleWrite [98] (some 0)] 0)
      ([0, 1, 0, 0, 0, 1, 1, 1, 0, 1, 0, 1, 0].map (·, sampleInput)) := by decide +kernel
  exact ⟨hadmits, casSafe_of_picksMatching _ _ _ _ _ _ sampleWrite_race _ hadmits⟩

end AgentFs
