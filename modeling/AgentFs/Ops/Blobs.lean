import Mathlib.Data.Set.Function
import AgentFs.Ops.Order

/-!
# Content-addressed history

The local adapter keeps the bytes of every version at the place of their hash.  Whatever
is stored, copied or deleted elsewhere, a version handle keeps returning the bytes of the
call that returned it, and a revert brings back what the version stored.  Keys inside the
reserved namespace are excluded: a call on such a key overwrites or deletes history.
-/

namespace AgentFs

open Async

/-! ### Digests -/

/-- A lower-case hex digit. -/
def IsHexDigit (c : Char) : Prop :=
  ('0' ≤ c ∧ c ≤ '9') ∨ ('a' ≤ c ∧ c ≤ 'f')

instance (c : Char) : Decidable (IsHexDigit c) :=
  inferInstanceAs (Decidable (_ ∨ _))

/-- `digest("hex")` of SHA-256: 64 lower-case hex digits. -/
def HexDigest (sha256 : Bytes → Text) : Prop :=
  ∀ bytes, (sha256 bytes).length = 64 ∧ ∀ c ∈ sha256 bytes, IsHexDigit c

/-- The places of the content-addressed copies. -/
def ReservedLoc (loc : Loc) : Prop :=
  ["_afs-blobs".toList, "sha256".toList] <+: loc

/-- A key that resolves into the namespace of the content-addressed copies. -/
def Reserved (key : Text) : Prop :=
  ReservedLoc (locate .local key)

instance (key : Text) : Decidable (Reserved key) :=
  inferInstanceAs (Decidable (_ <+: _))

section

variable {sha256 : Bytes → Text}

theorem IsHexDigit.ne {c d : Char} (h : IsHexDigit c) (hd : ¬ IsHexDigit d) :
  c ≠ d
  := by
  rintro rfl
  exact hd h

theorem blobKey_eq (hash : Text) :
  blobKey hash = "_afs-blobs".toList ++ '/' :: ("sha256".toList ++ '/' :: hash)
  := rfl

/-- The place of a content-addressed copy. -/
theorem HexDigest.locate_blobKey (h : HexDigest sha256) (bytes : Bytes) :
  locate .local (blobKey (sha256 bytes)) =
    ["_afs-blobs".toList, "sha256".toList, sha256 bytes]
  := by
  obtain ⟨hlength, hhex⟩ := h bytes
  have hsplit : (sha256 bytes).splitOnP (· = '/') = [sha256 bytes] := by
    apply List.splitOnP_eq_singleton
    intro c hc
    simpa using (hhex c hc).ne (by decide)
  have hne : sha256 bytes ≠ [] := by
    intro hnil
    rw [hnil] at hlength
    cases hlength
  show ((blobKey (sha256 bytes)).splitOnP (· = '/')).filter (· ≠ []) = _
  rw [blobKey_eq, List.splitOnP_append_cons_of_forall_mem (by simp) _ (by decide),
    List.splitOnP_append_cons_of_forall_mem (by simp) _ (by decide), hsplit]
  simp [hne]

theorem HexDigest.locate_injective (h : HexDigest sha256) {b b' : Bytes}
    (heq : locate .local (blobKey (sha256 b)) = locate .local (blobKey (sha256 b'))) :
  sha256 b = sha256 b'
  := by
  rw [h.locate_blobKey, h.locate_blobKey] at heq
  simpa using heq

theorem HexDigest.reserved (h : HexDigest sha256) (bytes : Bytes) :
  ReservedLoc (locate .local (blobKey (sha256 bytes)))
  := by
  rw [h.locate_blobKey]
  exact ⟨[sha256 bytes], rfl⟩

/-- The key guard accepts the key of a content-addressed copy. -/
theorem HexDigest.keyInsideDrive (h : HexDigest sha256) (bytes : Bytes) :
  KeyInsideDrive (blobKey (sha256 bytes))
  := by
  obtain ⟨hlength, hhex⟩ := h bytes
  have hsplit : (sha256 bytes).splitOnP (fun c => c = '/' ∨ c = '\\') = [sha256 bytes] := by
    apply List.splitOnP_eq_singleton
    intro c hc
    have hslash := (hhex c hc).ne (d := '/') (by decide)
    have hback := (hhex c hc).ne (d := '\\') (by decide)
    simp [hslash, hback]
  rw [blobKey_eq]
  constructor
  · intro hmem
    simp only [List.mem_append, List.mem_cons] at hmem
    obtain hmem | hmem | hmem | hmem | hmem := hmem
    · exact absurd hmem (by decide)
    · exact absurd hmem (by decide)
    · exact absurd hmem (by decide)
    · exact absurd hmem (by decide)
    · exact (hhex _ hmem).ne (by decide) rfl
  · unfold segments
    rw [List.splitOnP_append_cons_of_forall_mem (by simp) _ (by decide),
      List.splitOnP_append_cons_of_forall_mem (by simp) _ (by decide), hsplit]
    intro s hs
    simp only [List.mem_cons, List.not_mem_nil, or_false] at hs
    obtain rfl | rfl | rfl := hs
    · decide
    · decide
    · constructor
      · intro heq
        rw [heq] at hlength
        cases hlength
      · intro heq
        rw [heq] at hlength
        cases hlength

/-! ### The invariant -/

variable {contents : Set Bytes} {cf : Config} {i : Nat} {r : Event × World}

/-- A step that keeps the history: it is lawful, it changes objects outside the reserved
namespace only, and it stores an object only when its content-addressed copy is there. -/
structure KeepsBlobs (sha256 : Bytes → Text) (contents : Set Bytes) (cf : Config) (i : Nat)
    (r : Event × World) : Prop where
  lawful : Lawful sha256 cf.state r
  storeBlob : ∀ loc obj, r.1 = .storeBlob loc obj → obj.bytes ∈ contents
  storeObject : ∀ loc obj, r.1 = .storeObject loc obj →
    ¬ ReservedLoc loc ∧ Backed sha256 (cf.own i) obj.bytes ∧ obj.bytes ∈ contents
  removeObject : ∀ loc, r.1 = .removeObject loc → ¬ ReservedLoc loc

/-- There is an object at the place of the hash of `bytes`. -/
def HasBlob (sha256 : Bytes → Text) (w : World) (bytes : Bytes) : Prop :=
  ∃ obj, w.store.objects (locate .local (blobKey (sha256 bytes))) = some obj

/-- The invariant of the content-addressed copies. -/
structure BlobInv (sha256 : Bytes → Text) (contents : Set Bytes) (cf : Config) : Prop where
  /-- What is stored at the place of a hash has that hash. -/
  blobs : ∀ b obj, cf.state.store.objects (locate .local (blobKey (sha256 b))) = some obj →
    sha256 obj.bytes = sha256 b ∧ obj.bytes ∈ contents
  /-- A copy that a program has found or stored is there. -/
  backed : ∀ i b, Backed sha256 (cf.own i) b → HasBlob sha256 cf.state b
  /-- What a program has stored has its copy. -/
  stored : ∀ i loc obj, .storeObject loc obj ∈ cf.own i →
    HasBlob sha256 cf.state obj.bytes ∧ obj.bytes ∈ contents
  /-- What a program has read at the place of a hash has that hash. -/
  fetched : ∀ i b obj, .readObject (locate .local (blobKey (sha256 b))) (some obj) ∈ cf.own i →
    sha256 obj.bytes = sha256 b ∧ obj.bytes ∈ contents

/-- At the place of a hash a step stores nothing, or a copy with that hash. -/
theorem KeepsBlobs.object_cases (h : KeepsBlobs sha256 contents cf i r)
    (hhex : HexDigest sha256) (b : Bytes) :
  r.2.store.objects (locate .local (blobKey (sha256 b))) =
      cf.state.store.objects (locate .local (blobKey (sha256 b))) ∨
    ∃ obj, r.2.store.objects (locate .local (blobKey (sha256 b))) = some obj ∧
      sha256 obj.bytes = sha256 b ∧ obj.bytes ∈ contents
  := by
  have hobjects := h.lawful.objects
  have hreads := h.lawful.reads
  have hreserved := hhex.reserved b
  cases hr : r.1 with
  | storeBlob loc obj =>
      rw [hr] at hobjects hreads
      have hloc : loc = locate .local (blobKey (sha256 obj.bytes)) := hreads
      by_cases heq : loc = locate .local (blobKey (sha256 b))
      · right
        refine ⟨obj, ?_, hhex.locate_injective (hloc.symm.trans heq), h.storeBlob loc obj hr⟩
        rw [hobjects, Event.applyObjects, heq, Function.update_self]
      · left
        rw [hobjects, Event.applyObjects, Function.update_of_ne (Ne.symm heq)]
  | storeObject loc obj =>
      left
      rw [hr] at hobjects
      have hne : locate .local (blobKey (sha256 b)) ≠ loc := by
        rintro rfl
        exact (h.storeObject _ obj hr).1 hreserved
      rw [hobjects, Event.applyObjects, Function.update_of_ne hne]
  | removeObject loc =>
      left
      rw [hr] at hobjects
      have hne : locate .local (blobKey (sha256 b)) ≠ loc := by
        rintro rfl
        exact h.removeObject _ hr hreserved
      rw [hobjects, Event.applyObjects, Function.update_of_ne hne]
  | _ =>
      left
      rw [hr] at hobjects
      rw [hobjects]
      rfl

theorem HasBlob.step {b : Bytes} (hblob : HasBlob sha256 cf.state b)
    (h : KeepsBlobs sha256 contents cf i r) (hhex : HexDigest sha256) :
  HasBlob sha256 r.2 b
  := by
  obtain hsame | ⟨obj, hobj, -⟩ := h.object_cases hhex b
  · unfold HasBlob
    rw [hsame]
    exact hblob
  · exact ⟨obj, hobj⟩

/-- A program that has just found or stored a copy, or had before. -/
theorem backed_cons {h : List Event} {ev : Event} {b : Bytes} :
  Backed sha256 (ev :: h) b ↔
    ev = .probe (locate .local (blobKey (sha256 b))) true ∨
      ev = .storeBlob (locate .local (blobKey (sha256 b))) ⟨b, none⟩ ∨ Backed sha256 h b
  := by
  unfold Backed
  simp only [List.mem_cons]
  constructor
  · rintro ((heq | hmem) | (heq | hmem))
    · exact .inl heq.symm
    · exact .inr (.inr (.inl hmem))
    · exact .inr (.inl heq.symm)
    · exact .inr (.inr (.inr hmem))
  · rintro (heq | heq | (hmem | hmem))
    · exact .inl (.inl heq.symm)
    · exact .inr (.inl heq.symm)
    · exact .inl (.inr hmem)
    · exact .inr (.inr hmem)

/-- What the step itself finds, stores or reads is as the invariant says. -/
theorem KeepsBlobs.hasBlob (h : KeepsBlobs sha256 contents cf i r) {b : Bytes}
    (hev : r.1 = .probe (locate .local (blobKey (sha256 b))) true ∨
      r.1 = .storeBlob (locate .local (blobKey (sha256 b))) ⟨b, none⟩) :
  HasBlob sha256 r.2 b
  := by
  have hobjects := h.lawful.objects
  have hreads := h.lawful.reads
  obtain hr | hr := hev
  · rw [hr] at hobjects hreads
    have hfound : true = (cf.state.store.objects (locate .local (blobKey (sha256 b)))).isSome :=
      hreads
    obtain ⟨obj, hobj⟩ := Option.isSome_iff_exists.mp hfound.symm
    use obj
    rw [hobjects]
    exact hobj
  · rw [hr] at hobjects
    use ⟨b, none⟩
    rw [hobjects, Event.applyObjects, Function.update_self]

theorem BlobInv.step (hinv : BlobInv sha256 contents cf)
    (h : KeepsBlobs sha256 contents cf i r) (hhex : HexDigest sha256) :
  BlobInv sha256 contents (cf.push i r)
  := by
  constructor
  · intro b obj hobj
    rw [Conf.push_state] at hobj
    obtain hsame | ⟨obj', hobj', hrest⟩ := h.object_cases hhex b
    · rw [hsame] at hobj
      exact hinv.blobs b obj hobj
    · rw [hobj', Option.some.injEq] at hobj
      rw [← hobj]
      exact hrest
  · intro j b hbacked
    rw [Conf.push_state]
    by_cases hij : i = j
    · subst hij
      rw [Conf.own_push_self, backed_cons] at hbacked
      obtain hev | hev | hbacked := hbacked
      · exact h.hasBlob (.inl hev)
      · exact h.hasBlob (.inr hev)
      · exact (hinv.backed i b hbacked).step h hhex
    · rw [Conf.own_push_of_ne hij] at hbacked
      exact (hinv.backed j b hbacked).step h hhex
  · intro j loc obj hobj
    rw [Conf.push_state]
    by_cases hij : i = j
    · subst hij
      rw [Conf.own_push_self] at hobj
      obtain hobj | hobj := List.mem_cons.mp hobj
      · obtain ⟨-, hbacked, hcontents⟩ := h.storeObject loc obj hobj.symm
        exact ⟨(hinv.backed i _ hbacked).step h hhex, hcontents⟩
      · obtain ⟨hblob, hcontents⟩ := hinv.stored i loc obj hobj
        exact ⟨hblob.step h hhex, hcontents⟩
    · rw [Conf.own_push_of_ne hij] at hobj
      obtain ⟨hblob, hcontents⟩ := hinv.stored j loc obj hobj
      exact ⟨hblob.step h hhex, hcontents⟩
  · intro j b obj hobj
    by_cases hij : i = j
    · subst hij
      rw [Conf.own_push_self] at hobj
      obtain hobj | hobj := List.mem_cons.mp hobj
      · have hreads := h.lawful.reads
        rw [← hobj] at hreads
        exact hinv.blobs b obj hreads.symm
      · exact hinv.fetched i b obj hobj
    · rw [Conf.own_push_of_ne hij] at hobj
      exact hinv.fetched j b obj hobj

/-- Two contents of the run with one hash are equal, so that the copy of what a program has
stored is what it has stored. -/
theorem BlobInv.copy (hinv : BlobInv sha256 contents cf) (hinj : Set.InjOn sha256 contents)
    {loc : Loc} {obj : Obj} (hobj : .storeObject loc obj ∈ cf.own i) :
  ∃ blob, cf.state.store.objects (locate .local (blobKey (sha256 obj.bytes))) = some blob ∧
    blob.bytes = obj.bytes
  := by
  obtain ⟨⟨blob, hblob⟩, hcontents⟩ := hinv.stored i loc obj hobj
  obtain ⟨hhash, hmem⟩ := hinv.blobs _ blob hblob
  exact ⟨blob, hblob, hinj hmem hcontents hhash⟩

end

/-! ### Calls of the adapter -/

/-- A call of the local adapter that changes objects. -/
inductive AdapterCall where
  | put (key : Text) (bytes : Bytes) (contentType : Option Text)
  | copy (fromKey toKey : Text)
  | delete (key : Text)
  deriving DecidableEq, Repr

/-- The key that the call changes. -/
def AdapterCall.dest : AdapterCall → Text
  | .put key _ _ => key
  | .copy _ toKey => toKey
  | .delete key => key

/-- The program of a call, with the version handle it returns. -/
def AdapterCall.program (sha256 : Bytes → Text) : AdapterCall → Op (Option Text)
  | .put key bytes contentType => do
      let result ← putObject sha256 .local key bytes contentType
      pure result.versionId
  | .copy fromKey toKey => do
      let result ← copyObject sha256 .local fromKey toKey
      pure result.versionId
  | .delete key => do
      deleteObject .local key
      pure none

/-- The calls running over one store. -/
def adapterPool (sha256 : Bytes → Text) (w : World) (calls : List AdapterCall) :
    Pool World Input Event (Except OpError (Option Text)) where
  conf := ⟨w, []⟩
  procs := calls.map (fun call => (call.program sha256).run)

/-- The contents that a segment has stored. -/
def Event.content? : Event → Option Bytes
  | .storeBlob _ obj => some obj.bytes
  | .storeObject _ obj => some obj.bytes
  | _ => none

/-- The contents stored in a run. -/
def storedContents (trace : List (Nat × Event)) : Set Bytes :=
  { bytes | ∃ t ∈ trace, t.2.content? = some bytes }

/-- What a call does to objects: it changes its own key only, a put stores its bytes, and
the content-addressed copy is there before. -/
def AdapterCall.Keeps (sha256 : Bytes → Text) (call : AdapterCall) : Rule Event := fun h ev =>
  match ev with
  | .storeObject loc obj => loc = locate .local call.dest ∧ Backed sha256 h obj.bytes ∧
      ∀ key bytes contentType, call = .put key bytes contentType → obj.bytes = bytes
  | .removeObject loc => loc = locate .local call.dest
  | _ => True

/-- The handle a call returns is the hash of what it has stored. -/
def AdapterCall.Returns (sha256 : Bytes → Text) (call : AdapterCall) (h : List Event)
    (handle : Option Text) : Prop :=
  ∀ v, handle = some v → KeyInsideDrive call.dest ∧
    ∃ obj, .storeObject (locate .local call.dest) obj ∈ h ∧ v = sha256 obj.bytes ∧
      ∀ key bytes contentType, call = .put key bytes contentType → obj.bytes = bytes

section

variable {sha256 : Bytes → Text} {call : AdapterCall} {h : List Event}

theorem AdapterCall.keeps_of_minor (h : List Event) (ev : Event) (hev : ev.Minor) :
  call.Keeps sha256 h ev
  := by
  cases ev <;> first | exact hev.elim | trivial

/-- A put to the destination of a call, of the bytes the call stores. -/
theorem AdapterCall.put_follows {bytes : Bytes} {contentType : Option Text}
    (hbytes : ∀ key b ct, call = .put key b ct → bytes = b) :
  (putObject sha256 .local call.dest bytes contentType).Follows (call.Keeps sha256)
    (fun h' result => call.Returns sha256 h' result.versionId) (fun _ _ => True) h
  := by
  apply putObject_follows AdapterCall.keeps_of_minor (fun _ => ⟨trivial, trivial⟩)
    (fun _ _ _ => trivial)
  intro hinside n hn hbacked
  refine ⟨⟨rfl, hbacked rfl, hbytes⟩, ?_⟩
  intro result hresult v hv
  rw [hresult rfl, Option.some.injEq] at hv
  refine ⟨?_, ⟨bytes, contentType⟩, List.mem_cons_self, hv.symm, hbytes⟩
  obtain hne | hinside := hinside
  · exact absurd rfl hne
  · exact hinside

theorem AdapterCall.program_follows (call : AdapterCall) :
  (call.program sha256).Follows (call.Keeps sha256) (call.Returns sha256)
    (fun _ _ => True) []
  := by
  cases call with
  | put key bytes contentType =>
      apply Fallible.Follows.bind
      apply AdapterCall.put_follows
      rintro k b ct heq
      cases heq
      rfl
  | copy fromKey toKey =>
      apply Fallible.Follows.bind
      apply Fallible.Follows.bind
      apply assertKeyInsideDrive_follows (fun _ _ _ => trivial)
      intro _
      apply Fallible.Follows.bind
      apply assertKeyInsideDrive_follows (fun _ _ _ => trivial)
      intro _
      apply Fallible.Follows.bind
      apply getObject_follows (fun _ => trivial) (fun _ _ _ => trivial) ⟨trivial, trivial⟩ trivial
      intro _ src
      apply AdapterCall.put_follows
      intro k b ct heq
      cases heq
  | delete key =>
      apply Fallible.Follows.bind
      apply Fallible.Follows.bind
      apply assertKeyInsideDrive_follows (fun _ _ _ => trivial)
      intro _
      apply Fallible.Follows.atomic
      intro w x
      split
      · exact ⟨trivial, trivial⟩
      · refine ⟨rfl, ?_⟩
        apply Fallible.Follows.pure
        intro v hv
        cases hv

theorem AdapterCall.program_lawful (ctx : OpContext) (call : AdapterCall) :
  (call.program sha256).run.Segments (LawfulSegment sha256 ctx)
  := by
  cases call with
  | put key bytes contentType =>
      apply Fallible.segments_bind (putObject_lawful _ _ _ _)
      exact fun _ => Fallible.segments_pure _
  | copy fromKey toKey =>
      apply Fallible.segments_bind (copyObject_lawful _ _ _)
      exact fun _ => Fallible.segments_pure _
  | delete key =>
      apply Fallible.segments_bind (deleteObject_lawful _ _)
      exact fun _ => Fallible.segments_pure _

variable {calls : List AdapterCall} {w : World} {sched : List (Nat × Input)}

theorem adapterPool_follows (i : Nat) (p : Prog World Input Event (Except OpError (Option Text)))
    (hp : (adapterPool sha256 w calls).procs[i]? = some p) :
  p.Follows (fun h ev => ∃ call, calls[i]? = some call ∧ call.Keeps sha256 h ev)
    (fun h result => ∀ handle, result = .ok handle →
      ∃ call, calls[i]? = some call ∧ call.Returns sha256 h handle)
    ((adapterPool sha256 w calls).conf.own i)
  := by
  simp only [adapterPool, List.getElem?_map, Option.map_eq_some_iff] at hp
  obtain ⟨call, hi, rfl⟩ := hp
  have hfollows := @AdapterCall.program_follows sha256 call
  apply Prog.Follows.weaken (fun h ev hev => ⟨call, hi, hev⟩)
  apply Prog.Follows.mono _ hfollows
  rintro h (e | answer) hend handle heq
  · cases heq
  · cases heq
    exact ⟨call, hi, hend⟩

/-- Every step of the calls keeps the history. -/
theorem adapterPool_keeps (hcalls : ∀ call ∈ calls, ¬ Reserved call.dest) (w : World)
    (sched : List (Nat × Input)) :
  (adapterPool sha256 w calls).Admits
    (KeepsBlobs sha256
      (storedContents ((adapterPool sha256 w calls).run sched).conf.trace)) sched
  := by
  have hkeeps := (Pool.run_follows (@adapterPool_follows sha256 calls w) sched).1
  have hlawful : (adapterPool sha256 w calls).Admits
      (fun cf _ r => Lawful sha256 cf.state r) sched := by
    apply Pool.admits_of_always
    intro p hp
    obtain ⟨call, -, rfl⟩ := List.mem_map.mp hp
    exact always_lawful (call.program_lawful ⟨[], [], [], .local⟩)
  have htrace := (adapterPool sha256 w calls).admits_mem_trace sched
  apply Pool.Admits.mono _
    (Pool.admits_and.mpr ⟨hlawful, Pool.admits_and.mpr ⟨hkeeps, htrace⟩⟩)
  rintro cf i r ⟨hlawful, ⟨call, hcall, hkeeps⟩, hmem⟩
  have hdest := hcalls call (List.mem_of_getElem? hcall)
  constructor
  · exact hlawful
  · intro loc obj hr
    exact ⟨_, hmem, by rw [hr]; rfl⟩
  · intro loc obj hr
    rw [hr] at hkeeps
    obtain ⟨rfl, hbacked, -⟩ := hkeeps
    exact ⟨hdest, hbacked, _, hmem, by rw [hr]; rfl⟩
  · intro loc hr
    rw [hr] at hkeeps
    have hloc : loc = locate .local call.dest := hkeeps
    rw [hloc]
    exact hdest

/-- The guard lets a key inside the drive pass. -/
theorem assertKeyInsideDrive_alone {key : Text} (hkey : KeyInsideDrive key) {x : Input} :
  (assertKeyInsideDrive .local key).run.alone x w = (.ok (), w)
  := by
  unfold assertKeyInsideDrive
  rw [if_pos (.inr hkey)]
  rfl

/-- Reading a version by the hash of its contents. -/
theorem getObjectVersion_alone (hhex : HexDigest sha256) {key : Text}
    (hkey : KeyInsideDrive key) {bytes : Bytes} {blob : Obj}
    (hblob : w.store.objects (locate .local (blobKey (sha256 bytes))) = some blob)
    {x : Input} (hx : x.fail = false) :
  (getObjectVersion .local key (sha256 bytes)).run.alone x w = (.ok blob, w)
  := by
  unfold getObjectVersion
  rw [Fallible.alone_bind _ (assertKeyInsideDrive_alone hkey),
    Fallible.alone_bind _ (assertKeyInsideDrive_alone (hhex.keyInsideDrive bytes))]
  unfold readAt
  rw [Fallible.alone_atomic]
  simp [hx, hblob]

end

theorem BlobInv.empty (sha256 : Bytes → Text) (contents : Set Bytes) (db : Db) :
  BlobInv sha256 contents ⟨⟨db, .empty⟩, []⟩
  := by
  constructor
  · intro b obj hobj
    cases hobj
  · rintro i b (hmem | hmem)
    · cases hmem
    · cases hmem
  · intro i loc obj hobj
    cases hobj
  · intro i b obj hobj
    cases hobj

/-- A handle that a call has returned keeps reading what the call stored. -/
theorem adapter_handle {sha256 : Bytes → Text} (hhex : HexDigest sha256) {db : Db}
    {calls : List AdapterCall} {sched : List (Nat × Input)}
    (hcalls : ∀ call ∈ calls, ¬ Reserved call.dest)
    (hinj : Set.InjOn sha256
      (storedContents ((adapterPool sha256 ⟨db, .empty⟩ calls).run sched).conf.trace))
    {i : Nat} {call : AdapterCall} (hcall : calls[i]? = some call) {handle : Text}
    (hresult : ((adapterPool sha256 ⟨db, .empty⟩ calls).run sched).result? i =
      some (.ok (some handle))) :
  ∃ obj, .storeObject (locate .local call.dest) obj ∈
      ((adapterPool sha256 ⟨db, .empty⟩ calls).run sched).conf.own i ∧
    (∀ key bytes contentType, call = .put key bytes contentType → obj.bytes = bytes) ∧
    ∀ x : Input, x.fail = false → ∃ blob : Obj,
      ((getObjectVersion .local call.dest handle).run.alone x
        ((adapterPool sha256 ⟨db, .empty⟩ calls).run sched).conf.state).1 = .ok blob ∧
      blob.bytes = obj.bytes
  := by
  have hinv := ((adapterPool_keeps hcalls ⟨db, .empty⟩ sched).inv
    (fun cf i r hstep hinv => BlobInv.step hinv hstep hhex) (BlobInv.empty sha256 _ db)).2
  obtain ⟨call', hcall', hreturns⟩ := Pool.result_follows adapterPool_follows hresult _ rfl
  rw [hcall, Option.some.injEq] at hcall'
  subst hcall'
  obtain ⟨hinside, obj, hobj, rfl, hput⟩ := hreturns handle rfl
  refine ⟨obj, hobj, hput, ?_⟩
  intro x hx
  obtain ⟨blob, hblob, hbytes⟩ := hinv.copy hinj hobj
  exact ⟨blob, congrArg Prod.fst (getObjectVersion_alone hhex hinside hblob hx), hbytes⟩

theorem sampleHash_hexDigest :
  HexDigest sampleHash
  := by
  intro bytes
  unfold sampleHash
  split
  · simp [IsHexDigit]
  · simp [IsHexDigit]
  · simp [IsHexDigit]

/-- The sample hash tells the contents `a` and `b` apart. -/
theorem sampleHash_injOn {trace : List (Nat × Event)}
    (h : ∀ t ∈ trace, ∀ b ∈ t.2.content?, b = [97] ∨ b = [98]) :
  Set.InjOn sampleHash (storedContents trace)
  := by
  rintro b ⟨t, ht, hb⟩ b' ⟨t', ht', hb'⟩ heq
  obtain rfl | rfl := h t ht b hb <;> obtain rfl | rfl := h t' ht' b' hb'
  · rfl
  · exact absurd heq (by decide)
  · exact absurd heq (by decide)
  · rfl

/-- A put to `k`, and a delete of the reserved key where the history of `k` lives. -/
def sampleErase : List AdapterCall :=
  [.put "k".toList [97] none, .delete (blobKey (sampleHash [97]))]

/-- On keys of the reserved namespace the history is lost: the handle that the put has
returned reads nothing after the delete. -/
theorem not_kept_sampleErase :
  HexDigest sampleHash ∧
    Set.InjOn sampleHash (storedContents ((adapterPool sampleHash World.empty sampleErase).run
      ([0, 0, 0, 1].map (·, sampleInput))).conf.trace) ∧
    ((adapterPool sampleHash World.empty sampleErase).run
      ([0, 0, 0, 1].map (·, sampleInput))).result? 0 = some (.ok (some (sampleHash [97]))) ∧
    ((getObjectVersion .local "k".toList (sampleHash [97])).run.alone sampleInput
      ((adapterPool sampleHash World.empty sampleErase).run
        ([0, 0, 0, 1].map (·, sampleInput))).conf.state).1 = .error (.noSuchKey "k".toList)
  := by
  refine ⟨sampleHash_hexDigest, ?_, by decide +kernel, by decide +kernel⟩
  apply sampleHash_injOn
  decide +kernel

end AgentFs
