import AgentFs.Fuse.Mount
import AgentFs.Ops.Revert
import AgentFs.Ops.Solo

/-!
# The working copies of the mount

The handles of `fs.rs`: `create_local` and `open_for_read` make a local working copy,
`write_local` and `truncate_local` change it, and `release_close` sends it to the daemon, unless
the handle is clean or the hash of the copy is the base hash of the handle.  The daemon answers
`open_read` and `open_write` by the operations of this development.
-/

namespace AgentFs

open Async

/-- `OpenFile`, with the bytes of its working copy. -/
structure OpenFile where
  path : Text
  baseVersion : Option Nat
  baseHash : Text
  dirty : Bool
  file : Bytes
  deriving DecidableEq, Repr

/-- A call on a handle.  `written` says after how many bytes `write_all` failed, if it did, and
`ok` whether `set_len` succeeded. -/
inductive LocalCall where
  | write (offset : Nat) (data : Bytes) (written : Option Nat)
  | truncate (size : Nat) (ok : Bool)
  deriving DecidableEq, Repr

/-- The file with `data` at `offset`; a gap before it is filled with zeros. -/
def writeAt (file : Bytes) (offset : Nat) (data : Bytes) : Bytes :=
  if data = [] then file
  else (file ++ List.replicate (offset - file.length) 0).take offset ++ data ++
    file.drop (offset + data.length)

/-- The first `size` bytes of a file, with zeros after its end. -/
def setLen (file : Bytes) (size : Nat) : Bytes :=
  (file ++ List.replicate (size - file.length) 0).take size

/-- `write_local` and `truncate_local`; the handle is dirty even when the call fails. -/
def OpenFile.call (of : OpenFile) : LocalCall → OpenFile
  | .write offset data written =>
      { of with
        dirty := true
        file := writeAt of.file offset (match written with
          | none => data
          | some n => data.take n) }
  | .truncate size ok =>
      { of with dirty := true, file := if ok then setLen of.file size else of.file }

section

variable (sha256 : Bytes → Text)

/-- `create_local`. -/
def createLocal (path : Text) : OpenFile where
  path := path
  baseVersion := none
  baseHash := sha256 []
  dirty := true
  file := []

/-- `open_for_read`. -/
def openForRead (ctx : OpContext) (path : Text) : Op OpenFile := do
  match ← openRead ctx path with
  | .openRead bytes version contentHash _ _ => pure ⟨path, some version, contentHash, false, bytes⟩
  | _ => throw .internal

/-- `release_close`, past the removal of the handle and the reading of the working copy.  It
returns the version and hash that were stored, if it sent anything. -/
def releaseClose (limit : WriteOpts) (ctx : OpContext) (of : OpenFile) :
    Op (Option (Nat × Text)) :=
  if of.dirty = false then pure none
  else if sha256 of.file = of.baseHash then pure none
  else do
    match ← writeRaw sha256 limit ctx
      { path := of.path, bytes := of.file, expectedVersion := of.baseVersion.map Int.ofNat } with
    | .written version _ _ contentHash _ => pure (some (version, contentHash))
    | _ => throw .internal

/-- Where a handle comes from. -/
inductive HandleOrigin where
  | created
  | opened
  deriving DecidableEq, Repr

def HandleOrigin.handle (ctx : OpContext) (path : Text) : HandleOrigin → Op OpenFile
  | .created => pure (createLocal sha256 path)
  | .opened => openForRead ctx path

/-- The life of a handle; it returns the handle as it was released. -/
def handleSession (limit : WriteOpts) (ctx : OpContext) (path : Text) (origin : HandleOrigin)
    (calls : List LocalCall) : Op OpenFile := do
  let of ← origin.handle sha256 ctx path
  let released := calls.foldl OpenFile.call of
  let _ ← releaseClose sha256 limit ctx released
  pure released

end

/-- The content hash that `open_read` answers for a path. -/
def World.headHash (w : World) (ctx : OpContext) (path : Text) : Text :=
  ((getHeadVersionRow w.db ctx.driveId path).bind (·.contentHash)).getD []

/-! ### What the daemon leaves -/

section

variable {sha256 : Bytes → Text} {ctx : OpContext} {w w' : World} {cs ds : List Input}

/-- A handle that was opened has the bytes and the hash of the remote file. -/
theorem openForRead_solo {path : Text} {of : OpenFile}
    (h : (openForRead ctx path).run.solo w cs = some (.ok of, w', ds)) :
  w' = w ∧ of.path = path ∧ of.dirty = false ∧ of.baseHash = w.headHash ctx path ∧
    w.remote ctx path = some of.file
  := by
  obtain ⟨response, w₁, cs₁, hopen, hmatch⟩ := Fallible.solo_bind_ok h
  obtain ⟨obj, w₂, cs₂, hget, hrest⟩ := Fallible.solo_bind_ok hopen
  obtain ⟨rfl, hremote⟩ := getObject_solo hget
  obtain ⟨head, w₃, cs₃, hhead, hpure⟩ := Fallible.solo_bind_ok hrest
  obtain ⟨x, hresult, rfl⟩ := Fallible.solo_atomic_ok hhead
  cases hresult
  obtain ⟨rfl, rfl⟩ := Fallible.solo_pure_ok hpure
  obtain ⟨rfl, rfl⟩ := Fallible.solo_pure_ok hmatch
  exact ⟨rfl, rfl, rfl, rfl, hremote⟩

/-- A write short-circuits only when the head has the hash of the bytes. -/
theorem dedupVersion_solo {path contentHash : Text} {expectedVersion : Option Int}
    {deduped : Option Nat}
    (h : (dedupVersion ctx path contentHash expectedVersion).run.solo w cs =
      some (.ok deduped, w', ds)) :
  w' = w ∧ (deduped.isSome = true → expectedVersion.isSome = true ∧
    (getHeadVersionRow w.db ctx.driveId path).bind (·.contentHash) = some contentHash)
  := by
  cases expectedVersion with
  | none =>
      obtain ⟨rfl, rfl⟩ := Fallible.solo_pure_ok h
      exact ⟨rfl, by rintro ⟨⟩⟩
  | some e =>
      obtain ⟨current, w₁, cs₁, hassert, hrest⟩ := Fallible.solo_bind_ok h
      obtain ⟨x, hresult, hstate⟩ := Fallible.solo_atomic_ok hassert
      have hw : w₁ = w := by
        rw [← hstate]
        split <;> rfl
      subst hw
      split at hrest
      · obtain ⟨headHash, w₂, cs₂, hhead, hpure⟩ := Fallible.solo_bind_ok hrest
        obtain ⟨x, hhash, rfl⟩ := Fallible.solo_atomic_ok hhead
        cases hhash
        obtain ⟨rfl, rfl⟩ := Fallible.solo_pure_ok hpure
        refine ⟨rfl, ?_⟩
        intro hsome
        split at hsome
        · exact ⟨rfl, ‹_›⟩
        · cases hsome
      · obtain ⟨rfl, rfl⟩ := Fallible.solo_pure_ok hrest
        exact ⟨rfl, by rintro ⟨⟩⟩

/-- A write that does not short-circuit leaves its bytes. -/
theorem writeRaw_solo {limit : WriteOpts} {params : WriteRawParams} {response : Response}
    (hpath : normalizePath params.path = params.path)
    (hhead : params.expectedVersion.isSome = true →
      (getHeadVersionRow w.db ctx.driveId params.path).bind (·.contentHash) ≠
        some (sha256 params.bytes))
    (h : (writeRaw sha256 limit ctx params).run.solo w cs = some (.ok response, w', ds)) :
  w'.remote ctx params.path = some params.bytes
  := by
  unfold writeRaw writeInternal at h
  dsimp only at h
  rw [hpath] at h
  split at h
  · cases h
  · obtain ⟨deduped, w₁, cs₁, hdedup, h⟩ := Fallible.solo_bind_ok h
    obtain ⟨rfl, hhash⟩ := dedupVersion_solo hdedup
    cases deduped with
    | some current => exact absurd (hhash rfl).2 (hhead (hhash rfl).1)
    | none =>
        obtain ⟨version, w₂, cs₂, hstore, h⟩ := Fallible.solo_bind_ok h
        obtain ⟨_, w₃, cs₃, hafter, h⟩ := Fallible.solo_bind_ok h
        obtain ⟨-, rfl⟩ := Fallible.solo_pure_ok h
        obtain ⟨result, w₄, cs₄, hput, hcreate⟩ := Fallible.solo_bind_ok hstore
        have hremote := putObject_solo hput
        have hstore' : w'.store = w₄.store :=
          (afterCommit_store.solo hafter).trans ((createVersion_store _ _).solo hcreate)
        unfold World.remote at hremote ⊢
        rw [hstore']
        exact hremote

/-! ### What a release publishes -/

theorem OpenFile.call_base (of : OpenFile) (c : LocalCall) :
  (of.call c).path = of.path ∧ (of.call c).baseVersion = of.baseVersion ∧
    (of.call c).baseHash = of.baseHash ∧ (of.call c).dirty = true
  := by
  cases c with
  | write offset data written => exact ⟨rfl, rfl, rfl, rfl⟩
  | truncate size ok => exact ⟨rfl, rfl, rfl, rfl⟩

/-- The calls on a handle keep what it was opened with, and a clean handle had none. -/
theorem OpenFile.foldl_call (of : OpenFile) (calls : List LocalCall) :
  let released := calls.foldl OpenFile.call of
  released.path = of.path ∧ released.baseVersion = of.baseVersion ∧
    released.baseHash = of.baseHash ∧ (of.dirty = true → released.dirty = true) ∧
    (released.dirty = false → released = of)
  := by
  induction calls generalizing of with
  | nil => exact ⟨rfl, rfl, rfl, id, fun _ => rfl⟩
  | cons c calls ih =>
      obtain ⟨hpath, hversion, hhash, hdirty, -⟩ := ih (of.call c)
      obtain ⟨cpath, cversion, chash, cdirty⟩ := of.call_base c
      refine ⟨hpath.trans cpath, hversion.trans cversion, hhash.trans chash,
        fun _ => hdirty cdirty, ?_⟩
      intro hclean
      have hdirty' := hdirty cdirty
      exact absurd hclean (by rw [List.foldl_cons, hdirty']; rintro ⟨⟩)

/-- A release that succeeds sends the working copy, or sends nothing because the handle is clean
or the copy has the base hash. -/
theorem releaseClose_solo {limit : WriteOpts} {of : OpenFile} {answer : Option (Nat × Text)}
    (hpath : normalizePath of.path = of.path)
    (hhead : of.baseVersion.isSome = true → of.baseHash = w.headHash ctx of.path)
    (h : (releaseClose sha256 limit ctx of).run.solo w cs = some (.ok answer, w', ds)) :
  if of.dirty = true ∧ sha256 of.file ≠ of.baseHash then
    w'.remote ctx of.path = some of.file
  else w' = w
  := by
  unfold releaseClose at h
  split at h
  · rename_i hclean
    rw [if_neg (by rw [hclean]; rintro ⟨⟨⟩, -⟩)]
    exact (Fallible.solo_pure_ok h).2
  · rename_i hdirty
    rw [Bool.not_eq_false] at hdirty
    split at h
    · rename_i hsame
      rw [if_neg (fun hboth => hboth.2 hsame)]
      exact (Fallible.solo_pure_ok h).2
    · rename_i hdiffers
      rw [if_pos ⟨hdirty, hdiffers⟩]
      obtain ⟨response, w₁, cs₁, hwrite, h⟩ := Fallible.solo_bind_ok h
      have hremote : w₁.remote ctx of.path = some of.file := by
        refine writeRaw_solo (w := w) hpath ?_ hwrite
        intro hsome heq
        rw [Option.isSome_map] at hsome
        have hbase := hhead hsome
        unfold World.headHash at hbase
        rw [heq] at hbase
        exact hdiffers hbase.symm
      cases response with
      | written => exact (Fallible.solo_pure_ok h).2 ▸ hremote
      | _ => cases h

/-- The condition under which a release publishes the working copy: where the copy has the hash
that the release compares it to, the remote file has its bytes already.  For a created handle
this is the hash of the empty file, for an opened one, when it was written to, the content hash
that the daemon answered. -/
def HandleOrigin.Publishes (sha256 : Bytes → Text) (ctx : OpContext) (w : World)
    (released : OpenFile) : HandleOrigin → Prop
  | .created => sha256 released.file = sha256 [] →
      w.remote ctx released.path = some released.file
  | .opened => released.dirty = true → sha256 released.file = w.headHash ctx released.path →
      w.remote ctx released.path = some released.file

end

/-- When the release of a handle succeeds, the remote file has the bytes of the working copy if
and only if the condition holds of the drive before and of the handle as it was released. -/
theorem release_publishes_iff {sha256 : Bytes → Text} {limit : WriteOpts} {ctx : OpContext}
    {path : Text} (hpath : MountPath path) {origin : HandleOrigin} {calls : List LocalCall}
    {w w' : World} {inputs rest : List Input} {released : OpenFile}
    (hrun : (handleSession sha256 limit ctx path origin calls).run.solo w inputs =
      some (.ok released, w', rest)) :
  w'.remote ctx path = some released.file ↔ origin.Publishes sha256 ctx w released
  := by
  obtain ⟨of, w₁, cs₁, hhandle, h⟩ := Fallible.solo_bind_ok hrun
  obtain ⟨answer, w₂, cs₂, hrelease, h⟩ := Fallible.solo_bind_ok h
  obtain ⟨rfl, rfl⟩ := Fallible.solo_pure_ok h
  obtain ⟨hfpath, hfversion, hfhash, hfdirty, hfclean⟩ := of.foldl_call calls
  generalize calls.foldl OpenFile.call of = released at *
  cases origin with
  | created =>
      obtain ⟨rfl, rfl⟩ := Fallible.solo_pure_ok hhandle
      have hrel : released.path = path := hfpath
      subst hrel
      have hsolo := releaseClose_solo hpath.normalizePath_eq
        (by rw [hfversion]; rintro ⟨⟩) hrelease
      unfold HandleOrigin.Publishes
      by_cases hhash : sha256 released.file = sha256 []
      · rw [if_neg (fun hboth => hboth.2 (hhash.trans hfhash.symm))] at hsolo
        subst hsolo
        exact ⟨fun hremote _ => hremote, fun hcond => hcond hhash⟩
      · rw [if_pos ⟨hfdirty rfl, fun heq => hhash (heq.trans hfhash)⟩] at hsolo
        exact ⟨fun _ heq => absurd heq hhash, fun _ => hsolo⟩
  | opened =>
      obtain ⟨rfl, hopath, hodirty, hohash, horemote⟩ := openForRead_solo hhandle
      have hrel : released.path = path := hfpath.trans hopath
      subst hrel
      have hbase := hfhash.trans hohash
      have hsolo := releaseClose_solo hpath.normalizePath_eq (fun _ => hbase) hrelease
      unfold HandleOrigin.Publishes
      by_cases hdirty : released.dirty = true
      · by_cases hhash : sha256 released.file = w₁.headHash ctx released.path
        · rw [if_neg (fun hboth => hboth.2 (hhash.trans hbase.symm))] at hsolo
          subst hsolo
          exact ⟨fun hremote _ _ => hremote, fun hcond => hcond hdirty hhash⟩
        · rw [if_pos ⟨hdirty, fun heq => hhash (heq.trans hbase)⟩] at hsolo
          exact ⟨fun _ _ heq => absurd heq hhash, fun _ => hsolo⟩
      · rw [if_neg (fun hboth => hdirty hboth.1)] at hsolo
        subst hsolo
        rw [Bool.not_eq_true] at hdirty
        rw [hfclean hdirty]
        exact ⟨fun _ hd => absurd hd (by rw [hodirty]; rintro ⟨⟩), fun _ => hopath ▸ horemote⟩

theorem mountPath_sample :
  MountPath ['/', 'f']
  := .child .root ⟨by decide, by decide⟩

/-- The life of a handle of `/f`, created in an empty drive. -/
def sampleHandle (calls : List LocalCall) : Option (Except OpError OpenFile × World × List Input) :=
  (handleSession sampleHash maxFileSize sampleContext ['/', 'f'] .created calls).run.solo
    World.empty (List.replicate 6 sampleInput)

/-- A file that is written to is published. -/
theorem release_publishes_sampleHandle :
  ∃ released w' rest, sampleHandle [.write 0 [97, 98] none, .truncate 1 true] =
      some (.ok released, w', rest) ∧
    released.file = [97] ∧ w'.remote sampleContext ['/', 'f'] = some released.file
  := by
  have hok : (sampleHandle [.write 0 [97, 98] none, .truncate 1 true]).map
      (fun r => r.1.toOption.map OpenFile.file) = some (some [97]) := by
    decide +kernel
  obtain ⟨⟨result, w', rest⟩, hrun, hfile⟩ := Option.map_eq_some_iff.mp hok
  cases result with
  | error e => cases hfile
  | ok released =>
      have hfile : released.file = [97] := Option.some.inj hfile
      refine ⟨released, w', rest, hrun, hfile, (release_publishes_iff mountPath_sample hrun).mpr ?_⟩
      intro hhash
      rw [hfile] at hhash
      exact absurd hhash (by decide +kernel)

/-- A file that is created and left empty is not: the release succeeds and sends nothing. -/
theorem empty_file_not_published :
  ∃ released w' rest, sampleHandle [.write 0 [97] none, .truncate 0 true] =
      some (.ok released, w', rest) ∧
    w'.remote sampleContext ['/', 'f'] ≠ some released.file
  := ⟨_, _, _, rfl, by rintro ⟨⟩⟩

end AgentFs
