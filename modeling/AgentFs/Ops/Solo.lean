import AgentFs.Lib.Solo
import AgentFs.Ops.Files

/-!
# Storage calls that run alone

What a file operation reads and leaves in the object store when nothing runs between its
segments.
-/

namespace AgentFs

open Async

/-- The bytes of the remote file at a path. -/
def World.remote (w : World) (ctx : OpContext) (path : Text) : Option Bytes :=
  (w.store.objects (locate ctx.backend (ctx.key path))).map Obj.bytes

section

variable {sha256 : Bytes → Text} {ctx : OpContext} {w w' : World} {cs ds : List Input}

theorem assertKeyInsideDrive_solo {backend : Backend} {key : Text} {a : Unit}
    (h : (assertKeyInsideDrive backend key).run.solo w cs = some (.ok a, w', ds)) :
  w' = w
  := by
  unfold assertKeyInsideDrive at h
  split at h
  · exact (Fallible.solo_pure_ok h).2
  · split at h
    · cases h
    · cases h

theorem getObject_solo {path : Text} {obj : Obj}
    (h : (getObject ctx.backend (ctx.key path)).run.solo w cs = some (.ok obj, w', ds)) :
  w' = w ∧ w.remote ctx path = some obj.bytes
  := by
  obtain ⟨_, w₁, cs₁, hassert, hread⟩ := Fallible.solo_bind_ok h
  obtain rfl := assertKeyInsideDrive_solo hassert
  obtain ⟨x, hresult, hstate⟩ := Fallible.solo_atomic_ok hread
  unfold World.remote
  split at hresult
  · cases hresult
  · rename_i hfail
    rw [if_neg hfail] at hstate
    split at hresult
    · cases hresult
    · rename_i found hfound
      cases hresult
      rw [hfound] at hstate ⊢
      exact ⟨hstate.symm, rfl⟩

theorem putObject_solo {path : Text} {bytes : Bytes} {contentType : Option Text}
    {result : PutObjectResult}
    (h : (putObject sha256 ctx.backend (ctx.key path) bytes contentType).run.solo w cs =
      some (.ok result, w', ds)) :
  w'.remote ctx path = some bytes
  := by
  unfold World.remote
  cases hbackend : ctx.backend with
  | «local» =>
      rw [hbackend] at h
      obtain ⟨_, w₁, cs₁, -, h⟩ := Fallible.solo_bind_ok h
      obtain ⟨found, w₂, cs₂, -, h⟩ := Fallible.solo_bind_ok h
      have hlast : ∃ w₃ cs₃, (do
          uploadAt (locate .local (ctx.key path)) ⟨bytes, contentType⟩
          pure ⟨some (sha256 bytes), some (sha256 bytes)⟩ : Op PutObjectResult).run.solo w₃ cs₃ =
            some (.ok result, w', ds) := by
        dsimp only at h
        split at h
        · obtain ⟨_, w₃, cs₃, -, h⟩ := Fallible.solo_bind_ok h
          exact ⟨w₃, cs₃, h⟩
        · exact ⟨w₂, cs₂, h⟩
      obtain ⟨w₃, cs₃, h⟩ := hlast
      obtain ⟨_, w₄, cs₄, hupload, h⟩ := Fallible.solo_bind_ok h
      obtain ⟨rfl, rfl⟩ := Fallible.solo_pure_ok h
      obtain ⟨x, hresult, hstate⟩ := Fallible.solo_atomic_ok hupload
      split at hresult
      · cases hresult
      · rename_i hfail
        rw [if_neg hfail] at hstate
        rw [← hstate]
        unfold World.store!
        dsimp only
        rw [Function.update_self]
        rfl
  | s3 versioningEnabled =>
      rw [hbackend] at h
      obtain ⟨x, hresult, hstate⟩ := Fallible.solo_atomic_ok h
      split at hresult
      · cases hresult
      · rename_i hfail
        rw [if_neg hfail] at hstate
        rw [← hstate]
        unfold World.keepVersion World.store! locate
        dsimp only
        split
        · dsimp only
          rw [Function.update_self]
          rfl
        · dsimp only
          rw [Function.update_self]
          rfl

end

end AgentFs
