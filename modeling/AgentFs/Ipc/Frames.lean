import Mathlib.Algebra.Group.Nat.Defs
import Mathlib.Data.List.GetD
import AgentFs.Lib.Incremental
import AgentFs.Paths

/-!
# Frames of the IPC protocol

The wire format of `ipc/server.ts`: a length of four bytes, big-endian, and a body.  A frame
is encoded and decoded by `encodeFrame` and `decodeFrame`; the data handler of the server
collects chunks in a buffer and dispatches the frames that are complete.  `pack` and `unpack`
are those of msgpack.
-/

namespace AgentFs

open Incremental

/-! ### Lengths -/

def maxFrameBytes : Nat := 64 * 1024 * 1024

/-- `writeUInt32BE`, which throws when the number does not fit. -/
def uint32BE (n : Nat) : Option Bytes :=
  if n < 2 ^ 32 then
    some [UInt8.ofNat (n / 2 ^ 24), UInt8.ofNat (n / 2 ^ 16), UInt8.ofNat (n / 2 ^ 8),
      UInt8.ofNat n]
  else none

/-- `buf.readUInt32BE(0)`. -/
def readUInt32BE (buf : Bytes) : Nat :=
  (buf.getD 0 0).toNat * 2 ^ 24 + (buf.getD 1 0).toNat * 2 ^ 16 +
    (buf.getD 2 0).toNat * 2 ^ 8 + (buf.getD 3 0).toNat

theorem readUInt32BE_append {buf : Bytes} (h : 4 ≤ buf.length) (more : Bytes) :
  readUInt32BE (buf ++ more) = readUInt32BE buf
  := by
  unfold readUInt32BE
  rw [List.getD_append _ _ _ _ (by omega), List.getD_append _ _ _ _ (by omega),
    List.getD_append _ _ _ _ (by omega), List.getD_append _ _ _ _ (by omega)]

/-- A length is read as it was written. -/
theorem readUInt32BE_uint32BE {n : Nat} {length : Bytes} (h : uint32BE n = some length) :
  length.length = 4 ∧ readUInt32BE length = n
  := by
  unfold uint32BE at h
  split_ifs at h with hlt
  cases h
  refine ⟨rfl, ?_⟩
  simp only [readUInt32BE, List.getD_cons_zero, List.getD_cons_succ, UInt8.toNat_ofNat']
  omega

section

variable {E : Type} (pack : E → Bytes) (unpack : Bytes → Option E)

/-! ### Encoding and decoding -/

def encodeFrame (env : E) : Option Bytes :=
  (uint32BE (pack env).length).map (fun length => length ++ pack env)

/-- `decodeFrame`: `more` is its `null`, and `fail` an error of `unpack`. -/
def decodeFrame (buf : Bytes) : Next E UInt8 :=
  if buf.length < 4 then .more
  else
    let len := readUInt32BE buf
    if buf.length < 4 + len then .more
    else
      match unpack ((buf.drop 4).take len) with
      | none => .fail (buf.drop (4 + len))
      | some env => .item env (buf.drop (4 + len))

/-- One pass of the loop of `drainFrames`: it closes the connection, `fail`, on an implausible
length and on a body that `unpack` refuses. -/
def drainFrame (buf : Bytes) : Next E UInt8 :=
  if buf.length < 4 then .more
  else
    let len := readUInt32BE buf
    if len = 0 ∨ len > maxFrameBytes then .fail buf
    else if buf.length < 4 + len then .more
    else
      match unpack ((buf.drop 4).take len) with
      | none => .fail (buf.drop (4 + len))
      | some env => .item env (buf.drop (4 + len))

variable {unpack} {buf rest : Bytes} {env : E}

/-- The body of a frame does not change when more input arrives. -/
theorem frame_append (h : 4 + readUInt32BE buf ≤ buf.length) (more : Bytes) :
  ((buf ++ more).drop 4).take (readUInt32BE buf) = (buf.drop 4).take (readUInt32BE buf) ∧
    (buf ++ more).drop (4 + readUInt32BE buf) = buf.drop (4 + readUInt32BE buf) ++ more
  := by
  constructor
  · rw [List.drop_append_of_le_length (by omega), List.take_append_of_le_length]
    rw [List.length_drop]
    omega
  · apply List.drop_append_of_le_length h

theorem decodeFrame_shorter (h : decodeFrame unpack buf = .item env rest) :
  rest.length < buf.length
  := by
  unfold decodeFrame at h
  dsimp only at h
  split_ifs at h
  split at h
  · cases h
  · cases h
    rw [List.length_drop]
    omega

theorem decodeFrame_append (more : Bytes) (h : decodeFrame unpack buf ≠ .more) :
  decodeFrame unpack (buf ++ more) =
    match decodeFrame unpack buf with
    | .more => .more
    | .item env rest => .item env (rest ++ more)
    | .fail rest => .fail (rest ++ more)
  := by
  unfold decodeFrame at h ⊢
  by_cases hshort : buf.length < 4
  · rw [if_pos hshort] at h
    exact absurd rfl h
  · rw [if_neg hshort] at h ⊢
    by_cases hbody : buf.length < 4 + readUInt32BE buf
    · rw [if_pos hbody] at h
      exact absurd rfl h
    · obtain ⟨htake, hdrop⟩ := frame_append (Nat.not_lt.mp hbody) more
      rw [List.length_append, if_neg (by omega), readUInt32BE_append (by omega),
        if_neg hbody, if_neg (by omega), htake, hdrop]
      cases unpack ((buf.drop 4).take (readUInt32BE buf)) with
      | none => rfl
      | some env => rfl

theorem drainFrame_cases (unpack : Bytes → Option E) (buf : Bytes) :
  (drainFrame unpack buf = .fail buf ∧ 4 ≤ buf.length ∧
      (readUInt32BE buf = 0 ∨ readUInt32BE buf > maxFrameBytes)) ∨
    drainFrame unpack buf = decodeFrame unpack buf ∧
      (4 ≤ buf.length → ¬ (readUInt32BE buf = 0 ∨ readUInt32BE buf > maxFrameBytes))
  := by
  unfold drainFrame decodeFrame
  by_cases hshort : buf.length < 4
  · rw [if_pos hshort, if_pos hshort]
    exact .inr ⟨rfl, fun h => absurd hshort (Nat.not_lt.mpr h)⟩
  · rw [if_neg hshort, if_neg hshort]
    by_cases himplausible : readUInt32BE buf = 0 ∨ readUInt32BE buf > maxFrameBytes
    · left
      dsimp only
      rw [if_pos himplausible]
      exact ⟨rfl, Nat.not_lt.mp hshort, himplausible⟩
    · right
      dsimp only
      rw [if_neg himplausible]
      exact ⟨rfl, fun _ => himplausible⟩

theorem drainFrame_append (more : Bytes) (h : drainFrame unpack buf ≠ .more) :
  drainFrame unpack (buf ++ more) =
    match drainFrame unpack buf with
    | .more => .more
    | .item env rest => .item env (rest ++ more)
    | .fail rest => .fail (rest ++ more)
  := by
  rcases drainFrame_cases unpack buf with
    ⟨hfail, hlength, himplausible⟩ | ⟨hdecode, hlikely⟩
  · rw [hfail]
    dsimp only
    unfold drainFrame
    rw [List.length_append, if_neg (by omega), readUInt32BE_append hlength]
    dsimp only
    rw [if_pos himplausible]
  · rw [hdecode] at h ⊢
    rw [← decodeFrame_append more h]
    have hlength : 4 ≤ buf.length := by
      by_contra hshort
      apply h
      unfold decodeFrame
      rw [if_pos (Nat.not_le.mp hshort)]
    rcases drainFrame_cases unpack (buf ++ more) with
      ⟨-, -, himplausible⟩ | ⟨hmore, -⟩
    · rw [readUInt32BE_append hlength] at himplausible
      exact absurd himplausible (hlikely hlength)
    · exact hmore

variable (unpack)

/-- Repeated `decodeFrame`. -/
def frameDecoder : Reader E UInt8 where
  next := decodeFrame unpack
  shorter := decodeFrame_shorter
  item_append more h := by
    rw [decodeFrame_append more (by rw [h]; rintro ⟨⟩), h]
  fail_append more h := by
    rw [decodeFrame_append more (by rw [h]; rintro ⟨⟩), h]

/-- The reader of the loop of `drainFrames`. -/
def frameDrainer : Reader E UInt8 where
  next := drainFrame unpack
  shorter h := by
    rcases drainFrame_cases unpack _ with ⟨hfail, -⟩ | ⟨hdecode, -⟩
    · rw [hfail] at h
      cases h
    · rw [hdecode] at h
      exact decodeFrame_shorter h
  item_append more h := by
    rw [drainFrame_append more (by rw [h]; rintro ⟨⟩), h]
  fail_append more h := by
    rw [drainFrame_append more (by rw [h]; rintro ⟨⟩), h]

/-! ### The server -/

/-- A connection: the envelopes that were dispatched, its buffer, and whether the server has
closed it. -/
abbrev FrameConnection (E : Type) := Drained E UInt8

/-- `open`. -/
def openConnection : FrameConnection E := ⟨[], [], false⟩

/-- `data`: append the chunk to the buffer, and dispatch the frames that are complete. -/
def onData (connection : FrameConnection E) (chunk : Bytes) : FrameConnection E :=
  (frameDrainer unpack).feed connection chunk

end

/-! ### Round trip -/

section

variable {E : Type} {pack : E → Bytes} {unpack : Bytes → Option E}

/-- The body of an envelope has a length that a frame may have. -/
def FitsFrame (pack : E → Bytes) (env : E) : Prop :=
  1 ≤ (pack env).length ∧ (pack env).length ≤ maxFrameBytes

/-- The frame of an envelope. -/
def IsFrameOf (pack : E → Bytes) (env : E) (frame : Bytes) : Prop :=
  FitsFrame pack env ∧ encodeFrame pack env = some frame

theorem exists_isFrameOf {env : E} (h : FitsFrame pack env) :
  ∃ frame, IsFrameOf pack env frame
  := by
  have hlt : (pack env).length < 2 ^ 32 := Nat.lt_of_le_of_lt h.2 (by decide)
  obtain ⟨frame, hframe⟩ : ∃ frame, encodeFrame pack env = some frame := by
    unfold encodeFrame uint32BE
    rw [if_pos hlt]
    exact ⟨_, rfl⟩
  exact ⟨frame, h, hframe⟩

theorem decodeFrame_of_isFrameOf (hunpack : ∀ env, unpack (pack env) = some env) {env : E}
    {frame : Bytes} (h : IsFrameOf pack env frame) (rest : Bytes) :
  decodeFrame unpack (frame ++ rest) = .item env rest
  := by
  obtain ⟨length, hlength, rfl⟩ := Option.map_eq_some_iff.mp h.2
  obtain ⟨hfour, hread⟩ := readUInt32BE_uint32BE hlength
  have hlen : readUInt32BE (length ++ pack env ++ rest) = (pack env).length := by
    rw [List.append_assoc, readUInt32BE_append (Nat.le_of_eq hfour.symm), hread]
  have htake : ((length ++ pack env ++ rest).drop 4).take (pack env).length = pack env := by
    rw [List.append_assoc, ← hfour, List.drop_left, List.take_left]
  have hdrop : (length ++ pack env ++ rest).drop (4 + (pack env).length) = rest := by
    rw [← hfour, ← List.length_append, List.drop_left]
  unfold decodeFrame
  dsimp only
  rw [hlen, htake, hdrop, hunpack, List.length_append, List.length_append, hfour,
    if_neg (by omega), if_neg (by omega)]

theorem drainFrame_of_isFrameOf (hunpack : ∀ env, unpack (pack env) = some env) {env : E}
    {frame : Bytes} (h : IsFrameOf pack env frame) (rest : Bytes) :
  drainFrame unpack (frame ++ rest) = .item env rest
  := by
  rcases drainFrame_cases unpack (frame ++ rest) with
    ⟨-, -, himplausible⟩ | ⟨hdecode, -⟩
  · obtain ⟨length, hlength, rfl⟩ := Option.map_eq_some_iff.mp h.2
    obtain ⟨hfour, hread⟩ := readUInt32BE_uint32BE hlength
    rw [List.append_assoc, readUInt32BE_append (Nat.le_of_eq hfour.symm), hread] at himplausible
    have hfits := h.1
    unfold FitsFrame at hfits
    omega
  · rw [hdecode]
    apply decodeFrame_of_isFrameOf hunpack h

/-- However the frames of some envelopes are cut into chunks, the server dispatches exactly
those envelopes, in order, and leaves an empty buffer; and repeated `decodeFrame` gives the same
envelopes. -/
theorem frames_dispatched (hunpack : ∀ env, unpack (pack env) = some env) {envs : List E}
    (hfits : ∀ env ∈ envs, FitsFrame pack env) :
  ∃ frames : List Bytes, envs.map (encodeFrame pack) = frames.map some ∧
    (frameDecoder unpack).drain frames.flatten = ⟨envs, [], false⟩ ∧
    ∀ chunks : List Bytes, chunks.flatten = frames.flatten →
      chunks.foldl (onData unpack) openConnection = ⟨envs, [], false⟩
  := by
  have hexists : ∃ frames, List.Forall₂ (IsFrameOf pack) envs frames := by
    induction envs with
    | nil => exact ⟨[], .nil⟩
    | cons env envs ih =>
        obtain ⟨frame, hframe⟩ := exists_isFrameOf (hfits env List.mem_cons_self)
        obtain ⟨frames, hframes⟩ := ih (fun e he => hfits e (List.mem_cons_of_mem env he))
        exact ⟨frame :: frames, .cons hframe hframes⟩
  obtain ⟨frames, hframes⟩ := hexists
  have hencoded : envs.map (encodeFrame pack) = frames.map some := by
    clear hfits
    induction hframes with
    | nil => rfl
    | cons hframe _ ih => rw [List.map_cons, List.map_cons, hframe.2, ih]
  have hdrain : (frameDrainer unpack).drain frames.flatten = ⟨envs, [], false⟩ :=
    Reader.drain_flatten _ (drainFrame_of_isFrameOf hunpack) rfl hframes
  refine ⟨frames, hencoded, ?_, ?_⟩
  · apply Reader.drain_flatten _ (decodeFrame_of_isFrameOf hunpack) rfl hframes
  · intro chunks hchunks
    have hfeed := (frameDrainer unpack).foldl_feed [] chunks
    rw [List.nil_append, hchunks, hdrain, Reader.drain_more rfl] at hfeed
    exact hfeed rfl

end

/-- Three envelopes, the frames of the first two cut inside a length and a body. -/
theorem frames_dispatched_bytes :
  ∃ frames : List Bytes,
    [[1, 2], [3], [4, 5, 6]].map (encodeFrame (fun env : Bytes => env)) = frames.map some ∧
      [[0, 0], [0, 2, 1], [], [2, 0, 0, 0, 1, 3, 0, 0, 0, 3, 4, 5, 6]].foldl (onData some)
        openConnection = ⟨[[1, 2], [3], [4, 5, 6]], [], false⟩
  := by
  have hfits : ∀ env ∈ [[1, 2], [3], [4, 5, 6]], FitsFrame (fun env : Bytes => env) env := by
    simp [FitsFrame, maxFrameBytes]
  obtain ⟨frames, hframes, -, hchunks⟩ :=
    @frames_dispatched Bytes (fun env => env) some (fun _ => rfl) _ hfits
  refine ⟨frames, hframes, hchunks _ ?_⟩
  have hflat : frames.map some = [some [0, 0, 0, 2, 1, 2], some [0, 0, 0, 1, 3],
      some [0, 0, 0, 3, 4, 5, 6]] := by
    rw [← hframes]
    rfl
  have hsome : frames = [[0, 0, 0, 2, 1, 2], [0, 0, 0, 1, 3], [0, 0, 0, 3, 4, 5, 6]] :=
    List.map_injective_iff.mpr (fun _ _ => Option.some.inj) hflat
  rw [hsome]
  rfl

end AgentFs
