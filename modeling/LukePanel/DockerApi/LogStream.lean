import LukePanel.Library.Cbor
import LukePanel.Library.Frames

/-! # Log streams

`decodeStream` of `internal/dockerapi/client.go`, and the part of `Logs` that reads the body. -/
namespace LukePanel.DockerApi.LogStream
open LukePanel.Library.Cbor (bigEndian)
open LukePanel.Library.Frames (Frame)

abbrev Bytes := List UInt8

/-- `binary.BigEndian.Uint32(header[4:8])` -/
def payloadSize (header : Bytes) : ℕ := bigEndian ((header.drop 4).take 4)

def maxPayload : ℕ := 16777216

/-- Each pass reads at least the eight bytes of a header. -/
def decodeStream (data : Bytes) : Bytes :=
  if data.length < 8 ∨ 2 < data.headD 0 then data
  else (Library.Frames.read 8 maxPayload payloadSize data.length data []).getD data

def maxLogs : ℕ := 4194304

/-- What `Logs` makes of the body of a response below 300. -/
def logs (body : Bytes) : Bytes := decodeStream (body.take maxLogs)

/-! ## Frames of the daemon -/

/-- Four bytes in network order. -/
def uint32Bytes (n : ℕ) : Bytes :=
  [UInt8.ofNat (n / 16777216), UInt8.ofNat (n / 65536), UInt8.ofNat (n / 256), UInt8.ofNat n]

theorem bigEndian_uint32Bytes {n : ℕ} (h : n < 4294967296) : bigEndian (uint32Bytes n) = n := by
  simp only [bigEndian, uint32Bytes, List.foldl_cons, List.foldl_nil, UInt8.toNat_ofNat']
  omega

/-- Standard input, output or error, and at most 16 MiB of it. -/
structure LogFrame where
  stream : UInt8
  payload : Bytes
  known : stream ≤ 2
  small : payload.length ≤ maxPayload

/-- The type of the stream, three bytes that are not used, and the length. -/
def LogFrame.frame (f : LogFrame) : Frame 8 maxPayload payloadSize where
  header := f.stream :: 0 :: 0 :: 0 :: uint32Bytes f.payload.length
  payload := f.payload
  length_header := rfl
  size_header := by
    have hsmall : f.payload.length ≤ 16777216 := f.small
    exact bigEndian_uint32Bytes (by omega)
  small := f.small

def encoded (frames : List LogFrame) : Bytes := Library.Frames.data (frames.map LogFrame.frame)

def output (frames : List LogFrame) : Bytes := frames.flatMap LogFrame.payload

theorem output_eq (frames : List LogFrame) :
    Library.Frames.payloads (frames.map LogFrame.frame) = output frames := by
  rw [Library.Frames.payloads, List.flatMap_map]
  rfl

theorem headD_encoded {frames : List LogFrame} {length : ℕ} (hframes : frames ≠ [])
    (hlength : 8 ≤ length) : ((encoded frames).take length).headD 0 ≤ 2 ∧
      8 ≤ ((encoded frames).take length).length := by
  cases frames with
  | nil => exact absurd rfl hframes
  | cons f rest =>
    obtain ⟨length, rfl⟩ := Nat.exists_eq_add_of_le' hlength
    refine ⟨f.known, ?_⟩
    rw [encoded, List.map_cons, List.length_take, Library.Frames.length_data_cons,
      Library.Frames.Frame.length_data]
    omega

theorem decodeStream_take {frames : List LogFrame} {length : ℕ} (hframes : frames ≠ [])
    (hlength : 8 ≤ length) : decodeStream ((encoded frames).take length) =
      Library.Frames.payloads (Library.Frames.complete length (frames.map LogFrame.frame)) := by
  obtain ⟨hhead, hlong⟩ := headD_encoded hframes hlength
  have hle := Library.Frames.length_complete_le length (frames.map LogFrame.frame)
  change _ ≤ ((encoded frames).take length).length at hle
  have hcount : (Library.Frames.complete length (frames.map LogFrame.frame)).length <
      ((encoded frames).take length).length := by omega
  have hread : Library.Frames.read 8 maxPayload payloadSize ((encoded frames).take length).length
      ((encoded frames).take length) [] = some _ := Library.Frames.read_take (by decide) hcount
  rw [decodeStream, if_neg (not_or.mpr ⟨Nat.not_lt.mpr hlong, UInt8.not_lt.mpr hhead⟩), hread]
  rfl

/-- Of a body that is too long the frames within the limit are shown. -/
theorem logs_encoded {frames : List LogFrame} (hframes : frames ≠ []) : logs (encoded frames) =
    Library.Frames.payloads (Library.Frames.complete maxLogs (frames.map LogFrame.frame)) :=
  decodeStream_take hframes (by decide)

/-- Frames come out as their payloads, and of a stream that is cut the frames that are whole. -/
theorem decodeStream_frames {frames : List LogFrame} (hframes : frames ≠ []) :
    decodeStream (encoded frames) = output frames ∧
      ∀ length, 8 ≤ length → ∃ count, count ≤ frames.length ∧
        decodeStream ((encoded frames).take length) = output (frames.take count) ∧
        (encoded (frames.take count)).length ≤ length ∧
        (count < frames.length → length < (encoded (frames.take (count + 1))).length) := by
  have hlong : 8 ≤ (encoded frames).length := by
    have hhead := (@headD_encoded frames 8 hframes (Nat.le_refl 8)).2
    rw [List.length_take] at hhead
    omega
  constructor
  · have hwhole := decodeStream_take hframes hlong
    rwa [List.take_length, encoded, Library.Frames.complete_length, output_eq] at hwhole
  · intro length hlength
    have hcomplete : Library.Frames.complete length (frames.map LogFrame.frame) =
        (frames.take (Library.Frames.complete length (frames.map LogFrame.frame)).length).map
          LogFrame.frame := by
      rw [List.map_take]
      exact List.prefix_iff_eq_take.mp (Library.Frames.complete_prefix _ _)
    refine ⟨(Library.Frames.complete length (frames.map LogFrame.frame)).length, ?_, ?_, ?_, ?_⟩
    · have hle := (Library.Frames.complete_prefix length (frames.map LogFrame.frame)).length_le
      rwa [List.length_map] at hle
    · rw [decodeStream_take hframes hlength, ← output_eq, ← hcomplete]
    · rw [encoded, ← hcomplete]
      exact Library.Frames.length_data_complete_le _ _
    · intro hlt
      rw [encoded, List.map_take]
      exact Library.Frames.lt_length_data_take (by rwa [List.length_map])

/-- A line on each of two streams, and nothing between them. -/
theorem lines_decoded : decodeStream (encoded [⟨1, [104, 105], by decide, by decide⟩,
    ⟨0, [], by decide, by decide⟩, ⟨2, [33], by decide, by decide⟩]) = [104, 105, 33] :=
  (decodeStream_frames (List.cons_ne_nil _ _)).1

end LukePanel.DockerApi.LogStream
