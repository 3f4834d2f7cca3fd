import Mathlib.Data.List.Basic

/-! # Frames

A frame is a header of a fixed length and a payload whose length the header tells. Frames are read
one after another until the data end, wherever that is. -/
namespace LukePanel.Library.Frames

variable {α : Type*} {width limit : ℕ} {size : List α → ℕ}

/-- A frame whose payload is within the limit. -/
structure Frame (width limit : ℕ) (size : List α → ℕ) where
  header : List α
  payload : List α
  length_header : header.length = width
  size_header : size header = payload.length
  small : payload.length ≤ limit

def Frame.data (frame : Frame width limit size) : List α := frame.header ++ frame.payload

theorem Frame.length_data (frame : Frame width limit size) :
    frame.data.length = width + frame.payload.length := by
  rw [Frame.data, List.length_append, frame.length_header]

def data (frames : List (Frame width limit size)) : List α := frames.flatMap Frame.data

def payloads (frames : List (Frame width limit size)) : List α := frames.flatMap Frame.payload

theorem data_cons (frame : Frame width limit size) (frames : List (Frame width limit size)) :
    data (frame :: frames) = frame.header ++ (frame.payload ++ data frames) := by
  rw [data, List.flatMap_cons, Frame.data, List.append_assoc]
  rfl

theorem length_data_cons (frame : Frame width limit size) (frames : List (Frame width limit size)) :
    (data (frame :: frames)).length = frame.data.length + (data frames).length := List.length_append

theorem payloads_cons (frame : Frame width limit size) (frames : List (Frame width limit size)) :
    payloads (frame :: frames) = frame.payload ++ payloads frames := List.flatMap_cons

/-- Reads at most so many frames. Data that end in a frame end the reading before it; a payload over
the limit is none. -/
def read (width limit : ℕ) (size : List α → ℕ) : ℕ → List α → List α → Option (List α)
  | 0, _, out => some out
  | count + 1, r, out =>
    if r.length < width then some out
    else
      let n := size (r.take width)
      let rest := r.drop width
      if limit < n then none
      else if rest.length < n then some out
      else read width limit size count (rest.drop n) (out ++ rest.take n)

/-- The frames that end within the length. -/
def complete : ℕ → List (Frame width limit size) → List (Frame width limit size)
  | _, [] => []
  | length, frame :: frames =>
    if length < frame.data.length then []
    else frame :: complete (length - frame.data.length) frames

theorem complete_prefix (length : ℕ) (frames : List (Frame width limit size)) :
    complete length frames <+: frames := by
  induction frames generalizing length with
  | nil => exact List.prefix_refl _
  | cons frame frames ih =>
    rw [complete]
    split
    · exact List.nil_prefix
    · exact List.cons_prefix_cons.mpr ⟨rfl, ih _⟩

theorem length_data_complete_le (length : ℕ) (frames : List (Frame width limit size)) :
    (data (complete length frames)).length ≤ length := by
  induction frames generalizing length with
  | nil => exact Nat.zero_le _
  | cons frame frames ih =>
    rw [complete]
    split
    · exact Nat.zero_le _
    · have hrest := ih (length - frame.data.length)
      rw [length_data_cons]
      omega

/-- The next frame does not end within the length. -/
theorem lt_length_data_take {length : ℕ} {frames : List (Frame width limit size)}
    (h : (complete length frames).length < frames.length) :
    length < (data (frames.take ((complete length frames).length + 1))).length := by
  induction frames generalizing length with
  | nil => cases h
  | cons frame frames ih =>
    rw [complete] at h ⊢
    split
    · rename_i hcut
      rw [List.length_nil, Nat.zero_add, List.take_succ_cons, List.take_zero, length_data_cons]
      exact Nat.lt_of_lt_of_le hcut (Nat.le_add_right _ _)
    · rename_i hwhole
      rw [if_neg hwhole, List.length_cons, List.length_cons] at h
      have hrest := ih (Nat.lt_of_succ_lt_succ h)
      rw [List.length_cons, List.take_succ_cons, length_data_cons]
      omega

theorem complete_length (frames : List (Frame width limit size)) :
    complete (data frames).length frames = frames := by
  induction frames with
  | nil => rfl
  | cons frame frames ih =>
    rw [complete, length_data_cons, if_neg (Nat.not_lt.mpr (Nat.le_add_right _ _)), Nat.add_sub_cancel_left, ih]

/-- Every frame that is there has a header. -/
theorem length_complete_le (length : ℕ) (frames : List (Frame width limit size)) :
    (complete length frames).length * width ≤ ((data frames).take length).length := by
  induction frames generalizing length with
  | nil => simp [complete]
  | cons frame frames ih =>
    have hframe := frame.length_data
    rw [complete]
    split
    · simp
    · have hrest := ih (length - frame.data.length)
      rw [List.length_take] at hrest ⊢
      rw [List.length_cons, Nat.add_mul, Nat.one_mul, length_data_cons]
      omega

/-- However the data are cut, the payloads of the frames that are there come out. -/
theorem read_take (hwidth : 0 < width) {length count : ℕ} {out : List α}
    {frames : List (Frame width limit size)} (hcount : (complete length frames).length < count) :
    read width limit size count ((data frames).take length) out =
      some (out ++ payloads (complete length frames)) := by
  obtain ⟨count, rfl⟩ := Nat.exists_eq_add_one_of_ne_zero (Nat.ne_of_gt (Nat.zero_lt_of_lt hcount))
  induction frames generalizing length count out with
  | nil =>
    have hnil : (data ([] : List (Frame width limit size))).take length = [] := List.take_nil
    have hout : out ++ payloads (complete length ([] : List (Frame width limit size))) = out :=
      List.append_nil out
    rw [hnil, hout, read]
    exact if_pos hwidth
  | cons frame frames ih =>
    have hframe := frame.length_data
    rw [data_cons, read, complete, hframe]
    by_cases hheader : length < width
    · -- The header is cut.
      have hshort : ((frame.header ++ (frame.payload ++ data frames)).take length).length < width :=
        Nat.lt_of_le_of_lt (List.length_take_le _ _) hheader
      rw [if_pos hshort, if_pos (by omega)]
      exact congrArg some (List.append_nil out).symm
    · obtain ⟨more, rfl⟩ := Nat.exists_eq_add_of_le (Nat.not_lt.mp hheader)
      have htake : (frame.header ++ (frame.payload ++ data frames)).take (width + more) =
          frame.header ++ (frame.payload ++ data frames).take more := by
        rw [List.take_append, frame.length_header, Nat.add_sub_cancel_left,
          List.take_of_length_le (by rw [frame.length_header]; exact Nat.le_add_right _ _)]
      have hlong : ¬ (frame.header ++ (frame.payload ++ data frames).take more).length < width := by
        rw [List.length_append, frame.length_header]
        omega
      rw [htake, if_neg hlong, List.take_left' frame.length_header, List.drop_left' frame.length_header,
        frame.size_header]
      dsimp only
      rw [if_neg (Nat.not_lt.mpr frame.small)]
      by_cases hpayload : more < frame.payload.length
      · -- The payload is cut.
        have hshort : ((frame.payload ++ data frames).take more).length < frame.payload.length :=
          Nat.lt_of_le_of_lt (List.length_take_le _ _) hpayload
        rw [if_pos hshort, if_pos (by omega)]
        exact congrArg some (List.append_nil out).symm
      · obtain ⟨rest, rfl⟩ := Nat.exists_eq_add_of_le (Nat.not_lt.mp hpayload)
        have hlong : ¬ (frame.payload ++ (data frames).take rest).length < frame.payload.length := by
          rw [List.length_append]
          omega
        have hrest : width + (frame.payload.length + rest) - (width + frame.payload.length) = rest := by
          omega
        rw [complete, hframe, if_neg (by omega), hrest, List.length_cons] at hcount
        obtain ⟨count, rfl⟩ := Nat.exists_eq_add_one_of_ne_zero
          (Nat.ne_of_gt (Nat.zero_lt_of_lt (Nat.lt_of_succ_lt_succ hcount)))
        rw [List.take_length_add_append, if_neg hlong, List.drop_left, List.take_left,
          if_neg (by omega), hrest, ih count (Nat.lt_of_succ_lt_succ hcount), payloads_cons,
          List.append_assoc]

end LukePanel.Library.Frames
