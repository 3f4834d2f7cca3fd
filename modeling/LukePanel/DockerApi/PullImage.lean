import LukePanel.Library.GoStrings
import LukePanel.Library.JsonLines

/-! # Pulling an image

`PullImage` of `internal/dockerapi/client.go`. Docker reports a failed pull as an event of the stream
that it answers with. -/
namespace LukePanel.DockerApi.PullImage
open LukePanel.Library LukePanel.Library.GoStrings
open LukePanel.Library.JsonLines (Bytes Event stream unmarshal Within Decodes)

/-! ## The request -/

/-- The name and the tag, which begins after the last colon unless a slash follows. -/
def splitTag (reference : String) : String × String :=
  let chars := reference.toList
  let tag := (chars.reverse.takeWhile (· ≠ ':')).reverse
  if '@' ∈ chars ∨ ':' ∉ chars ∨ '/' ∈ tag then (reference, "")
  else (String.ofList (chars.take (chars.length - tag.length - 1)), String.ofList tag)

example : splitTag "localhost:5000/web:1.2" = ("localhost:5000/web", "1.2") := by decide

/-- The query of the request. -/
def query (reference : String) : List (String × String) :=
  let (fromImage, tag) := splitTag reference
  if tag = "" then [("fromImage", fromImage)] else [("fromImage", fromImage), ("tag", tag)]

/-! ## The answer -/

structure Response where
  status : ℕ
  /-- What `dockerError` makes of the body. -/
  message : String
  /-- The body, as it is read piece by piece, and the error it may end with. -/
  reads : List Bytes
  readError : Option String

/-- `io.ReadAll` of a reader with so many bytes left. -/
def readLimited (limit : ℕ) : List Bytes → Bytes
  | [] => []
  | piece :: rest => piece.take limit ++ readLimited (limit - piece.length) rest

def maxEvents : ℕ := 4194304

/-- `decode` gives the field `error` of an object, if it can be decoded. -/
def firstError (decode : Bytes → Option String) (data : Bytes) : Option String :=
  (data.splitOn 10).findSome? fun line => (unmarshal decode line).filter (· ≠ "")

/-- The output and the error. -/
def received (decode : Bytes → Option String) (resp : Response) : Bytes × Option String :=
  if 300 ≤ resp.status then ([], some resp.message)
  else if resp.readError.isSome ∧ resp.reads.flatten.length < maxEvents then ([], resp.readError)
  else (readLimited maxEvents resp.reads, firstError decode (readLimited maxEvents resp.reads))

def pullImage (decode : Bytes → Option String)
    (request : List (String × String) → Except String Response) (reference : String) :
    Bytes × Option String :=
  let reference := trimSpace reference
  if reference = "" ∨ 300 < reference.utf8ByteSize ∨
      containsAny reference [' ', '\t', '\r', '\n'] = true then
    ([], some "invalid image reference")
  else
    match request (query reference) with
    | .error err => ([], some err)
    | .ok resp => received decode resp

/-! ## The events that are seen -/

theorem readLimited_eq (limit : ℕ) (reads : List Bytes) :
    readLimited limit reads = reads.flatten.take limit := by
  induction reads generalizing limit with
  | nil => exact List.take_nil.symm
  | cons piece rest ih => rw [readLimited, ih, List.flatten_cons, List.take_append]

theorem firstError_eq_none {decode : Bytes → Option String} {data : Bytes} :
    firstError decode data = none ↔ ¬ Decodes decode (· ≠ "") data := by
  rw [firstError, List.findSome?_eq_none_iff]
  constructor
  · rintro h ⟨line, hline, value, hvalue, hne⟩
    have hnone := h line hline
    rw [hvalue, Option.filter_some, if_pos (by simpa using hne)] at hnone
    cases hnone
  · intro h line hline
    rw [Option.filter_eq_none_iff]
    intro value hvalue hne
    exact h ⟨line, hline, value, hvalue, by simpa using hne⟩

/-- The event carries an error. -/
def Carries (decode : Bytes → Option String) (e : Event) : Prop :=
  ∃ err, decode e.text = some err ∧ err ≠ ""

/-- The pull is accepted and begins with success, and the stream of the events is read to its end. -/
structure Answered (request : List (String × String) → Except String Response) (reference : String)
    (events : List Event) : Prop where
  name : trimSpace reference ≠ ""
  short : (trimSpace reference).utf8ByteSize ≤ 300
  word : containsAny (trimSpace reference) [' ', '\t', '\r', '\n'] = false
  answer : ∃ resp, request (query (trimSpace reference)) = .ok resp ∧ resp.status < 300 ∧
    resp.readError = none ∧ resp.reads.flatten = stream events

theorem pullImage_error {decode : Bytes → Option String}
    {request : List (String × String) → Except String Response} {reference : String}
    {events : List Event} (h : Answered request reference events) :
    (pullImage decode request reference).2 = none ↔ ¬ Within decode (· ≠ "") events maxEvents := by
  obtain ⟨resp, hresp, hstatus, hread, hevents⟩ := h.answer
  have hchecks : ¬ (trimSpace reference = "" ∨ 300 < (trimSpace reference).utf8ByteSize ∨
      containsAny (trimSpace reference) [' ', '\t', '\r', '\n'] = true) := by
    rw [not_or, not_or, Nat.not_lt, Bool.not_eq_true]
    exact ⟨h.name, h.short, h.word⟩
  rw [pullImage, if_neg hchecks, hresp]
  dsimp only
  rw [received, if_neg (Nat.not_le.mpr hstatus), hread, if_neg (by simp), readLimited_eq, hevents,
    firstError_eq_none, JsonLines.decodes_take]

/-- No error means that no event carries one exactly when, if there is such an event, one is within
the bytes that are kept. -/
theorem pullImage_iff {decode : Bytes → Option String}
    {request : List (String × String) → Except String Response} {reference : String}
    {events : List Event} (h : Answered request reference events) :
    ((pullImage decode request reference).2 = none → ∀ e ∈ events, ¬ Carries decode e) ↔
      ((∃ e ∈ events, Carries decode e) → Within decode (· ≠ "") events maxEvents) := by
  rw [pullImage_error h]
  constructor
  · rintro hnone ⟨e, he, hcarries⟩
    by_contra hwithin
    exact hnone hwithin e he hcarries
  · intro hwithin hnone e he hcarries
    exact hnone (hwithin ⟨e, he, hcarries⟩)

/-! ## Two streams -/

/-- An object whose field `error` is the text `x`. -/
def failure : Event :=
  ⟨[123, 34, 101, 114, 114, 111, 114, 34, 58, 34, 120, 34, 125], by decide, by decide⟩

def decodeError (text : Bytes) : Option String := some (if text = failure.text then "x" else "")

theorem within_failure : Within decodeError (· ≠ "") [failure] maxEvents := by
  refine ⟨[], failure, [], rfl, ⟨"x", rfl, by decide⟩, ?_⟩
  change 0 + 13 ≤ 4194304
  omega

/-- The failure is read in two pieces. -/
theorem failure_seen : ((stream [failure]).take 7 ++ (stream [failure]).drop 7 = stream [failure]) ∧
    ((pullImage decodeError (fun _ => .ok ⟨200, "", [(stream [failure]).take 7,
        (stream [failure]).drop 7], none⟩) "nginx:1").2 = none →
      ∀ e ∈ [failure], ¬ Carries decodeError e) := by
  have hreads : [(stream [failure]).take 7, (stream [failure]).drop 7].flatten = stream [failure] := by
    simp
  have hanswered : Answered (fun _ => .ok ⟨200, "", [(stream [failure]).take 7,
      (stream [failure]).drop 7], none⟩) "nginx:1" [failure] :=
    ⟨by decide, by decide, by decide, _, rfl, by decide, rfl, hreads⟩
  exact ⟨List.take_append_drop .., (@pullImage_iff decodeError _ _ _ hanswered).mpr
    fun _ => within_failure⟩

/-- A text goes on between its quotes. -/
theorem closes_replicate (n : ℕ) (depth : ℕ) (rest : Bytes) :
    JsonLines.closes .quoted depth (List.replicate n 46 ++ rest) =
      JsonLines.closes .quoted depth rest := by
  induction n with
  | zero => rfl
  | succ n ih =>
    rw [List.replicate_succ, List.cons_append, JsonLines.closes, if_neg (by decide), if_neg (by decide),
      ih]

/-- An object whose field `id` is as long as one likes. -/
def progress (n : ℕ) : Event where
  text := [123, 34, 105, 100, 34, 58, 34] ++ (List.replicate n 46 ++ [34, 125])
  object := by
    rw [JsonLines.isObject, Bool.and_eq_true]
    exact ⟨rfl, closes_replicate n 1 [34, 125]⟩
  one_line := by
    rw [List.mem_append, List.mem_append, not_or, not_or]
    refine ⟨by decide, fun h => ?_, by decide⟩
    exact absurd (List.eq_of_mem_replicate h) (by decide)

theorem length_progress (n : ℕ) : (progress n).text.length = 7 + (n + 2) := by
  rw [progress, List.length_append, List.length_append, List.length_replicate]
  rfl

theorem not_within_progress (n : ℕ) (hn : 13 < 9 + n) :
    ¬ Within decodeError (· ≠ "") [progress n, failure] n := by
  have hlength := length_progress n
  have hother : (progress n).text ≠ failure.text := by
    intro heq
    rw [heq] at hlength
    have hfailure : failure.text.length = 13 := rfl
    omega
  intro h
  rcases JsonLines.within_cons.mp h with ⟨⟨value, hvalue, hne⟩, -⟩ | ⟨hle, -⟩
  · rw [decodeError, if_neg hother, Option.some.injEq] at hvalue
    exact hne hvalue.symm
  · omega

/-- A failure behind an event that is as long as all that is kept. -/
theorem failure_not_seen : (pullImage decodeError
    (fun _ => .ok ⟨200, "", [stream [progress maxEvents, failure]], none⟩) "nginx:1").2 = none ∧
      Carries decodeError failure := by
  have hanswered : Answered (fun _ => .ok ⟨200, "", [stream [progress maxEvents, failure]], none⟩)
      "nginx:1" [progress maxEvents, failure] :=
    ⟨by decide, by decide, by decide, _, rfl, by decide, rfl, List.append_nil _⟩
  refine ⟨(pullImage_error hanswered).mpr (not_within_progress maxEvents ?_), "x", rfl, by decide⟩
  rw [maxEvents]
  omega

end LukePanel.DockerApi.PullImage
