import LukePanel.Library.BackwardLines
import LukePanel.Library.GoStrings
import LukePanel.Library.Wildcards
import LukePanel.Server.AuditIndex
import Mathlib.Data.List.Pairwise
import Mathlib.Data.List.Sort
import Mathlib.Data.String.Basic

/-! # Queries of the audit log

`querySQLite` and `queryFiles` of `internal/server/audit.go`: one query answered from the index
and from the JSONL files. The files are bytes; `parse` is what `bytes.TrimSpace` and
`json.Unmarshal` make of a line, and `lower` is `unicode.ToLower`. A call of `sqlite3` fails for a
statement that is no argument of a command, and for a pattern that is too long. -/
namespace LukePanel.Server.AuditQueries
open LukePanel.Library.BackwardLines LukePanel.Library.GoStrings LukePanel.Library.Rotation
open LukePanel.Library.Utf8 LukePanel.Library.Wildcards LukePanel.Server.AuditLog

structure AuditQuery where
  search : String
  user : String
  ip : String
  action : String
  result : String
  fromTime : String
  toTime : String
  limit : Int
  offset : Int

/-- An event of the files, or of the index. -/
abbrev AuditEvent := AuditLog.AuditEvent String

structure AuditQueryResult where
  events : List AuditEvent
  total : ℕ
  deriving DecidableEq

def normalizeAuditQuery (q : AuditQuery) : AuditQuery :=
  let q := if q.limit < 1 ∨ 2000 < q.limit then { q with limit := 300 } else q
  if q.offset < 0 ∨ 1000000 < q.offset then { q with offset := 0 } else q

/-! ## From the index -/

/-- What SQLite leaves open: `ORDER BY time DESC` gives rows of one time in any order, and a pattern that
is too long is an error only where a row comes to be matched with it. -/
structure Sqlite where
  rows : List AuditEvent → List AuditEvent
  perm : ∀ l, (rows l).Perm l
  sorted : ∀ l, (rows l).Pairwise fun a b => b.time ≤ a.time
  complains : Bool

/-- What `sqlQuote` leaves of a value. -/
def withoutNul (value : String) : String := String.ofList (value.toList.filter (· ≠ '\x00'))

def sqlQuote (value : String) : String :=
  String.ofList ('\x27' :: (withoutNul value).toList.flatMap
    (fun c => if c = '\x27' then ['\x27', '\x27'] else [c]) ++ ['\x27'])

/-- A condition of the `WHERE` clause, with what it means. -/
structure Condition where
  text : String
  holds : AuditEvent → Bool

/-- The condition a filter adds, if it is given. -/
def given (filter : String) (condition : String → Condition) : List Condition :=
  if trimSpace filter = "" then [] else [condition (trimSpace filter)]

def pattern (v : String) : String := "%" ++ v ++ "%"

def conditions (q : AuditQuery) : List Condition :=
  given q.user (fun v => ⟨"user=" ++ sqlQuote v, fun e => e.user == withoutNul v⟩) ++
  given q.ip (fun v => ⟨"ip=" ++ sqlQuote v, fun e => e.ip == withoutNul v⟩) ++
  given q.action (fun v => ⟨"action LIKE " ++ sqlQuote (pattern v),
    fun e => like (withoutNul (pattern v)) e.action⟩) ++
  given q.result (fun v => ⟨"result=" ++ sqlQuote v, fun e => e.result == withoutNul v⟩) ++
  given q.fromTime (fun v => ⟨"time >= " ++ sqlQuote v, fun e => decide (withoutNul v ≤ e.time)⟩) ++
  given q.toTime (fun v => ⟨"time <= " ++ sqlQuote v, fun e => decide (e.time ≤ withoutNul v)⟩) ++
  given q.search (fun v =>
    let text := sqlQuote (pattern v)
    let p := withoutNul (pattern v)
    ⟨"(action LIKE " ++ text ++ " OR target LIKE " ++ text ++ " OR detail LIKE " ++ text ++
      " OR ip LIKE " ++ text ++ " OR user LIKE " ++ text ++ ")",
    fun e => like p e.action || like p e.target || like p e.detail || like p e.ip || like p e.user⟩)

/-- The conditions joined by `AND`. -/
def sqlMatches (q : AuditQuery) (e : AuditEvent) : Bool := (conditions q).all (·.holds e)

def clause (q : AuditQuery) : String :=
  " AND ".intercalate ("1=1" :: (conditions q).map (·.text))

def countSQL (q : AuditQuery) : String :=
  "SELECT COUNT(*) AS total FROM audit_events WHERE " ++ clause q ++ ";"

def rowsSQL (q : AuditQuery) : String :=
  "SELECT time,ip,user,action,target,result,detail FROM audit_events WHERE " ++ clause q ++
    " ORDER BY time DESC LIMIT " ++ toString q.limit ++ " OFFSET " ++ toString q.offset ++ ";"

/-- The bytes of an argument with its NUL, as Linux limits them. -/
def maxArgument : ℕ := 131072

/-- The bytes of a pattern, as SQLite limits them. -/
def maxPattern : ℕ := 50000

/-- The patterns of `LIKE`. -/
def patterns (q : AuditQuery) : List String :=
  ([trimSpace q.action, trimSpace q.search].filter (· ≠ "")).map fun v => withoutNul (pattern v)

/-- A statement is run. -/
def runs (db : Sqlite) (q : AuditQuery) (sql : String) : Bool :=
  decide (sql.utf8ByteSize < maxArgument) &&
    !(db.complains && (patterns q).any fun p => decide (maxPattern < p.utf8ByteSize))

/-- `none` is an error. -/
def querySQLite (db : Sqlite) (rows : List AuditEvent) (q : AuditQuery) : Option AuditQueryResult :=
  let found := rows.filter (sqlMatches q)
  if runs db q (countSQL q) && runs db q (rowsSQL q) then
    some ⟨((db.rows found).drop q.offset.toNat).take q.limit.toNat, found.length⟩
  else none

/-! ## From the files -/

section

variable (parse : List UInt8 → Option AuditEvent) (lower : Char → Char)

/-- An empty line is passed over. -/
def parseLine (line : List UInt8) : Option AuditEvent := if line = [] then none else parse line

/-- `const blockSize int64 = 64 << 10`, and a line of which more than `1 << 20` bytes are
carried over is an error. -/
def readAuditTail (data : List UInt8) (limit : ℕ) : Option (List AuditEvent) :=
  readTail 10 (parseLine parse) 65536 1048576 limit data

/-- `max` in `queryFiles`. -/
def maxEvents : ℕ := 50000

/-- The loop over `paths`; a slot is `audit.jsonl` or a rotated file. -/
def readFiles (files : Slots UInt8) : List ℕ → List AuditEvent → Option (List AuditEvent)
  | [], all => some all
  | slot :: rest, all =>
    let part :=
      match files slot with
      | none => some []
      | some data => readAuditTail parse data (maxEvents - all.length)
    match part with
    | none => none
    | some part =>
      if maxEvents ≤ (all ++ part).length then some (all ++ part)
      else readFiles files rest (all ++ part)

/-- `strings.Contains(strings.ToLower(text), strings.ToLower(part))`. -/
def containsLower (text part : String) : Bool :=
  decide (part.toList.map lower <:+: text.toList.map lower)

def auditMatches (q : AuditQuery) (e : AuditEvent) : Bool :=
  (q.user == "" || e.user == q.user) &&
  (q.ip == "" || e.ip == q.ip) &&
  (q.action == "" || containsLower lower e.action q.action) &&
  (q.result == "" || e.result == q.result) &&
  (q.fromTime == "" || !decide (e.time < q.fromTime)) &&
  (q.toTime == "" || !decide (q.toTime < e.time)) &&
  (q.search == "" || containsLower lower
    (e.action ++ "\n" ++ e.target ++ "\n" ++ e.detail ++ "\n" ++ e.ip ++ "\n" ++ e.user) q.search)

/-- `none` is an error. -/
def queryFiles (files : Slots UInt8) (q : AuditQuery) : Option AuditQueryResult :=
  (readFiles parse files (List.range (auditRotateFiles + 1)) []).map fun all =>
    let matched := all.filter (auditMatches lower q)
    let start := min q.offset.toNat matched.length
    ⟨(matched.take (min (start + q.limit.toNat) matched.length)).drop start, matched.length⟩

/-- The events in the files. -/
def decoded (files : Slots UInt8) : Files String := fun slot =>
  (files slot).map fun data => (data.splitOn 10).filterMap (parseLine parse)

/-- The index holds what inserting the events of the files leaves, and that is the events. -/
structure HeldIdentically (rows : List AuditEvent) (files : Slots UInt8) : Prop where
  rows : rows.Perm (events (decoded parse files))
  texts : ∀ e ∈ events (decoded parse files), AuditIndex.row (e.map encode) = e.map encode

/-- Both ways give an answer, and the same, whatever SQLite does. -/
def Agree (rows : List AuditEvent) (files : Slots UInt8) (q : AuditQuery) : Prop :=
  ∀ db : Sqlite, ∃ result, queryFiles parse lower files q = some result ∧
    querySQLite db rows q = some result

/-- No file has a line so long that it cannot be read. -/
def Readable (files : Slots UInt8) : Prop :=
  ∀ slot < auditRotateFiles + 1, ∀ data, files slot = some data →
    Carries 10 65536 1048576 data data.length

/-- The longest statement for a page is an argument, and no pattern is too long. -/
structure Fits (q : AuditQuery) : Prop where
  statement : (rowsSQL { q with limit := 2000, offset := 1000000 }).utf8ByteSize < maxArgument
  patterns : ∀ p ∈ patterns q, p.utf8ByteSize ≤ maxPattern

/-- The index matches the events that the files match. -/
def SameMatches (files : Slots UInt8) (q : AuditQuery) : Prop :=
  ∀ e ∈ events (decoded parse files), sqlMatches q e = auditMatches lower q e

/-- The times of the matching events ascend from line to line, as texts; events of one time are
the same. -/
def Ascending (files : Slots UInt8) (q : AuditQuery) : Prop :=
  ((events (decoded parse files)).filter (auditMatches lower q)).Pairwise
    fun a b => a.time < b.time ∨ a = b

/-! ## Reading the files -/

variable {parse lower} {files : Slots UInt8} {rows : List AuditEvent} {q : AuditQuery}

instance (files : Slots UInt8) (q : AuditQuery) : Decidable (SameMatches parse lower files q) :=
  inferInstanceAs (Decidable (∀ e ∈ _, _))

instance (files : Slots UInt8) (q : AuditQuery) : Decidable (Ascending parse lower files q) :=
  inferInstanceAs (Decidable (List.Pairwise _ _))

/-- **The tail of a file is what a forward reading gives**: its last `limit` events, the newest
first, wherever the blocks cut its lines. -/
theorem readAuditTail_eq (parse : List UInt8 → Option AuditEvent) (data : List UInt8) (limit : ℕ)
    (hlines : ∀ line ∈ data.splitOn 10, line.length ≤ 1048576) :
    readAuditTail parse data limit =
      some (((data.splitOn 10).filterMap (parseLine parse)).reverse.take limit) :=
  readTail_take (parseLine parse) limit (by decide : 0 < 65536) rfl (carries_of_lines hlines _)

/-- The events of the files in `slots`, each file's last line first. -/
def newest (parse : List UInt8 → Option AuditEvent) (files : Slots UInt8) (slots : List ℕ) :
    List AuditEvent :=
  slots.flatMap fun slot => ((decoded parse files slot).getD []).reverse

theorem newest_range (files : Slots UInt8) (n : ℕ) :
    newest parse files (List.range n) = (contents (decoded parse files) n).reverse := by
  induction n with
  | zero => rfl
  | succ n ih =>
    rw [List.range_succ, newest, List.flatMap_append, contents, List.reverse_append]
    congr 1
    simp

theorem newest_cons (files : Slots UInt8) (slot : ℕ) (rest : List ℕ) :
    newest parse files (slot :: rest) =
      ((decoded parse files slot).getD []).reverse ++ newest parse files rest := List.flatMap_cons

/-- As long as the events are few, the loop reads every file, or fails at one that cannot be
read. -/
theorem readFiles_eq (parse : List UInt8 → Option AuditEvent) (files : Slots UInt8)
    (slots : List ℕ) (all : List AuditEvent)
    (hfew : (all ++ newest parse files slots).length < maxEvents) :
    ((∀ slot ∈ slots, ∀ data, files slot = some data →
        Carries 10 65536 1048576 data data.length) →
      readFiles parse files slots all = some (all ++ newest parse files slots)) ∧
    ((¬ ∀ slot ∈ slots, ∀ data, files slot = some data →
        Carries 10 65536 1048576 data data.length) →
      readFiles parse files slots all = none) := by
  induction slots generalizing all with
  | nil => exact ⟨fun _ => by rw [readFiles, newest, List.flatMap_nil, List.append_nil],
      fun hnot => absurd (fun _ h => absurd h List.not_mem_nil) hnot⟩
  | cons slot rest ih =>
    rw [newest_cons, ← List.append_assoc] at hfew
    have hpart : (all ++ ((decoded parse files slot).getD []).reverse).length < maxEvents := by
      rw [List.length_append] at hfew
      omega
    rw [List.forall_mem_cons, newest_cons, ← List.append_assoc]
    obtain ⟨hok, herr⟩ := ih _ hfew
    rw [readFiles]
    cases hfile : files slot with
    | none =>
      have hnone : decoded parse files slot = none := by rw [decoded, hfile]; rfl
      rw [hnone, Option.getD_none, List.reverse_nil, List.append_nil] at hpart hok herr ⊢
      simp only [List.append_nil]
      rw [if_neg (by omega)]
      exact ⟨fun h => hok h.2, fun hnot => herr fun h =>
        hnot ⟨fun _ hdata => absurd hdata (Option.some_ne_none _).symm, h⟩⟩
    | some data =>
      have hsome : ((decoded parse files slot).getD []).reverse =
          parsed 10 (parseLine parse) data := by
        rw [decoded, hfile]
        rfl
      rw [hsome] at hpart hok herr ⊢
      have hlimit : (parsed 10 (parseLine parse) data).length < maxEvents - all.length := by
        rw [List.length_append] at hpart
        omega
      simp only [readAuditTail]
      by_cases hcarries : Carries 10 65536 1048576 data data.length
      · rw [readTail_take (parseLine parse) _ (by decide : 0 < 65536) rfl hcarries,
          List.take_of_length_le (Nat.le_of_lt hlimit)]
        simp only
        rw [if_neg (by omega)]
        exact ⟨fun h => hok h.2, fun hnot => herr fun h =>
          hnot ⟨fun _ hd => Option.some.inj hd ▸ hcarries, h⟩⟩
      · rw [readTail_none (parseLine parse) (by decide : 0 < 65536) hlimit hcarries]
        exact ⟨fun h => absurd (h.1 data rfl) hcarries, fun _ => rfl⟩

/-- All matching events of the files, in the order they are answered. -/
def matched (parse : List UInt8 → Option AuditEvent) (lower : Char → Char) (files : Slots UInt8)
    (q : AuditQuery) : List AuditEvent :=
  ((events (decoded parse files)).filter (auditMatches lower q)).reverse

/-- A window of a list. -/
def page (offset limit : ℕ) (l : List AuditEvent) : List AuditEvent := (l.drop offset).take limit

theorem slice_eq_page (offset limit : ℕ) (l : List AuditEvent) :
    (l.take (min (min offset l.length + limit) l.length)).drop (min offset l.length) =
      page offset limit l := by
  unfold page
  rw [List.drop_take]
  by_cases h : offset ≤ l.length
  · rw [Nat.min_eq_left h]
    by_cases hend : offset + limit ≤ l.length
    · rw [Nat.min_eq_left hend, Nat.add_sub_cancel_left]
    · rw [Nat.min_eq_right (by omega), List.take_of_length_le (by simp),
        List.take_of_length_le (by rw [List.length_drop]; omega)]
  · have hstart : min offset l.length = l.length := Nat.min_eq_right (by omega)
    rw [hstart, List.drop_length, List.take_nil, List.drop_eq_nil_of_le (by omega), List.take_nil]

theorem queryFiles_eq (lower : Char → Char) (hfew : (events (decoded parse files)).length < maxEvents) (q : AuditQuery) :
    (Readable files → queryFiles parse lower files q =
      some ⟨page q.offset.toNat q.limit.toNat (matched parse lower files q),
        (matched parse lower files q).length⟩) ∧
    (¬ Readable files → queryFiles parse lower files q = none) := by
  have hall : newest parse files (List.range (auditRotateFiles + 1)) =
      (events (decoded parse files)).reverse := newest_range files _
  have hread := readFiles_eq parse files (List.range (auditRotateFiles + 1))
    [] (by rw [List.nil_append, hall, List.length_reverse]; exact hfew)
  have hslots : (∀ slot ∈ List.range (auditRotateFiles + 1), ∀ data, files slot = some data →
      Carries 10 65536 1048576 data data.length) ↔ Readable files := by
    simp only [List.mem_range, Readable]
  rw [hslots, hall, List.nil_append] at hread
  unfold queryFiles
  refine ⟨fun h => ?_, fun h => ?_⟩
  · rw [hread.1 h, Option.map_some]
    simp only [slice_eq_page, List.filter_reverse]
    rfl
  · rw [hread.2 h, Option.map_none]

theorem querySQLite_eq (db : Sqlite) (rows : List AuditEvent) (q : AuditQuery) :
    querySQLite db rows q =
      if runs db q (countSQL q) && runs db q (rowsSQL q) then
        some ⟨page q.offset.toNat q.limit.toNat (db.rows (rows.filter (sqlMatches q))),
          (db.rows (rows.filter (sqlMatches q))).length⟩
      else none := by
  unfold querySQLite page
  rw [(db.perm _).length_eq]

/-! ## The length of a statement -/

theorem countSQL_le (q : AuditQuery) : (countSQL q).utf8ByteSize ≤ (rowsSQL q).utf8ByteSize := by
  have hselect : ("SELECT COUNT(*) AS total FROM audit_events WHERE ").utf8ByteSize ≤
      ("SELECT time,ip,user,action,target,result,detail FROM audit_events WHERE ").utf8ByteSize := by
    decide +kernel
  unfold countSQL rowsSQL
  generalize "SELECT COUNT(*) AS total FROM audit_events WHERE " = count at hselect ⊢
  generalize "SELECT time,ip,user,action,target,result,detail FROM audit_events WHERE " = select at hselect ⊢
  simp only [String.utf8ByteSize_append]
  omega

theorem utf8ByteSize_toString (n : ℕ) : (toString (n : Int)).utf8ByteSize = (Nat.toDigits 10 n).length := by
  have hstring : toString (n : Int) = String.ofList (Nat.toDigits 10 n) := Nat.repr_eq_ofList_toDigits
  rw [hstring]
  exact utf8ByteSize_ofList fun c hc => utf8Size_of_isDigit (Nat.isDigit_of_mem_toDigits (by decide) (by decide) hc)

/-- A number of a page has no more digits than the largest one. -/
theorem utf8ByteSize_toString_le {n bound : Int} (hn : 0 ≤ n) (h : n ≤ bound) :
    (toString n).utf8ByteSize ≤ (toString bound).utf8ByteSize := by
  obtain ⟨n, rfl⟩ := Int.eq_ofNat_of_zero_le hn
  obtain ⟨bound, rfl⟩ := Int.eq_ofNat_of_zero_le (Int.le_trans hn h)
  have hle : n ≤ bound := Int.ofNat_le.mp h
  rw [utf8ByteSize_toString, utf8ByteSize_toString, Nat.length_toDigits_le_iff (by decide) Nat.length_toDigits_pos]
  exact Nat.lt_of_le_of_lt hle
    ((Nat.length_toDigits_le_iff (by decide) Nat.length_toDigits_pos).mp (Nat.le_refl _))

theorem rowsSQL_le {q : AuditQuery} {limit offset : Int} (hl : 1 ≤ limit ∧ limit ≤ 2000)
    (ho : 0 ≤ offset ∧ offset ≤ 1000000) :
    (rowsSQL { q with limit, offset }).utf8ByteSize ≤
      (rowsSQL { q with limit := 2000, offset := 1000000 }).utf8ByteSize := by
  have hlimit := utf8ByteSize_toString_le (Int.le_trans (by decide) hl.1) hl.2
  have hoffset := utf8ByteSize_toString_le ho.1 ho.2
  have hclause : clause { q with limit, offset } = clause { q with limit := 2000, offset := 1000000 } := rfl
  unfold rowsSQL
  rw [hclause]
  generalize toString (2000 : Int) = limit' at hlimit ⊢
  generalize toString (1000000 : Int) = offset' at hoffset ⊢
  simp only [String.utf8ByteSize_append]
  omega

/-- Short statements are run. -/
theorem runs_of_fits {q : AuditQuery} (h : Fits q) (db : Sqlite) {limit offset : Int}
    (hl : 1 ≤ limit ∧ limit ≤ 2000) (ho : 0 ≤ offset ∧ offset ≤ 1000000) :
    (runs db { q with limit, offset } (countSQL { q with limit, offset }) &&
      runs db { q with limit, offset } (rowsSQL { q with limit, offset })) = true := by
  have hrows : (rowsSQL { q with limit, offset }).utf8ByteSize < maxArgument :=
    Nat.lt_of_le_of_lt (rowsSQL_le hl ho) h.statement
  have hcount := Nat.lt_of_le_of_lt (countSQL_le { q with limit, offset }) hrows
  have hpatterns : (patterns { q with limit, offset }).any
      (fun p => decide (maxPattern < p.utf8ByteSize)) = false := by
    rw [List.any_eq_false]
    intro p hp hlong
    exact Nat.not_lt.mpr (h.patterns p hp) (of_decide_eq_true hlong)
  rw [runs, runs, hpatterns, decide_eq_true hrows, decide_eq_true hcount, Bool.and_false]
  rfl

/-! ## Orders of the rows -/

/-- Descending times, and `first` before the other events of its time. -/
def Before (first a b : AuditEvent) : Prop :=
  b.time < a.time ∨ a.time = b.time ∧ (a = first ∨ b ≠ first)

instance (first a b : AuditEvent) : Decidable (Before first a b) :=
  inferInstanceAs (Decidable (_ ∨ _))

theorem Before.time_le {first a b : AuditEvent} (h : Before first a b) : b.time ≤ a.time := by
  rcases h with h | ⟨h, _⟩
  · exact h.le
  · exact h.ge

theorem before_total (first a b : AuditEvent) : Before first a b ∨ Before first b a := by
  rcases lt_trichotomy a.time b.time with h | h | h
  · exact Or.inr (Or.inl h)
  · by_cases hb : b = first
    · exact Or.inr (Or.inr ⟨h.symm, Or.inl hb⟩)
    · exact Or.inl (Or.inr ⟨h, Or.inr hb⟩)
  · exact Or.inl (Or.inl h)

theorem Before.trans {first a b c : AuditEvent} (hab : Before first a b) (hbc : Before first b c) :
    Before first a c := by
  rcases hab with hab | ⟨hab, ha⟩
  · exact Or.inl (lt_of_le_of_lt hbc.time_le hab)
  · rcases hbc with hbc | ⟨hbc, hb⟩
    · exact Or.inl (hab ▸ hbc)
    · refine Or.inr ⟨hab.trans hbc, ?_⟩
      rcases ha with ha | ha
      · exact Or.inl ha
      · exact Or.inr (hb.resolve_left ha)

/-- SQLite may answer with one event first among those of its time, and complain where it can. -/
def firstOrder (first : AuditEvent) : Sqlite where
  rows := List.insertionSort (Before first)
  perm := List.perm_insertionSort _
  sorted l := by
    have : Std.Total (Before first) := ⟨before_total first⟩
    have : IsTrans AuditEvent (Before first) := ⟨fun _ _ _ => Before.trans⟩
    exact (List.pairwise_insertionSort (Before first) l).imp Before.time_le
  complains := true

theorem firstOrder_pairwise (first : AuditEvent) (l : List AuditEvent) :
    ((firstOrder first).rows l).Pairwise (Before first) := by
  have : Std.Total (Before first) := ⟨before_total first⟩
  have : IsTrans AuditEvent (Before first) := ⟨fun _ _ _ => Before.trans⟩
  exact List.pairwise_insertionSort (Before first) l

/-! ## When the two ways agree -/

theorem eq_of_page {F G : List AuditEvent} (h : ∀ i < F.length, page i 1 F = page i 1 G)
    (hlen : F.length = G.length) : F = G := by
  refine List.ext_getElem? fun i => ?_
  by_cases hi : i < F.length
  · have hpage := h i hi
    unfold page at hpage
    rw [List.take_one, List.take_one, List.head?_drop, List.head?_drop] at hpage
    cases hF : F[i]? <;> cases hG : G[i]? <;> simp_all
  · rw [List.getElem?_eq_none (by omega), List.getElem?_eq_none (by omega)]

theorem normalize_paged (q : AuditQuery) (limit offset : Int) :
    normalizeAuditQuery { q with limit, offset } =
      { q with
        limit := if limit < 1 ∨ 2000 < limit then 300 else limit
        offset := if offset < 0 ∨ 1000000 < offset then 0 else offset } := by
  unfold normalizeAuditQuery
  by_cases hl : limit < 1 ∨ 2000 < limit <;> by_cases ho : offset < 0 ∨ 1000000 < offset <;>
    simp [hl, ho]

theorem normalize_of_range (q : AuditQuery) {limit offset : Int} (hl : 1 ≤ limit ∧ limit ≤ 2000)
    (ho : 0 ≤ offset ∧ offset ≤ 1000000) :
    normalizeAuditQuery { q with limit, offset } = { q with limit, offset } := by
  rw [normalize_paged, if_neg (by omega), if_neg (by omega)]

/-- The answer of the index on a page that agrees. -/
theorem Agree.page {limit offset : Int} (h : Agree parse lower rows files { q with limit, offset })
    (db : Sqlite) :
    (runs db q (countSQL { q with limit, offset }) && runs db q (rowsSQL { q with limit, offset })) = true ∧
    queryFiles parse lower files { q with limit, offset } =
      some ⟨AuditQueries.page offset.toNat limit.toNat (db.rows (rows.filter (sqlMatches q))),
        (db.rows (rows.filter (sqlMatches q))).length⟩ := by
  obtain ⟨result, hfiles, hindex⟩ := h db
  rw [querySQLite_eq] at hindex
  split at hindex
  · rename_i hruns
    exact ⟨hruns, hfiles.trans hindex.symm⟩
  · cases hindex

/-- Answers that agree on every page are the same lists. -/
theorem rows_of_agree (hfew : (events (decoded parse files)).length < maxEvents)
    (h : ∀ limit offset, Agree parse lower rows files
      (normalizeAuditQuery { q with limit, offset })) :
    Readable files ∧ Fits q ∧
      ∀ db : Sqlite, db.rows (rows.filter (sqlMatches q)) = matched parse lower files q := by
  have hpage : ∀ limit offset : Int, 1 ≤ limit ∧ limit ≤ 2000 → 0 ≤ offset ∧ offset ≤ 1000000 →
      Agree parse lower rows files { q with limit, offset } := by
    intro limit offset hl ho
    have hagree := h limit offset
    rwa [normalize_of_range q hl ho] at hagree
  have hone : ∀ i : ℕ, i ≤ 1000000 → Agree parse lower rows files { q with limit := 1, offset := i } :=
    fun i hi => hpage 1 i (by omega) (by omega)
  have hread : Readable files := by
    by_contra hnot
    have hnone := (queryFiles_eq lower hfew
      { q with limit := 1, offset := ((0 : ℕ) : Int) }).2 hnot
    rw [((hone 0 (Nat.zero_le _)).page (firstOrder ⟨"", "", "", "", "", "", ""⟩)).2] at hnone
    cases hnone
  refine ⟨hread, ?_, fun db => (eq_of_page (fun i hi => ?_) ?_).symm⟩
  · have hruns := ((hpage 2000 1000000 (by decide) (by decide)).page
      (firstOrder ⟨"", "", "", "", "", "", ""⟩)).1
    rw [Bool.and_eq_true] at hruns
    have hrows := hruns.2
    simp only [runs, firstOrder, Bool.true_and, Bool.and_eq_true, decide_eq_true_eq, Bool.not_eq_true',
      List.any_eq_false, Nat.not_lt] at hrows
    exact ⟨hrows.1, hrows.2⟩
  · have hlt : (matched parse lower files q).length < maxEvents := by
      refine lt_of_le_of_lt ?_ hfew
      unfold matched
      rw [List.length_reverse]
      exact List.length_filter_le _ _
    have hi' : i ≤ 1000000 := by
      unfold maxEvents at hlt
      omega
    have hfiles := (queryFiles_eq lower hfew { q with limit := 1, offset := i }).1 hread
    rw [((hone i hi').page db).2] at hfiles
    exact (AuditQueryResult.mk.inj (Option.some.inj hfiles)).1.symm
  · have hfiles := (queryFiles_eq lower hfew
      { q with limit := 1, offset := ((0 : ℕ) : Int) }).1 hread
    rw [((hone 0 (Nat.zero_le _)).page db).2] at hfiles
    exact (AuditQueryResult.mk.inj (Option.some.inj hfiles)).2.symm

/-- Two filters of one list that leave the same elements, in any order, are the same on it. -/
theorem filter_eq_of_perm {l : List AuditEvent} {p p' : AuditEvent → Bool}
    (h : (l.filter p).Perm (l.filter p')) : ∀ e ∈ l, p e = p' e := by
  intro e he
  have hmem := h.mem_iff (a := e)
  rw [List.mem_filter, List.mem_filter] at hmem
  have hiff : p e = true ↔ p' e = true :=
    ⟨fun hp => (hmem.mp ⟨he, hp⟩).2, fun hp => (hmem.mpr ⟨he, hp⟩).2⟩
  exact Bool.eq_iff_iff.mpr hiff

/-- For every page of a query the index answers as the files do, if and only if the files can be read,
the statements are run, the index and the files match the same of the stored events, and the times of
the matching events ascend in the files. -/
theorem agree_iff_matches (hheld : HeldIdentically parse rows files)
    (hfew : (events (decoded parse files)).length < maxEvents) :
    (∀ limit offset, Agree parse lower rows files (normalizeAuditQuery { q with limit, offset })) ↔
      Readable files ∧ Fits q ∧ SameMatches parse lower files q ∧ Ascending parse lower files q := by
  have hrows := hheld.rows
  constructor
  · intro h
    obtain ⟨hread, hfits, hsame⟩ := rows_of_agree hfew h
    refine ⟨hread, hfits, ?_, ?_⟩
    · have hperm := ((firstOrder ⟨"", "", "", "", "", "", ""⟩).perm (rows.filter (sqlMatches q))).symm
      rw [hsame] at hperm
      exact filter_eq_of_perm ((hrows.symm.filter _).trans (hperm.trans (List.reverse_perm _)))
    · -- `a` comes first of its time in one order of the rows, so it does in the files
      refine List.pairwise_iff_forall_sublist.mpr fun {a b} hab => ?_
      have hback : [b, a].Sublist (matched parse lower files q) := hab.reverse
      have hfirst := firstOrder_pairwise a (rows.filter (sqlMatches q))
      rw [hsame (firstOrder a)] at hfirst
      rcases List.pairwise_iff_forall_sublist.mp hfirst hback with hlt | ⟨_, heq | hne⟩
      · exact Or.inl hlt
      · exact Or.inr heq.symm
      · exact absurd rfl hne
  · rintro ⟨hread, hfits, hmatch, hasc⟩ limit offset db
    rw [normalize_paged]
    have hlimit : 1 ≤ (if limit < 1 ∨ 2000 < limit then 300 else limit) ∧
        (if limit < 1 ∨ 2000 < limit then 300 else limit) ≤ 2000 := by split <;> omega
    have hoffset : 0 ≤ (if offset < 0 ∨ 1000000 < offset then 0 else offset) ∧
        (if offset < 0 ∨ 1000000 < offset then 0 else offset) ≤ 1000000 := by split <;> omega
    generalize (if limit < 1 ∨ 2000 < limit then 300 else limit) = limit' at hlimit ⊢
    generalize (if offset < 0 ∨ 1000000 < offset then 0 else offset) = offset' at hoffset ⊢
    refine ⟨_, (queryFiles_eq lower hfew _).1 hread, ?_⟩
    rw [querySQLite_eq, if_pos (runs_of_fits hfits db hlimit hoffset)]
    have hperm : (rows.filter (sqlMatches q)).Perm
        ((events (decoded parse files)).filter (auditMatches lower q)) := by
      rw [← List.filter_congr hmatch]
      exact hrows.filter _
    have heq : db.rows (rows.filter (sqlMatches q)) = matched parse lower files q := by
      have hsame : ∀ a ∈ (events (decoded parse files)).filter (auditMatches lower q),
          ∀ b ∈ (events (decoded parse files)).filter (auditMatches lower q),
            a.time = b.time → a = b := by
        have hpair : ((events (decoded parse files)).filter (auditMatches lower q)).Pairwise
            fun a b => a.time = b.time → a = b := hasc.imp fun hab htime => by
          rcases hab with hlt | heq
          · exact absurd htime hlt.ne
          · exact heq
        have hsymm : Std.Symm fun a b : AuditEvent => a.time = b.time → a = b :=
          ⟨fun _ _ hab htime => (hab htime.symm).symm⟩
        exact hpair.forall_of_forall fun _ _ _ => rfl
      refine List.Perm.eq_of_pairwise ?_ (db.sorted _) ?_
        (((db.perm _).trans hperm).trans (List.reverse_perm _).symm)
      · intro a b ha hb hba hab
        have ha' := hperm.mem_iff.mp ((db.perm _).mem_iff.mp ha)
        exact hsame a ha' b (List.mem_reverse.mp hb) (le_antisymm hab hba)
      · refine List.pairwise_reverse.mpr (hasc.imp fun hab => ?_)
        rcases hab with hlt | rfl
        · exact hlt.le
        · exact le_refl _
    have hmatched : db.rows (rows.filter (sqlMatches { q with limit := limit', offset := offset' }))
        = matched parse lower files { q with limit := limit', offset := offset' } := heq
    rw [hmatched]

/-! ## Queries that both ways answer alike -/

/-- The characters have the lower case of ASCII, or none. -/
def Folded (lower : Char → Char) (s : String) : Prop := ∀ c ∈ s.toList, lower c = c.toLower

/-- The filters have no space around them and no NUL, what is searched for has no wildcard and no letter
of another alphabet that has two cases, and the search text stays on one line. -/
structure PlainQuery (lower : Char → Char) (q : AuditQuery) : Prop where
  trimmed : ∀ v ∈ [q.user, q.ip, q.action, q.result, q.fromTime, q.toTime, q.search],
    trimSpace v = v ∧ withoutNul v = v
  action : Plain q.action.toList ∧ Folded lower q.action
  search : Plain q.search.toList ∧ Folded lower q.search
  line : '\n' ∉ q.search.toList

/-- Nor do the texts of an event that are searched have such a letter. -/
def PlainEvent (lower : Char → Char) (e : AuditEvent) : Prop :=
  ∀ s ∈ [e.action, e.target, e.detail, e.ip, e.user], Folded lower s

instance (lower : Char → Char) (s : String) : Decidable (Folded lower s) :=
  List.decidableBAll (fun c => lower c = c.toLower) s.toList

instance (lower : Char → Char) (e : AuditEvent) : Decidable (PlainEvent lower e) :=
  inferInstanceAs (Decidable (∀ s ∈ _, _))

theorem given_all {filter : String} (htrim : trimSpace filter = filter)
    (condition : String → Condition) (e : AuditEvent) :
    (given filter condition).all (·.holds e) = (filter == "" || (condition filter).holds e) := by
  unfold given
  rw [htrim]
  by_cases h : filter = ""
  · rw [if_pos h, List.all_nil, beq_iff_eq.mpr h, Bool.true_or]
  · rw [if_neg h, List.all_cons, List.all_nil, Bool.and_true, beq_false_of_ne h, Bool.false_or]

theorem Folded.map_lower {s : String} (h : Folded lower s) :
    s.toList.map lower = s.toList.map Char.toLower := List.map_congr_left h

/-- `LIKE` between two `%` is `strings.Contains` in lower case, on plain text. -/
theorem like_eq_contains {text part : String} (hplain : Plain part.toList)
    (hnul : withoutNul part = part) (htext : Folded lower text) (hpart : Folded lower part) :
    like (withoutNul (pattern part)) text = containsLower lower text part := by
  have hpattern : (withoutNul (pattern part)).toList = '%' :: part.toList ++ ['%'] := by
    have hfilter : part.toList.filter (· ≠ '\x00') = part.toList := by
      have hlist := congrArg String.toList hnul
      rwa [withoutNul, String.toList_ofList] at hlist
    rw [withoutNul, String.toList_ofList, pattern, String.toList_append, String.toList_append,
      List.filter_append, List.filter_append, hfilter]
    rfl
  unfold like containsLower
  rw [hpattern, htext.map_lower, hpart.map_lower]
  exact Bool.eq_iff_iff.mpr ((likeChars_occurs hplain _).trans decide_eq_true_iff.symm)

/-- What does not hold the separator is in one of the parts it separates. -/
theorem infix_append_cons {α : Type*} {sep : α} {l x y : List α} (h : sep ∉ l) :
    l <:+: x ++ sep :: y ↔ l <:+: x ∨ l <:+: y := by
  constructor
  · rintro ⟨before, after, heq⟩
    rw [List.append_assoc] at heq
    rcases List.append_eq_append_iff.mp heq with ⟨m, hx, hrest⟩ | ⟨m, hbefore, hrest⟩
    · rcases List.append_eq_append_iff.mp hrest with ⟨n, hm, _⟩ | ⟨n, hl, hn⟩
      · exact Or.inl ⟨before, n, by rw [hx, hm, List.append_assoc]⟩
      · cases n with
        | nil => exact Or.inl ⟨before, [], by rw [hx, hl, List.append_nil, List.append_nil]⟩
        | cons c n =>
          obtain ⟨rfl, _⟩ := List.cons.inj hn
          exact absurd (hl ▸ List.mem_append_right _ List.mem_cons_self) h
    · cases m with
      | nil =>
        rw [List.nil_append] at hrest
        cases l with
        | nil => exact Or.inl List.nil_infix
        | cons c l =>
          obtain ⟨rfl, _⟩ := List.cons.inj hrest
          exact absurd List.mem_cons_self h
      | cons c m =>
        obtain ⟨_, hy⟩ := List.cons.inj hrest
        exact Or.inr ⟨m, after, by rw [List.append_assoc]; exact hy.symm⟩
  · rintro (hx | hy)
    · exact hx.trans (List.prefix_append _ _).isInfix
    · exact hy.trans ((List.suffix_cons sep y).trans (List.suffix_append _ _)).isInfix

theorem toLower_newline {c : Char} (h : c.toLower = '\n') : c = '\n' := by
  by_cases hupper : 'A'.val ≤ c.val ∧ c.val ≤ 'Z'.val
  · have hall : ∀ n < 128, (Char.ofNat n).toLower = '\n' → Char.ofNat n = '\n' := by decide
    rw [← Char.ofNat_toNat c] at h ⊢
    refine hall c.toNat (Nat.lt_of_le_of_lt (UInt32.le_iff_toNat_le.mp hupper.2) (by decide)) h
  · unfold Char.toLower at h
    rwa [dif_neg hupper] at h

/-- **A plain query over plain events is matched alike** by the index and the files. -/
theorem matches_of_plain (hnewline : lower '\n' = '\n') (hq : PlainQuery lower q) {e : AuditEvent}
    (he : PlainEvent lower e) : sqlMatches q e = auditMatches lower q e := by
  obtain ⟨huser, hip, haction, hresult, hfrom, hto, hsearch⟩ := by simpa using hq.trimmed
  obtain ⟨eaction, etarget, edetail, eip, euser⟩ := by simpa [PlainEvent] using he
  have hpattern : ∀ {text : String}, Folded lower text →
      like (withoutNul (pattern q.search)) text = containsLower lower text q.search :=
    fun htext => like_eq_contains hq.search.1 hsearch.2 htext hq.search.2
  have hline : '\n' ∉ q.search.toList.map lower := by
    intro hmem
    obtain ⟨c, hc, heq⟩ := List.mem_map.mp hmem
    rw [hq.search.2 c hc] at heq
    exact hq.line (toLower_newline heq ▸ hc)
  have hjoined : containsLower lower
      (e.action ++ "\n" ++ e.target ++ "\n" ++ e.detail ++ "\n" ++ e.ip ++ "\n" ++ e.user)
      q.search = (containsLower lower e.action q.search || containsLower lower e.target q.search ||
        containsLower lower e.detail q.search || containsLower lower e.ip q.search ||
        containsLower lower e.user q.search) := by
    unfold containsLower
    refine Bool.eq_iff_iff.mpr ?_
    simp only [String.toList_append, List.map_append, Bool.or_eq_true, decide_eq_true_eq]
    have hsep : ("\n".toList).map lower = ['\n'] := by
      rw [show "\n".toList = ['\n'] from rfl, List.map_singleton, hnewline]
    simp only [hsep, List.append_assoc, List.cons_append, List.nil_append,
      infix_append_cons hline, or_assoc]
  unfold sqlMatches conditions auditMatches
  simp only [List.all_append]
  rw [given_all huser.1, given_all hip.1, given_all haction.1, given_all hresult.1,
    given_all hfrom.1, given_all hto.1, given_all hsearch.1]
  dsimp only
  rw [huser.2, hip.2, hresult.2, hfrom.2, hto.2,
    like_eq_contains hq.action.1 haction.2 eaction hq.action.2, hpattern eaction,
    hpattern etarget, hpattern edetail, hpattern eip, hpattern euser, hjoined]
  simp only [← not_lt, decide_not]

theorem carries_of_short {data : List UInt8} (h : data.length ≤ 65536) :
    Carries 10 65536 1048576 data data.length := fun k hk => by omega

def storedEvent : AuditEvent :=
  ⟨"2025-01-02T03:04:05Z", "203.0.113.7", "admin", "files.write", "/etc/hosts", "success", ""⟩

/-- The line of the event, without its end. -/
def storedLine : List UInt8 :=
  ("\x7b\"time\":\"2025-01-02T03:04:05Z\",\"ip\":\"203.0.113.7\",\"user\":\"admin\"," ++
    "\"action\":\"files.write\",\"target\":\"/etc/hosts\",\"result\":\"success\"\x7d").toList.map
      fun c => c.toNat.toUInt8

def storedFiles : Slots UInt8 := fun slot => if slot = 0 then some (storedLine ++ [10]) else none

def parseStored (line : List UInt8) : Option AuditEvent :=
  if line = storedLine then some storedEvent else none

def searchFor (text : String) : AuditQuery := ⟨text, "", "", "", "", "", "", 100, 0⟩

theorem events_stored : events (decoded parseStored storedFiles) = [storedEvent] := by
  decide +kernel

theorem storedEvent_held : HeldIdentically parseStored [storedEvent] storedFiles := by
  constructor
  · rw [events_stored]
  · rw [events_stored]
    decide +kernel

theorem stored_below : (events (decoded parseStored storedFiles)).length < maxEvents := by
  rw [events_stored]
  decide

/-- An invalid line that is longer than a block. -/
def longLine : List UInt8 := List.replicate 70000 120

theorem length_longLine : longLine.length = 70000 := List.length_replicate

theorem newline_not_mem_longLine : 10 ∉ longLine := fun h =>
  absurd (List.eq_of_mem_replicate h) (by decide)

/-- The last block holds a part of a line, which is carried over. -/
theorem readAuditTail_stored :
    readAuditTail parseStored (storedLine ++ 10 :: longLine) 1 = some [storedEvent] := by
  have hstored : 10 ∉ storedLine := by decide +kernel
  have hlength : storedLine.length < 1000 := by decide +kernel
  have hsplit : (storedLine ++ 10 :: longLine).splitOn 10 = [storedLine, longLine] := by
    rw [List.splitOn_append_cons_self_of_not_mem hstored,
      List.splitOn_eq_singleton newline_not_mem_longLine]
  have hlines : ∀ line ∈ (storedLine ++ 10 :: longLine).splitOn 10, line.length ≤ 1048576 := by
    intro line hline
    rw [hsplit, List.mem_cons, List.mem_singleton] at hline
    rcases hline with hline | hline
    · rw [hline]
      omega
    · rw [hline, length_longLine]
      omega
  have hread : parseLine parseStored storedLine = some storedEvent := by decide +kernel
  have hinvalid : parseLine parseStored longLine = none := by
    have hne : longLine ≠ storedLine := fun heq => by
      rw [← heq, length_longLine] at hlength
      omega
    unfold parseLine parseStored
    rw [if_neg hne, ite_self]
  rw [readAuditTail_eq parseStored _ 1 hlines, hsplit, List.filterMap_cons_some hread,
    List.filterMap_cons_none hinvalid]
  rfl

end

end LukePanel.Server.AuditQueries
