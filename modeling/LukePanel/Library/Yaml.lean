import LukePanel.Library.YamlScalars
import Mathlib.Data.List.Nodup

/-! # Documents of YAML

Mappings and sequences in block style, with a scalar on one line in each place; anything else is
refused. -/
namespace LukePanel.Library.Yaml

inductive Node where
  | scalar (value : Scalar)
  | seq (items : List Node)
  | map (entries : List (Scalar × Node))

/-! ## Lines -/

inductive Head where
  | key (name : Scalar)
  | item
  | alone
  deriving DecidableEq

structure Line where
  indent : ℕ
  head : Head
  value : Option Scalar
  deriving DecidableEq

/-- What stands behind a key or a dash. -/
def behind : Text → Option (Option Scalar)
  | [] => some none
  | c :: rest =>
    if c = ' ' then
      let rest := rest.dropWhile (· = ' ')
      if rest = [] then some none
      else match scalar rest with
        | some (value, []) => some (some value)
        | _ => none
    else none

def content (text : Text) : Option (Head × Option Scalar) :=
  match text with
  | '-' :: rest => (behind rest).map fun value => (.item, value)
  | _ =>
    match scalar text with
    | some (value, []) => some (.alone, some value)
    | some (name, ':' :: rest) => (behind rest).map fun value => (.key name, value)
    | _ => none

/-- A line, if it has content. -/
def readLine (text : Text) : Option (Option Line) :=
  let body := text.dropWhile (· = ' ')
  if body = [] ∨ body.head? = some '#' then some none
  else (content body).map fun c => some ⟨(text.takeWhile (· = ' ')).length, c.1, c.2⟩

def readLines : List Text → Option (List Line)
  | [] => some []
  | text :: rest =>
    match readLine text, readLines rest with
    | some line, some lines => some (line.toList ++ lines)
    | _, _ => none

/-! ## Blocks -/

/-- A line with everything under it. -/
structure Block where
  indent : ℕ
  head : Head
  node : Node

def Block.entry (b : Block) : Option (Scalar × Node) :=
  match b.head with
  | .key name => some (name, b.node)
  | _ => none

/-- The node that blocks are; a mapping has each key once. -/
def assemble : List Block → Option Node
  | [] => some (.scalar .null)
  | b :: rest =>
    match b.head with
    | .alone => if rest.isEmpty then some b.node else none
    | .item =>
      if rest.all fun b' => b'.indent = b.indent && b'.head = .item then
        some (.seq (b.node :: rest.map Block.node))
      else none
    | .key _ =>
      let entries := (b :: rest).filterMap Block.entry
      if (rest.all fun b' => b'.indent = b.indent && b'.entry.isSome) &&
          decide (entries.map Prod.fst).Nodup then
        some (.map entries)
      else none

/-- A line takes the blocks behind it that are indented deeper. -/
def push (line : Line) (blocks : List Block) : Option (List Block) :=
  let inner := blocks.takeWhile (line.indent < ·.indent)
  let node : Option Node := match line.value with
    | some value => if inner.isEmpty then some (.scalar value) else none
    | none => assemble inner
  node.map fun node => ⟨line.indent, line.head, node⟩ :: blocks.dropWhile (line.indent < ·.indent)

def readOnto (blocks : List Block) : List Line → Option (List Block)
  | [] => some blocks
  | line :: rest => (readOnto blocks rest).bind (push line)

def isBreak (c : Char) : Bool := c = '\n' || c = '\r'

def parse (text : Text) : Option Node :=
  (readLines (text.splitOnP isBreak)).bind fun lines => (readOnto [] lines).bind assemble

variable {n : ℕ}

/-! ## Blocks that are read -/

theorem readOnto_append (blocks : List Block) (lines lines' : List Line) :
    readOnto blocks (lines ++ lines') = (readOnto blocks lines').bind (readOnto · lines) := by
  induction lines with
  | nil => exact (Option.bind_fun_some _).symm
  | cons line rest ih =>
    rw [List.cons_append, readOnto, ih, Option.bind_assoc]
    rfl

/-- Blocks that are not in the way of a line indented by `n`. -/
def Clear (n : ℕ) (blocks : List Block) : Prop := ∀ b, blocks.head? = some b → b.indent ≤ n

/-- In front of what is not indented deeper, the lines are blocks indented by `n`. -/
def Reads (n : ℕ) (lines : List Line) (blocks : List Block) : Prop :=
  (∀ b ∈ blocks, b.indent = n) ∧
    ∀ after, Clear n after → readOnto after lines = some (blocks ++ after)

theorem reads_nil : Reads n [] [] := ⟨fun _ hb => absurd hb List.not_mem_nil, fun _ _ => rfl⟩

theorem clear_append {blocks after : List Block} (h : ∀ b ∈ blocks, b.indent = n)
    (hafter : Clear n after) : Clear n (blocks ++ after) := by
  cases blocks with
  | nil => exact hafter
  | cons b rest =>
    intro b' hb'
    obtain rfl : b = b' := Option.some.inj hb'
    exact (h b List.mem_cons_self).le

theorem Reads.append {lines lines' : List Line} {blocks blocks' : List Block} (h : Reads n lines blocks)
    (h' : Reads n lines' blocks') : Reads n (lines ++ lines') (blocks ++ blocks') := by
  refine ⟨List.forall_mem_append.mpr ⟨h.1, h'.1⟩, fun after hafter => ?_⟩
  rw [readOnto_append, h'.2 after hafter, Option.bind_some, h.2 _ (clear_append h'.1 hafter),
    List.append_assoc]

theorem takeWhile_clear {after : List Block} (h : Clear n after) :
    after.takeWhile (n < ·.indent) = [] ∧ after.dropWhile (n < ·.indent) = after := by
  cases after with
  | nil => exact ⟨rfl, rfl⟩
  | cons b rest =>
    have hb : ¬ (decide (n < b.indent)) = true := by
      rw [decide_eq_true_iff]
      exact (h b rfl).not_gt
    exact ⟨List.takeWhile_cons_of_neg hb, List.dropWhile_cons_of_neg hb⟩

theorem reads_leaf (head : Head) (value : Scalar) :
    Reads n [⟨n, head, some value⟩] [⟨n, head, .scalar value⟩] := by
  refine ⟨fun b hb => by rw [List.mem_singleton.mp hb], fun after hafter => ?_⟩
  obtain ⟨htake, hdrop⟩ := takeWhile_clear hafter
  rw [readOnto, readOnto, Option.bind_some, push, htake, hdrop]
  rfl

theorem readOnto_branch {m : ℕ} (hm : n < m) (head : Head) {lines : List Line} {inner : List Block}
    (h : Reads m lines inner) {after : List Block} (hafter : Clear n after) :
    readOnto after (⟨n, head, none⟩ :: lines) =
      (assemble inner).map fun node => ⟨n, head, node⟩ :: after := by
  obtain ⟨htake, hdrop⟩ := takeWhile_clear hafter
  have hdeeper : ∀ b ∈ inner, decide (n < b.indent) = true := by
    intro b hb
    rw [h.1 b hb]
    exact decide_eq_true hm
  have hclear : Clear m after := fun b hb => (hafter b hb).trans hm.le
  have htake' : (inner ++ after).takeWhile (n < ·.indent) = inner := by
    rw [List.takeWhile_append_of_pos hdeeper, htake, List.append_nil]
  have hdrop' : (inner ++ after).dropWhile (n < ·.indent) = after := by
    rw [List.dropWhile_append_of_pos hdeeper, hdrop]
  rw [readOnto, h.2 after hclear, Option.bind_some, push, htake', hdrop']

theorem reads_branch {m : ℕ} (hm : n < m) (head : Head) {lines : List Line} {inner : List Block}
    (h : Reads m lines inner) {node : Node} (hnode : assemble inner = some node) :
    Reads n (⟨n, head, none⟩ :: lines) [⟨n, head, node⟩] := by
  refine ⟨fun b hb => by rw [List.mem_singleton.mp hb], fun after hafter => ?_⟩
  rw [readOnto_branch hm head h hafter, hnode]
  rfl

/-! ## Lines that are written -/

/-- Pieces of a text between breaks, and the blocks they are. -/
def Writes (n : ℕ) (pieces : List Text) (blocks : List Block) : Prop :=
  (∀ piece ∈ pieces, ∀ c ∈ piece, isBreak c = false) ∧
    ∃ lines, readLines pieces = some lines ∧ Reads n lines blocks

theorem readLines_append {pieces pieces' : List Text} {lines lines' : List Line}
    (h : readLines pieces = some lines) (h' : readLines pieces' = some lines') :
    readLines (pieces ++ pieces') = some (lines ++ lines') := by
  induction pieces generalizing lines with
  | nil =>
    cases h
    exact h'
  | cons piece rest ih =>
    rw [readLines] at h
    split at h
    · rename_i line more hline hmore
      cases h
      rw [List.cons_append, readLines, hline, ih hmore, List.append_assoc]
    · cases h

theorem writes_nil : Writes n [] [] := ⟨fun _ h => absurd h List.not_mem_nil, [], rfl, reads_nil⟩

theorem Writes.append {pieces pieces' : List Text} {blocks blocks' : List Block}
    (h : Writes n pieces blocks) (h' : Writes n pieces' blocks') :
    Writes n (pieces ++ pieces') (blocks ++ blocks') := by
  obtain ⟨hbreak, lines, hlines, hreads⟩ := h
  obtain ⟨hbreak', lines', hlines', hreads'⟩ := h'
  exact ⟨List.forall_mem_append.mpr ⟨hbreak, hbreak'⟩, lines ++ lines', readLines_append hlines hlines',
    hreads.append hreads'⟩

variable {piece : Text}

theorem writes_leaf (hbreak : ∀ c ∈ piece, isBreak c = false) {head : Head} {value : Scalar}
    (h : readLine piece = some (some ⟨n, head, some value⟩)) :
    Writes n [piece] [⟨n, head, .scalar value⟩] := by
  refine ⟨List.forall_mem_singleton.mpr hbreak, _, ?_, reads_leaf head value⟩
  rw [readLines, h]
  rfl

theorem writes_branch {m : ℕ} (hm : n < m) (hbreak : ∀ c ∈ piece, isBreak c = false) {head : Head}
    (h : readLine piece = some (some ⟨n, head, none⟩)) {pieces : List Text} {inner : List Block}
    (hinner : Writes m pieces inner) {node : Node} (hnode : assemble inner = some node) :
    Writes n (piece :: pieces) [⟨n, head, node⟩] := by
  obtain ⟨hbreaks, lines, hlines, hreads⟩ := hinner
  refine ⟨List.forall_mem_cons.mpr ⟨hbreak, hbreaks⟩, _, ?_, reads_branch hm head hreads hnode⟩
  rw [readLines, h, hlines]
  rfl

/-- A test that breaks do not pass. -/
theorem isBreak_of_test (test : Char → Bool) (hlf : test '\n' = false) (hcr : test '\r' = false)
    {c : Char} (h : test c = true) : isBreak c = false := by
  rw [isBreak, Bool.or_eq_false_iff, decide_eq_false_iff_not, decide_eq_false_iff_not]
  constructor
  · rintro rfl
    exact absurd h (Bool.eq_false_iff.mp hlf)
  · rintro rfl
    exact absurd h (Bool.eq_false_iff.mp hcr)

theorem splitOnP_pieces {pieces : List Text} (h : ∀ piece ∈ pieces, ∀ c ∈ piece, isBreak c = false) :
    (pieces.flatMap (· ++ ['\n'])).splitOnP isBreak = pieces ++ [[]] := by
  induction pieces with
  | nil => rfl
  | cons piece rest ih =>
    rw [List.forall_mem_cons] at h
    rw [List.flatMap_cons, List.append_assoc, List.singleton_append,
      List.splitOnP_append_cons piece _ (by decide : isBreak '\n' = true), ih h.2,
      List.splitOnP_eq_singleton h.1]
    rfl

theorem parse_pieces {pieces : List Text} (hbreak : ∀ piece ∈ pieces, ∀ c ∈ piece, isBreak c = false)
    {lines : List Line} (hlines : readLines pieces = some lines) :
    parse (pieces.flatMap (· ++ ['\n'])) = (readOnto [] lines).bind assemble := by
  have hend : readLines [[]] = some [] := rfl
  rw [parse, splitOnP_pieces hbreak, readLines_append hlines hend, List.append_nil, Option.bind_some]

/-! ## Single lines -/

theorem readLine_indent {first : Char} {body : Text} (hspace : first ≠ ' ') (hhash : first ≠ '#') :
    readLine (List.replicate n ' ' ++ first :: body) =
      (content (first :: body)).map fun c => some ⟨n, c.1, c.2⟩ := by
  have hspaces : ∀ c ∈ List.replicate n ' ', decide (c = ' ') = true := by
    intro c hc
    rw [(List.mem_replicate.mp hc).2]
    rfl
  have hdropFirst : (first :: body).dropWhile (· = ' ') = first :: body :=
    List.dropWhile_cons_of_neg (by rwa [decide_eq_true_iff])
  have htakeFirst : (first :: body).takeWhile (· = ' ') = [] :=
    List.takeWhile_cons_of_neg (by rwa [decide_eq_true_iff])
  have hdrop : (List.replicate n ' ' ++ first :: body).dropWhile (· = ' ') = first :: body := by
    rw [List.dropWhile_append_of_pos hspaces, hdropFirst]
  have htake : (List.replicate n ' ' ++ first :: body).takeWhile (· = ' ') = List.replicate n ' ' := by
    rw [List.takeWhile_append_of_pos hspaces, htakeFirst, List.append_nil]
  have hbody : ¬ (first :: body = [] ∨ (first :: body).head? = some '#') := by
    rintro (h | h)
    · cases h
    · exact hhash (Option.some.inj h)
  rw [readLine, hdrop, htake, List.length_replicate, if_neg hbody]

theorem behind_scalar {text : Text} {value : Scalar} (h : scalar text = some (value, [])) :
    behind (' ' :: text) = some (some value) := by
  have hdrop : text.dropWhile (· = ' ') = text := by
    cases text with
    | nil => rfl
    | cons c rest =>
      refine List.dropWhile_cons_of_neg ?_
      rw [decide_eq_true_iff]
      rintro rfl
      cases h
  have hne : text ≠ [] := by
    rintro rfl
    cases h
  rw [behind, if_pos rfl, hdrop]
  dsimp only
  rw [if_neg hne, h]

theorem content_key {first : Char} {name rest : Text} (hfirst : first.isAlphanum = true)
    (hname : ∀ c ∈ name, isPlain c = true) :
    content (first :: name ++ ':' :: rest) =
      (behind rest).map fun value => (.key (resolve (first :: name)), value) := by
  have hdash : first ≠ '-' := by
    rintro rfl
    exact absurd hfirst (by decide)
  have hscalar : scalar (first :: name ++ ':' :: rest) = _ := scalar_plain hfirst hname rfl
  rw [List.cons_append] at hscalar
  rw [List.cons_append, content]
  · rw [hscalar]
    rfl
  · intro rest heq
    exact hdash (List.cons.inj heq).1

theorem content_item {text : Text} {value : Scalar} (h : scalar text = some (value, [])) :
    content ('-' :: ' ' :: text) = some (.item, some value) := by
  rw [content, behind_scalar h]
  rfl

/-! ## Sequences and mappings -/

theorem assemble_items {nodes : List Node} (hne : nodes ≠ []) :
    assemble (nodes.map fun node => ⟨n, .item, node⟩) = some (.seq nodes) := by
  cases nodes with
  | nil => exact absurd rfl hne
  | cons node rest => simp [assemble, Function.comp_def]

theorem filterMap_entry (entries : List (Scalar × Node)) :
    (entries.map fun e => (⟨n, .key e.1, e.2⟩ : Block)).filterMap Block.entry = entries := by
  rw [List.filterMap_map]
  exact List.filterMap_some

theorem assemble_entries {entries : List (Scalar × Node)} (hne : entries ≠ []) :
    assemble (entries.map fun e => ⟨n, .key e.1, e.2⟩) =
      if (entries.map Prod.fst).Nodup then some (.map entries) else none := by
  cases entries with
  | nil => exact absurd rfl hne
  | cons e rest =>
    have hentries := filterMap_entry (n := n) (e :: rest)
    have hall : ((rest.map fun e => (⟨n, .key e.1, e.2⟩ : Block)).all fun b =>
        b.indent = n && b.entry.isSome) = true := by
      simp [Block.entry]
    rw [List.map_cons] at hentries
    rw [List.map_cons, assemble]
    dsimp only
    simp only [hentries, hall, Bool.true_and, decide_eq_true_eq]

end LukePanel.Library.Yaml
