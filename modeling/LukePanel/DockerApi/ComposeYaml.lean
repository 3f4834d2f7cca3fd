import LukePanel.DockerApi.ComposeWizard

/-! # What the file of the wizard says -/
namespace LukePanel.DockerApi.ComposeYaml
open LukePanel.Library LukePanel.Library.GoStrings LukePanel.Library.SlashPath
open LukePanel.Library.Attempt LukePanel.Library.Attempt.Prog
open LukePanel.Library.Yaml LukePanel.DockerApi.ComposeWizard

/-! ## What was requested -/

def keyOf (s : String) : Scalar := .str s.toList

def textOf (s : String) : Node := .scalar (.str s.toList)

def listEntry (name : String) (values : List String) : List (Scalar × Node) :=
  if values = [] then [] else [(keyOf name, .seq (values.map textOf))]

def cleaned (values : List String) : List String := (values.map trimSpace).filter (· ≠ "")

def containerEntry (value : String) : List (Scalar × Node) :=
  if value = "" then [] else [(keyOf "container_name", textOf value)]

def serviceEntries (service : ComposeWizardService) : List (Scalar × Node) :=
  [(keyOf "image", textOf (trimSpace service.image))] ++
    (containerEntry (trimSpace service.containerName) ++
      ([(keyOf "restart", textOf (restartOf service))] ++
        (listEntry "environment" (cleaned service.environment) ++
          (listEntry "ports" (cleaned service.ports) ++
            (listEntry "volumes" (cleaned service.volumes) ++ listEntry "command" service.command)))))

/-- The project as it was requested: names and values are strings. -/
def requested (request : ComposeWizardRequest) : Node :=
  .map [(keyOf "services", .map (request.services.map fun service =>
    (keyOf (trimSpace service.name), .map (serviceEntries service))))]

/-- The file of the project is the project that was requested. -/
def Faithful (request : ComposeWizardRequest) (path : String) (disk : Disk) : Prop :=
  ∃ text, disk path = some text ∧ parse text.toList = some (requested request)

variable {table : Char → Bool} {n : ℕ}

/-! ## Text that is blocks -/

/-- The text is lines, and these are blocks indented by `n`. -/
def Written (n : ℕ) (s : String) (blocks : List Block) : Prop :=
  ∃ pieces, s.toList = pieces.flatMap (· ++ ['\n']) ∧ Writes n pieces blocks

theorem written_empty : Written n "" [] := ⟨[], rfl, writes_nil⟩

theorem Written.append {s s' : String} {blocks blocks' : List Block} (h : Written n s blocks)
    (h' : Written n s' blocks') : Written n (s ++ s') (blocks ++ blocks') := by
  obtain ⟨pieces, htext, hwrites⟩ := h
  obtain ⟨pieces', htext', hwrites'⟩ := h'
  refine ⟨pieces ++ pieces', ?_, hwrites.append hwrites'⟩
  rw [String.toList_append, htext, htext', List.flatMap_append]

/-- The text is entries of a mapping that are indented by `n`. -/
def Entries (n : ℕ) (s : String) (entries : List (Scalar × Node)) : Prop :=
  Written n s (entries.map fun e => ⟨n, .key e.1, e.2⟩)

theorem entries_empty : Entries n "" [] := written_empty

theorem Entries.append {s s' : String} {entries entries' : List (Scalar × Node)}
    (h : Entries n s entries) (h' : Entries n s' entries') :
    Entries n (s ++ s') (entries ++ entries') := by
  have happend := Written.append h h'
  rwa [← List.map_append] at happend

theorem isBreak_of_isPlain {c : Char} (h : isPlain c = true) : isBreak c = false :=
  isBreak_of_test isPlain (by decide) (by decide) h

/-- A name that YAML reads as one scalar. -/
def IsName (name : Text) : Prop :=
  ∃ c rest, name = c :: rest ∧ c.isAlphanum = true ∧ ∀ d ∈ rest, isPlain d = true

theorem IsName.isBreak {name : Text} (h : IsName name) : ∀ c ∈ name, isBreak c = false := by
  obtain ⟨c, rest, rfl, hc, hrest⟩ := h
  refine List.forall_mem_cons.mpr ⟨isBreak_of_isPlain ?_, fun d hd => isBreak_of_isPlain (hrest d hd)⟩
  rw [isPlain, hc]
  rfl

/-- The line of a key. -/
theorem readLine_key {name : Text} (h : IsName name) (rest : Text) :
    readLine (List.replicate n ' ' ++ (name ++ ':' :: rest)) =
      (behind rest).map fun value => some ⟨n, .key (resolve name), value⟩ := by
  obtain ⟨c, more, rfl, hc, hmore⟩ := h
  have hspace : c ≠ ' ' := by
    rintro rfl
    exact absurd hc (by decide)
  have hhash : c ≠ '#' := by
    rintro rfl
    exact absurd hc (by decide)
  have hcontent := @content_key c more rest hc hmore
  rw [List.cons_append] at hcontent
  rw [List.cons_append, readLine_indent hspace hhash, hcontent, Option.map_map]
  rfl

theorem isBreak_of_spaces {c : Char} (h : c ∈ List.replicate n ' ') : isBreak c = false := by
  rw [(List.mem_replicate.mp h).2]
  rfl

theorem toList_yamlQuote (value : String) :
    (yamlQuote table value).toList = GoQuote.quote table value.toList := String.toList_ofList

/-- A key with a value in quotes. -/
theorem entries_value {start : String} {name : Text} (h : IsName name)
    (hstart : start.toList = List.replicate n ' ' ++ (name ++ [':', ' '])) (value : String) :
    Entries n (start ++ yamlQuote table value ++ "\n") [(resolve name, textOf value)] := by
  let line := List.replicate n ' ' ++ (name ++ ':' :: ' ' :: GoQuote.quote table value.toList)
  have hline : readLine line = some (some ⟨n, .key (resolve name), some (.str value.toList)⟩) := by
    rw [readLine_key h, behind_scalar (GoQuote.scalar_quote value.toList)]
    rfl
  have hbreak : ∀ c ∈ line, isBreak c = false := by
    refine List.forall_mem_append.mpr ⟨fun c => isBreak_of_spaces, ?_⟩
    refine List.forall_mem_append.mpr ⟨h.isBreak, List.forall_mem_cons.mpr ⟨rfl, ?_⟩⟩
    exact List.forall_mem_cons.mpr ⟨rfl, fun c => GoQuote.isBreak_of_quote⟩
  refine ⟨[line], ?_, writes_leaf hbreak hline⟩
  have hnewline : "\n".toList = ['\n'] := rfl
  rw [String.toList_append, String.toList_append, hstart, toList_yamlQuote, hnewline,
    List.flatMap_singleton, List.append_assoc (List.replicate n ' '), List.append_assoc name]
  rfl

/-- A key with something under it. -/
theorem entries_under {m : ℕ} (hm : n < m) {start : String} {name : Text} (h : IsName name)
    (hstart : start.toList = List.replicate n ' ' ++ (name ++ [':', '\n'])) {s : String}
    {inner : List Block} (hs : Written m s inner) {node : Node} (hnode : assemble inner = some node) :
    Entries n (start ++ s) [(resolve name, node)] := by
  obtain ⟨pieces, htext, hwrites⟩ := hs
  let line := List.replicate n ' ' ++ (name ++ [':'])
  have hline : readLine line = some (some ⟨n, .key (resolve name), none⟩) := readLine_key h []
  have hbreak : ∀ c ∈ line, isBreak c = false :=
    List.forall_mem_append.mpr ⟨fun c => isBreak_of_spaces, List.forall_mem_append.mpr ⟨h.isBreak,
      List.forall_mem_singleton.mpr rfl⟩⟩
  refine ⟨line :: pieces, ?_, writes_branch hm hbreak hline hwrites hnode⟩
  have hcut : start.toList = line ++ ['\n'] := by
    rw [hstart, List.append_assoc, List.append_assoc]
    rfl
  rw [String.toList_append, htext, hcut, List.flatMap_cons]

/-- A dash with a value in quotes. -/
theorem written_item (value : String) :
    Written 6 ("      - " ++ yamlQuote table value ++ "\n") [⟨6, .item, textOf value⟩] := by
  let line := List.replicate 6 ' ' ++ '-' :: ' ' :: GoQuote.quote table value.toList
  have hline : readLine line = some (some ⟨6, .item, some (.str value.toList)⟩) := by
    rw [readLine_indent (by decide) (by decide), content_item (GoQuote.scalar_quote value.toList)]
    rfl
  have hbreak : ∀ c ∈ line, isBreak c = false := by
    refine List.forall_mem_append.mpr ⟨fun c => isBreak_of_spaces, List.forall_mem_cons.mpr ⟨rfl, ?_⟩⟩
    exact List.forall_mem_cons.mpr ⟨rfl, fun c => GoQuote.isBreak_of_quote⟩
  refine ⟨[line], ?_, writes_leaf hbreak hline⟩
  have hnewline : "\n".toList = ['\n'] := rfl
  rw [String.toList_append, String.toList_append, toList_yamlQuote, hnewline,
    List.flatMap_singleton]
  rfl

/-! ## The text of a service -/

theorem written_items (values : List String) :
    Written 6 (writeItems table values) (values.map fun value => ⟨6, .item, textOf value⟩) := by
  induction values with
  | nil => exact written_empty
  | cons value rest ih => exact (written_item value).append ih

/-- A name of the file itself, which is a string. -/
structure Keyword (name : String) : Prop where
  isName : IsName name.toList
  resolve : resolve name.toList = keyOf name

theorem entries_list {name : String} (h : Keyword name) {start : String}
    (hstart : start.toList = List.replicate 4 ' ' ++ (name.toList ++ [':', '\n'])) {values : List String}
    (hne : values ≠ []) : Entries 4 (start ++ writeItems table values) (listEntry name values) := by
  have hnode : assemble (values.map fun value => ⟨6, .item, textOf value⟩) =
      some (.seq (values.map textOf)) := by
    have hmap : values.map textOf ≠ [] := by rwa [ne_eq, List.map_eq_nil_iff]
    have hitems := @assemble_items 6 _ hmap
    rwa [List.map_map] at hitems
  rw [listEntry, if_neg hne, ← h.resolve]
  exact entries_under (by decide) h.isName hstart (written_items values) hnode

theorem cleaned_of_ok {name : String} {values clean : List String}
    (h : cleanValues name values = .ok clean) : clean = cleaned values := by
  induction values generalizing clean with
  | nil =>
    cases h
    rfl
  | cons value rest ih =>
    rw [cleanValues] at h
    rcases ite_eq_ok h with ⟨hempty, h⟩ | ⟨hempty, h⟩
    · rw [ih h, cleaned, cleaned, List.map_cons, List.filter_cons_of_neg (by simpa using hempty)]
    · obtain ⟨-, h⟩ := guard_eq_ok h
      obtain ⟨more, hmore, h⟩ := bind_eq_ok h
      cases h
      rw [ih hmore, cleaned, cleaned, List.map_cons, List.filter_cons_of_pos (by simpa using hempty)]

theorem toList_start {before : String} (hbefore : before.toList = List.replicate n ' ') (name : String) :
    (before ++ name ++ ":\n").toList = List.replicate n ' ' ++ (name.toList ++ [':', '\n']) := by
  have hcolon : ":\n".toList = [':', '\n'] := rfl
  rw [String.toList_append, String.toList_append, hbefore, hcolon, List.append_assoc]

theorem entries_composeList {name : String} (h : Keyword name) {values : List String} {text : String}
    (htext : writeComposeList table name values = .ok text) :
    Entries 4 text (listEntry name (cleaned values)) := by
  obtain ⟨clean, hclean, htext⟩ := bind_eq_ok htext
  rw [← cleaned_of_ok hclean]
  rcases ite_eq_ok htext with ⟨hempty, htext⟩ | ⟨hempty, htext⟩
  · cases htext
    rw [listEntry, if_pos hempty]
    exact entries_empty
  · cases htext
    exact entries_list h (toList_start rfl name) hempty

theorem isName_of_pattern {name : String} (h : composeProjectPattern name = true) :
    IsName name.toList := by
  rw [composeProjectPattern] at h
  split at h
  · cases h
  · rename_i c rest hchars
    simp only [Bool.and_eq_true, List.all_eq_true] at h
    exact ⟨c, rest, hchars, h.1.1, h.2⟩

theorem keyword {name : String} (h : composeProjectPattern name = true)
    (htyped : isTyped name.toList = false) : Keyword name :=
  ⟨isName_of_pattern h, resolve_eq_str_iff.mpr ⟨htyped, rfl⟩⟩

/-- The keys of a service. -/
def serviceKeys : List String :=
  ["image", "container_name", "restart", "environment", "ports", "volumes", "command"]

theorem keyword_of_mem {name : String} (h : name ∈ serviceKeys) : Keyword name := by
  have hkeys : ∀ name ∈ serviceKeys,
      composeProjectPattern name = true ∧ isTyped name.toList = false := by decide +kernel
  exact keyword (hkeys name h).1 (hkeys name h).2

theorem entries_command {values : List String} {text : String}
    (htext : writeCommand table values = .ok text) : Entries 4 text (listEntry "command" values) := by
  have hkeyword : Keyword "command" := keyword_of_mem (by decide)
  rw [writeCommand] at htext
  rcases ite_eq_ok htext with ⟨hempty, htext⟩ | ⟨hempty, htext⟩
  · cases htext
    rw [listEntry, if_pos hempty]
    exact entries_empty
  · rcases ite_eq_ok htext with ⟨-, htext⟩ | ⟨-, htext⟩
    · cases htext
    · cases htext
      exact entries_list hkeyword rfl hempty

theorem entries_keyword {start name : String} (h : Keyword name)
    (hstart : start.toList = List.replicate 4 ' ' ++ (name.toList ++ [':', ' '])) (value : String) :
    Entries 4 (start ++ yamlQuote table value ++ "\n") [(keyOf name, textOf value)] := by
  rw [← h.resolve]
  exact entries_value h.isName hstart value

theorem entries_containerName (value : String) :
    Entries 4 (writeContainerName table value) (containerEntry value) := by
  rw [writeContainerName, containerEntry]
  split
  · exact entries_empty
  · exact entries_keyword (keyword_of_mem (by decide)) rfl value

/-! ## The keys of a service -/

theorem keys_listEntry (name : String) (values : List String) :
    ((listEntry name values).map Prod.fst).Sublist [keyOf name] := by
  rw [listEntry]
  split
  · exact List.nil_sublist _
  · exact List.Sublist.refl _

theorem keys_containerEntry (value : String) :
    ((containerEntry value).map Prod.fst).Sublist [keyOf "container_name"] := by
  rw [containerEntry]
  split
  · exact List.nil_sublist _
  · exact List.Sublist.refl _

theorem nodup_keys (service : ComposeWizardService) : ((serviceEntries service).map Prod.fst).Nodup := by
  have hsublist : ((serviceEntries service).map Prod.fst).Sublist (serviceKeys.map keyOf) := by
    simp only [serviceEntries, List.map_append]
    exact (List.Sublist.refl [keyOf "image"]).append ((keys_containerEntry _).append
      ((List.Sublist.refl [keyOf "restart"]).append ((keys_listEntry _ _).append
        ((keys_listEntry _ _).append ((keys_listEntry _ _).append (keys_listEntry _ _))))))
  exact hsublist.nodup (by decide +kernel)

theorem service_of_ok {seen : List String} {service : ComposeWizardService} {text : String}
    (h : writeService table seen service = .ok text) :
    (composeProjectPattern (trimSpace service.name) = true ∧ trimSpace service.name ∉ seen) ∧
      ∃ environment ports volumes command,
        writeComposeList table "environment" service.environment = .ok environment ∧
        writeComposeList table "ports" service.ports = .ok ports ∧
        writeComposeList table "volumes" service.volumes = .ok volumes ∧
        writeCommand table service.command = .ok command ∧
        text = "  " ++ trimSpace service.name ++ ":\n" ++
          ("    image: " ++ yamlQuote table (trimSpace service.image) ++ "\n" ++
            (writeContainerName table (trimSpace service.containerName) ++
              ("    restart: " ++ yamlQuote table (restartOf service) ++ "\n" ++
                (environment ++ (ports ++ (volumes ++ command)))))) := by
  unfold writeService at h
  dsimp only at h
  obtain ⟨hname, h⟩ := guard_eq_ok h
  obtain ⟨-, h⟩ := guard_eq_ok h
  obtain ⟨-, h⟩ := guard_eq_ok h
  obtain ⟨-, h⟩ := guard_eq_ok h
  obtain ⟨environment, henvironment, h⟩ := bind_eq_ok h
  obtain ⟨ports, hports, h⟩ := bind_eq_ok h
  obtain ⟨volumes, hvolumes, h⟩ := bind_eq_ok h
  obtain ⟨command, hcommand, h⟩ := bind_eq_ok h
  rw [not_or, Bool.not_eq_false] at hname
  exact ⟨hname, environment, ports, volumes, command, henvironment, hports, hvolumes, hcommand,
    (Except.ok.inj h).symm⟩

/-- What is written for a service is a key and the entries that were requested. -/
theorem entries_service {seen : List String} {service : ComposeWizardService} {text : String}
    (h : writeService table seen service = .ok text) :
    Entries 2 text [(resolve (trimSpace service.name).toList, .map (serviceEntries service))] := by
  obtain ⟨⟨hname, -⟩, environment, ports, volumes, command, henvironment, hports, hvolumes, hcommand,
    rfl⟩ := service_of_ok h
  have himage : Entries 4 ("    image: " ++ yamlQuote table (trimSpace service.image) ++ "\n")
      [(keyOf "image", textOf (trimSpace service.image))] :=
    entries_keyword (keyword_of_mem (by decide)) rfl (trimSpace service.image)
  have hcontainer := @entries_containerName table (trimSpace service.containerName)
  have hrestart : Entries 4 ("    restart: " ++ yamlQuote table (restartOf service) ++ "\n")
      [(keyOf "restart", textOf (restartOf service))] :=
    entries_keyword (keyword_of_mem (by decide)) rfl (restartOf service)
  have henvironment' := entries_composeList (keyword_of_mem (by decide)) henvironment
  have hports' := entries_composeList (keyword_of_mem (by decide)) hports
  have hvolumes' := entries_composeList (keyword_of_mem (by decide)) hvolumes
  have hentries := himage.append (hcontainer.append (hrestart.append (henvironment'.append
    (hports'.append (hvolumes'.append (entries_command hcommand))))))
  have hne : serviceEntries service ≠ [] := by simp [serviceEntries]
  have hnode := @assemble_entries 4 _ hne
  rw [if_pos (nodup_keys service)] at hnode
  exact entries_under (by decide) (isName_of_pattern hname) (toList_start rfl _) hentries hnode

/-! ## The file -/

/-- The services as their names are read. -/
def readServices (services : List ComposeWizardService) : List (Scalar × Node) :=
  services.map fun service => (resolve (trimSpace service.name).toList, .map (serviceEntries service))

theorem entries_services {seen : List String} {services : List ComposeWizardService} {text : String}
    (h : writeServices table seen services = .ok text) : Entries 2 text (readServices services) := by
  induction services generalizing seen text with
  | nil =>
    cases h
    exact entries_empty
  | cons service rest ih =>
    obtain ⟨first, hfirst, h⟩ := bind_eq_ok h
    obtain ⟨more, hmore, h⟩ := bind_eq_ok h
    cases h
    exact (entries_service hfirst).append (ih hmore)

/-- No name is written twice. -/
theorem nodup_names {seen : List String} {services : List ComposeWizardService} {text : String}
    (h : writeServices table seen services = .ok text) :
    (services.map fun service => trimSpace service.name).Nodup ∧
      ∀ service ∈ services, trimSpace service.name ∉ seen := by
  induction services generalizing seen text with
  | nil => exact ⟨List.nodup_nil, fun _ hmem => absurd hmem List.not_mem_nil⟩
  | cons service rest ih =>
    obtain ⟨first, hfirst, h⟩ := bind_eq_ok h
    obtain ⟨more, hmore, -⟩ := bind_eq_ok h
    obtain ⟨⟨-, hseen⟩, -⟩ := service_of_ok hfirst
    obtain ⟨hnodup, hrest⟩ := ih hmore
    refine ⟨List.nodup_cons.mpr ⟨fun hmem => ?_, hnodup⟩,
      List.forall_mem_cons.mpr ⟨hseen, fun s hs hmem => ?_⟩⟩
    · obtain ⟨s, hs, hname⟩ := List.mem_map.mp hmem
      exact hrest s hs (hname ▸ List.mem_cons_self)
    · exact hrest s hs (List.mem_cons_of_mem _ hmem)

/-- What a reader of YAML makes of the file. -/
theorem parse_generated {services : List ComposeWizardService} (hne : services ≠ []) {text : String}
    (h : writeServices table [] services = .ok text) :
    parse ("# Generated by LukePanel\nservices:\n" ++ text).toList =
      if ((readServices services).map Prod.fst).Nodup then
        some (.map [(keyOf "services", .map (readServices services))])
      else none := by
  obtain ⟨pieces, htext, hbreak, lines, hlines, hreads⟩ := entries_services h
  let start : List Text := ["# Generated by LukePanel".toList, "services:".toList]
  have hstart : readLines start = some [⟨0, .key (keyOf "services"), none⟩] := by decide +kernel
  have hnone : (start.all fun piece => piece.all fun c => isBreak c = false) = true := by decide +kernel
  have hbreaks : ∀ piece ∈ start ++ pieces, ∀ c ∈ piece, isBreak c = false := by
    simp only [List.all_eq_true, decide_eq_true_eq] at hnone
    exact List.forall_mem_append.mpr ⟨hnone, hbreak⟩
  have hcut : ("# Generated by LukePanel\nservices:\n" ++ text).toList =
      (start ++ pieces).flatMap (· ++ ['\n']) := by
    rw [String.toList_append, htext, List.flatMap_append]
    rfl
  have hclear : Clear 0 [] := fun _ hb => absurd hb (by simp)
  have hread : readServices services ≠ [] := by rwa [readServices, ne_eq, List.map_eq_nil_iff]
  have hassemble := @assemble_entries 2 _ hread
  rw [hcut, parse_pieces hbreaks (readLines_append hstart hlines), List.singleton_append,
    readOnto_branch (by decide) _ hreads hclear, hassemble]
  split
  · exact @assemble_entries 0 [(keyOf "services", .map (readServices services))] (List.cons_ne_nil _ _)
  · rfl

/-- The services are read as they were requested when no name is taken for something else. -/
theorem parse_eq_requested_iff {request : ComposeWizardRequest} (hne : request.services ≠ [])
    {text : String} (h : writeServices table [] request.services = .ok text) :
    parse ("# Generated by LukePanel\nservices:\n" ++ text).toList = some (requested request) ↔
      ∀ service ∈ request.services, isTyped (trimSpace service.name).toList = false := by
  rw [parse_generated hne h, requested]
  constructor
  · intro heq service hservice
    split at heq
    · simp only [Option.some.injEq, Node.map.injEq, List.cons.injEq, Prod.mk.injEq, true_and,
        and_true] at heq
      have hpair := List.map_inj_left.mp heq service hservice
      exact (resolve_eq_str_iff.mp (Prod.mk.inj hpair).1).1
    · cases heq
  · intro htyped
    have hread : readServices request.services = request.services.map fun service =>
        (keyOf (trimSpace service.name), .map (serviceEntries service)) :=
      List.map_congr_left fun service hservice => by
        rw [resolve_eq_str_iff.mpr ⟨htyped service hservice, rfl⟩, keyOf]
    have hkeys : ((readServices request.services).map Prod.fst).Nodup := by
      have hinjective : Function.Injective keyOf := fun _ _ heq =>
        String.toList_injective (Scalar.str.inj heq)
      have hnames := (nodup_names h).1.map hinjective
      rw [List.map_map] at hnames
      rwa [hread, List.map_map]
    rw [if_pos hkeys, hread]

/-! ## How `CreateComposeProject` ends -/

theorem entryPath_injective (directory : CleanPath) : Function.Injective (entryPath directory) := by
  intro name name' h
  have hne : ∀ name : String, directory.parts ++ [name] ≠ [] := fun name => by simp
  have hparts : "/".intercalate (directory.parts ++ [name]) =
      "/".intercalate (directory.parts ++ [name']) := by
    cases hrooted : directory.rooted with
    | true => simpa [entryPath, CleanPath.text, hrooted] using h
    | false => simpa [entryPath, CleanPath.text, hrooted] using h
  by_cases hempty : directory.parts = []
  · rwa [hempty, List.nil_append, List.nil_append, String.intercalate_singleton,
      String.intercalate_singleton] at hparts
  · rw [String.intercalate_append_of_ne_nil hempty (List.cons_ne_nil _ _),
      String.intercalate_append_of_ne_nil hempty (List.cons_ne_nil _ _), String.intercalate_singleton,
      String.intercalate_singleton] at hparts
    have hchars := congrArg String.toList hparts
    rw [String.toList_append, String.toList_append (t := name')] at hchars
    exact String.toList_injective (List.append_cancel_left hchars)

/-- The temporary file is not the configuration. -/
theorem temp_ne (directory : CleanPath) (random : String) :
    entryPath directory "compose.yaml" ≠ entryPath directory (".compose-" ++ random ++ ".tmp") := by
  intro h
  have hlast := congrArg (fun s : String => s.toList.getLast?) (entryPath_injective directory h)
  rw [String.toList_append, List.getLast?_append] at hlast
  exact absurd (Option.some.inj hlast : 'l' = 'p') (by decide)

variable {a : Answers} {request : ComposeWizardRequest} {result : ComposeWizardResult}
  {disk disk' : Disk}

theorem ends_installConfig (tmp configPath text : String) (disk : Disk) :
    Ends (installConfig a tmp configPath text) disk (fun _ disk' => disk' configPath = some text)
      fun _ _ => True := by
  unfold installConfig rename
  rw [ends_bind, ends_call]
  refine ⟨fun _ => ?_, fun _ _ => trivial⟩
  rw [ends_bind, ends_call]
  refine ⟨fun _ => ?_, fun _ _ => trivial⟩
  rw [ends_bind, ends_modify, ends_bind, ends_call]
  refine ⟨fun _ => ?_, fun _ _ => trivial⟩
  rw [ends_bind, ends_call]
  refine ⟨fun _ => ?_, fun _ _ => trivial⟩
  rw [ends_bind, ends_call]
  refine ⟨fun _ => ?_, fun _ _ => trivial⟩
  rw [ends_modify, Function.update_self, Function.update_self]

theorem ends_startProject (start : Bool) (started : ComposeWizardResult) (disk : Disk) :
    Ends (startProject a start started) disk
      (fun result disk' => result.path = started.path ∧ disk' = disk) fun _ _ => True := by
  unfold startProject
  rw [ends_ite]
  refine ⟨fun _ => ?_, fun _ => ⟨rfl, rfl⟩⟩
  cases a.up with
  | ok output => exact ⟨rfl, rfl⟩
  | error output =>
    dsimp only
    rw [ends_bind, ends_dropped]
    exact ends_true

theorem ends_remove {path : String} {data : Option String} (fails : Option String) {tmp : String}
    (hne : path ≠ tmp) {disk : Disk} (h : disk path = data) :
    Ends (remove fails tmp) disk (fun _ disk' => disk' path = data)
      fun _ disk' => disk' path = data := by
  unfold remove
  rw [ends_bind, ends_call]
  refine ⟨fun _ => ?_, fun _ _ => h⟩
  rw [ends_modify, Function.update_of_ne hne]
  exact h

theorem ends_install {tmp configPath : String} (hne : configPath ≠ tmp) (text project : String)
    (start : Bool) (disk : Disk) :
    Ends (deferring (remove a.removeTemp tmp) do
        installConfig a tmp configPath text
        startProject a start ⟨project, configPath, ""⟩) disk
      (fun result disk' => disk' result.path = some text) fun _ _ => True := by
  rw [ends_deferring, ends_bind]
  refine (ends_installConfig _ _ _ _).mono (fun _ s hs => ?_) fun _ _ _ => ends_true
  refine (ends_startProject _ _ s).mono (fun result s' hresult => ?_) fun _ _ _ => ends_true
  obtain ⟨hpath, rfl⟩ := hresult
  rw [hpath]
  exact ends_remove _ hne hs

/-- What is accepted is written to the place of the configuration. -/
theorem written_of_accepted (h : createComposeProject table a request disk = (.ok result, disk')) :
    request.services ≠ [] ∧ ∃ text, writeServices table [] request.services = .ok text ∧
      disk' result.path = some ("# Generated by LukePanel\nservices:\n" ++ text) := by
  have hends : Ends (createComposeProject table a request) disk
      (fun result disk' => request.services ≠ [] ∧
        ∃ text, writeServices table [] request.services = .ok text ∧
          disk' result.path = some ("# Generated by LukePanel\nservices:\n" ++ text))
      fun _ _ => True := by
    unfold createComposeProject
    dsimp only
    rw [ends_bind, ends_check]
    refine ⟨fun _ => trivial, fun _ => ?_⟩
    rw [ends_bind, ends_check]
    refine ⟨fun _ => trivial, fun _ => ?_⟩
    rw [ends_bind, ends_check]
    refine ⟨fun _ => trivial, fun hcount => ?_⟩
    rw [ends_bind, ends_read]
    refine ⟨fun text htext => ?_, fun _ _ => trivial⟩
    rw [ends_bind, ends_call]
    refine ⟨fun _ => ?_, fun _ _ => trivial⟩
    rw [ends_bind, ends_check]
    refine ⟨fun _ => trivial, fun _ => ?_⟩
    rw [ends_bind, ends_read]
    refine ⟨fun random _ => ?_, fun _ _ => trivial⟩
    rw [ends_bind, ends_modify]
    have hservices : request.services ≠ [] := by
      intro hnil
      rw [hnil] at hcount
      exact hcount (.inl (by decide))
    refine (ends_install (temp_ne _ random) _ _ _ _).mono (fun _ _ hfile => ?_) fun _ _ _ => trivial
    exact ⟨hservices, text, htext, hfile⟩
  rw [Ends, h] at hends
  exact hends

theorem faithful_iff_parse (h : createComposeProject table a request disk = (.ok result, disk')) :
    ∃ text, writeServices table [] request.services = .ok text ∧ (Faithful request result.path disk' ↔
      parse ("# Generated by LukePanel\nservices:\n" ++ text).toList = some (requested request)) := by
  obtain ⟨-, text, htext, hfile⟩ := written_of_accepted h
  refine ⟨text, htext, ?_⟩
  rw [Faithful, hfile]
  constructor
  · rintro ⟨_, hsame, hparse⟩
    cases hsame
    exact hparse
  · intro hparse
    exact ⟨_, rfl, hparse⟩

theorem isTyped_of_faithful (h : createComposeProject table a request disk = (.ok result, disk'))
    (hfaithful : Faithful request result.path disk') :
    ∀ service ∈ request.services, isTyped (trimSpace service.name).toList = false := by
  obtain ⟨text, htext, hiff⟩ := faithful_iff_parse h
  exact (parse_eq_requested_iff (written_of_accepted h).1 htext).mp (hiff.mp hfaithful)

/-- The file of a project that was accepted is the project, if and only if YAML takes none of the
names of its services for a number, a Boolean or null. -/
theorem faithful_iff (h : createComposeProject table a request disk = (.ok result, disk')) :
    Faithful request result.path disk' ↔
      ∀ service ∈ request.services, isTyped (trimSpace service.name).toList = false := by
  refine ⟨isTyped_of_faithful h, fun htyped => ?_⟩
  obtain ⟨text, htext, hiff⟩ := faithful_iff_parse h
  exact hiff.mpr ((parse_eq_requested_iff (written_of_accepted h).1 htext).mpr htyped)

/-- Every call succeeds. -/
def answering : Answers where
  mkdirAll := none
  stat := false
  createTemp := .ok "1"
  chmod := none
  write := none
  close := none
  config := none
  rename := none
  up := .ok ""
  removeTemp := some "no such file or directory"
  removeConfig := none

/-- A request for one service of that name. -/
def requestFor (name : String) : ComposeWizardRequest where
  project := "shop"
  directory := "/srv/shop"
  services := [⟨name, "nginx:1.27", "", "", ["MODE=\"a b\""], ["8080:80"], [" ", "/data:/data"],
    ["-g", "daemon off;"]⟩]
  start := true

def resultFor : ComposeWizardResult := ⟨"shop", "/srv/shop/compose.yaml", ""⟩

/-- The run for a request with every call answered. -/
def run (name : String) : Except String ComposeWizardResult × Disk :=
  createComposeProject (fun _ => false) answering (requestFor name) fun _ => none

theorem run_eq {name : String} (h : (run name).1 = .ok resultFor) :
    run name = (.ok resultFor, (run name).2) := by
  rw [← h]

theorem web_faithful : (run "web").1 = .ok resultFor ∧
    Faithful (requestFor "web") resultFor.path (run "web").2 := by
  have haccepted : (run "web").1 = .ok resultFor := by decide +kernel
  exact ⟨haccepted, (faithful_iff (run_eq haccepted)).mpr (by decide +kernel)⟩

/-- A name that is a number. -/
theorem number_unfaithful : (run "1e999").1 = .ok resultFor ∧
    ¬ Faithful (requestFor "1e999") resultFor.path (run "1e999").2 := by
  have haccepted : (run "1e999").1 = .ok resultFor := by decide +kernel
  have htyped : ¬ ∀ service ∈ (requestFor "1e999").services,
      isTyped (trimSpace service.name).toList = false := by decide +kernel
  exact ⟨haccepted, fun h => htyped (isTyped_of_faithful (run_eq haccepted) h)⟩

end LukePanel.DockerApi.ComposeYaml
