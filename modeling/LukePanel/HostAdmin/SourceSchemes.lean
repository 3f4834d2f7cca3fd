import LukePanel.HostAdmin.SoftwareSources
import LukePanel.Library.PlainSources

/-! # Schemes of added sources -/
namespace LukePanel.HostAdmin.SourceSchemes
open LukePanel.Library LukePanel.Library.GoStrings LukePanel.Library.SourceLists
open LukePanel.Library.Attempt LukePanel.Library.Attempt.Prog
open LukePanel.HostAdmin.SoftwareSources

variable {E : Type} (apt : Apt E)

/-! ## Repositories -/

/-- The URIs `apt` reads in a file, whose name tells the format. -/
def repositoryUris (path data : String) : List Text :=
  if hasSuffix path ".sources" then apt.stanzaUris data.toList else apt.listUris data.toList

/-- The file that was written has only repositories behind `https`. -/
def Secure (source : SoftwareSource) (disk : Disk) : Prop :=
  ∃ data, disk source.path = some data ∧
    ∀ uri ∈ repositoryUris apt source.path data, scheme uri = "https".toList

/-- Where `apt` takes a URI in the text stands `https:`, on each line that is an entry or in each stanza;
it is not enough that it stands somewhere on the line. -/
def Placed (content : String) : Prop :=
  if isDeb822 content = true then
    ∀ uri ∈ apt.stanzaUris (content ++ "\n").toList, "https:".toList <+: uri
  else ∀ line ∈ split '\n' content, ∀ e, apt.entry line.toList = some e → "https:".toList <+: apt.uri e

/-! ## The file -/

variable {name content : String}

theorem fileName_of_validName (h : validName name = true) {ext : String} {c : Char}
    (hext : ext.toList.getLast? = some c) (hc : c ≠ '.') (hslash : '/' ∉ ext.toList) :
    SlashPath.FileName (name ++ ext) := by
  have hlast : (name ++ ext).toList.getLast? = some c := by
    rw [String.toList_append, List.getLast?_append, hext, Option.some_or]
  refine ⟨⟨?_, ?_, ?_⟩, ?_⟩
  · intro heq
    rw [heq] at hlast
    cases hlast
  · intro heq
    rw [heq] at hlast
    exact hc (Option.some.inj hlast).symm
  · intro heq
    rw [heq] at hlast
    exact hc (Option.some.inj hlast).symm
  · rw [String.toList_append, List.mem_append]
    rintro (hmem | hmem)
    · rw [validName] at h
      split at h
      · rename_i hnil
        rw [hnil] at hmem
        cases hmem
      · rename_i first rest hchars
        rw [hchars, List.mem_cons] at hmem
        simp only [Bool.and_eq_true] at h
        rcases hmem with rfl | hmem
        · exact absurd h.1.1 (by decide)
        · exact absurd (List.all_eq_true.mp h.2 _ hmem) (by decide)
    · exact hslash hmem

theorem path_text {file : String} (h : SlashPath.FileName file) :
    (SlashPath.clean ("/etc/apt/sources.list.d/" ++ file)).text = "/etc/apt/sources.list.d/" ++ file := by
  have hparts : ∀ part ∈ ["etc", "apt", "sources.list.d", file], SlashPath.FileName part := by
    simp only [List.forall_mem_cons]
    refine ⟨?_, ?_, ?_, h, fun _ hp => absurd hp List.not_mem_nil⟩ <;>
      unfold SlashPath.FileName SlashPath.Named <;> decide
  have hjoin : "/etc/apt/sources.list.d/" ++ file =
      "/" ++ join '/' ["etc", "apt", "sources.list.d", file] := by
    refine String.toList_injective ?_
    simp [join]
  rw [hjoin, SlashPath.clean_root_join hparts, SlashPath.CleanPath.text, if_pos rfl,
    SlashPath.intercalate_eq_join]

/-- The name of the file tells the format that was taken. -/
theorem hasSuffix_path (h : validName name = true) (deb822 : Bool) :
    hasSuffix (SlashPath.clean ("/etc/apt/sources.list.d/" ++
      (name ++ if deb822 then ".sources" else ".list"))).text ".sources" = deb822 := by
  cases deb822 with
  | true =>
    rw [if_pos rfl, path_text (fileName_of_validName h (by decide : _ = some 's') (by decide) (by decide)),
      hasSuffix, ← String.append_assoc, List.isSuffixOf_iff_suffix, String.toList_append]
    exact List.suffix_append _ _
  | false =>
    rw [if_neg Bool.false_ne_true, path_text (fileName_of_validName h (by decide : _ = some 't')
      (by decide) (by decide)), hasSuffix, ← String.append_assoc, ← Bool.not_eq_true,
      List.isSuffixOf_iff_suffix, String.toList_append]
    rintro ⟨before, hbefore⟩
    have hlast := congrArg List.getLast? hbefore
    rw [List.getLast?_append, List.getLast?_append] at hlast
    exact absurd (Option.some.inj hlast : 's' = 't') (by decide)

/-! ## How `AddSoftwareSource` ends -/

/-- What is accepted is written, with a newline, to a file of its format. -/
theorem written_of_accepted {write : Option String} {disk disk' : Disk} {source : SoftwareSource}
    (h : addSoftwareSource write name content disk = (.ok source, disk')) :
    disk' source.path = some (trimSpace content ++ "\n") ∧
      hasSuffix source.path ".sources" = isDeb822 (trimSpace content) := by
  have hends : Ends (addSoftwareSource write name content) disk
      (fun source disk' => disk' source.path = some (trimSpace content ++ "\n") ∧
        hasSuffix source.path ".sources" = isDeb822 (trimSpace content)) fun _ _ => True := by
    unfold addSoftwareSource writeFile
    dsimp only
    rw [ends_bind, ends_check]
    refine ⟨fun _ => trivial, fun hname => ?_⟩
    rw [ends_bind, ends_check]
    refine ⟨fun _ => trivial, fun _ => ?_⟩
    rw [ends_bind, ends_read]
    refine ⟨fun _ _ => ?_, fun _ _ => trivial⟩
    rw [ends_bind, ends_get, ends_bind, ends_check]
    refine ⟨fun _ => trivial, fun _ => ?_⟩
    rw [ends_bind, ends_bind, ends_call]
    refine ⟨fun _ => ?_, fun _ _ => trivial⟩
    rw [ends_modify, ends_pure]
    dsimp only
    rw [Function.update_self]
    exact ⟨rfl, hasSuffix_path (Bool.not_eq_false _ |>.mp hname) _⟩
  rw [Ends, h] at hends
  exact hends

/-- The schemes of the file are told by the text that was added. -/
theorem secure_iff (content : String) :
    (∀ uri ∈ if isDeb822 content then apt.stanzaUris (content ++ "\n").toList
      else apt.listUris (content ++ "\n").toList, scheme uri = "https".toList) ↔ Placed apt content := by
  have hcolon : ':' ∉ "https".toList := by decide
  rw [Placed]
  cases isDeb822 content with
  | true =>
    rw [if_pos rfl, if_pos rfl]
    exact forall₂_congr fun uri huri => scheme_eq_iff hcolon (apt.stanzaColon _ uri huri)
  | false =>
    have hnewline : (content ++ "\n").toList = content.toList ++ ['\n'] := String.toList_append
    rw [if_neg Bool.false_ne_true, if_neg Bool.false_ne_true, hnewline, apt.listUris_newline]
    constructor
    · intro h line hline e he
      obtain ⟨chars, hchars, rfl⟩ := List.mem_map.mp hline
      rw [String.toList_ofList] at he
      have hmem : apt.uri e ∈ apt.listUris content.toList :=
        apt.mem_listUris.mpr ⟨chars, hchars, e, he, rfl⟩
      exact (scheme_eq_iff hcolon (apt.colon _ e he)).mp (h _ hmem)
    · intro h uri huri
      obtain ⟨line, hline, e, he, rfl⟩ := apt.mem_listUris.mp huri
      have hmem : String.ofList line ∈ split '\n' content := List.mem_map_of_mem hline
      exact (scheme_eq_iff hcolon (apt.colon _ e he)).mpr (h _ hmem e (by rwa [String.toList_ofList]))

/-- What is read off the file that was written. -/
theorem secure_of_accepted {write : Option String} {disk disk' : Disk} {source : SoftwareSource}
    (h : addSoftwareSource write name content disk = (.ok source, disk')) :
    Secure apt source disk' ↔ ∀ uri ∈ if isDeb822 (trimSpace content) then
        apt.stanzaUris (trimSpace content ++ "\n").toList
      else apt.listUris (trimSpace content ++ "\n").toList, scheme uri = "https".toList := by
  obtain ⟨hdata, hsuffix⟩ := written_of_accepted h
  simp only [Secure, repositoryUris, hsuffix, hdata, Option.some.injEq, exists_eq_left']

/-- The readers are run. -/
instance : DecidablePred (Placed apt) := fun content =>
  decidable_of_iff ((if isDeb822 content then
      (apt.stanzaUris (content ++ "\n").toList).all ("https:".toList.isPrefixOf ·)
    else (split '\n' content).all fun line =>
      (apt.entry line.toList).all fun e => "https:".toList.isPrefixOf (apt.uri e)) = true) <| by
    rw [Placed]
    cases isDeb822 content with
    | true => simp only [if_pos, List.all_eq_true, List.isPrefixOf_iff_prefix]
    | false =>
      simp only [Bool.false_eq_true, if_false, List.all_eq_true, Option.all_eq_true,
        List.isPrefixOf_iff_prefix]

/-- A text that passes the checks is accepted where its file is new. -/
theorem addSoftwareSource_accepts (disk : Disk) (hname : validName (trimSpace name) = true)
    (hsize : 5 ≤ (trimSpace content).utf8ByteSize ∧ (trimSpace content).utf8ByteSize ≤ 1048576)
    (hnull : '\x00' ∉ (trimSpace content).toList)
    (hlines : isDeb822 (trimSpace content) = true ∨
      checkLines false (split '\n' (trimSpace content)) = .ok ())
    (hfree : ∀ path, disk path = none) :
    ∃ source disk', addSoftwareSource none name content disk = (.ok source, disk') := by
  have hends : Ends (addSoftwareSource none name content) disk (fun _ _ => True) fun _ _ => False := by
    unfold addSoftwareSource writeFile
    dsimp only
    rw [ends_bind, ends_check]
    refine ⟨fun h => ?_, fun _ => ?_⟩
    · cases h.symm.trans hname
    rw [ends_bind, ends_check]
    refine ⟨fun h => ?_, fun _ => ?_⟩
    · rcases h with h | h | h
      · omega
      · omega
      · exact hnull h
    rw [ends_bind, ends_read]
    refine ⟨fun _ _ => ?_, fun err herr => ?_⟩
    swap
    · split at herr
      · cases herr
      · cases herr.symm.trans (hlines.resolve_left ‹_›)
    rw [ends_bind, ends_get, ends_bind, ends_check]
    refine ⟨fun h => ?_, fun _ => ?_⟩
    · rw [hfree] at h
      cases h
    rw [ends_bind, ends_bind, ends_call]
    exact ⟨fun _ => trivial, fun err herr => by cases herr⟩
  obtain ⟨source, disk', h, -⟩ := hends.returns
  exact ⟨source, disk', h⟩

/-- A source in the one-line format, with options and a comment. -/
def listed : String := "# main\ndeb [arch=amd64] https://deb.debian.org/debian stable main\n"

/-- A repository in the other format. -/
def stanza : String :=
  "Types: deb\nURIs: http://deb.debian.org/debian\nSuites: stable\nComponents: main"

end LukePanel.HostAdmin.SourceSchemes
