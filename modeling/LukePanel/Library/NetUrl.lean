import LukePanel.Library.NetAddress

/-! # URLs as Go's `net/url` reads them

`url.Parse` and `Hostname`. A byte from 128 on that a percent sign stands for is the character of
that number here, where Go has the byte. -/
namespace LukePanel.Library.NetUrl
open LukePanel.Library.NetAddress (hexDigit takeWhile_last)

structure URL where
  scheme : List Char
  /-- `User != nil` -/
  user : Bool
  host : List Char
  path : List Char
  rawQuery : List Char
  fragment : List Char
  deriving DecidableEq, Repr

/-- `strings.Cut` at one character. -/
def cut (sep : Char) (s : List Char) : List Char × List Char :=
  (s.takeWhile (· ≠ sep), (s.dropWhile (· ≠ sep)).tail)

/-! ## Percent signs -/

inductive Mode where
  | host
  | zone
  | other
  deriving DecidableEq

/-- What may stand in a host as it is. -/
def hostChar (c : Char) : Bool :=
  c.isAlphanum || c ∈ ['-', '_', '.', '~', '!', '$', '&', '\'', '(', ')', '*', '+', ',', ';', '=',
    ':', '[', ']', '<', '>', '"']

/-- A decoded byte that is refused. -/
def refused (mode : Mode) (byte : Nat) : Bool :=
  match mode with
  | .host => byte < 128 && byte ≠ 37
  | .zone => byte ≠ 37 && byte ≠ 32 && !hostChar (Char.ofNat byte)
  | .other => false

def unescape (mode : Mode) : List Char → Option (List Char)
  | '%' :: a :: b :: rest =>
    match hexDigit a, hexDigit b with
    | some high, some low =>
      if refused mode (high * 16 + low) then none
      else (unescape mode rest).map (Char.ofNat (high * 16 + low) :: ·)
    | _, _ => none
  | c :: rest =>
    if c = '%' ∨ mode ≠ .other ∧ c.toNat < 128 ∧ hostChar c = false then none
    else (unescape mode rest).map (c :: ·)
  | [] => some []

/-! ## Hosts -/

/-- Nothing, or a colon and digits. -/
def validOptionalPort : List Char → Bool
  | [] => true
  | ':' :: digits => digits.all Char.isDigit
  | _ => false

/-- What stands before and after the last of these characters, which begins the second part. -/
def splitLast (sep : Char) (s : List Char) : Option (List Char × List Char) :=
  if sep ∈ s then
    let after := (s.reverse.takeWhile (· ≠ sep)).reverse
    some (s.take (s.length - after.length - 1), sep :: after)
  else none

/-- The part before a zone, and the zone with its percent sign. -/
def splitZone : List Char → List Char × List Char
  | '%' :: '2' :: '5' :: rest => ([], '%' :: '2' :: '5' :: rest)
  | c :: rest => let (before, zone) := splitZone rest; (c :: before, zone)
  | [] => ([], [])

def parseHost (host : List Char) : Option (List Char) :=
  if host.head? = some '[' then
    match splitLast ']' host with
    | none => none
    | some (address, after) =>
      if validOptionalPort after.tail = false then none
      else
        let (before, zone) := splitZone address
        do return (← unescape .host before) ++ (← unescape .zone zone) ++ (← unescape .host after)
  else
    match splitLast ':' host with
    | some (_, port) => if validOptionalPort port then unescape .host host else none
    | none => unescape .host host

/-- `validUserinfo` -/
def validUserinfo (s : List Char) : Bool :=
  s.all fun c => c.isAlphanum || c ∈ ['-', '.', '_', ':', '~', '!', '$', '&', '\'', '(', ')', '*',
    '+', ',', ';', '=', '%', '@']

def parseAuthority (authority : List Char) : Option (Bool × List Char) :=
  match splitLast '@' authority with
  | none => (parseHost authority).map fun host => (false, host)
  | some (userinfo, host) => do
    let host ← parseHost host.tail
    if validUserinfo userinfo = false ∨ (unescape .other userinfo).isNone then none
    else some (true, host)

/-- `Hostname` -/
def URL.hostname (url : URL) : List Char :=
  let host :=
    match splitLast ':' url.host with
    | some (before, port) => if validOptionalPort port then before else url.host
    | none => url.host
  if host.head? = some '[' ∧ host.getLast? = some ']' then host.tail.dropLast else host

/-! ## Parsing -/

/-- The scheme, empty if there is none, and what follows it. -/
def getScheme (raw : List Char) : Option (List Char × List Char) :=
  let scheme := raw.takeWhile fun c => c.isAlphanum || c = '+' || c = '-' || c = '.'
  match raw.drop scheme.length with
  | ':' :: rest =>
    match scheme with
    | [] => none
    | c :: _ => if c.isAlpha then some (scheme, rest) else some ([], raw)
  | _ => some ([], raw)

/-- `url.Parse` -/
def parse (s : String) : Option URL :=
  let (raw, fragment) := cut '#' s.toList
  if raw.any (fun c => c.toNat < 32 || c.toNat = 127) then none
  else if raw = ['*'] then some ⟨[], false, [], raw, [], fragment⟩
  else do
    let (scheme, rest) ← getScheme raw
    let (rest, rawQuery) := cut '?' rest
    let fragment ← unescape .other fragment
    if rest.head? ≠ some '/' ∧ scheme ≠ [] then
      return ⟨scheme.map Char.toLower, false, [], [], rawQuery, fragment⟩
    else if rest.head? ≠ some '/' ∧ ':' ∈ (cut '/' rest).1 then none
    else if ['/', '/'] <+: rest ∧ (scheme ≠ [] ∨ ¬ ['/', '/', '/'] <+: rest) then
      let authority := (rest.drop 2).takeWhile (· ≠ '/')
      let (user, host) ← parseAuthority authority
      let path ← unescape .other ((rest.drop 2).dropWhile (· ≠ '/'))
      return ⟨scheme.map Char.toLower, user, host, path, rawQuery, fragment⟩
    else
      let path ← unescape .other rest
      return ⟨scheme.map Char.toLower, false, [], path, rawQuery, fragment⟩

example : (parse "https://[2001:db8::1]:8443/").map URL.hostname = some "2001:db8::1".toList := by
  decide +kernel

/-! ## Origins -/

theorem cut_of_not_mem {sep : Char} {s : List Char} (h : sep ∉ s) : cut sep s = (s, []) := by
  have hne : ∀ c ∈ s, (decide (c ≠ sep)) = true := by
    intro c hc
    simp only [decide_eq_true_eq]
    intro heq
    exact h (heq ▸ hc)
  unfold cut
  rw [List.takeWhile_eq_self_iff.mpr hne, List.dropWhile_eq_nil_iff.mpr hne]
  rfl

theorem splitLast_of_not_mem {sep : Char} {s : List Char} (h : sep ∉ s) : splitLast sep s = none :=
  if_neg h

/-- A character of a host separates nothing and is not decoded. -/
theorem hostChar_ne {c : Char} (h : hostChar c = true) :
    c ≠ '#' ∧ c ≠ '?' ∧ c ≠ '/' ∧ c ≠ '@' ∧ c ≠ '%' ∧ ¬ (c.toNat < 32 ∨ c.toNat = 127) := by
  refine ⟨?_, ?_, ?_, ?_, ?_, ?_⟩
  · rintro rfl
    revert h
    decide
  · rintro rfl
    revert h
    decide
  · rintro rfl
    revert h
    decide
  · rintro rfl
    revert h
    decide
  · rintro rfl
    revert h
    decide
  · intro hctl
    have hlt : c.toNat < 128 := by omega
    have hall : ∀ n < 128, (n < 32 ∨ n = 127) → hostChar (Char.ofNat n) = false := by decide
    have hc := hall c.toNat hlt hctl
    rw [Char.ofNat_toNat, h] at hc
    cases hc

theorem unescape_host {s : List Char} (h : ∀ c ∈ s, hostChar c = true) :
    unescape .host s = some s := by
  induction s with
  | nil => rfl
  | cons c rest ih =>
    have hc := h c List.mem_cons_self
    have hpercent := (hostChar_ne hc).2.2.2.2.1
    have hrest := ih fun d hd => h d (List.mem_cons_of_mem _ hd)
    rw [unescape.eq_def]
    split
    · rename_i heq
      exact absurd (List.cons.inj heq).1 hpercent
    · rename_i c' rest' _ heq
      obtain ⟨rfl, rfl⟩ := List.cons.inj heq
      rw [if_neg (by simp [hpercent, hc]), hrest]
      rfl
    · rename_i heq
      cases heq

/-- The scheme of a text that begins with one. -/
theorem getScheme_append {c : Char} {scheme rest : List Char} (hc : c.isAlpha = true)
    (h : ∀ d ∈ c :: scheme, (d.isAlphanum || d = '+' || d = '-' || d = '.') = true) :
    getScheme (c :: scheme ++ ':' :: rest) = some (c :: scheme, rest) := by
  have htake : (c :: scheme ++ ':' :: rest).takeWhile
      (fun c => c.isAlphanum || c = '+' || c = '-' || c = '.') = c :: scheme := by
    rw [List.takeWhile_append_of_pos h, List.takeWhile_cons_of_neg (by decide), List.append_nil]
  unfold getScheme
  rw [htake]
  simp only [List.drop_left', hc, if_true]

theorem parseAuthority_host {host : List Char} (h : ∀ c ∈ host, hostChar c = true) :
    parseAuthority host = (parseHost host).map fun host => (false, host) := by
  unfold parseAuthority
  rw [splitLast_of_not_mem fun hmem => (hostChar_ne (h _ hmem)).2.2.2.1 rfl]

/-- An origin is parsed as its scheme and its host. -/
theorem parse_origin {scheme : String} {host : List Char}
    (hscheme : scheme = "http" ∨ scheme = "https") (h : ∀ c ∈ host, hostChar c = true) :
    parse (scheme ++ "://" ++ String.ofList host) =
      (parseHost host).map fun host => ⟨scheme.toList, false, host, [], [], []⟩ := by
  have hne := fun c hc => hostChar_ne (h c hc)
  have hhash : '#' ∉ host := fun hmem => (hne _ hmem).1 rfl
  have hquery : '?' ∉ host := fun hmem => (hne _ hmem).2.1 rfl
  have hslash : ∀ c ∈ host, decide (c ≠ '/') = true := fun c hc => by
    simpa using (hne c hc).2.2.1
  have htake : host.takeWhile (fun c => decide (c ≠ '/')) = host :=
    List.takeWhile_eq_self_iff.mpr hslash
  have hdrop : host.dropWhile (fun c => decide (c ≠ '/')) = [] :=
    List.dropWhile_eq_nil_iff.mpr hslash
  have hctl : host.any (fun c => c.toNat < 32 || c.toNat = 127) = false := by
    rw [List.any_eq_false]
    intro c hc
    have := (hne c hc).2.2.2.2.2
    simpa using this
  obtain ⟨c, more, hchars, halpha, hscheme, hother, hlower⟩ : ∃ c more, scheme.toList = c :: more ∧
      c.isAlpha = true ∧
      (∀ d ∈ c :: more, (d.isAlphanum || d = '+' || d = '-' || d = '.') = true) ∧
      (∀ d ∈ c :: more, d ≠ '#' ∧ ¬ (d.toNat < 32 ∨ d.toNat = 127)) ∧
      (c :: more).map Char.toLower = c :: more := by
    rcases hscheme with rfl | rfl
    · exact ⟨'h', ['t', 't', 'p'], rfl, by decide, List.all_eq_true.mp (by decide), by simp,
        by decide⟩
    · exact ⟨'h', ['t', 't', 'p', 's'], rfl, by decide, List.all_eq_true.mp (by decide), by simp,
        by decide⟩
  have hraw : (scheme ++ "://" ++ String.ofList host).toList =
      c :: more ++ ':' :: '/' :: '/' :: host := by
    simp [String.toList_append, hchars]
  have hhash' : '#' ∉ c :: more ++ ':' :: '/' :: '/' :: host := by
    intro hmem
    rcases List.mem_append.mp hmem with hmem | hmem
    · exact (hother _ hmem).1 rfl
    · simp [hhash] at hmem
  have hctl' : (c :: more ++ ':' :: '/' :: '/' :: host).any
      (fun c => c.toNat < 32 || c.toNat = 127) = false := by
    rw [List.any_append, Bool.or_eq_false_iff]
    refine ⟨?_, by simpa using hctl⟩
    rw [List.any_eq_false]
    intro d hd
    have := (hother d hd).2
    simpa using this
  have hstar : c :: more ++ ':' :: '/' :: '/' :: host ≠ ['*'] := by
    intro heq
    rw [List.cons_append] at heq
    simp at heq
  have hquery' : '?' ∉ '/' :: '/' :: host := by simp [hquery]
  unfold parse
  rw [hraw, cut_of_not_mem hhash']
  dsimp only
  rw [if_neg (by rw [hctl']; exact Bool.false_ne_true), if_neg hstar,
    getScheme_append halpha hscheme]
  simp only [Option.bind_eq_bind, Option.bind_some, cut_of_not_mem hquery', unescape,
    List.head?_cons, ne_eq, not_true, false_and, if_false]
  rw [if_pos ⟨by simp, .inl (by simp)⟩]
  simp only [List.drop_succ_cons, List.drop_zero, htake, hdrop, parseAuthority_host h, unescape,
    hlower, hchars]
  cases parseHost host <;> rfl

theorem splitLast_append {sep : Char} {before after : List Char} (h : sep ∉ after) :
    splitLast sep (before ++ sep :: after) = some (before, sep :: after) := by
  obtain ⟨hlast, hbefore⟩ := takeWhile_last before h
  unfold splitLast
  rw [if_pos (by simp)]
  dsimp only
  rw [hlast, hbefore]

theorem exists_splitLast {sep : Char} {s : List Char} (h : sep ∈ s) :
    ∃ before after, s = before ++ sep :: after ∧ sep ∉ after := by
  obtain ⟨as, bs, hs, hnot⟩ := List.eq_append_cons_of_mem (List.mem_reverse.mpr h)
  refine ⟨bs.reverse, as.reverse, ?_, fun hmem => hnot (List.mem_reverse.mp hmem)⟩
  rw [← List.reverse_reverse s, hs]
  simp

/-- The name of a host without a port is the host. -/
theorem hostname_of_name {url : URL} (hcolon : ':' ∉ url.host) (hbracket : '[' ∉ url.host) :
    url.hostname = url.host := by
  unfold URL.hostname
  rw [splitLast_of_not_mem hcolon]
  refine if_neg fun h => hbracket ?_
  cases hhost : url.host with
  | nil =>
    rw [hhost] at h
    cases h.1
  | cons c rest =>
    rw [hhost] at h
    obtain rfl : c = '[' := Option.some.inj h.1
    exact List.mem_cons_self

theorem parseHost_name {host : List Char} (h : ∀ c ∈ host, hostChar c = true) (hcolon : ':' ∉ host)
    (hbracket : '[' ∉ host) : parseHost host = some host := by
  unfold parseHost
  rw [if_neg, splitLast_of_not_mem hcolon]
  · exact unescape_host h
  · intro hhead
    cases host with
    | nil => cases hhead
    | cons c rest =>
      obtain rfl : c = '[' := Option.some.inj hhead
      exact hbracket List.mem_cons_self

/-- Where a colon stands outside brackets, a host is refused or loses what follows the last one. -/
theorem hostname_of_colon {host parsed : List Char} {url : URL}
    (h : ∀ c ∈ host, hostChar c = true) (hcolon : ':' ∈ host) (hbracket : '[' ∉ host)
    (hparsed : parseHost host = some parsed) (hurl : url.host = parsed) :
    url.hostname.length < host.length := by
  obtain ⟨before, after, rfl, hafter⟩ := exists_splitLast hcolon
  have hhead : ∀ {s : List Char}, s <+: before ++ ':' :: after → s.head? ≠ some '[' := by
    rintro s ⟨more, hmore⟩ hs
    refine hbracket (hmore ▸ List.mem_append_left _ ?_)
    exact List.mem_of_mem_head? hs
  unfold parseHost at hparsed
  rw [if_neg (hhead (List.prefix_refl _)), splitLast_append hafter] at hparsed
  dsimp only at hparsed
  split at hparsed
  · rename_i hport
    rw [unescape_host h] at hparsed
    cases hparsed
    unfold URL.hostname
    rw [hurl, splitLast_append hafter]
    simp only [hport, if_true]
    rw [if_neg fun hb => hhead ⟨_, rfl⟩ hb.1]
    simp
  · cases hparsed

end LukePanel.Library.NetUrl
