import LukePanel.Auth.Webauthn
import LukePanel.Server.ClientIp
import LukePanel.Server.ConfigHandlers
import LukePanel.Validate

/-! # The origin of a passkey ceremony

`webauthnContext` of `internal/server/passkey.go`, the origin a browser reports for the URL of the
panel, and the configurations in which the finish handlers pin it. -/
namespace LukePanel.Server.WebauthnContext
open LukePanel.Library LukePanel.Library.GoStrings LukePanel.Library.NetAddress
open LukePanel.Auth.Webauthn (normalizeOrigin verifyClientData)
open LukePanel.Server.ClientIp (getHeader peerHost trustedSource)
open LukePanel.Server.ConfigHandlers

/-! ## The context -/

/-- A request, with the values of its `X-Forwarded-Proto` lines. -/
structure Request where
  host : String
  remoteAddr : String
  forwardedProto : List String

/-- `strings.TrimSuffix(s, ".")` -/
def trimDot (s : String) : String :=
  if s.toList.getLast? = some '.' then String.ofList s.toList.dropLast else s

/-- The scheme of the panel's URL. -/
def inferScheme (cfg : Config) (r : Request) : String :=
  let scheme := if cfg.secureCookie then "https" else "http"
  if trustedSource (peerHost r.remoteAddr) cfg.trustedProxy then
    let forwarded := toLower (trimSpace (getHeader r.forwardedProto))
    if forwarded = "http" ∨ forwarded = "https" then forwarded else scheme
  else scheme

/-- The host of the panel's URL. -/
def contextHost (host : String) : String :=
  let host :=
    match splitHostPort host with
    | some (h, _) => h
    | none => host
  trimDot (toLower (trimBrackets host))

/-- The origin and the relying party's id. -/
def webauthnContext (cfg : Config) (r : Request) : String × String :=
  let pinnedOrigin := trimSpace cfg.webAuthnOrigin
  let pinnedRPID := trimSpace cfg.webAuthnRPID
  if pinnedOrigin ≠ "" ∧ pinnedRPID ≠ "" then (pinnedOrigin, pinnedRPID)
  else (inferScheme cfg r ++ "://" ++ contextHost r.host, contextHost r.host)

example : webauthnContext Config.default ⟨"Panel.example.com:6767", "198.51.100.7:1", []⟩ =
    ("https://panel.example.com", "panel.example.com") := by decide +kernel

/-! ## The URL of the panel -/

def nameChar (c : Char) : Bool := c.isAlphanum || c = '-' || c = '_' || c = '.'

def literalChar (c : Char) : Bool := (hexDigit c).isSome || c = ':' || c = '.'

/-- A DNS name or an IPv4 address, or what stands in the brackets of an IPv6 literal. -/
inductive UrlHost where
  | name (text : String)
  | ipv6 (text : String)

namespace UrlHost

def Valid : UrlHost → Prop
  | name text => text ≠ "" ∧ text.toList.head? ≠ some '.' ∧ ∀ c ∈ text.toList, nameChar c = true
  | ipv6 text => ':' ∈ text.toList ∧ ∀ c ∈ text.toList, literalChar c = true

def text : UrlHost → String
  | name text => text
  | ipv6 text => "[" ++ text ++ "]"

theorem text_name (name : String) : (UrlHost.name name).text = name := rfl

theorem text_ipv6 (literal : String) : (UrlHost.ipv6 literal).text = "[" ++ literal ++ "]" := rfl

end UrlHost

/-- The host and the port of a URL, in any letter case. -/
structure PanelUrl where
  host : UrlHost
  port : Option Nat
  valid : host.Valid

def portText (port : Option Nat) : String := (port.map fun p => ":" ++ toString p).getD ""

/-- What the `Host` header holds. -/
def PanelUrl.authority (u : PanelUrl) : String := u.host.text ++ portText u.port

def defaultPort (scheme : String) : Nat := if scheme = "https" then 443 else 80

/-- The origin a browser reports: the host in lower case, and the port unless it is the default. -/
def PanelUrl.browserOrigin (u : PanelUrl) (scheme : String) : String :=
  scheme ++ "://" ++ toLower u.host.text ++
    portText (u.port.filter (· ≠ defaultPort scheme))

/-- A name without a dot at its end, at the default port. -/
structure PanelUrl.Plain (u : PanelUrl) (scheme : String) : Prop where
  port : ∀ p, u.port = some p → p = defaultPort scheme
  name : ∃ text, u.host = .name text ∧ text.toList.getLast? ≠ some '.'

/-- A name that may have an origin: one of HTTPS, or of the machine itself. -/
def PanelUrl.Secure (u : PanelUrl) (scheme : String) : Prop :=
  ∃ text, u.host = .name text ∧
    (scheme = "https" ∨ Config.isLoopbackHost (trimDot (toLower text)) = true)

/-- No origin is pinned. -/
def Unpinned (cfg : Config) : Prop :=
  trimSpace cfg.webAuthnOrigin = "" ∨ trimSpace cfg.webAuthnRPID = ""

/-- A configuration that a finish handler saves, with the context of its challenge. -/
def Pinned (context : String × String) (cfg updated : Config) : Prop :=
  (∃ id count now, passkeyLoginFinish context.1 context.2 id count now cfg = some updated) ∨
    ∃ credential, passkeyRegisterFinish context.1 context.2 credential cfg = some updated

/-! ## What is read off the `Host` header -/

theorem portText_some (p : Nat) : portText (some p) = String.ofList (':' :: Nat.toDigits 10 p) := by
  refine String.toList_injective ?_
  simp [portText, String.toList_append]

theorem isDigit_of_port {p : Nat} {c : Char} (h : c ∈ Nat.toDigits 10 p) : c.isDigit = true :=
  Nat.isDigit_of_mem_toDigits (by decide) (by decide) h

theorem nameChar_ne {c : Char} (h : nameChar c = true) : c ≠ ':' ∧ c ≠ '[' ∧ c ≠ ']' := by
  refine ⟨?_, ?_, ?_⟩ <;>
  · rintro rfl
    revert h
    decide

theorem literalChar_ne {c : Char} (h : literalChar c = true) : c ≠ '[' ∧ c ≠ ']' := by
  refine ⟨?_, ?_⟩ <;>
  · rintro rfl
    revert h
    decide

/-- The text of the host is found, its brackets and a port left out. -/
theorem contextHost_name {text : String} {port : Option Nat} (h : UrlHost.Valid (.name text)) :
    contextHost (text ++ portText port) = trimDot (toLower text) := by
  have hchars : ∀ c ∈ text.toList, c ≠ ':' ∧ c ≠ '[' ∧ c ≠ ']' :=
    fun c hc => nameChar_ne (h.2.2 c hc)
  have htrim : trimBrackets text = text := trimBrackets_eq_self fun c hc => (hchars c hc).2
  unfold contextHost
  cases port with
  | none =>
    rw [show portText none = "" from rfl, String.append_empty,
      splitHostPort_none fun hmem => (hchars _ hmem).1 rfl]
    dsimp only
    rw [htrim]
  | some p =>
    have hsplit : text ++ portText (some p) =
        String.ofList (text.toList ++ ':' :: Nat.toDigits 10 p) := by
      rw [portText_some]
      refine String.toList_injective ?_
      simp
    rw [hsplit, splitHostPort_name (fun c hc => isDigit_of_port hc) hchars]
    dsimp only
    rw [String.ofList_toList, htrim]

theorem contextHost_ipv6 {text : String} {port : Option Nat} (h : UrlHost.Valid (.ipv6 text)) :
    contextHost ("[" ++ text ++ "]" ++ portText port) = trimDot (toLower text) := by
  have hchars : ∀ c ∈ text.toList, c ≠ '[' ∧ c ≠ ']' := fun c hc => literalChar_ne (h.2 c hc)
  unfold contextHost
  cases port with
  | none =>
    have hsplit : "[" ++ text ++ "]" ++ portText none = String.ofList ('[' :: text.toList ++ [']']) := by
      refine String.toList_injective ?_
      simp [portText]
    rw [hsplit, splitHostPort_literal_none h.1]
    dsimp only
    rw [trimBrackets_literal hchars, String.ofList_toList]
  | some p =>
    have hsplit : "[" ++ text ++ "]" ++ portText (some p) =
        String.ofList ('[' :: text.toList ++ ']' :: ':' :: Nat.toDigits 10 p) := by
      rw [portText_some]
      refine String.toList_injective ?_
      simp
    rw [hsplit, splitHostPort_literal (fun c hc => isDigit_of_port hc) hchars]
    dsimp only
    rw [String.ofList_toList, trimBrackets_eq_self hchars]

/-! ## Comparing origins -/

/-- A character that normalizing leaves alone. -/
structure Stable (c : Char) : Prop where
  space : isSpace c = false
  lower : lowerChar c = c
  slash : c ≠ '/'

theorem alphanum_lt {c : Char} (h : c.isAlphanum = true) : c.toNat < 128 := by
  have hval : c.toNat = c.val.toNat := rfl
  change ((decide (c.val ≥ 'A'.val ∧ c.val ≤ 'Z'.val) || (c.val ≥ 'a'.val && c.val ≤ 'z'.val)) ||
    (c.val ≥ '0'.val && c.val ≤ '9'.val)) = true at h
  simp only [Bool.or_eq_true, Bool.and_eq_true, decide_eq_true_eq] at h
  rcases h with (h | h) | h
  · have hZ : c.val.toNat ≤ 'Z'.val.toNat := h.2
    have h90 : 'Z'.val.toNat = 90 := rfl
    omega
  · have hz : c.val.toNat ≤ 'z'.val.toNat := h.2
    have h122 : 'z'.val.toNat = 122 := rfl
    omega
  · have h9 : c.val.toNat ≤ '9'.val.toNat := h.2
    have h57 : '9'.val.toNat = 57 := rfl
    omega

theorem nameChar_lt {c : Char} (h : nameChar c = true) : c.toNat < 128 := by
  simp only [nameChar, Bool.or_eq_true, decide_eq_true_eq] at h
  rcases h with ((h | rfl) | rfl) | rfl
  · exact alphanum_lt h
  all_goals decide

theorem literalChar_lt {c : Char} (h : literalChar c = true) : c.toNat < 128 := by
  simp only [literalChar, Bool.or_eq_true, decide_eq_true_eq] at h
  rcases h with (h | rfl) | rfl
  · unfold hexDigit at h
    split at h
    · rename_i hdigit
      exact alphanum_lt (by simp [Char.isAlphanum, hdigit])
    · split at h
      · rename_i hrange
        have hf : 'f'.val.toNat = 102 := rfl
        have hle : c.val.toNat ≤ 'f'.val.toNat := hrange.2
        have hval : c.toNat = c.val.toNat := rfl
        omega
      · split at h
        · rename_i hrange
          have hF : 'F'.val.toNat = 70 := rfl
          have hle : c.val.toNat ≤ 'F'.val.toNat := hrange.2
          have hval : c.toNat = c.val.toNat := rfl
          omega
        · cases h
  all_goals decide

/-- A character of a host in lower case. -/
structure HostLower (c : Char) : Prop extends Stable c where
  host : NetUrl.hostChar c = true
  bracket : c ≠ '['

theorem hostLower_of_nameChar {c : Char} (h : nameChar c = true) :
    HostLower (lowerChar c) ∧ lowerChar c ≠ ':' ∧ (lowerChar c = '.' ↔ c = '.') := by
  have hall : ∀ n < 128, nameChar (Char.ofNat n) = true →
      (isSpace (lowerChar (Char.ofNat n)) = false ∧
        lowerChar (lowerChar (Char.ofNat n)) = lowerChar (Char.ofNat n) ∧
          lowerChar (Char.ofNat n) ≠ '/' ∧ NetUrl.hostChar (lowerChar (Char.ofNat n)) = true ∧
            lowerChar (Char.ofNat n) ≠ '[') ∧ lowerChar (Char.ofNat n) ≠ ':' ∧
              (lowerChar (Char.ofNat n) = '.' ↔ Char.ofNat n = '.') := by
    decide +kernel
  have hc := hall c.toNat (nameChar_lt h)
  rw [Char.ofNat_toNat] at hc
  obtain ⟨⟨hspace, hlower, hslash, hhost, hbracket⟩, hrest⟩ := hc h
  exact ⟨⟨⟨hspace, hlower, hslash⟩, hhost, hbracket⟩, hrest⟩

theorem hostLower_of_literalChar {c : Char} (h : literalChar c = true) :
    HostLower (lowerChar c) ∧ (lowerChar c = ':' ↔ c = ':') := by
  have hall : ∀ n < 128, literalChar (Char.ofNat n) = true →
      (isSpace (lowerChar (Char.ofNat n)) = false ∧
        lowerChar (lowerChar (Char.ofNat n)) = lowerChar (Char.ofNat n) ∧
          lowerChar (Char.ofNat n) ≠ '/' ∧ NetUrl.hostChar (lowerChar (Char.ofNat n)) = true ∧
            lowerChar (Char.ofNat n) ≠ '[') ∧ (lowerChar (Char.ofNat n) = ':' ↔ Char.ofNat n = ':') := by
    decide +kernel
  have hc := hall c.toNat (literalChar_lt h)
  rw [Char.ofNat_toNat] at hc
  obtain ⟨⟨hspace, hlower, hslash, hhost, hbracket⟩, hrest⟩ := hc h
  exact ⟨⟨⟨hspace, hlower, hslash⟩, hhost, hbracket⟩, hrest⟩

theorem stable_digit {c : Char} (h : c.isDigit = true) : Stable c := by
  have hall : ∀ n < 128, (Char.ofNat n).isDigit = true → isSpace (Char.ofNat n) = false ∧
      lowerChar (Char.ofNat n) = Char.ofNat n ∧ Char.ofNat n ≠ '/' := by
    decide +kernel
  have hc := hall c.toNat (alphanum_lt (by simp [Char.isAlphanum, h]))
  rw [Char.ofNat_toNat] at hc
  obtain ⟨hspace, hlower, hslash⟩ := hc h
  exact ⟨hspace, hlower, hslash⟩

theorem toLower_eq_self {s : String} (h : ∀ c ∈ s.toList, lowerChar c = c) : toLower s = s := by
  unfold toLower
  rw [List.map_congr_left h, List.map_id', String.ofList_toList]

theorem scheme_cons {scheme : String} (h : scheme = "http" ∨ scheme = "https") :
    ∃ more, scheme.toList = 'h' :: more ∧
      ∀ c ∈ 'h' :: more, isSpace c = false ∧ lowerChar c = c ∧ c ≠ '[' := by
  rcases h with rfl | rfl
  · exact ⟨['t', 't', 'p'], rfl, by simp [isSpace, lowerChar]⟩
  · exact ⟨['t', 't', 'p', 's'], rfl, by simp [isSpace, lowerChar]⟩

/-- An origin in lower case, with a host, is normal. -/
theorem normalizeOrigin_eq_self {scheme rest : String} (hscheme : scheme = "http" ∨ scheme = "https")
    (hne : rest ≠ "") (h : ∀ c ∈ rest.toList, Stable c) :
    trimSpace (scheme ++ "://" ++ rest) = scheme ++ "://" ++ rest ∧
      normalizeOrigin (scheme ++ "://" ++ rest) = scheme ++ "://" ++ rest := by
  obtain ⟨more, hchars, hplain⟩ := scheme_cons hscheme
  have hlist : (scheme ++ "://" ++ rest).toList = 'h' :: (more ++ ':' :: '/' :: '/' :: rest.toList) := by
    simp [String.toList_append, hchars]
  have hrest : rest.toList ≠ [] := fun hnil => hne (String.toList_eq_nil_iff.mp hnil)
  have hlast : (scheme ++ "://" ++ rest).toList.getLast? = some (rest.toList.getLast hrest) := by
    rw [hlist, List.getLast?_cons, List.getLast?_append, List.getLast?_cons, List.getLast?_cons,
      List.getLast?_cons, List.getLast?_eq_some_getLast hrest]
    rfl
  have hstable := h _ (List.getLast_mem hrest)
  have htrim : trimSpace (scheme ++ "://" ++ rest) = scheme ++ "://" ++ rest := by
    refine trimSpace_eq_self (fun c hc => ?_) fun c hc => ?_
    · rw [hlist] at hc
      cases hc
      decide
    · rw [hlast] at hc
      cases hc
      exact hstable.space
  have hlower : toLower (scheme ++ "://" ++ rest) = scheme ++ "://" ++ rest := by
    refine toLower_eq_self fun c hc => ?_
    rw [hlist, ← List.cons_append] at hc
    rcases List.mem_append.mp hc with hc | hc
    · exact (hplain c hc).2.1
    · rcases List.mem_cons.mp hc with rfl | hc
      · decide
      · rcases List.mem_cons.mp hc with rfl | hc
        · decide
        · rcases List.mem_cons.mp hc with rfl | hc
          · decide
          · exact (h c hc).lower
  refine ⟨htrim, ?_⟩
  unfold normalizeOrigin
  rw [htrim, hlower, List.rdropWhile_eq_self_iff.mpr, String.ofList_toList]
  intro hnil
  have hsame : (scheme ++ "://" ++ rest).toList.getLast hnil = rest.toList.getLast hrest := by
    rw [List.getLast?_eq_some_getLast hnil] at hlast
    exact Option.some.inj hlast
  rw [hsame]
  simpa using hstable.slash

theorem toList_toLower (s : String) : (toLower s).toList = s.toList.map lowerChar :=
  String.toList_ofList

/-- A dot at the end goes, if there is one. -/
theorem trimDot_append (s : String) : ∃ dot, s = trimDot s ++ dot ∧ (∀ c ∈ dot.toList, c = '.') ∧
    (dot = "" ↔ s.toList.getLast? ≠ some '.') := by
  unfold trimDot
  split
  · rename_i hlast
    refine ⟨".", ?_, by simp, by simp [hlast]⟩
    refine String.toList_injective ?_
    have hsplit := List.dropLast_append_getLast? '.' hlast
    rw [String.toList_append, String.toList_ofList]
    exact hsplit.symm
  · rename_i hlast
    exact ⟨"", by simp, by simp, by simp [hlast]⟩

theorem mem_trimDot {s : String} {c : Char} (h : c ∈ (trimDot s).toList) : c ∈ s.toList := by
  obtain ⟨dot, hs, -⟩ := trimDot_append s
  rw [hs, String.toList_append]
  exact List.mem_append_left _ h

/-- The text of a name in lower case, its last dot left out. -/
theorem name_lower {text : String} (h : UrlHost.Valid (.name text)) :
    (∀ c ∈ (toLower text).toList, HostLower c ∧ c ≠ ':') ∧ trimDot (toLower text) ≠ "" ∧
      ((toLower text).toList.getLast? = some '.' ↔ text.toList.getLast? = some '.') := by
  obtain ⟨hne, hhead, hchars⟩ := h
  have hchar : ∀ c ∈ (toLower text).toList, HostLower c ∧ c ≠ ':' := by
    intro c hc
    rw [toList_toLower] at hc
    obtain ⟨d, hd, rfl⟩ := List.mem_map.mp hc
    obtain ⟨hlower, hcolon, -⟩ := hostLower_of_nameChar (hchars d hd)
    exact ⟨hlower, hcolon⟩
  have hdot : ∀ c, c ∈ text.toList → (lowerChar c = '.' ↔ c = '.') :=
    fun c hc => (hostLower_of_nameChar (hchars c hc)).2.2
  refine ⟨hchar, fun hnil => ?_, ?_⟩
  · obtain ⟨dot, hs, hdots, -⟩ := trimDot_append (toLower text)
    rw [hnil] at hs
    cases htext : text.toList with
    | nil => exact hne (String.toList_eq_nil_iff.mp htext)
    | cons c rest =>
      have hmem : lowerChar c ∈ dot.toList := by
        have hlist := congrArg String.toList hs
        rw [toList_toLower, htext] at hlist
        simp only [List.map_cons, String.toList_append, String.toList_empty, List.nil_append] at hlist
        rw [← hlist]
        exact List.mem_cons_self
      have hc : c = '.' := (hdot c (by simp [htext])).mp (hdots _ hmem)
      rw [htext, hc] at hhead
      exact hhead rfl
  · rw [toList_toLower, List.getLast?_map]
    cases hlast : text.toList.getLast? with
    | none => simp
    | some c =>
      simp only [Option.map_some, Option.some.injEq]
      exact hdot c (List.mem_of_getLast? hlast)

theorem ipv6_lower {text : String} (h : UrlHost.Valid (.ipv6 text)) :
    (∀ c ∈ (toLower text).toList, HostLower c) ∧ ':' ∈ (trimDot (toLower text)).toList := by
  constructor
  · intro c hc
    rw [toList_toLower] at hc
    obtain ⟨d, hd, rfl⟩ := List.mem_map.mp hc
    exact (hostLower_of_literalChar (h.2 d hd)).1
  · obtain ⟨dot, hs, hdots, -⟩ := trimDot_append (toLower text)
    have hmem : ':' ∈ (toLower text).toList := by
      rw [toList_toLower]
      exact List.mem_map.mpr ⟨':', h.1, by decide⟩
    rw [hs, String.toList_append] at hmem
    rcases List.mem_append.mp hmem with hmem | hmem
    · exact hmem
    · exact absurd (hdots _ hmem) (by decide)

/-! ## The origin that is compared -/

section

variable {cfg : Config} {r : Request} {u : PanelUrl}

theorem inferScheme_cases (cfg : Config) (r : Request) :
    inferScheme cfg r = "http" ∨ inferScheme cfg r = "https" := by
  unfold inferScheme
  dsimp only
  split
  · split
    · assumption
    · cases cfg.secureCookie <;> simp
  · cases cfg.secureCookie <;> simp

/-- Without a pinned origin the context is what the request says. -/
theorem context_eq (hcfg : Unpinned cfg) :
    webauthnContext cfg r = (inferScheme cfg r ++ "://" ++ contextHost r.host, contextHost r.host) := by
  unfold webauthnContext
  refine if_neg fun h => ?_
  rcases hcfg with horigin | hrpID
  · exact h.1 horigin
  · exact h.2 hrpID

/-- What an honest browser signs is accepted where the origins agree. -/
theorem verifyClientData_honest {env : Auth.Webauthn.Env} {raw : List UInt8}
    {expectedType challenge origin expected : String}
    (hraw : env.unmarshal raw = some ⟨expectedType, challenge, origin⟩)
    (horigin : normalizeOrigin expected = normalizeOrigin origin) :
    verifyClientData env raw expectedType challenge expected = .ok () := by
  unfold verifyClientData
  rw [hraw]
  simp [horigin]

theorem filter_port_eq_none {port : Option Nat} {n : Nat} :
    portText (port.filter (· ≠ n)) = "" ↔ ∀ p, port = some p → p = n := by
  cases port with
  | none => simp [portText]
  | some p =>
    by_cases hp : p = n
    · simp [Option.filter, hp, portText]
    · have hfilter : (some p).filter (· ≠ n) = some p := by simp [Option.filter, hp]
      rw [hfilter, portText_some]
      constructor
      · intro h
        have hlist := congrArg String.toList h
        simp at hlist
      · intro h
        exact absurd (h p rfl) hp

/-- The origin of a name is the browser's if the browser adds neither a port nor a last dot. -/
theorem origin_name {scheme text port : String} (hscheme : scheme = "http" ∨ scheme = "https")
    (hvalid : UrlHost.Valid (.name text)) (hport : ∀ c ∈ port.toList, Stable c) :
    normalizeOrigin (scheme ++ "://" ++ trimDot (toLower text)) =
        normalizeOrigin (scheme ++ "://" ++ (toLower text ++ port)) ↔
      port = "" ∧ text.toList.getLast? ≠ some '.' := by
  obtain ⟨hchars, hne, hlast⟩ := name_lower hvalid
  obtain ⟨dot, hdot, -, hnodot⟩ := trimDot_append (toLower text)
  have hbrowser : (toLower text ++ port) ≠ "" := by
    rw [hdot, String.append_assoc]
    exact fun h => hne (String.append_eq_empty_iff.mp h).1
  have hall : ∀ c ∈ (toLower text ++ port).toList, Stable c := by
    intro c hc
    rw [String.toList_append] at hc
    rcases List.mem_append.mp hc with hc | hc
    · exact (hchars c hc).1.toStable
    · exact hport c hc
  have hcontext := normalizeOrigin_eq_self hscheme hne fun c hc => (hchars c (mem_trimDot hc)).1.toStable
  rw [hcontext.2, (normalizeOrigin_eq_self hscheme hbrowser hall).2, String.append_right_inj]
  have hsame : trimDot (toLower text) = toLower text ++ port ↔ dot = "" ∧ port = "" := by
    rw [← String.append_eq_empty_iff, ← @String.append_eq_left_iff (trimDot (toLower text)),
      ← String.append_assoc, ← hdot]
    exact eq_comm
  rw [hsame, hnodot, ne_eq, hlast]
  exact And.comm

/-- The origin of an IPv6 literal has no brackets. -/
theorem origin_ipv6 {scheme text port : String} (hscheme : scheme = "http" ∨ scheme = "https")
    (hvalid : UrlHost.Valid (.ipv6 text)) (hport : ∀ c ∈ port.toList, Stable c) :
    normalizeOrigin (scheme ++ "://" ++ trimDot (toLower text)) ≠
      normalizeOrigin (scheme ++ "://" ++ (toLower ("[" ++ text ++ "]") ++ port)) := by
  obtain ⟨hchars, hcolon⟩ := ipv6_lower hvalid
  have hlower : (toLower ("[" ++ text ++ "]")).toList = '[' :: ((toLower text).toList ++ [']']) := by
    simp only [toList_toLower, String.toList_append, List.map_append]
    rfl
  have hne : trimDot (toLower text) ≠ "" := by
    intro hnil
    rw [hnil] at hcolon
    cases hcolon
  have hbrowser : toLower ("[" ++ text ++ "]") ++ port ≠ "" := by
    intro hnil
    have hlist := congrArg String.toList (String.append_eq_empty_iff.mp hnil).1
    rw [hlower] at hlist
    cases hlist
  have hbracket : Stable '[' ∧ Stable ']' :=
    ⟨⟨by decide, by decide, by decide⟩, ⟨by decide, by decide, by decide⟩⟩
  have hall : ∀ c ∈ (toLower ("[" ++ text ++ "]") ++ port).toList, Stable c := by
    intro c hc
    rw [String.toList_append, hlower] at hc
    simp only [List.cons_append, List.mem_cons, List.mem_append, List.not_mem_nil, or_false] at hc
    rcases hc with rfl | (hc | rfl) | hc
    · exact hbracket.1
    · exact (hchars c hc).toStable
    · exact hbracket.2
    · exact hport c hc
  have hcontext := normalizeOrigin_eq_self hscheme hne fun c hc => (hchars c (mem_trimDot hc)).toStable
  rw [hcontext.2, (normalizeOrigin_eq_self hscheme hbrowser hall).2, ne_eq, String.append_right_inj]
  intro heq
  have hmem : '[' ∈ (trimDot (toLower text)).toList := by
    rw [heq, String.toList_append, hlower]
    exact List.mem_append_left _ List.mem_cons_self
  exact (hchars _ (mem_trimDot hmem)).bracket rfl

theorem stable_portText {port : Option Nat} {c : Char} (h : c ∈ (portText port).toList) : Stable c := by
  cases port with
  | none => cases h
  | some p =>
    rw [portText_some, String.toList_ofList] at h
    rcases List.mem_cons.mp h with rfl | h
    · exact ⟨by decide, by decide, by decide⟩
    · exact stable_digit (isDigit_of_port h)

/-- The host of the context, as the request names it. -/
theorem contextHost_eq (hr : r.host = u.authority) :
    ∃ text, (u.host = .name text ∨ u.host = .ipv6 text) ∧ contextHost r.host = trimDot (toLower text) := by
  have hvalid := u.valid
  rw [hr]
  unfold PanelUrl.authority
  cases hhost : u.host with
  | name text =>
    rw [hhost] at hvalid
    exact ⟨text, .inl rfl, contextHost_name hvalid⟩
  | ipv6 text =>
    rw [hhost] at hvalid
    exact ⟨text, .inr rfl, contextHost_ipv6 hvalid⟩

/-- Both origins are the same where the host is a name without a last dot, at the default port. -/
theorem origin_iff (hcfg : Unpinned cfg) (hr : r.host = u.authority) :
    normalizeOrigin (webauthnContext cfg r).1 =
        normalizeOrigin (u.browserOrigin (inferScheme cfg r)) ↔ u.Plain (inferScheme cfg r) := by
  have hscheme := inferScheme_cases cfg r
  have hvalid := u.valid
  obtain ⟨text, hhost, hcontext⟩ := contextHost_eq hr
  rw [context_eq hcfg]
  dsimp only
  rw [hcontext]
  unfold PanelUrl.browserOrigin
  rw [@String.append_assoc (inferScheme cfg r ++ "://")]
  rcases hhost with hhost | hhost
  · rw [hhost] at hvalid
    rw [hhost, UrlHost.text_name, origin_name hscheme hvalid fun c hc => stable_portText hc,
      filter_port_eq_none]
    constructor
    · intro h
      exact ⟨h.1, text, hhost, h.2⟩
    · intro h
      obtain ⟨name, hname, hdot⟩ := h.name
      cases hhost.symm.trans hname
      exact ⟨h.port, hdot⟩
  · rw [hhost] at hvalid
    rw [hhost, UrlHost.text_ipv6]
    constructor
    · intro h
      exact absurd h (origin_ipv6 hscheme hvalid fun c hc => stable_portText hc)
    · intro h
      obtain ⟨name, hname, -⟩ := h.name
      cases hhost.symm.trans hname

/-! ## The pair that is pinned -/

/-- A name is accepted with its origin over HTTPS, and over HTTP on a loopback host. -/
theorem validateOrigin_name {scheme host : String} (hscheme : scheme = "http" ∨ scheme = "https")
    (hne : host ≠ "") (hchars : ∀ c ∈ host.toList, HostLower c ∧ c ≠ ':') :
    Config.validateOrigin (scheme ++ "://" ++ host) host = .ok () ↔
      scheme = "https" ∨ Config.isLoopbackHost host = true := by
  have hhost : ∀ c ∈ host.toList, NetUrl.hostChar c = true := fun c hc => (hchars c hc).1.host
  have hcolon : ':' ∉ host.toList := fun hmem => (hchars _ hmem).2 rfl
  have hbracket : '[' ∉ host.toList := fun hmem => (hchars _ hmem).1.bracket rfl
  have hparse := NetUrl.parse_origin hscheme hhost
  rw [NetUrl.parseHost_name hhost hcolon hbracket, String.ofList_toList, Option.map_some] at hparse
  have hname : (⟨scheme.toList, false, host.toList, [], [], []⟩ : NetUrl.URL).hostname = host.toList :=
    NetUrl.hostname_of_name hcolon hbracket
  have hnil : host.toList ≠ [] := fun h => hne (String.toList_eq_nil_iff.mp h)
  have hlower : toLower host = host := toLower_eq_self fun c hc => (hchars c hc).1.lower
  have hfold : Config.equalFold host host = true := by simp [Config.equalFold]
  unfold Config.validateOrigin
  rw [hparse]
  dsimp only
  rw [hname, String.ofList_toList, hlower, if_neg (by simp [hnil]), if_neg (by simp [hne, hfold])]
  rcases hscheme with rfl | rfl
  · by_cases hloop : Config.isLoopbackHost host = true
    · simp [hloop]
    · simp [hloop]
  · simp

/-- The origin of an IPv6 literal is no URL, or one of another host. -/
theorem validateOrigin_literal {scheme host : String} (hscheme : scheme = "http" ∨ scheme = "https")
    (hchars : ∀ c ∈ host.toList, HostLower c) (hcolon : ':' ∈ host.toList) :
    Config.validateOrigin (scheme ++ "://" ++ host) host ≠ .ok () := by
  have hhost : ∀ c ∈ host.toList, NetUrl.hostChar c = true := fun c hc => (hchars c hc).host
  have hbracket : '[' ∉ host.toList := fun hmem => (hchars _ hmem).bracket rfl
  have hparse := NetUrl.parse_origin hscheme hhost
  rw [String.ofList_toList] at hparse
  unfold Config.validateOrigin
  rw [hparse]
  cases hparsed : NetUrl.parseHost host.toList with
  | none =>
    intro h
    cases h
  | some parsed =>
    have hshort := @NetUrl.hostname_of_colon _ _ ⟨scheme.toList, false, parsed, [], [], []⟩
      hhost hcolon hbracket hparsed rfl
    rw [Option.map_some]
    generalize (⟨scheme.toList, false, parsed, [], [], []⟩ : NetUrl.URL) = url at hshort
    have hfold : Config.equalFold (toLower (String.ofList url.hostname)) host = false := by
      unfold Config.equalFold
      rw [decide_eq_false_iff_not]
      intro heq
      have hlength := congrArg List.length heq
      simp only [List.length_map, toList_toLower, String.toList_ofList] at hlength
      omega
    dsimp only
    split
    · intro h
      cases h
    · rw [if_pos (.inr hfold)]
      intro h
      cases h

/-- A finish handler sets the origin and the relying party's id, and changes passkeys. -/
theorem pinned_eq {context : String × String} {saved updated : Config}
    (horigin : saved.webAuthnOrigin = "") (hrpID : saved.webAuthnRPID = "")
    (h : Pinned context saved updated) : ∃ passkeys, updated = { saved with
      webAuthnOrigin := context.1, webAuthnRPID := context.2, passkeys := passkeys } := by
  have hpin : pinWebAuthn context.1 context.2 saved =
      { saved with webAuthnOrigin := context.1, webAuthnRPID := context.2 } := if_pos ⟨horigin, hrpID⟩
  rcases h with ⟨id, count, now, h⟩ | ⟨credential, h⟩
  · unfold passkeyLoginFinish at h
    rw [hpin] at h
    dsimp only at h
    split at h
    · cases h
    · cases h
      exact ⟨_, rfl⟩
  · unfold passkeyRegisterFinish at h
    rw [hpin] at h
    dsimp only at h
    split at h
    · cases h
    · split at h
      · cases h
      · cases h
        exact ⟨_, rfl⟩

/-- Some finish handler pins the context: a login if there is a passkey, else a registration. -/
theorem exists_pinned (context : String × String) (saved : Config) :
    ∃ updated, Pinned context saved updated := by
  have hpasskeys := pinWebAuthn_passkeys context.1 context.2 saved
  cases hsaved : saved.passkeys with
  | nil =>
    have hregister : ∃ updated, passkeyRegisterFinish context.1 context.2
        ⟨"", [], "", "", 0, 0, 0⟩ saved = some updated := by
      unfold passkeyRegisterFinish
      dsimp only
      rw [hpasskeys, hsaved]
      exact ⟨_, rfl⟩
    obtain ⟨updated, hupdated⟩ := hregister
    exact ⟨updated, .inr ⟨_, hupdated⟩⟩
  | cons passkey rest =>
    have hlogin : ∃ updated, passkeyLoginFinish context.1 context.2 passkey.id 0 0 saved =
        some updated := by
      unfold passkeyLoginFinish
      dsimp only
      rw [hpasskeys, hsaved, List.findIdx?_cons, beq_self_eq_true, if_pos rfl]
      exact ⟨_, rfl⟩
    obtain ⟨updated, hupdated⟩ := hlogin
    exact ⟨updated, .inl ⟨_, _, _, hupdated⟩⟩

/-- The rest of an accepted configuration is accepted again. -/
theorem pinned_valid_iff {saved : Config} {origin rpID : String}
    (hsaved : saved.validate = .ok ()) (horigin : saved.webAuthnOrigin = "")
    (hrpID : saved.webAuthnRPID = "") (hspace : trimSpace origin = origin) (horiginNe : origin ≠ "")
    (htrim : trimSpace rpID = rpID) (hne : rpID ≠ "") :
    (∀ updated, Pinned (origin, rpID) saved updated → updated.validate = .ok ()) ↔
      Config.validateOrigin origin rpID = .ok () := by
  have hjudged : ∀ updated, Pinned (origin, rpID) saved updated →
      updated.validate = Config.validateOrigin origin rpID := by
    intro updated hpinned
    obtain ⟨passkeys, rfl⟩ := pinned_eq horigin hrpID hpinned
    exact Config.validate_of_origin hsaved rfl hspace horiginNe htrim hne
  constructor
  · intro h
    obtain ⟨updated, hpinned⟩ := exists_pinned (origin, rpID) saved
    rw [← hjudged updated hpinned]
    exact h updated hpinned
  · intro h updated hpinned
    rw [hjudged updated hpinned]
    exact h

/-- Every configuration that pins the context is accepted if the origin is a secure one. -/
theorem pinned_iff {saved : Config} (hcfg : Unpinned cfg) (hr : r.host = u.authority)
    (hsaved : saved.validate = .ok ()) (horigin : saved.webAuthnOrigin = "")
    (hrpID : saved.webAuthnRPID = "") :
    (∀ updated, Pinned (webauthnContext cfg r) saved updated → updated.validate = .ok ()) ↔
      u.Secure (inferScheme cfg r) := by
  have hscheme := inferScheme_cases cfg r
  have hvalid := u.valid
  obtain ⟨text, hhost, hcontext⟩ := contextHost_eq hr
  rw [context_eq hcfg, hcontext]
  have hchars : ∀ c ∈ (trimDot (toLower text)).toList, HostLower c := by
    rcases hhost with hhost | hhost
    · rw [hhost] at hvalid
      exact fun c hc => ((name_lower hvalid).1 c (mem_trimDot hc)).1
    · rw [hhost] at hvalid
      exact fun c hc => (ipv6_lower hvalid).1 c (mem_trimDot hc)
  have hne : trimDot (toLower text) ≠ "" := by
    rcases hhost with hhost | hhost
    · rw [hhost] at hvalid
      exact (name_lower hvalid).2.1
    · rw [hhost] at hvalid
      intro hnil
      have hcolon := (ipv6_lower hvalid).2
      rw [hnil] at hcolon
      cases hcolon
  have hspace := (normalizeOrigin_eq_self hscheme hne fun c hc => (hchars c hc).toStable).1
  have htrim : trimSpace (trimDot (toLower text)) = trimDot (toLower text) :=
    trimSpace_eq_self (fun c hc => (hchars c (List.mem_of_mem_head? hc)).space)
      fun c hc => (hchars c (List.mem_of_getLast? hc)).space
  have horiginNe : inferScheme cfg r ++ "://" ++ trimDot (toLower text) ≠ "" :=
    fun h => hne (String.append_eq_empty_iff.mp h).2
  have hall := pinned_valid_iff hsaved horigin hrpID hspace horiginNe htrim hne
  rw [hall]
  rcases hhost with hhost | hhost
  · rw [hhost] at hvalid
    rw [validateOrigin_name hscheme hne fun c hc => (name_lower hvalid).1 c (mem_trimDot hc)]
    constructor
    · intro h
      exact ⟨text, hhost, h⟩
    · intro h
      obtain ⟨name, hname, hsecure⟩ := h
      cases hhost.symm.trans hname
      exact hsecure
  · rw [hhost] at hvalid
    constructor
    · intro h
      exact absurd h (validateOrigin_literal hscheme hchars (ipv6_lower hvalid).2)
    · intro h
      obtain ⟨name, hname, -⟩ := h
      cases hhost.symm.trans hname

/-- Where no origin is pinned, the ceremony has the browser's origin and pins an accepted
configuration exactly for the panel at a name without a last dot and at the default port, over HTTPS
or on a loopback host. -/
theorem ceremony_iff (cfg saved : Config) (r : Request) (u : PanelUrl) (hcfg : Unpinned cfg)
    (hr : r.host = u.authority) (hsaved : saved.validate = .ok ())
    (horigin : saved.webAuthnOrigin = "") (hrpID : saved.webAuthnRPID = "") :
    (normalizeOrigin (webauthnContext cfg r).1 =
        normalizeOrigin (u.browserOrigin (inferScheme cfg r)) ∧
      (∀ env raw expectedType challenge,
        env.unmarshal raw = some ⟨expectedType, challenge, u.browserOrigin (inferScheme cfg r)⟩ →
          verifyClientData env raw expectedType challenge (webauthnContext cfg r).1 = .ok ()) ∧
      ∀ updated, Pinned (webauthnContext cfg r) saved updated → updated.validate = .ok ()) ↔
      u.Plain (inferScheme cfg r) ∧ u.Secure (inferScheme cfg r) := by
  rw [← origin_iff hcfg hr, ← pinned_iff hcfg hr hsaved horigin hrpID]
  constructor
  · intro h
    exact ⟨h.1, h.2.2⟩
  · intro h
    refine ⟨h.1, ?_, h.2⟩
    intro env raw expectedType challenge hraw
    exact verifyClientData_honest hraw h.1

/-- A configuration with the secrets that the setup fills in. -/
def installed : Config :=
  { Config.default with passwordHash := "p", sessionSecret := "s", agentSecret := "a" }

def panelUrl (port : Option Nat) : PanelUrl where
  host := .name "Panel.example.com"
  port := port
  valid := ⟨by decide, by decide, List.all_eq_true.mp (by decide +kernel)⟩

theorem ceremony_default_port :
    normalizeOrigin (webauthnContext installed ⟨"Panel.example.com", "198.51.100.7:1", []⟩).1 =
      normalizeOrigin ((panelUrl none).browserOrigin "https") := by
  have hscheme : inferScheme installed ⟨"Panel.example.com", "198.51.100.7:1", []⟩ = "https" := by
    decide +kernel
  have h := (ceremony_iff installed installed ⟨"Panel.example.com", "198.51.100.7:1", []⟩
    (panelUrl none) (.inl (by decide +kernel)) (by decide +kernel) (by decide +kernel) rfl rfl).mpr
      ⟨⟨fun p hp => (by cases hp), "Panel.example.com", rfl, by decide⟩,
        "Panel.example.com", rfl, .inl hscheme⟩
  rw [hscheme] at h
  exact h.1

theorem ceremony_port : Unpinned installed ∧ installed.validate = .ok () ∧
    "Panel.example.com:6767" = (panelUrl (some 6767)).authority ∧
      inferScheme installed ⟨"Panel.example.com:6767", "198.51.100.7:1", []⟩ = "https" ∧
        normalizeOrigin (webauthnContext installed
          ⟨"Panel.example.com:6767", "198.51.100.7:1", []⟩).1 ≠
            normalizeOrigin ((panelUrl (some 6767)).browserOrigin "https") :=
  ⟨.inl (by decide +kernel), by decide +kernel, by decide +kernel, by decide +kernel,
    by decide +kernel⟩

end

end LukePanel.Server.WebauthnContext
