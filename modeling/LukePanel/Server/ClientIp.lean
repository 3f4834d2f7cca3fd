import LukePanel.Library.IpNetworks

/-! # The address of a client

`clientIP` of `internal/server/server.go`: the address of the peer, or the one a trusted proxy
names. -/
namespace LukePanel.Server.ClientIp
open LukePanel.Library.GoStrings LukePanel.Library.NetAddress

/-- A request, with the values of the header lines of each name. -/
structure Request where
  remoteAddr : String
  realIP : List String
  forwardedFor : List String

/-- `r.Header.Get` -/
def getHeader (lines : List String) : String := lines.head?.getD ""

def normalizedHeaderIP (value : String) : String :=
  let value := trimBrackets (trimSpace value)
  let value :=
    match splitHostPort value with
    | some (host, _) => trimBrackets host
    | none => value
  match parseIP value with
  | some ip => ip.string
  | none => ""

def proxyAddressMatches (host trusted : String) : Bool :=
  let trusted := trimSpace trusted
  if trusted = "" then false
  else
    match parseIP trusted with
    | some ip => parseIP host = some ip
    | none =>
      match parseCIDR trusted with
      | some (_, network) => (parseIP host).any network.contains
      | none => host = trusted

/-- The host of `r.RemoteAddr`. -/
def peerHost (remoteAddr : String) : String :=
  match splitHostPort remoteAddr with
  | some (host, _) => host
  | none => trimBrackets (trimSpace remoteAddr)

def trustedSource (host trusted : String) : Bool :=
  (parseIP host).any IP.isLoopback || (trusted ≠ "" && proxyAddressMatches host trusted)

/-- The last element of a list that is an address. -/
def lastAddress (parts : List String) : Option String :=
  (parts.reverse.map normalizedHeaderIP).find? (· ≠ "")

def clientIP (r : Request) (trusted : String) : String :=
  let host := peerHost r.remoteAddr
  if trustedSource host trusted then
    let value := normalizedHeaderIP (getHeader r.realIP)
    if value ≠ "" then value
    else
      match lastAddress (split ',' (getHeader r.forwardedFor)) with
      | some value => value
      | none => host
  else host

/-! ## Which headers matter -/

/-- The last element of the list that all header lines of a name form. -/
def LastElement (lines : List String) (element : String) : Prop :=
  ∃ init last, lines = init ++ [last] ∧ (split ',' last).getLast? = some element

variable {r r' : Request} {trusted element value : String} {lines : List String}

theorem clientIP_untrusted (h : trustedSource (peerHost r.remoteAddr) trusted = false) :
    clientIP r trusted = peerHost r.remoteAddr := by
  rw [clientIP, if_neg (by rw [h]; exact nofun)]

/-- From a trusted proxy that sends no `X-Real-IP`, the first line is scanned. -/
theorem clientIP_forwarded {remoteAddr : String}
    (h : trustedSource (peerHost remoteAddr) trusted = true) :
    clientIP ⟨remoteAddr, [], lines⟩ trusted =
      (lastAddress (split ',' (getHeader lines))).getD (peerHost remoteAddr) := by
  have hnone : normalizedHeaderIP (getHeader []) = "" := by decide +kernel
  unfold clientIP
  dsimp only
  rw [if_pos h, hnone, if_neg (fun hne => hne rfl)]
  cases lastAddress (split ',' (getHeader lines)) <;> rfl

theorem lastAddress_concat {parts : List String} (hlast : parts.getLast? = some element)
    (haddress : normalizedHeaderIP element ≠ "") :
    lastAddress parts = some (normalizedHeaderIP element) := by
  obtain ⟨init, rfl⟩ := List.getLast?_eq_some_iff.mp hlast
  rw [lastAddress, List.reverse_append, List.reverse_singleton, List.singleton_append,
    List.map_cons, List.find?_cons_of_pos (by simpa using haddress)]

/-- A list of one line names the address at its end. -/
theorem clientIP_one_line {remoteAddr : String}
    (h : trustedSource (peerHost remoteAddr) trusted = true) (hlines : lines.length = 1)
    (hlast : LastElement lines element) (haddress : normalizedHeaderIP element ≠ "") :
    clientIP ⟨remoteAddr, [], lines⟩ trusted = normalizedHeaderIP element := by
  obtain ⟨init, last, rfl, helement⟩ := hlast
  rw [List.length_append, List.length_singleton, Nat.add_eq_right, List.length_eq_zero_iff] at hlines
  subst hlines
  rw [clientIP_forwarded h, List.nil_append, getHeader, List.head?_cons, Option.getD_some,
    lastAddress_concat helement haddress, Option.getD_some]

/-- An address that is not the given one. -/
def otherAddress (value : String) : String :=
  if value = "198.51.100.1" then "198.51.100.2" else "198.51.100.1"

theorem lastAddress_other (value : String) :
    lastAddress (split ',' (otherAddress value)) = some (otherAddress value) := by
  unfold otherAddress
  split <;> decide +kernel

theorem otherAddress_ne (value : String) : otherAddress value ≠ value := by
  unfold otherAddress
  split
  · rename_i heq
    rw [heq]
    decide
  · rename_i hne
    exact fun heq => hne heq.symm

/-- The address that an element of the list is for, also where the panel does not read it: one with
a zone stands as it is. -/
def elementAddress (element : String) : String :=
  if normalizedHeaderIP element = "" then trimSpace element else normalizedHeaderIP element

theorem split_pair {before after : String} (hbefore : ',' ∉ before.toList)
    (hafter : ',' ∉ after.toList) : split ',' (before ++ "," ++ after) = [before, after] := by
  have hjoin : before ++ "," ++ after = join ',' [before, after] := by
    simp [join, List.intercalate, ← String.toList_inj]
  rw [hjoin, split_join (by simp) (by simp [hbefore, hafter])]

theorem split_single {part : String} (h : ',' ∉ part.toList) : split ',' part = [part] := by
  rw [split, List.splitOn_eq_singleton h]
  simp

theorem lastAddress_unread {before : String} (hbefore : ',' ∉ before.toList)
    (hcomma : ',' ∉ element.toList) (hunread : normalizedHeaderIP element = "") :
    lastAddress (split ',' (before ++ "," ++ element)) = lastAddress (split ',' before) := by
  rw [split_pair hbefore hcomma, split_single hbefore]
  simp [lastAddress, hunread]

/-- The client sends another address in front of the element that is appended. -/
theorem clientIP_other {remoteAddr first : String} (rest : List String)
    (h : trustedSource (peerHost remoteAddr) trusted = true)
    (hread : lastAddress (split ',' first) = some (otherAddress value)) :
    clientIP ⟨remoteAddr, [], first :: rest⟩ trusted ≠ value := by
  rw [clientIP_forwarded h, getHeader, List.head?_cons, Option.getD_some, hread, Option.getD_some]
  exact otherAddress_ne value

/-- **Whose address it is.** The headers of a peer that is not trusted do not matter. The address a
trusted proxy appends is returned, whatever else its header lines hold, exactly if they are not
more than one and the panel reads the address. -/
theorem forwarded_iff (remoteAddr trusted : String) :
    (trustedSource (peerHost remoteAddr) trusted = false →
      ∀ r r' : Request, r.remoteAddr = remoteAddr → r'.remoteAddr = remoteAddr →
        clientIP r trusted = clientIP r' trusted) ∧
    (trustedSource (peerHost remoteAddr) trusted = true →
      ∀ element, ',' ∉ element.toList → ∀ n,
        (∀ lines, lines.length = n + 1 → LastElement lines element →
          clientIP ⟨remoteAddr, [], lines⟩ trusted = elementAddress element) ↔
        n = 0 ∧ normalizedHeaderIP element ≠ "") := by
  constructor
  · rintro h r r' rfl hr'
    rw [clientIP_untrusted h, clientIP_untrusted (by rw [hr']; exact h), hr']
  · intro h element hcomma n
    constructor
    · intro hall
      generalize elementAddress element = value at hall
      have hn : n = 0 := by
        by_contra hn
        refine clientIP_other (List.replicate (n - 1) "" ++ [element]) h (lastAddress_other value)
          (hall _ ?_ ⟨otherAddress value :: List.replicate (n - 1) "", element, rfl, ?_⟩)
        · simp only [List.length_cons, List.length_append, List.length_replicate, List.length_nil]
          omega
        · rw [split_single hcomma]
          rfl
      refine ⟨hn, fun hunread => ?_⟩
      have hother : ',' ∉ (otherAddress value).toList := by
        unfold otherAddress
        split <;> decide
      refine clientIP_other [] h
        ((lastAddress_unread hother hcomma hunread).trans (lastAddress_other value))
        (hall _ (by rw [hn]; rfl) ⟨[], otherAddress value ++ "," ++ element, rfl, ?_⟩)
      rw [split_pair hother hcomma]
      rfl
    · rintro ⟨rfl, haddress⟩ lines hlines hlast
      rw [elementAddress, if_neg haddress]
      exact clientIP_one_line h hlines hlast haddress

theorem nginx_names_client :
    clientIP ⟨"127.0.0.1:4567", [], ["192.0.2.66, 203.0.113.8"]⟩ "" = "203.0.113.8" := by
  have hall := ((forwarded_iff "127.0.0.1:4567" "").2 (by decide +kernel) " 203.0.113.8"
    (by decide +kernel) 0).mpr ⟨rfl, by decide +kernel⟩
  have hclient := hall ["192.0.2.66, 203.0.113.8"] rfl ⟨[], _, rfl, by decide +kernel⟩
  rw [hclient]
  decide +kernel

/-- A proxy that appends a line of its own is not heard behind a line of the client's. -/
theorem second_line_unread : ¬ ∀ (remoteAddr trusted element : String) (lines : List String),
    trustedSource (peerHost remoteAddr) trusted = true → normalizedHeaderIP element ≠ "" →
      LastElement lines element →
        clientIP ⟨remoteAddr, [], lines⟩ trusted = normalizedHeaderIP element := by
  intro h
  have hclient := h "127.0.0.1:4567" "" "203.0.113.8" ["198.51.100.1", "203.0.113.8"]
    (by decide +kernel) (by decide +kernel) ⟨["198.51.100.1"], "203.0.113.8", rfl, by decide +kernel⟩
  revert hclient
  decide +kernel

end LukePanel.Server.ClientIp
