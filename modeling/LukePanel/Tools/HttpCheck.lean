import LukePanel.Library.AddressZones
import LukePanel.Library.NetUrl
import Mathlib.Data.List.Infix

/-! # The HTTP diagnostic

`httpCheck` and `blockedHost` of `internal/tools/tools.go`, with what `net/http` and `net` make of the
requests: which addresses they connect to. Names are resolved, and servers redirect, as given
beforehand. -/
namespace LukePanel.Tools.HttpCheck
open LukePanel.Library.GoStrings LukePanel.Library.NetAddress
open LukePanel.Library.NetUrl (URL)

/-! ## Hosts -/

/-- `strings.TrimSuffix` of a dot. -/
def trimDot (host : String) : String :=
  if host.toList.getLast? = some '.' then String.ofList host.toList.dropLast else host

def metadata : IP := IP.ofV4 169 254 169 254

def blockedHost (host : String) : Bool :=
  let lower := toLower (trimDot host)
  if lower = "localhost" ∨ ".localhost".toList <:+ lower.toList ∨ lower = "metadata.google.internal" then
    true
  else
    match parseAddr lower with
    | some addr => addr.ip.isLoopback || addr.ip.isLinkLocalUnicast || addr.ip.isLinkLocalMulticast ||
        addr.isUnspecified || addr.ip.isMulticast || addr = ⟨metadata, true, ""⟩
    | none => false

/-! ## Requests -/

structure Answers where
  /-- `idna.Lookup.ToASCII`, for a host that is not ASCII. -/
  idna : String → Option String
  /-- The addresses of the answer of the resolver that are tried, for each request. -/
  tried : ℕ → List IP
  /-- Where the servers redirect to. -/
  redirects : List URL

/-- The host that is dialed. -/
def Answers.ascii (a : Answers) (host : String) : String :=
  if host.toList.all (fun c => c.toNat < 128) = true then host else (a.idna host).getD host

/-- The request before which `made` others were made. -/
structure Hop where
  made : ℕ
  host : String
deriving DecidableEq

/-- The addresses that are connected to: an empty host is the local system, and an address is not
resolved; for the unspecified one that of IPv4 is tried as well. -/
def dial (a : Answers) (hop : Hop) : List IP :=
  if a.ascii hop.host = "" then [0#128]
  else
    match parseAddr (a.ascii hop.host) with
    | some addr => if addr.ip = 0#128 then [0#128, IP.ofV4 0 0 0 0] else [addr.ip]
    | none => a.tried hop.made

/-- The checks of the transport. -/
def request (made : ℕ) (url : URL) : Except String Hop :=
  if url.scheme ≠ "http".toList ∧ url.scheme ≠ "https".toList then
    .error "unsupported protocol scheme"
  else if url.host = [] then .error "http: no Host in request URL"
  else .ok ⟨made, String.ofList url.hostname⟩

/-- `client.Do`: the URL at the end, and the requests that were dialed. -/
def follow (a : Answers) (made : ℕ) (url : URL) : List URL → Except String URL × List Hop
  | [] =>
    match request made url with
    | .error err => (.error err, [])
    | .ok hop => if dial a hop = [] then (.error "dial tcp", [hop]) else (.ok url, [hop])
  | next :: rest =>
    match request made url with
    | .error err => (.error err, [])
    | .ok hop =>
      if dial a hop = [] then (.error "dial tcp", [hop])
      else if 5 ≤ made + 1 then (.error "重定向次数过多", [hop])
      else if blockedHost (String.ofList next.hostname) = true then (.error "重定向目标被阻止", [hop])
      else ((follow a (made + 1) next rest).1, hop :: (follow a (made + 1) next rest).2)

def httpCheck (a : Answers) (target : String) : Except String URL × List Hop :=
  let target := if "://".toList <:+: target.toList then target else "https://" ++ target
  match Library.NetUrl.parse target with
  | none => (.error "URL 格式不正确", [])
  | some url =>
    if (url.scheme ≠ "http".toList ∧ url.scheme ≠ "https".toList) ∨ url.hostname = [] then
      (.error "URL 格式不正确", [])
    else if blockedHost (String.ofList url.hostname) = true then
      (.error "禁止访问本机、链路本地或元数据地址", [])
    else follow a 0 url a.redirects

/-- The addresses `httpCheck` connects to. -/
def connections (a : Answers) (target : String) : List IP := (httpCheck a target).2.flatMap (dial a)

/-! ## Forbidden addresses -/

/-- A loopback, link-local, unspecified, multicast or metadata address. -/
def forbidden (ip : IP) : Bool :=
  ip.isLoopback || ip.isLinkLocalUnicast || ip.isUnspecified || ip.isMulticast || ip = metadata

/-- A request that reaches no forbidden address. A literal that `blockedHost` lets pass is the
unspecified address, mapped or with a zone, or one with a zone that is only a dot. -/
structure Harmless (a : Answers) (hop : Hop) : Prop where
  named : a.ascii hop.host ≠ ""
  literal : ∀ addr, parseAddr (a.ascii hop.host) = some addr → a.ascii hop.host = hop.host →
    addr.ip.isUnspecified = false ∧
      (hop.host.toList.getLast? = some '.' → forbidden addr.ip = false)
  mapped : ∀ addr, parseAddr (a.ascii hop.host) = some addr → a.ascii hop.host ≠ hop.host →
    forbidden addr.ip = false
  resolved : a.ascii hop.host ≠ "" → parseAddr (a.ascii hop.host) = none →
    ∀ ip ∈ a.tried hop.made, forbidden ip = false

/-! ## Literals -/

theorem forbidden_eq_false {ip : IP} : forbidden ip = false ↔ ip.isLoopback = false ∧
    ip.isLinkLocalUnicast = false ∧ ip.isUnspecified = false ∧ ip.isMulticast = false := by
  have hmetadata : ip.isLinkLocalUnicast = false → ip ≠ metadata := by
    rintro h rfl
    revert h
    decide
  simp only [forbidden, Bool.or_eq_false_iff, decide_eq_false_iff_not, and_assoc]
  exact ⟨fun h => ⟨h.1, h.2.1, h.2.2.1, h.2.2.2.1⟩,
    fun h => ⟨h.1, h.2.1, h.2.2.1, h.2.2.2, hmetadata h.2.1⟩⟩

theorem isUnspecified_of_forbidden {ip : IP} (h : forbidden ip = false) : ip.isUnspecified = false :=
  (forbidden_eq_false.mp h).2.2.1

/-- A literal without a dot at its end that is not blocked is not forbidden, unless it is the
unspecified address. -/
theorem forbidden_of_literal {host : String} {addr : Addr} (haddr : parseAddr host = some addr)
    (hdot : host.toList.getLast? ≠ some '.') (hblocked : blockedHost host = false)
    (hspecified : addr.ip.isUnspecified = false) : forbidden addr.ip = false := by
  have hlower : parseAddr (toLower host) = some { addr with zone := toLower addr.zone } := by
    rw [parseAddr_toLower, haddr]
    rfl
  unfold blockedHost at hblocked
  rw [trimDot, if_neg hdot] at hblocked
  dsimp only at hblocked
  split at hblocked
  · cases hblocked
  · rw [hlower] at hblocked
    simp only [Bool.or_eq_false_iff] at hblocked
    exact forbidden_eq_false.mpr ⟨hblocked.1.1.1.1.1, hblocked.1.1.1.1.2, hspecified, hblocked.1.2⟩

theorem ip_mem_dial {a : Answers} {hop : Hop} {addr : Addr} (hnamed : a.ascii hop.host ≠ "")
    (haddr : parseAddr (a.ascii hop.host) = some addr) : addr.ip ∈ dial a hop := by
  rw [dial, if_neg hnamed, haddr]
  dsimp only
  split
  · rename_i hzero
    rw [hzero]
    exact List.mem_cons_self
  · exact List.mem_cons_self

theorem dial_eq {a : Answers} {hop : Hop} {addr : Addr} (hnamed : a.ascii hop.host ≠ "")
    (haddr : parseAddr (a.ascii hop.host) = some addr) (hspecified : addr.ip.isUnspecified = false) :
    dial a hop = [addr.ip] := by
  have hzero : addr.ip ≠ 0#128 := by
    intro hzero
    rw [hzero] at hspecified
    revert hspecified
    decide
  rw [dial, if_neg hnamed, haddr]
  exact if_neg hzero

theorem dial_iff {a : Answers} {hop : Hop} (hblocked : blockedHost hop.host = false) :
    (∀ ip ∈ dial a hop, forbidden ip = false) ↔ Harmless a hop := by
  constructor
  · intro h
    have hnamed : a.ascii hop.host ≠ "" := by
      intro hempty
      rw [dial, if_pos hempty] at h
      exact absurd (h 0#128 List.mem_cons_self) (by decide)
    refine ⟨hnamed, fun addr haddr _ => ?_, fun addr haddr _ => h _ (ip_mem_dial hnamed haddr),
      fun _ hname ip hip => h ip ?_⟩
    · have hforbidden := h _ (ip_mem_dial hnamed haddr)
      exact ⟨isUnspecified_of_forbidden hforbidden, fun _ => hforbidden⟩
    · rwa [dial, if_neg hnamed, hname]
  · intro h ip hip
    cases haddr : parseAddr (a.ascii hop.host) with
    | none =>
      rw [dial, if_neg h.named, haddr] at hip
      exact h.resolved h.named haddr ip hip
    | some addr =>
      have hforbidden : forbidden addr.ip = false := by
        by_cases hascii : a.ascii hop.host = hop.host
        · obtain ⟨hspecified, hdot⟩ := h.literal addr haddr hascii
          by_cases hlast : hop.host.toList.getLast? = some '.'
          · exact hdot hlast
          · exact forbidden_of_literal (hascii ▸ haddr) hlast hblocked hspecified
        · exact h.mapped addr haddr hascii
      rw [dial_eq h.named haddr (isUnspecified_of_forbidden hforbidden), List.mem_singleton] at hip
      rwa [hip]

/-! ## Chains of redirects -/

theorem request_host {made : ℕ} {url : URL} {hop : Hop} (h : request made url = .ok hop) :
    hop.host = String.ofList url.hostname := by
  unfold request at h
  split at h
  · cases h
  split at h
  · cases h
  · cases h
    rfl

/-- Every request is for a host that is not blocked. -/
theorem blockedHost_follow {a : Answers} {made : ℕ} {url : URL} {redirects : List URL}
    (hurl : blockedHost (String.ofList url.hostname) = false) :
    ∀ hop ∈ (follow a made url redirects).2, blockedHost hop.host = false := by
  induction redirects generalizing made url with
  | nil =>
    unfold follow
    split
    · exact fun hop hhop => absurd hhop List.not_mem_nil
    · rename_i hop hrequest
      have hhop : blockedHost hop.host = false := request_host hrequest ▸ hurl
      split <;> exact List.forall_mem_singleton.mpr hhop
  | cons next rest ih =>
    unfold follow
    split
    · exact fun hop hhop => absurd hhop List.not_mem_nil
    · rename_i hop hrequest
      have hhop : blockedHost hop.host = false := request_host hrequest ▸ hurl
      split
      · exact List.forall_mem_singleton.mpr hhop
      split
      · exact List.forall_mem_singleton.mpr hhop
      split
      · exact List.forall_mem_singleton.mpr hhop
      · rename_i hnext
        exact List.forall_mem_cons.mpr ⟨hhop, ih (Bool.not_eq_true _ ▸ hnext)⟩

theorem blockedHost_httpCheck (a : Answers) (target : String) :
    ∀ hop ∈ (httpCheck a target).2, blockedHost hop.host = false := by
  unfold httpCheck
  dsimp only
  split
  · exact fun hop hhop => absurd hhop List.not_mem_nil
  split
  · exact fun hop hhop => absurd hhop List.not_mem_nil
  split
  · exact fun hop hhop => absurd hhop List.not_mem_nil
  · rename_i hurl
    exact blockedHost_follow (Bool.not_eq_true _ ▸ hurl)

/-- No forbidden address is connected to exactly when all requests are harmless. -/
theorem connections_iff (a : Answers) (target : String) :
    (∀ ip ∈ connections a target, forbidden ip = false) ↔
      ∀ hop ∈ (httpCheck a target).2, Harmless a hop := by
  rw [connections, List.forall_mem_flatMap]
  exact forall₂_congr fun hop hhop => dial_iff (blockedHost_httpCheck a target hop hhop)

/-- The unspecified address, mapped into IPv6. -/
theorem mapped_unspecified_dialed :
    connections ⟨fun _ => none, fun _ => [], []⟩ "https://[::ffff:0.0.0.0]/" = [IP.ofV4 0 0 0 0] ∧
      forbidden (IP.ofV4 0 0 0 0) = true := by
  decide +kernel

end LukePanel.Tools.HttpCheck
