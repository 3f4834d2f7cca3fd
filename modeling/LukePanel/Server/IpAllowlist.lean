import LukePanel.Library.IpNetworks
import LukePanel.Server.ClientIp
import LukePanel.Server.ConfigHandlers
import Mathlib.Data.List.Sort
import Mathlib.Data.String.Basic

/-! # The IP allowlist

`ipAllowlist` and `ipAllowedRequest` of `internal/server/security_auth.go`: the client that enables
the list is put on it, and a request is let in if its address is on it. -/
namespace LukePanel.Server.IpAllowlist
open LukePanel.Config LukePanel.Library.GoStrings LukePanel.Library.NetAddress
open LukePanel.Server.ClientIp

/-- `strings.Contains(entry, "/")` -/
def hasSlash (entry : String) : Bool := '/' ∈ entry.toList

/-- An entry that is trimmed, as `normalizeAllowlist` writes it. -/
def normalizeEntry (entry : String) : Except String String :=
  if hasSlash entry then
    match parseCIDR entry with
    | some (_, network) => .ok network.string
    | none => .error ("无效网段: " ++ entry)
  else
    match parseIP entry with
    | some ip => .ok ip.string
    | none => .error ("无效 IP: " ++ entry)

/-- The loop of `normalizeAllowlist`; `seen` holds what `out` holds. -/
def normalizeLoop : List String → List String → Except String (List String)
  | [], out => .ok out
  | entry :: rest, out =>
    let entry := trimSpace entry
    if entry = "" then normalizeLoop rest out
    else
      match normalizeEntry entry with
      | .error message => .error message
      | .ok entry => normalizeLoop rest (if entry ∈ out then out else out ++ [entry])

def normalizeAllowlist (entries : List String) : Except String (List String) :=
  if 64 < entries.length then .error "最多允许 64 个 IP 或网段"
  else (normalizeLoop entries []).map (·.insertionSort (· ≤ ·))

/-- An entry is the address, or a network that contains it. -/
def listed (entries : List String) (ip : IP) : Bool :=
  entries.any fun entry =>
    entry = ip.string || (hasSlash entry && (parseCIDR entry).any (·.2.contains ip))

def ensureCurrentIP (entries : List String) (current : String) : List String :=
  match parseIP (trimBrackets (trimSpace current)) with
  | none => entries
  | some ip =>
    if ip.isLoopback then entries
    else if listed entries ip then entries
    else entries ++ [ip.string]

/-- A POST of an elevated session. The token's `hash` and `expires` are drawn before; `saved` is
whether the configuration could be saved. An error has its status. -/
def ipAllowlist (cfg : Config) (r : Request) (enabled : Bool) (entries : List String)
    (hash : String) (expires : ℕ) (saved : Bool) : Except (ℕ × String) (List String) × Config :=
  match normalizeAllowlist entries with
  | .error message => (.error (400, message), cfg)
  | .ok entries =>
    let entries :=
      if enabled then ensureCurrentIP entries (clientIP r cfg.trustedProxy) else entries
    if enabled ∧ entries = [] then
      (.error (400, "无法识别当前 IP，请至少填写一个允许地址"), cfg)
    else if saved then
      (.ok entries, { cfg with
        ipAllowlistEnabled := enabled
        ipAllowlist := entries
        ipRecoveryHash := if enabled then hash else ""
        ipRecoveryExpires := if enabled then expires else 0 })
    else (.error (500, "IP 允许列表保存失败"), cfg)

def ipAllowedRequest (cfg : Config) (r : Request) : Bool :=
  if !cfg.ipAllowlistEnabled then true
  else
    match parseIP (trimSpace (clientIP r cfg.trustedProxy)) with
    | none => false
    | some ip =>
      ip.isLoopback || cfg.ipAllowlist.any fun entry =>
        if hasSlash entry then (parseCIDR entry).any (·.2.contains ip)
        else parseIP entry = some ip

/-! ## Entries as they are written -/

variable {cfg cfg' : Config} {r : Request} {entries out normalized answered : List String}
  {entry current hash : String} {expires : ℕ} {saved : Bool} {ip : IP} {c : Char}

/-- An entry that is written as it is. -/
structure Canonical (entry : String) : Prop where
  trimmed : trimSpace entry = entry
  nonempty : entry ≠ ""
  normal : normalizeEntry entry = .ok entry

theorem trimSpace_of_no_space {s : String} (h : ∀ c ∈ s.toList, isSpace c = false) :
    trimSpace s = s :=
  trimSpace_eq_self (fun c hc => h c (List.mem_of_head? hc))
    fun c hc => h c (List.mem_of_getLast? hc)

theorem hasSlash_string (ip : IP) : hasSlash ip.string = false :=
  decide_eq_false (slash_not_mem_string ip)

theorem canonical_ip (ip : IP) : Canonical ip.string where
  trimmed := trimSpace_of_no_space fun _ hc => isSpace_of_addressChar (addressChar_of_mem_string hc)
  nonempty := by
    intro hempty
    have hread := parseIP_string ip
    rw [hempty] at hread
    cases hread
  normal := by
    rw [normalizeEntry, hasSlash_string, if_neg Bool.false_ne_true, parseIP_string]

theorem canonical_network {network : IPNet} (h : network.Masked) : Canonical network.string where
  trimmed := by
    refine trimSpace_of_no_space fun c hc => ?_
    rcases addressChar_of_mem_network hc with hchar | rfl
    · exact isSpace_of_addressChar hchar
    · decide
  nonempty := by
    intro hempty
    have hread := parseCIDR_string h
    rw [hempty] at hread
    cases hread
  normal := by
    have hslash : hasSlash network.string = true := by
      simp [hasSlash, IPNet.string]
    rw [normalizeEntry, hslash, if_pos rfl, parseCIDR_string h]

theorem canonical_of_normalizeEntry {written : String} (h : normalizeEntry entry = .ok written) :
    Canonical written := by
  unfold normalizeEntry at h
  split at h
  · split at h
    · rename_i hread
      obtain rfl := Except.ok.inj h
      exact canonical_network (masked_of_parseCIDR hread)
    · cases h
  · split at h
    · obtain rfl := Except.ok.inj h
      exact canonical_ip _
    · cases h

/-! ## The list as it is written -/

/-- The entries are written as they are, each once. -/
def Normal (entries : List String) : Prop := (∀ entry ∈ entries, Canonical entry) ∧ entries.Nodup

theorem normal_nil : Normal [] := ⟨fun _ h => absurd h List.not_mem_nil, List.nodup_nil⟩

theorem Normal.insert (h : Normal out) (hentry : Canonical entry) :
    Normal (if entry ∈ out then out else out ++ [entry]) := by
  split
  · exact h
  · rename_i hnew
    refine ⟨fun e he => ?_, ?_⟩
    · rcases List.mem_append.mp he with he | he
      · exact h.1 e he
      · rw [List.mem_singleton.mp he]
        exact hentry
    · rw [← List.concat_eq_append]
      exact h.2.concat hnew

/-- What the loop writes. -/
theorem normal_normalizeLoop (hout : Normal out) (h : normalizeLoop entries out = .ok normalized) :
    Normal normalized ∧ normalized.length ≤ out.length + entries.length := by
  induction entries generalizing out with
  | nil =>
    obtain rfl := Except.ok.inj h
    exact ⟨hout, Nat.le_add_right _ _⟩
  | cons entry rest ih =>
    rw [normalizeLoop] at h
    split at h
    · obtain ⟨hnormal, hlength⟩ := ih hout h
      exact ⟨hnormal, by rw [List.length_cons]; omega⟩
    · split at h
      · cases h
      · rename_i written hwritten
        obtain ⟨hnormal, hlength⟩ := ih (hout.insert (canonical_of_normalizeEntry hwritten)) h
        have hone : (if written ∈ out then out else out ++ [written]).length ≤ out.length + 1 := by
          split
          · exact Nat.le_succ _
          · rw [List.length_append, List.length_singleton]
        exact ⟨hnormal, by rw [List.length_cons]; omega⟩

/-- The loop leaves such a list as it is. -/
theorem normalizeLoop_of_normal (h : Normal (out ++ entries)) :
    normalizeLoop entries out = .ok (out ++ entries) := by
  induction entries generalizing out with
  | nil => rw [normalizeLoop, List.append_nil]
  | cons entry rest ih =>
    have hentry := h.1 entry (by simp)
    have hnew : entry ∉ out := by
      have hdisjoint := (List.nodup_append.mp h.2).2.2
      exact fun hmem => hdisjoint entry hmem entry List.mem_cons_self rfl
    rw [normalizeLoop, hentry.trimmed, if_neg hentry.nonempty, hentry.normal]
    dsimp only
    rw [if_neg hnew, ih (by rwa [List.append_assoc]), List.append_assoc, List.singleton_append]

theorem Normal.perm {l l' : List String} (h : Normal l) (hperm : l'.Perm l) : Normal l' :=
  ⟨fun entry hentry => h.1 entry (hperm.mem_iff.mp hentry), hperm.nodup_iff.mpr h.2⟩

theorem normal_normalizeAllowlist (h : normalizeAllowlist entries = .ok normalized) :
    Normal normalized ∧ normalized.length ≤ 64 := by
  unfold normalizeAllowlist at h
  split at h
  · cases h
  · rename_i hshort
    cases hloop : normalizeLoop entries [] with
    | error message =>
      rw [hloop] at h
      cases h
    | ok written =>
      rw [hloop] at h
      obtain rfl := Except.ok.inj h
      obtain ⟨hnormal, hlength⟩ := normal_normalizeLoop normal_nil hloop
      have hperm := List.perm_insertionSort (· ≤ ·) written
      rw [List.length_nil] at hlength
      exact ⟨hnormal.perm hperm, by rw [hperm.length_eq]; omega⟩

/-- A list that was written is only sorted. -/
theorem normalizeAllowlist_of_normal (h : Normal entries) (hlength : entries.length ≤ 64) :
    normalizeAllowlist entries = .ok (entries.insertionSort (· ≤ ·)) := by
  rw [normalizeAllowlist, if_neg (Nat.not_lt.mpr hlength), normalizeLoop_of_normal (by simpa using h)]
  rfl

/-! ## The caller on the list -/

theorem listed_perm {l l' : List String} (hperm : l'.Perm l) : listed l' ip = listed l ip :=
  hperm.any_eq

/-- The list needs no entry for the caller. -/
def Settled (entries : List String) (current : String) : Prop :=
  ∀ ip, parseIP (trimBrackets (trimSpace current)) = some ip →
    ip.isLoopback = true ∨ listed entries ip = true

theorem ensureCurrentIP_of_settled (h : Settled entries current) :
    ensureCurrentIP entries current = entries := by
  unfold ensureCurrentIP
  cases hip : parseIP (trimBrackets (trimSpace current)) with
  | none => rfl
  | some ip =>
    dsimp only
    rcases h ip hip with hloopback | hlisted
    · rw [if_pos hloopback]
    · rw [if_pos hlisted, ite_self]

/-- The caller is put on the list, or need not be. -/
theorem ensureCurrentIP_cases (entries : List String) (current : String) :
    (ensureCurrentIP entries current = entries ∧ Settled entries current) ∨
      ∃ ip, parseIP (trimBrackets (trimSpace current)) = some ip ∧ ip.isLoopback = false ∧
        listed entries ip = false ∧ ensureCurrentIP entries current = entries ++ [ip.string] := by
  unfold ensureCurrentIP Settled
  cases hip : parseIP (trimBrackets (trimSpace current)) with
  | none => exact Or.inl ⟨rfl, fun ip h => by cases h⟩
  | some ip =>
    dsimp only
    cases hloopback : ip.isLoopback with
    | true =>
      refine Or.inl ⟨if_pos rfl, fun ip' h => ?_⟩
      obtain rfl := Option.some.inj h
      exact Or.inl hloopback
    | false =>
      rw [if_neg Bool.false_ne_true]
      cases hlisted : listed entries ip with
      | true =>
        refine Or.inl ⟨if_pos rfl, fun ip' h => ?_⟩
        obtain rfl := Option.some.inj h
        exact Or.inr hlisted
      | false => exact Or.inr ⟨ip, rfl, hloopback, hlisted, if_neg Bool.false_ne_true⟩

theorem listed_of_mem (h : ip.string ∈ entries) : listed entries ip = true :=
  List.any_eq_true.mpr ⟨ip.string, h, by simp⟩

theorem normal_ensureCurrentIP (h : Normal entries) (current : String) :
    Normal (ensureCurrentIP entries current) := by
  rcases ensureCurrentIP_cases entries current with ⟨heq, -⟩ | ⟨ip, -, -, hlisted, heq⟩
  · rw [heq]
    exact h
  · rw [heq]
    have hnew : ip.string ∉ entries := by
      intro hmem
      rw [listed_of_mem hmem] at hlisted
      cases hlisted
    have hinsert := h.insert (canonical_ip ip)
    rwa [if_neg hnew] at hinsert

theorem settled_ensureCurrentIP (entries : List String) (current : String) :
    Settled (ensureCurrentIP entries current) current := by
  rcases ensureCurrentIP_cases entries current with ⟨heq, hsettled⟩ | ⟨ip, hip, -, -, heq⟩
  · rw [heq]
    exact hsettled
  · rw [heq]
    intro ip' h
    rw [hip] at h
    obtain rfl := Option.some.inj h
    exact Or.inr (listed_of_mem (by simp))

theorem Settled.perm {l l' : List String} (h : Settled l current) (hperm : l'.Perm l) :
    Settled l' current := by
  intro ip hip
  rw [listed_perm hperm]
  exact h ip hip

/-- An address has no brackets to trim. -/
theorem trimBrackets_of_parseIP {s : String} (h : parseIP s = some ip) : trimBrackets s = s := by
  refine trimBrackets_eq_self fun c hc => ?_
  rcases addressChar_of_parseIP h c hc with hhex | rfl | rfl
  · constructor
    · rintro rfl
      cases hhex
    · rintro rfl
      cases hhex
  · decide
  · decide

/-- With the list enabled, a caller who is on it is let in if there is an address to compare. -/
theorem allowed_iff (henabled : cfg.ipAllowlistEnabled = true)
    (h : Settled cfg.ipAllowlist (clientIP r cfg.trustedProxy)) : ipAllowedRequest cfg r = true ↔
      ∃ ip, parseIP (trimSpace (clientIP r cfg.trustedProxy)) = some ip := by
  rw [ipAllowedRequest, henabled, if_neg (by simp)]
  cases hip : parseIP (trimSpace (clientIP r cfg.trustedProxy)) with
  | none => simp
  | some ip =>
    refine ⟨fun _ => ⟨ip, rfl⟩, fun _ => ?_⟩
    dsimp only
    rw [Bool.or_eq_true]
    refine (h ip (by rw [trimBrackets_of_parseIP hip, hip])).imp_right fun hlisted => ?_
    obtain ⟨entry, hentry, hmatch⟩ := List.any_eq_true.mp hlisted
    refine List.any_eq_true.mpr ⟨entry, hentry, ?_⟩
    rw [Bool.or_eq_true, decide_eq_true_eq, Bool.and_eq_true] at hmatch
    rcases hmatch with rfl | ⟨hslash, hcontains⟩
    · rw [hasSlash_string, if_neg Bool.false_ne_true, parseIP_string]
      exact decide_eq_true rfl
    · rw [hslash, if_pos rfl]
      exact hcontains

/-! ## The endpoint -/

/-- The configuration with a list. -/
def withList (cfg : Config) (enabled : Bool) (entries : List String) (hash : String) (expires : ℕ) :
    Config :=
  { cfg with
    ipAllowlistEnabled := enabled
    ipAllowlist := entries
    ipRecoveryHash := if enabled then hash else ""
    ipRecoveryExpires := if enabled then expires else 0 }

theorem ipAllowlist_ok
    (h : ipAllowlist cfg r true entries hash expires saved = (.ok answered, cfg')) :
    ∃ normalized, normalizeAllowlist entries = .ok normalized ∧ answered ≠ [] ∧
      answered = ensureCurrentIP normalized (clientIP r cfg.trustedProxy) ∧
      cfg' = withList cfg true answered hash expires := by
  unfold ipAllowlist at h
  cases hnormal : normalizeAllowlist entries with
  | error message =>
    rw [hnormal] at h
    have hok := (Prod.mk.inj h).1
    cases hok
  | ok normalized =>
    rw [hnormal] at h
    dsimp only at h
    rw [if_pos rfl] at h
    split at h
    · have hok := (Prod.mk.inj h).1
      cases hok
    · rename_i hsome
      split at h
      · obtain ⟨hok, hcfg⟩ := Prod.mk.inj h
        obtain rfl := Except.ok.inj hok
        exact ⟨normalized, rfl, fun hnil => hsome ⟨rfl, hnil⟩, rfl, hcfg.symm⟩
      · have hok := (Prod.mk.inj h).1
        cases hok

theorem ipAllowlist_enabled (h : normalizeAllowlist entries = .ok normalized)
    (hcurrent : ensureCurrentIP normalized (clientIP r cfg.trustedProxy) = answered)
    (hne : answered ≠ []) : ipAllowlist cfg r true entries hash expires true =
      (.ok answered, withList cfg true answered hash expires) := by
  unfold ipAllowlist
  rw [h]
  dsimp only
  rw [if_pos rfl, hcurrent, if_neg fun hnil => hne hnil.2, if_pos rfl]
  rfl

theorem ipAllowlist_settled {enabled : Bool} (h : normalizeAllowlist entries = .ok normalized)
    (hne : normalized ≠ []) (hsettled : Settled normalized (clientIP r cfg.trustedProxy)) :
    ipAllowlist cfg r enabled entries hash expires true =
      (.ok normalized, withList cfg enabled normalized hash expires) := by
  unfold ipAllowlist
  rw [h]
  dsimp only
  rw [ensureCurrentIP_of_settled hsettled, ite_self, if_neg fun hnil => hne hnil.2, if_pos rfl]
  rfl

/-- The caller is let in afterwards, and can send again what it was answered: the list stays. -/
structure Stable (r : Request) (answered : List String) (cfg : Config) : Prop where
  admitted : ipAllowedRequest cfg r = true
  resubmitted : ∀ enabled hash expires, ∃ again cfg',
    ipAllowlist cfg r enabled answered hash expires true = (.ok again, cfg') ∧
      cfg'.ipAllowlist.Perm cfg.ipAllowlist

theorem Stable.length_le (h : Stable r answered cfg) : answered.length ≤ 64 := by
  obtain ⟨again, cfg', hagain, -⟩ := h.resubmitted true "" 0
  by_contra hlong
  have hrefused : normalizeAllowlist answered = .error "最多允许 64 个 IP 或网段" :=
    if_pos (Nat.not_le.mp hlong)
  rw [ipAllowlist, hrefused] at hagain
  have hok := (Prod.mk.inj hagain).1
  cases hok

/-- There is room for the address beside the entries, or no need to put it there. -/
def Room (entries : List String) (ip : IP) : Prop :=
  ∃ normalized, normalizeAllowlist entries = .ok normalized ∧
    (normalized.length < 64 ∨ ip.isLoopback = true ∨ listed normalized ip = true)

theorem length_ensureCurrentIP_iff (h : normalizeAllowlist entries = .ok normalized)
    (hlength : normalized.length ≤ 64)
    (hip : parseIP (trimBrackets (trimSpace current)) = some ip) :
    (ensureCurrentIP normalized current).length ≤ 64 ↔ Room entries ip := by
  rcases ensureCurrentIP_cases normalized current with ⟨heq, hsettled⟩ | ⟨ip', hip', hloop, hnot, heq⟩
  · rw [heq]
    exact ⟨fun _ => ⟨normalized, h, Or.inr (hsettled ip hip)⟩, fun _ => hlength⟩
  · rw [hip] at hip'
    obtain rfl := Option.some.inj hip'
    rw [heq, List.length_append, List.length_singleton]
    constructor
    · exact fun hle => ⟨normalized, h, Or.inl hle⟩
    · rintro ⟨normalized', h', hroom⟩
      rw [h] at h'
      obtain rfl := Except.ok.inj h'
      rw [hloop, hnot] at hroom
      have hshort : normalized.length < 64 := by simpa using hroom
      exact hshort

/-- **After the list is enabled** the caller is let in and the answer can be sent again if and only if
the caller has an address that can be read, and it is not the 65th entry of the list. -/
theorem stable_iff
    (h : ipAllowlist cfg r true entries hash expires saved = (.ok answered, cfg')) :
    Stable r answered cfg' ↔ ∃ ip, parseIP (trimSpace (clientIP r cfg.trustedProxy)) = some ip ∧
      Room entries ip := by
  obtain ⟨normalized, hnormalized, hne, hanswered, rfl⟩ := ipAllowlist_ok h
  obtain ⟨hnormal, hlength⟩ := normal_normalizeAllowlist hnormalized
  have hsettled := settled_ensureCurrentIP normalized (clientIP r cfg.trustedProxy)
  have hnormal' := normal_ensureCurrentIP hnormal (clientIP r cfg.trustedProxy)
  rw [← hanswered] at hsettled hnormal'
  have hallowed := @allowed_iff (withList cfg true answered hash expires) r rfl hsettled
  have hroom : ∀ ip, parseIP (trimSpace (clientIP r cfg.trustedProxy)) = some ip →
      (answered.length ≤ 64 ↔ Room entries ip) := by
    intro ip hip
    rw [hanswered]
    exact length_ensureCurrentIP_iff hnormalized hlength (by rw [trimBrackets_of_parseIP hip, hip])
  constructor
  · intro hstable
    obtain ⟨ip, hip⟩ := hallowed.mp hstable.admitted
    refine ⟨ip, hip, (hroom ip hip).mp ?_⟩
    exact hstable.length_le
  · rintro ⟨ip, hip, hroom'⟩
    refine ⟨hallowed.mpr ⟨ip, hip⟩, fun enabled hash' expires' => ?_⟩
    have hperm := List.perm_insertionSort (· ≤ ·) answered
    refine ⟨_, _, ipAllowlist_settled
      (normalizeAllowlist_of_normal hnormal' ((hroom ip hip).mpr hroom')) ?_ (hsettled.perm hperm), ?_⟩
    · intro hnil
      rw [hnil] at hperm
      exact hne (List.perm_nil.mp hperm.symm)
    · exact hperm

/-! ## A zone, and a full list -/

theorem enabled_stable : Stable ⟨"203.0.113.8:5000", [], []⟩ ["192.0.2.0/24", "203.0.113.8"]
    (withList default true ["192.0.2.0/24", "203.0.113.8"] "" 0) := by
  have hlist : normalizeAllowlist ["192.0.2.1/24"] = .ok ["192.0.2.0/24"] := by
    decide +kernel
  have hcurrent : ensureCurrentIP ["192.0.2.0/24"]
      (clientIP ⟨"203.0.113.8:5000", [], []⟩ default.trustedProxy) =
        ["192.0.2.0/24", "203.0.113.8"] := by decide +kernel
  have hip : parseIP (trimSpace (clientIP ⟨"203.0.113.8:5000", [], []⟩ default.trustedProxy)) =
      some (IP.ofV4 203 0 113 8) := by decide +kernel
  exact (stable_iff (ipAllowlist_enabled hlist hcurrent (List.cons_ne_nil _ _))).mpr
    ⟨_, hip, _, hlist, Or.inl (by decide)⟩

/-- 64 addresses. -/
def fullList : List String := (List.range 64).map fun k => (IP.ofV4 10 0 0 k).string

theorem normal_fullList : Normal fullList := by
  constructor
  · intro entry hentry
    obtain ⟨k, -, rfl⟩ := List.mem_map.mp hentry
    exact canonical_ip _
  · refine List.Nodup.map_on (fun k hk k' hk' heq => ?_) List.nodup_range
    have hread := congrArg parseIP heq
    rw [parseIP_string, parseIP_string] at hread
    have hvalue := congrArg BitVec.toNat (Option.some.inj hread)
    have hlt := List.mem_range.mp hk
    have hlt' := List.mem_range.mp hk'
    simp only [IP.ofV4, BitVec.toNat_ofNat] at hvalue
    omega

/-- A caller with a zone is locked out; with a caller beside 64 entries the answer is refused. -/
theorem zone_and_full_list :
    (∃ answered cfg', ipAllowlist default ⟨"[fe80::1%eth0]:5000", [], []⟩ true ["192.0.2.1"] "" 0 true =
      (.ok answered, cfg') ∧ ¬ Stable ⟨"[fe80::1%eth0]:5000", [], []⟩ answered cfg') ∧
    ∃ answered cfg', ipAllowlist default ⟨"203.0.113.8:5000", [], []⟩ true fullList "" 0 true =
      (.ok answered, cfg') ∧ ¬ Stable ⟨"203.0.113.8:5000", [], []⟩ answered cfg' := by
  constructor
  · refine ⟨_, _, rfl, fun hstable => ?_⟩
    have hallowed := hstable.admitted
    revert hallowed
    decide +kernel
  · have hlist := normalizeAllowlist_of_normal normal_fullList (by decide)
    have hperm := List.perm_insertionSort (· ≤ ·) fullList
    have hip : parseIP (trimBrackets (trimSpace
        (clientIP ⟨"203.0.113.8:5000", [], []⟩ default.trustedProxy))) =
          some (IP.ofV4 203 0 113 8) := by decide +kernel
    have hloopback : (IP.ofV4 203 0 113 8).isLoopback = false := by decide +kernel
    have hnot : listed fullList (IP.ofV4 203 0 113 8) = false := by decide +kernel
    have hcurrent : ensureCurrentIP (fullList.insertionSort (· ≤ ·))
        (clientIP ⟨"203.0.113.8:5000", [], []⟩ default.trustedProxy) =
          fullList.insertionSort (· ≤ ·) ++ [(IP.ofV4 203 0 113 8).string] := by
      rw [ensureCurrentIP, hip]
      dsimp only
      rw [hloopback, if_neg Bool.false_ne_true, listed_perm hperm, hnot, if_neg Bool.false_ne_true]
    refine ⟨_, _, ipAllowlist_enabled hlist hcurrent (List.concat_ne_nil _ _), fun hstable => ?_⟩
    have hlength := hstable.length_le
    rw [List.length_append, hperm.length_eq] at hlength
    revert hlength
    decide

end LukePanel.Server.IpAllowlist
