import LukePanel.Auth.SessionTokens
import LukePanel.Library.Machine
import LukePanel.Server.IpAllowlist
import LukePanel.Server.Login
import Mathlib.Logic.Function.Basic

/-! # Secondary authentication

`requireAuth`, `elevate`, `elevationActive` and `requireElevation` of `internal/server/server.go`
in requests that interleave in every order. `elevate` checks the password and the second factor
and then notes the session in a map for five minutes, which the protected operations look up;
meanwhile other requests change the configuration and the sessions, and an import empties the
map. -/
namespace LukePanel.Server.Elevation
open LukePanel.Auth LukePanel.Auth.SessionStore LukePanel.Auth.Totp
open LukePanel.Auth.SessionTokens (Call Live get tokenOf)
open LukePanel.Library LukePanel.Library.GoStrings LukePanel.Library.Machine
open LukePanel.Server.ClientIp (getHeader)
open LukePanel.Server.IpAllowlist LukePanel.Server.Login LukePanel.Server.SecondFactor

/-- The answer to a request that is not let through. -/
structure Refusal where
  status : Nat
  text : String
  code : String
  deriving DecidableEq

/-- What `requireAuth` reads of a request. -/
structure Request where
  client : ClientIp.Request
  cookie : Option String
  fetchSite : List String
  method : String
  csrfToken : List String

/-- `elevated`, by the ids of sessions; times are nanoseconds. -/
abbrev Elevated := String → Option Nat

def elevationTime : Nat := 300000000000

def elevationActive (elevated : Elevated) (session : Session) (now : Nat) : Bool × Elevated :=
  if session.id = "" then (false, elevated)
  else
    match elevated session.id with
    | none => (false, elevated)
    | some expires =>
      if expires < now then (false, Function.update elevated session.id none) else (true, elevated)

inductive Phase where
  | absent
  /-- Its address is allowed. -/
  | arrived (r : Request)
  /-- In its handler. -/
  | admitted (r : Request) (session : Session)
  /-- `elevate` has copied the password hash. -/
  | elevating (session : Session) (password otp passwordHash : String)
  /-- The password is verified, the second factor is not. -/
  | confirming (session : Session) (otp : String)
  /-- `elevate` is about to note the session. -/
  | confirmed (session : Session)
  /-- `requireElevation` has let it go on. -/
  | cleared (session : Session)
  | done

inductive Event where
  | call (c : Call)
  | configured (cfg : Config)
  | admitted (i : Nat) (r : Request) (session : Session)
  /-- `elevate` has read its body and copied the password hash. -/
  | asked (i : Nat) (password otp : String)
  /-- The second factor is accepted at a wall time, or none is set up. -/
  | proved (i : Nat) (wall : Option Int)
  | elevated (i : Nat) (session : Session)
  | reset

/-- `log` is what has happened, the latest first. -/
structure State where
  cfg : Config
  store : Store
  elevated : Elevated
  phase : Nat → Phase
  clock : Nat
  log : List (Nat × Event)

inductive Act where
  | arrive (i : Nat) (r : Request)
  | authenticate (i : Nat)
  | elevate (i : Nat) (password otp : String)
  | verify (i : Nat)
  /-- `verifySecondFactor`; `written` is whether its save succeeds. -/
  | second (i : Nat) (wall : Int) (written : Bool)
  | note (i : Nat)
  | demand (i : Nat)
  /-- An import empties the map. -/
  | reset (i : Nat)
  /-- Another request calls the session store. -/
  | call (c : Call)
  /-- Another request saves a configuration. -/
  | configure (cfg : Config)

def start (cfg : Config) (ttl : Nat) : State :=
  ⟨cfg, newStore ttl, fun _ => none, fun _ => .absent, 0, []⟩

namespace State

def move (s : State) (i : Nat) (p : Phase) : State :=
  { s with phase := Function.update s.phase i p }

def tell (s : State) (e : Event) : State := { s with log := (s.clock, e) :: s.log }

@[simp] theorem move_log (s : State) (i : Nat) (p : Phase) : (s.move i p).log = s.log := rfl

@[simp] theorem move_self (s : State) (i : Nat) (p : Phase) : (s.move i p).phase i = p :=
  Function.update_self ..

theorem move_ne (s : State) {i j : Nat} (p : Phase) (h : j ≠ i) :
    (s.move i p).phase j = s.phase j := Function.update_of_ne h ..

end State

/-- A session gets an id of 32 random bytes. -/
def sized : Call → Bool
  | .create (some raw) _ _ => raw.length == 32
  | _ => true

variable (mac : List UInt8 → List UInt8 → List UInt8) (secret : String) (macs : Macs)
  (verifyPassword : String → String → Option Bool)

/-- `requireAuth` once the address is allowed. -/
def authenticate (s : Store) (r : Request) (now : Nat) : Except Refusal Session × Store :=
  match r.cookie with
  | none => (.error ⟨401, "未登录", "session_required"⟩, s)
  | some token =>
    match get mac secret s token now with
    | (none, s) => (.error ⟨401, "会话已过期", "session_expired"⟩, s)
    | (some session, s) =>
      if toLower (getHeader r.fetchSite) = "cross-site" then (.error ⟨403, "拒绝跨站请求", ""⟩, s)
      else if r.method ≠ "GET" ∧ getHeader r.csrfToken ≠ session.csrfToken then
        (.error ⟨403, "CSRF 校验失败", ""⟩, s)
      else (.ok session, s)

def stepNow (s : State) : Act → Option State
  | .arrive i r =>
    match s.phase i with
    | .absent =>
      some (s.move i (if ipAllowedRequest s.cfg r.client = true then .arrived r else .done))
    | _ => none
  | .authenticate i =>
    match s.phase i with
    | .arrived r =>
      match authenticate mac secret s.store r s.clock with
      | (.error _, store) => some ({ s with store }.move i .done)
      | (.ok session, store) =>
        some (({ s with store }.tell (.admitted i r session)).move i (.admitted r session))
    | _ => none
  | .elevate i password otp =>
    match s.phase i with
    | .admitted r session =>
      if r.method = "POST" then
        some ((s.tell (.asked i password otp)).move i
          (.elevating session password otp s.cfg.passwordHash))
      else some (s.move i .done)
    | _ => none
  | .verify i =>
    match s.phase i with
    | .elevating session password otp passwordHash =>
      if verifyPassword password passwordHash ≠ some true then some (s.move i .done)
      else if s.cfg.totpSecret = "" then
        some ((s.tell (.proved i none)).move i (.confirmed session))
      else some (s.move i (if isSecondFactorMissing otp then .done else .confirming session otp))
    | _ => none
  | .second i wall written =>
    match s.phase i with
    | .confirming session otp =>
      match verifySecondFactor macs otp true wall s.cfg with
      | .answer ok _ =>
        if ok then some ((s.tell (.proved i (some wall))).move i (.confirmed session))
        else some (s.move i .done)
      | .save updated =>
        if written then
          some (({ s.tell (.proved i (some wall)) with cfg := updated }.tell
            (.configured updated)).move i (.confirmed session))
        else some (s.move i .done)
    | _ => none
  | .note i =>
    match s.phase i with
    | .confirmed session =>
      let elevated := Function.update s.elevated session.id (some (s.clock + elevationTime))
      some (({ s with elevated }.tell (.elevated i session)).move i .done)
    | _ => none
  | .demand i =>
    match s.phase i with
    | .admitted _ session =>
      let (active, elevated) := elevationActive s.elevated session s.clock
      some ({ s with elevated }.move i (if active then .cleared session else .done))
    | _ => none
  | .reset i =>
    match s.phase i with
    | .cleared _ => some ({ s with elevated := fun _ => none }.tell .reset)
    | _ => none
  | .call c =>
    if sized c then
      some ({ s with store := SessionTokens.step mac secret s.store s.clock c }.tell (.call c))
    else none
  | .configure cfg => some ({ s with cfg }.tell (.configured cfg))

/-- An action at its time, which is not before the one of the last. -/
def step (s : State) (a : Nat × Act) : Option State :=
  if a.1 < s.clock then none else stepNow mac secret macs verifyPassword { s with clock := a.1 } a.2

/-! ## What a log tells -/

/-- The calls of the session store by others. -/
def calls : List (Nat × Event) → List (Nat × Call)
  | [] => []
  | (now, .call c) :: before => (now, c) :: calls before
  | _ :: before => calls before

def configOf (init : Config) : List (Nat × Event) → Config
  | [] => init
  | (_, .configured cfg) :: _ => cfg
  | _ :: before => configOf init before

/-- When the elevation of an id ends, for those who do not ask what time it is. -/
def lasting (id : String) : List (Nat × Event) → Option Nat
  | [] => none
  | (now, .elevated _ session) :: before =>
    if session.id = id then some (now + elevationTime) else lasting id before
  | (_, .reset) :: _ => none
  | _ :: before => lasting id before

/-- The second factor is accepted at a wall time, or none is set up. -/
def Accepts (otp : String) (wall : Option Int) (cfg : Config) : Prop :=
  match wall with
  | none => cfg.totpSecret = ""
  | some wall => (∃ used, verifySecondFactor macs otp true wall cfg = .answer true used) ∨
      ∃ updated, verifySecondFactor macs otp true wall cfg = .save updated

section

variable (ttl : Nat) (init : Config)

/-- A request that is to be let through: its address has been allowed, its token is live, and no
other site has made it. -/
structure Admits (r : Request) (session : Session) (now : Nat) (before : List (Nat × Event)) : Prop where
  address : ∃ earlier, earlier <:+ before ∧ ipAllowedRequest (configOf init earlier) r.client = true
  token : ∃ id, r.cookie = some (tokenOf mac secret id) ∧
    Live mac secret ttl (calls before) id session
  time : now ≤ session.expiresAt
  site : toLower (getHeader r.fetchSite) ≠ "cross-site"
  csrf : r.method ≠ "GET" → getHeader r.csrfToken = session.csrfToken

def Admitted (i : Nat) (r : Request) (session : Session) (log : List (Nat × Event)) : Prop :=
  ∃ now before, (now, .admitted i r session) :: before <:+ log ∧
    Admits mac secret ttl init r session now before

/-- A POST request of the session has come with a password and a code after it was let through, and
the password is the one of the hash at that moment. -/
def Matched (i : Nat) (session : Session) (password otp : String) (log : List (Nat × Event)) : Prop :=
  ∃ r now before, (now, .asked i password otp) :: before <:+ log ∧
    Admitted mac secret ttl init i r session before ∧ r.method = "POST" ∧
    verifyPassword password (configOf init before).passwordHash = some true

/-- It has given the password, and later its code was the second factor. -/
def Confirmed (i : Nat) (session : Session) (log : List (Nat × Event)) : Prop :=
  ∃ password otp wall now before, (now, .proved i wall) :: before <:+ log ∧
    Matched mac secret verifyPassword ttl init i session password otp before ∧
    Accepts macs otp wall (configOf init before)

def Phase.Fits (i : Nat) (log : List (Nat × Event)) : Phase → Prop
  | .arrived r => ∃ earlier, earlier <:+ log ∧ ipAllowedRequest (configOf init earlier) r.client = true
  | .admitted r session => Admitted mac secret ttl init i r session log
  | .elevating session password otp passwordHash => ∃ r now before,
      (now, .asked i password otp) :: before <:+ log ∧
      Admitted mac secret ttl init i r session before ∧ r.method = "POST" ∧
      passwordHash = (configOf init before).passwordHash
  | .confirming session otp =>
    ∃ password, Matched mac secret verifyPassword ttl init i session password otp log
  | .confirmed session => Confirmed mac secret macs verifyPassword ttl init i session log
  | _ => True

def Event.Fits (log : List (Nat × Event)) : Event → Prop
  | .call c => sized c = true
  | .elevated i session => Confirmed mac secret macs verifyPassword ttl init i session log
  | _ => True

/-- What the map holds of an id: what has been noted last, or nothing once that is over. -/
def Remembers (elevated : Elevated) (log : List (Nat × Event)) (now : Nat) (id : String) : Prop :=
  elevated id = lasting id log ∨ elevated id = none ∧ ∃ expires, lasting id log = some expires ∧ expires < now

structure Inv (s : State) : Prop where
  sorted : s.log.Pairwise fun c d => d.1 ≤ c.1
  clock : ∀ e ∈ s.log, e.1 ≤ s.clock
  ids : ∀ c ∈ calls s.log, sized c.2 = true
  cfg : s.cfg = configOf init s.log
  store : SessionTokens.Tracks s.store ttl (SessionTokens.issuedBy mac secret ttl (calls s.log)) s.clock
  elevated : ∀ id, Remembers s.elevated s.log s.clock id
  phase : ∀ i, (s.phase i).Fits mac secret macs verifyPassword ttl init i s.log
  noted : ∀ now i session before, (now, .elevated i session) :: before <:+ s.log →
    Confirmed mac secret macs verifyPassword ttl init i session before

end

variable {mac secret macs verifyPassword} {ttl : Nat} {init : Config} {s t : State} {i : Nat}
  {r : Request} {session : Session} {log longer : List (Nat × Event)} {now : Nat}

theorem Admitted.mono (h : Admitted mac secret ttl init i r session log) (hle : log <:+ longer) :
    Admitted mac secret ttl init i r session longer := by
  obtain ⟨now, before, hbefore, hadmits⟩ := h
  exact ⟨now, before, hbefore.trans hle, hadmits⟩

theorem Matched.mono {password otp : String}
    (h : Matched mac secret verifyPassword ttl init i session password otp log)
    (hle : log <:+ longer) :
    Matched mac secret verifyPassword ttl init i session password otp longer := by
  obtain ⟨r, now, before, hbefore, hmatched⟩ := h
  exact ⟨r, now, before, hbefore.trans hle, hmatched⟩

theorem Confirmed.mono (h : Confirmed mac secret macs verifyPassword ttl init i session log)
    (hle : log <:+ longer) : Confirmed mac secret macs verifyPassword ttl init i session longer := by
  obtain ⟨password, otp, wall, now, before, hbefore, hconfirmed⟩ := h
  exact ⟨password, otp, wall, now, before, hbefore.trans hle, hconfirmed⟩

theorem Phase.Fits.mono {p : Phase} (h : p.Fits mac secret macs verifyPassword ttl init i log)
    (hle : log <:+ longer) : p.Fits mac secret macs verifyPassword ttl init i longer := by
  cases p with
  | arrived r =>
    obtain ⟨earlier, hearlier, hallowed⟩ := h
    exact ⟨earlier, hearlier.trans hle, hallowed⟩
  | admitted r session => exact Admitted.mono h hle
  | elevating session password otp passwordHash =>
    obtain ⟨r, now, before, hbefore, helevating⟩ := h
    exact ⟨r, now, before, hbefore.trans hle, helevating⟩
  | confirming session otp =>
    obtain ⟨password, hmatched⟩ := h
    exact ⟨password, hmatched.mono hle⟩
  | confirmed session => exact Confirmed.mono h hle
  | absent | cleared session | done => trivial

/-! ## Letting a request through -/

/-- Asking for a session changes nothing that matters. -/
theorem tracks_authenticate {store : Store} {issued : String → Option Session}
    (h : SessionTokens.Tracks store ttl issued now) :
    SessionTokens.Tracks (authenticate mac secret store r now).2 ttl issued now := by
  unfold authenticate
  cases r.cookie with
  | none => exact h
  | some token =>
    have hget : SessionTokens.Tracks (get mac secret store token now).2 ttl issued now :=
      h.step (Nat.le_refl now) (.get token)
    dsimp only
    split
    · rename_i hnone
      rw [hnone] at hget
      exact hget
    · rename_i hsome
      rw [hsome] at hget
      split
      · exact hget
      · split <;> exact hget

theorem authenticate_ok {store : Store} {calls : List (Nat × Call)}
    (h : SessionTokens.Tracks store ttl (SessionTokens.issuedBy mac secret ttl calls) now)
    (hok : (authenticate mac secret store r now).1 = .ok session) :
    (∃ id, r.cookie = some (tokenOf mac secret id) ∧ Live mac secret ttl calls id session) ∧
      now ≤ session.expiresAt ∧ toLower (getHeader r.fetchSite) ≠ "cross-site" ∧
      (r.method ≠ "GET" → getHeader r.csrfToken = session.csrfToken) := by
  unfold authenticate at hok
  cases hcookie : r.cookie with
  | none =>
    rw [hcookie] at hok
    cases hok
  | some token =>
    rw [hcookie] at hok
    dsimp only at hok
    split at hok
    · cases hok
    · rename_i found store' hget
      split at hok
      · cases hok
      · rename_i hsite
        split at hok
        · cases hok
        · rename_i hcsrf
          cases hok
          obtain ⟨id, hverify, hissued, htime⟩ :=
            (SessionTokens.get_of_tracks h token session).mp (by rw [hget])
          have hid := SessionTokens.dot_not_mem_of_verify hverify
          exact ⟨⟨id, congrArg some ((SessionTokens.verify_eq_some_iff hid).mp hverify),
            (SessionTokens.issuedBy_eq_some_iff hid).mp hissued⟩, htime, hsite,
            fun hmethod => by_contra fun hne => hcsrf ⟨hmethod, hne⟩⟩

/-! ## The map of elevations -/

theorem Remembers.later {elevated : Elevated} {id : String} {after : Nat}
    (h : Remembers elevated log now id) (hle : now ≤ after) : Remembers elevated log after id :=
  h.imp_right fun ⟨hnone, expires, hlasting, hover⟩ =>
    ⟨hnone, expires, hlasting, Nat.lt_of_lt_of_le hover hle⟩

/-- The operations are open exactly while the last elevation lasts. -/
theorem active_iff {elevated : Elevated} (h : Remembers elevated log now session.id)
    (hid : session.id ≠ "") : (elevationActive elevated session now).1 = true ↔
      ∃ expires, lasting session.id log = some expires ∧ now ≤ expires := by
  unfold elevationActive
  rw [if_neg hid]
  rcases h with heq | ⟨hnone, expires, hlasting, hover⟩
  · rw [← heq]
    cases elevated session.id with
    | none => simp
    | some expires =>
      dsimp only
      split
      · rename_i hover
        simp [hover]
      · rename_i hlast
        simp [Nat.le_of_not_lt hlast]
  · rw [hnone, hlasting]
    simp [hover]

theorem remembers_active {elevated : Elevated} (h : ∀ id, Remembers elevated log now id) (id : String) :
    Remembers (elevationActive elevated session now).2 log now id := by
  unfold elevationActive
  split
  · exact h id
  · split
    · exact h id
    · rename_i expires hexpires
      split
      · rename_i hover
        by_cases hid : id = session.id
        · subst hid
          refine .inr ⟨Function.update_self .., ?_⟩
          rcases h session.id with heq | ⟨hnone, _⟩
          · exact ⟨expires, heq.symm.trans hexpires, hover⟩
          · rw [hnone] at hexpires
            cases hexpires
        · have hother : Function.update elevated session.id none id = elevated id :=
            Function.update_of_ne hid ..
          exact (h id).imp hother.trans (.imp_left hother.trans)
      · exact h id

/-- What lasts has been noted at most five minutes ago, with no reset since. -/
theorem lasting_iff {id : String} (hsorted : log.Pairwise fun c d => d.1 ≤ c.1) :
    (∃ expires, lasting id log = some expires ∧ now ≤ expires) ↔
      ∃ since noted i session before, log = since ++ (noted, .elevated i session) :: before ∧
        session.id = id ∧ now ≤ noted + elevationTime ∧ ∀ e ∈ since, e.2 ≠ .reset := by
  induction log with
  | nil => simp [lasting]
  | cons e log ih =>
    obtain ⟨time, e⟩ := e
    obtain ⟨hlatest, hrest⟩ := List.pairwise_cons.mp hsorted
    specialize ih hrest
    have hskip (hhead : ∀ i session, e = .elevated i session → session.id ≠ id) (hreset : e ≠ .reset) :
        (∃ since noted i session before,
          (time, e) :: log = since ++ (noted, .elevated i session) :: before ∧
            session.id = id ∧ now ≤ noted + elevationTime ∧ ∀ e ∈ since, e.2 ≠ .reset) ↔
        ∃ since noted i session before, log = since ++ (noted, .elevated i session) :: before ∧
          session.id = id ∧ now ≤ noted + elevationTime ∧ ∀ e ∈ since, e.2 ≠ .reset := by
      constructor
      · rintro ⟨since, noted, i, session, before, heq, hid, htime, hsince⟩
        cases since with
        | nil =>
          obtain ⟨hnoted, -⟩ := List.cons.inj heq
          exact absurd hid (hhead i session (congrArg Prod.snd hnoted))
        | cons first since =>
          obtain ⟨rfl, rfl⟩ := List.cons.inj heq
          exact ⟨since, noted, i, session, before, rfl, hid, htime,
            fun e he => hsince e (List.mem_cons_of_mem _ he)⟩
      · rintro ⟨since, noted, i, session, before, rfl, hid, htime, hsince⟩
        exact ⟨(time, e) :: since, noted, i, session, before, rfl, hid, htime,
          List.forall_mem_cons.mpr ⟨hreset, hsince⟩⟩
    cases e with
    | elevated i session =>
      rw [lasting]
      by_cases hid : session.id = id
      · rw [if_pos hid]
        constructor
        · rintro ⟨expires, hexpires, htime⟩
          cases hexpires
          exact ⟨[], time, i, session, log, rfl, hid, htime, nofun⟩
        · rintro ⟨since, noted, j, other, before, heq, -, htime, -⟩
          have hle : noted ≤ time := by
            cases since with
            | nil =>
              obtain ⟨hnoted, -⟩ := List.cons.inj heq
              exact (congrArg Prod.fst hnoted).ge
            | cons first since =>
              obtain ⟨-, rfl⟩ := List.cons.inj heq
              exact hlatest _ (List.mem_append_right _ List.mem_cons_self)
          exact ⟨_, rfl, by omega⟩
      · rw [if_neg hid, ih, hskip (fun _ _ h => by cases h; exact hid) nofun]
    | reset =>
      refine iff_of_false (by simp [lasting]) ?_
      rintro ⟨since, noted, i, session, before, heq, -, -, hsince⟩
      cases since with
      | nil => cases heq
      | cons first since =>
        obtain ⟨rfl, -⟩ := List.cons.inj heq
        exact hsince _ List.mem_cons_self rfl
    | call c | configured cfg | admitted j r other | asked j password otp | proved j wall =>
      rw [lasting, ih, hskip nofun nofun]
      all_goals exact nofun

/-! ## Along a run -/

theorem Inv.advance (hs : Inv mac secret macs verifyPassword ttl init s) (hle : s.clock ≤ now) :
    Inv mac secret macs verifyPassword ttl init { s with clock := now } where
  sorted := hs.sorted
  clock e he := (hs.clock e he).trans hle
  ids := hs.ids
  cfg := hs.cfg
  store := hs.store.drop hle rfl (fun _ he => he) fun _ he => .inl he
  elevated id := (hs.elevated id).later hle
  phase := hs.phase
  noted := hs.noted

/-- What is asked for may be dropped once it is over. -/
theorem Inv.keep (hs : Inv mac secret macs verifyPassword ttl init s) {store : Store} {elevated : Elevated}
    (hstore : SessionTokens.Tracks store ttl (SessionTokens.issuedBy mac secret ttl (calls s.log)) s.clock)
    (helevated : ∀ id, Remembers elevated s.log s.clock id) :
    Inv mac secret macs verifyPassword ttl init { s with store, elevated } :=
  { hs with store := hstore, elevated := helevated }

theorem Inv.move (hs : Inv mac secret macs verifyPassword ttl init s) {p : Phase}
    (hp : p.Fits mac secret macs verifyPassword ttl init i s.log) :
    Inv mac secret macs verifyPassword ttl init (s.move i p) :=
  { hs with
    phase := fun j => by
      by_cases hj : j = i
      · rw [hj, State.move_self]
        exact hp
      · rw [State.move_ne s p hj]
        exact hs.phase j }

/-- What an event has to come with. -/
theorem Inv.tell (hs : Inv mac secret macs verifyPassword ttl init s) (e : Event) {cfg : Config}
    {store : Store} {elevated : Elevated} (he : e.Fits mac secret macs verifyPassword ttl init s.log)
    (hcfg : cfg = configOf init ((s.clock, e) :: s.log))
    (hstore : SessionTokens.Tracks store ttl
      (SessionTokens.issuedBy mac secret ttl (calls ((s.clock, e) :: s.log))) s.clock)
    (helevated : ∀ id, Remembers elevated ((s.clock, e) :: s.log) s.clock id) :
    Inv mac secret macs verifyPassword ttl init ({ s with cfg, store, elevated }.tell e) := by
  constructor
  case sorted => exact List.pairwise_cons.mpr ⟨hs.clock, hs.sorted⟩
  case clock => exact List.forall_mem_cons.mpr ⟨Nat.le_refl _, hs.clock⟩
  case ids =>
    cases e with
    | call c => exact List.forall_mem_cons.mpr ⟨he, hs.ids⟩
    | configured | admitted | asked | proved | elevated | reset => exact hs.ids
  case cfg => exact hcfg
  case store => exact hstore
  case elevated => exact helevated
  case phase => exact fun i => (hs.phase i).mono (List.suffix_cons _ _)
  case noted =>
    intro now i session before hbefore
    rcases List.suffix_cons_iff.mp hbefore with heq | hbefore
    · cases heq
      exact he
    · exact hs.noted now i session before hbefore

theorem inv_stepNow {a : Act} (hs : Inv mac secret macs verifyPassword ttl init s)
    (h : stepNow mac secret macs verifyPassword s a = some t) :
    Inv mac secret macs verifyPassword ttl init t := by
  cases a with
  | arrive i r =>
    simp only [stepNow] at h
    split at h <;> cases h
    refine hs.move ?_
    split
    · rename_i hallowed
      exact ⟨s.log, List.suffix_refl _, hs.cfg ▸ hallowed⟩
    · trivial
  | authenticate i =>
    simp only [stepNow] at h
    split at h
    · rename_i r harrived
      have hkept : SessionTokens.Tracks (authenticate mac secret s.store r s.clock).2 ttl _ s.clock :=
        tracks_authenticate hs.store
      split at h <;> cases h
      · rename_i hrefused
        rw [hrefused] at hkept
        exact (hs.keep hkept hs.elevated).move trivial
      · rename_i session store hok
        rw [hok] at hkept
        have hphase := hs.phase i
        rw [harrived] at hphase
        obtain ⟨htoken, htime, hsite, hcsrf⟩ := authenticate_ok hs.store (congrArg Prod.fst hok)
        refine Inv.move (hs.tell (.admitted i r session) trivial hs.cfg hkept hs.elevated) ?_
        exact ⟨s.clock, s.log, List.suffix_refl _, hphase, htoken, htime, hsite, hcsrf⟩
    · cases h
  | elevate i password otp =>
    simp only [stepNow] at h
    split at h
    · rename_i r session hadmitted
      have hphase := hs.phase i
      rw [hadmitted] at hphase
      split at h <;> cases h
      · rename_i hpost
        refine Inv.move (hs.tell (.asked i password otp) trivial hs.cfg hs.store hs.elevated) ?_
        exact ⟨r, s.clock, s.log, List.suffix_refl _, hphase, hpost, congrArg _ hs.cfg⟩
      · exact hs.move trivial
    · cases h
  | verify i =>
    simp only [stepNow] at h
    split at h
    · rename_i session password otp passwordHash helevating
      have hphase := hs.phase i
      rw [helevating] at hphase
      obtain ⟨r, now, before, hbefore, hadmitted, hpost, rfl⟩ := hphase
      split at h
      · cases h
        exact hs.move trivial
      · rename_i hmatch
        have hmatched : Matched mac secret verifyPassword ttl init i session password otp s.log :=
          ⟨r, now, before, hbefore, hadmitted, hpost, not_not.mp hmatch⟩
        split at h <;> cases h
        · rename_i hoff
          refine Inv.move (hs.tell (.proved i none) trivial hs.cfg hs.store hs.elevated) ?_
          rw [hs.cfg] at hoff
          exact ⟨password, otp, none, s.clock, s.log, List.suffix_refl _, hmatched, hoff⟩
        · refine hs.move ?_
          split
          · trivial
          · exact ⟨password, hmatched⟩
    · cases h
  | second i wall written =>
    simp only [stepNow] at h
    split at h
    · rename_i session otp hconfirming
      have hphase := hs.phase i
      rw [hconfirming] at hphase
      obtain ⟨password, hmatched⟩ := hphase
      have hproved := hs.tell (.proved i (some wall)) trivial hs.cfg hs.store hs.elevated
      split at h
      · rename_i ok used hanswer
        split at h <;> cases h
        · rename_i hok
          rw [hok, hs.cfg] at hanswer
          exact hproved.move ⟨password, otp, some wall, s.clock, s.log, List.suffix_refl _, hmatched,
            .inl ⟨used, hanswer⟩⟩
        · exact hs.move trivial
      · rename_i updated hsave
        split at h <;> cases h
        · refine Inv.move (hproved.tell (.configured updated) trivial rfl hproved.store
            hproved.elevated) ?_
          rw [hs.cfg] at hsave
          exact ⟨password, otp, some wall, s.clock, s.log, List.suffix_cons _ _, hmatched,
            .inr ⟨updated, hsave⟩⟩
        · exact hs.move trivial
    · cases h
  | note i =>
    simp only [stepNow] at h
    split at h <;> cases h
    rename_i session hconfirmed
    have hphase := hs.phase i
    rw [hconfirmed] at hphase
    have helevated (id : String) : Remembers
        (Function.update s.elevated session.id (some (s.clock + elevationTime)))
        ((s.clock, .elevated i session) :: s.log) s.clock id := by
      rw [Remembers, lasting]
      by_cases hid : session.id = id
      · rw [if_pos hid, ← hid]
        exact .inl (Function.update_self ..)
      · rw [if_neg hid, Function.update_of_ne (Ne.symm hid)]
        exact hs.elevated id
    exact (hs.tell (.elevated i session) hphase hs.cfg hs.store helevated).move trivial
  | demand i =>
    simp only [stepNow] at h
    split at h <;> cases h
    rename_i session hadmitted
    refine (hs.keep hs.store (remembers_active hs.elevated)).move ?_
    split <;> trivial
  | reset i =>
    simp only [stepNow] at h
    split at h <;> cases h
    exact hs.tell .reset trivial hs.cfg hs.store fun _ => .inl rfl
  | call c =>
    simp only [stepNow] at h
    split at h <;> cases h
    rename_i hsized
    exact hs.tell (.call c) hsized hs.cfg (hs.store.step (Nat.le_refl _) c) hs.elevated
  | configure cfg =>
    cases h
    exact hs.tell (.configured cfg) trivial rfl hs.store hs.elevated

theorem inv_of_reaches (h : Reaches (step mac secret macs verifyPassword) Free (start init ttl) s) :
    Inv mac secret macs verifyPassword ttl init s := by
  refine h.invariant ?_ fun s a t hs _ hstep => ?_
  · exact ⟨.nil, nofun, nofun, rfl, ⟨rfl, nofun, nofun⟩, fun _ => .inl rfl, fun _ => trivial,
      fun _ _ _ _ hbefore => nomatch List.suffix_nil.mp hbefore⟩
  · unfold step at hstep
    split at hstep
    · cases hstep
    · rename_i hlate
      exact inv_stepNow (hs.advance (Nat.le_of_not_lt hlate)) hstep

theorem suffix_calls (h : log <:+ longer) : calls log <:+ calls longer := by
  obtain ⟨since, rfl⟩ := h
  induction since with
  | nil => exact List.suffix_refl _
  | cons e since ih =>
    obtain ⟨now, e⟩ := e
    cases e with
    | call c => exact ih.trans (List.suffix_cons _ _)
    | configured | admitted | asked | proved | elevated | reset => exact ih

/-- The id of a session is not empty, which `elevationActive` asks. -/
theorem id_ne_empty {history : List (Nat × Call)} {id : String}
    (hids : ∀ c ∈ history, sized c.2 = true) (h : Live mac secret ttl history id session) :
    session.id ≠ "" := by
  obtain ⟨since, created, raw, csrf, username, before, rfl, rfl, -, rfl⟩ := h
  have hlength : raw.length = 32 := by
    simpa [sized] using hids _ (List.mem_append_right since List.mem_cons_self)
  have hencode : Base64.encode raw ≠ [] := by
    intro hempty
    have hdecode := Base64.decodeChars_encode raw
    rw [hempty] at hdecode
    cases hdecode
    cases hlength
  have hid : (Base64.encodeURLString raw).toList ≠ [] := by
    rw [Base64.encodeURLString, String.toList_ofList, ne_eq, List.map_eq_nil_iff]
    exact hencode
  have hshort : (shortID (Base64.encodeURLString raw)).toList ≠ [] := by
    rw [shortID]
    split
    · rw [String.toList_ofList, ne_eq, List.take_eq_nil_iff]
      exact not_or.mpr ⟨by omega, hid⟩
    · exact hid
  exact fun hempty => hshort (congrArg String.toList hempty)

theorem demand_cleared (hphase : s.phase i = .admitted r session) (hnow : s.clock ≤ now) :
    (∃ t, step mac secret macs verifyPassword s (now, .demand i) = some t ∧
      t.phase i = .cleared session) ↔ (elevationActive s.elevated session now).1 = true := by
  rw [step, if_neg (Nat.not_lt_of_le hnow)]
  simp only [stepNow, hphase, Option.some.injEq, exists_eq_left', State.move_self]
  cases (elevationActive s.elevated session now).1 <;> simp

/-- **The protected operations are open to a session exactly while it is elevated.** In every run a
request that asks has been let through with a live token, and it goes on exactly if its session id
has been noted at most five minutes ago, with no import since, by a request that was let through
with a live token too and then gave the password of the stored hash and after that the second
factor. -/
theorem cleared_iff
    (h : Reaches (step mac secret macs verifyPassword) Free (start init ttl) s)
    (hphase : s.phase i = .admitted r session) (hnow : s.clock ≤ now) :
    Admitted mac secret ttl init i r session s.log ∧
    ((∃ t, step mac secret macs verifyPassword s (now, .demand i) = some t ∧
        t.phase i = .cleared session) ↔
      ∃ since noted j other before, s.log = since ++ (noted, .elevated j other) :: before ∧
        other.id = session.id ∧ now ≤ noted + elevationTime ∧ (∀ e ∈ since, e.2 ≠ .reset) ∧
        Confirmed mac secret macs verifyPassword ttl init j other before) := by
  have hs := inv_of_reaches h
  have hadmitted := hs.phase i
  rw [hphase] at hadmitted
  have hid : session.id ≠ "" := by
    obtain ⟨admitted, before, hbefore, hadmits⟩ := hadmitted
    obtain ⟨id, _, hlive⟩ := hadmits.token
    exact id_ne_empty (fun c hc => hs.ids c ((suffix_calls hbefore).subset hc)) hlive
  refine ⟨hadmitted, ?_⟩
  rw [demand_cleared hphase hnow, active_iff ((hs.elevated session.id).later hnow) hid, lasting_iff hs.sorted]
  constructor
  · rintro ⟨since, noted, j, other, before, hlog, hother, htime, hsince⟩
    exact ⟨since, noted, j, other, before, hlog, hother, htime, hsince,
      hs.noted noted j other before (hlog ▸ List.suffix_append since _)⟩
  · rintro ⟨since, noted, j, other, before, hlog, hother, htime, hsince, _⟩
    exact ⟨since, noted, j, other, before, hlog, hother, htime, hsince⟩

/-- A session is created, noted by one request and asked for by another. -/
theorem cleared_iff_confirmed :
    let mac : List UInt8 → List UInt8 → List UInt8 := fun _ _ => []
    let macs : Macs := ⟨fun _ _ => "", fun _ _ => "", fun _ _ => ""⟩
    let verifyPassword : String → String → Option Bool := fun password hash => some (password == hash)
    let cfg := { Config.default with passwordHash := "password" }
    ∃ s r session j other before,
      Reaches (step mac "" macs verifyPassword) Free (start cfg 1000) s ∧
      s.phase 1 = .admitted r session ∧ other.id = session.id ∧
      Confirmed mac "" macs verifyPassword 1000 cfg j other before := by
  intro mac macs verifyPassword cfg
  let cookie := some (tokenOf mac "" (Base64.encodeURLString (List.replicate 32 0)))
  let client : ClientIp.Request := ⟨"203.0.113.5:4000", [], []⟩
  let acts : List (Nat × Act) := [(1, .call (.create (some (List.replicate 32 0)) (some [7]) "admin")),
    (2, .arrive 0 ⟨client, cookie, [], "POST", ["Bw"]⟩), (3, .authenticate 0),
    (4, .elevate 0 "password" ""), (5, .verify 0), (6, .note 0),
    (7, .arrive 1 ⟨client, cookie, [], "GET", []⟩), (8, .authenticate 1)]
  have hrun : (run (step mac "" macs verifyPassword) (start cfg 1000) acts).any (fun s => s.clock ≤ 9 &&
      match s.phase 1 with
      | .admitted _ session => (elevationActive s.elevated session 9).1
      | _ => false) = true := by decide +kernel
  obtain ⟨s, hs, hasked⟩ := (Option.any_eq_true _ _).mp hrun
  obtain ⟨hclock, hasked⟩ := Bool.and_eq_true_iff.mp hasked
  split at hasked
  · rename_i r session hphase
    have hreaches := reaches_of_run hs
    obtain ⟨_, _, j, other, before, _, hother, _, _, hconfirmed⟩ :=
      (cleared_iff hreaches hphase (of_decide_eq_true hclock)).2.mp
        ((demand_cleared hphase (of_decide_eq_true hclock)).mpr hasked)
    exact ⟨s, r, session, j, other, before, hreaches, hphase, hother, hconfirmed⟩
  · cases hasked

end LukePanel.Server.Elevation
