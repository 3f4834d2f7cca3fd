import Mathlib.Logic.Function.Basic
import LukePanel.Auth.SessionStore
import LukePanel.Library.Machine
import LukePanel.Server.ConfigHandlers
import LukePanel.Server.Login

/-! # Account changes against sessions being established

`login`, the two halves of a passkey login, `changePassword` and `changeAccount` interleaved in
every order. The sections under `configMu` and each call of the session store are one step. A
change saves the configuration, deletes the other sessions and then answers; a login reads the
credentials, verifies them and creates its session later. Nothing looks at the credentials again
when the session is created, so a change revokes what it should exactly as long as no session is
created from credentials read before a change that has already deleted. -/
namespace LukePanel.Server.AccountChanges
open LukePanel.Auth.SessionStore LukePanel.Auth.Totp LukePanel.Library.GoStrings
open LukePanel.Library.Machine LukePanel.Server.ConfigHandlers LukePanel.Server.Login
open LukePanel.Server.SecondFactor

/-! ## Requests -/

def isLetter (c : Char) : Bool := ('A' ≤ c && c ≤ 'Z') || ('a' ≤ c && c ≤ 'z')

/-- `^[A-Za-z][A-Za-z0-9_.-]{2,31}$` -/
def accountNamePattern (name : String) : Bool :=
  match name.toList with
  | [] => false
  | c :: rest =>
    isLetter c && 2 ≤ rest.length && rest.length ≤ 31 &&
      rest.all fun c => isLetter c || c.isDigit || c == '_' || c == '.' || c == '-'

/-- The bodies of `changePassword` and `changeAccount`. -/
inductive ChangeRequest where
  | password (currentPassword otp : String)
  | account (currentPassword username otp : String)
  deriving DecidableEq, Repr

def ChangeRequest.currentPassword : ChangeRequest → String
  | .password current _ | .account current _ _ => current

/-- The request after the check of its account name. -/
def ChangeRequest.checkName : ChangeRequest → Option ChangeRequest
  | .account current username otp =>
    if accountNamePattern (trimSpace username) then some (.account current (trimSpace username) otp)
    else none
  | r => some r

/-- What a change does to the configuration, with the credentials its check was made against. -/
inductive Edit where
  | password (passwordHash newHash : String)
  | account (passwordHash oldUser username : String)
  deriving DecidableEq, Repr

def Edit.mutate : Edit → Config → Except SecondFactorError Config
  | .password passwordHash newHash => setPassword passwordHash newHash
  | .account passwordHash oldUser username => setAccount passwordHash oldUser username

/-- A saved change: the session that asked for it, under its key in the store, and the number
of changes saved up to this one. -/
structure Change where
  edit : Edit
  epoch : Nat
  key : String
  session : Session
  deriving DecidableEq, Repr

def Change.deleteOthers (c : Change) (store : Store) : Store :=
  match c.edit with
  | .password .. => (store.deleteAllExcept c.session.id).1
  | .account _ _ username => (store.renameCurrentAndDeleteOthers c.session.id username).1

/-- How many changes had been saved when an authentication read what it was decided on: the
password hash or the passkey for `passwordAt`, the account name for `accountAt`. The code keeps
neither. -/
structure Origin where
  passwordAt : Nat
  accountAt : Nat
  deriving DecidableEq, Repr

/-- The authentication was made against the credential that `c` replaced. -/
def Change.outdates (c : Change) (o : Origin) : Bool :=
  match c.edit with
  | .password .. => o.passwordAt < c.epoch
  | .account .. => o.accountAt < c.epoch

/-- `passkeyChallenge` of a login. -/
structure PasskeyChallenge where
  origin : String
  rpID : String
  username : String
  deriving DecidableEq, Repr

/-! ## The machine -/

inductive Phase where
  | idle
  | login (req : LoginRequest) (snap : Snapshot) (o : Origin)
  /-- The password is verified, the second factor is not. -/
  | secondFactor (req : LoginRequest) (o : Origin)
  /-- The challenge of `passkeyLoginBegin` is pending. -/
  | challenged (challenge : PasskeyChallenge) (accountAt : Nat)
  | asserted (challenge : PasskeyChallenge) (id : String) (count : UInt32) (accountAt : Nat)
  /-- `establishSession` is called. -/
  | authenticated (username : String) (o : Origin)
  | requested (key : String) (session : Session) (req : ChangeRequest)
  | copied (key : String) (session : Session) (req : ChangeRequest)
      (passwordHash adminUser : String)
  /-- `saveConfigWithSecondFactor` is called. -/
  | saving (key : String) (session : Session) (otp : String) (edit : Edit)
  | saved (c : Change)
  /-- The other sessions are deleted, the answer is not written. -/
  | deleted (c : Change)
  deriving DecidableEq

structure State where
  cfg : Config
  store : Store
  thread : Nat → Phase
  epoch : Nat
  origin : String → Origin
  issued : List String
  deleted : List Change
  answered : List Change

def start (cfg : Config) (ttl : Nat) : State :=
  ⟨cfg, newStore ttl, fun _ => .idle, 0, fun _ => ⟨0, 0⟩, [], [], []⟩

def State.move (s : State) (i : Nat) (p : Phase) : State :=
  { s with thread := Function.update s.thread i p }

@[simp] theorem State.move_self (s : State) (i : Nat) (p : Phase) : (s.move i p).thread i = p :=
  Function.update_self ..

theorem State.move_ne (s : State) {i j : Nat} (p : Phase) (h : j ≠ i) :
    (s.move i p).thread j = s.thread j := Function.update_of_ne h ..

inductive Act where
  | snapshot (i : Nat) (req : LoginRequest)
  | verify (i : Nat)
  /-- `verifySecondFactor`; `written` is whether its save succeeds. -/
  | second (i : Nat) (now : Int) (written : Bool)
  | challenge (i : Nat) (origin rpID : String)
  /-- `passkeyLoginFinish` copies the passkeys and verifies; `count` is what
  `auth.VerifyPasskey` returns. -/
  | assert (i : Nat) (id : String) (count : Option UInt32)
  | finish (i : Nat) (now : Nat) (written : Bool)
  | establish (i : Nat) (raw csrf : String) (now : Nat)
  /-- A change request arrives with the cookie of a session. -/
  | request (i : Nat) (key : String) (now : Nat) (req : ChangeRequest)
  | copy (i : Nat)
  /-- The password is verified; `newHash` is what `auth.ValidatePasswordStrength` and
  `auth.HashPassword` make of the new one. -/
  | check (i : Nat) (newHash : Option String)
  | save (i : Nat) (now : Int) (written : Bool)
  | deleteOthers (i : Nat)
  | answer (i : Nat)
  | logout (key : String)
  | cleanup (now : Nat)

section

variable (macs : Macs) (verifyPassword : String → String → Option Bool)

/-- `changePassword` and `changeAccount` between the copy of the credentials and the save. An
account name that is the present one is answered with success and changes nothing. -/
def checked (key : String) (session : Session) (req : ChangeRequest)
    (passwordHash adminUser : String) (newHash : Option String) : Phase :=
  if verifyPassword req.currentPassword passwordHash ≠ some true then .idle
  else
    match req, newHash with
    | .password _ otp, some newHash => .saving key session otp (.password passwordHash newHash)
    | .password .., none => .idle
    | .account _ username otp, _ =>
      if username = adminUser then .idle
      else .saving key session otp (.account passwordHash adminUser username)

def step (s : State) : Act → Option State
  | .snapshot i req =>
    match s.thread i with
    | .idle =>
      let snap := ⟨s.cfg.passwordHash, s.cfg.adminUser, s.cfg.totpSecret != ""⟩
      some (s.move i (.login req snap ⟨s.epoch, s.epoch⟩))
    | _ => none
  | .verify i =>
    match s.thread i with
    | .login req snap o =>
      match verdict verifyPassword snap req with
      | .failed => some (s.move i .idle)
      | .secondFactor => some (s.move i (.secondFactor req o))
      | .granted => some (s.move i (.authenticated req.username o))
    | _ => none
  | .second i now written =>
    match s.thread i with
    | .secondFactor req o =>
      match verifySecondFactor macs req.otp true now s.cfg with
      | .answer ok _ => some (s.move i (if ok then .authenticated req.username o else .idle))
      | .save updated =>
        if written then some ({ s with cfg := updated }.move i (.authenticated req.username o))
        else some (s.move i .idle)
    | _ => none
  | .challenge i origin rpID =>
    match s.thread i with
    | .idle =>
      if s.cfg.passkeys.isEmpty then none
      else some (s.move i (.challenged ⟨origin, rpID, s.cfg.adminUser⟩ s.epoch))
    | _ => none
  | .assert i id count =>
    match s.thread i with
    | .challenged challenge accountAt =>
      match s.cfg.passkeys.find? (·.id == id), count with
      | some item, some count => some (s.move i (.asserted challenge item.id count accountAt))
      | _, _ => some (s.move i .idle)
    | _ => none
  | .finish i now written =>
    match s.thread i with
    | .asserted challenge id count accountAt =>
      match passkeyLoginFinish challenge.origin challenge.rpID id count now s.cfg with
      | none => some (s.move i .idle)
      | some updated =>
        if written then
          some ({ s with cfg := updated }.move i
            (.authenticated challenge.username ⟨s.epoch, accountAt⟩))
        else some (s.move i .idle)
    | _ => none
  | .establish i raw csrf now =>
    match s.thread i with
    | .authenticated username o =>
      -- `crypto/rand` repeats neither an id nor its first ten characters
      if s.issued.any (shortID · == shortID raw) then none
      else
        some ({ s with
          store := (s.store.create raw csrf username now).1
          origin := Function.update s.origin raw o
          issued := raw :: s.issued }.move i .idle)
    | _ => none
  | .request i key now req =>
    match s.thread i with
    | .idle =>
      match (s.store.get key now).1, req.checkName with
      | some session, some req =>
        some ({ s with store := (s.store.get key now).2 }.move i (.requested key session req))
      | _, _ => some { s with store := (s.store.get key now).2 }
    | _ => none
  | .copy i =>
    match s.thread i with
    | .requested key session req =>
      some (s.move i (.copied key session req s.cfg.passwordHash s.cfg.adminUser))
    | _ => none
  | .check i newHash =>
    match s.thread i with
    | .copied key session req passwordHash adminUser =>
      some (s.move i (checked verifyPassword key session req passwordHash adminUser newHash))
    | _ => none
  | .save i now written =>
    match s.thread i with
    | .saving key session otp edit =>
      match saveConfigWithSecondFactor macs otp now edit.mutate s.cfg with
      | .error _ => some (s.move i .idle)
      | .ok (updated, _) =>
        if written then
          some ({ s with cfg := updated, epoch := s.epoch + 1 }.move i
            (.saved ⟨edit, s.epoch + 1, key, session⟩))
        else some (s.move i .idle)
    | _ => none
  | .deleteOthers i =>
    match s.thread i with
    | .saved c =>
      some ({ s with store := c.deleteOthers s.store, deleted := c :: s.deleted }.move i
        (.deleted c))
    | _ => none
  | .answer i =>
    match s.thread i with
    | .deleted c => some ({ s with answered := c :: s.answered }.move i .idle)
    | _ => none
  | .logout key => some { s with store := s.store.delete key }
  | .cleanup now => some { s with store := s.store.cleanup now }

end

/-! ## What a step does -/

/-- The session a request works for. -/
def Phase.holder : Phase → Option (String × Session)
  | .requested key session _ | .copied key session .. | .saving key session .. =>
    some (key, session)
  | .saved c | .deleted c => some (c.key, c.session)
  | _ => none

def Phase.isDeleted : Phase → Bool
  | .deleted _ => true
  | _ => false

def State.credentials (s : State) : String × String := (s.cfg.passwordHash, s.cfg.adminUser)

/-- A step works on the configuration for one thread, or it is one of the calls of the session
store, or it answers. -/
inductive Did (s : State) : Act → State → Prop
  | worked {a : Act} {i : Nat} {p : Phase} {cfg : Config} {epoch : Nat} :
      (∀ held, p.holder = some held → (s.thread i).holder = some held) →
      p.isDeleted = false → s.epoch ≤ epoch →
      (epoch = s.epoch → (cfg.passwordHash, cfg.adminUser) = s.credentials) →
      Did s a ({ s with cfg, epoch }.move i p)
  | established {i : Nat} {raw csrf username : String} {now : Nat} {o : Origin} :
      s.thread i = .authenticated username o → (∀ key ∈ s.issued, shortID key ≠ shortID raw) →
      Did s (.establish i raw csrf now) ({ s with
        store := (s.store.create raw csrf username now).1
        origin := Function.update s.origin raw o
        issued := raw :: s.issued }.move i .idle)
  | requested {i : Nat} {key : String} {now : Nat} {req req' : ChangeRequest} {session : Session} :
      (s.store.get key now).1 = some session →
      Did s (.request i key now req)
        ({ s with store := (s.store.get key now).2 }.move i (.requested key session req'))
  | dropped {a : Act} {store : Store} : (∀ e ∈ store.sessions, e ∈ s.store.sessions) →
      Did s a { s with store }
  | deleted {i : Nat} {c : Change} : s.thread i = .saved c →
      Did s (.deleteOthers i) ({ s with
        store := c.deleteOthers s.store, deleted := c :: s.deleted }.move i (.deleted c))
  | answered {i : Nat} {c : Change} : s.thread i = .deleted c →
      Did s (.answer i) ({ s with answered := c :: s.answered }.move i .idle)

variable {macs : Macs} {verifyPassword : String → String → Option Bool} {s t : State} {a : Act}

/-- A step that leaves the configuration and holds no session for the thread. -/
theorem Did.moved {i : Nat} {p : Phase} (hp : p.holder = none) (hd : p.isDeleted = false) :
    Did s a (s.move i p) :=
  @Did.worked s _ _ _ s.cfg _ (fun _ h => absurd h (by rw [hp]; exact nofun)) hd (Nat.le_refl _)
    fun _ => rfl

theorem verify_save_credentials {code : String} {now : Int} {cfg updated : Config}
    (h : verifySecondFactor macs code true now cfg = .save updated) :
    updated.passwordHash = cfg.passwordHash ∧ updated.adminUser = cfg.adminUser := by
  obtain ⟨_, _, _, hrest⟩ := verify_save h
  rw [hrest]
  exact ⟨rfl, rfl⟩

theorem passkeyLoginFinish_credentials {origin rpID id : String} {count : UInt32} {now : Nat}
    {cfg updated : Config} (h : passkeyLoginFinish origin rpID id count now cfg = some updated) :
    updated.passwordHash = cfg.passwordHash ∧ updated.adminUser = cfg.adminUser := by
  have hpin : (pinWebAuthn origin rpID cfg).passwordHash = cfg.passwordHash ∧
      (pinWebAuthn origin rpID cfg).adminUser = cfg.adminUser := by
    unfold pinWebAuthn
    split <;> exact ⟨rfl, rfl⟩
  simp only [passkeyLoginFinish] at h
  split at h
  · cases h
  · cases h
    exact hpin

/-- The checks of a change keep the session they were asked for with. -/
theorem checked_holder (verifyPassword : String → String → Option Bool) (key : String)
    (session : Session) (req : ChangeRequest) (passwordHash adminUser : String)
    (newHash : Option String) :
    (∀ held, (checked verifyPassword key session req passwordHash adminUser newHash).holder =
        some held → held = (key, session)) ∧
      (checked verifyPassword key session req passwordHash adminUser newHash).isDeleted =
        false := by
  unfold checked
  split
  · exact ⟨nofun, rfl⟩
  · split
    · exact ⟨fun held h => (Option.some.inj h).symm, rfl⟩
    · exact ⟨nofun, rfl⟩
    · split
      · exact ⟨nofun, rfl⟩
      · exact ⟨fun held h => (Option.some.inj h).symm, rfl⟩

theorem did_of_step (h : step macs verifyPassword s a = some t) : Did s a t := by
  cases a with
  | snapshot i req =>
    simp only [step] at h
    split at h
    · cases h; exact .moved rfl rfl
    · cases h
  | verify i =>
    simp only [step] at h
    split at h
    · split at h <;> cases h <;> exact .moved rfl rfl
    · cases h
  | second i now written =>
    simp only [step] at h
    split at h
    · split at h
      · rename_i ok used hcheck
        cases ok <;> cases h <;> exact .moved rfl rfl
      · rename_i updated hsave
        split at h
        · cases h
          obtain ⟨hhash, huser⟩ := verify_save_credentials hsave
          exact .worked nofun rfl (Nat.le_refl _) fun _ => by rw [hhash, huser]; rfl
        · cases h; exact .moved rfl rfl
    · cases h
  | challenge i origin rpID =>
    simp only [step] at h
    split at h
    · split at h
      · cases h
      · cases h; exact .moved rfl rfl
    · cases h
  | assert i id count =>
    simp only [step] at h
    split at h
    · split at h <;> cases h <;> exact .moved rfl rfl
    · cases h
  | finish i now written =>
    simp only [step] at h
    split at h
    · split at h
      · cases h; exact .moved rfl rfl
      · rename_i updated hfinish
        split at h
        · cases h
          obtain ⟨hhash, huser⟩ := passkeyLoginFinish_credentials hfinish
          exact .worked nofun rfl (Nat.le_refl _) fun _ => by rw [hhash, huser]; rfl
        · cases h; exact .moved rfl rfl
    · cases h
  | establish i raw csrf now =>
    simp only [step] at h
    split at h
    · rename_i username o hphase
      split at h
      · cases h
      · rename_i hfresh
        cases h
        exact .established hphase (by simpa using hfresh)
    · cases h
  | request i key now req =>
    simp only [step] at h
    split at h
    · split at h
      · rename_i session req' hget hname; cases h; exact .requested hget
      · cases h; exact .dropped fun e => Store.mem_get
    · cases h
  | copy i =>
    simp only [step] at h
    split at h
    · rename_i key session req hphase
      cases h
      exact @Did.worked s _ _ _ s.cfg _ (fun _ hp => by rw [hphase]; exact hp) rfl (Nat.le_refl _)
        fun _ => rfl
    · cases h
  | check i newHash =>
    simp only [step] at h
    split at h
    · rename_i key session req passwordHash adminUser hphase
      cases h
      obtain ⟨hheld, hdel⟩ :=
        checked_holder verifyPassword key session req passwordHash adminUser newHash
      exact @Did.worked s _ _ _ s.cfg _ (fun held hp => by rw [hphase, hheld held hp]; rfl) hdel
        (Nat.le_refl _) fun _ => rfl
    · cases h
  | save i now written =>
    simp only [step] at h
    split at h
    · rename_i key session otp edit hphase
      split at h
      · cases h; exact .moved rfl rfl
      · split at h
        · cases h
          refine .worked (fun _ hp => by rw [hphase]; exact hp) rfl (Nat.le_succ _) ?_
          intro hsame
          omega
        · cases h; exact .moved rfl rfl
    · cases h
  | deleteOthers i =>
    simp only [step] at h
    split at h
    · rename_i c hphase; cases h; exact .deleted hphase
    · cases h
  | answer i =>
    simp only [step] at h
    split at h
    · rename_i c hphase; cases h; exact .answered hphase
    · cases h
  | logout key =>
    simp only [step] at h
    cases h
    exact .dropped fun e => Store.mem_delete
  | cleanup now =>
    simp only [step] at h
    cases h
    exact .dropped fun e => Store.mem_cleanup

/-! ## The credentials of an epoch -/

theorem epoch_step (h : step macs verifyPassword s a = some t) :
    s.epoch ≤ t.epoch ∧ (t.epoch = s.epoch → t.credentials = s.credentials) := by
  cases did_of_step h with
  | worked _ _ hle hsame => exact ⟨hle, hsame⟩
  | _ => exact ⟨Nat.le_refl _, fun _ => rfl⟩

/-- While no change is saved, the password hash and the account name stay what they are. -/
theorem credentials_of_epoch {guard : State → Act → Prop}
    (h : Reaches (step macs verifyPassword) guard s t) :
    s.epoch ≤ t.epoch ∧ (t.epoch = s.epoch → t.credentials = s.credentials) := by
  induction h with
  | refl => exact ⟨Nat.le_refl _, fun _ => rfl⟩
  | tail _ _ hs ih =>
    obtain ⟨hle, hsame⟩ := epoch_step hs
    refine ⟨Nat.le_trans ih.1 hle, fun he => ?_⟩
    have hmid := ih.1
    rw [hsame (by omega), ih.2 (by omega)]

/-! ## The invariant -/

/-- A session is created only from credentials that no change has replaced whose deletion has
run. -/
def Fresh (s : State) : Act → Prop
  | .establish i .. => ∀ username o, s.thread i = .authenticated username o →
      ∀ c ∈ s.deleted, c.outdates o = false
  | _ => True

/-- Ids identify sessions, and every change whose deletion has run has left its own session and
those authenticated against what it made valid. -/
structure Inv (s : State) : Prop where
  ids : ∀ k ∈ s.issued, ∀ k' ∈ s.issued, shortID k = shortID k' → k = k'
  live : ∀ e ∈ s.store.sessions, e.1 ∈ s.issued ∧ e.2.id = shortID e.1
  held : ∀ i key session, (s.thread i).holder = some (key, session) →
    key ∈ s.issued ∧ session.id = shortID key
  revoked : ∀ c ∈ s.deleted, ∀ e ∈ s.store.sessions,
    e.1 = c.key ∨ c.outdates (s.origin e.1) = false
  pending : ∀ i c, s.thread i = .deleted c → c ∈ s.deleted
  answers : ∀ c ∈ s.answered, c ∈ s.deleted

theorem inv_start (cfg : Config) (ttl : Nat) : Inv (start cfg ttl) where
  ids := nofun
  live := nofun
  held := nofun
  revoked := nofun
  pending := nofun
  answers := nofun

namespace Inv

/-- A thread goes on with the session it holds, or with none. -/
theorem move {i : Nat} {p : Phase} (h : Inv s)
    (hheld : ∀ held, p.holder = some held → held.1 ∈ s.issued ∧ held.2.id = shortID held.1)
    (hdel : ∀ c, p = .deleted c → c ∈ s.deleted) : Inv (s.move i p) := by
  refine { h with held := ?_, pending := ?_ }
  · intro j key session hj
    by_cases hji : j = i
    · subst hji
      rw [State.move_self] at hj
      exact hheld _ hj
    · rw [State.move_ne s p hji] at hj
      exact h.held j key session hj
  · intro j c hj
    by_cases hji : j = i
    · subst hji
      rw [State.move_self] at hj
      exact hdel c hj
    · rw [State.move_ne s p hji] at hj
      exact h.pending j c hj

theorem move_idle {i : Nat} (h : Inv s) : Inv (s.move i .idle) := h.move nofun nofun

theorem drop (h : Inv s) {store : Store} (hsub : ∀ e ∈ store.sessions, e ∈ s.store.sessions) :
    Inv { s with store } :=
  { h with
    live := fun e he => h.live e (hsub e he)
    revoked := fun c hc e he => h.revoked c hc e (hsub e he) }

/-- A new session under an id that is not in use. -/
theorem create (h : Inv s) {raw csrf username : String} {now : Nat} {o : Origin}
    (hfresh : ∀ key ∈ s.issued, shortID key ≠ shortID raw)
    (hcur : ∀ c ∈ s.deleted, c.outdates o = false) :
    Inv { s with
      store := (s.store.create raw csrf username now).1
      origin := Function.update s.origin raw o
      issued := raw :: s.issued } := by
  have hraw : raw ∉ s.issued := fun hmem => hfresh raw hmem rfl
  refine { ids := ?_, live := ?_, held := ?_, revoked := ?_,
           pending := h.pending, answers := h.answers }
  · intro k hk k' hk' hid
    rcases List.mem_cons.mp hk with rfl | hold
    · rcases List.mem_cons.mp hk' with rfl | hold'
      · rfl
      · exact absurd hid.symm (hfresh k' hold')
    · rcases List.mem_cons.mp hk' with rfl | hold'
      · exact absurd hid (hfresh k hold)
      · exact h.ids k hold k' hold' hid
  · intro e he
    rcases Store.mem_create he with rfl | ⟨he, _⟩
    · exact ⟨List.mem_cons_self, rfl⟩
    · exact ⟨List.mem_cons_of_mem _ (h.live e he).1, (h.live e he).2⟩
  · intro i key session hi
    exact ⟨List.mem_cons_of_mem _ (h.held i key session hi).1, (h.held i key session hi).2⟩
  · intro c hc e he
    rcases Store.mem_create he with rfl | ⟨he, hne⟩
    · exact Or.inr (by simpa using hcur c hc)
    · simpa [Function.update_of_ne hne] using h.revoked c hc e he

/-- The entries that a change leaves are those of its own session. -/
theorem mem_deleteOthers (h : Inv s) {i : Nat} {c : Change} (hphase : s.thread i = .saved c)
    {e : String × Session} (he : e ∈ (c.deleteOthers s.store).sessions) :
    e.1 = c.key ∧ ∃ session, (e.1, session) ∈ s.store.sessions ∧ e.2.id = session.id := by
  obtain ⟨hkey, hid⟩ := h.held i c.key c.session (by rw [hphase]; rfl)
  obtain ⟨session, hmem, hs, he⟩ : ∃ session, (e.1, session) ∈ s.store.sessions ∧
      session.id = c.session.id ∧ e.2.id = c.session.id := by
    unfold Change.deleteOthers at he
    split at he
    · obtain ⟨hmem, hid⟩ := Store.mem_deleteAllExcept he
      exact ⟨e.2, hmem, hid, hid⟩
    · exact Store.mem_renameCurrent he
  obtain ⟨hissued, hshort⟩ := h.live _ hmem
  have hsame : shortID e.1 = shortID c.key := by
    calc shortID e.1 = session.id := hshort.symm
      _ = c.session.id := hs
      _ = shortID c.key := hid
  exact ⟨h.ids e.1 hissued c.key hkey hsame, session, hmem, he.trans hs.symm⟩

theorem deleteOthers (h : Inv s) {i : Nat} {c : Change} (hphase : s.thread i = .saved c) :
    Inv { s with store := c.deleteOthers s.store, deleted := c :: s.deleted } := by
  refine { h with live := ?_, revoked := ?_, pending := ?_, answers := ?_ }
  · intro e he
    obtain ⟨_, session, hmem, hid⟩ := h.mem_deleteOthers hphase he
    exact ⟨(h.live _ hmem).1, hid.trans (h.live _ hmem).2⟩
  · intro c' hc' e he
    obtain ⟨hkey, session, hmem, _⟩ := h.mem_deleteOthers hphase he
    rcases List.mem_cons.mp hc' with rfl | hc'
    · exact Or.inl hkey
    · exact h.revoked c' hc' (e.1, session) hmem
  · exact fun j c' hj => List.mem_cons_of_mem _ (h.pending j c' hj)
  · exact fun c' hc' => List.mem_cons_of_mem _ (h.answers c' hc')

theorem answer (h : Inv s) {c : Change} (hc : c ∈ s.deleted) :
    Inv { s with answered := c :: s.answered } := by
  refine { h with answers := ?_ }
  intro c' hc'
  rcases List.mem_cons.mp hc' with rfl | hc'
  · exact hc
  · exact h.answers c' hc'

end Inv

theorem inv_step (hi : Inv s) (hg : Fresh s a) (h : step macs verifyPassword s a = some t) :
    Inv t := by
  cases did_of_step h with
  | worked hheld hdel _ _ =>
    refine Inv.move (s := { s with cfg := _, epoch := _ }) { hi with } ?_ ?_
    · exact fun held hp => hi.held _ held.1 held.2 (hheld held hp)
    · rintro c rfl
      cases hdel
  | established hphase hfresh => exact (hi.create hfresh (hg _ _ hphase)).move_idle
  | requested hget =>
    refine (hi.drop fun e => Store.mem_get).move ?_ nofun
    intro held hp
    cases hp
    exact hi.live _ (Store.get_some hget)
  | dropped hsub => exact hi.drop hsub
  | deleted hphase =>
    refine (hi.deleteOthers hphase).move ?_ ?_
    · intro held hp
      cases hp
      exact hi.held _ _ _ (by rw [hphase]; rfl)
    · intro c hp
      cases hp
      exact List.mem_cons_self
  | answered hphase => exact (hi.answer (hi.pending _ _ hphase)).move_idle

/-- **An answered change has revoked every older session.** In a run in which no session is
created from credentials read before a change whose deletion has already run: once a change of
the password or of the account name is answered, every session in the store is the one that
asked for it or was authenticated against credentials read after it. -/
theorem answered_change_revokes {cfg : Config} {ttl : Nat}
    (h : Reaches (step macs verifyPassword) Fresh (start cfg ttl) s) :
    ∀ c ∈ s.answered, ∀ e ∈ s.store.sessions,
      e.1 = c.key ∨ c.outdates (s.origin e.1) = false := by
  have hi : Inv s := h.invariant (inv_start cfg ttl) fun _ _ _ hi hg hs => inv_step hi hg hs
  exact fun c hc => hi.revoked c (hi.answers c hc)

/-! ## Two orders of the same requests -/

def freshCheck (s : State) : Act → Bool
  | .establish i .. =>
    match s.thread i with
    | .authenticated _ o => s.deleted.all fun c => !c.outdates o
    | _ => true
  | _ => true

theorem fresh_of_check (s : State) (a : Act) (h : freshCheck s a = true) : Fresh s a := by
  cases a with
  | establish i raw csrf now =>
    intro username o hphase c hc
    simp only [freshCheck, hphase, List.all_eq_true, Bool.not_eq_true'] at h
    exact h c hc
  | _ => trivial

def installed : Config := { Config.default with passwordHash := "old" }

def plainHashes (password hash : String) : Option Bool := some (password == hash)

def login (i : Nat) (password : String) : List Act := [.snapshot i ⟨"admin", password, ""⟩, .verify i]

/-- The password is changed from the session `owner-session`. -/
def change (i : Nat) : List Act :=
  [.request i "owner-session" 0 (.password "old" ""), .copy i, .check i (some "new"),
    .save i 0 true, .deleteOthers i, .answer i]

/-- A login verified against the old hash creates its session after the change is answered. -/
def overtaken : List Act :=
  login 0 "old" ++ [.establish 0 "owner-session" "" 0] ++ login 1 "old" ++ change 2 ++
    [.establish 1 "late-session" "" 0]

/-- The same two logins and change, the second session created before the change, and a login
with the new password. -/
def inOrder : List Act :=
  login 0 "old" ++ [.establish 0 "owner-session" "" 0] ++ login 1 "old" ++
    [.establish 1 "late-session" "" 0] ++ change 2 ++ login 3 "new" ++
    [.establish 3 "next-session" "" 0]

theorem old_password_session_survives : ∃ s,
    run (step ⟨fun _ m => m, fun _ m => m, fun _ _ => ""⟩ plainHashes) (start installed 86400)
      overtaken = some s ∧ s.cfg.passwordHash = "new" ∧
    ∃ c ∈ s.answered, ∃ e ∈ s.store.sessions, e.1 ≠ c.key ∧ c.outdates (s.origin e.1) = true := by
  have hrun : (run (step ⟨fun _ m => m, fun _ m => m, fun _ _ => ""⟩ plainHashes)
      (start installed 86400) overtaken).map (fun s => (decide (s.cfg.passwordHash = "new"),
        s.answered.any fun c => s.store.sessions.any fun e =>
          !(e.1 == c.key) && c.outdates (s.origin e.1))) = some (true, true) := by decide +kernel
  obtain ⟨s, hs, hval⟩ := Option.map_eq_some_iff.mp hrun
  obtain ⟨hhash, hany⟩ := Prod.mk.inj hval
  obtain ⟨c, hc, hany⟩ := List.any_eq_true.mp hany
  obtain ⟨e, he, hstale⟩ := List.any_eq_true.mp hany
  simp only [Bool.and_eq_true, Bool.not_eq_true', beq_eq_false_iff_ne] at hstale
  exact ⟨s, hs, of_decide_eq_true hhash, c, hc, e, he, hstale⟩

theorem in_order_revokes : ∃ s,
    run (step ⟨fun _ m => m, fun _ m => m, fun _ _ => ""⟩ plainHashes) (start installed 86400)
      inOrder = some s ∧ s.answered.length = 1 ∧
    s.store.sessions.map Prod.fst = ["next-session", "owner-session"] ∧
    ∀ c ∈ s.answered, ∀ e ∈ s.store.sessions,
      e.1 = c.key ∨ c.outdates (s.origin e.1) = false := by
  have hrun : (runIf (step ⟨fun _ m => m, fun _ m => m, fun _ _ => ""⟩ plainHashes) freshCheck
      (start installed 86400) inOrder).map (fun s => (s.answered.length,
        s.store.sessions.map Prod.fst)) = some (1, ["next-session", "owner-session"]) := by
    decide +kernel
  obtain ⟨s, hs, hval⟩ := Option.map_eq_some_iff.mp hrun
  obtain ⟨hone, hkeys⟩ := Prod.mk.inj hval
  exact ⟨s, run_of_runIf hs, hone, hkeys,
    answered_change_revokes (reaches_of_runIf fresh_of_check hs)⟩

end LukePanel.Server.AccountChanges
