import LukePanel.Auth.Password
import LukePanel.Library.SlashPath
import LukePanel.Validate

/-! # Loading the configuration, or creating it

`LoadOrCreateWithOptions` and `Save` of `internal/config/config.go`. A file holds the configuration
that was saved in it, and `decoded` is what is read of it over `Default()`; what the calls of the
system answer is given. -/
namespace LukePanel.LoadOrCreate
open LukePanel.Auth.Password LukePanel.Library LukePanel.Library.GoStrings

structure InitOptions where
  adminUser : String
  password : String
  listen : String
  dataDir : String
  deriving DecidableEq

/-- What is at the path of the configuration. -/
inductive File where
  | missing
  | unreadable (err : String)
  | malformed (err : String)
  /-- A configuration, with a member `trusted_devices` beside it or without. -/
  | holds (saved : Config) (trustedDevices : Bool)
  deriving DecidableEq

/-- What `rand.Read` fills. -/
abbrev RandomBytes (n : Nat) := { bytes : List UInt8 // bytes.length = n }

def randomString {n : Nat} : Option (RandomBytes n) → Except String String
  | none => .error "rand: read failed"
  | some bytes => .ok (Base64.encodeURLString bytes)

/-- A value, or random text where there is none. -/
def orRandom {n : Nat} (value : String) (bytes : Option (RandomBytes n)) : Except String String :=
  if value = "" then randomString bytes else .ok value

structure Answers where
  agentSecret : Option (RandomBytes 48)
  password : Option (RandomBytes 18)
  salt : Option Salt
  sessionSecret : Option (RandomBytes 48)
  /-- The error of `os.MkdirAll` for the data directory. -/
  dataDir : Option String

/-- The file manager serves the whole file system. -/
def servesRoot (roots : List String) : Bool :=
  match roots with
  | [root] => (SlashPath.clean root).text = "/"
  | _ => false

/-- The migration of a configuration that is there, and whether it has changed. -/
def migrate (secret : Option (RandomBytes 48)) (trustedDevices : Bool) (cfg : Config) :
    Except String (Config × Bool) := do
  let agentSocket :=
    if cfg.agentSocket = "" then Config.default.agentSocket else cfg.agentSocket
  let agentSecret ← orRandom cfg.agentSecret secret
  let autoRefreshSeconds :=
    if cfg.autoRefreshSeconds = 0 then Config.default.autoRefreshSeconds else cfg.autoRefreshSeconds
  let allowedRoots := if servesRoot cfg.allowedRoots = true then cfg.allowedRoots else ["/"]
  let changed := trustedDevices || cfg.agentSocket = "" || cfg.agentSecret = "" ||
    cfg.autoRefreshSeconds = 0 || !servesRoot cfg.allowedRoots
  let cfg := { cfg with agentSocket, agentSecret, autoRefreshSeconds, allowedRoots }
  cfg.validate
  return (cfg, changed)

/-- A value of the options, unless it is blank. -/
def given (value otherwise : String) : String :=
  if trimSpace value ≠ "" then trimSpace value else otherwise

variable (classes : CharClasses) (argon2 : Argon2)

/-- The first configuration, and its password. -/
def create (options : InitOptions) (a : Answers) : Except String (Config × String) := do
  let cfg := { Config.default with
    adminUser := given options.adminUser Config.default.adminUser
    listen := given options.listen Config.default.listen
    dataDir := given options.dataDir Config.default.dataDir }
  let password ← orRandom options.password a.password
  validatePasswordStrength classes password cfg.adminUser
  let passwordHash ← hashPassword classes argon2 password a.salt
  let sessionSecret ← randomString a.sessionSecret
  let agentSecret ← randomString a.agentSecret
  if let some err := a.dataDir then throw ("create data dir: " ++ err)
  return ({ cfg with passwordHash, sessionSecret, agentSecret }, password)

/-- What a call has in hand before it saves. -/
inductive Prepared where
  | loaded (cfg : Config) (changed : Bool)
  | created (cfg : Config) (password : String)

namespace Prepared

def cfg : Prepared → Config
  | .loaded cfg _ | .created cfg _ => cfg

/-- Whether it is to be saved. -/
def changed : Prepared → Bool
  | .loaded _ changed => changed
  | .created .. => true

/-- The password that is returned. -/
def password : Prepared → String
  | .loaded .. => ""
  | .created _ password => password

def saveError (err : String) : Prepared → String
  | .loaded .. => "migrate config: " ++ err
  | .created .. => err

end Prepared

/-- A call from the reading of the file up to a save. -/
def prepare (options : InitOptions) (a : Answers) : File → Except String Prepared
  | .holds saved trustedDevices => do
    let (cfg, changed) ← migrate a.agentSecret trustedDevices saved.decoded
    return .loaded cfg changed
  | .missing => do
    let (cfg, password) ← create classes argon2 options a
    return .created cfg password
  | .unreadable err => .error ("read config: " ++ err)
  | .malformed err => .error ("parse config: " ++ err)

/-- `Save`, which writes all of the configuration or nothing: `fails` is the error of its calls. -/
def save (cfg : Config) (fails : Option String) : Except String File := do
  cfg.validate
  match fails with
  | some err => throw err
  | none => return .holds cfg false

/-- A whole call; `opens` is the error of the calls before the file is read. -/
def loadOrCreateWithOptions (options : InitOptions) (opens : Option String) (a : Answers)
    (fails : Option String) (file : File) : Except String (Config × String) × File :=
  match opens with
  | some err => (.error err, file)
  | none =>
    match prepare classes argon2 options a file with
    | .error err => (.error err, file)
    | .ok p =>
      if p.changed = true then
        match save p.cfg fails with
        | .error err => (.error (p.saveError err), file)
        | .ok saved => (.ok (p.cfg, p.password), saved)
      else (.ok (p.cfg, p.password), file)

/-! ## What a call takes as it is -/

/-- A configuration that is valid and needs no migration. -/
structure Current (cfg : Config) : Prop where
  valid : cfg.validate = .ok ()
  agentSocket : cfg.agentSocket ≠ ""
  agentSecret : cfg.agentSecret ≠ ""
  autoRefreshSeconds : cfg.autoRefreshSeconds ≠ 0
  allowedRoots : servesRoot cfg.allowedRoots = true

theorem current_decoded {cfg : Config} : Current cfg.decoded ↔ Current cfg :=
  ⟨fun h => ⟨h.valid, h.agentSocket, h.agentSecret, h.autoRefreshSeconds, h.allowedRoots⟩,
    fun h => ⟨h.valid, h.agentSocket, h.agentSecret, h.autoRefreshSeconds, h.allowedRoots⟩⟩

theorem required_of_valid {cfg : Config} (h : cfg.validate = .ok ()) :
    cfg.agentSocket ≠ "" ∧ cfg.agentSecret ≠ "" ∧ cfg.autoRefreshSeconds ≠ 0 := by
  obtain ⟨⟨⟩, hrequired, _⟩ := Attempt.bind_eq_ok h
  unfold Config.validateRequired at hrequired
  obtain ⟨hfields, hrest⟩ := Attempt.guard_eq_ok hrequired
  refine ⟨fun he => hfields (by simp [he]), fun he => hfields (by simp [he]), fun he => ?_⟩
  have hshort : cfg.autoRefreshSeconds < 2 := by omega
  simp only [hshort, true_or, if_true] at hrest
  repeat' split at hrest
  all_goals cases hrest

theorem current_of_valid {cfg : Config} (h : cfg.validate = .ok ())
    (hroots : servesRoot cfg.allowedRoots = true) : Current cfg :=
  ⟨h, (required_of_valid h).1, (required_of_valid h).2.1, (required_of_valid h).2.2, hroots⟩

variable {classes argon2} {cfg made : Config} {secret : Option (RandomBytes 48)}
  {trustedDevices changed : Bool} {options : InitOptions} {a : Answers} {file : File}

/-- The fields that a migration can change. -/
def migrated : List Config.Field := [.agentSocket, .agentSecret, .autoRefreshSeconds, .allowedRoots]

theorem migrate_ok (h : migrate secret trustedDevices cfg = .ok (made, changed)) :
    Current made ∧ (changed = false → trustedDevices = false ∧ made = cfg) ∧
      (∀ f, f ∉ migrated → made.get f = cfg.get f) ∧
      (cfg.agentSocket ≠ "" → made.agentSocket = cfg.agentSocket) ∧
      (cfg.agentSecret ≠ "" → made.agentSecret = cfg.agentSecret) := by
  unfold migrate at h
  dsimp only at h
  obtain ⟨agentSecret, hsecret, h⟩ := Attempt.bind_eq_ok h
  obtain ⟨⟨⟩, hvalid, h⟩ := Attempt.bind_eq_ok h
  cases h
  refine ⟨current_of_valid hvalid ?_, fun hsame => ?_, fun f hf => ?_, fun hne => if_neg hne, fun hne => ?_⟩
  · dsimp only
    split
    · assumption
    · rfl
  · simp only [Bool.or_eq_false_iff, decide_eq_false_iff_not, Bool.not_eq_false'] at hsame
    obtain ⟨⟨⟨⟨hdevices, hsocket⟩, hsecret'⟩, hseconds⟩, hroots⟩ := hsame
    rw [orRandom, if_neg hsecret'] at hsecret
    cases hsecret
    refine ⟨hdevices, ?_⟩
    simp only [if_neg hsocket, if_neg hseconds, if_pos hroots]
  · cases f <;> first | rfl | exact absurd (by decide) hf
  · rw [orRandom, if_neg hne] at hsecret
    cases hsecret
    rfl

/-- A current configuration stays as it is. -/
theorem migrate_current (h : Current cfg) : migrate secret false cfg = .ok (cfg, false) := by
  have hsecret : orRandom cfg.agentSecret secret = .ok cfg.agentSecret := if_neg h.agentSecret
  unfold migrate
  simp only [hsecret, h.agentSocket, h.agentSecret, h.autoRefreshSeconds, h.allowedRoots, if_true,
    if_false, decide_false, Bool.or_self, Bool.not_true]
  exact congrArg (· >>= fun _ => pure (cfg, false)) h.valid

theorem create_ok {password : String}
    (h : create classes argon2 options a = .ok (made, password)) :
    servesRoot made.allowedRoots = true ∧ made.Legible ∧
      ∀ pbkdf2, verifyPassword argon2 pbkdf2 password made.passwordHash = .ok true := by
  unfold create at h
  dsimp only at h
  obtain ⟨chosen, _, h⟩ := Attempt.bind_eq_ok h
  obtain ⟨⟨⟩, _, h⟩ := Attempt.bind_eq_ok h
  obtain ⟨passwordHash, hhash, h⟩ := Attempt.bind_eq_ok h
  obtain ⟨_, _, h⟩ := Attempt.bind_eq_ok h
  obtain ⟨_, _, h⟩ := Attempt.bind_eq_ok h
  obtain ⟨⟨⟩, _, hhash⟩ := Attempt.bind_eq_ok hhash
  cases hdir : a.dataDir with
  | some err => rw [hdir] at h; cases h
  | none =>
    rw [hdir] at h
    cases h
    exact ⟨rfl, fun _ hp => absurd hp List.not_mem_nil, fun _ => (hashed_verifies hhash).1⟩

theorem save_ok {fails : Option String} (h : save cfg fails = .ok file) :
    cfg.validate = .ok () ∧ file = .holds cfg false := by
  obtain ⟨⟨⟩, hvalid, h⟩ := Attempt.bind_eq_ok h
  cases fails with
  | some err => cases h
  | none => cases h; exact ⟨hvalid, rfl⟩

/-! ## What a call has in hand -/

/-- The endpoints and secrets of an installation, which no request changes. -/
def identity : List Config.Field :=
  [.listen, .dataDir, .sessionSecret, .agentSecret, .agentSocket, .trustedProxy, .secureCookie]

def Same (c c' : Config) : Prop := ∀ f ∈ identity, c.get f = c'.get f

theorem Same.refl (c : Config) : Same c c := fun _ _ => rfl

theorem Same.symm {c c' : Config} (h : Same c c') : Same c' c := fun f hf => (h f hf).symm

theorem Same.trans {c c' c'' : Config} (h : Same c c') (h' : Same c' c'') : Same c c'' :=
  fun f hf => (h f hf).trans (h' f hf)

theorem same_decoded (c : Config) : Same c c.decoded := by
  intro f hf
  cases f <;> first | rfl | exact absurd hf (by decide)

variable {p : Prepared}

theorem prepare_roots (h : prepare classes argon2 options a file = .ok p) :
    servesRoot p.cfg.allowedRoots = true := by
  cases file with
  | missing =>
    obtain ⟨made, hmade, h⟩ := Attempt.bind_eq_ok h
    cases h
    exact (create_ok hmade).1
  | holds cfg trustedDevices =>
    obtain ⟨made, hmade, h⟩ := Attempt.bind_eq_ok h
    cases h
    exact (migrate_ok hmade).1.allowedRoots
  | unreadable err | malformed err => cases h

/-- What a call has in hand is text. -/
theorem prepare_decoded (h : prepare classes argon2 options a file = .ok p) : p.cfg.decoded = p.cfg := by
  rw [Config.decoded_eq_iff]
  cases file with
  | missing =>
    obtain ⟨made, hmade, h⟩ := Attempt.bind_eq_ok h
    cases h
    exact (create_ok hmade).2.1
  | holds saved trustedDevices =>
    obtain ⟨⟨cfg, changed⟩, hmade, h⟩ := Attempt.bind_eq_ok h
    cases h
    have hpasskeys : cfg.passkeys = saved.decoded.passkeys :=
      (migrate_ok hmade).2.2.1 .passkeys (by decide)
    rw [Prepared.cfg, Config.Legible, hpasskeys]
    exact Config.legible_decoded saved
  | unreadable err | malformed err => cases h

theorem prepare_unchanged (h : prepare classes argon2 options a file = .ok p) (hsame : p.changed = false) :
    ∃ saved, file = .holds saved false ∧ saved.decoded = p.cfg ∧ Current saved := by
  cases file with
  | missing =>
    obtain ⟨made, hmade, h⟩ := Attempt.bind_eq_ok h
    cases h
    cases hsame
  | holds cfg trustedDevices =>
    obtain ⟨made, hmade, h⟩ := Attempt.bind_eq_ok h
    cases h
    obtain ⟨hcurrent, hkept, _⟩ := migrate_ok hmade
    obtain ⟨hdevices, hcfg⟩ := hkept hsame
    rw [hcfg, current_decoded] at hcurrent
    exact ⟨cfg, congrArg (File.holds cfg) hdevices, hcfg.symm, hcurrent⟩
  | unreadable err | malformed err => cases h

theorem prepare_password (h : prepare classes argon2 options a file = .ok p) (hne : p.password ≠ "") :
    file = .missing ∧
      ∀ pbkdf2, verifyPassword argon2 pbkdf2 p.password p.cfg.passwordHash = .ok true := by
  cases file with
  | missing =>
    obtain ⟨made, hmade, h⟩ := Attempt.bind_eq_ok h
    cases h
    exact ⟨rfl, (create_ok hmade).2.2⟩
  | holds cfg trustedDevices =>
    obtain ⟨made, hmade, h⟩ := Attempt.bind_eq_ok h
    cases h
    exact absurd rfl hne
  | unreadable err | malformed err => cases h

/-- An installation with its secrets keeps them. -/
theorem prepare_same (h : prepare classes argon2 options a (.holds cfg trustedDevices) = .ok p)
    (hsocket : cfg.agentSocket ≠ "") (hsecret : cfg.agentSecret ≠ "") : Same cfg p.cfg := by
  obtain ⟨made, hmade, h⟩ := Attempt.bind_eq_ok h
  cases h
  obtain ⟨_, _, hothers, hsocket', hsecret'⟩ := migrate_ok hmade
  refine (same_decoded cfg).trans fun f hf => ?_
  simp only [identity, List.mem_cons, List.not_mem_nil, or_false] at hf
  rcases hf with rfl | rfl | rfl | rfl | rfl | rfl | rfl
  case inr.inr.inr.inl => exact (hsecret' hsecret).symm
  case inr.inr.inr.inr.inl => exact (hsocket' hsocket).symm
  all_goals exact (hothers _ (by decide)).symm

theorem prepare_current (h : Current cfg) :
    prepare classes argon2 options a (.holds cfg false) = .ok (.loaded cfg.decoded false) := by
  rw [prepare, migrate_current (current_decoded.mpr h)]
  rfl

/-- A call that succeeds leaves what the next one takes as it is. -/
theorem load_again {opens fails fails' : Option String} {password : String} {file' : File}
    {options' : InitOptions} {a' : Answers}
    (h : loadOrCreateWithOptions classes argon2 options opens a fails file = (.ok (cfg, password), file')) :
    loadOrCreateWithOptions classes argon2 options' none a' fails' file' = (.ok (cfg, ""), file') := by
  have hagain {saved : Config} (hcurrent : Current saved) : loadOrCreateWithOptions classes argon2 options'
      none a' fails' (.holds saved false) = (.ok (saved.decoded, ""), .holds saved false) := by
    rw [loadOrCreateWithOptions, prepare_current hcurrent]
    rfl
  unfold loadOrCreateWithOptions at h
  cases opens with
  | some err => cases h
  | none =>
    cases hp : prepare classes argon2 options a file with
    | error err => rw [hp] at h; cases h
    | ok p =>
      simp only [hp] at h
      split at h
      · cases hsave : save p.cfg fails with
        | error err => rw [hsave] at h; cases h
        | ok saved =>
          rw [hsave] at h
          cases h
          obtain ⟨hvalid, rfl⟩ := save_ok hsave
          rw [hagain (current_of_valid hvalid (prepare_roots hp)), prepare_decoded hp]
      · rename_i hchanged
        cases h
        obtain ⟨saved, rfl, hread, hcurrent⟩ := prepare_unchanged hp (Bool.eq_false_iff.mpr hchanged)
        rw [← hread]
        exact hagain hcurrent

end LukePanel.LoadOrCreate
