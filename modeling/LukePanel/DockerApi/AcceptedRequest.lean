import LukePanel.DockerApi.RecreateRequest
import LukePanel.Library.Attempt

/-! # What the validator makes of a request it accepts -/
namespace LukePanel.DockerApi.AcceptedRequest
open LukePanel.DockerApi.RecreateRequest LukePanel.Library.Attempt
open LukePanel.Library.GoStrings (trimSpace toLower)
open LukePanel.Library.SlashPath (clean)

def normPort (port : EditPort) : EditPort :=
  ⟨trimSpace port.hostIP, trimSpace port.hostPort, trimSpace port.containerPort,
    if toLower (trimSpace port.protocol) = "" then "tcp" else toLower (trimSpace port.protocol)⟩

def normMount (mount : EditMount) : EditMount :=
  ⟨toLower (trimSpace mount.type), (clean (trimSpace mount.source)).text,
    (clean (trimSpace mount.target)).text, mount.readOnly⟩

variable {parseIP : String → Bool}

theorem validateEnv_eq_ok {value value' : String} (h : validateEnv value = .ok value') :
    value' = trimSpace value := by
  simp only [validateEnv] at h
  split at h
  · rename_i hblank
    rw [hblank]
    exact (Except.ok.inj h).symm
  · split at h
    · cases h
    · exact (Except.ok.inj h).symm

theorem mapM_validateEnv_eq_ok {env env' : List String} (h : env.mapM validateEnv = .ok env') :
    env' = env.map trimSpace := by
  induction env generalizing env' with
  | nil =>
    cases h
    rfl
  | cons value rest ih =>
    rw [List.mapM_cons] at h
    obtain ⟨value', hvalue, h⟩ := bind_eq_ok h
    obtain ⟨rest', hrest, h⟩ := bind_eq_ok h
    cases h
    rw [List.map_cons, validateEnv_eq_ok hvalue, ih hrest]

theorem validatePort_eq_ok {port port' : EditPort} (h : validatePort parseIP port = .ok port') :
    port' = normPort port ∧ port'.protocol ∈ ["tcp", "udp", "sctp"] := by
  unfold validatePort at h
  extract_lets protocol port₁ at h
  obtain ⟨hprotocol, h⟩ := guard_eq_ok h
  obtain ⟨_, h⟩ := guard_eq_ok h
  obtain ⟨_, h⟩ := guard_eq_ok h
  obtain ⟨_, h⟩ := guard_eq_ok h
  have heq : port₁ = port' := Except.ok.inj h
  exact heq ▸ ⟨rfl, not_not.mp hprotocol⟩

theorem validatePorts_eq_ok {ports ports' : List EditPort} {seen : List String}
    (h : validatePorts parseIP seen ports = .ok ports') :
    ports' = ports.map normPort ∧
      ∀ port ∈ ports, (normPort port).protocol ∈ ["tcp", "udp", "sctp"] := by
  induction ports generalizing seen ports' with
  | nil =>
    cases h
    exact ⟨rfl, nofun⟩
  | cons port rest ih =>
    obtain ⟨port', hport, h⟩ := bind_eq_ok h
    obtain ⟨_, h⟩ := guard_eq_ok h
    obtain ⟨rest', hrest, h⟩ := bind_eq_ok h
    cases h
    obtain ⟨rfl, hprotocol⟩ := validatePort_eq_ok hport
    obtain ⟨rfl, hprotocols⟩ := ih hrest
    exact ⟨rfl, List.forall_mem_cons.mpr ⟨hprotocol, hprotocols⟩⟩

theorem validateMount_eq_ok {mount mount' : EditMount} (h : validateMount mount = .ok mount') :
    mount' = normMount mount := by
  unfold validateMount at h
  extract_lets source target mount₁ at h
  obtain ⟨_, h⟩ := guard_eq_ok h
  obtain ⟨_, h⟩ := guard_eq_ok h
  rcases ite_eq_ok h with ⟨_, h⟩ | ⟨_, h⟩
  · obtain ⟨_, h⟩ := guard_eq_ok h
    exact (Except.ok.inj h).symm
  · obtain ⟨_, h⟩ := guard_eq_ok h
    exact (Except.ok.inj h).symm

theorem validateMounts_eq_ok {mounts mounts' : List EditMount} {seen : List String}
    (h : validateMounts seen mounts = .ok mounts') : mounts' = mounts.map normMount := by
  induction mounts generalizing seen mounts' with
  | nil =>
    cases h
    rfl
  | cons mount rest ih =>
    obtain ⟨mount', hmount, h⟩ := bind_eq_ok h
    obtain ⟨_, h⟩ := guard_eq_ok h
    obtain ⟨rest', hrest, h⟩ := bind_eq_ok h
    cases h
    rw [List.map_cons, validateMount_eq_ok hmount, ih hrest]

/-- What the validator makes of a request it accepts. -/
structure Normalized (request valid : Request) : Prop where
  image : valid.image = trimSpace request.image
  workingDir : valid.workingDir = trimSpace request.workingDir
  user : valid.user = trimSpace request.user
  hostname : valid.hostname = trimSpace request.hostname
  env : valid.env = (request.env.map trimSpace).filter (· ≠ "")
  cmd : valid.cmd = request.cmd
  entrypoint : valid.entrypoint = request.entrypoint
  restartPolicy : valid.restartPolicy = request.restartPolicy
  restartMaximum : valid.restartMaximum =
    if request.restartPolicy ≠ "on-failure" then 0 else request.restartMaximum
  networkMode : valid.networkMode =
    if trimSpace request.networkMode = "" then "default" else trimSpace request.networkMode
  privileged : valid.privileged = request.privileged
  ports : valid.ports = request.ports.map normPort
  protocols : ∀ port ∈ request.ports, (normPort port).protocol ∈ ["tcp", "udp", "sctp"]
  mounts : valid.mounts = request.mounts.map normMount
  id : validID request.id = true

theorem normalized_of_valid {request valid : Request}
    (h : validateRecreateRequest parseIP request = .ok valid) : Normalized request valid := by
  unfold validateRecreateRequest at h
  extract_lets networkMode plain capped at h
  obtain ⟨hid, h⟩ := guard_eq_ok h
  obtain ⟨_, h⟩ := guard_eq_ok h
  obtain ⟨_, h⟩ := guard_eq_ok h
  obtain ⟨_, h⟩ := guard_eq_ok h
  obtain ⟨_, h⟩ := guard_eq_ok h
  obtain ⟨_, h⟩ := guard_eq_ok h
  obtain ⟨_, h⟩ := guard_eq_ok h
  obtain ⟨env, henv, h⟩ := bind_eq_ok h
  obtain ⟨ports, hports, h⟩ := bind_eq_ok h
  obtain ⟨mounts, hmounts, h⟩ := bind_eq_ok h
  cases h
  have hcapped : capped = { plain with
    restartMaximum := if plain.restartPolicy ≠ "on-failure" then 0 else plain.restartMaximum } := by
    unfold capped
    split <;> rfl
  rw [hcapped] at hports hmounts henv ⊢
  obtain ⟨hports, hprotocols⟩ := validatePorts_eq_ok hports
  exact {
    image := rfl
    workingDir := rfl
    user := rfl
    hostname := rfl
    env := by
      rw [mapM_validateEnv_eq_ok henv]
      rfl
    cmd := rfl
    entrypoint := rfl
    restartPolicy := rfl
    restartMaximum := rfl
    networkMode := rfl
    privileged := rfl
    ports := hports
    protocols := hprotocols
    mounts := validateMounts_eq_ok hmounts
    id := by simpa using fun hfalse => hid (.inl hfalse) }

end LukePanel.DockerApi.AcceptedRequest
