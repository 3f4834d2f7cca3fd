import LukePanel.DockerApi.Containers
import LukePanel.DockerApi.RecreateRequest

/-! # Recreating a container

`RecreateContainer` of `internal/dockerapi/client.go`: the old container is renamed and stopped,
the new one created and started, the old one removed, with a rollback when a call fails. A call
may fail before or after it takes effect on the daemon. -/
namespace LukePanel.DockerApi.Recreate
open LukePanel.DockerApi.Containers LukePanel.DockerApi.RecreateRequest LukePanel.Library.JsonObject

/-! ## What is requested of the daemon -/

/-- The fields of `ContainerEditSpec` that are read here. -/
structure EditSpec where
  name : String
  networkMode : String
  autoRemove : Bool
  composeManaged : Bool

def editSpecFromInspect (inspect : Container) : EditSpec where
  name := inspect.name
  networkMode := (Object.get inspect.hostConfig "NetworkMode").stringValue
  autoRemove := (Object.get inspect.hostConfig "AutoRemove").boolValue
  composeManaged := (Object.get (Object.get inspect.config "Labels").fields
    "com.docker.compose.project").stringValue ≠ ""

/-- `nullableSlice` -/
def nullable (values : List String) : Json := if values = [] then .null else strings values

def portName (port : EditPort) : String := port.containerPort ++ "/" ++ port.protocol

def exposedPorts (ports : List EditPort) : Object :=
  ports.foldl (fun exposed port => Object.set exposed (portName port) (.obj [])) []

def portBindings (ports : List EditPort) : Object :=
  ports.foldl (fun bindings port =>
    let before := match Object.get bindings (portName port) with
      | .arr items => items
      | _ => []
    Object.set bindings (portName port) (.arr (before ++
      [.obj [("HostIp", .str port.hostIP), ("HostPort", .str port.hostPort)]]))) []

def mountObject (mount : EditMount) : Json :=
  .obj [("Type", .str mount.type), ("Source", .str mount.source), ("Target", .str mount.target),
    ("ReadOnly", .bool mount.readOnly)]

/-- `configMap` -/
def requestedConfig (config : Object) (request : Request) : Object :=
  [("Image", Json.str request.image), ("Env", strings request.env), ("Cmd", nullable request.cmd),
    ("Entrypoint", nullable request.entrypoint), ("WorkingDir", .str request.workingDir),
    ("User", .str request.user), ("Hostname", .str request.hostname),
    ("ExposedPorts", .obj (exposedPorts request.ports))].foldl
      (fun m e => Object.set m e.1 e.2) config

/-- `hostConfig` -/
def requestedHostConfig (hostConfig : Object) (request : Request) : Object :=
  Object.erase ([("PortBindings", Json.obj (portBindings request.ports)),
    ("RestartPolicy", .obj [("Name", .str request.restartPolicy),
      ("MaximumRetryCount", .num request.restartMaximum)]),
    ("NetworkMode", .str request.networkMode), ("Privileged", .bool request.privileged),
    ("Mounts", .arr (request.mounts.map mountObject))].foldl
      (fun m e => Object.set m e.1 e.2) hostConfig) "Binds"

/-- The settings of one network that are carried over. -/
def safeEndpoint (inspect : Container) (raw : Object) : Object :=
  let kept := ["IPAMConfig", "Links", "DriverOpts", "GwPriority"].filterMap fun key =>
    match Object.get raw key with
    | .null => none
    | value => some (key, value)
  let filtered := (Object.get raw "Aliases").stringSlice.filter fun a =>
    a ≠ "" ∧ a ≠ inspect.name ∧ a ≠ inspect.id ∧ ¬ a.toList <+: inspect.id.toList
  if filtered = [] then kept else Object.set kept "Aliases" (strings filtered)

def safeNetworkingConfig (inspect : Container) : Option Object :=
  if inspect.networks.isEmpty then none
  else
    some [("EndpointsConfig",
      .obj (inspect.networks.map fun e => (e.1, .obj (safeEndpoint inspect e.2.fields))))]

/-- The body of the create call. -/
def payloadFor (inspect : Container) (request : Request) : Payload where
  config := requestedConfig inspect.config request
  hostConfig := requestedHostConfig inspect.hostConfig request
  networkingConfig :=
    if request.networkMode = (editSpecFromInspect inspect).networkMode then
      safeNetworkingConfig inspect
    else none

/-- `trimName` -/
def trimName (value : String) (max : Nat) : String :=
  if value.utf8ByteSize ≤ max then value else String.ofList (value.toList.take max)

/-- `now` is in seconds. -/
def backupNameFor (originalName : String) (now : Nat) : String :=
  trimName originalName 82 ++ ".lukepanel-backup-" ++ toString now

/-! ## The calls -/

inductive Outcome where
  | ok
  | failedBefore (err : String)
  | failedAfter (err : String)
  deriving DecidableEq, Repr

/-- A call whose effect the daemon may refuse. -/
def call (o : Outcome) (effect : Daemon → Option Daemon) (d : Daemon) :
    Except String Unit × Daemon :=
  match effect d with
  | none => (.error "refused by the daemon", d)
  | some d' =>
    match o with
    | .ok => (.ok (), d')
    | .failedBefore err => (.error err, d)
    | .failedAfter err => (.error err, d')

/-- A call of the rollback: carried out unless it is refused, its result is dropped. -/
def undo (effect : Daemon → Option Daemon) (d : Daemon) : Daemon := (effect d).getD d

/-- How the calls turn out, with the id and the warnings of the create call. -/
structure Answers where
  inspect : Outcome
  rename : Outcome
  stop : Outcome
  create : Outcome
  start : Outcome
  remove : Outcome
  newID : String
  warnings : List String

structure RecreateResult where
  id : String
  name : String
  warning : String
  deriving DecidableEq, Repr

/-- What is decided before the daemon is changed. -/
structure Plan where
  inspect : Container
  request : Request
  backupName : String

section

variable (parseIP : String → Bool) (answers : Answers)

/-- The part of `RecreateContainer` before the first call that changes the daemon. -/
def prepare (now : Nat) (request : Request) (d : Daemon) : Except String Plan :=
  if !validID request.id then .error "invalid container id"
  else
    match answers.inspect with
    | .failedBefore err | .failedAfter err => .error err
    | .ok =>
      match d.resolve request.id with
      | none => .error "No such container"
      | some inspect =>
        let spec := editSpecFromInspect inspect
        if spec.composeManaged then
          .error "这个容器由 Docker Compose 管理，请编辑 Compose YAML 后执行启动/更新"
        else if spec.autoRemove then .error "自动删除容器暂不支持安全重建"
        else
          match validateRecreateRequest parseIP request with
          | .error err => .error err
          | .ok request => .ok ⟨inspect, request, backupNameFor inspect.name now⟩

def rollback (plan : Plan) (newID : Option String) (d : Daemon) : Daemon :=
  let d := match newID with
    | some id => d.remove id
    | none => d
  let d := undo (·.rename plan.inspect.id plan.inspect.name) d
  if plan.inspect.running then d.setRunning plan.inspect.id true else d

def separated (warning : String) : String := if warning ≠ "" then warning ++ "；" else warning

def removeOld (plan : Plan) (d : Daemon) : Except String RecreateResult × Daemon :=
  let warning := "；".intercalate answers.warnings
  match call answers.remove (·.removeStopped plan.inspect.id) d with
  | (.ok _, d) => (.ok ⟨answers.newID, plan.request.name, warning⟩, d)
  | (.error _, d) =>
    (.ok ⟨answers.newID, plan.request.name,
      separated warning ++ "新容器已创建，但旧备份容器未自动删除：" ++ plan.backupName⟩, d)

def startNew (plan : Plan) (d : Daemon) : Except String RecreateResult × Daemon :=
  if plan.request.start then
    match call answers.start (fun d => some (d.setRunning answers.newID true)) d with
    | (.error err, d) =>
      (.error ("新容器启动失败，旧容器已恢复: " ++ err), rollback plan (some answers.newID) d)
    | (.ok _, d) => removeOld answers plan d
  else removeOld answers plan d

def createNew (plan : Plan) (d : Daemon) : Except String RecreateResult × Daemon :=
  match call answers.create (·.create answers.newID plan.request.name
    (payloadFor plan.inspect plan.request)) d with
  | (.error err, d) => (.error ("创建新容器失败，旧容器已恢复: " ++ err), rollback plan none d)
  | (.ok _, d) => startNew answers plan d

def stopOld (plan : Plan) (d : Daemon) : Except String RecreateResult × Daemon :=
  if plan.inspect.running then
    match call answers.stop (fun d => some (d.setRunning plan.inspect.id false)) d with
    | (.error err, d) => (.error ("停止旧容器失败: " ++ err), rollback plan none d)
    | (.ok _, d) => createNew answers plan d
  else createNew answers plan d

def renameOld (plan : Plan) (d : Daemon) : Except String RecreateResult × Daemon :=
  match call answers.rename (·.rename plan.inspect.id plan.backupName) d with
  | (.error err, d) => (.error ("准备旧容器失败: " ++ err), d)
  | (.ok _, d) => stopOld answers plan d

def recreateContainer (now : Nat) (request : Request) (d : Daemon) :
    Except String RecreateResult × Daemon :=
  match prepare parseIP answers now request d with
  | .error err => (.error err, d)
  | .ok plan => renameOld answers plan d

end

/-! ## What a caller may rely on -/

/-- The original container is there under its name, running as before, and no container is
there that was not. -/
def Restored (d d' : Daemon) (request : Request) : Prop :=
  (∀ c, d.resolve request.id = some c →
    ∃ c' ∈ d'.containers, c'.id = c.id ∧ c'.name = c.name ∧ c'.running = c.running) ∧
  ∀ c' ∈ d'.containers, ∃ c ∈ d.containers, c.id = c'.id

/-- A container has the name and the configuration of a request. -/
structure Configured (request : Request) (c : Container) : Prop where
  name : c.name = request.name
  image : Object.get c.config "Image" = .str request.image
  env : Object.get c.config "Env" = strings request.env
  cmd : Object.get c.config "Cmd" = nullable request.cmd
  entrypoint : Object.get c.config "Entrypoint" = nullable request.entrypoint
  workingDir : Object.get c.config "WorkingDir" = .str request.workingDir
  user : Object.get c.config "User" = .str request.user
  hostname : Object.get c.config "Hostname" = .str request.hostname
  exposed : Object.get c.config "ExposedPorts" = .obj (exposedPorts request.ports)
  bindings : Object.get c.hostConfig "PortBindings" = .obj (portBindings request.ports)
  restart : Object.get c.hostConfig "RestartPolicy" =
    .obj [("Name", .str request.restartPolicy), ("MaximumRetryCount", .num request.restartMaximum)]
  networkMode : Object.get c.hostConfig "NetworkMode" = .str request.networkMode
  privileged : Object.get c.hostConfig "Privileged" = .bool request.privileged
  mounts : Object.get c.hostConfig "Mounts" = .arr (request.mounts.map mountObject)

/-- One container has the requested name, and it is configured as requested; if the old one is
still there, the warning ends with its name. -/
def Replaced (d' : Daemon) (request : Request) (old : Container) (r : RecreateResult) : Prop :=
  (∃ c ∈ d'.containers, Configured request c ∧
    ∀ c' ∈ d'.containers, c'.name = request.name → c' = c) ∧
  ∀ c ∈ d'.containers, c.id = old.id →
    ∃ w, r.warning = w ++ "新容器已创建，但旧备份容器未自动删除：" ++ c.name

def Settled (parseIP : String → Bool) (request : Request) (d : Daemon)
    (out : Except String RecreateResult × Daemon) : Prop :=
  match out.1 with
  | .error _ => Restored d out.2 request
  | .ok r => ∃ old valid, d.resolve request.id = some old ∧
      validateRecreateRequest parseIP request = .ok valid ∧ Replaced out.2 valid old r

/-! ## The payload -/

theorem configured_payload (inspect : Container) (request : Request) (id : String) (running : Bool)
    (networks : Object) :
    Configured request ⟨id, request.name, running, (payloadFor inspect request).config,
      (payloadFor inspect request).hostConfig, networks⟩ := by
  constructor <;> simp [payloadFor, requestedConfig, requestedHostConfig]

/-! ## The rollback -/

/-- The old container under its backup name. -/
def parked (plan : Plan) (running : Bool) (c : Container) : Container :=
  if c.id = plan.inspect.id then { c with name := plan.backupName, running } else c

/-- `d'` is `d` with the old container under its backup name. -/
structure Parked (plan : Plan) (running : Bool) (d d' : Daemon) : Prop where
  old : plan.inspect ∈ d.containers
  free : d.hasName plan.backupName = false
  eq : d'.containers = d.containers.map (parked plan running)

variable {plan : Plan} {d d₁ d₂ d₃ : Daemon} {b : Bool} {answers : Answers}

theorem parked_id (c : Container) : (parked plan b c).id = c.id := by
  unfold parked; split <;> rfl

theorem parked_of_rename (hold : plan.inspect ∈ d.containers)
    (h : d.rename plan.inspect.id plan.backupName = some d₁) :
    Parked plan plan.inspect.running d d₁ := by
  obtain ⟨hfree, heq⟩ := Daemon.rename_eq_some h
  refine ⟨hold, hfree, heq.trans (List.map_congr_left fun c hc => ?_)⟩
  unfold Daemon.renamed parked
  split
  · rename_i hid
    rw [Daemon.eq_of_id hc hold hid]
  · rfl

/-- Renamed back and running as before, a container is what it was. -/
theorem renamed_back (hold : plan.inspect ∈ d.containers) (hb : b = plan.inspect.running)
    {c : Container} (hc : c ∈ d.containers) :
    Daemon.renamed plan.inspect.id plan.inspect.name (parked plan b c) = c := by
  by_cases hid : c.id = plan.inspect.id
  · have heq := Daemon.eq_of_id hc hold hid
    subst heq
    simp only [parked, Daemon.renamed, if_true, hb]
  · simp only [parked, Daemon.renamed, if_neg hid]

namespace Parked

theorem stopped (h : Parked plan b d d₁) :
    Parked plan false d (d₁.setRunning plan.inspect.id false) := by
  refine ⟨h.old, h.free, ?_⟩
  calc (d₁.setRunning plan.inspect.id false).containers
      = d₁.containers.map (Daemon.withRunning plan.inspect.id false) := rfl
    _ = d.containers.map (Daemon.withRunning plan.inspect.id false ∘ parked plan b) := by
        rw [h.eq, List.map_map]
    _ = d.containers.map (parked plan false) := List.map_congr_left fun c _ => by
        unfold Function.comp Daemon.withRunning parked
        split <;> simp_all

theorem name_ne (h : Parked plan b d d₁) : plan.backupName ≠ plan.inspect.name :=
  (Daemon.hasName_eq_false h.free _ h.old).symm

/-- The original name is free while the old container is parked. -/
theorem name_free (h : Parked plan b d d₁) : d₁.hasName plan.inspect.name = false := by
  rw [Daemon.hasName, h.eq, List.any_map, List.any_eq_false]
  intro c hc hname
  have hname : (parked plan b c).name = plan.inspect.name := by simpa using hname
  unfold parked at hname
  split at hname
  · exact h.name_ne hname
  · rename_i hid
    exact hid (congrArg Container.id (Daemon.eq_of_name hc h.old hname))

/-- The rollback brings the daemon back to what it was. -/
theorem rollback_eq (h : Parked plan b d d₁) (hb : plan.inspect.running = false → b = false) :
    rollback plan none d₁ = d := by
  obtain ⟨d₂, hrename, heq⟩ := Daemon.rename_of_free plan.inspect.id h.name_free
  rw [h.eq, List.map_map] at heq
  unfold rollback undo
  simp only [hrename, Option.getD_some]
  cases hrun : plan.inspect.running with
  | false =>
    refine Daemon.ext (heq.trans ?_)
    refine (List.map_congr_left fun c hc => ?_).trans (List.map_id _)
    exact renamed_back h.old ((hb hrun).trans hrun.symm) hc
  | true =>
    have hagain : ∀ c, Daemon.withRunning plan.inspect.id true
        (Daemon.renamed plan.inspect.id plan.inspect.name (parked plan b c)) =
          Daemon.renamed plan.inspect.id plan.inspect.name (parked plan true c) := by
      intro c
      unfold Daemon.withRunning Daemon.renamed parked
      split <;> simp_all
    refine Daemon.ext (Eq.trans (congrArg (List.map _) heq) ?_)
    rw [List.map_map]
    refine (List.map_congr_left fun c hc => ?_).trans (List.map_id _)
    exact (hagain c).trans (renamed_back h.old hrun.symm hc)

end Parked

/-! ## The new container -/

/-- The container the create call makes. -/
def created (answers : Answers) (plan : Plan) (running : Bool) : Container :=
  ⟨answers.newID, plan.request.name, running, (payloadFor plan.inspect plan.request).config,
    (payloadFor plan.inspect plan.request).hostConfig,
    (payloadFor plan.inspect plan.request).networkingConfig.getD []⟩

/-- `d'` is `d` with the new container. -/
structure Added (answers : Answers) (plan : Plan) (running : Bool) (d d' : Daemon) : Prop where
  fresh : ∀ c ∈ d.containers, c.id ≠ answers.newID
  eq : d'.containers = created answers plan running :: d.containers

theorem added_of_create (h : d.create answers.newID plan.request.name
    (payloadFor plan.inspect plan.request) = some d₁) : Added answers plan false d d₁ := by
  obtain ⟨hfresh, heq⟩ := Daemon.create_eq_some h
  exact ⟨hfresh, heq⟩

namespace Added

theorem started (h : Added answers plan b d d₁) :
    Added answers plan true d (d₁.setRunning answers.newID true) := by
  refine ⟨h.fresh, ?_⟩
  calc (d₁.setRunning answers.newID true).containers
      = d₁.containers.map (Daemon.withRunning answers.newID true) := rfl
    _ = created answers plan true :: d.containers.map (Daemon.withRunning answers.newID true) := by
        rw [h.eq, List.map_cons]
        simp [Daemon.withRunning, created]
    _ = created answers plan true :: d.containers := by
        congr 1
        refine (List.map_congr_left fun c hc => ?_).trans (List.map_id _)
        rw [Daemon.withRunning, if_neg (h.fresh c hc)]
        rfl

theorem removed (h : Added answers plan b d d₁) : d₁.remove answers.newID = d := by
  refine Daemon.ext ?_
  calc (d₁.remove answers.newID).containers
      = d₁.containers.filter fun c => !(c.id == answers.newID) := rfl
    _ = d.containers.filter fun c => !(c.id == answers.newID) := by
        rw [h.eq, List.filter_cons_of_neg (by simp [created])]
    _ = d.containers := List.filter_eq_self.mpr fun c hc => by simpa using h.fresh c hc

end Added

/-- The new container is the one of its name, and configured as requested. -/
theorem configured_created {d' : Daemon} (hmem : created answers plan b ∈ d'.containers) :
    ∃ c ∈ d'.containers, Configured plan.request c ∧
      ∀ c' ∈ d'.containers, c'.name = plan.request.name → c' = c :=
  ⟨_, hmem, configured_payload .., fun _ hc' hname => Daemon.eq_of_name hc' hmem hname⟩

theorem old_of_mem (hp : Parked plan b d d₁) {c : Container} (hc : c ∈ d₁.containers)
    (hid : c.id = plan.inspect.id) : c.name = plan.backupName ∧ c.running = b := by
  rw [hp.eq] at hc
  obtain ⟨c', _, rfl⟩ := List.mem_map.mp hc
  rw [parked_id] at hid
  simp only [parked, if_pos hid, and_self]

/-- With the new container there and the old one parked, what is left is to remove the old one
or to warn of it. -/
theorem removeOld_replaced (hp : Parked plan false d d₁) (ha : Added answers plan b d₁ d₂) :
    ∃ r, (removeOld answers plan d₂).1 = .ok r ∧
      Replaced (removeOld answers plan d₂).2 plan.request plan.inspect r := by
  have hparked : parked plan false plan.inspect ∈ d₁.containers := by
    rw [hp.eq]
    exact List.mem_map_of_mem hp.old
  have hnew : answers.newID ≠ plan.inspect.id := by
    have := ha.fresh _ hparked
    rw [parked_id] at this
    exact this.symm
  have hold : ∀ c ∈ d₂.containers, c.id = plan.inspect.id →
      c.name = plan.backupName ∧ c.running = false := by
    intro c hc hid
    rw [ha.eq] at hc
    rcases List.mem_cons.mp hc with rfl | hc
    · exact absurd hid hnew
    · exact old_of_mem hp hc hid
  have hmem : created answers plan b ∈ d₂.containers := ha.eq ▸ List.mem_cons_self
  have hmem' : created answers plan b ∈ (d₂.remove plan.inspect.id).containers :=
    List.mem_filter.mpr ⟨hmem, by simpa [created] using hnew⟩
  have hgone : ∀ c ∈ (d₂.remove plan.inspect.id).containers, c.id ≠ plan.inspect.id := by
    intro c hc
    simpa using (List.mem_filter.mp hc).2
  have heffect : d₂.removeStopped plan.inspect.id = some (d₂.remove plan.inspect.id) := by
    refine if_neg ?_
    simp only [List.any_eq_true, Bool.and_eq_true, beq_iff_eq, not_exists, not_and]
    intro c hc hid hrun
    rw [(hold c hc hid).2] at hrun
    cases hrun
  unfold removeOld call
  simp only [heffect]
  cases answers.remove with
  | ok =>
    exact ⟨_, rfl, configured_created hmem', fun c hc hid => absurd hid (hgone c hc)⟩
  | failedBefore err =>
    refine ⟨_, rfl, configured_created hmem, fun c hc hid => ?_⟩
    exact ⟨separated ("；".intercalate answers.warnings), by rw [(hold c hc hid).1]⟩
  | failedAfter err =>
    exact ⟨_, rfl, configured_created hmem', fun c hc hid => absurd hid (hgone c hc)⟩

/-! ## The whole call -/

/-- What has been read and checked when a plan is made. -/
structure Prepared (parseIP : String → Bool) (request : Request) (d : Daemon) (plan : Plan) :
    Prop where
  found : d.resolve request.id = some plan.inspect
  valid : validateRecreateRequest parseIP request = .ok plan.request

variable {parseIP : String → Bool} {request : Request} {now : Nat}

theorem prepared_of_prepare (h : prepare parseIP answers now request d = .ok plan) :
    Prepared parseIP request d plan := by
  unfold prepare at h
  split at h
  · cases h
  · split at h
    · cases h
    · cases h
    · split at h
      · cases h
      · rename_i inspect hfound
        simp only at h
        split at h
        · cases h
        · split at h
          · cases h
          · split at h
            · cases h
            · rename_i valid hvalid
              cases h
              exact ⟨hfound, hvalid⟩

theorem restored_self (d : Daemon) (request : Request) : Restored d d request :=
  ⟨fun c hc => ⟨c, Daemon.mem_of_resolve hc, rfl, rfl, rfl⟩, fun c hc => ⟨c, hc, rfl⟩⟩

/-- A failure that leaves the daemon as it was. -/
theorem settled_error {err : String} (h : d₁ = d) : Settled parseIP request d (.error err, d₁) :=
  h ▸ restored_self d request

theorem settled_removeOld (hprep : Prepared parseIP request d plan) (hp : Parked plan false d d₁)
    (ha : Added answers plan b d₁ d₂) : Settled parseIP request d (removeOld answers plan d₂) := by
  obtain ⟨r, hok, hreplaced⟩ := removeOld_replaced hp ha
  unfold Settled
  rw [hok]
  exact ⟨plan.inspect, plan.request, hprep.found, hprep.valid, hreplaced⟩

theorem settled_startNew (hprep : Prepared parseIP request d plan) (hp : Parked plan false d d₁)
    (ha : Added answers plan false d₁ d₂) :
    Settled parseIP request d (startNew answers plan d₂) := by
  have hback : ∀ {b d₃}, Added answers plan b d₁ d₃ →
      rollback plan (some answers.newID) d₃ = d := by
    intro b d₃ ha
    calc rollback plan (some answers.newID) d₃
        = rollback plan none (d₃.remove answers.newID) := rfl
      _ = rollback plan none d₁ := by rw [ha.removed]
      _ = d := hp.rollback_eq fun _ => rfl
  unfold startNew
  split
  · unfold call
    cases answers.start with
    | ok => exact settled_removeOld hprep hp ha.started
    | failedBefore err => exact settled_error (hback ha)
    | failedAfter err => exact settled_error (hback ha.started)
  · exact settled_removeOld hprep hp ha

/-- A rollback that does not know of the new container leaves it. -/
theorem mem_rollback (plan : Plan) {c : Container} (hc : c ∈ d₁.containers) :
    ∃ c' ∈ (rollback plan none d₁).containers, c'.id = c.id := by
  have hundo : ∃ c' ∈ (undo (·.rename plan.inspect.id plan.inspect.name) d₁).containers,
      c'.id = c.id := by
    unfold undo
    simp only
    cases hrename : d₁.rename plan.inspect.id plan.inspect.name with
    | none => exact ⟨c, hc, rfl⟩
    | some d₂ =>
      obtain ⟨_, heq⟩ := Daemon.rename_eq_some hrename
      refine ⟨_, ?_, Daemon.renamed_id plan.inspect.id plan.inspect.name c⟩
      rw [Option.getD_some, heq]
      exact List.mem_map_of_mem hc
  obtain ⟨c', hc', hid⟩ := hundo
  simp only [rollback]
  split
  · exact ⟨_, List.mem_map_of_mem hc', (Daemon.withRunning_id ..).trans hid⟩
  · exact ⟨c', hc', hid⟩

/-- The create call decides whether the rest of the call settles. -/
theorem settled_createNew_iff (hprep : Prepared parseIP request d plan)
    (hp : Parked plan false d d₁) :
    Settled parseIP request d (createNew answers plan d₁) ↔
      ¬ ∃ err, answers.create = .failedAfter err ∧
        (d₁.create answers.newID plan.request.name
          (payloadFor plan.inspect plan.request)).isSome := by
  have hback : rollback plan none d₁ = d := hp.rollback_eq fun _ => rfl
  simp only [createNew, call]
  cases hcreate : d₁.create answers.newID plan.request.name
      (payloadFor plan.inspect plan.request) with
  | none => simpa using settled_error hback
  | some d₂ =>
    have ha := added_of_create hcreate
    cases hanswer : answers.create with
    | ok => simpa using settled_startNew hprep hp ha
    | failedBefore err => simpa using settled_error hback
    | failedAfter err =>
      refine iff_of_false ?_ (not_not.mpr ⟨err, rfl, rfl⟩)
      rintro ⟨_, hnew⟩
      have hmem : created answers plan false ∈ d₂.containers := ha.eq ▸ List.mem_cons_self
      obtain ⟨c', hc', hid⟩ := mem_rollback plan hmem
      obtain ⟨c, hc, hcid⟩ := hnew c' hc'
      have hparked : parked plan false c ∈ d₁.containers := hp.eq ▸ List.mem_map_of_mem hc
      refine ha.fresh _ hparked ?_
      rw [parked_id, hcid, hid]
      rfl

/-- The daemon when the create call is made, if the calls before it succeed. -/
def atCreate (answers : Answers) (plan : Plan) (d : Daemon) : Option Daemon :=
  match answers.rename, d.rename plan.inspect.id plan.backupName with
  | .ok, some d =>
    if plan.inspect.running then
      if answers.stop = .ok then some (d.setRunning plan.inspect.id false) else none
    else some d
  | _, _ => none

/-- The rename call fails after the daemon has renamed the container. -/
def RenameLost (answers : Answers) (plan : Plan) (d : Daemon) : Prop :=
  ∃ err, answers.rename = .failedAfter err ∧
    (d.rename plan.inspect.id plan.backupName).isSome

/-- The create call is made and fails after the daemon has created the container. -/
def CreateLost (answers : Answers) (plan : Plan) (d : Daemon) : Prop :=
  ∃ d₁ err, atCreate answers plan d = some d₁ ∧ answers.create = .failedAfter err ∧
    (d₁.create answers.newID plan.request.name (payloadFor plan.inspect plan.request)).isSome

theorem settled_stopOld_iff (hprep : Prepared parseIP request d plan)
    (hrename : d.rename plan.inspect.id plan.backupName = some d₁) (hok : answers.rename = .ok) :
    Settled parseIP request d (stopOld answers plan d₁) ↔ ¬ CreateLost answers plan d := by
  have hp := parked_of_rename (Daemon.mem_of_resolve hprep.found) hrename
  have hcreate : ∀ d₂, atCreate answers plan d = some d₂ → Parked plan false d d₂ →
      (Settled parseIP request d (createNew answers plan d₂) ↔ ¬ CreateLost answers plan d) := by
    intro d₂ hat hp₂
    rw [settled_createNew_iff hprep hp₂, CreateLost]
    simp only [hat, Option.some.injEq, exists_and_left, exists_eq_left']
  cases hrun : plan.inspect.running with
  | false =>
    simp only [stopOld, hrun, Bool.false_eq_true, if_false]
    refine hcreate d₁ ?_ (hrun ▸ hp)
    simp only [atCreate, hok, hrename, hrun, Bool.false_eq_true, if_false]
  | true =>
    have hlate : answers.stop ≠ .ok → ¬ CreateLost answers plan d := by
      rintro hstop ⟨_, _, hat, _⟩
      simp only [atCreate, hok, hrename, hrun, if_true, if_neg hstop] at hat
      cases hat
    have hback : plan.inspect.running = false → plan.inspect.running = false := id
    simp only [stopOld, hrun, if_true, call]
    cases hstop : answers.stop with
    | ok =>
      refine hcreate _ ?_ hp.stopped
      simp only [atCreate, hok, hrename, hrun, if_true, hstop]
    | failedBefore err =>
      refine iff_of_true (settled_error (hp.rollback_eq hback)) (hlate ?_)
      rw [hstop]
      nofun
    | failedAfter err =>
      refine iff_of_true (settled_error (hp.stopped.rollback_eq fun _ => rfl)) (hlate ?_)
      rw [hstop]
      nofun

/-- **Recreating a container settles exactly when no effect is lost.** For every daemon, every
request and every outcome of the calls: the call leaves the original container restored and
nothing added if it returns an error, and the requested container in its place, the old one gone
or named in the warning, if it succeeds; if and only if, when it gets that far, neither the
rename call nor the create call fails after its effect on the daemon. -/
theorem recreate_settles_iff (parseIP : String → Bool) (answers : Answers) (now : Nat)
    (request : Request) (d : Daemon) :
    Settled parseIP request d (recreateContainer parseIP answers now request d) ↔
      ∀ plan, prepare parseIP answers now request d = .ok plan →
        ¬ RenameLost answers plan d ∧ ¬ CreateLost answers plan d := by
  unfold recreateContainer
  cases hprepare : prepare parseIP answers now request d with
  | error err => exact iff_of_true (settled_error rfl) nofun
  | ok plan =>
    have hprep := prepared_of_prepare hprepare
    simp only [Except.ok.injEq, forall_eq', renameOld, call]
    cases hrename : d.rename plan.inspect.id plan.backupName with
    | none =>
      refine iff_of_true (settled_error rfl) ⟨?_, ?_⟩
      · rintro ⟨_, _, hsome⟩
        rw [hrename] at hsome
        cases hsome
      · rintro ⟨_, _, hat, _⟩
        simp [atCreate, hrename] at hat
    | some d₁ =>
      cases hanswer : answers.rename with
      | ok =>
        have hnot : ¬ RenameLost answers plan d := by
          rintro ⟨_, hfail, _⟩
          rw [hanswer] at hfail
          cases hfail
        simp only [hnot, not_false_eq_true, true_and]
        exact settled_stopOld_iff hprep hrename hanswer
      | failedBefore err =>
        refine iff_of_true (settled_error rfl) ⟨?_, ?_⟩
        · rintro ⟨_, hfail, _⟩
          rw [hanswer] at hfail
          cases hfail
        · rintro ⟨_, _, hat, _⟩
          simp [atCreate, hanswer] at hat
      | failedAfter err =>
        refine iff_of_false ?_ fun h => h.1 ⟨err, hanswer, by rw [hrename]; rfl⟩
        rintro ⟨hkept, _⟩
        have hp := parked_of_rename (Daemon.mem_of_resolve hprep.found) hrename
        obtain ⟨c', hc', hid, hname, _⟩ := hkept plan.inspect hprep.found
        exact hp.name_ne ((old_of_mem hp hc' hid).1.symm.trans hname)

/-! ## A create call that is cancelled after its effect -/

def web : Container := ⟨"0a1b", "web", true, [("Image", .str "nginx:1")], [], []⟩

def oneContainer : Daemon := ⟨[web], by simp, by simp⟩

def webRequest : Request where
  id := "0a1b"
  name := "web"
  image := "nginx:2"
  env := []
  cmd := []
  entrypoint := []
  workingDir := ""
  user := ""
  hostname := ""
  restartPolicy := "no"
  restartMaximum := 0
  networkMode := "bridge"
  privileged := false
  ports := []
  mounts := []
  start := true

/-- The client goes away while the daemon creates the container. -/
def createCancelled : Answers :=
  ⟨.ok, .ok, .ok, .failedAfter "context canceled", .ok, .ok, "2c3d", []⟩

/-- The new container keeps the name, the old one stays under its backup name, and the error
says that it has been restored. -/
theorem cancelled_create_leaves_both :
    let out := recreateContainer (fun _ => true) createCancelled 100 webRequest oneContainer
    out.1 = .error "创建新容器失败，旧容器已恢复: context canceled" ∧
    out.2.containers.map (fun c => (c.id, c.name, c.running)) =
      [("2c3d", "web", false), ("0a1b", "web.lukepanel-backup-100", true)] ∧
    ¬ Settled (fun _ => true) webRequest oneContainer out := by
  have herr : (recreateContainer (fun _ => true) createCancelled 100 webRequest oneContainer).1 =
      .error "创建新容器失败，旧容器已恢复: context canceled" := by decide +kernel
  have hleft : (recreateContainer (fun _ => true) createCancelled 100 webRequest
      oneContainer).2.containers.map (fun c => (c.id, c.name, c.running)) =
      [("2c3d", "web", false), ("0a1b", "web.lukepanel-backup-100", true)] := by decide +kernel
  refine ⟨herr, hleft, ?_⟩
  unfold Settled
  rw [herr]
  rintro ⟨_, hnew⟩
  have hmem : ("2c3d", "web", false) ∈ (recreateContainer (fun _ => true) createCancelled 100
      webRequest oneContainer).2.containers.map (fun c => (c.id, c.name, c.running)) :=
    hleft ▸ List.mem_cons_self
  obtain ⟨c', hc', heq⟩ := List.mem_map.mp hmem
  obtain ⟨c, hc, hid⟩ := hnew c' hc'
  have hnewid : c'.id = "2c3d" := congrArg Prod.fst heq
  rw [List.mem_singleton.mp hc, hnewid] at hid
  exact absurd hid (by decide)

end LukePanel.DockerApi.Recreate
