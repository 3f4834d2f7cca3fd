import LukePanel.DockerApi.AcceptedRequest
import LukePanel.DockerApi.EditSpec
import LukePanel.Library.Gathering

/-! # Saving the edit form without changes

What a report and a create payload say of a container, and when `RecreateContainer`, called with
the specification of the form as it is, describes the container that was reported. -/
namespace LukePanel.DockerApi.SaveUnchanged
open LukePanel.DockerApi.Containers LukePanel.DockerApi.RecreateRequest LukePanel.DockerApi.EditSpec
open LukePanel.DockerApi.Recreate (portName exposedPorts portBindings mountObject safeEndpoint
  payloadFor prepare Answers nullable)
open LukePanel.Library.GoStrings (trimSpace toLower)
open LukePanel.Library.SlashPath (clean)
open LukePanel.DockerApi.AcceptedRequest LukePanel.Library.Gathering
open LukePanel.Library.JsonObject

/-! ## What a report and a payload say -/

def exposedKeys (config : Object) : List String :=
  Object.keys (Object.get config "ExposedPorts").fields

/-- Where a port is published: the addresses and ports of the host. -/
def bindingsAt (hostConfig : Object) (key : String) : List (String × String) :=
  (Object.get (Object.get hostConfig "PortBindings").fields key).items.map fun binding =>
    ((Object.get binding.fields "HostIp").stringValue,
      (Object.get binding.fields "HostPort").stringValue)

/-- A blank network mode is the default one. -/
def networkModeOf (hostConfig : Object) : String :=
  match (Object.get hostConfig "NetworkMode").stringValue with
  | "" => "default"
  | mode => mode

/-- `modes` are the options in the mode text, `options` those in the `Mounts` of the host
configuration. -/
structure MountView where
  type : String
  source : String
  target : String
  readOnly : Bool
  modes : List String
  options : Object

/-- The options of a mode text. `RW` says what `rw` and `ro` say, and the daemon itself gives a
volume the mode `z`. -/
def modesOf (mount : RawMount) : List String :=
  (Library.GoStrings.split ',' mount.mode).filter fun mode =>
    mode ∉ ["", "rw", "ro"] ∧ ¬ (mount.type = "volume" ∧ mode = "z")

def isBlank : Json → Bool
  | .null | .obj [] => true
  | _ => false

/-- What an element of `Mounts` says beside type, source, target and access. -/
def extras (spec : Object) : Object :=
  spec.filter fun e => e.1 ∉ ["Type", "Source", "Target", "ReadOnly"] ∧ isBlank e.2 = false

/-- The element of `Mounts` for a target. -/
def specAt (hostConfig : Object) (target : String) : Object :=
  (((Object.get hostConfig "Mounts").items.map Json.fields).find? fun spec =>
    (Object.get spec "Target").stringValue == target).getD []

def reportedMount (hostConfig : Object) (mount : RawMount) : MountView :=
  ⟨mount.type, mountSource mount, mount.destination, !mount.rw, modesOf mount,
    extras (specAt hostConfig mount.destination)⟩

def requestedMount (spec : Json) : MountView :=
  ⟨(Object.get spec.fields "Type").stringValue, (Object.get spec.fields "Source").stringValue,
    (Object.get spec.fields "Target").stringValue, (Object.get spec.fields "ReadOnly").boolValue,
    [], extras spec.fields⟩

/-- The endpoints of a payload. -/
def endpointsOf (payload : Payload) : Object :=
  match payload.networkingConfig with
  | some config => (Object.get config "EndpointsConfig").fields
  | none => []

def shortID (id : String) : String := String.ofList (id.toList.take 12)

/-- The aliases of an endpoint that the daemon does not add itself: it adds the name, the id and
the short id. -/
def userAliases (inspect : RawContainerInspect) (endpoint : Object) : List String :=
  (Object.get endpoint "Aliases").stringSlice.filter fun a =>
    a ≠ "" ∧ a ≠ trimSlash inspect.name ∧ a ≠ inspect.id ∧ a ≠ shortID inspect.id

/-- The settings of an endpoint; what else is reported of it is the state of the network. -/
def endpointSettings : List String := ["IPAMConfig", "Links", "DriverOpts", "GwPriority"]

/-- The keys the form writes. -/
def editedConfig : List String :=
  ["Image", "Env", "Cmd", "Entrypoint", "WorkingDir", "User", "Hostname", "ExposedPorts"]

def editedHostConfig : List String :=
  ["PortBindings", "RestartPolicy", "NetworkMode", "Privileged", "Mounts", "Binds"]

/-- A payload describes the container of a report. -/
structure SameContainer (inspect : RawContainerInspect) (payload : Payload) : Prop where
  texts : ∀ key ∈ ["Image", "WorkingDir", "User", "Hostname"],
    (Object.get payload.config key).stringValue = (Object.get inspect.config key).stringValue
  env : (Object.get payload.config "Env").stringSlice =
    (Object.get inspect.config "Env").stringSlice
  commands : ∀ key ∈ ["Cmd", "Entrypoint"],
    (Object.get payload.config key).stringSlice = (Object.get inspect.config key).stringSlice
  exposed : ∀ key, key ∈ exposedKeys payload.config ↔ key ∈ exposedKeys inspect.config
  published : ∀ key, bindingsAt payload.hostConfig key = bindingsAt inspect.hostConfig key
  mounts : (Object.get payload.hostConfig "Mounts").items.map requestedMount =
    inspect.mounts.map (reportedMount inspect.hostConfig)
  binds : Object.get payload.hostConfig "Binds" = .null
  networkMode : networkModeOf payload.hostConfig = networkModeOf inspect.hostConfig
  endpoints : ∀ network, network ∈ Object.keys (endpointsOf payload) ↔
    network ∈ Object.keys inspect.networks
  settings : ∀ network, ∀ key ∈ endpointSettings,
    Object.get (Object.get (endpointsOf payload) network).fields key =
      Object.get (Object.get inspect.networks network).fields key
  aliases : ∀ network,
    (Object.get (Object.get (endpointsOf payload) network).fields "Aliases").stringSlice =
      userAliases inspect (Object.get inspect.networks network).fields
  restart : restartOf payload.hostConfig = restartOf inspect.hostConfig
  privileged : (Object.get payload.hostConfig "Privileged").boolValue =
    (Object.get inspect.hostConfig "Privileged").boolValue
  config : ∀ key ∉ editedConfig, Object.get payload.config key = Object.get inspect.config key
  hostConfig : ∀ key ∉ editedHostConfig,
    Object.get payload.hostConfig key = Object.get inspect.hostConfig key

/-! ## What the form keeps -/

/-- A key of `PortBindings` in the form `port/protocol`. -/
structure PlainKey (key : String) : Prop where
  slash : '/' ∈ key.toList
  port : trimSpace (splitPortKey key).1 = (splitPortKey key).1
  protocol : (splitPortKey key).2 ∈ ["tcp", "udp", "sctp"]

structure PlainBindings (bindings : List (String × String)) : Prop where
  some : bindings ≠ []
  trimmed : ∀ b ∈ bindings, trimSpace b.1 = b.1 ∧ trimSpace b.2 = b.2

/-- A mount the form shows whole. -/
structure PlainMount (hostConfig : Object) (mount : RawMount) : Prop where
  editable : editable mount
  source : (clean (trimSpace (mountSource mount))).text = mountSource mount
  target : (clean (trimSpace mount.destination)).text = mount.destination
  modes : modesOf mount = []
  options : extras (specAt hostConfig mount.destination) = []

/-- The reports that come through the form unchanged. -/
structure Plain (inspect : RawContainerInspect) : Prop where
  texts : ∀ key ∈ ["Image", "WorkingDir", "User", "Hostname"],
    trimSpace (Object.get inspect.config key).stringValue =
      (Object.get inspect.config key).stringValue
  env : ∀ value ∈ (Object.get inspect.config "Env").stringSlice,
    trimSpace value = value ∧ value ≠ ""
  restart : (restartOf inspect.hostConfig).1 = "on-failure" ∨ (restartOf inspect.hostConfig).2 = 0
  networkMode : trimSpace (Object.get inspect.hostConfig "NetworkMode").stringValue =
    (Object.get inspect.hostConfig "NetworkMode").stringValue
  network : (Object.get inspect.hostConfig "NetworkMode").stringValue = "" → inspect.networks = []
  ports : ∀ key ∈ Object.keys (Object.get inspect.hostConfig "PortBindings").fields,
    PlainKey key ∧ PlainBindings (bindingsAt inspect.hostConfig key)
  exposed : ∀ key, key ∈ exposedKeys inspect.config ↔
    key ∈ Object.keys (Object.get inspect.hostConfig "PortBindings").fields
  mounts : ∀ mount ∈ inspect.mounts, PlainMount inspect.hostConfig mount
  aliases : ∀ network, ∀ a ∈ userAliases inspect (Object.get inspect.networks network).fields,
    ¬ a.toList <+: inspect.id.toList

/-! ## Keys of ports -/

def normProtocol (protocol : String) : String :=
  if toLower (trimSpace protocol) = "" then "tcp" else toLower (trimSpace protocol)

/-- The key of the payload for a key of the report. -/
def normKey (key : String) : String :=
  trimSpace (splitPortKey key).1 ++ "/" ++ normProtocol (splitPortKey key).2

theorem normProtocol_of_mem {protocol : String} (h : protocol ∈ ["tcp", "udp", "sctp"]) :
    normProtocol protocol = protocol := by
  simp only [List.mem_cons, List.not_mem_nil, or_false] at h
  rcases h with rfl | rfl | rfl <;> decide

theorem slash_not_mem (key : String) : '/' ∉ (splitPortKey key).1.toList := by
  have hport : (splitPortKey key).1.toList = key.toList.takeWhile (· ≠ '/') := by
    unfold splitPortKey
    split <;> simp
  rw [hport]
  intro hmem
  simpa using List.mem_takeWhile_imp hmem

theorem splitPortKey_join {port protocol : String} (h : '/' ∉ port.toList) :
    splitPortKey (port ++ "/" ++ protocol) = (port, protocol) := by
  have hall : ∀ c ∈ port.toList, (c ≠ '/' : Bool) = true := fun c hc =>
    decide_eq_true fun heq => h (heq ▸ hc)
  have hchars : (port ++ "/" ++ protocol).toList = port.toList ++ '/' :: protocol.toList := by simp
  unfold splitPortKey
  rw [hchars, List.takeWhile_append_of_pos hall, List.dropWhile_append_of_pos hall]
  simp

theorem join_splitPortKey {key : String} (h : '/' ∈ key.toList) :
    (splitPortKey key).1 ++ "/" ++ (splitPortKey key).2 = key := by
  have hsplit := List.takeWhile_append_dropWhile (p := (· ≠ '/')) (l := key.toList)
  unfold splitPortKey
  split
  · rename_i c rest hdrop
    have hc := List.head?_dropWhile_not (· ≠ '/') key.toList
    rw [hdrop] at hc hsplit
    have hslash : c = '/' := by simpa using hc
    apply String.toList_inj.mp
    rw [hslash] at hsplit
    simpa using hsplit
  · rename_i hdrop
    rw [List.dropWhile_eq_nil_iff] at hdrop
    simpa using hdrop _ h

theorem splitPortKey_normKey (key : String) :
    splitPortKey (normKey key) =
      (trimSpace (splitPortKey key).1, normProtocol (splitPortKey key).2) :=
  splitPortKey_join fun hmem => slash_not_mem key (Library.GoStrings.mem_of_mem_trimSpace hmem)

theorem normKey_eq_iff {key : String}
    (h : normProtocol (splitPortKey key).2 ∈ ["tcp", "udp", "sctp"]) :
    normKey key = key ↔ PlainKey key := by
  refine ⟨fun heq => ?_, fun hp => ?_⟩
  · have hslash : '/' ∈ (normKey key).toList := by
      unfold normKey
      simp
    have hsplit := splitPortKey_normKey key
    rw [heq] at hsplit hslash
    have hport := congrArg Prod.fst hsplit
    have hprotocol := congrArg Prod.snd hsplit
    simp only at hprotocol
    rw [← hprotocol] at h
    exact ⟨hslash, hport.symm, h⟩
  · rw [normKey, hp.port, normProtocol_of_mem hp.protocol, join_splitPortKey hp.slash]

theorem normKey_of_split {key port protocol : String} (h : splitPortKey key = (port, protocol)) :
    normKey key = trimSpace port ++ "/" ++ normProtocol protocol := by
  rw [normKey, h]

theorem normKey_normKey {key : String}
    (h : normProtocol (splitPortKey key).2 ∈ ["tcp", "udp", "sctp"]) :
    normKey (normKey key) = normKey key := by
  refine (normKey_of_split (splitPortKey_normKey key)).trans ?_
  rw [Library.GoStrings.trimSpace_trimSpace, normProtocol_of_mem h, normKey]

/-! ## Ports -/

def bindingObject (port : EditPort) : Json :=
  .obj [("HostIp", .str port.hostIP), ("HostPort", .str port.hostPort)]

/-- One turn of the loop of `portBindings`. -/
def addBinding (bindings : Object) (port : EditPort) : Object :=
  let before := match Object.get bindings (portName port) with
    | .arr items => items
    | _ => []
  Object.set bindings (portName port) (.arr (before ++ [bindingObject port]))

theorem portBindings_eq (ports : List EditPort) : portBindings ports = ports.foldl addBinding [] :=
  rfl

theorem items_addBinding (m : Object) (port : EditPort) (key : String) :
    (Object.get (addBinding m port) key).items =
      (Object.get m key).items ++ if portName port = key then [bindingObject port] else [] := by
  unfold addBinding
  by_cases hkey : portName port = key
  · simp only [hkey, if_true, Object.get_set_self]
    cases Object.get m key <;> simp [Json.items]
  · simp only [hkey, if_false, List.append_nil, Object.get_set_ne (Ne.symm hkey)]

theorem items_portBindings (ports : List EditPort) (key : String) :
    (Object.get (portBindings ports) key).items =
      (ports.filter (portName · = key)).map bindingObject := by
  have hfold : ∀ (m : Object), (Object.get (ports.foldl addBinding m) key).items =
        (Object.get m key).items ++ (ports.filter (portName · = key)).map bindingObject := by
    induction ports with
    | nil => simp
    | cons port rest ih =>
      intro m
      rw [List.foldl_cons, ih, items_addBinding]
      by_cases hkey : portName port = key
      · simp [hkey]
      · simp [hkey]
  rw [portBindings_eq]
  exact hfold []

theorem mem_keys_exposedPorts (ports : List EditPort) (key : String) :
    key ∈ Object.keys (exposedPorts ports) ↔ ∃ port ∈ ports, portName port = key := by
  have hfold : ∀ m : Object, key ∈ Object.keys (ports.foldl (fun exposed port =>
      Object.set exposed (portName port) (.obj [])) m) ↔
        key ∈ Object.keys m ∨ ∃ port ∈ ports, portName port = key := by
    induction ports with
    | nil => simp
    | cons port rest ih =>
      intro m
      rw [List.foldl_cons, ih, Object.mem_keys_set, List.exists_mem_cons_iff]
      constructor
      · rintro ((rfl | hm) | hrest)
        · exact .inr (.inl rfl)
        · exact .inl hm
        · exact .inr (.inr hrest)
      · rintro (hm | rfl | hrest)
        · exact .inl (.inr hm)
        · exact .inl (.inl rfl)
        · exact .inr hrest
  refine (hfold []).trans (or_iff_right ?_)
  simp [Object.keys]

/-- What a row says of the host. -/
def hostOf (port : EditPort) : String × String := (port.hostIP, port.hostPort)

theorem portRows_eq (hostConfig : Object) (key : String) :
    portRows (Object.get hostConfig "PortBindings").fields key =
      (if bindingsAt hostConfig key = [] then [("", "")] else bindingsAt hostConfig key).map
        fun b => ⟨b.1, b.2, (splitPortKey key).1, (splitPortKey key).2⟩ := by
  unfold portRows bindingsAt
  cases hitems : (Object.get (Object.get hostConfig "PortBindings").fields key).items with
  | nil => simp
  | cons first rest => simp

/-- The rows of one key in the payload. -/
def publishedRows (hostConfig : Object) (key : String) : List (String × String) :=
  (if bindingsAt hostConfig key = [] then [("", "")] else bindingsAt hostConfig key).map
    fun b => (trimSpace b.1, trimSpace b.2)

theorem publishedRows_eq_iff {hostConfig : Object} {key : String} :
    publishedRows hostConfig key = bindingsAt hostConfig key ↔
      PlainBindings (bindingsAt hostConfig key) := by
  unfold publishedRows
  generalize bindingsAt hostConfig key = bindings
  by_cases hnil : bindings = []
  · subst hnil
    exact iff_of_false (by simp) fun h => h.some rfl
  · rw [if_neg hnil]
    refine ⟨fun h => ⟨hnil, fun b hb => ?_⟩, fun h => ?_⟩
    · have hfix : (trimSpace b.1, trimSpace b.2) = b :=
        List.map_inj_left.mp (h.trans (List.map_id _).symm) b hb
      exact ⟨congrArg Prod.fst hfix, congrArg Prod.snd hfix⟩
    · refine (List.map_congr_left fun b hb => ?_).trans (List.map_id _)
      exact Prod.ext (h.trimmed b hb).1 (h.trimmed b hb).2

section

variable {inspect : RawContainerInspect} {request valid : Request}

/-- The keys of `PortBindings`. -/
def portKeys (hostConfig : Object) : List String :=
  Object.keys (Object.get hostConfig "PortBindings").fields

theorem normPort_row {hostConfig : Object} {key : String} {row : EditPort}
    (h : row ∈ portRows (Object.get hostConfig "PortBindings").fields key) :
    portName (normPort row) = normKey key := by
  rw [portRows_eq] at h
  obtain ⟨b, _, rfl⟩ := List.mem_map.mp h
  simp only [portName, normPort, normKey, normProtocol]

theorem mem_editPorts {bindings : Object} {port : EditPort} :
    port ∈ editPorts bindings ↔ ∃ key ∈ Object.keys bindings, port ∈ portRows bindings key := by
  simp [editPorts, List.mem_flatMap, List.mem_insertionSort]

theorem portRows_ne_nil (hostConfig : Object) (key : String) :
    portRows (Object.get hostConfig "PortBindings").fields key ≠ [] := by
  rw [portRows_eq]
  split <;> simp [*]

/-- The rows of one key end up under its normalized key. -/
theorem filter_rows (hostConfig : Object) (key key' : String) :
    (((portRows (Object.get hostConfig "PortBindings").fields key).map normPort).filter
      (portName · = key')).map hostOf =
        if normKey key = key' then publishedRows hostConfig key else [] := by
  have hname : ∀ row ∈ (portRows (Object.get hostConfig "PortBindings").fields key).map normPort,
      portName row = normKey key := by
    intro row hrow
    obtain ⟨row', hrow', rfl⟩ := List.mem_map.mp hrow
    exact normPort_row hrow'
  split
  · rename_i hkey
    rw [List.filter_eq_self.mpr fun row hrow => decide_eq_true ((hname row hrow).trans hkey),
      portRows_eq, publishedRows, List.map_map, List.map_map]
    simp only [Function.comp_def, hostOf, normPort]
  · rename_i hkey
    rw [List.filter_eq_nil_iff.mpr, List.map_nil]
    intro row hrow
    rw [hname row hrow]
    simpa using hkey

theorem map_hostOf_bindings (ports : List EditPort) :
    (ports.map bindingObject).map (fun binding =>
      ((Object.get binding.fields "HostIp").stringValue,
        (Object.get binding.fields "HostPort").stringValue)) = ports.map hostOf := by
  rw [List.map_map]
  rfl

theorem bindingsAt_of_rows {hostConfig requested : Object}
    (h : Object.get requested "PortBindings" = .obj (portBindings
      ((editPorts (Object.get hostConfig "PortBindings").fields).map normPort))) (key : String) :
    bindingsAt requested key =
      gathered ((portKeys hostConfig).insertionSort (· ≤ ·)) normKey (publishedRows hostConfig)
        key := by
  unfold bindingsAt
  rw [h, Json.fields, items_portBindings, map_hostOf_bindings, editPorts, List.map_flatMap,
    List.filter_flatMap, List.map_flatMap]
  simp only [filter_rows]
  rfl

theorem normProtocol_of_rows {hostConfig : Object}
    (h : ∀ port ∈ editPorts (Object.get hostConfig "PortBindings").fields,
      (normPort port).protocol ∈ ["tcp", "udp", "sctp"]) :
    ∀ key ∈ portKeys hostConfig, normProtocol (splitPortKey key).2 ∈ ["tcp", "udp", "sctp"] := by
  intro key hkey
  obtain ⟨row, hrow⟩ := List.exists_mem_of_ne_nil _ (portRows_ne_nil hostConfig key)
  have hmem := h row (mem_editPorts.mpr ⟨key, hkey, hrow⟩)
  rw [portRows_eq] at hrow
  obtain ⟨b, _, rfl⟩ := List.mem_map.mp hrow
  simpa only [normPort, normProtocol] using hmem

theorem published_iff {hostConfig requested : Object}
    (hrows : Object.get requested "PortBindings" = .obj (portBindings
      ((editPorts (Object.get hostConfig "PortBindings").fields).map normPort)))
    (hvalid : ∀ port ∈ editPorts (Object.get hostConfig "PortBindings").fields,
      (normPort port).protocol ∈ ["tcp", "udp", "sctp"]) :
    (∀ key, bindingsAt requested key = bindingsAt hostConfig key) ↔
      ∀ key ∈ portKeys hostConfig, PlainKey key ∧ PlainBindings (bindingsAt hostConfig key) := by
  have hprotocol := normProtocol_of_rows hvalid
  have hsorted : ∀ key, key ∈ (portKeys hostConfig).insertionSort (· ≤ ·) ↔
      key ∈ portKeys hostConfig := fun _ => List.mem_insertionSort _
  have hnodup : ((portKeys hostConfig).insertionSort (· ≤ ·)).Nodup :=
    (List.perm_insertionSort _ _).nodup_iff.mpr (List.nodup_dedup _)
  simp only [bindingsAt_of_rows hrows]
  rw [gathered_eq_iff hnodup]
  · refine forall_congr' fun key => ?_
    rw [hsorted]
    refine forall_congr' fun hkey => and_congr (normKey_eq_iff (hprotocol key hkey)) ?_
    exact publishedRows_eq_iff
  · exact fun key hkey => normKey_normKey (hprotocol key ((hsorted key).mp hkey))
  · intro key _
    unfold publishedRows
    split <;> simp [*]
  · intro key hkey
    rw [hsorted] at hkey
    unfold bindingsAt
    rw [Object.get_of_not_mem hkey]
    rfl

theorem mem_exposed_iff {hostConfig : Object}
    (h : ∀ key ∈ portKeys hostConfig, normKey key = key) (key : String) :
    key ∈ Object.keys (exposedPorts
      ((editPorts (Object.get hostConfig "PortBindings").fields).map normPort)) ↔
        key ∈ portKeys hostConfig := by
  rw [mem_keys_exposedPorts]
  constructor
  · rintro ⟨port, hport, rfl⟩
    obtain ⟨row, hrow, rfl⟩ := List.mem_map.mp hport
    obtain ⟨key, hkey, hrow⟩ := mem_editPorts.mp hrow
    rw [normPort_row hrow, h key hkey]
    exact hkey
  · intro hkey
    obtain ⟨row, hrow⟩ := List.exists_mem_of_ne_nil _ (portRows_ne_nil hostConfig key)
    refine ⟨normPort row, List.mem_map_of_mem (mem_editPorts.mpr ⟨key, hkey, hrow⟩), ?_⟩
    rw [normPort_row hrow, h key hkey]

/-! ## Mounts, environment and networks -/

theorem normMount_editMount {mount : RawMount} (h : editable mount) :
    normMount (editMount mount) = ⟨mount.type, (clean (trimSpace (mountSource mount))).text,
      (clean (trimSpace mount.destination)).text, !mount.rw⟩ := by
  have htype : toLower (trimSpace mount.type) = mount.type := by
    rcases h with h | h <;> rw [h] <;> decide
  rw [normMount, editMount, htype]

theorem requestedMount_mountObject (mount : EditMount) :
    requestedMount (mountObject mount) =
      ⟨mount.type, mount.source, mount.target, mount.readOnly, [], []⟩ := by
  have hextras : extras (mountObject mount).fields = [] := by
    simp [mountObject, extras, Json.fields]
  rw [requestedMount, hextras]
  rfl

theorem mounts_iff (inspect : RawContainerInspect) :
    ((((inspect.mounts.filter editable).map editMount).map normMount).map
      mountObject).map requestedMount = inspect.mounts.map (reportedMount inspect.hostConfig) ↔
        ∀ mount ∈ inspect.mounts, PlainMount inspect.hostConfig mount := by
  rw [List.map_map, List.map_map, List.map_map, map_filter_eq_map_iff]
  refine forall_congr' fun mount => forall_congr' fun _ => ?_
  rw [decide_eq_true_iff]
  constructor
  · rintro ⟨heditable, heq⟩
    simp only [Function.comp_apply, requestedMount_mountObject, normMount_editMount heditable,
      reportedMount, MountView.mk.injEq] at heq
    obtain ⟨-, hsource, htarget, -, hmodes, hoptions⟩ := heq
    exact ⟨heditable, hsource, htarget, hmodes.symm, hoptions.symm⟩
  · intro h
    refine ⟨h.editable, ?_⟩
    simp only [Function.comp_apply, requestedMount_mountObject, normMount_editMount h.editable,
      reportedMount, MountView.mk.injEq, true_and]
    exact ⟨h.source, h.target, h.modes.symm, h.options.symm⟩

theorem env_iff (env : List String) :
    (env.map trimSpace).filter (· ≠ "") = env ↔
      ∀ value ∈ env, trimSpace value = value ∧ value ≠ "" := by
  calc (env.map trimSpace).filter (· ≠ "") = env
    _ ↔ (env.filter ((fun v => decide (v ≠ "")) ∘ trimSpace)).map trimSpace = env.map id := by
        rw [List.filter_map, List.map_id]
    _ ↔ ∀ value ∈ env, trimSpace value ≠ "" ∧ trimSpace value = value := by
        simp only [map_filter_eq_map_iff, Function.comp_apply, decide_eq_true_iff, id]
    _ ↔ _ := forall_congr' fun value => forall_congr' fun _ => by
        constructor
        · rintro ⟨hne, heq⟩
          exact ⟨heq, heq ▸ hne⟩
        · rintro ⟨heq, hne⟩
          exact ⟨heq.symm ▸ hne, heq⟩

/-- What a list of keys keeps of an object. -/
theorem get_kept (raw : Object) (keys : List String) (key : String) :
    Object.get (keys.filterMap fun key =>
      match Object.get raw key with
      | .null => none
      | value => some (key, value)) key = if key ∈ keys then Object.get raw key else .null := by
  induction keys with
  | nil => rfl
  | cons k rest ih =>
    by_cases hk : k = key
    · subst hk
      cases hv : Object.get raw k <;> simp [hv, ih, Object.get]
    · cases hv : Object.get raw k <;> simp [hv, ih, Object.get, hk, Ne.symm hk]

theorem get_safeEndpoint_setting (inspect : Container) (raw : Object) {key : String}
    (h : key ∈ endpointSettings) :
    Object.get (safeEndpoint inspect raw) key = Object.get raw key := by
  have hne : key ≠ "Aliases" := by
    rintro rfl
    revert h
    decide
  have hkept := get_kept raw endpointSettings key
  rw [if_pos h] at hkept
  simp only [safeEndpoint]
  split
  · exact hkept
  · rw [Object.get_set_ne hne]
    exact hkept

theorem aliases_safeEndpoint (inspect : Container) (raw : Object) :
    (Object.get (safeEndpoint inspect raw) "Aliases").stringSlice =
      (Object.get raw "Aliases").stringSlice.filter fun a =>
        a ≠ "" ∧ a ≠ inspect.name ∧ a ≠ inspect.id ∧ ¬ a.toList <+: inspect.id.toList := by
  have hkept := get_kept raw endpointSettings "Aliases"
  rw [if_neg (by decide)] at hkept
  simp only [safeEndpoint]
  split
  · rename_i hnil
    rw [hnil]
    exact congrArg Json.stringSlice hkept
  · rw [Object.get_set_self, stringSlice_strings]

/-- The filter of the source keeps the aliases of the user when none is the start of the id. -/
theorem aliases_iff (inspect : RawContainerInspect) (raw : Object) :
    (Object.get (safeEndpoint inspect.container raw) "Aliases").stringSlice =
      userAliases inspect raw ↔
        ∀ a ∈ userAliases inspect raw, ¬ a.toList <+: inspect.id.toList := by
  rw [aliases_safeEndpoint, userAliases]
  constructor
  · intro h a ha
    rw [← h, List.mem_filter, decide_eq_true_iff] at ha
    exact ha.2.2.2.2
  · intro h
    refine List.filter_congr fun a ha => decide_eq_decide.mpr ⟨?_, ?_⟩
    · rintro ⟨hne, hname, hid, hstart⟩
      refine ⟨hne, hname, hid, fun hshort => hstart ?_⟩
      rw [hshort, shortID, String.toList_ofList]
      exact List.take_prefix 12 _
    · rintro ⟨hne, hname, hid, hshort⟩
      exact ⟨hne, hname, hid, h a (List.mem_filter.mpr
        ⟨ha, decide_eq_true ⟨hne, hname, hid, hshort⟩⟩)⟩

theorem networkingConfig_payload (valid : Request) :
    (payloadFor inspect.container valid).networkingConfig =
      if valid.networkMode = (Object.get inspect.hostConfig "NetworkMode").stringValue then
        Recreate.safeNetworkingConfig inspect.container
      else none := rfl

/-- The endpoints are carried over when the network mode is the reported one. -/
theorem get_endpoint {valid : Request}
    (hmode : valid.networkMode = (Object.get inspect.hostConfig "NetworkMode").stringValue ∨
      inspect.networks = []) :
    endpointsOf (payloadFor inspect.container valid) =
      inspect.networks.map fun e => (e.1, .obj (safeEndpoint inspect.container e.2.fields)) := by
  unfold endpointsOf
  rw [networkingConfig_payload]
  by_cases hnil : inspect.networks = []
  · have hnone : Recreate.safeNetworkingConfig inspect.container = none := by
      simp [Recreate.safeNetworkingConfig, RawContainerInspect.container, hnil]
    rw [hnone, ite_self, hnil]
    rfl
  · have hempty : inspect.container.networks.isEmpty = false := by
      simpa [RawContainerInspect.container] using hnil
    rw [if_pos (hmode.resolve_right hnil), Recreate.safeNetworkingConfig, if_neg (by simp [hempty])]
    rfl

theorem fields_endpoint (networks : Object) (c : Container) (network : String) :
    (Object.get (networks.map fun e => (e.1, .obj (safeEndpoint c e.2.fields))) network).fields =
      if network ∈ Object.keys networks then safeEndpoint c (Object.get networks network).fields
      else [] := by
  rw [Object.get_map networks fun v => .obj (safeEndpoint c v.fields)]
  split <;> rfl

theorem networkModeOf_eq (hostConfig : Object) :
    networkModeOf hostConfig =
      if (Object.get hostConfig "NetworkMode").stringValue = "" then "default"
      else (Object.get hostConfig "NetworkMode").stringValue := by
  unfold networkModeOf
  split
  · rename_i h
    rw [if_pos h]
  · rename_i h
    rw [if_neg h]

theorem networkMode_iff (mode : String) :
    (if trimSpace mode = "" then "default" else trimSpace mode) =
      (if mode = "" then "default" else mode) ↔ trimSpace mode = mode := by
  by_cases hblank : mode = ""
  · subst hblank
    decide
  · rw [if_neg hblank]
    split
    · rename_i htrim
      refine iff_of_false ?_ fun heq => hblank (heq.symm.trans htrim)
      rintro rfl
      revert htrim
      decide
    · rfl

/-! ## The payload of an unchanged specification -/

variable {start : Bool}

theorem restart_iff (name : String) (maximum : Int) :
    (name, if name ≠ "on-failure" then 0 else maximum) = (name, maximum) ↔
      name = "on-failure" ∨ maximum = 0 := by
  by_cases hname : name = "on-failure"
  · simp [hname]
  · simp [hname, eq_comm]

theorem config_kept (valid : Request) {key : String} (h : key ∉ editedConfig) :
    Object.get (payloadFor inspect.container valid).config key = Object.get inspect.config key := by
  simp only [editedConfig, List.mem_cons, List.not_mem_nil, or_false, not_or] at h
  simp [payloadFor, Recreate.requestedConfig, RawContainerInspect.container, h]

theorem hostConfig_kept (valid : Request) {key : String} (h : key ∉ editedHostConfig) :
    Object.get (payloadFor inspect.container valid).hostConfig key =
      Object.get inspect.hostConfig key := by
  simp only [editedHostConfig, List.mem_cons, List.not_mem_nil, or_false, not_or] at h
  simp [payloadFor, Recreate.requestedHostConfig, RawContainerInspect.container, h]

theorem binds_payload (valid : Request) :
    Object.get (payloadFor inspect.container valid).hostConfig "Binds" = .null := by
  refine Object.get_of_not_mem fun hmem => ?_
  obtain ⟨v, hv⟩ := Object.mem_keys.mp hmem
  simp only [payloadFor, Recreate.requestedHostConfig, Object.erase, List.mem_filter, beq_self_eq_true,
    Bool.not_true, Bool.false_eq_true, and_false] at hv

/-- What the payload of an unchanged specification says, field by field. -/
structure Carried (inspect : RawContainerInspect) (payload : Payload) : Prop where
  texts : ∀ key ∈ ["Image", "WorkingDir", "User", "Hostname"],
    (Object.get payload.config key).stringValue =
      trimSpace (Object.get inspect.config key).stringValue
  env : (Object.get payload.config "Env").stringSlice =
    ((Object.get inspect.config "Env").stringSlice.map trimSpace).filter (· ≠ "")
  commands : ∀ key ∈ ["Cmd", "Entrypoint"],
    (Object.get payload.config key).stringSlice = (Object.get inspect.config key).stringSlice
  exposed : exposedKeys payload.config = Object.keys (exposedPorts
    ((editPorts (Object.get inspect.hostConfig "PortBindings").fields).map normPort))
  bindings : Object.get payload.hostConfig "PortBindings" = .obj (portBindings
    ((editPorts (Object.get inspect.hostConfig "PortBindings").fields).map normPort))
  mounts : (Object.get payload.hostConfig "Mounts").items =
    (((inspect.mounts.filter editable).map editMount).map normMount).map mountObject
  networkMode : networkModeOf payload.hostConfig =
    if trimSpace (Object.get inspect.hostConfig "NetworkMode").stringValue = "" then "default"
    else trimSpace (Object.get inspect.hostConfig "NetworkMode").stringValue
  restart : restartOf payload.hostConfig = ((restartOf inspect.hostConfig).1,
    if (restartOf inspect.hostConfig).1 ≠ "on-failure" then 0 else (restartOf inspect.hostConfig).2)
  privileged : (Object.get payload.hostConfig "Privileged").boolValue =
    (Object.get inspect.hostConfig "Privileged").boolValue

theorem stringSlice_nullable (values : List String) : (nullable values).stringSlice = values := by
  unfold nullable
  split
  · rename_i hnil
    rw [hnil]
    rfl
  · exact stringSlice_strings values

theorem carried_payload (hn : Normalized ((editSpecFromInspect inspect).unchanged start) valid) :
    Carried inspect (payloadFor inspect.container valid) := by
  have hc := Recreate.configured_payload inspect.container valid "" false []
  refine {
    texts := ?_
    env := ?_
    commands := ?_
    exposed := ?_
    bindings := ?_
    mounts := ?_
    networkMode := ?_
    restart := ?_
    privileged := ?_ }
  · simp only [List.forall_mem_cons, List.not_mem_nil, false_imp_iff, implies_true, and_true]
    rw [hc.image, hc.workingDir, hc.user, hc.hostname, hn.image, hn.workingDir, hn.user, hn.hostname]
    exact ⟨rfl, rfl, rfl, rfl⟩
  · rw [hc.env, stringSlice_strings, hn.env]
    rfl
  · simp only [List.forall_mem_cons, List.not_mem_nil, false_imp_iff, implies_true, and_true]
    rw [hc.cmd, hc.entrypoint, stringSlice_nullable, stringSlice_nullable, hn.cmd, hn.entrypoint]
    exact ⟨rfl, rfl⟩
  · rw [exposedKeys, hc.exposed, hn.ports]
    rfl
  · rw [hc.bindings, hn.ports]
    rfl
  · rw [hc.mounts, hn.mounts]
    rfl
  · rw [networkModeOf_eq, hc.networkMode, Json.stringValue, hn.networkMode]
    refine if_neg ?_
    split
    · decide
    · assumption
  · rw [restartOf, hc.restart, hn.restartPolicy, hn.restartMaximum]
    rfl
  · rw [hc.privileged, hn.privileged]
    rfl

theorem valid_networkMode (hn : Normalized ((editSpecFromInspect inspect).unchanged start) valid)
    (htrim : trimSpace (Object.get inspect.hostConfig "NetworkMode").stringValue =
      (Object.get inspect.hostConfig "NetworkMode").stringValue) :
    valid.networkMode = (Object.get inspect.hostConfig "NetworkMode").stringValue ↔
      (Object.get inspect.hostConfig "NetworkMode").stringValue ≠ "" := by
  have hmode : valid.networkMode =
      if trimSpace (Object.get inspect.hostConfig "NetworkMode").stringValue = "" then "default"
      else trimSpace (Object.get inspect.hostConfig "NetworkMode").stringValue := hn.networkMode
  rw [hmode, htrim]
  generalize (Object.get inspect.hostConfig "NetworkMode").stringValue = mode
  by_cases hblank : mode = ""
  · subst hblank
    decide
  · rw [if_neg hblank]
    exact iff_of_true rfl hblank

theorem network_of_same (hn : Normalized ((editSpecFromInspect inspect).unchanged start) valid)
    (htrim : trimSpace (Object.get inspect.hostConfig "NetworkMode").stringValue =
      (Object.get inspect.hostConfig "NetworkMode").stringValue)
    (hsame : ∀ network, network ∈ Object.keys (endpointsOf (payloadFor inspect.container valid)) ↔
      network ∈ Object.keys inspect.networks)
    (hblank : (Object.get inspect.hostConfig "NetworkMode").stringValue = "") :
    inspect.networks = [] := by
  have hne := mt (valid_networkMode hn htrim).mp (not_not.mpr hblank)
  have hnone : endpointsOf (payloadFor inspect.container valid) = [] := by
    unfold endpointsOf
    rw [networkingConfig_payload, if_neg hne]
  rw [hnone] at hsame
  refine List.eq_nil_iff_forall_not_mem.mpr fun e he => ?_
  exact List.not_mem_nil ((hsame e.1).mpr (Object.mem_keys.mpr ⟨e.2, he⟩))

/-- The endpoints of a payload, when they are carried over. -/
theorem endpoints_payload
    (hmode : valid.networkMode = (Object.get inspect.hostConfig "NetworkMode").stringValue ∨
      inspect.networks = []) :
    (∀ network, network ∈ Object.keys (endpointsOf (payloadFor inspect.container valid)) ↔
      network ∈ Object.keys inspect.networks) ∧
    (∀ network, ∀ key ∈ endpointSettings,
      Object.get (Object.get (endpointsOf (payloadFor inspect.container valid)) network).fields key =
        Object.get (Object.get inspect.networks network).fields key) ∧
    ((∀ network, (Object.get (Object.get (endpointsOf (payloadFor inspect.container valid))
        network).fields "Aliases").stringSlice =
          userAliases inspect (Object.get inspect.networks network).fields) ↔
      ∀ network, ∀ a ∈ userAliases inspect (Object.get inspect.networks network).fields,
        ¬ a.toList <+: inspect.id.toList) := by
  rw [get_endpoint hmode]
  refine ⟨fun network => ?_, fun network key hkey => ?_, forall_congr' fun network => ?_⟩
  · rw [Object.keys_map inspect.networks fun v => .obj (safeEndpoint inspect.container v.fields)]
  · rw [fields_endpoint]
    split
    · exact get_safeEndpoint_setting _ _ hkey
    · rename_i hout
      rw [Object.get_of_not_mem hout]
      rfl
  · rw [fields_endpoint]
    split
    · exact aliases_iff inspect _
    · rename_i hout
      rw [Object.get_of_not_mem hout]
      exact iff_of_true rfl nofun

/-- A payload of an unchanged specification describes the container exactly when the report is
plain. -/
theorem same_iff (hn : Normalized ((editSpecFromInspect inspect).unchanged start) valid) :
    SameContainer inspect (payloadFor inspect.container valid) ↔ Plain inspect := by
  have hc := carried_payload hn
  have hpublished := published_iff hc.bindings hn.protocols
  have hmounts := mounts_iff inspect
  rw [← hc.mounts] at hmounts
  have hexposed : (∀ key ∈ portKeys inspect.hostConfig, PlainKey key) → ∀ key,
      key ∈ exposedKeys (payloadFor inspect.container valid).config ↔
        key ∈ portKeys inspect.hostConfig := by
    intro hplain key
    rw [hc.exposed]
    refine mem_exposed_iff (fun key hkey => ?_) key
    exact (normKey_eq_iff (normProtocol_of_rows hn.protocols key hkey)).mpr (hplain key hkey)
  constructor
  · intro h
    have hports := hpublished.mp h.published
    have htrim := (networkMode_iff _).mp
      ((hc.networkMode.symm.trans h.networkMode).trans (networkModeOf_eq _))
    have hnetwork := network_of_same hn htrim h.endpoints
    have hmode := (em ((Object.get inspect.hostConfig "NetworkMode").stringValue = "")).symm.imp
      (valid_networkMode hn htrim).mpr hnetwork
    exact {
      texts := fun key hkey => (hc.texts key hkey).symm.trans (h.texts key hkey)
      env := (env_iff _).mp (hc.env.symm.trans h.env)
      restart := (restart_iff _ _).mp (hc.restart.symm.trans h.restart)
      networkMode := htrim
      network := hnetwork
      ports := hports
      exposed := fun key => (h.exposed key).symm.trans
        (hexposed (fun key hkey => (hports key hkey).1) key)
      mounts := hmounts.mp h.mounts
      aliases := (endpoints_payload hmode).2.2.mp h.aliases }
  · intro h
    have hmode := (em ((Object.get inspect.hostConfig "NetworkMode").stringValue = "")).symm.imp
      (valid_networkMode hn h.networkMode).mpr h.network
    obtain ⟨hendpoints, hsettings, haliases⟩ := endpoints_payload hmode
    exact {
      texts := fun key hkey => (hc.texts key hkey).trans (h.texts key hkey)
      env := hc.env.trans ((env_iff _).mpr h.env)
      commands := hc.commands
      exposed := fun key => (hexposed (fun key hkey => (h.ports key hkey).1) key).trans
        (h.exposed key).symm
      published := hpublished.mpr h.ports
      mounts := hmounts.mpr h.mounts
      binds := binds_payload valid
      networkMode := (hc.networkMode.trans ((networkMode_iff _).mpr h.networkMode)).trans
        (networkModeOf_eq _).symm
      endpoints := hendpoints
      settings := hsettings
      aliases := haliases.mpr h.aliases
      restart := hc.restart.trans ((restart_iff _ _).mpr h.restart)
      privileged := hc.privileged
      config := fun _ hkey => config_kept valid hkey
      hostConfig := fun _ hkey => hostConfig_kept valid hkey }

end

/-- Whether the container is recreated is up to `AutoRemove` alone. -/
theorem prepare_unchanged {parseIP : String → Bool} (answers : Answers) (now : Nat)
    {d : Daemon} {inspect : RawContainerInspect} {start : Bool} {valid : Request}
    (hfound : d.resolve inspect.id = some inspect.container) (hreached : answers.inspect = .ok)
    (hcompose : (editSpecFromInspect inspect).composeManaged = false)
    (hvalid : validateRecreateRequest parseIP ((editSpecFromInspect inspect).unchanged start) =
      .ok valid) :
    prepare parseIP answers now ((editSpecFromInspect inspect).unchanged start) d =
      if (editSpecFromInspect inspect).autoRemove then .error "自动删除容器暂不支持安全重建"
      else .ok ⟨inspect.container, valid,
        Recreate.backupNameFor inspect.container.name now⟩ := by
  have hid : validID ((editSpecFromInspect inspect).unchanged start).id = true :=
    (normalized_of_valid hvalid).id
  have hresolve : d.resolve ((editSpecFromInspect inspect).unchanged start).id =
      some inspect.container := hfound
  have hspec := recreate_spec inspect
  simp only [prepare, hid, hreached, hresolve, hspec, hcompose, hvalid, Bool.not_true,
    Bool.false_eq_true, if_false]

/-- `RecreateContainer` gets to the point where it recreates the container, and the payload it
makes there describes the container of the report. -/
def SendsSame (parseIP : String → Bool) (answers : Answers) (now : Nat) (request : Request)
    (d : Daemon) (inspect : RawContainerInspect) : Prop :=
  ∃ plan, prepare parseIP answers now request d = .ok plan ∧
    SameContainer inspect (payloadFor plan.inspect plan.request)

def reachable : Answers := ⟨.ok, .ok, .ok, .ok, .ok, .ok, "1f2e", []⟩

def web : RawContainerInspect where
  id := "c0ffee0123456789"
  name := "/web"
  running := true
  config := [("Image", .str "nginx:1.27"), ("Env", strings ["TZ=UTC"]),
    ("ExposedPorts", .obj [("80/tcp", .obj [])])]
  hostConfig := [("NetworkMode", .str "frontend"),
    ("PortBindings", .obj [("80/tcp", .arr [.obj [("HostIp", .str ""), ("HostPort", .str "8080")]])]),
    ("RestartPolicy", .obj [("Name", .str "on-failure"), ("MaximumRetryCount", .num 3)])]
  mounts := [⟨"volume", "pages", "/var/lib/docker/volumes/pages/_data", "/srv", "z", false⟩]
  networks := [("frontend", .obj [("Aliases", strings ["www", "c0ffee012345"])])]

def daemonOf (inspect : RawContainerInspect) : Daemon := ⟨[inspect.container], by simp, by simp⟩

def webRequest : Request := (editSpecFromInspect web).unchanged true

theorem plain_web : Plain web where
  texts := by decide +kernel
  env := by decide +kernel
  restart := by decide +kernel
  networkMode := by decide +kernel
  network := by decide +kernel
  ports := by
    intro key hkey
    have hkeys : Object.keys (Object.get web.hostConfig "PortBindings").fields = ["80/tcp"] := by
      decide +kernel
    rw [hkeys, List.mem_singleton] at hkey
    subst hkey
    refine ⟨⟨?_, ?_, ?_⟩, ?_, ?_⟩ <;> decide +kernel
  exposed := by
    have hkeys : exposedKeys web.config =
        Object.keys (Object.get web.hostConfig "PortBindings").fields := by decide +kernel
    rw [hkeys]
    exact fun _ => Iff.rfl
  mounts := by
    intro mount hmount
    obtain rfl := List.mem_singleton.mp hmount
    refine ⟨?_, ?_, ?_, ?_, rfl⟩ <;> decide +kernel
  aliases := by
    intro network a ha
    have hcases : Object.get web.networks network = .null ∨
        Object.get web.networks network = Object.get web.networks "frontend" := by
      by_cases hname : "frontend" = network
      · exact .inr (by rw [hname])
      · exact .inl (by simp [web, Object.get, hname])
    have haliases : userAliases web (Object.get web.networks "frontend").fields = ["www"] := by
      decide +kernel
    rcases hcases with hnull | heq
    · rw [hnull] at ha
      cases ha
    · rw [heq, haliases] at ha
      obtain rfl := List.mem_singleton.mp ha
      decide +kernel

/-- A database: its port is exposed and not published, its socket directory is a `tmpfs`, its data
directory is relabelled, and one of its aliases is the start of its id. -/
def database : RawContainerInspect where
  id := "db0123456789abcdef"
  name := "/postgres"
  running := true
  config := [("Image", .str "postgres:16"), ("Env", strings ["POSTGRES_DB=app"]),
    ("ExposedPorts", .obj [("5432/tcp", .obj [])])]
  hostConfig := [("NetworkMode", .str "backend"),
    ("RestartPolicy", .obj [("Name", .str "always"), ("MaximumRetryCount", .num 0)])]
  mounts := [⟨"bind", "", "/srv/db", "/var/lib/postgresql/data", "Z", true⟩,
    ⟨"tmpfs", "", "", "/run/postgresql", "", true⟩]
  networks := [("backend", .obj [("Aliases", strings ["db", "sql"])])]

def databaseRequest : Request := (editSpecFromInspect database).unchanged true

end LukePanel.DockerApi.SaveUnchanged
