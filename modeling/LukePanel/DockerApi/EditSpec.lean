import Mathlib.Data.List.Sort
import Mathlib.Data.String.Basic
import LukePanel.DockerApi.Recreate

/-! # The edit specification of a container

`editSpecFromInspect` of `internal/dockerapi/client.go`: what the edit form gets to see of the
report of the Docker daemon, and the request it sends back when nothing was changed. -/
namespace LukePanel.DockerApi.EditSpec
open LukePanel.DockerApi.Containers LukePanel.DockerApi.RecreateRequest
open LukePanel.Library.GoStrings (trimSpace)
open LukePanel.Library.SlashPath (clean)
open LukePanel.Library.JsonObject

/-- `rw` is `RW`. -/
structure RawMount where
  type : String
  name : String
  source : String
  destination : String
  mode : String
  rw : Bool
  deriving DecidableEq, Repr

structure RawContainerInspect where
  id : String
  name : String
  running : Bool
  config : Object
  hostConfig : Object
  mounts : List RawMount
  networks : Object

structure ContainerEditSpec where
  id : String
  name : String
  image : String
  env : List String
  cmd : List String
  entrypoint : List String
  workingDir : String
  user : String
  hostname : String
  restartPolicy : String
  restartMaximum : Int
  networkMode : String
  privileged : Bool
  autoRemove : Bool
  running : Bool
  composeManaged : Bool
  composeProject : String
  composeService : String
  composeFiles : List String
  ports : List EditPort
  mounts : List EditMount
  labels : List (String × String)
  deriving DecidableEq, Repr

/-- `stringMap` of a decoded value. -/
def stringMap (value : Json) : List (String × String) :=
  (Object.keys value.fields).filterMap fun key =>
    match Object.get value.fields key with
    | .str text => some (key, text)
    | _ => none

/-- `labels[key]` -/
def label (labels : List (String × String)) (key : String) : String := (labels.lookup key).getD ""

def splitComposeFiles (value : String) : List String :=
  let parts := (value.toList.splitOnP fun r => r == ',' || r == ';').filter (· ≠ [])
  (parts.map fun part => (clean (trimSpace (String.ofList part))).text).filter fun part =>
    part ≠ "." ∧ part ≠ ""

/-- `strings.SplitN(key, "/", 2)`, with `tcp` where there is no second part. -/
def splitPortKey (key : String) : String × String :=
  let port := String.ofList (key.toList.takeWhile (· ≠ '/'))
  match key.toList.dropWhile (· ≠ '/') with
  | _ :: protocol => (port, String.ofList protocol)
  | [] => (port, "tcp")

/-- The rows of one key of `PortBindings`. -/
def portRows (bindings : Object) (key : String) : List EditPort :=
  let (port, protocol) := splitPortKey key
  match (Object.get bindings key).items with
  | [] => [⟨"", "", port, protocol⟩]
  | values => values.map fun binding =>
    ⟨(Object.get binding.fields "HostIp").stringValue,
      (Object.get binding.fields "HostPort").stringValue, port, protocol⟩

def editPorts (bindings : Object) : List EditPort :=
  ((Object.keys bindings).insertionSort (· ≤ ·)).flatMap (portRows bindings)

def mountSource (mount : RawMount) : String :=
  if mount.type = "volume" ∧ mount.name ≠ "" then mount.name else mount.source

def editMount (mount : RawMount) : EditMount :=
  ⟨mount.type, mountSource mount, mount.destination, !mount.rw⟩

/-- The types of mounts the edit form can show. -/
def editable (mount : RawMount) : Prop := mount.type = "bind" ∨ mount.type = "volume"

instance : DecidablePred editable := fun _ => inferInstanceAs (Decidable (_ ∨ _))

def restartOf (hostConfig : Object) : String × Int :=
  match Object.get hostConfig "RestartPolicy" with
  | .obj restart =>
    ((Object.get restart "Name").stringValue, (Object.get restart "MaximumRetryCount").intValue)
  | _ => ("no", 0)

def editSpecFromInspect (inspect : RawContainerInspect) : ContainerEditSpec :=
  let labels := stringMap (Object.get inspect.config "Labels")
  let composeProject := label labels "com.docker.compose.project"
  { id := inspect.id
    name := trimSlash inspect.name
    image := (Object.get inspect.config "Image").stringValue
    env := (Object.get inspect.config "Env").stringSlice
    cmd := (Object.get inspect.config "Cmd").stringSlice
    entrypoint := (Object.get inspect.config "Entrypoint").stringSlice
    workingDir := (Object.get inspect.config "WorkingDir").stringValue
    user := (Object.get inspect.config "User").stringValue
    hostname := (Object.get inspect.config "Hostname").stringValue
    restartPolicy := (restartOf inspect.hostConfig).1
    restartMaximum := (restartOf inspect.hostConfig).2
    networkMode := (Object.get inspect.hostConfig "NetworkMode").stringValue
    privileged := (Object.get inspect.hostConfig "Privileged").boolValue
    autoRemove := (Object.get inspect.hostConfig "AutoRemove").boolValue
    running := inspect.running
    composeManaged := composeProject ≠ ""
    composeProject := composeProject
    composeService := label labels "com.docker.compose.service"
    composeFiles := splitComposeFiles (label labels "com.docker.compose.project.config_files")
    ports := editPorts (Object.get inspect.hostConfig "PortBindings").fields
    mounts := (inspect.mounts.filter editable).map editMount
    labels := labels }

/-- The request that carries a specification as it is. -/
def ContainerEditSpec.unchanged (spec : ContainerEditSpec) (start : Bool) : Request where
  id := spec.id
  name := spec.name
  image := spec.image
  env := spec.env
  cmd := spec.cmd
  entrypoint := spec.entrypoint
  workingDir := spec.workingDir
  user := spec.user
  hostname := spec.hostname
  restartPolicy := spec.restartPolicy
  restartMaximum := spec.restartMaximum
  networkMode := spec.networkMode
  privileged := spec.privileged
  ports := spec.ports
  mounts := spec.mounts
  start := start

/-- The container a report is about, as far as recreating it reads it. -/
def RawContainerInspect.container (inspect : RawContainerInspect) : Container :=
  ⟨inspect.id, trimSlash inspect.name, inspect.running, inspect.config, inspect.hostConfig,
    inspect.networks⟩

/-! ## The specification `RecreateContainer` reads -/

theorem label_stringMap (value : Json) (key : String) :
    label (stringMap value) key = (Object.get value.fields key).stringValue := by
  have hlookup : ∀ ks : List String, (ks.filterMap fun k =>
      match Object.get value.fields k with
      | .str text => some (k, text)
      | _ => none).lookup key =
        if key ∈ ks then
          match Object.get value.fields key with
          | .str text => some text
          | _ => none
        else none := by
    intro ks
    induction ks with
    | nil => rfl
    | cons k rest ih =>
      by_cases hk : key = k
      · subst hk
        cases hv : Object.get value.fields key <;> simp [hv, ih]
      · cases hv : Object.get value.fields k <;>
          simp [hv, ih, hk, List.lookup_cons, beq_eq_false_iff_ne.mpr hk]
  rw [label, stringMap, hlookup]
  split
  · cases Object.get value.fields key <;> rfl
  · rename_i hmem
    rw [Object.get_of_not_mem hmem]
    rfl

/-- The part of the specification that `RecreateContainer` checks is the one of the form. -/
theorem recreate_spec (inspect : RawContainerInspect) :
    Recreate.editSpecFromInspect inspect.container =
      ⟨(editSpecFromInspect inspect).name, (editSpecFromInspect inspect).networkMode,
        (editSpecFromInspect inspect).autoRemove, (editSpecFromInspect inspect).composeManaged⟩ := by
  have hcompose : (Recreate.editSpecFromInspect inspect.container).composeManaged =
      (editSpecFromInspect inspect).composeManaged :=
    decide_eq_decide.mpr (by rw [label_stringMap]; rfl)
  rw [← hcompose]
  rfl

end LukePanel.DockerApi.EditSpec
