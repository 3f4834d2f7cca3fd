import Mathlib.Data.List.Nodup
import LukePanel.Library.JsonObject

/-! # The containers of the Docker daemon

What the calls of `RecreateContainer` do to the daemon. Ids and names are unique; a call that
would take a name in use is refused. -/
namespace LukePanel.DockerApi.Containers
open LukePanel.Library.JsonObject

/-- `config`, `hostConfig` and `networks` are the objects `inspect` reports. -/
structure Container where
  id : String
  name : String
  running : Bool
  config : Object
  hostConfig : Object
  networks : Object

/-- The body of `POST /containers/create`. -/
structure Payload where
  config : Object
  hostConfig : Object
  networkingConfig : Option Object

structure Daemon where
  containers : List Container
  ids : (containers.map Container.id).Nodup
  names : (containers.map Container.name).Nodup

namespace Daemon

def hasName (d : Daemon) (name : String) : Bool := d.containers.any (·.name == name)

/-- The container an id or a name stands for. -/
def resolve (d : Daemon) (ref : String) : Option Container :=
  (d.containers.find? (·.id == ref)).or (d.containers.find? (·.name == ref))

theorem hasName_eq_false {d : Daemon} {name : String} (h : d.hasName name = false) :
    ∀ c ∈ d.containers, c.name ≠ name := by
  simpa [hasName] using h

theorem mem_of_resolve {d : Daemon} {ref : String} {c : Container} (h : d.resolve ref = some c) :
    c ∈ d.containers := by
  rcases Option.or_eq_some_iff.mp h with hid | ⟨_, hname⟩
  · exact List.mem_of_find?_eq_some hid
  · exact List.mem_of_find?_eq_some hname

/-- Containers with one id are one. -/
theorem eq_of_id {d : Daemon} {c c' : Container} (hc : c ∈ d.containers) (hc' : c' ∈ d.containers)
    (h : c.id = c'.id) : c = c' := List.inj_on_of_nodup_map d.ids hc hc' h

theorem eq_of_name {d : Daemon} {c c' : Container} (hc : c ∈ d.containers)
    (hc' : c' ∈ d.containers) (h : c.name = c'.name) : c = c' :=
  List.inj_on_of_nodup_map d.names hc hc' h

theorem nodup (d : Daemon) : d.containers.Nodup := List.Nodup.of_map _ d.ids

@[ext] theorem ext {d d' : Daemon} (h : d.containers = d'.containers) : d = d' := by
  cases d
  cases d'
  cases h
  rfl

/-- A change of the containers that keeps their ids and, apart from each other, their names. -/
def modify (d : Daemon) (f : Container → Container) (hid : ∀ c, (f c).id = c.id)
    (hname : ∀ c ∈ d.containers, ∀ c' ∈ d.containers, (f c).name = (f c').name → c = c') :
    Daemon where
  containers := d.containers.map f
  ids := by
    have hids : (d.containers.map f).map Container.id = d.containers.map Container.id := by
      rw [List.map_map]
      exact List.map_congr_left fun c _ => hid c
    rw [hids]
    exact d.ids
  names := by
    rw [List.map_map]
    exact d.nodup.map_on hname

def renamed (id name : String) (c : Container) : Container := if c.id = id then { c with name } else c

def withRunning (id : String) (running : Bool) (c : Container) : Container :=
  if c.id = id then { c with running } else c

theorem renamed_id (id name : String) (c : Container) : (renamed id name c).id = c.id := by
  unfold renamed; split <;> rfl

theorem withRunning_id (id : String) (running : Bool) (c : Container) :
    (withRunning id running c).id = c.id := by
  unfold withRunning; split <;> rfl

theorem withRunning_name (id : String) (running : Bool) (c : Container) :
    (withRunning id running c).name = c.name := by
  unfold withRunning; split <;> rfl

/-- `POST /containers/{id}/rename` -/
def rename (d : Daemon) (id name : String) : Option Daemon :=
  if h : d.hasName name = false then
    some (d.modify (renamed id name) (renamed_id id name) (by
      intro c hc c' hc' heq
      have hfree := hasName_eq_false h
      unfold renamed at heq
      split at heq <;> split at heq
      · rename_i hi hi'; exact eq_of_id hc hc' (hi.trans hi'.symm)
      · exact absurd heq.symm (hfree c' hc')
      · exact absurd heq (hfree c hc)
      · exact eq_of_name hc hc' heq))
  else none

/-- `POST /containers/{id}/start` and `/stop` -/
def setRunning (d : Daemon) (id : String) (running : Bool) : Daemon :=
  d.modify (withRunning id running) (withRunning_id id running) fun c hc c' hc' heq =>
    eq_of_name hc hc' (by rwa [withRunning_name, withRunning_name] at heq)

/-- `POST /containers/create`; a new container does not run. The daemon draws no id in use. -/
def create (d : Daemon) (id name : String) (payload : Payload) : Option Daemon :=
  if h : d.hasName name = false ∧ ∀ c ∈ d.containers, c.id ≠ id then
    some {
      containers := ⟨id, name, false, payload.config, payload.hostConfig,
        payload.networkingConfig.getD []⟩ :: d.containers
      ids := List.nodup_cons.mpr ⟨fun hmem => by
        obtain ⟨c, hc, heq⟩ := List.mem_map.mp hmem
        exact h.2 c hc heq, d.ids⟩
      names := List.nodup_cons.mpr ⟨fun hmem => by
        obtain ⟨c, hc, heq⟩ := List.mem_map.mp hmem
        exact hasName_eq_false h.1 c hc heq, d.names⟩ }
  else none

/-- `DELETE /containers/{id}?force=1` -/
def remove (d : Daemon) (id : String) : Daemon where
  containers := d.containers.filter fun c => !(c.id == id)
  ids := d.ids.sublist (List.filter_sublist.map _)
  names := d.names.sublist (List.filter_sublist.map _)

/-- `DELETE /containers/{id}?force=0`, refused while the container runs. -/
def removeStopped (d : Daemon) (id : String) : Option Daemon :=
  if d.containers.any fun c => c.id == id && c.running then none else some (d.remove id)

/-! ## What the calls leave -/

theorem rename_eq_some {d d' : Daemon} {id name : String} (h : d.rename id name = some d') :
    d.hasName name = false ∧ d'.containers = d.containers.map (renamed id name) := by
  unfold rename at h
  split at h
  · rename_i hfree
    cases h
    exact ⟨hfree, rfl⟩
  · cases h

theorem rename_of_free {d : Daemon} {name : String} (id : String) (h : d.hasName name = false) :
    ∃ d', d.rename id name = some d' ∧ d'.containers = d.containers.map (renamed id name) := by
  refine ⟨_, dif_pos h, rfl⟩

theorem create_eq_some {d d' : Daemon} {id name : String} {payload : Payload}
    (h : d.create id name payload = some d') :
    (∀ c ∈ d.containers, c.id ≠ id) ∧
      d'.containers = ⟨id, name, false, payload.config, payload.hostConfig,
        payload.networkingConfig.getD []⟩ :: d.containers := by
  unfold create at h
  split at h
  · rename_i hfree
    cases h
    exact ⟨hfree.2, rfl⟩
  · cases h

end Daemon

end LukePanel.DockerApi.Containers
