import LukePanel.DockerApi.RecreateRequest
import LukePanel.Library.Attempt
import LukePanel.Library.GoQuote
import Mathlib.Logic.Function.Basic

/-! # Projects made by the Compose wizard

`CreateComposeProject` of `internal/dockerapi/client.go`, on the files of the host by their paths. -/
namespace LukePanel.DockerApi.ComposeWizard
open LukePanel.Library LukePanel.Library.GoStrings LukePanel.Library.SlashPath
open LukePanel.Library.Attempt LukePanel.Library.Attempt.Prog
open LukePanel.DockerApi.RecreateRequest (validID)

structure ComposeWizardService where
  name : String
  image : String
  containerName : String
  restart : String
  environment : List String
  ports : List String
  volumes : List String
  command : List String
  deriving DecidableEq

structure ComposeWizardRequest where
  project : String
  directory : String
  services : List ComposeWizardService
  start : Bool
  deriving DecidableEq

structure ComposeWizardResult where
  project : String
  path : String
  output : String
  deriving DecidableEq

/-- The expression `^[A-Za-z0-9][A-Za-z0-9_.-]{0,127}$`. -/
def composeProjectPattern (s : String) : Bool :=
  match s.toList with
  | [] => false
  | c :: rest => c.isAlphanum && decide (rest.length ≤ 127) &&
      rest.all fun c => c.isAlphanum || c = '_' || c = '.' || c = '-'

/-! ## The text -/

section

variable (table : Char → Bool)

def yamlQuote (value : String) : String := String.ofList (GoQuote.quote table value.toList)

/-- What is refused in a list. -/
def isInvalid (value : String) : Bool :=
  decide (1024 < value.utf8ByteSize) || containsAny value ['\x00', '\r', '\n']

def cleanValues (name : String) : List String → Except String (List String)
  | [] => .ok []
  | value :: rest => do
    let value := trimSpace value
    if value = "" then cleanValues name rest
    else
      if isInvalid value then throw (name ++ " 参数无效")
      return value :: (← cleanValues name rest)

def writeItems : List String → String
  | [] => ""
  | value :: rest => "      - " ++ yamlQuote table value ++ "\n" ++ writeItems rest

def writeComposeList (name : String) (values : List String) : Except String String := do
  let clean ← cleanValues name values
  if clean = [] then return ""
  return "    " ++ name ++ ":\n" ++ writeItems table clean

def writeCommand (values : List String) : Except String String :=
  if values = [] then .ok ""
  else if values.any isInvalid then .error "command 参数无效"
  else .ok ("    command:\n" ++ writeItems table values)

def restartOf (service : ComposeWizardService) : String :=
  if trimSpace service.restart = "" then "unless-stopped" else trimSpace service.restart

def restartPolicies : List String := ["no", "always", "on-failure", "unless-stopped"]

def writeContainerName (value : String) : String :=
  if value = "" then "" else "    container_name: " ++ yamlQuote table value ++ "\n"

/-- One turn of the loop over the services; `seen` are the names so far. -/
def writeService (seen : List String) (service : ComposeWizardService) : Except String String := do
  let name := trimSpace service.name
  let image := trimSpace service.image
  let value := trimSpace service.containerName
  if composeProjectPattern name = false ∨ name ∈ seen then throw ("服务名称无效或重复: " ++ name)
  if image = "" ∨ 300 < image.utf8ByteSize ∨
      containsAny image ['\x00', '\r', '\n', '\t', ' '] = true then
    throw ("镜像名称无效: " ++ name)
  if restartOf service ∉ restartPolicies then throw ("重启策略无效: " ++ name)
  if value ≠ "" ∧ validID value = false then throw ("容器名称无效: " ++ value)
  let environment ← writeComposeList table "environment" service.environment
  let ports ← writeComposeList table "ports" service.ports
  let volumes ← writeComposeList table "volumes" service.volumes
  let command ← writeCommand table service.command
  return "  " ++ name ++ ":\n" ++
    ("    image: " ++ yamlQuote table image ++ "\n" ++
      (writeContainerName table value ++
        ("    restart: " ++ yamlQuote table (restartOf service) ++ "\n" ++
          (environment ++ (ports ++ (volumes ++ command))))))

def writeServices (seen : List String) : List ComposeWizardService → Except String String
  | [] => .ok ""
  | service :: rest => do
    let text ← writeService table seen service
    return text ++ (← writeServices (trimSpace service.name :: seen) rest)

/-! ## The project -/

/-- The regular files. -/
abbrev Disk := String → Option String

/-- What the calls answer. -/
structure Answers where
  mkdirAll : Option String
  /-- `os.Stat` finds something at the path of the configuration. -/
  stat : Bool
  /-- The random part of the name. -/
  createTemp : Except String String
  chmod : Option String
  write : Option String
  close : Option String
  /-- The output of `docker compose config`, if it fails. -/
  config : Option String
  rename : Option String
  /-- The output of `docker compose up`, which is the error if it fails. -/
  up : Except String String
  removeTemp : Option String
  removeConfig : Option String

/-- `filepath.Join` of a directory that is cleaned. -/
def entryPath (directory : CleanPath) (name : String) : String :=
  CleanPath.text ⟨directory.rooted, directory.parts ++ [name]⟩

/-- `os.Remove` -/
def remove (fails : Option String) (path : String) : Prog Disk String Unit := do
  call fails
  modify fun disk => Function.update disk path none

/-- `os.Rename` -/
def rename (fails : Option String) (path target : String) : Prog Disk String Unit := do
  call fails
  modify fun disk => Function.update (Function.update disk path none) target (disk path)

/-- The project is started, if it was asked for, and its configuration removed if that fails. -/
def startProject (a : Answers) (start : Bool) (result : ComposeWizardResult) :
    Prog Disk String ComposeWizardResult :=
  if start then
    match a.up with
    | .ok output => pure { result with output := trimSpace output }
    | .error output => do
      dropped (remove a.removeConfig result.path)
      fail ("项目启动失败，已移除新配置: " ++ trimSpace output)
  else pure result

/-- The configuration is written beside its place, checked, and renamed. -/
def installConfig (a : Answers) (tmp configPath text : String) : Prog Disk String Unit := do
  call a.chmod
  call a.write
  modify fun disk => Function.update disk tmp (some text)
  call a.close
  call (a.config.map fun output => "Compose 配置校验失败: " ++ trimSpace output)
  rename a.rename tmp configPath

def createComposeProject (a : Answers) (request : ComposeWizardRequest) :
    Prog Disk String ComposeWizardResult := do
  let project := trimSpace request.project
  let directory := clean (trimSpace request.directory)
  check (composeProjectPattern project = false) "Compose 项目名称无效"
  check (directory.rooted = false ∨ containsAny directory.text ['\x00', '\r', '\n'] = true)
    "Compose 目录必须是绝对路径"
  check (request.services.length < 1 ∨ 32 < request.services.length) "Compose 项目需要 1-32 个服务"
  let services ← read fun _ => writeServices table [] request.services
  call a.mkdirAll
  let configPath := entryPath directory "compose.yaml"
  check (a.stat = true) "目标目录已经存在 compose.yaml，请使用编辑功能"
  let random ← read fun _ => a.createTemp
  let tmp := entryPath directory (".compose-" ++ random ++ ".tmp")
  modify fun disk => Function.update disk tmp (some "")
  deferring (remove a.removeTemp tmp) do
    installConfig a tmp configPath ("# Generated by LukePanel\nservices:\n" ++ services)
    startProject a request.start ⟨project, configPath, ""⟩

end

end LukePanel.DockerApi.ComposeWizard
