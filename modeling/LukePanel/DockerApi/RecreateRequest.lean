import LukePanel.Library.GoStrings
import LukePanel.Library.SlashPath

/-! # The request to recreate a container

`RecreateRequest` and `validateRecreateRequest` of `internal/dockerapi/client.go`. -/
namespace LukePanel.DockerApi.RecreateRequest
open LukePanel.Library.GoStrings LukePanel.Library.SlashPath

structure EditPort where
  hostIP : String
  hostPort : String
  containerPort : String
  protocol : String
  deriving DecidableEq, Repr

structure EditMount where
  type : String
  source : String
  target : String
  readOnly : Bool
  deriving DecidableEq, Repr

structure Request where
  id : String
  name : String
  image : String
  env : List String
  cmd : List String
  entrypoint : List String
  workingDir : String
  user : String
  hostname : String
  restartPolicy : String
  restartMaximum : Int
  networkMode : String
  privileged : Bool
  ports : List EditPort
  mounts : List EditMount
  start : Bool
  deriving DecidableEq, Repr

/-! ## Strings -/

def isIdChar (c : Char) : Bool :=
  ('a' ≤ c && c ≤ 'z') || ('A' ≤ c && c ≤ 'Z') || c.isDigit || c == '_' || c == '-' || c == '.'

def validID (id : String) : Bool :=
  1 ≤ id.utf8ByteSize && id.utf8ByteSize ≤ 128 && id.toList.all isIdChar

/-- `strings.TrimPrefix(name, "/")` -/
def trimSlash (s : String) : String :=
  match s.toList with
  | '/' :: rest => String.ofList rest
  | _ => s

def validPort (s : String) : Bool :=
  match parseInt s with
  | some n => 1 ≤ n && n ≤ 65535
  | none => false

/-! ## Validation -/

def validateEnv (value : String) : Except String String :=
  let value := trimSpace value
  if value = "" then .ok ""
  else
    let key := value.toList.takeWhile (· != '=')
    if !value.toList.contains '=' || key.isEmpty ||
        containsAny (String.ofList key) [' ', '\t', '\r', '\n', '\x00'] then
      .error ("环境变量格式错误: " ++ value)
    else .ok value

section

variable (parseIP : String → Bool)

def validatePort (port : EditPort) : Except String EditPort := do
  let protocol := toLower (trimSpace port.protocol)
  let port : EditPort :=
    ⟨trimSpace port.hostIP, trimSpace port.hostPort, trimSpace port.containerPort,
      if protocol = "" then "tcp" else protocol⟩
  if port.protocol ∉ ["tcp", "udp", "sctp"] then throw "端口协议只支持 tcp、udp 或 sctp"
  if !validPort port.containerPort then throw "容器端口必须是 1-65535"
  if port.hostPort ≠ "" ∧ !validPort port.hostPort then throw "宿主机端口必须是 1-65535"
  if port.hostIP ≠ "" ∧ !parseIP port.hostIP then throw "宿主机监听 IP 无效"
  return port

def portKey (port : EditPort) : String :=
  port.hostIP ++ ":" ++ port.hostPort ++ ":" ++ port.containerPort ++ "/" ++ port.protocol

def validatePorts (seen : List String) : List EditPort → Except String (List EditPort)
  | [] => .ok []
  | port :: rest => do
    let port ← validatePort parseIP port
    if portKey port ∈ seen then throw "存在重复端口映射"
    return port :: (← validatePorts (portKey port :: seen) rest)

def validateMount (mount : EditMount) : Except String EditMount := do
  let source := trimSpace mount.source
  let target := trimSpace mount.target
  let mount : EditMount :=
    ⟨toLower (trimSpace mount.type), (clean source).text, (clean target).text, mount.readOnly⟩
  if mount.type ≠ "bind" ∧ mount.type ≠ "volume" then throw "挂载类型只支持 bind 或 volume"
  if !(clean target).rooted ∨ mount.target = "/" ∨ containsAny mount.target ['\x00', '\r', '\n'] then
    throw "容器挂载目标必须是绝对路径"
  if mount.type = "bind" then
    if !(clean source).rooted ∨ containsAny mount.source ['\x00', '\r', '\n'] then
      throw "绑定挂载源必须是宿主机绝对路径"
  else if !validID mount.source then throw "存储卷名称无效"
  return mount

def validateMounts (seen : List String) : List EditMount → Except String (List EditMount)
  | [] => .ok []
  | mount :: rest => do
    let mount ← validateMount mount
    if mount.target ∈ seen then throw "同一个容器目录不能重复挂载"
    return mount :: (← validateMounts (mount.target :: seen) rest)

def compactStrings (values : List String) : List String :=
  values.filter (· ≠ "")

/-- The request as it is carried out; `parseIP` is whether `net.ParseIP` accepts an address. -/
def validateRecreateRequest (request : Request) : Except String Request := do
  let networkMode := trimSpace request.networkMode
  let request := { request with
    name := trimSpace (trimSlash request.name)
    image := trimSpace request.image
    workingDir := trimSpace request.workingDir
    user := trimSpace request.user
    hostname := trimSpace request.hostname
    networkMode := if networkMode = "" then "default" else networkMode }
  if !validID request.id ∨ !validID request.name then
    throw "容器名称只能包含字母、数字、点、下划线和短横线"
  if request.image = "" ∨ 300 < request.image.utf8ByteSize ∨
      containsAny request.image ['\x00', '\r', '\n', '\t', ' '] then
    throw "镜像名称无效"
  if request.restartPolicy ∉ ["no", "always", "unless-stopped", "on-failure"] then
    throw "重启策略无效"
  let request := if request.restartPolicy ≠ "on-failure" then { request with restartMaximum := 0 }
    else request
  if request.restartMaximum < 0 ∨ 100000 < request.restartMaximum then throw "最大重试次数无效"
  if request.networkMode ∉ ["default", "bridge", "host", "none"] ∧ !validID request.networkMode then
    throw "网络模式无效"
  if request.networkMode = "host" ∧ request.ports ≠ [] then
    throw "Host 网络模式不能同时配置端口映射"
  if 1000 < request.env.length ∨ 256 < request.ports.length ∨ 256 < request.mounts.length ∨
      256 < request.cmd.length ∨ 64 < request.entrypoint.length then
    throw "容器配置项目过多"
  let env ← request.env.mapM validateEnv
  let ports ← validatePorts parseIP [] request.ports
  let mounts ← validateMounts [] request.mounts
  return { request with env := compactStrings env, ports, mounts }

end

example : (validateMount ⟨" Bind", "/srv//data/", "/data", false⟩).toOption =
    some ⟨"bind", "/srv/data", "/data", false⟩ := by decide +kernel

end LukePanel.DockerApi.RecreateRequest
