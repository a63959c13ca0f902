import Bakaneko.Native

/-!
# Messages

The structures client and server exchange, with the conversions the
generated `to_json` and `from_json` make. Reading a field that is missing or
of another type throws, and an enumeration takes any number as a value.
-/

set_option autoImplicit false

namespace Bakaneko.Messages
open Bakaneko.Native

/-- A JSON value; a number that is no integer by the integer it is cast to. -/
inductive Json where
  | null
  | boolean (b : Bool)
  | number (n : ℤ)
  | float (n : ℤ)
  | text (s : Bytes)
  | array (elements : List Json)
  | object (fields : List (Bytes × Json))

/-- The parser and the printer of the JSON library. -/
structure Nlohmann where
  parse : Bytes → Except StdException Json
  dump : Json → Except StdException Bytes

def atKey (key : String) : Json → Except StdException Json
  | .object fields => match fields.find? fun f => f.1 = bytes key with
    | some f => .ok f.2
    | none => .error .json
  | _ => .error .json

def getText : Json → Except StdException Bytes
  | .text s => .ok s
  | _ => .error .json

/-- An enumerator is read through its underlying `unsigned int`. -/
def getEnum : Json → Except StdException ℕ
  | .number n => .ok (n%4294967296).toNat
  | .float n => .ok (n%4294967296).toNat
  | _ => .error .json

def textField (key : String) (j : Json) : Except StdException Bytes :=
  match atKey key j with
  | .error e => .error e
  | .ok j => getText j

/-- `at` and the conversion of what it finds. -/
def field {α : Type} (get : Json → Except StdException α) (key : String) (j : Json) :
    Except StdException α :=
  match atKey key j with
  | .error e => .error e
  | .ok j => get j

/-- A `uint64_t`, cast from any kind of number. -/
def getUnsigned : Json → Except StdException ℕ
  | .number n => .ok (n%18446744073709551616).toNat
  | .float n => .ok (n%18446744073709551616).toNat
  | _ => .error .json

def getBoolean : Json → Except StdException Bool
  | .boolean b => .ok b
  | _ => .error .json

def getArray {α : Type} (get : Json → Except StdException α) : Json → Except StdException (List α)
  | .array elements => elements.mapM get
  | _ => .error .json

def record (fields : List (String × Json)) : Json := .object (fields.map fun f => (bytes f.1, f.2))

/-- The numbers a `uint64_t` can have. -/
def IsUInt64 (n : ℕ) : Prop := n < 18446744073709551616

structure System where
  hostname : Bytes := []
  macAddress : Bytes := []
  ipAddress : Bytes := []
  operatingSystem : Bytes := []
  kernel : Bytes := []
  architecture : Bytes := []
  vmPlatform : Bytes := []
  icon : Bytes := []
  deriving DecidableEq

def System.keys : List String :=
  ["hostname", "mac_address", "ip_address", "operating_system", "kernel", "architecture",
    "vm_platform", "icon"]

def System.toJson (s : System) : Json := record [
  ("hostname", .text s.hostname), ("mac_address", .text s.macAddress),
  ("ip_address", .text s.ipAddress), ("operating_system", .text s.operatingSystem),
  ("kernel", .text s.kernel), ("architecture", .text s.architecture),
  ("vm_platform", .text s.vmPlatform), ("icon", .text s.icon)]

def System.fromJson (j : Json) : Except StdException System := do
  let hostname ← textField "hostname" j
  let macAddress ← textField "mac_address" j
  let ipAddress ← textField "ip_address" j
  let operatingSystem ← textField "operating_system" j
  let kernel ← textField "kernel" j
  let architecture ← textField "architecture" j
  let vmPlatform ← textField "vm_platform" j
  let icon ← textField "icon" j
  return { hostname, macAddress, ipAddress, operatingSystem, kernel, architecture, vmPlatform, icon }

structure Partition where
  devNode : Bytes
  size : ℕ
  used : ℕ
  mountpoint : Bytes
  filesystem : Bytes
  deriving DecidableEq

def Partition.keys : List String := ["dev_node", "size", "used", "mountpoint", "filesystem"]

/-- What the fields of the source's type can hold. -/
def Partition.Held (p : Partition) : Prop := IsUInt64 p.size ∧ IsUInt64 p.used

def Partition.toJson (p : Partition) : Json := record [
  ("dev_node", .text p.devNode), ("size", .number p.size), ("used", .number p.used),
  ("mountpoint", .text p.mountpoint), ("filesystem", .text p.filesystem)]

def Partition.fromJson (j : Json) : Except StdException Partition := do
  let devNode ← field getText "dev_node" j
  let size ← field getUnsigned "size" j
  let used ← field getUnsigned "used" j
  let mountpoint ← field getText "mountpoint" j
  let filesystem ← field getText "filesystem" j
  return { devNode, size, used, mountpoint, filesystem }

structure Drive where
  devNode : Bytes
  size : ℕ
  model : Bytes
  manufacturer : Bytes
  interface : Bytes
  partitions : List Partition
  deriving DecidableEq

def Drive.keys : List String :=
  ["dev_node", "size", "model", "manufacturer", "interface", "partitions"]

def Drive.Held (d : Drive) : Prop := IsUInt64 d.size ∧ ∀ p ∈ d.partitions, p.Held

def Drive.toJson (d : Drive) : Json := record [
  ("dev_node", .text d.devNode), ("size", .number d.size), ("model", .text d.model),
  ("manufacturer", .text d.manufacturer), ("interface", .text d.interface),
  ("partitions", .array (d.partitions.map Partition.toJson))]

def Drive.fromJson (j : Json) : Except StdException Drive := do
  let devNode ← field getText "dev_node" j
  let size ← field getUnsigned "size" j
  let model ← field getText "model" j
  let manufacturer ← field getText "manufacturer" j
  let interface ← field getText "interface" j
  let partitions ← field (getArray Partition.fromJson) "partitions" j
  return { devNode, size, model, manufacturer, interface, partitions }

structure Drives where
  drives : List Drive
  deriving DecidableEq

def Drives.keys : List String := ["drives"]

def Drives.Held (d : Drives) : Prop := ∀ drive ∈ d.drives, drive.Held

def Drives.toJson (d : Drives) : Json := record [("drives", .array (d.drives.map Drive.toJson))]

def Drives.fromJson (j : Json) : Except StdException Drives := do
  let drives ← field (getArray Drive.fromJson) "drives" j
  return { drives }

structure Update where
  source : Bytes
  name : Bytes
  oldVersion : Bytes
  newVersion : Bytes
  deriving DecidableEq

def Update.keys : List String := ["source", "name", "old_version", "new_version"]

def Update.toJson (u : Update) : Json := record [
  ("source", .text u.source), ("name", .text u.name), ("old_version", .text u.oldVersion),
  ("new_version", .text u.newVersion)]

def Update.fromJson (j : Json) : Except StdException Update := do
  let source ← field getText "source" j
  let name ← field getText "name" j
  let oldVersion ← field getText "old_version" j
  let newVersion ← field getText "new_version" j
  return { source, name, oldVersion, newVersion }

structure Updates where
  updates : List Update
  deriving DecidableEq

def Updates.keys : List String := ["updates"]

def Updates.toJson (u : Updates) : Json :=
  record [("updates", .array (u.updates.map Update.toJson))]

def Updates.fromJson (j : Json) : Except StdException Updates := do
  let updates ← field (getArray Update.fromJson) "updates" j
  return { updates }

structure Adapter where
  name : Bytes
  state : ℕ
  linkSpeed : ℕ
  mtu : ℕ
  macAddress : Bytes
  ipAddress : Bytes
  bytesRx : ℕ
  bytesTx : ℕ
  time : ℕ
  deriving DecidableEq

def Adapter.keys : List String :=
  ["name", "state", "link_speed", "mtu", "mac_address", "ip_address", "bytes_rx", "bytes_tx",
    "time"]

/-- The declared states are `Down` and `Up`. -/
structure Adapter.Held (a : Adapter) : Prop where
  state : a.state = 0 ∨ a.state = 1
  linkSpeed : IsUInt64 a.linkSpeed
  mtu : IsUInt64 a.mtu
  bytesRx : IsUInt64 a.bytesRx
  bytesTx : IsUInt64 a.bytesTx
  time : IsUInt64 a.time

def Adapter.toJson (a : Adapter) : Json := record [
  ("name", .text a.name), ("state", .number a.state), ("link_speed", .number a.linkSpeed),
  ("mtu", .number a.mtu), ("mac_address", .text a.macAddress), ("ip_address", .text a.ipAddress),
  ("bytes_rx", .number a.bytesRx), ("bytes_tx", .number a.bytesTx), ("time", .number a.time)]

def Adapter.fromJson (j : Json) : Except StdException Adapter := do
  let name ← field getText "name" j
  let state ← field getEnum "state" j
  let linkSpeed ← field getUnsigned "link_speed" j
  let mtu ← field getUnsigned "mtu" j
  let macAddress ← field getText "mac_address" j
  let ipAddress ← field getText "ip_address" j
  let bytesRx ← field getUnsigned "bytes_rx" j
  let bytesTx ← field getUnsigned "bytes_tx" j
  let time ← field getUnsigned "time" j
  return { name, state, linkSpeed, mtu, macAddress, ipAddress, bytesRx, bytesTx, time }

structure Adapters where
  adapters : List Adapter
  deriving DecidableEq

def Adapters.keys : List String := ["adapters"]

def Adapters.Held (a : Adapters) : Prop := ∀ adapter ∈ a.adapters, adapter.Held

def Adapters.toJson (a : Adapters) : Json :=
  record [("adapters", .array (a.adapters.map Adapter.toJson))]

def Adapters.fromJson (j : Json) : Except StdException Adapters := do
  let adapters ← field (getArray Adapter.fromJson) "adapters" j
  return { adapters }

structure ServiceInfo where
  server : Bytes
  types : List Bytes
  deriving DecidableEq

def ServiceInfo.keys : List String := ["server", "types"]

def ServiceInfo.toJson (i : ServiceInfo) : Json :=
  record [("server", .text i.server), ("types", .array (i.types.map .text))]

def ServiceInfo.fromJson (j : Json) : Except StdException ServiceInfo := do
  let server ← field getText "server" j
  let types ← field (getArray getText) "types" j
  return { server, types }

structure ServicesRequest where
  type : Bytes := []
  deriving DecidableEq

def ServicesRequest.keys : List String := ["type"]

def ServicesRequest.toJson (r : ServicesRequest) : Json := record [("type", .text r.type)]

def ServicesRequest.fromJson (j : Json) : Except StdException ServicesRequest := do
  let type ← textField "type" j
  return { type }

inductive State where
  | stopped | running | starting | stopping
  | undeclared (value : ℕ)
  deriving DecidableEq, Repr

def State.value : State → ℕ
  | .stopped => 0
  | .running => 1
  | .starting => 2
  | .stopping => 3
  | .undeclared n => n

def State.ofValue : ℕ → State
  | 0 => .stopped
  | 1 => .running
  | 2 => .starting
  | 3 => .stopping
  | n => .undeclared n

structure Service where
  id : Bytes
  state : State
  enabled : Bool
  type : Bytes
  displayName : Bytes
  description : Bytes
  deriving DecidableEq

def Service.keys : List String := ["id", "state", "enabled", "type", "display_name", "description"]

/-- The state is a declared one. -/
def Service.Held (s : Service) : Prop := ∀ n, s.state ≠ .undeclared n

def Service.toJson (s : Service) : Json := record [
  ("id", .text s.id), ("state", .number s.state.value), ("enabled", .boolean s.enabled),
  ("type", .text s.type), ("display_name", .text s.displayName),
  ("description", .text s.description)]

def Service.fromJson (j : Json) : Except StdException Service := do
  let id ← field getText "id" j
  let state ← field getEnum "state" j
  let enabled ← field getBoolean "enabled" j
  let type ← field getText "type" j
  let displayName ← field getText "display_name" j
  let description ← field getText "description" j
  return { id, state := .ofValue state, enabled, type, displayName, description }

structure Services where
  services : List Service
  deriving DecidableEq

def Services.keys : List String := ["services"]

def Services.Held (s : Services) : Prop := ∀ service ∈ s.services, service.Held

def Services.toJson (s : Services) : Json :=
  record [("services", .array (s.services.map Service.toJson))]

def Services.fromJson (j : Json) : Except StdException Services := do
  let services ← field (getArray Service.fromJson) "services" j
  return { services }

inductive Action where
  | stop | start | restart | enable | disable
  | undeclared (value : ℕ)
  deriving DecidableEq, Repr

def Action.ofValue : ℕ → Action
  | 0 => .stop
  | 1 => .start
  | 2 => .restart
  | 3 => .enable
  | 4 => .disable
  | n => .undeclared n

def Action.value : Action → ℕ
  | .stop => 0
  | .start => 1
  | .restart => 2
  | .enable => 3
  | .disable => 4
  | .undeclared n => n

structure Control where
  id : Bytes
  action : Action
  deriving DecidableEq

def Control.keys : List String := ["id", "action"]

def Control.Held (c : Control) : Prop := ∀ n, c.action ≠ .undeclared n

def Control.toJson (c : Control) : Json := record [
  ("id", .text c.id), ("action", .number c.action.value)]

def Control.fromJson (j : Json) : Except StdException Control := do
  let id ← textField "id" j
  let action ← match atKey "action" j with
    | .error e => .error e
    | .ok j => getEnum j
  return { id, action := .ofValue action }

end Bakaneko.Messages
