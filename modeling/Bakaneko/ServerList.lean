import Bakaneko.HostControl

/-!
# The list of servers

The client adds a server in three steps: a `HEAD` request that has to be
answered 302, a request for the system information on the same connection,
and the new entry in the list and in the settings. The server answers the
second request with 415 whatever its host reports, as the client asks for a
type the server does not speak.
-/

set_option autoImplicit false

namespace Bakaneko.ServerList
open Bakaneko.Native Bakaneko.Messages Bakaneko.Rest Bakaneko.SystemBus Bakaneko.HostControl

structure Entry where
  hostname : Bytes
  mac : Bytes
  ip : Bytes
  deriving DecidableEq

/-- The array `servers` of the settings file, by index. -/
structure Settings where
  size : ℕ
  entries : ℕ → Option Entry

structure ServerManager where
  servers : List Entry
  settings : Settings

/-- The other end of the connection; nothing where the transport fails. -/
structure Peer where
  connects : Bool
  exchange : Request → Option Response

def rootRequest : Request := { method := .head, target := bytes "/" }

def systemRequest : Request :=
  { method := .get, target := bytes "/system", contentType := some (bytes "application/x-protobuf") }

def checkIfServer (peer : Peer) : Bool :=
  peer.connects && (peer.exchange rootRequest).any (·.status = 302)

def getSystemInfo (json : Nlohmann) (peer : Peer) : Except StdException System :=
  match peer.exchange systemRequest with
  | none => .ok {}
  | some res =>
    if res.status ≠ 200 then .ok {}
    else match json.parse res.body with
      | .error e => .error e
      | .ok j => System.fromJson j

def Settings.write (settings : Settings) (size index : ℕ) (entry : Entry) : Settings :=
  ⟨size, fun i => if i = index then some entry else settings.entries i⟩

def setServer (manager : ServerManager) (index : ℕ) (entry : Entry) :
    Except Failure ServerManager :=
  if index ≤ manager.servers.length then
    let servers := if index = manager.servers.length then manager.servers++[entry]
      else manager.servers.set index entry
    .ok ⟨servers, manager.settings.write servers.length index entry⟩
  else .error (.undefined .pastEnd)

def changeServerOptions (json : Nlohmann) (peer : Peer) (index : ℕ) (ip : Bytes)
    (manager : ServerManager) : Except Failure ServerManager :=
  if checkIfServer peer then match getSystemInfo json peer with
    | .error e => .error (.exception e)
    | .ok info =>
      if info.hostname = [] ∨ info.macAddress = [] ∨ info.ipAddress = [] then .ok manager
      else setServer manager index ⟨info.hostname, info.macAddress, ip⟩
  else .ok manager

def AddServer (json : Nlohmann) (peer : Peer) (ip : Bytes) (manager : ServerManager) :
    Except Failure ServerManager :=
  changeServerOptions json peer manager.servers.length ip manager

/-- A host that runs the server of this repository. -/
def restPeer (json : Nlohmann) (host : Host) (services : Option SystemBus.ServiceManager) : Peer where
  connects := true
  exchange req := (handler json (endpoints host services) req).sent.head?

/-- The entry is appended to the list and written to the settings. -/
def Adds (json : Nlohmann) (peer : Peer) (ip : Bytes) (info : System) (manager : ServerManager) :
    Prop :=
  ∃ after, AddServer json peer ip manager = .ok after ∧
    after.servers = manager.servers++[⟨info.hostname, info.macAddress, ip⟩] ∧
    after.settings = manager.settings.write (manager.servers.length+1) manager.servers.length
      ⟨info.hostname, info.macAddress, ip⟩

/-- A response to a request that does not ask for JSON carries no value. -/
theorem run_untyped {α : Type} (json : Nlohmann) (render : α → Json) (req : Request)
    (reply : Reply α) (hreq : req.contentType ≠ some applicationJson) (r : Response)
    (hr : (Run json (some render) req reply).sent.head? = some r) : r.status ≠ 200 := by
  unfold Run at hr
  split at hr
  case h_1 value _ =>
    rw [respond, if_neg hreq] at hr
    cases hr
    simp [plain]
  all_goals
    cases hr
    try simp [plain, unauthorized]

theorem getSystemInfo_rest (json : Nlohmann) (host : Host)
    (services : Option SystemBus.ServiceManager) :
    getSystemInfo json (restPeer json host services) = .ok {} := by
  have hroute : route systemRequest = some .system := by decide
  have htype : systemRequest.contentType ≠ some applicationJson := by decide
  simp only [getSystemInfo, restPeer]
  cases hr : (handler json (endpoints host services) systemRequest).sent.head? with
  | none => rfl
  | some r =>
    rw [handler_route _ _ _ _ hroute] at hr
    exact if_pos (run_untyped json _ _ _ htype r hr)

theorem addServer_rest (json : Nlohmann) (host : Host)
    (services : Option SystemBus.ServiceManager) (ip : Bytes) (manager : ServerManager) :
    AddServer json (restPeer json host services) ip manager = .ok manager := by
  unfold AddServer changeServerOptions
  rw [getSystemInfo_rest]
  split <;> rfl

theorem not_adds (json : Nlohmann) (peer : Peer) (ip : Bytes) (info : System)
    (manager : ServerManager) (h : AddServer json peer ip manager = .ok manager) :
    ¬ Adds json peer ip info manager := by
  rintro ⟨after, ha, hs, -⟩
  obtain rfl : manager = after := Except.ok.inj (h.symm.trans ha)
  have hl := congrArg List.length hs
  simp at hl

/-- No host that runs this server can be added. -/
theorem never_added (json : Nlohmann) (host : Host) (services : Option SystemBus.ServiceManager)
    (ip : Bytes) (info : System) (manager : ServerManager) :
    ¬ Adds json (restPeer json host services) ip info manager :=
  not_adds json _ ip info manager (addServer_rest json host services ip manager)

def homeSystem : System :=
  { hostname := bytes "home", macAddress := bytes "00:11:22:33:44:55",
    ipAddress := bytes "192.168.0.2" }

def homeHost : Host := { busDown with system := .ok (.ok homeSystem) }

/-- A JSON library that prints and reads back the home system. -/
def homeJson : Nlohmann := ⟨fun _ => .ok (System.toJson homeSystem), fun _ => .ok (bytes "home")⟩

/-- The host answers the ping and reports its name and addresses, and the
empty list stays empty. -/
theorem home_not_added :
    checkIfServer (restPeer homeJson homeHost none) = true ∧
    homeHost.system = .ok (.ok homeSystem) ∧
    homeSystem.hostname ≠ [] ∧ homeSystem.macAddress ≠ [] ∧ homeSystem.ipAddress ≠ [] ∧
    ¬ Adds homeJson (restPeer homeJson homeHost none) (bytes "192.168.0.2") homeSystem
      ⟨[], ⟨0, fun _ => none⟩⟩ :=
  ⟨rfl, rfl, by decide, by decide, by decide,
    not_adds _ _ _ _ _ (addServer_rest homeJson homeHost none _ _)⟩

end Bakaneko.ServerList
