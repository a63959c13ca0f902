import Bakaneko.Authenticate
import Bakaneko.SystemdUnits

/-!
# The endpoints of a host

The endpoints that ask for the service manager or change the host, on Linux,
and the server process that takes one request after the other.
-/

set_option autoImplicit false

namespace Bakaneko.HostControl
open Bakaneko.Native Bakaneko.Messages Bakaneko.Rest Bakaneko.Authenticate Bakaneko.SystemBus
open Bakaneko.SystemdUnits

def systemdTypes : List Bytes := [
  bytes "All", bytes "Service", bytes "Socket", bytes "Device", bytes "Mount", bytes "Automount",
  bytes "Swap", bytes "Target", bytes "Path", bytes "Timer", bytes "Snapshot", bytes "Slice",
  bytes "Scope"]

def infoService (host : Host) (manager : Option ServiceManager) : Outcome ServiceInfo :=
  match getServiceManager host manager with
  | .error e => .error e
  | .ok .systemd => .ok (.ok ⟨bytes "systemd", systemdTypes⟩)
  | .ok .openrc => .ok (.ok ⟨bytes "openrc", [bytes "All", bytes "Service"]⟩)
  | .ok .unknown => .ok (.error .notImplemented)

/-- The type in the request makes no difference on Linux. -/
def infoServices (host : Host) (manager : Option ServiceManager) (_data : ServicesRequest) :
    Outcome Services :=
  match getServiceManager host manager with
  | .error e => .error e
  | .ok .systemd => systemdServices host
  | .ok .openrc => host.rcServices
  | .ok .unknown => .ok (.error .notImplemented)

def popenFailed : Failure := .exception (.runtimeError (bytes "popen() failed!"))

/-- One command that changes the host. -/
def runCommand (host : Host) (text : Bytes) (next : ℤ → Reply Unit) : Reply Unit :=
  match host.exec text with
  | none => { outcome := .error popenFailed }
  | some exit =>
    let reply := next exit
    { reply with performed := .command text::reply.performed }

def succeed : Reply Unit := { outcome := .ok (.ok ()) }

def refuse (e : Errors) : Reply Unit := { outcome := .ok (.error e) }

def powerCommands (host : Host) (first second : Bytes) : Reply Unit :=
  runCommand host first fun exit =>
    if exit ≠ 0 then runCommand host second fun exit =>
      if exit ≠ 0 then refuse .failed else succeed
    else succeed

def shutdown (host : Host) : Reply Unit :=
  powerCommands host (bytes "poweroff now") (bytes "shutdown now")

def reboot (host : Host) : Reply Unit :=
  powerCommands host (bytes "reboot now") (bytes "shutdown -r now")

def onBus {α : Type} (answer : Except DbusError α) (next : α → Reply Unit) : Reply Unit :=
  match answer with
  | .error e => { outcome := .error (dbusFault e) }
  | .ok a => next a

def callUnit (host : Host) (path method : Bytes) : Reply Unit :=
  { onBus (host.unitCall path method) fun _ => succeed with performed := [.unitCall path method] }

def changeUnitFiles (host : Host) (path id : Bytes) (enabled : Bool) : Reply Unit :=
  onBus (host.fragmentPath path) fun fragment =>
    if fragment = [] then refuse .failed
    else { onBus (host.unitFiles id enabled) fun _ => succeed with
      performed := [.unitFiles id enabled] }

def controlSystemd (host : Host) (data : Control) : Reply Unit :=
  onBus host.connect fun _ =>
    { onBus (host.loadUnit data.id) fun path => match data.action with
      | .stop => callUnit host path (bytes "Stop")
      | .start => callUnit host path (bytes "Start")
      | .restart => callUnit host path (bytes "Restart")
      | .enable => changeUnitFiles host path data.id true
      | .disable => changeUnitFiles host path data.id false
      | .undeclared _ => refuse .notImplemented with
      loaded := [data.id] }

def rcCommand (host : Host) (text : Bytes) : Reply Unit :=
  runCommand host text fun exit => if exit ≠ 0 then refuse .failed else succeed

/-- A service OpenRC cannot resolve is a null pointer made into a string. -/
def unresolved : Failure :=
  .exception (.logicError (bytes "basic_string: construction from null is not valid"))

def leaveRunLevels (host : Host) (id : Bytes) : List Operation :=
  (host.rcRunLevels.filter (host.rcServiceInRunLevel id)).map (.runLevel · id false)

def controlResolved (host : Host) (path : Bytes) (data : Control) : Reply Unit :=
  match data.action with
  | .stop => rcCommand host (path++bytes " stop")
  | .start => rcCommand host (path++bytes " start")
  | .restart => rcCommand host (path++bytes " restart")
  | .enable =>
    { (if host.rcServiceAdd (bytes "default") data.id then succeed else refuse .failed) with
      performed := [.runLevel (bytes "default") data.id true] }
  | .disable => { succeed with performed := leaveRunLevels host data.id }
  | .undeclared _ => refuse .notImplemented

def controlOpenrc (host : Host) (data : Control) : Reply Unit :=
  match host.rcServiceResolve data.id with
  | none => { outcome := .error unresolved }
  | some path => controlResolved host path data

/-- `Control::Service` behind its two checks of the password. -/
def performControl (host : Host) (manager : Option ServiceManager) (data : Control) : Reply Unit :=
  match getServiceManager host manager with
  | .error e => { outcome := .error e }
  | .ok .systemd => controlSystemd host data
  | .ok .openrc => controlOpenrc host data
  | .ok .unknown => refuse .notImplemented

def controlService (host : Host) (manager : Option ServiceManager) (fields : Fields)
    (data : Control) : Reply Unit :=
  match fields.authentication with
  | none => refuse .needsPassword
  | some authentication => match authenticate host.config authentication with
    | .error e => { outcome := .error e }
    | .ok false => refuse .needsPassword
    | .ok true => performControl host manager data

def endpoints (host : Host) (manager : Option ServiceManager) : Endpoints where
  drives _ := { outcome := host.drives }
  system _ := { outcome := host.system }
  updates _ := { outcome := host.updates }
  adapters _ := { outcome := host.adapters }
  service _ := { outcome := infoService host manager }
  services _ data := { outcome := infoServices host manager data }
  shutdown _ := shutdown host
  reboot _ := reboot host
  controlService := controlService host manager
  indeterminate := host.indeterminate

/-- Whether handling the request gets as far as `get_service_manager`. -/
def asksManager (json : Nlohmann) (host : Host) (req : Request) : Bool :=
  match route req with
  | some .service => true
  | some .services => (readBody json ServicesRequest.fromJson {} req).isOk
  | some .controlService =>
    (readBody json Control.fromJson ⟨[], host.indeterminate⟩ req).isOk &&
      (req.authorization.any fun a => decide (authenticate host.config a = .ok true))
  | _ => false

/-- The static variable of `get_service_manager` after the request. -/
def remembered (json : Nlohmann) (host : Host) (req : Request) (manager : Option ServiceManager) :
    Option ServiceManager :=
  if asksManager json host req then (getServiceManager host manager).toOption else manager

structure Visit where
  host : Host
  req : Request

def handled (json : Nlohmann) (visit : Visit) (manager : Option ServiceManager) : Handled :=
  handler json (endpoints visit.host manager) visit.req

/-- The server process over one request; what leaves the handler ends it. -/
def serve (json : Nlohmann) (visit : Visit) (manager : Option ServiceManager) :
    Except Failure (Option ServiceManager) :=
  match (handled json visit manager).escaped with
  | some e => .error e
  | none => .ok (remembered json visit.host visit.req manager)

end Bakaneko.HostControl
