import Bakaneko.Messages
import Bakaneko.Rest

/-!
# The host behind the server

Everything outside the program answers through `Host`, on Linux: the commands,
the system bus and the OpenRC library. `get_service_manager` keeps its first
answer; before it has one, a failing system bus ends it with a D-Bus error
that none of its callers catches.
-/

set_option autoImplicit false

namespace Bakaneko.SystemBus
open Bakaneko.Native Bakaneko.Messages Bakaneko.Rest

inductive ServiceManager where
  | unknown | systemd | openrc
  deriving DecidableEq, Repr

structure DbusError where
  name : Bytes
  message : Bytes
  deriving DecidableEq

/-- What the server reads of an entry of `ListUnits`. -/
structure UnitEntry where
  name : Bytes
  description : Bytes
  path : Bytes
  deriving DecidableEq

/-- What one request finds outside the program. `exec` gives the exit status
of a command that could be started. -/
structure Host where
  config : Bytes
  openrc : Bool
  listNames : Except DbusError (List Bytes)
  exec : Bytes → Option ℤ
  connect : Except DbusError Unit
  loadUnit : Bytes → Except DbusError Bytes
  unitCall : Bytes → Bytes → Except DbusError Unit
  listUnits : Except DbusError (List UnitEntry)
  listUnitFiles : Except DbusError (List Bytes)
  fragmentPath : Bytes → Except DbusError Bytes
  description : Bytes → Except DbusError Bytes
  unitFileState : Bytes → Except DbusError Bytes
  activeState : Bytes → Except DbusError Bytes
  unitFiles : Bytes → Bool → Except DbusError Unit
  rcServiceResolve : Bytes → Option Bytes
  rcServiceAdd : Bytes → Bytes → Bool
  rcRunLevels : List Bytes
  rcServiceInRunLevel : Bytes → Bytes → Bool
  rcServices : Outcome Services
  drives : Outcome Drives
  system : Outcome System
  updates : Outcome Updates
  adapters : Outcome Adapters
  indeterminate : Action

def getServiceManager (host : Host) (manager : Option ServiceManager) :
    Except Failure ServiceManager :=
  match manager with
  | some m => .ok m
  | none =>
    if host.openrc then .ok .openrc
    else match host.listNames with
      | .error _ => .error .dbusError
      | .ok names =>
        .ok (if names.any (· = bytes "org.freedesktop.systemd1") then .systemd else .unknown)

def dbusFault (e : DbusError) : Failure :=
  .exception (.runtimeError (bytes "DBus Error: ("++e.name++bytes ") "++e.message))

/-- An answer of the bus inside the `try` of an endpoint. -/
def ask {α : Type} (answer : Except DbusError α) : Except Failure α := answer.mapError dbusFault

/-- A host without OpenRC whose system bus cannot be reached. -/
def busDown : Host where
  config := bytes "[admin]\npassword=d\n"
  openrc := false
  listNames := .error ⟨bytes "org.freedesktop.DBus.Error.FileNotFound", bytes "no bus"⟩
  exec _ := some 0
  connect := .error ⟨bytes "org.freedesktop.DBus.Error.FileNotFound", bytes "no bus"⟩
  loadUnit _ := .error ⟨[], []⟩
  unitCall _ _ := .error ⟨[], []⟩
  listUnits := .error ⟨[], []⟩
  listUnitFiles := .error ⟨[], []⟩
  fragmentPath _ := .error ⟨[], []⟩
  description _ := .error ⟨[], []⟩
  unitFileState _ := .error ⟨[], []⟩
  activeState _ := .error ⟨[], []⟩
  unitFiles _ _ := .error ⟨[], []⟩
  rcServiceResolve _ := none
  rcServiceAdd _ _ := false
  rcRunLevels := []
  rcServiceInRunLevel _ _ := false
  rcServices := .ok (.error .notImplemented)
  drives := .ok (.error .notImplemented)
  system := .ok (.error .notImplemented)
  updates := .ok (.error .notImplemented)
  adapters := .ok (.error .notImplemented)
  indeterminate := .stop

end Bakaneko.SystemBus
