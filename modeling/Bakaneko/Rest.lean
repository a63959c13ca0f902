import Bakaneko.Messages

/-!
# The REST server

`handler` picks the endpoint for a request and `Run` turns what the endpoint
ends with into a response. Only exceptions of the standard library are caught
there; anything else leaves the handler. An endpoint also reports what it
did to the host.
-/

set_option autoImplicit false

namespace Bakaneko.Rest
open Bakaneko.Native Bakaneko.Messages

inductive Verb where
  | get | head | post | other
  deriving DecidableEq, Repr

structure Request where
  method : Verb
  target : Bytes
  authorization : Option Bytes := none
  contentType : Option Bytes := none
  keepAlive : Bool := true
  body : Bytes := []
  deriving DecidableEq

/-- A response; `keepAlive` is empty where the source leaves it alone. -/
structure Response where
  status : ℕ
  contentType : Option Bytes := none
  wwwAuthenticate : Option Bytes := none
  keepAlive : Option Bool := none
  body : Bytes := []
  deriving DecidableEq

inductive Errors where
  | none | notImplemented | failed | needsPassword
  deriving DecidableEq, Repr

structure Fields where
  authentication : Option Bytes
  deriving DecidableEq

abbrev Outcome (α : Type) := Except Failure (Except Errors α)

/-- A step that changes the host: a command, a call on a unit or its files, a
service added to or deleted from a run level. -/
inductive Operation where
  | command (text : Bytes)
  | unitCall (path method : Bytes)
  | unitFiles (id : Bytes) (enabled : Bool)
  | runLevel (level id : Bytes) (added : Bool)
  deriving DecidableEq

/-- How an endpoint ends, what it did on the way and the names it has given
to `LoadUnit`. -/
structure Reply (α : Type) where
  outcome : Outcome α
  performed : List Operation := []
  loaded : List Bytes := []

structure Endpoints where
  drives : Fields → Reply Drives
  system : Fields → Reply System
  updates : Fields → Reply Updates
  adapters : Fields → Reply Adapters
  service : Fields → Reply ServiceInfo
  services : Fields → ServicesRequest → Reply Services
  shutdown : Fields → Reply Unit
  reboot : Fields → Reply Unit
  controlService : Fields → Control → Reply Unit
  /-- The action of a `Control` that no body has set. -/
  indeterminate : Action

structure Handled where
  sent : List Response
  escaped : Option Failure
  performed : List Operation

def applicationJson : Bytes := bytes "application/json"

def plain (status : ℕ) (req : Request) : Response := { status, keepAlive := some req.keepAlive }

def unauthorized (req : Request) : Response :=
  { plain 401 req with wwwAuthenticate := some (bytes "Basic realm=\"User Visible Realm\"") }

/-- The message read from the body, or the one the source starts with. -/
def readBody {β : Type} (json : Nlohmann) (fromJson : Json → Except StdException β) (initial : β)
    (req : Request) : Except StdException β :=
  if req.body.length ≠ 0 then match json.parse req.body with
    | .error e => .error e
    | .ok j => fromJson j
  else .ok initial

def withBody {α β : Type} (body : Except StdException β) (call : β → Reply α) : Reply α :=
  match body with
  | .error e => { outcome := .error (.exception e) }
  | .ok data => call data

/-- The response to a value; `render` is missing for `void`. -/
def respond {α : Type} (json : Nlohmann) (render : Option (α → Json)) (req : Request) (value : α) :
    Response :=
  match render with
  | none => { status := 200 }
  | some render =>
    if req.contentType = some applicationJson then match json.dump (render value) with
      | .error _ => plain 500 req
      | .ok body => { status := 200, contentType := some applicationJson, body }
    else plain 415 req

def Run {α : Type} (json : Nlohmann) (render : Option (α → Json)) (req : Request)
    (reply : Reply α) : Handled :=
  match reply.outcome with
  | .ok (.ok value) => ⟨[respond json render req value], none, reply.performed⟩
  | .ok (.error .notImplemented) => ⟨[plain 501 req], none, reply.performed⟩
  | .ok (.error .failed) => ⟨[plain 500 req], none, reply.performed⟩
  | .ok (.error .needsPassword) => ⟨[unauthorized req], none, reply.performed⟩
  | .ok (.error .none) => ⟨[], none, reply.performed⟩
  | .error (.exception _) => ⟨[plain 500 req], none, reply.performed⟩
  | .error failure => ⟨[], some failure, reply.performed⟩

inductive Route where
  | drives | system | updates | adapters | service | services
  | shutdown | reboot | controlService
  deriving DecidableEq, Repr

def route (req : Request) : Option Route :=
  if req.method = .get ∧ req.target = bytes "/drives" then some .drives
  else if req.method = .get ∧ req.target = bytes "/system" then some .system
  else if req.method = .get ∧ req.target = bytes "/updates" then some .updates
  else if req.method = .get ∧ req.target = bytes "/network/adapters" then some .adapters
  else if req.method = .get ∧ req.target = bytes "/service" then some .service
  else if req.method = .get ∧ req.target = bytes "/services" then some .services
  else if req.method = .post ∧ req.target = bytes "/power/shutdown" then some .shutdown
  else if req.method = .post ∧ req.target = bytes "/power/reboot" then some .reboot
  else if req.method = .post ∧ req.target = bytes "/service" then some .controlService
  else none

section
variable (json : Nlohmann) (endpoints : Endpoints) (req : Request)

def servicesReply : Reply Services :=
  withBody (readBody json ServicesRequest.fromJson {} req)
    (endpoints.services ⟨req.authorization⟩)

def controlReply : Reply Unit :=
  withBody (readBody json Control.fromJson ⟨[], endpoints.indeterminate⟩ req)
    (endpoints.controlService ⟨req.authorization⟩)

def runRoute : Route → Handled
  | .drives => Run json (some Drives.toJson) req (endpoints.drives ⟨req.authorization⟩)
  | .system => Run json (some System.toJson) req (endpoints.system ⟨req.authorization⟩)
  | .updates => Run json (some Updates.toJson) req (endpoints.updates ⟨req.authorization⟩)
  | .adapters => Run json (some Adapters.toJson) req (endpoints.adapters ⟨req.authorization⟩)
  | .service => Run json (some ServiceInfo.toJson) req (endpoints.service ⟨req.authorization⟩)
  | .services => Run json (some Services.toJson) req (servicesReply json endpoints req)
  | .shutdown => Run json none req (endpoints.shutdown ⟨req.authorization⟩)
  | .reboot => Run json none req (endpoints.reboot ⟨req.authorization⟩)
  | .controlService => Run json none req (controlReply json endpoints req)

def handler : Handled :=
  if req.target = bytes "/" then ⟨[plain 302 req], none, []⟩
  else match route req with
    | some r => runRoute json endpoints req r
    | none => ⟨[plain 404 req], none, []⟩

end

/-- `Run` passes on what the endpoint did, whatever it ends with. -/
@[simp] theorem run_performed {α : Type} (json : Nlohmann) (render : Option (α → Json))
    (req : Request) (reply : Reply α) :
    (Run json render req reply).performed = reply.performed := by
  unfold Run
  repeat' split
  all_goals rfl

theorem route_root (req : Request) (h : req.target = bytes "/") : route req = none := by
  simp +decide [route, h]

/-- A request with a route goes there. -/
theorem handler_route (json : Nlohmann) (endpoints : Endpoints) (req : Request) (r : Route)
    (hr : route req = some r) : handler json endpoints req = runRoute json endpoints req r := by
  have ht : req.target ≠ bytes "/" := by
    intro h
    rw [route_root req h] at hr
    cases hr
  rw [handler, if_neg ht, hr]

end Bakaneko.Rest
