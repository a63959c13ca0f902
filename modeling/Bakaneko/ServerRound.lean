import Bakaneko.Messages
import Bakaneko.Library.CountingLatch

/-!
# Rounds of a server

The client polls a server in rounds. `update_info` pings it and sends
requests, each on a thread of its own, and every reply ends in a slot of the
server. The round is over when the latch `steps_done` has been counted down
`max_steps` times, and until then further calls do nothing. The calls run on the
threads of a pool: one looks at the latch and then sets it, so that two may
find it at zero and both begin a round.
-/

set_option autoImplicit false

namespace Bakaneko.ServerRound
open Bakaneko.Native Bakaneko.Messages CountingLatch

inductive State where
  | unknown | online | offline
  deriving DecidableEq, Repr

inductive Page where
  | adapters | drives | updates | services
  deriving DecidableEq, Repr

inductive Signal where
  | thisOnline | thisOffline | changedState | changedHostname | changedEnabledPages
  | changedOs | changedIcon | changedKernel | changedArch | changedServiceManager
  deriving DecidableEq, Repr

structure Server where
  state : State := .unknown
  hostname : Bytes
  defualtHostname : Bytes := hostname
  avaliable : Page → Bool := fun _ => false
  systemInfo : System := {}
  serviceManager : Bytes := []
  serviceTypes : List Bytes := []
  emitted : List Signal := []

/-- What a request meets with: an exception of the transport, or a response
with its status and the message its body is read as, if it can be. -/
inductive Reply (α : Type) where
  | failed
  | response (status : ℕ) (info : Option α)
  deriving DecidableEq

/-- What the requests of one round meet with. -/
structure Replies where
  system : Reply System
  service : Reply ServiceInfo
  drives : Reply Drives
  updates : Reply Updates
  adapters : Reply Adapters
  services : Reply Services

inductive Path where
  | system | service | drives | updates | adapters | services
  deriving DecidableEq, Repr

/-- A call of `network_get`; the flag it controls is missing for `dont_care`. -/
structure Get where
  path : Path
  control : Option Page
  replies : Replies

abbrev Code := Thread Server Get

def emit (signals : List Signal) (server : Server) : Server :=
  { server with emitted := server.emitted++signals }

def setAvaliable (page : Page) (value : Bool) (server : Server) : Server :=
  { server with avaliable := Function.update server.avaliable page value }

def maxSteps : ℕ := 6

def countDown : Code := .countDown .done

def receiveInfo (info : System) (server : Server) : Server :=
  let server := emit [.changedOs, .changedIcon, .changedKernel, .changedArch]
    { server with systemInfo := info }
  if server.hostname ≠ info.hostname then
    emit [.changedHostname] { server with hostname := info.hostname }
  else server

def handleInfo (info : System) : Code := .act (receiveInfo info) countDown

def addTypes (types : List Bytes) : List Bytes → List Bytes :=
  types.foldl fun known type => if type ∈ known then known else known++[type]

def receiveService (info : ServiceInfo) (server : Server) : Server :=
  let server := emit [.changedServiceManager] { server with serviceManager := info.server }
  { server with serviceTypes := addTypes info.types server.serviceTypes }

def handleService (replies : Replies) (info : ServiceInfo) : Code :=
  .act (receiveService info) (.countDown (.start ⟨.services, none, replies⟩ .done))

/-- The other slots bring the tables of the pages up to date, which no part of
a round reads, and count down. -/
def handleTable {α : Type} (_info : α) : Code := countDown

/-- Sets the flag a request controls. -/
def setControl (control : Option Page) (value : Bool) (next : Code) : Code :=
  match control with
  | none => next
  | some page => .act (setAvaliable page value) (.act (emit [.changedEnabledPages]) next)

/-- The catch clause for a status. The flag compared with is the one of the
adapters. -/
def refused (control : Option Page) (status : ℕ) : Code :=
  let count := if control = some .adapters then .countDown countDown else countDown
  if status = 501 then setControl control false count else count

/-- A request with its slot behind it; the catch clauses for exceptions count
down once. -/
def networkGet {α : Type} (reply : Reply α) (control : Option Page) (slot : α → Code) : Code :=
  match reply with
  | .failed => countDown
  | .response status info =>
    if status = 200 then setControl control true (match info with
      | none => countDown
      | some info => slot info)
    else refused control status

def code (get : Get) : Code :=
  match get.path with
  | .system => networkGet get.replies.system get.control handleInfo
  | .service => networkGet get.replies.service get.control (handleService get.replies)
  | .drives => networkGet get.replies.drives get.control handleTable
  | .updates => networkGet get.replies.updates get.control handleTable
  | .adapters => networkGet get.replies.adapters get.control handleTable
  | .services => networkGet get.replies.services get.control handleTable

/-- `ping_computer`, by the status that answered it, if one did. -/
def pingComputer (status : Option ℕ) : State := if status = some 302 then .online else .offline

def countDowns : ℕ → Code
  | 0 => .done
  | n+1 => .countDown (countDowns n)

def getIf (page : Page) (get : Get) (next : Code) : Code :=
  .branch (·.avaliable page) (.start get next) (.countDown next)

def stayOnline (replies : Replies) : Code :=
  .countDown <| .countDown <|
  getIf .adapters ⟨.drives, none, replies⟩ <|
  getIf .drives ⟨.updates, none, replies⟩ <|
  getIf .updates ⟨.adapters, none, replies⟩ <|
  getIf .services ⟨.services, none, replies⟩ .done

def restoreHostname (server : Server) : Server :=
  if server.hostname ≠ server.defualtHostname then
    emit [.changedHostname] { server with hostname := server.defualtHostname }
  else server

def disablePages (server : Server) : Server :=
  emit [.changedEnabledPages] { server with avaliable := fun _ => false }

def goOffline : Code :=
  .act restoreHostname <| .act disablePages <| countDowns maxSteps

def goOnline (replies : Replies) : Code :=
  .start ⟨.system, none, replies⟩ <|
  .start ⟨.service, some .services, replies⟩ <|
  .start ⟨.drives, some .drives, replies⟩ <|
  .start ⟨.updates, some .updates, replies⟩ <|
  .start ⟨.adapters, some .adapters, replies⟩ .done

def announce (new : State) (server : Server) : Server :=
  if server.state = .unknown then server
  else if new = .offline then emit [.thisOffline] server
  else emit [.thisOnline] server

def changeState (new : State) (server : Server) : Server :=
  emit [.changedState] { server with state := new }

/-- `update_info` from its first look at the state on. -/
def pinged (new : State) (replies : Replies) : Code :=
  .branch (·.state = new)
    (.branch (·.state = .online) (stayOnline replies) (countDowns maxSteps))
    (.act (announce new) <| .act (changeState new) <|
      if new = .offline then goOffline else goOnline replies)

/-- `update_info` behind its look at the latch. -/
def updateInfo (ping : Option ℕ) (replies : Replies) : Code :=
  .reset maxSteps (pinged (pingComputer ping) replies)

/-- The server with the threads of its rounds. -/
abbrev Client := Pool Server Get

def idle (server : Server) : Client := ⟨server, 0, 0, 0, []⟩

/-- A call of `update_info` looks at the latch. To set it is the next step of
the call, and another call may look in between. -/
def poll (ping : Option ℕ) (replies : Replies) (client : Client) : Client :=
  if client.latch = 0 then client.enter (updateInfo ping replies) else client

inductive Event where
  | poll (ping : Option ℕ) (replies : Replies)
  | step (thread : ℕ)

def tick : Event → Client → Except Empty Client
  | .poll ping replies, client => .ok (poll ping replies client)
  | .step i, client => .ok (step code client i)

end Bakaneko.ServerRound
