import Bakaneko.HostControl
import Bakaneko.KeyReconciliation
import Bakaneko.RoundLatch
import Bakaneko.WireFormat

/-!
# What the pages show of a host

A request of the client's `network_get` goes through the server's handler to
an endpoint of the host, and what it answers through the parser back into a
slot of the client. The slot gets the value the endpoint ended with, or is
not called.
-/

set_option autoImplicit false

namespace Bakaneko.PageReports
open Bakaneko.Native Bakaneko.Messages Bakaneko.JsonValues Bakaneko.JsonText Bakaneko.WireFormat
open Bakaneko.Rest Bakaneko.SystemBus Bakaneko.HostControl
open Bakaneko.RowModels Bakaneko.TableRows Bakaneko.KeyReconciliation
open Bakaneko.ServerRound (Replies)

/-- The request `network_get` writes. -/
def getRequest (path : Bytes) : Request :=
  { method := .get, target := path, contentType := some applicationJson, keepAlive := false }

/-- What `network_get` makes of the responses on its connection. -/
def readReply {α : Type} (json : Nlohmann) (fromJson : Json → Except StdException α) :
    List Response → ServerRound.Reply α
  | [] => .failed
  | res::_ => .response res.status
      (if res.status = 200 then (receive json fromJson res.body).toOption else none)

/-- A server at one moment: its host and what it knows of the service manager. -/
structure Report where
  host : Host
  manager : Option ServiceManager

/-- A path the client asks for, with the types at its two ends. -/
structure Page (α : Type) where
  path : Bytes
  toJson : α → Json
  fromJson : Json → Except StdException α
  outcome : Report → Outcome α

def systemPage : Page System := ⟨bytes "/system", System.toJson, System.fromJson, (·.host.system)⟩

def servicePage : Page ServiceInfo :=
  ⟨bytes "/service", ServiceInfo.toJson, ServiceInfo.fromJson, fun r => infoService r.host r.manager⟩

def drivesPage : Page Drives := ⟨bytes "/drives", Drives.toJson, Drives.fromJson, (·.host.drives)⟩

def updatesPage : Page Updates :=
  ⟨bytes "/updates", Updates.toJson, Updates.fromJson, (·.host.updates)⟩

def adaptersPage : Page Adapters :=
  ⟨bytes "/network/adapters", Adapters.toJson, Adapters.fromJson, (·.host.adapters)⟩

/-- The request has no body, and so asks for no type of services. -/
def servicesPage : Page Services :=
  ⟨bytes "/services", Services.toJson, Services.fromJson, fun r => infoServices r.host r.manager {}⟩

def Page.reply {α : Type} (p : Page α) (json : Nlohmann) (r : Report) : ServerRound.Reply α :=
  readReply json p.fromJson (handled json ⟨r.host, getRequest p.path⟩ r.manager).sent

/-- What the client meets with, by how the endpoint ends. -/
def expected {α : Type} (toJson : α → Json) : Outcome α → ServerRound.Reply α
  | .ok (.ok value) => if AllUtf8 (toJson value) then .response 200 (some value)
    else .response 500 none
  | .ok (.error .notImplemented) => .response 501 none
  | .ok (.error .failed) => .response 500 none
  | .ok (.error .needsPassword) => .response 401 none
  | .ok (.error .none) => .failed
  | .error (.exception _) => .response 500 none
  | .error _ => .failed

/-- The page is served from its endpoint, by the two conversions of one type. -/
structure Page.Served {α : Type} (p : Page α) (Held : α → Prop) : Prop where
  codec : ∃ keys, Codec keys p.toJson p.fromJson Held
  sent : ∀ json r, (handled json ⟨r.host, getRequest p.path⟩ r.manager).sent =
    (Run json (some p.toJson) (getRequest p.path) { outcome := p.outcome r }).sent

theorem handled_get (json : Nlohmann) (r : Report) (path : Bytes) (target : Route)
    (h : route (getRequest path) = some target) :
    handled json ⟨r.host, getRequest path⟩ r.manager =
      runRoute json (endpoints r.host r.manager) (getRequest path) target :=
  handler_route json _ _ target h

theorem system_served : systemPage.Served fun _ => True where
  codec := ⟨_, system_codec⟩
  sent json r := by
    rw [handled_get json r systemPage.path .system (by decide)]
    rfl

theorem service_served : servicePage.Served fun _ => True where
  codec := ⟨_, serviceInfo_codec⟩
  sent json r := by
    rw [handled_get json r servicePage.path .service (by decide)]
    rfl

theorem drives_served : drivesPage.Served Drives.Held where
  codec := ⟨_, drives_codec⟩
  sent json r := by
    rw [handled_get json r drivesPage.path .drives (by decide)]
    rfl

theorem updates_served : updatesPage.Served fun _ => True where
  codec := ⟨_, updates_codec⟩
  sent json r := by
    rw [handled_get json r updatesPage.path .updates (by decide)]
    rfl

theorem adapters_served : adaptersPage.Served Adapters.Held where
  codec := ⟨_, adapters_codec⟩
  sent json r := by
    rw [handled_get json r adaptersPage.path .adapters (by decide)]
    rfl

theorem services_served : servicesPage.Served Services.Held where
  codec := ⟨_, services_codec⟩
  sent json r := by
    rw [handled_get json r servicesPage.path .services (by decide)]
    rfl

section
variable {α : Type} {p : Page α} {Held : α → Prop} (json : Nlohmann)

/-- Through the server's response and the client's parser. -/
theorem Page.Served.reply_eq (hp : p.Served Held) (hjson : Inverse json) (hstrict : Strict json)
    (r : Report) (hheld : ∀ value, p.outcome r = .ok (.ok value) → Held value) :
    p.reply json r = expected p.toJson (p.outcome r) := by
  obtain ⟨keys, codec⟩ := hp.codec
  rw [Page.reply, hp.sent]
  cases ho : p.outcome r with
  | error f => cases f <;> rfl
  | ok result =>
    cases result with
    | error e => cases e <;> rfl
    | ok value =>
      simp only [Run, respond, getRequest, if_true, expected, readReply]
      by_cases hu : AllUtf8 (p.toJson value)
      · obtain ⟨body, hd, hback⟩ := (codec.carries json hjson).back value (hheld value ho) hu
        simp [hd, hu, hback, Except.toOption]
      · have hd : ∀ body, json.dump (p.toJson value) ≠ .ok body := by
          intro body hd
          exact hu ((hstrict _).mp ⟨body, hd⟩)
        cases hdump : json.dump (p.toJson value) with
        | ok body => exact absurd hdump (hd body)
        | error e => simp [hu, plain]

/-- The values the slot of a page is called with, report by report. -/
def Page.received (p : Page α) (reports : List Report) : List α :=
  reports.filterMap fun r => match p.reply json r with
    | .response _ info => info
    | .failed => none

/-- What an endpoint ended with, if that can be printed. -/
def Page.shown (p : Page α) (r : Report) : Option α :=
  match p.outcome r with
  | .ok (.ok value) => if AllUtf8 (p.toJson value) then some value else none
  | _ => none

theorem Page.Served.received_eq (hp : p.Served Held) (hjson : Inverse json) (hstrict : Strict json)
    (reports : List Report)
    (hheld : ∀ r ∈ reports, ∀ value, p.outcome r = .ok (.ok value) → Held value) :
    p.received json reports = reports.filterMap p.shown := by
  unfold Page.received
  apply List.filterMap_congr
  intro r hr
  rw [hp.reply_eq json hjson hstrict r (hheld r hr), Page.shown]
  cases p.outcome r with
  | error f => cases f <;> rfl
  | ok result =>
    cases result with
    | error e => cases e <;> rfl
    | ok value => by_cases hu : AllUtf8 (p.toJson value) <;> simp [expected, hu]

/-- Where every endpoint ends with a value, the slot gets those that are text. -/
theorem Page.Served.received_listed {ρ : Type} (hp : p.Served Held) (hjson : Inverse json)
    (hstrict : Strict json) (report : ρ → Report) (listing : ρ → α)
    (houtcome : ∀ r, p.outcome (report r) = .ok (.ok (listing r))) (hheld : ∀ r, Held (listing r))
    (rounds : List ρ) : p.received json (rounds.map report) =
      (rounds.filter fun r => AllUtf8 (p.toJson (listing r))).map listing := by
  have hvalues : ∀ r ∈ rounds.map report, ∀ value, p.outcome r = .ok (.ok value) →
      Held value := by
    intro r hr value hvalue
    obtain ⟨round, -, rfl⟩ := List.mem_map.mp hr
    rw [houtcome] at hvalue
    cases hvalue
    exact hheld round
  rw [hp.received_eq json hjson hstrict _ hvalues, List.filterMap_map]
  clear hvalues
  induction rounds with
  | nil => rfl
  | cons r rounds ih =>
    rw [List.filterMap_cons, List.filter_cons, Function.comp_apply, Page.shown, houtcome, ih]
    by_cases hr : AllUtf8 (p.toJson (listing r)) <;> simp [hr]

end

/-- The values of a host fit the types they have in the source. -/
structure Holds (r : Report) : Prop where
  drives : ∀ drives, drivesPage.outcome r = .ok (.ok drives) → drives.Held
  adapters : ∀ adapters, adaptersPage.outcome r = .ok (.ok adapters) → adapters.Held
  services : ∀ services, servicesPage.outcome r = .ok (.ok services) → services.Held

/-- For every history of a host, each slot of the client is called with exactly
the values the endpoint behind its page ended with, in their order, as far as
they are text that can be printed. -/
theorem reports_received (json : Nlohmann) (hjson : Inverse json) (hstrict : Strict json)
    (reports : List Report) (hheld : ∀ r ∈ reports, Holds r) :
    systemPage.received json reports = reports.filterMap systemPage.shown ∧
    servicePage.received json reports = reports.filterMap servicePage.shown ∧
    drivesPage.received json reports = reports.filterMap drivesPage.shown ∧
    updatesPage.received json reports = reports.filterMap updatesPage.shown ∧
    adaptersPage.received json reports = reports.filterMap adaptersPage.shown ∧
    servicesPage.received json reports = reports.filterMap servicesPage.shown :=
  ⟨system_served.received_eq json hjson hstrict reports fun _ _ _ _ => trivial,
    service_served.received_eq json hjson hstrict reports fun _ _ _ _ => trivial,
    drives_served.received_eq json hjson hstrict reports fun r hr => (hheld r hr).drives,
    updates_served.received_eq json hjson hstrict reports fun _ _ _ _ => trivial,
    adapters_served.received_eq json hjson hstrict reports fun r hr => (hheld r hr).adapters,
    services_served.received_eq json hjson hstrict reports fun r hr => (hheld r hr).services⟩

/-- A host with OpenRC and these drives. -/
def withDrives (drives : Drives) : Report :=
  ⟨{ busDown with openrc := true, drives := .ok (.ok drives) }, none⟩

theorem withDrives_holds (drives : Drives) (h : drives.Held) : Holds (withDrives drives) where
  drives := by
    rintro shown ⟨⟩
    exact h
  adapters := nofun
  services := nofun

/-- The listing of the drives throws. -/
def noDrives : Report :=
  ⟨{ busDown with openrc := true, drives := .error (.exception (.outOfRange (bytes "stoull"))) },
    none⟩

theorem noDrives_holds : Holds noDrives := ⟨nofun, nofun, nofun⟩

def oneDrive : Drives := ⟨[⟨bytes "sda", 512, [], [], [], []⟩]⟩

def twoDrives : Drives :=
  ⟨[⟨bytes "sdb", 1024, [], [], [], []⟩, ⟨bytes "sda", 512, [], [], [], []⟩]⟩

/-- One drive, a failure, and a drive more. -/
def plugged : List Report := [withDrives oneDrive, noDrives, withDrives twoDrives]

theorem plugged_holds : ∀ r ∈ plugged, Holds r := by
  have hone : oneDrive.Held := by simp [oneDrive, Drives.Held, Drive.Held, IsUInt64]
  have htwo : twoDrives.Held := by simp [twoDrives, Drives.Held, Drive.Held, IsUInt64]
  simp [plugged, noDrives_holds, withDrives_holds oneDrive hone, withDrives_holds twoDrives htwo]

theorem reports_received_drives :
    drivesPage.received library plugged = [oneDrive, twoDrives] :=
  (reports_received library library_inverse library_strict plugged plugged_holds).2.2.1.trans
    (by decide +kernel)

/-- A table behind one more report: it has the keys the endpoint ended with,
or is what it was. -/
structure Follows {α τ : Type} (json : Nlohmann) (p : Page α) (after : List α → τ)
    (keys : τ → List Bytes) (named : α → List Bytes) (before : List Report) (last : Report) :
    Prop where
  report : ∀ value, p.shown last = some value →
    Reconciled (keys (after (p.received json before)))
      (keys (after (p.received json (before++[last])))) (named value)
  kept : p.shown last = none →
    after (p.received json (before++[last])) = after (p.received json before)

theorem Page.Served.follows {α τ : Type} {p : Page α} {Held : α → Prop} (json : Nlohmann)
    (hp : p.Served Held) (hjson : Inverse json) (hstrict : Strict json) (after : List α → τ)
    (keys : τ → List Bytes) (named : α → List Bytes)
    (hrec : ∀ past value, Reconciled (keys (after past)) (keys (after (past++[value]))) (named value))
    (before : List Report) (last : Report)
    (hheld : ∀ r ∈ before++[last], ∀ value, p.outcome r = .ok (.ok value) → Held value) :
    Follows json p after keys named before last := by
  have hafter := hp.received_eq json hjson hstrict (before++[last]) hheld
  have hbefore := hp.received_eq json hjson hstrict before
    fun r hr => hheld r (List.mem_append_left _ hr)
  rw [List.filterMap_append, ← hbefore] at hafter
  constructor
  · intro value hv
    rw [hafter, List.filterMap_cons_some hv, List.filterMap_nil]
    exact hrec _ value
  · intro hn
    rw [hafter, List.filterMap_cons_none hn, List.filterMap_nil, List.append_nil]

/-- For every history of a host, whatever failed on the way, the three tables
of the client have behind a report the keys that the host lists in it, in the
order of the table, and change by nothing else. -/
theorem tables_follow (json : Nlohmann) (hjson : Inverse json) (hstrict : Strict json)
    (before : List Report) (last : Report) (hheld : ∀ r ∈ before++[last], Holds r) :
    Follows json drivesPage drivesAfter (fun m => m.updates.map Drive.devNode)
      (fun d => d.drives.map Drive.devNode) before last ∧
    Follows json adaptersPage adaptersAfter (fun m => m.updates.map Adapter.name)
      (fun a => a.adapters.map Adapter.name) before last ∧
    Follows json servicesPage servicesAfter (fun m => m.updates.map Service.id)
      (fun s => s.services.map Service.id) before last :=
  ⟨drives_served.follows json hjson hstrict drivesAfter _ _ drives_reconciled before last
      fun r hr => (hheld r hr).drives,
    adapters_served.follows json hjson hstrict adaptersAfter _ _ adapters_reconciled before last
      fun r hr => (hheld r hr).adapters,
    services_served.follows json hjson hstrict servicesAfter _ _ services_reconciled before last
      fun r hr => (hheld r hr).services⟩

/-- The table of the first drive is there behind the failure, and takes the
second drive in behind it. -/
theorem tables_follow_drives :
    (drivesAfter (drivesPage.received library [withDrives oneDrive])).updates =
      (drivesAfter (drivesPage.received library [withDrives oneDrive, noDrives])).updates ∧
    Reconciled [bytes "sda"]
      ((drivesAfter (drivesPage.received library plugged)).updates.map Drive.devNode)
      [bytes "sdb", bytes "sda"] := by
  have hfailed := (tables_follow library library_inverse library_strict [withDrives oneDrive]
    noDrives fun r hr => plugged_holds r (List.mem_append_left [withDrives twoDrives] hr)).1.kept rfl
  have hplugged := (tables_follow library library_inverse library_strict
    [withDrives oneDrive, noDrives] (withDrives twoDrives) plugged_holds).1.report twoDrives
      (by decide +kernel)
  refine ⟨congrArg DrivesModel.updates hfailed.symm, ?_⟩
  rw [show [withDrives oneDrive, noDrives] = [withDrives oneDrive]++[noDrives] from rfl, hfailed]
    at hplugged
  exact hplugged

end Bakaneko.PageReports
