import Bakaneko.HostControl

/-!
# Ids of services

The list of services carries rewritten unit names as ids, and
`Control::Service` gives an id to systemd as it is. The two fit together as
long as nothing is rewritten.
-/

set_option autoImplicit false

namespace Bakaneko.ServiceIds
open Bakaneko.Native Bakaneko.Messages Bakaneko.Rest Bakaneko.Authenticate Bakaneko.SystemBus
open Bakaneko.SystemdUnits Bakaneko.HostControl

/-- Every authenticated request for the id that gets a connection, whatever
its action, asks `LoadUnit` for this name and no other. -/
def Reaches (id name : Bytes) : Prop :=
  ∀ later authentication action, later.connect = .ok () →
    authenticate later.config authentication = .ok true →
    (controlService later (some .systemd) ⟨some authentication⟩ ⟨id, action⟩).loaded = [name]

/-- The ids of the reply are pairwise distinct and each reaches its unit. -/
def Identifies (host : Host) (reply : Services) : Prop :=
  (reply.services.map (·.id)).Nodup ∧
  List.Forall₂ (fun service name => Reaches service.id name) reply.services (listedNames host)

theorem control_loaded (later : Host) (authentication id : Bytes) (action : Action)
    (hc : later.connect = .ok ()) (ha : authenticate later.config authentication = .ok true) :
    (controlService later (some .systemd) ⟨some authentication⟩ ⟨id, action⟩).loaded = [id] := by
  simp only [controlService, ha, performControl, getServiceManager, controlSystemd, onBus, hc]

/-- A host on systemd with two loaded units, each at the path of its name. -/
def twoUnits (first second : Bytes) : Host :=
  { busDown with
    config := bytes "[admin]\npassword=dog\n"
    listNames := .ok [bytes "org.freedesktop.systemd1"]
    connect := .ok ()
    listUnits := .ok [⟨first, first, first⟩, ⟨second, second, second⟩]
    listUnitFiles := .ok []
    fragmentPath := fun _ => .ok []
    loadUnit := .ok
    unitFileState := fun _ => .ok []
    activeState := fun _ => .ok (bytes "active") }

theorem reaches_iff (id name : Bytes) : Reaches id name ↔ id = name := by
  constructor
  · intro h
    have ha : authenticate (twoUnits id name).config (bytes "Basic YWRtaW46ZG9n") = .ok true := by
      change authenticate (bytes "[admin]\npassword=dog\n") _ = _
      decide +kernel
    have hl := h (twoUnits id name) (bytes "Basic YWRtaW46ZG9n") .stop rfl ha
    rw [control_loaded _ _ _ _ rfl ha] at hl
    exact List.cons.inj hl |>.1
  · rintro rfl later authentication action hc ha
    exact control_loaded later authentication id action hc ha

theorem listed_reply (host : Host) (manager : Option ServiceManager) (data : ServicesRequest)
    (reply : Services) (hm : getServiceManager host manager = .ok .systemd)
    (h : infoServices host manager data = .ok (.ok reply)) : listServices host = .ok reply := by
  simp only [infoServices, hm, systemdServices] at h
  cases hl : listServices host with
  | error e =>
    rw [hl] at h
    cases h
  | ok listed =>
    rw [hl] at h
    cases h
    rfl

theorem forall₂_names (services : List Service) (names : List Bytes) :
    List.Forall₂ (fun service name => Reaches service.id name) services names ↔
      services.map (·.id) = names := by
  have heq : services.map (·.id) = names ↔ List.Forall₂ Eq (services.map (·.id)) names := by
    rw [List.forall₂_eq_eq_eq]
  rw [heq, List.forall₂_map_left_iff]
  simp only [reaches_iff]

theorem forall₂_plain (services : List Service) (names : List Bytes)
    (h : List.Forall₂ (fun service name => unescape name = .ok service.id) services names) :
    services.map (·.id) = names ↔ ∀ name ∈ names, ¬ Escape <:+: name := by
  induction h with
  | nil => simp
  | cons hu _ ih =>
    rw [List.map_cons, List.cons.injEq, unescape_eq_iff _ _ hu, ih, List.forall_mem_cons]

/-- A list of services identifies the units exactly when the listed names are
pairwise distinct and have no escape. -/
theorem identifies_iff (host : Host) (manager : Option ServiceManager) (data : ServicesRequest)
    (reply : Services) (hm : getServiceManager host manager = .ok .systemd)
    (h : infoServices host manager data = .ok (.ok reply)) :
    Identifies host reply ↔
      (listedNames host).Nodup ∧ ∀ name ∈ listedNames host, ¬ Escape <:+: name := by
  have hspec := listServices_spec host reply (listed_reply host manager data reply hm h)
  have hplain := forall₂_plain reply.services (listedNames host) hspec
  unfold Identifies
  rw [forall₂_names, ← hplain]
  constructor
  · rintro ⟨hn, he⟩
    exact ⟨he ▸ hn, he⟩
  · rintro ⟨hn, he⟩
    exact ⟨he ▸ hn, he⟩

def plainReply : Services where
  services := [
    ⟨bytes "cron.service", .running, false, bytes "Service", bytes "cron.service",
      bytes "cron.service"⟩,
    ⟨bytes "dev-sda.device", .running, false, bytes "Device", bytes "dev-sda.device",
      bytes "dev-sda.device"⟩]

theorem identifies_iff_plain :
    Identifies (twoUnits (bytes "cron.service") (bytes "dev-sda.device")) plainReply ↔
      (listedNames (twoUnits (bytes "cron.service") (bytes "dev-sda.device"))).Nodup ∧
        ∀ name ∈ listedNames (twoUnits (bytes "cron.service") (bytes "dev-sda.device")),
          ¬ Escape <:+: name :=
  identifies_iff _ none {} plainReply rfl (by decide +kernel)

def escapedReply : Services where
  services := [
    ⟨bytes "a-b.service", .running, false, bytes "Service", bytes "a-b.service",
      bytes "a-b.service"⟩,
    ⟨bytes "a-b.service", .running, false, bytes "Service", bytes "a-b.service",
      bytes "a-b.service"⟩]

/-- Two units of different names get one id, and the first is out of reach. -/
theorem escaped_name_collides :
    (listedNames (twoUnits (bytes "a\\x2db.service") (bytes "a-b.service"))).Nodup ∧
    infoServices (twoUnits (bytes "a\\x2db.service") (bytes "a-b.service")) none {} =
      .ok (.ok escapedReply) ∧
    ¬ Identifies (twoUnits (bytes "a\\x2db.service") (bytes "a-b.service")) escapedReply := by
  refine ⟨by decide +kernel, by decide +kernel, ?_⟩
  rintro ⟨hn, -⟩
  exact absurd hn (by decide)

end Bakaneko.ServiceIds
