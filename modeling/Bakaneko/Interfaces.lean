import Bakaneko.Native
import Bakaneko.Library.Fallible
import Bakaneko.Library.FallibleSearch

/-!
# The addresses of the host

`Info::System` looks through the interfaces three times: for an IPv4 address,
for an IPv6 address if there is none, and for the packet address of the
interface it has taken. An entry may come without an address.
-/

set_option autoImplicit false

namespace Bakaneko.Interfaces
open Bakaneko.Native Fallible FallibleSearch

/-- The six bytes of a hardware address. -/
structure Hardware where
  bytes : Bytes
  six : bytes.length = 6

inductive SockAddr where
  | inet (address : Bytes)
  | inet6 (address : Bytes)
  | packet (address : Hardware)
  | other (family : ℕ)

/-- An entry of `getifaddrs`; interfaces have names. -/
structure IfAddrs where
  name : Bytes
  named : name ≠ []
  addr : Option SockAddr

def hexUpper (n : ℕ) : UInt8 := UInt8.ofNat (if n < 10 then 48+n else 55+n)

/-- `%02hhX` -/
def hex2 (b : UInt8) : Bytes := [hexUpper (b.toNat/16), hexUpper (b.toNat%16)]

def macText (address : Hardware) : Bytes := [58].intercalate (address.bytes.map hex2)

/-- `memcmp(name, "lo", 2) == 0` -/
def isLo (name : Bytes) : Bool := name.take 2 = bytes "lo"

def isInet : SockAddr → Bool
  | .inet _ => true
  | _ => false

def isInet6 : SockAddr → Bool
  | .inet6 _ => true
  | _ => false

/-- The body of the loops for an address of a family. -/
def visitFamily (family : SockAddr → Bool) (e : IfAddrs) :
    Except Undefined (Option (Bytes × SockAddr)) :=
  if isLo e.name then .ok none
  else match e.addr with
    | none => .error .nullPointer
    | some address => .ok (if family address then some (e.name, address) else none)

/-- The body of the loop for the packet address. -/
def visitPacket (adapterName : Bytes) (e : IfAddrs) : Except Undefined (Option Bytes) :=
  if adapterName = e.name then match e.addr with
    | none => .error .nullPointer
    | some (.packet address) => .ok (some (macText address))
    | some _ => .ok none
  else .ok none

/-- The first two loops; a find in the first goes past the second. -/
def chosen (base : List IfAddrs) : Except Undefined (Option (Bytes × SockAddr)) :=
  match search (visitFamily isInet) base with
  | .error e => .error e
  | .ok (some entry) => .ok (some entry)
  | .ok none => search (visitFamily isInet6) base

/-- What the loops leave. -/
structure Addresses where
  adapterName : Bytes
  ipAddress : Bytes
  macAddress : Bytes

section
/- The text `inet_ntop` makes of an address. -/
variable (inetNtop : SockAddr → Bytes)

def addresses (base : List IfAddrs) : Except Undefined Addresses := do
  let entry ← chosen base
  let adapterName := (entry.map (·.1)).getD []
  let ipAddress := (entry.map fun entry => inetNtop entry.2).getD []
  let packet ← search (visitPacket adapterName) base
  return { adapterName, ipAddress, macAddress := packet.getD [] }

end

/-- The address of an entry, if it is of the family and the interface is none
that is left out. -/
def addressIn (lo : Bytes → Bool) (family : SockAddr → Bool) (e : IfAddrs) :
    Option (Bytes × SockAddr) :=
  if lo e.name then none else (e.addr.filter family).map (e.name, ·)

def packetIn (name : Bytes) (e : IfAddrs) : Option Bytes :=
  if name = e.name then match e.addr with
    | some (.packet address) => some (macText address)
    | _ => none
  else none

/-- The first IPv4 address, else the first IPv6 address. -/
def wanted (lo : Bytes → Bool) (base : List IfAddrs) : Option (Bytes × SockAddr) :=
  (base.findSome? (addressIn lo isInet)).or (base.findSome? (addressIn lo isInet6))

/-- What is expected with an address and without one. -/
def Reports (inetNtop : SockAddr → Bytes) (base : List IfAddrs) (found : Addresses) :
    Option (Bytes × SockAddr) → Prop
  | none => found.ipAddress = [] ∧ found.macAddress = []
  | some (name, address) => found.adapterName = name ∧ found.ipAddress = inetNtop address ∧
      found.macAddress = (base.findSome? (packetIn name)).getD []

def Meets (inetNtop : SockAddr → Bytes) (lo : Bytes → Bool) (base : List IfAddrs)
    (out : Except Undefined Addresses) : Prop :=
  ∃ found, out = .ok found ∧ Reports inetNtop base found (wanted lo base)

/-- Up to the first IPv4 address every entry that is looked at has an address. -/
def FamilySafe (base : List IfAddrs) : Prop :=
  ∀ e ∈ base.takeWhile fun e => (addressIn isLo isInet e).isNone, isLo e.name ∨ e.addr.isSome

/-- Up to its packet address every entry of the interface has an address. -/
def PacketSafe (name : Bytes) (base : List IfAddrs) : Prop :=
  ∀ e ∈ base.takeWhile fun e => (packetIn name e).isNone, name = e.name → e.addr.isSome

theorem found_family (family : SockAddr → Bool) :
    found (visitFamily family) = addressIn isLo family := by
  funext e
  rw [found, visitFamily, addressIn]
  by_cases hlo : isLo e.name = true
  · simp [hlo]
  · rw [if_neg hlo, if_neg hlo]
    cases e.addr with
    | none => rfl
    | some address => by_cases hf : family address = true <;> simp [hf]

theorem found_packet (name : Bytes) : found (visitPacket name) = packetIn name := by
  funext e
  rw [found, visitPacket, packetIn]
  by_cases hname : name = e.name
  · rw [if_pos hname, if_pos hname]
    cases e.addr with
    | none => rfl
    | some address => cases address <;> rfl
  · rw [if_neg hname, if_neg hname]

theorem visitFamily_returns (family : SockAddr → Bool) (e : IfAddrs) :
    (∃ r, visitFamily family e = .ok r) ↔ isLo e.name ∨ e.addr.isSome := by
  rw [visitFamily]
  by_cases hlo : isLo e.name = true
  · simp [hlo]
  · cases e.addr <;> simp [hlo]

theorem visitPacket_returns (name : Bytes) (e : IfAddrs) :
    (∃ r, visitPacket name e = .ok r) ↔ (name = e.name → e.addr.isSome) := by
  rw [visitPacket]
  by_cases hname : name = e.name
  · rw [if_pos hname]
    cases e.addr with
    | none => simp [hname]
    | some address => cases address <;> simp
  · simp [hname]

theorem clear_family (base : List IfAddrs) :
    Clear (visitFamily isInet) base ↔ FamilySafe base := by
  simp only [Clear, FamilySafe, found_family, visitFamily_returns]

theorem clear_packet (name : Bytes) (base : List IfAddrs) :
    Clear (visitPacket name) base ↔ PacketSafe name base := by
  simp only [Clear, PacketSafe, found_packet, visitPacket_returns]

theorem chosen_ok (base : List IfAddrs) (r : Option (Bytes × SockAddr)) :
    chosen base = .ok r ↔ FamilySafe base ∧ wanted isLo base = r := by
  have hfirst (r : Option (Bytes × SockAddr)) := search_ok (visitFamily isInet) base r
  have hsecond := search_ok (visitFamily isInet6) base r
  simp only [clear_family, found_family] at hfirst hsecond
  rw [chosen, wanted]
  cases hs : search (visitFamily isInet) base with
  | error e =>
    refine iff_of_false (fun h => by cases h) fun h => ?_
    cases hs.symm.trans ((hfirst _).mpr ⟨h.1, rfl⟩)
  | ok first =>
    obtain ⟨hsafe, hfound⟩ := (hfirst first).mp hs
    rw [hfound]
    cases first with
    | some entry => simp [hsafe]
    | none =>
      have hall : ∀ e ∈ base, isLo e.name ∨ e.addr.isSome := by
        intro e he
        have hclear := (clear_none (visitFamily isInet) base (by rw [found_family, hfound])).mp
          ((clear_family base).mpr hsafe) e he
        exact (visitFamily_returns isInet e).mp hclear
      have hclear : Clear (visitFamily isInet6) base := fun e he =>
        (visitFamily_returns isInet6 e).mpr (hall e (List.takeWhile_subset _ he))
      simp [hsecond, hclear, hsafe]

section
variable (lo : Bytes → Bool) (hlo : ∀ name, lo name = true → isLo name = true)

theorem addressIn_name (family : SockAddr → Bool) (e : IfAddrs) (name : Bytes)
    (address : SockAddr) (h : addressIn lo family e = some (name, address)) :
    e.name = name ∧ lo name = false := by
  rw [addressIn] at h
  split at h
  · cases h
  · next hplain =>
    obtain ⟨a, -, ha⟩ := Option.map_eq_some_iff.mp h
    cases ha
    exact ⟨rfl, by simpa using hplain⟩

include hlo in
/-- An entry that is left out for its name is so too when more names are. -/
theorem addressIn_isLo (family : SockAddr → Bool) (e : IfAddrs) : addressIn isLo family e =
    (addressIn lo family e).filter fun entry => !isLo entry.1 := by
  rw [addressIn, addressIn]
  by_cases h : isLo e.name = true
  · rw [if_pos h]
    split <;> cases e.addr.filter family <;> simp [Option.filter, h]
  · have hl : ¬ lo e.name = true := fun hl => h (hlo e.name hl)
    rw [if_neg h, if_neg hl]
    cases e.addr.filter family <;> simp [Option.filter, h]

include hlo in
theorem findSome_isLo (family : SockAddr → Bool) (base : List IfAddrs) :
    (∀ entry, base.findSome? (addressIn lo family) = some entry → isLo entry.1 = false →
      base.findSome? (addressIn isLo family) = some entry) ∧
    (base.findSome? (addressIn lo family) = none →
      base.findSome? (addressIn isLo family) = none) := by
  induction base with
  | nil => simp
  | cons e base ih =>
    rw [List.findSome?_cons, List.findSome?_cons, addressIn_isLo lo hlo family e]
    cases he : addressIn lo family e with
    | none => simpa using ih
    | some entry =>
      refine ⟨fun other hother hplain => ?_, fun h => by cases h⟩
      cases hother
      simp [Option.filter, hplain]

include hlo in
/-- The address that is meant is the one taken, unless its interface is left
out for its name. -/
theorem wanted_isLo (base : List IfAddrs) :
    (∀ entry, wanted lo base = some entry → isLo entry.1 = false →
      wanted isLo base = some entry) ∧ (wanted lo base = none → wanted isLo base = none) := by
  obtain ⟨hsome, hnone⟩ := findSome_isLo lo hlo isInet base
  obtain ⟨hsome6, hnone6⟩ := findSome_isLo lo hlo isInet6 base
  rw [wanted, wanted]
  constructor
  · intro entry h hplain
    cases hfirst : base.findSome? (addressIn lo isInet) with
    | some other =>
      rw [hfirst, Option.some_or] at h
      cases h
      rw [hsome entry hfirst hplain, Option.some_or]
    | none =>
      rw [hfirst, Option.none_or] at h
      rw [hnone hfirst, Option.none_or, hsome6 entry h hplain]
  · intro h
    obtain ⟨hfirst, hsecond⟩ := Option.or_eq_none_iff.mp h
    rw [hnone hfirst, hnone6 hsecond, Option.none_or]

end

theorem addresses_ok (inetNtop : SockAddr → Bytes) (base : List IfAddrs) (out : Addresses) :
    addresses inetNtop base = .ok out ↔ FamilySafe base ∧
      PacketSafe (((wanted isLo base).map (·.1)).getD []) base ∧
      out = ⟨((wanted isLo base).map (·.1)).getD [],
        ((wanted isLo base).map fun entry => inetNtop entry.2).getD [],
        (base.findSome? (packetIn (((wanted isLo base).map (·.1)).getD []))).getD []⟩ := by
  rw [addresses]
  constructor
  · intro h
    obtain ⟨entry, hentry, h⟩ := (bind_ok _ _ _).mp h
    obtain ⟨packet, hpacket, h⟩ := (bind_ok _ _ _).mp h
    obtain ⟨hsafe, rfl⟩ := (chosen_ok base entry).mp hentry
    obtain ⟨hclear, rfl⟩ := (search_ok _ base packet).mp hpacket
    rw [found_packet] at h
    exact ⟨hsafe, (clear_packet _ base).mp hclear, (return_ok _ _).mp h⟩
  · rintro ⟨hsafe, hclear, rfl⟩
    refine (bind_ok _ _ _).mpr ⟨_, (chosen_ok base _).mpr ⟨hsafe, rfl⟩, ?_⟩
    refine (bind_ok _ _ _).mpr ⟨_, (search_ok _ base _).mpr
      ⟨(clear_packet _ base).mpr hclear, rfl⟩, ?_⟩
    rw [found_packet]
    rfl

/-- No interface has no name. -/
theorem packetIn_nil (base : List IfAddrs) :
    PacketSafe [] base ∧ base.findSome? (packetIn []) = none := by
  refine ⟨fun e _ hname => absurd hname.symm e.named, List.findSome?_eq_none_iff.mpr fun e _ => ?_⟩
  exact if_neg fun hname => e.named hname.symm

/-- The interface taken is none that is left out. -/
theorem wanted_plain (lo : Bytes → Bool) (base : List IfAddrs) (name : Bytes) (address : SockAddr)
    (h : wanted lo base = some (name, address)) : lo name = false := by
  rcases Option.or_eq_some_iff.mp h with h | ⟨-, h⟩
  · obtain ⟨e, -, he⟩ := List.exists_of_findSome?_eq_some h
    exact (addressIn_name lo _ e name address he).2
  · obtain ⟨e, -, he⟩ := List.exists_of_findSome?_eq_some h
    exact (addressIn_name lo _ e name address he).2

/-- The addresses are those of the interface that is meant if no entry looked at is
without one and the name of the interface does not begin as `lo` does. `lo` is what
is taken for the loopback interface, at least the name `lo` and at most every
name that begins so. -/
theorem addresses_iff (inetNtop : SockAddr → Bytes) (lo : Bytes → Bool)
    (hlo : ∀ name, lo name = true → isLo name = true) (base : List IfAddrs) :
    Meets inetNtop lo base (addresses inetNtop base) ↔ FamilySafe base ∧
      ∀ name address, wanted lo base = some (name, address) →
        isLo name = false ∧ PacketSafe name base := by
  obtain ⟨hsome, hnone⟩ := wanted_isLo lo hlo base
  have hout (out : Addresses) := addresses_ok inetNtop base out
  rw [Meets]
  cases hw : wanted lo base with
  | none =>
    rw [hnone hw] at hout
    obtain ⟨hclear, hpacket⟩ := packetIn_nil base
    constructor
    · rintro ⟨out, h, -⟩
      exact ⟨((hout out).mp h).1, fun name address h => by cases h⟩
    · rintro ⟨hsafe, -⟩
      exact ⟨_, (hout _).mpr ⟨hsafe, hclear, rfl⟩, rfl, by simp [hpacket]⟩
  | some entry =>
    obtain ⟨name, address⟩ := entry
    constructor
    · rintro ⟨out, h, hname, -, -⟩
      obtain ⟨hsafe, hclear, rfl⟩ := (hout out).mp h
      have hplain : isLo name = false := by
        rw [← hname]
        cases htaken : wanted isLo base with
        | none => rfl
        | some taken => exact wanted_plain isLo base taken.1 taken.2 htaken
      refine ⟨hsafe, fun name' address' h' => ?_⟩
      cases h'
      exact ⟨hplain, hname ▸ hclear⟩
    · rintro ⟨hsafe, hcond⟩
      obtain ⟨hplain, hclear⟩ := hcond name address rfl
      rw [hsome _ hw hplain] at hout
      exact ⟨_, (hout _).mpr ⟨hsafe, hclear, rfl⟩, rfl, rfl, rfl⟩

def loopback : IfAddrs := ⟨bytes "lo", by decide, some (.inet [127, 0, 0, 1])⟩

def ethernet : List IfAddrs :=
  [⟨bytes "e", by decide, some (.packet ⟨[2, 0, 0, 171, 255, 9], rfl⟩)⟩,
    ⟨bytes "e", by decide, some (.inet [10, 0, 0, 2])⟩]

def dotted : SockAddr → Bytes
  | .inet address => [46].intercalate (address.map fun b => numeral b.toNat)
  | _ => []

theorem addresses_iff_ethernet : Meets dotted isLo (loopback::ethernet)
    (addresses dotted (loopback::ethernet)) := by
  have hwanted : wanted isLo (loopback::ethernet) = some (bytes "e", .inet [10, 0, 0, 2]) := rfl
  refine (addresses_iff dotted isLo (fun _ h => h) _).mpr ⟨?_, fun name address h => ?_⟩
  · rw [FamilySafe]
    decide
  · cases hwanted.symm.trans h
    refine ⟨rfl, ?_⟩
    rw [PacketSafe]
    decide

example : (addresses dotted (loopback::ethernet)).map Addresses.macAddress =
    .ok (bytes "02:00:00:AB:FF:09") := by decide

/-- A tunnel without an address. -/
theorem addresses_null : ¬ ∃ inetNtop lo, Meets inetNtop lo
    [⟨bytes "w", by decide, none⟩] (addresses inetNtop [⟨bytes "w", by decide, none⟩]) := by
  rintro ⟨inetNtop, lo, out, h, -⟩
  cases h

end Bakaneko.Interfaces
