import Bakaneko.DriveEntries
import Bakaneko.PageReports
import Bakaneko.ReadFile
import Bakaneko.Serialisable
import Mathlib.Data.Nat.Digits.Defs

/-!
# The interfaces of the host

`Info::Adapters` on Linux goes through `/sys/class/net` and reads the files of
each interface. The kernel gives every such file the size of a page and no
mapping, so `read_file` takes the stream, and what it cuts off is the end of
the line. The numbers the kernel printed are the numbers the client's slot
gets.
-/

set_option autoImplicit false

namespace Bakaneko.NetworkAdapters
open Bakaneko.Native Bakaneko.Messages Bakaneko.Rest Bakaneko.SystemBus Bakaneko.PageReports
open Bakaneko.JsonText Bakaneko.JsonValues Bakaneko.Serialisable
open Bakaneko.DriveList (stoull raise)
open Bakaneko.KeyReconciliation (adapters_reconciled)
open Bakaneko.ReadFile (readFile buffer)
open Fallible Utf8

/-- What the mapping of a file shows, or its refusal, and what a stream reads
if it opens. -/
structure SysFile where
  mapping : Except StdException Bytes
  stream : Option Bytes

def SysFile.read (f : SysFile) : Except StdException Bytes := readFile f.mapping f.stream

/-- An entry of `/sys/class/net` when it is read: whether it has a type, the
text `inet_ntoa` makes of what `ioctl` left, and the clock. -/
structure NetEntry where
  name : Bytes
  type : Option SysFile
  address : SysFile
  operstate : SysFile
  rxBytes : SysFile
  txBytes : SysFile
  mtu : SysFile
  speed : SysFile
  inet : Bytes
  time : ℕ

def skipped (e : NetEntry) : Except StdException Bool :=
  match e.type with
  | none => .ok true
  | some type => type.read.map fun text => decide (text = bytes "772")

/-- From megabits, in 64 bits. -/
def linkSpeed (speed : Bytes) : Except StdException ℕ :=
  if speed ≠ [] ∧ speed ≠ bytes "-1" then
    (stoull speed).map fun value => value*1000000%18446744073709551616
  else .ok 0

def readAdapter (e : NetEntry) : Except StdException Adapter := do
  let macAddress ← e.address.read
  let state ← e.operstate.read
  let rx ← e.rxBytes.read
  let tx ← e.txBytes.read
  let bytesRx ← stoull rx
  let bytesTx ← stoull tx
  let mtu ← e.mtu.read
  let mtu ← stoull mtu
  let speed ← e.speed.read
  let linkSpeed ← linkSpeed speed
  return {
    name := e.name
    state := if state = bytes "up" then 1 else 0
    linkSpeed := linkSpeed
    mtu := mtu
    macAddress := macAddress
    ipAddress := if state = bytes "up" then e.inet else []
    bytesRx := bytesRx
    bytesTx := bytesTx
    time := e.time }

/-- The body of the loop. -/
def visit (e : NetEntry) : Except StdException (Option Adapter) := do
  let skip ← skipped e
  if skip then return none else (readAdapter e).map some

/-- With the entries of the directory, if it can be opened. -/
def infoAdapters (directory : Except StdException (List NetEntry)) : Outcome Adapters :=
  raise (directory.bind fun entries =>
    (entries.mapM visit).map fun found => .ok ⟨found.filterMap id⟩)

/-- What a driver tells of the speed: nothing, that it does not know, or megabits. -/
inductive Speed where
  | refused
  | unknown
  | megabits (n : ℕ)

/-- A text that the kernel prints on one line of a page. -/
structure Printed where
  text : Bytes
  plain : 0 ∉ text
  short : text.length < 4095

/-- An interface as the kernel knows it. -/
structure Nic where
  name : Bytes
  type : ℕ
  address : Printed
  operstate : Printed
  rxBytes : ℕ
  txBytes : ℕ
  mtu : ℕ
  speed : Speed
  inet : Bytes
  time : ℕ
  type_fits : IsUInt64 type
  rxBytes_fits : IsUInt64 rxBytes
  txBytes_fits : IsUInt64 txBytes
  mtu_fits : IsUInt64 mtu
  time_fits : IsUInt64 time
  speed_fits : ∀ n, speed = .megabits n → IsUInt64 n

section
variable (refusal : StdException)

/-- A page without a mapping that holds these characters. -/
def page (content : Bytes) : SysFile := ⟨.error refusal, some (buffer content 4096)⟩

def oneLine (text : Bytes) : SysFile := page refusal (text++[10])

def Speed.file : Speed → SysFile
  | .refused => page refusal []
  | .unknown => oneLine refusal (bytes "-1")
  | .megabits n => oneLine refusal (numeral n)

/-- What stands in the directory: an interface, or something without a type. -/
inductive Found where
  | nic (nic : Nic)
  | other (entry : NetEntry) (untyped : entry.type = none)

def Found.entry : Found → NetEntry
  | .nic n => {
      name := n.name
      type := some (oneLine refusal (numeral n.type))
      address := oneLine refusal n.address.text
      operstate := oneLine refusal n.operstate.text
      rxBytes := oneLine refusal (numeral n.rxBytes)
      txBytes := oneLine refusal (numeral n.txBytes)
      mtu := oneLine refusal (numeral n.mtu)
      speed := n.speed.file refusal
      inet := n.inet
      time := n.time }
  | .other entry _ => entry

end

/-- All interfaces but the loopback one. -/
def Found.listed : Found → Option Nic
  | .nic n => if n.type = 772 then none else some n
  | .other _ _ => none

def Speed.bits : Speed → ℕ
  | .megabits n => n*1000000%18446744073709551616
  | _ => 0

def record (nic : Nic) : Adapter where
  name := nic.name
  state := if nic.operstate.text = bytes "up" then 1 else 0
  linkSpeed := nic.speed.bits
  mtu := nic.mtu
  macAddress := nic.address.text
  ipAddress := if nic.operstate.text = bytes "up" then nic.inet else []
  bytesRx := nic.rxBytes
  bytesTx := nic.txBytes
  time := nic.time

def listing (founds : List Found) : Adapters := ⟨(founds.filterMap Found.listed).map record⟩

section
variable (refusal : StdException)

theorem oneLine_read (text : Bytes) (hplain : 0 ∉ text) (hshort : text.length < 4095) :
    (oneLine refusal text).read = .ok text := by
  have hcontent : 0 ∉ text++[10] := by simp [hplain]
  have hsize : (text++[10]).length < 4096 := by
    rw [List.length_append, List.length_singleton]
    omega
  have htrimmed := ReadFile.trimmed_oversized (text++[10]) 4096 hcontent hsize
  rw [List.dropLast_concat] at htrimmed
  exact congrArg Except.ok htrimmed

theorem refused_read : (page refusal []).read = .ok [] :=
  congrArg Except.ok (ReadFile.trimmed_oversized [] 4096 (by simp) (by decide))

theorem numeral_read (n : ℕ) (hn : IsUInt64 n) :
    (oneLine refusal (numeral n)).read = .ok (numeral n) := by
  refine oneLine_read refusal _ (fun h => absurd (numeral_mem n 0 h) (by decide)) ?_
  have hlen := Nat.toDigits_length 10 n 20 (by decide) (hn.trans (by decide))
  rw [numeral, List.length_map]
  omega

theorem speed_read (speed : Speed) (hfits : ∀ n, speed = .megabits n → IsUInt64 n) :
    ((speed.file refusal).read.bind linkSpeed) = .ok speed.bits := by
  cases speed with
  | refused =>
    rw [Speed.file, refused_read]
    rfl
  | unknown =>
    rw [Speed.file, oneLine_read refusal _ (by decide) (by decide)]
    rfl
  | megabits n =>
    have hn := hfits n rfl
    have hne := (numeral_digits n).1
    have hsign : numeral n ≠ bytes "-1" := by
      intro h
      exact absurd (numeral_mem n 45 (h ▸ by decide)) (by decide)
    rw [Speed.file, numeral_read refusal n hn]
    show linkSpeed (numeral n) = _
    rw [linkSpeed, if_pos ⟨hne, hsign⟩, DriveEntries.stoull_number n hn]
    rfl

theorem readAdapter_nic (n : Nic) :
    readAdapter ((Found.nic n).entry refusal) = .ok (record n) := by
  have hspeed := speed_read refusal n.speed n.speed_fits
  rw [readAdapter, Found.entry]
  dsimp only
  rw [oneLine_read refusal _ n.address.plain n.address.short,
    oneLine_read refusal _ n.operstate.plain n.operstate.short,
    numeral_read refusal _ n.rxBytes_fits, numeral_read refusal _ n.txBytes_fits,
    numeral_read refusal _ n.mtu_fits]
  show (stoull (numeral n.rxBytes)).bind _ = _
  rw [DriveEntries.stoull_number _ n.rxBytes_fits]
  show (stoull (numeral n.txBytes)).bind _ = _
  rw [DriveEntries.stoull_number _ n.txBytes_fits]
  show (stoull (numeral n.mtu)).bind _ = _
  rw [DriveEntries.stoull_number _ n.mtu_fits]
  show (n.speed.file refusal).read.bind _ = _
  cases hread : (n.speed.file refusal).read with
  | error e =>
    rw [hread] at hspeed
    cases hspeed
  | ok text =>
    rw [hread] at hspeed
    have hbits : linkSpeed text = .ok n.speed.bits := hspeed
    show (linkSpeed text).bind _ = _
    rw [hbits]
    rfl

theorem visit_found (found : Found) :
    visit (found.entry refusal) = .ok (found.listed.map record) := by
  cases found with
  | other entry untyped =>
    rw [visit, skipped, Found.entry, untyped]
    rfl
  | nic n =>
    have hskip : skipped ((Found.nic n).entry refusal) = .ok (decide (n.type = 772)) := by
      rw [skipped, Found.entry]
      dsimp only
      rw [numeral_read refusal _ n.type_fits]
      refine congrArg Except.ok (decide_eq_decide.mpr ⟨fun h => ?_, fun h => ?_⟩)
      · exact numeral_inj n.type 772 (h.trans (by decide +kernel))
      · rw [h]
        decide +kernel
    rw [visit, hskip, Found.listed]
    show (if decide (n.type = 772) then _ else _) = _
    by_cases h772 : n.type = 772
    · rw [if_pos (decide_eq_true h772), if_pos h772]
      rfl
    · rw [if_neg (by simpa using h772), if_neg h772, readAdapter_nic]
      rfl

/-- Behind the loop the list has every interface but the loopback one, in the
order of the directory, with the numbers the kernel printed. -/
theorem infoAdapters_found (founds : List Found) :
    infoAdapters (.ok (founds.map (Found.entry refusal))) = .ok (.ok (listing founds)) := by
  have hmap : (founds.map (Found.entry refusal)).mapM visit =
      .ok (founds.map fun found => found.listed.map record) := by
    induction founds with
    | nil => rfl
    | cons found founds ih =>
      rw [List.map_cons, List.mapM_cons, visit_found, ih]
      rfl
  have hlisted : (founds.map fun found => found.listed.map record).filterMap id =
      (founds.filterMap Found.listed).map record := by
    rw [List.filterMap_map, List.map_filterMap]
    rfl
  rw [infoAdapters]
  show raise (((founds.map (Found.entry refusal)).mapM visit).map _) = _
  rw [hmap, listing, ← hlisted]
  rfl

end

theorem listing_held (founds : List Found) : (listing founds).Held := by
  intro adapter hadapter
  obtain ⟨n, -, rfl⟩ := List.mem_map.mp hadapter
  refine ⟨?_, ?_, n.mtu_fits, n.rxBytes_fits, n.txBytes_fits, n.time_fits⟩
  · show (if _ then _ else _) = 0 ∨ (if _ then _ else _) = 1
    split
    · exact .inr rfl
    · exact .inl rfl
  · show IsUInt64 n.speed.bits
    cases n.speed with
    | refused => exact Nat.zero_lt_of_ne_zero (by decide)
    | unknown => exact Nat.zero_lt_of_ne_zero (by decide)
    | megabits k => exact Nat.mod_lt _ (by decide)

/-- The texts of an interface that are sent. -/
def Nic.Sendable (n : Nic) : Prop :=
  Valid n.name ∧ Valid n.address.text ∧ (n.operstate.text = bytes "up" → Valid n.inet)

theorem record_utf8 (n : Nic) : AllUtf8 (record n).toJson ↔ n.Sendable := by
  rw [Adapter.toJson, allUtf8_record Adapter.keys _ rfl (by decide +kernel)]
  simp only [List.forall_mem_cons, allUtf8_text, allUtf8_number, List.not_mem_nil, false_implies,
    implies_true, true_and, and_true, record, Nic.Sendable]
  refine and_congr_right fun _ => and_congr_right fun _ => ?_
  by_cases hup : n.operstate.text = bytes "up"
  · simp [hup]
  · simp [hup, valid_nil]

theorem listing_utf8 (founds : List Found) : AllUtf8 (listing founds).toJson ↔
    ∀ n ∈ founds.filterMap Found.listed, n.Sendable := by
  rw [Adapters.toJson, allUtf8_record Adapters.keys _ rfl (by decide +kernel)]
  simp only [List.forall_mem_singleton, allUtf8_list, listing, List.forall_mem_map, record_utf8]

instance (n : Nic) : Decidable n.Sendable := inferInstanceAs (Decidable (_ ∧ _ ∧ (_ → _)))

/-- A host at one moment. -/
structure Round where
  host : Host
  manager : Option ServiceManager
  founds : List Found

def Round.report (refusal : StdException) (r : Round) : Report :=
  ⟨{ r.host with adapters := infoAdapters (.ok (r.founds.map (Found.entry refusal))) }, r.manager⟩

def Round.Sendable (r : Round) : Prop := ∀ n ∈ r.founds.filterMap Found.listed, n.Sendable

instance (r : Round) : Decidable r.Sendable := inferInstanceAs (Decidable (∀ _ ∈ _, _))

section
variable (json : Nlohmann) (refusal : StdException)

/-- What the client has been sent of some moments, and the names in its table. -/
def sent (rounds : List Round) : List Adapters :=
  adaptersPage.received json (rounds.map (Round.report refusal))

def names (rounds : List Round) : List Bytes :=
  (KeyReconciliation.adaptersAfter (sent json refusal rounds)).updates.map Adapter.name

theorem sent_eq (hjson : Inverse json) (hstrict : Strict json) (rounds : List Round) :
    sent json refusal rounds = (rounds.filter (·.Sendable)).map fun r => listing r.founds := by
  have hsent := adapters_served.received_listed json hjson hstrict (Round.report refusal)
    (fun r => listing r.founds) (fun r => infoAdapters_found refusal r.founds)
    (fun r => listing_held r.founds) rounds
  refine hsent.trans (congrArg (List.map _) (List.filter_congr fun r _ => ?_))
  exact decide_eq_decide.mpr (listing_utf8 r.founds)

/-- Round by round the client's slot gets every interface of the host but the
loopback one, with the kernel's own numbers, unless a text of one is no UTF-8.
Behind a round that it gets, the table has the names of these interfaces. -/
theorem interfaces_received (hjson : Inverse json) (hstrict : Strict json) (rounds : List Round) :
    sent json refusal rounds = (rounds.filter (·.Sendable)).map (fun r => listing r.founds) ∧
    ∀ before last, rounds = before++[last] → last.Sendable →
      KeyReconciliation.Reconciled (names json refusal before) (names json refusal rounds)
        ((last.founds.filterMap Found.listed).map Nic.name) := by
  refine ⟨sent_eq json refusal hjson hstrict rounds, ?_⟩
  rintro before last rfl hlast
  have hsent : sent json refusal (before++[last]) =
      sent json refusal before++[listing last.founds] := by
    rw [sent_eq json refusal hjson hstrict, sent_eq json refusal hjson hstrict, List.filter_append,
      List.map_append, List.filter_cons_of_pos (by simpa using hlast)]
    rfl
  have hnames : (listing last.founds).adapters.map Adapter.name =
      (last.founds.filterMap Found.listed).map Nic.name := by
    rw [listing, List.map_map]
    rfl
  rw [names, names, hsent, ← hnames]
  exact adapters_reconciled (sent json refusal before) (listing last.founds)

end

def ethernet : Nic where
  name := bytes "eth0"
  type := 1
  address := ⟨bytes "52:54:00:12:34:56", by decide, by decide⟩
  operstate := ⟨bytes "up", by decide, by decide⟩
  rxBytes := 7000
  txBytes := 900
  mtu := 1500
  speed := .megabits 1000
  inet := bytes "10.0.0.7"
  time := 5
  type_fits := by unfold IsUInt64; decide
  rxBytes_fits := by unfold IsUInt64; decide
  txBytes_fits := by unfold IsUInt64; decide
  mtu_fits := by unfold IsUInt64; decide
  time_fits := by unfold IsUInt64; decide
  speed_fits := by
    rintro n ⟨⟩
    unfold IsUInt64
    decide

def loopback : Nic :=
  { ethernet with name := bytes "lo", type := 772, type_fits := by unfold IsUInt64; decide }

theorem interfaces_received_ethernet : sent library (.ioError [])
    [⟨busDown, none, [.nic loopback, .nic ethernet]⟩] =
      [⟨[⟨bytes "eth0", 1, 1000000000, 1500, bytes "52:54:00:12:34:56", bytes "10.0.0.7", 7000,
        900, 5⟩]⟩] :=
  (interfaces_received library (.ioError []) library_inverse library_strict
    [⟨busDown, none, [.nic loopback, .nic ethernet]⟩]).1.trans (by decide +kernel)

end Bakaneko.NetworkAdapters
