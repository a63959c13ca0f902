import Bakaneko.DriveList
import Bakaneko.Interfaces
import Bakaneko.ReadFile
import Bakaneko.Library.LastWrite

/-!
# What the host says of itself

`Info::System` on Linux reads the lines of two files of assignments, the type
of the chassis if neither gives an icon, and the addresses of the interfaces.
A key that is assigned more than once has its last value. An assignment of
nothing at all is the one line it cannot read.
-/

set_option autoImplicit false

namespace Bakaneko.SystemInfo
open Bakaneko.Native Bakaneko.Text Bakaneko.Messages Bakaneko.Rest Bakaneko.Interfaces
open Bakaneko.DriveList (raise raise_ok)
open Fallible LastWrite PartialRun

/-- `front` of an empty string is no character. -/
def removeQuotes (input : Bytes) : Except Failure Bytes :=
  if input = [] then .error (.undefined .pastEnd)
  else if input.head? = some 34 ∧ input.getLast? = some 34 then
    .ok ((input.drop 1).take (sizeT (input.length-2)))
  else .ok input

/-- What `getline` brings while the stream is good. Behind a last line without
an end there is one more round, and so there is behind the end of the last. -/
def getlines : Bytes → Bytes → List Bytes
  | line, [] => if line = [] then [[]] else [line, []]
  | line, c::rest => if c = 10 then line::getlines [] rest else getlines (line++[c]) rest

/-- A file that cannot be opened has no lines. -/
def fileLines (file : Option Bytes) : List Bytes := (file.map (getlines [])).getD []

section
variable {σ : Type}

/-- `if (temp.find(key) == 0) … = remove_quotes(temp.substr(…))` -/
def assign (key : Bytes) (set : Bytes → σ → σ) (line : Bytes) (s : σ) : Except Failure σ :=
  if key <+: line then (removeQuotes (line.drop key.length)).map (set · s) else .ok s

end

inductive OsKey where
  | name | version | id | prettyName
  deriving DecidableEq

def OsKey.text : OsKey → Bytes
  | .name => bytes "NAME="
  | .version => bytes "VERSION="
  | .id => bytes "ID="
  | .prettyName => bytes "PRETTY_NAME="

structure OsRelease where
  name : Bytes := []
  version : Bytes := []
  id : Bytes := []
  prettyName : Bytes := []

def OsRelease.value (s : OsRelease) : OsKey → Bytes
  | .name => s.name
  | .version => s.version
  | .id => s.id
  | .prettyName => s.prettyName

/-- The body of the loop over `/etc/os-release`. -/
def osLine (line : Bytes) (s : OsRelease) : Except Failure OsRelease := do
  let s ← assign OsKey.name.text (fun v s => { s with name := v }) line s
  let s ← assign OsKey.version.text (fun v s => { s with version := v }) line s
  let s ← assign OsKey.id.text (fun v s => { s with id := v }) line s
  assign OsKey.prettyName.text (fun v s => { s with prettyName := v }) line s

inductive InfoKey where
  | iconName | prettyHostname
  deriving DecidableEq

def InfoKey.text : InfoKey → Bytes
  | .iconName => bytes "ICON_NAME="
  | .prettyHostname => bytes "PRETTY_HOSTNAME="

structure MachineInfo where
  icon : Bytes
  hostname : Bytes

def MachineInfo.value (s : MachineInfo) : InfoKey → Bytes
  | .iconName => s.icon
  | .prettyHostname => s.hostname

/-- The body of the loop over `/etc/machine-info`. -/
def infoLine (line : Bytes) (s : MachineInfo) : Except Failure MachineInfo := do
  let s ← assign InfoKey.iconName.text (fun v s => { s with icon := v }) line s
  assign InfoKey.prettyHostname.text (fun v s => { s with hostname := v }) line s

def chassisTypeAsSystemIcon (a : ℤ) : Bytes :=
  if a ∈ [0x01, 0x03, 0x04, 0x05, 0x06, 0x07, 0x0D, 0x10, 0x22, 0x23, 0x24] then
    bytes "computer"
  else if a ∈ [0x08, 0x09, 0x0A, 0x0C, 0x0E, 0x1F, 0x20] then bytes "computer-laptop"
  else if a ∈ [0x11, 0x12, 0x13, 0x14, 0x15, 0x16, 0x17, 0x1C, 0x1D] then bytes "network-server"
  else if a = 0x0B then bytes "phone"
  else if a = 0x1E then bytes "tablet"
  else if a ∈ [0x02, 0x0F, 0x18, 0x19, 0x1A, 0x1B, 0x21] then bytes "unknown"
  else []

def stoiException : StoiError → StdException
  | .invalidArgument => .invalidArgument (bytes "stoi")
  | .outOfRange => .outOfRange (bytes "stoi")

def trimCopy (s : Bytes) : Bytes := rtrim (s.dropWhile isspace)

/-- What the function finds outside the program. A file that exists shows a
mapping or its refusal, and what a stream reads. -/
structure Machine where
  nodename : Bytes
  sysname : Bytes
  release : Bytes
  machine : Bytes
  osRelease : Option Bytes
  machineInfo : Option Bytes
  chassisType : Option (Except StdException Bytes × Option Bytes)
  interfaces : List IfAddrs
  inetNtop : SockAddr → Bytes

def operatingSystem (os : OsRelease) : Bytes :=
  if os.prettyName = [] ∨ os.id = bytes "antergos" ∨ os.id = bytes "linuxmint" ∨
      os.id = bytes "ubuntu" then trimCopy (os.name++bytes " "++os.version)
  else os.prettyName

def readChassis (file : Except StdException Bytes × Option Bytes) : Except StdException Bytes := do
  let text ← ReadFile.readFile file.1 file.2
  let value ← (stoi text).mapError stoiException
  return chassisTypeAsSystemIcon value.1

def iconOf (m : Machine) (icon : Bytes) : Except StdException Bytes :=
  if icon = bytes "unknown" then match m.chassisType with
    | none => .ok icon
    | some file => readChassis file
  else .ok icon

def readSystem (m : Machine) : Except Failure System := do
  let os ← run osLine (fileLines m.osRelease) {}
  let info ← run infoLine (fileLines m.machineInfo) ⟨bytes "unknown", m.nodename⟩
  let icon ← raise (iconOf m info.icon)
  let found ← (addresses m.inetNtop m.interfaces).mapError .undefined
  return {
    hostname := info.hostname
    macAddress := found.macAddress
    ipAddress := found.ipAddress
    operatingSystem := operatingSystem os
    kernel := m.sysname++bytes " "++m.release
    architecture := m.machine
    icon := icon }

def infoSystem (m : Machine) : Outcome System := (readSystem m).map .ok

/-- The text between quotes, if it stands between two. -/
def unquoted (s : Bytes) : Bytes :=
  if s.head? = some 34 ∧ s.getLast? = some 34 then (s.drop 1).take (sizeT (s.length-2)) else s

/-- What a line assigns to a key. -/
def assigned (key line : Bytes) : Option Bytes :=
  if key <+: line then some (unquoted (line.drop key.length)) else none

theorem removeQuotes_ok (s v : Bytes) : removeQuotes s = .ok v ↔ s ≠ [] ∧ v = unquoted s := by
  rw [removeQuotes, unquoted]
  split
  · simp [*]
  · split <;> simp [*, eq_comm]

theorem drop_key (key line : Bytes) (h : key <+: line) : line.drop key.length = [] ↔ line = key := by
  obtain ⟨rest, rfl⟩ := h
  simp

theorem assign_ok {σ : Type} (key : Bytes) (set : Bytes → σ → σ) (line : Bytes) (s t : σ) :
    assign key set line s = .ok t ↔
      line ≠ key ∧ t = ((assigned key line).map (set · s)).getD s := by
  rw [assign, assigned]
  by_cases hp : key <+: line
  · rw [if_pos hp, if_pos hp, map_ok]
    simp only [removeQuotes_ok, Ne, drop_key key line hp, Option.map_some, Option.getD_some]
    constructor
    · rintro ⟨v, ⟨hne, rfl⟩, rfl⟩
      exact ⟨hne, rfl⟩
    · rintro ⟨hne, rfl⟩
      exact ⟨_, ⟨hne, rfl⟩, rfl⟩
  · have hne : line ≠ key := by
      rintro rfl
      exact hp (List.prefix_refl line)
    rw [if_neg hp, if_neg hp]
    simp [hne, eq_comm]

/-- What a line of `/etc/os-release` makes of the values so far. -/
def osNext (line : Bytes) (s : OsRelease) : OsRelease where
  name := (assigned OsKey.name.text line).getD s.name
  version := (assigned OsKey.version.text line).getD s.version
  id := (assigned OsKey.id.text line).getD s.id
  prettyName := (assigned OsKey.prettyName.text line).getD s.prettyName

def infoNext (line : Bytes) (s : MachineInfo) : MachineInfo where
  icon := (assigned InfoKey.iconName.text line).getD s.icon
  hostname := (assigned InfoKey.prettyHostname.text line).getD s.hostname

theorem osLine_ok (line : Bytes) (s t : OsRelease) :
    osLine line s = .ok t ↔ (∀ key : OsKey, line ≠ key.text) ∧ t = osNext line s := by
  simp only [osLine, bind_ok, assign_ok]
  constructor
  · rintro ⟨_, ⟨hname, rfl⟩, _, ⟨hversion, rfl⟩, _, ⟨hid, rfl⟩, hpretty, rfl⟩
    refine ⟨fun key => by cases key <;> assumption, ?_⟩
    rw [osNext]
    cases assigned OsKey.name.text line <;> cases assigned OsKey.version.text line <;>
      cases assigned OsKey.id.text line <;> cases assigned OsKey.prettyName.text line <;> rfl
  · rintro ⟨hne, rfl⟩
    refine ⟨_, ⟨hne .name, rfl⟩, _, ⟨hne .version, rfl⟩, _, ⟨hne .id, rfl⟩, hne .prettyName, ?_⟩
    rw [osNext]
    cases assigned OsKey.name.text line <;> cases assigned OsKey.version.text line <;>
      cases assigned OsKey.id.text line <;> cases assigned OsKey.prettyName.text line <;> rfl

theorem infoLine_ok (line : Bytes) (s t : MachineInfo) :
    infoLine line s = .ok t ↔ (∀ key : InfoKey, line ≠ key.text) ∧ t = infoNext line s := by
  simp only [infoLine, bind_ok, assign_ok]
  constructor
  · rintro ⟨_, ⟨hicon, rfl⟩, hhostname, rfl⟩
    refine ⟨fun key => by cases key <;> assumption, ?_⟩
    rw [infoNext]
    cases assigned InfoKey.iconName.text line <;>
      cases assigned InfoKey.prettyHostname.text line <;> rfl
  · rintro ⟨hne, rfl⟩
    refine ⟨_, ⟨hne .iconName, rfl⟩, hne .prettyHostname, ?_⟩
    rw [infoNext]
    cases assigned InfoKey.iconName.text line <;>
      cases assigned InfoKey.prettyHostname.text line <;> rfl

/-- The value a file leaves a key, if it assigns one. -/
def lastValue (file : Option Bytes) (key : Bytes) : Option Bytes :=
  last (assigned key) (fileLines file)

/-- The values the first file leaves. -/
def osOf (m : Machine) : OsRelease where
  name := (lastValue m.osRelease OsKey.name.text).getD []
  version := (lastValue m.osRelease OsKey.version.text).getD []
  id := (lastValue m.osRelease OsKey.id.text).getD []
  prettyName := (lastValue m.osRelease OsKey.prettyName.text).getD []

/-- The values the second file leaves. -/
def infoOf (m : Machine) : MachineInfo where
  icon := (lastValue m.machineInfo InfoKey.iconName.text).getD (bytes "unknown")
  hostname := (lastValue m.machineInfo InfoKey.prettyHostname.text).getD m.nodename

/-- The icon of the file, or that of the chassis where there is one to read. -/
def Icon (m : Machine) (icon : Bytes) : Prop :=
  if (infoOf m).icon = bytes "unknown" then match m.chassisType with
    | none => icon = (infoOf m).icon
    | some file => ∃ text value length, ReadFile.readFile file.1 file.2 = .ok text ∧
        stoi text = .ok (value, length) ∧ icon = chassisTypeAsSystemIcon value
  else icon = (infoOf m).icon

/-- The interface the addresses are taken from. -/
def adapterName (m : Machine) : Bytes := ((wanted isLo m.interfaces).map (·.1)).getD []

/-- No key is assigned nothing at all, and no entry that is asked for its
address is without one. -/
structure Readable (m : Machine) : Prop where
  os : ∀ line ∈ fileLines m.osRelease, ∀ key : OsKey, line ≠ key.text
  info : ∀ line ∈ fileLines m.machineInfo, ∀ key : InfoKey, line ≠ key.text
  family : FamilySafe m.interfaces
  packet : PacketSafe (adapterName m) m.interfaces

/-- What is reported of a machine. -/
structure Describes (m : Machine) (out : System) : Prop where
  hostname : out.hostname = (infoOf m).hostname
  macAddress : out.macAddress = (m.interfaces.findSome? (packetIn (adapterName m))).getD []
  ipAddress : out.ipAddress =
    ((wanted isLo m.interfaces).map fun entry => m.inetNtop entry.2).getD []
  operatingSystem : out.operatingSystem = operatingSystem (osOf m)
  kernel : out.kernel = m.sysname++bytes " "++m.release
  architecture : out.architecture = m.machine
  vmPlatform : out.vmPlatform = []
  icon : Icon m out.icon

theorem osLines_ok (m : Machine) (s : OsRelease) : run osLine (fileLines m.osRelease) {} = .ok s ↔
    (∀ line ∈ fileLines m.osRelease, ∀ key : OsKey, line ≠ key.text) ∧ s = osOf m := by
  refine run_ok_iff osLine OsRelease.value (fun key => assigned key.text) _ ?_ ?_ ?_ _ _ s _ ?_
  · intro line s t h key
    obtain ⟨-, rfl⟩ := (osLine_ok line s t).mp h
    cases key <;> rfl
  · intro line s
    simp [osLine_ok]
  · intro s t h
    cases s
    cases t
    simp only [OsRelease.mk.injEq]
    exact ⟨h .name, h .version, h .id, h .prettyName⟩
  · intro key
    cases key <;> rfl

theorem infoLines_ok (m : Machine) (s : MachineInfo) :
    run infoLine (fileLines m.machineInfo) ⟨bytes "unknown", m.nodename⟩ = .ok s ↔
      (∀ line ∈ fileLines m.machineInfo, ∀ key : InfoKey, line ≠ key.text) ∧ s = infoOf m := by
  refine run_ok_iff infoLine MachineInfo.value (fun key => assigned key.text) _ ?_ ?_ ?_ _ _ s _ ?_
  · intro line s t h key
    obtain ⟨-, rfl⟩ := (infoLine_ok line s t).mp h
    cases key <;> rfl
  · intro line s
    simp [infoLine_ok]
  · intro s t h
    cases s
    cases t
    simp only [MachineInfo.mk.injEq]
    exact ⟨h .iconName, h .prettyHostname⟩
  · intro key
    cases key <;> rfl

theorem readChassis_ok (file : Except StdException Bytes × Option Bytes) (icon : Bytes) :
    readChassis file = .ok icon ↔ ∃ text value length,
      ReadFile.readFile file.1 file.2 = .ok text ∧ stoi text = .ok (value, length) ∧
        icon = chassisTypeAsSystemIcon value := by
  simp only [readChassis, bind_ok, mapError_ok, return_ok]
  constructor
  · rintro ⟨text, htext, ⟨value, length⟩, hvalue, rfl⟩
    exact ⟨text, value, length, htext, hvalue, rfl⟩
  · rintro ⟨text, value, length, htext, hvalue, rfl⟩
    exact ⟨text, htext, (value, length), hvalue, rfl⟩

theorem iconOf_ok (m : Machine) (icon : Bytes) :
    iconOf m (infoOf m).icon = .ok icon ↔ Icon m icon := by
  rw [iconOf, Icon]
  split
  · cases m.chassisType with
    | none => simp [eq_comm]
    | some file => exact readChassis_ok file icon
  · simp [eq_comm]

theorem readSystem_ok (m : Machine) (out : System) :
    readSystem m = .ok out ↔ Readable m ∧ Describes m out := by
  simp only [readSystem, bind_ok, mapError_ok, raise_ok, return_ok, osLines_ok, infoLines_ok,
    addresses_ok]
  constructor
  · rintro ⟨_, ⟨hos, rfl⟩, _, ⟨hinfo, rfl⟩, icon, hicon, _, ⟨hfamily, hpacket, rfl⟩, rfl⟩
    exact ⟨⟨hos, hinfo, hfamily, hpacket⟩,
      ⟨rfl, rfl, rfl, rfl, rfl, rfl, rfl, (iconOf_ok m icon).mp hicon⟩⟩
  · rintro ⟨hreadable, h⟩
    refine ⟨_, ⟨hreadable.os, rfl⟩, _, ⟨hreadable.info, rfl⟩, out.icon, (iconOf_ok m _).mpr h.icon,
      _, ⟨hreadable.family, hreadable.packet, rfl⟩, ?_⟩
    obtain ⟨hhostname, hmac, hip, hos, hkernel, harchitecture, hplatform, -⟩ := h
    cases out
    simp only [System.mk.injEq]
    exact ⟨hhostname, hmac, hip, hos, hkernel, harchitecture, hplatform, trivial⟩

/-- The report is that of the values assigned last. There is one exactly when
no line ends behind its key, the chassis has a number if it is asked for, and
the addresses can be looked for. -/
theorem infoSystem_iff (m : Machine) (reply : Except Errors System) :
    infoSystem m = .ok reply ↔ Readable m ∧ ∃ out, reply = .ok out ∧ Describes m out := by
  simp only [infoSystem, map_ok, readSystem_ok]
  constructor
  · rintro ⟨out, ⟨hreadable, h⟩, rfl⟩
    exact ⟨hreadable, out, rfl, h⟩
  · rintro ⟨hreadable, out, rfl, h⟩
    exact ⟨out, ⟨hreadable, h⟩, rfl⟩

theorem readSystem_returns (m : Machine) (icon : Bytes) (h : Readable m) (hicon : Icon m icon) :
    ∃ out, readSystem m = .ok out :=
  ⟨{ hostname := _, macAddress := _, ipAddress := _, operatingSystem := _, kernel := _,
      architecture := _, icon },
    (readSystem_ok m _).mpr ⟨h, ⟨rfl, rfl, rfl, rfl, rfl, rfl, rfl, hicon⟩⟩⟩

/-- A line of a file of assignments: a quoted value, or something else. -/
inductive Entry (κ : Type) where
  | value (key : κ) (text : Bytes)
  | other (line : Bytes)

/-- The keys of a file, each a word and the equals sign behind it. -/
structure Keys (κ : Type) where
  word : κ → Bytes
  plain : ∀ key, 61 ∉ word key ∧ 10 ∉ word key
  distinct : ∀ j k, word j = word k → j = k

section
variable {κ : Type} (keys : Keys κ)

def Keys.text (key : κ) : Bytes := keys.word key++[61]

def Entry.line : Entry κ → Bytes
  | .value key text => keys.text key++34::(text++[34])
  | .other line => line

/-- A value has no end of line and fits a string, and another line does not
begin as an assignment does. -/
def Entry.Plain : Entry κ → Prop
  | .value _ text => 10 ∉ text ∧ text.length < 18446744073709551616
  | .other line => 10 ∉ line ∧ ∀ key, ¬ keys.text key <+: line

/-- What an entry gives a key. -/
def Entry.gives [DecidableEq κ] (key : κ) : Entry κ → Option Bytes
  | .value k text => if k = key then some text else none
  | .other _ => none

theorem word_of_text (key : κ) (rest : Bytes) :
    (keys.text key++rest).takeWhile (· ≠ 61) = keys.word key := by
  have hword : ∀ c ∈ keys.word key, decide (c ≠ 61) = true := fun c hc =>
    decide_eq_true fun h => (keys.plain key).1 (h ▸ hc)
  rw [Keys.text, List.append_assoc, List.takeWhile_append_of_pos hword]
  simp

theorem prefix_text (j k : κ) (rest : Bytes) : keys.text k <+: keys.text j++rest ↔ j = k := by
  constructor
  · rintro ⟨tail, ht⟩
    have hword := congrArg (List.takeWhile (· ≠ 61)) ht
    rw [word_of_text, word_of_text] at hword
    exact keys.distinct j k hword.symm
  · rintro rfl
    exact List.prefix_append _ _

theorem unquoted_quoted (text : Bytes) (hsize : text.length < 18446744073709551616) :
    unquoted (34::(text++[34])) = text := by
  have hlength : sizeT ((34::(text++[34]) : Bytes).length-2) = text.length := by
    rw [sizeT_of_nonneg (by simp; omega) (by simp; omega)]
    simp
    omega
  have hquotes : (34::(text++[34]) : Bytes).getLast? = some 34 := by
    rw [← List.cons_append, List.getLast?_concat]
  rw [unquoted, if_pos ⟨rfl, hquotes⟩, hlength]
  simp

theorem assigned_line [DecidableEq κ] (entry : Entry κ) (h : entry.Plain keys) (key : κ) :
    assigned (keys.text key) (entry.line keys) = entry.gives key := by
  cases entry with
  | value k text =>
    rw [assigned, Entry.line, Entry.gives]
    by_cases hk : k = key
    · subst hk
      rw [if_pos (List.prefix_append _ _), if_pos rfl, List.drop_left, unquoted_quoted text h.2]
    · rw [if_neg hk, if_neg fun hp => hk ((prefix_text keys k key _).mp hp)]
  | other line => exact if_neg (h.2 key)

theorem line_free (entry : Entry κ) (h : entry.Plain keys) : 10 ∉ entry.line keys := by
  cases entry with
  | value k text =>
    have hk := (keys.plain k).2
    simp [Entry.line, Keys.text, hk, h.1]
  | other line => exact h.1

theorem line_ne (entry : Entry κ) (h : entry.Plain keys) (key : κ) :
    entry.line keys ≠ keys.text key := by
  intro he
  cases entry with
  | value k text =>
    have hlength := congrArg List.length he
    have hprefix : keys.text key <+: keys.text k++34::(text++[34]) := by
      rw [← he]
      exact List.prefix_refl _
    obtain rfl := (prefix_text keys k key _).mp hprefix
    simp [Entry.line] at hlength
  | other line => exact h.2 key (he ▸ List.prefix_refl line)

theorem getlines_line (begun line rest : Bytes) (h : 10 ∉ line) :
    getlines begun (line++10::rest) = (begun++line)::getlines [] rest := by
  induction line generalizing begun with
  | nil =>
    rw [List.nil_append, getlines, if_pos rfl, List.append_nil]
  | cons c line ih =>
    obtain ⟨hc, hline⟩ := not_or.mp (mt List.mem_cons.mpr h)
    rw [List.cons_append, getlines, if_neg (Ne.symm hc), ih _ hline]
    simp

theorem getlines_unlines (lines : List Bytes) (h : ∀ line ∈ lines, 10 ∉ line) :
    getlines [] (unlines lines) = lines++[[]] := by
  induction lines with
  | nil => rfl
  | cons line lines ih =>
    obtain ⟨hline, hrest⟩ := List.forall_mem_cons.mp h
    rw [unlines, List.flatMap_cons, List.append_assoc, List.singleton_append,
      getlines_line [] line _ hline]
    exact congrArg (line::·) (ih hrest)

/-- The file with these lines. -/
def file (entries : List (Entry κ)) : Option Bytes := some (unlines (entries.map (Entry.line keys)))

theorem fileLines_file (entries : List (Entry κ)) (h : ∀ entry ∈ entries, entry.Plain keys) :
    fileLines (file keys entries) = entries.map (Entry.line keys)++[[]] := by
  refine getlines_unlines _ fun line hline => ?_
  obtain ⟨entry, hentry, rfl⟩ := List.mem_map.mp hline
  exact line_free keys entry (h entry hentry)

theorem file_readable (entries : List (Entry κ)) (h : ∀ entry ∈ entries, entry.Plain keys) :
    ∀ line ∈ fileLines (file keys entries), ∀ key, line ≠ keys.text key := by
  intro line hline key
  rw [fileLines_file keys entries h] at hline
  rcases List.mem_append.mp hline with hline | hline
  · obtain ⟨entry, hentry, rfl⟩ := List.mem_map.mp hline
    exact line_ne keys entry (h entry hentry) key
  · rw [List.mem_singleton.mp hline]
    simp [Keys.text]

/-- A key is read as it was given last. -/
theorem lastValue_file [DecidableEq κ] (entries : List (Entry κ))
    (h : ∀ entry ∈ entries, entry.Plain keys) (key : κ) :
    lastValue (file keys entries) (keys.text key) = last (Entry.gives key) entries := by
  have hnil : last (assigned (keys.text key)) [[]] = none := by
    have hne : ¬ keys.text key <+: [] := by simp [Keys.text]
    rw [last, List.filterMap_cons, assigned, if_neg hne]
    rfl
  rw [lastValue, fileLines_file keys entries h, last_append, hnil, Option.none_or, last, last,
    List.filterMap_map]
  congr 1
  exact List.filterMap_congr fun entry hentry => assigned_line keys entry (h entry hentry) key

end

def osKeys : Keys OsKey where
  word
    | .name => bytes "NAME"
    | .version => bytes "VERSION"
    | .id => bytes "ID"
    | .prettyName => bytes "PRETTY_NAME"
  plain key := by cases key <;> decide
  distinct j k := by cases j <;> cases k <;> decide

def infoKeys : Keys InfoKey where
  word
    | .iconName => bytes "ICON_NAME"
    | .prettyHostname => bytes "PRETTY_HOSTNAME"
  plain key := by cases key <;> decide
  distinct j k := by cases j <;> cases k <;> decide

theorem osKeys_text (key : OsKey) : key.text = osKeys.text key := by cases key <;> rfl

theorem infoKeys_text (key : InfoKey) : key.text = infoKeys.text key := by cases key <;> rfl

theorem files_readable (m : Machine) (os : List (Entry OsKey)) (info : List (Entry InfoKey))
    (hos : ∀ entry ∈ os, entry.Plain osKeys) (hinfo : ∀ entry ∈ info, entry.Plain infoKeys)
    (hosRelease : m.osRelease = file osKeys os) (hmachineInfo : m.machineInfo = file infoKeys info)
    (hfamily : FamilySafe m.interfaces) (hpacket : PacketSafe (adapterName m) m.interfaces) :
    Readable m := by
  refine ⟨?_, ?_, hfamily, hpacket⟩
  · rw [hosRelease]
    exact fun line hline key => osKeys_text key ▸ file_readable osKeys os hos line hline key
  · rw [hmachineInfo]
    exact fun line hline key =>
      infoKeys_text key ▸ file_readable infoKeys info hinfo line hline key

/-- Two files of quoted values among other lines are read, and each key is
reported with the value it is given last. -/
theorem infoSystem_files (m : Machine) (os : List (Entry OsKey)) (info : List (Entry InfoKey))
    (hos : ∀ entry ∈ os, entry.Plain osKeys) (hinfo : ∀ entry ∈ info, entry.Plain infoKeys)
    (hosRelease : m.osRelease = file osKeys os)
    (hmachineInfo : m.machineInfo = file infoKeys info) :
    ((∃ reply, infoSystem m = .ok reply) ↔ FamilySafe m.interfaces ∧
      PacketSafe (adapterName m) m.interfaces ∧ ∃ icon, Icon m icon) ∧
    ∀ out, infoSystem m = .ok (.ok out) →
      out.hostname = (last (Entry.gives .prettyHostname) info).getD m.nodename ∧
      out.operatingSystem = operatingSystem ⟨(last (Entry.gives .name) os).getD [],
        (last (Entry.gives .version) os).getD [], (last (Entry.gives .id) os).getD [],
        (last (Entry.gives .prettyName) os).getD []⟩ ∧
      ∀ icon, last (Entry.gives .iconName) info = some icon → icon ≠ bytes "unknown" →
        out.icon = icon := by
  have hvalue (key : OsKey) : lastValue m.osRelease key.text = last (Entry.gives key) os := by
    rw [hosRelease, osKeys_text, lastValue_file osKeys os hos]
  have hnamed (key : InfoKey) : lastValue m.machineInfo key.text = last (Entry.gives key) info := by
    rw [hmachineInfo, infoKeys_text, lastValue_file infoKeys info hinfo]
  have hreadable := files_readable m os info hos hinfo hosRelease hmachineInfo
  rw [infoSystem]
  constructor
  · simp only [map_returns]
    constructor
    · rintro ⟨out, h⟩
      obtain ⟨hread, hdescribes⟩ := (readSystem_ok m out).mp h
      exact ⟨hread.family, hread.packet, out.icon, hdescribes.icon⟩
    · rintro ⟨hfamily, hpacket, icon, hicon⟩
      exact readSystem_returns m icon (hreadable hfamily hpacket) hicon
  · intro out h
    obtain ⟨_, hout, hok⟩ := (map_ok _ _ _).mp h
    cases hok
    obtain ⟨-, hdescribes⟩ := (readSystem_ok m out).mp hout
    refine ⟨?_, ?_, fun icon hicon hne => ?_⟩
    · exact hdescribes.hostname.trans (congrArg (·.getD m.nodename) (hnamed .prettyHostname))
    · rw [hdescribes.operatingSystem, osOf, hvalue, hvalue, hvalue, hvalue]
    · have hgiven : (infoOf m).icon = icon := by
        rw [infoOf]
        exact (congrArg (·.getD (bytes "unknown")) (hnamed .iconName)).trans (by rw [hicon])
      have hshown := hdescribes.icon
      rwa [Icon, hgiven, if_neg hne] at hshown

/-- Two values in quotes, and a third given twice. -/
def arch : Machine where
  nodename := bytes "arch"
  sysname := bytes "Linux"
  release := bytes "6.1"
  machine := bytes "x86_64"
  osRelease := some (bytes "ID=\"arch\"\nPRETTY_NAME=\"Arch Linux\"\nLOGO=arch\n")
  machineInfo := some (bytes "ICON_NAME=\"computer\"\nICON_NAME=\"tablet\"\n")
  chassisType := none
  interfaces := []
  inetNtop _ := []

theorem infoSystem_files_arch : (∃ reply, infoSystem arch = .ok reply) ∧
    ∀ out, infoSystem arch = .ok (.ok out) → out.hostname = bytes "arch" ∧
      out.operatingSystem = bytes "Arch Linux" ∧ out.icon = bytes "tablet" := by
  have hother : ∀ key : OsKey, ¬ osKeys.text key <+: bytes "LOGO=arch" := fun key => by
    cases key <;> decide
  have hos : ∀ entry ∈ [.value .id (bytes "arch"), .value .prettyName (bytes "Arch Linux"),
      .other (bytes "LOGO=arch")], Entry.Plain osKeys entry := by
    simp only [List.forall_mem_cons, Entry.Plain]
    exact ⟨by decide, by decide, ⟨by decide, hother⟩, by simp⟩
  have hinfo : ∀ entry ∈ [.value .iconName (bytes "computer"), .value .iconName (bytes "tablet")],
      Entry.Plain infoKeys entry := by
    simp only [List.forall_mem_cons, Entry.Plain]
    exact ⟨by decide, by decide, by simp⟩
  have hicon : Icon arch (bytes "tablet") := by
    rw [Icon, if_neg (by decide)]
    decide
  obtain ⟨hreturns, hreports⟩ := infoSystem_files arch _ _ hos hinfo (by decide) (by decide)
  refine ⟨hreturns.mpr ⟨?_, ?_, _, hicon⟩, fun out hout => ?_⟩
  · simp [FamilySafe, arch]
  · simp [PacketSafe, arch]
  · obtain ⟨hhostname, hos, hicon⟩ := hreports out hout
    exact ⟨hhostname, hos, hicon _ rfl (by decide)⟩

end Bakaneko.SystemInfo
