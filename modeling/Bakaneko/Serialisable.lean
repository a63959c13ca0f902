import Bakaneko.DriveList
import Bakaneko.JsonText

/-!
# Replies that can be printed

The replies about drives and services hold text in which escapes have been
replaced by bytes of any kind, and the printer refuses text that is not
UTF-8. So a reply is sent as long as every name, model, mount point and
description that goes into it stands for such text; one that does not turns
the whole reply into a failure.
-/

set_option autoImplicit false

namespace Bakaneko.Serialisable
open Bakaneko.Native Bakaneko.Text Bakaneko.Messages Bakaneko.Rest
open Bakaneko.JsonValues Bakaneko.JsonText Bakaneko.SystemBus Bakaneko.DriveList
open Bakaneko.SystemdUnits (Escape Describes letterOf listServices listedTexts afterLast toupper
  typeOf)
open Fallible EscapedText Utf8

/-- `Run` answers an endpoint that ends with the value by the text of the value. -/
def Answered {α : Type} (json : Nlohmann) (toJson : α → Json) (req : Request) (value : α) : Prop :=
  ∃ body, json.dump (toJson value) = .ok body ∧
    Run json (some toJson) req { outcome := .ok (.ok value) } =
      ⟨[{ status := 200, contentType := some applicationJson, body }], none, []⟩

/-- What the escaped text stands for is UTF-8. -/
def EscapedUtf8 (letter : Bytes → Option (UInt8 × ℕ)) (s : Bytes) : Prop :=
  ∀ raw, StandsFor Escape letter s raw → Valid raw

/-- The fields of a line that go into the reply are UTF-8: the model when there
is no drive of the name's beginning, mount point and file system of a partition. -/
@[mk_iff] structure EntryUtf8 (seen : List Bytes) (line : Bytes) : Prop where
  name : Valid (nameOf line)
  model : baseName (nameOf line) ∉ seen →
    ∀ field, (split line 32 0)[2]? = some field → EscapedUtf8 chararOf field
  mountpoint : numbered (nameOf line) = true →
    ∀ field, (split line 32 0)[1]? = some field → EscapedUtf8 chararOf field
  filesystem : numbered (nameOf line) = true →
    ∀ field, (split line 32 0)[4]? = some field → Valid field

/-- Every line with a new name, among the lines before it. -/
def LinesUtf8 (lines : List Bytes) : Prop := ∀ before line, before++[line] <+: lines →
  line ≠ [] → nameOf line ∉ names before → EntryUtf8 (names before) line

@[mk_iff] structure PartitionUtf8 (p : Partition) : Prop where
  devNode : Valid p.devNode
  mountpoint : Valid p.mountpoint
  filesystem : Valid p.filesystem

@[mk_iff] structure DriveUtf8 (d : Drive) : Prop where
  devNode : Valid d.devNode
  model : Valid d.model
  manufacturer : Valid d.manufacturer
  interface : Valid d.interface
  partitions : ∀ p ∈ d.partitions, PartitionUtf8 p

theorem answered_iff {α : Type} (json : Nlohmann) (hjson : Strict json) (toJson : α → Json)
    (req : Request) (hreq : req.contentType = some applicationJson) (value : α) :
    Answered json toJson req value ↔ AllUtf8 (toJson value) := by
  rw [← hjson]
  constructor
  · rintro ⟨body, hd, -⟩
    exact ⟨body, hd⟩
  · rintro ⟨body, hd⟩
    refine ⟨body, hd, ?_⟩
    simp only [Run, respond, hreq, hd, if_true]

theorem allUtf8_number (n : ℤ) : AllUtf8 (.number n) := by simp [AllUtf8, strings]

theorem allUtf8_boolean (b : Bool) : AllUtf8 (.boolean b) := by simp [AllUtf8, strings]

theorem allUtf8_record (keys : List String) (fields : List (String × Json))
    (hk : fields.map Prod.fst = keys) (hv : ∀ key ∈ keys, Valid (bytes key)) :
    AllUtf8 (record fields) ↔ ∀ f ∈ fields, AllUtf8 f.2 := by
  rw [record, allUtf8_object, List.forall_mem_map]
  refine forall₂_congr fun f hf => ?_
  exact and_iff_right (hv f.1 (hk ▸ List.mem_map_of_mem hf))

theorem allUtf8_list {α : Type} (toJson : α → Json) (as : List α) :
    AllUtf8 (.array (as.map toJson)) ↔ ∀ a ∈ as, AllUtf8 (toJson a) := by
  rw [allUtf8_array, List.forall_mem_map]

theorem partition_utf8 (p : Partition) : AllUtf8 p.toJson ↔ PartitionUtf8 p := by
  rw [Partition.toJson, allUtf8_record Partition.keys _ rfl (by decide +kernel)]
  simp only [List.forall_mem_cons, allUtf8_text, allUtf8_number, List.not_mem_nil, false_implies,
    implies_true, true_and, and_true, partitionUtf8_iff]

theorem drive_utf8 (d : Drive) : AllUtf8 d.toJson ↔ DriveUtf8 d := by
  rw [Drive.toJson, allUtf8_record Drive.keys _ rfl (by decide +kernel)]
  simp only [List.forall_mem_cons, allUtf8_text, allUtf8_number, allUtf8_list, partition_utf8,
    List.not_mem_nil, false_implies, implies_true, true_and, and_true, driveUtf8_iff]

theorem drives_utf8 (drives : Drives) :
    AllUtf8 drives.toJson ↔ ∀ d ∈ drives.drives, DriveUtf8 d := by
  rw [Drives.toJson, allUtf8_record Drives.keys _ rfl (by decide +kernel)]
  simp only [List.forall_mem_singleton, allUtf8_list, drive_utf8]

theorem service_utf8 (s : Service) : AllUtf8 s.toJson ↔
    Valid s.id ∧ Valid s.type ∧ Valid s.displayName ∧ Valid s.description := by
  rw [Service.toJson, allUtf8_record Service.keys _ rfl (by decide +kernel)]
  simp only [List.forall_mem_cons, allUtf8_text, allUtf8_number, allUtf8_boolean, List.not_mem_nil,
    false_implies, implies_true, true_and, and_true]

theorem services_utf8 (services : Services) : AllUtf8 services.toJson ↔
    ∀ s ∈ services.services, AllUtf8 s.toJson := by
  rw [Services.toJson, allUtf8_record Services.keys _ rfl (by decide +kernel)]
  simp only [List.forall_mem_singleton, allUtf8_list]

/-- Text that stands for one text is judged by it. -/
theorem escapedUtf8_iff (letter : Bytes → Option (UInt8 × ℕ)) (s raw : Bytes)
    (h : StandsFor Escape letter s raw) : EscapedUtf8 letter s ↔ Valid raw := by
  refine ⟨fun hs => hs raw h, fun hr raw' h' => ?_⟩
  rwa [← standsFor_unique (by decide) s raw raw' h h']

section Drives
variable {exec : Exec}

theorem partition_entry (name : Bytes) (info : List Bytes) (p : Partition)
    (h : newPartition exec name info = .ok p) : PartitionUtf8 p ↔ Valid name ∧
      (∀ field, info[1]? = some field → EscapedUtf8 chararOf field) ∧
      ∀ field, info[4]? = some field → Valid field := by
  obtain ⟨hname, ⟨text, ht, hm⟩, hfs⟩ := newPartition_ok exec name info p h
  have hmount := escapedUtf8_iff chararOf text p.mountpoint ((unescape_iff _ _).mp hm)
  simp only [ht, hfs, Option.some.injEq, forall_eq', hmount, ← hname, partitionUtf8_iff]

theorem drive_entry (name : Bytes) (info : List Bytes) (d : Drive)
    (h : newDrive name info = .ok d) : DriveUtf8 d ↔ Valid name ∧
      ∀ field, info[2]? = some field → EscapedUtf8 chararOf field := by
  obtain ⟨hname, hman, hint, hparts, text, ht, hm⟩ := newDrive_ok name info d h
  have hmodel := escapedUtf8_iff chararOf text d.model ((unescape_iff _ _).mp hm)
  simp only [ht, Option.some.injEq, forall_eq', hmodel, ← hname, driveUtf8_iff, hman, hint, hparts,
    valid_nil, List.not_mem_nil, false_implies, implies_true, and_true]

theorem forall_mem_modify {α : Type} (P : α → Prop) (Q : Prop) (f : α → α)
    (hf : ∀ a, P (f a) ↔ P a ∧ Q) (as : List α) (i : ℕ) (hi : i < as.length) :
    (∀ a ∈ as.modify i f, P a) ↔ (∀ a ∈ as, P a) ∧ Q := by
  induction as generalizing i with
  | nil => exact absurd hi (Nat.not_lt_zero i)
  | cons a as ih =>
    cases i with
    | zero =>
      rw [List.modify_zero_cons, List.forall_mem_cons, List.forall_mem_cons, hf]
      tauto
    | succ i =>
      rw [List.modify_succ_cons, List.forall_mem_cons, List.forall_mem_cons,
        ih i (Nat.lt_of_succ_lt_succ hi)]
      tauto

theorem attach_utf8 (b : Building) (index : ℕ) (p : Partition) (hi : index < b.drives.length) :
    (∀ d ∈ (b.attach index p).drives, DriveUtf8 d) ↔
      (∀ d ∈ b.drives, DriveUtf8 d) ∧ PartitionUtf8 p := by
  apply forall_mem_modify DriveUtf8 (PartitionUtf8 p) _ _ b.drives index hi
  intro d
  simp only [driveUtf8_iff, List.forall_mem_append, List.forall_mem_singleton, and_assoc]

theorem emplace_utf8 (b : Building) (drive : Drive) :
    (∀ d ∈ (b.emplace drive).drives, DriveUtf8 d) ↔
      (∀ d ∈ b.drives, DriveUtf8 d) ∧ DriveUtf8 drive := by
  rw [Building.emplace, List.forall_mem_append, List.forall_mem_singleton]

/-- A line with a new name adds its own text to the drives, and no other. -/
theorem line_utf8 (b b' : Building) (line : Bytes) (hp : Pointed b) (hl : line ≠ [])
    (hn : nameOf line ∉ b.seen) (h : readLine exec b line = .ok b') :
    (∀ d ∈ b'.drives, DriveUtf8 d) ↔
      (∀ d ∈ b.drives, DriveUtf8 d) ∧ EntryUtf8 b.seen line := by
  obtain ⟨b₁, b₂, h1, h2, rfl⟩ := readLine_new exec b b' line hl hn h
  rw [entryUtf8_iff]
  rcases h1 with ⟨hbase, rfl⟩ | ⟨hbase, drive, hd, rfl⟩
  · rcases h2 with ⟨hnum, -⟩ | ⟨hnum, entry, he, p, hpart, rfl⟩
    · rw [baseName_plain _ hnum] at hbase
      exact absurd hbase hn
    · simp only [attach_utf8 _ _ p (hp entry he), partition_entry _ _ p hpart, hbase, hnum,
        not_true_eq_false, false_implies, true_and, true_implies]
  · rcases h2 with ⟨hnum, rfl⟩ | ⟨hnum, entry, he, p, hpart, rfl⟩
    · simp only [emplace_utf8, drive_entry _ _ drive hd, hbase, hnum, not_false_eq_true,
        true_implies, Bool.false_eq_true, false_implies, and_true]
    · simp only [attach_utf8 _ _ p (emplace_pointed b drive hp entry he), emplace_utf8,
        drive_entry _ _ drive hd, partition_entry _ _ p hpart, hbase, hnum, not_false_eq_true,
        true_implies]
      tauto

theorem entry_congr (seen seen' : List Bytes) (line : Bytes)
    (h : ∀ name, name ∈ seen ↔ name ∈ seen') : EntryUtf8 seen line ↔ EntryUtf8 seen' line := by
  rw [entryUtf8_iff, entryUtf8_iff, h]

theorem linesUtf8_append (lines : List Bytes) (line : Bytes) : LinesUtf8 (lines++[line]) ↔
    LinesUtf8 lines ∧ (line ≠ [] → nameOf line ∉ names lines → EntryUtf8 (names lines) line) := by
  constructor
  · exact fun h => ⟨fun before l hb => h before l (hb.trans (List.prefix_append lines [line])),
      h lines line (List.prefix_refl _)⟩
  · rintro ⟨h, hlast⟩ before l hb
    rcases List.prefix_concat_iff.mp hb with heq | hb
    · obtain ⟨rfl, hl⟩ := List.append_inj' heq rfl
      cases hl
      exact hlast
    · exact h before l hb

/-- The drives read from the lines are UTF-8 exactly when the lines are. -/
theorem lines_utf8 (lines : List Bytes) (b : Building) (h : readLines exec lines = .ok b) :
    (∀ d ∈ b.drives, DriveUtf8 d) ↔ LinesUtf8 lines := by
  induction lines using List.reverseRecOn generalizing b with
  | nil =>
    cases h
    simp [LinesUtf8]
  | append_singleton lines line ih =>
    rw [readLines_append] at h
    obtain ⟨b₀, h0, h⟩ := (bind_ok _ _ _).mp h
    obtain ⟨hp, hseen⟩ := readLines_keeps exec lines b₀ h0
    rw [linesUtf8_append, ← ih b₀ h0]
    by_cases hold : line = [] ∨ nameOf line ∈ b₀.seen
    · rw [readLine_old exec b₀ line hold] at h
      cases h
      rw [hseen] at hold
      rcases hold with hl | hn
      · simp [hl]
      · simp [hn]
    · obtain ⟨hl, hn⟩ := not_or.mp hold
      rw [line_utf8 b₀ b line hp hl hn h, entry_congr _ _ line hseen]
      rw [hseen] at hn
      simp [hl, hn]

theorem sortPartitions_utf8 (d : Drive) : DriveUtf8 (sortPartitions d) ↔ DriveUtf8 d := by
  have hp := sortPartitions_perm d
  simp only [driveUtf8_iff, hp.mem_iff]
  rfl

theorem listDrives_utf8 (out : Bytes) (drives : Drives) (ho : listing exec = .ok out)
    (h : listDrives exec = .ok drives) :
    AllUtf8 drives.toJson ↔ LinesUtf8 (split out 10 0) := by
  obtain ⟨b, sorted, hb, hs, rfl⟩ := (listDrives_ok exec out drives ho).mp h
  have hperm := sortWith_perm _ _ _ hs
  rw [drives_utf8, ← lines_utf8 _ b hb]
  simp only [List.forall_mem_map, sortPartitions_utf8, hperm.mem_iff]

end Drives

theorem afterLast_cases (c : UInt8) (s : Bytes) :
    afterLast c s = s ∨ ∃ front, s = front++c::afterLast c s := by
  have hsplit := List.takeWhile_append_dropWhile (p := fun d => decide (d ≠ c)) (l := s.reverse)
  have hhead := List.head?_dropWhile_not (fun d => decide (d ≠ c)) s.reverse
  cases hd : s.reverse.dropWhile fun d => decide (d ≠ c) with
  | nil =>
    rw [hd, List.append_nil] at hsplit
    exact .inl (by rw [afterLast, hsplit, List.reverse_reverse])
  | cons d rest =>
    rw [hd] at hhead hsplit
    obtain rfl : d = c := by simpa using hhead
    refine .inr ⟨rest.reverse, ?_⟩
    have hrev := congrArg List.reverse hsplit
    rw [List.reverse_reverse, List.reverse_append, List.reverse_cons, List.append_assoc] at hrev
    exact hrev.symm

theorem afterLast_valid (s : Bytes) (h : Valid s) : Valid (afterLast 46 s) := by
  rcases afterLast_cases 46 s with hs | ⟨front, hs⟩
  · rwa [hs]
  · rw [hs] at h
    exact ((valid_cut 46 (by decide) front _).mp h).2

theorem toupper_valid (c : UInt8) (rest : Bytes) (h : Valid (c::rest)) :
    Valid (toupper c::rest) := by
  unfold toupper
  split
  · next hc =>
    have hlt : c.toNat < 128 := lt_of_le_of_lt (UInt8.le_iff_toNat_le.mp hc.2) (by decide)
    have hsub : (c-32).toNat < 128 := by
      rw [UInt8.toNat_sub_of_le _ _ (UInt8.le_trans (by decide) hc.1)]
      omega
    have hrest := ((valid_cut c hlt [] rest).mp h).2
    exact (valid_cut (c-32) hsub [] rest).mpr ⟨valid_nil, hrest⟩
  · exact h

/-- The type of a unit is cut from its id, and so is UTF-8 with it. -/
theorem typeOf_valid (id : Bytes) (h : Valid id) : Valid (typeOf id) := by
  have ht := afterLast_valid id h
  rw [typeOf]
  cases ha : afterLast 46 id with
  | nil => exact valid_nil
  | cons c rest => exact toupper_valid c rest (ha ▸ ht)

theorem describes_utf8 (service : Service) (text : Bytes × Bytes) (h : Describes service text) :
    AllUtf8 service.toJson ↔ EscapedUtf8 letterOf text.1 ∧ EscapedUtf8 letterOf text.2 := by
  have hi := escapedUtf8_iff letterOf text.1 service.id
    ((SystemdUnits.unescape_iff _ _).mp h.id).2
  have hd := escapedUtf8_iff letterOf text.2 service.description
    ((SystemdUnits.unescape_iff _ _).mp h.description).2
  rw [service_utf8, hi, hd, h.displayName, h.type]
  constructor
  · rintro ⟨hid, -, -, hdesc⟩
    exact ⟨hid, hdesc⟩
  · rintro ⟨hid, hdesc⟩
    exact ⟨hid, typeOf_valid _ hid, hid, hdesc⟩

theorem listServices_utf8 (host : Host) (services : Services)
    (h : listServices host = .ok services) : AllUtf8 services.toJson ↔
      ∀ text ∈ listedTexts host, EscapedUtf8 letterOf text.1 ∧ EscapedUtf8 letterOf text.2 := by
  rw [services_utf8]
  have hall := SystemdUnits.listServices_describes host services h
  generalize services.services = list at hall ⊢
  generalize listedTexts host = texts at hall ⊢
  induction hall with
  | nil => simp
  | cons hd _ ih =>
    rw [List.forall_mem_cons, List.forall_mem_cons]
    exact and_congr (describes_utf8 _ _ hd) ih

/-- A reply is sent exactly when all the text behind it is UTF-8. -/
theorem answered_text (json : Nlohmann) (hjson : Strict json) (req : Request)
    (hreq : req.contentType = some applicationJson) :
    (∀ exec out drives, listing exec = .ok out → listDrives exec = .ok drives →
      (Answered json Drives.toJson req drives ↔ LinesUtf8 (split out 10 0))) ∧
    ∀ host services, listServices host = .ok services →
      (Answered json Services.toJson req services ↔
        ∀ text ∈ listedTexts host, EscapedUtf8 letterOf text.1 ∧ EscapedUtf8 letterOf text.2) := by
  constructor
  · intro exec out drives ho h
    rw [answered_iff json hjson _ req hreq]
    exact listDrives_utf8 out drives ho h
  · intro host services h
    rw [answered_iff json hjson _ req hreq]
    exact listServices_utf8 host services h

/-- A host whose `lsblk` prints this text. -/
def printing (text : String) : Exec := fun _ => .ok (0, bytes text)

/-- A host with one loaded unit. -/
def oneUnit (name : String) : Host where
  __ := busDown
  connect := .ok ()
  listUnits := .ok [⟨bytes name, bytes "A unit", bytes "/unit"⟩]
  listUnitFiles := .ok []
  fragmentPath _ := .ok []
  unitFileState _ := .ok (bytes "enabled")
  activeState _ := .ok (bytes "active")

def getDrives : Request :=
  { method := .get, target := bytes "/drives", contentType := some applicationJson }

def getServices : Request :=
  { method := .get, target := bytes "/services", contentType := some applicationJson }

def oneDisk : Drives := ⟨[⟨bytes "sda", 512, bytes "Disk A", [], [], []⟩]⟩

/-- A disk whose model has an escaped blank in it. -/
theorem answered_text_disk : Answered library Drives.toJson getDrives oneDisk ∧
    LinesUtf8 (split (bytes "sda  Disk\\x20A 512   ") 10 0) := by
  have hanswered : Answered library Drives.toJson getDrives oneDisk :=
    (answered_iff library library_strict _ getDrives rfl _).mpr (by decide +kernel)
  refine ⟨hanswered, ?_⟩
  exact ((answered_text library library_strict getDrives rfl).1
    (printing "sda  Disk\\x20A 512   ") (bytes "sda  Disk\\x20A 512   ") oneDisk
    (by decide +kernel) (by decide +kernel)).mp hanswered

/-- One byte of a model or of a unit's name takes the whole reply away. -/
theorem unanswered_byte :
    (∃ drives, listDrives (printing "sda  Disk\\xff 512   ") = .ok drives ∧
      (Run library (some Drives.toJson) getDrives { outcome := .ok (.ok drives) }).sent =
        [plain 500 getDrives]) ∧
    ∃ services, listServices (oneUnit "mnt-\\xff.mount") = .ok services ∧
      (Run library (some Services.toJson) getServices { outcome := .ok (.ok services) }).sent =
        [plain 500 getServices] := by
  constructor
  · exact ⟨⟨[⟨bytes "sda", 512, bytes "Disk"++[255], [], [], []⟩]⟩, by decide +kernel,
      by decide +kernel⟩
  · exact ⟨⟨[⟨bytes "mnt-"++[255]++bytes ".mount", .running, true, bytes "Mount",
      bytes "mnt-"++[255]++bytes ".mount", bytes "A unit"⟩]⟩, by decide +kernel, by decide +kernel⟩

end Bakaneko.Serialisable
