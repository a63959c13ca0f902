import Bakaneko.UnescapeLoops
import Bakaneko.Library.KeyedRows
import Bakaneko.Library.OwnedNames

/-!
# The drives and partitions that are listed

After the lines of `lsblk` every name is listed once: under the drive its
base names, if that came before, or under its own name. What may end the loop
is a pointer that is used after the vector of the drives has moved.
-/

set_option autoImplicit false

namespace Bakaneko.DriveEntries
open Bakaneko.Native Bakaneko.Text Bakaneko.Messages Bakaneko.DriveList Bakaneko.UnescapeLoops
open KeyedRows OwnedNames Fallible

/-- The capacity of a vector that has grown to a length one by one. -/
def capacityOf : ℕ → ℕ
  | 0 => 0
  | n+1 => if n = capacityOf n then max 1 (2*capacityOf n) else capacityOf n

/-- The drive and the partitions of the names seen so far. -/
abbrev driveNames (seen : List Bytes) : List Bytes := owners baseName seen
abbrev partitionsOf (seen : List Bytes) (drive : Bytes) : List Bytes :=
  membersOf baseName numbered seen drive

/-- The vector has not moved since the drive of a name was put into it. -/
def CapacityKept (seen : List Bytes) (name : Bytes) : Prop := baseName name ∈ seen →
  capacityOf ((driveNames seen).idxOf (baseName name)+1) = capacityOf (driveNames seen).length

/-- It has not whenever a pointer is taken from `drives_`. -/
def PointersKept (seen : List Bytes) : Prop :=
  ∀ past name, past++[name] <+: seen → CapacityKept past name

def shape (drive : Drive) : Bytes × List Bytes :=
  (drive.devNode, drive.partitions.map Partition.devNode)

/-- One drive for each owner, with a partition for each numbered name that
belongs to it, and nothing else. -/
def Entries (seen : List Bytes) (drives : List Drive) : Prop :=
  drives.map shape = (driveNames seen).map fun drive => (drive, partitionsOf seen drive)

/-- What the vector and the map hold for the drives opened so far. -/
structure Holds (seen drives : List Bytes) (b : Building) : Prop where
  entries : b.drives.map shape = drives.map fun drive => (drive, partitionsOf seen drive)
  capacity : b.capacity = capacityOf drives.length
  pointers : ∀ drive, (b.pointers.find? (·.1 = drive)).map Prod.snd =
    if drive ∈ drives then some ⟨drives.idxOf drive, capacityOf (drives.idxOf drive+1)⟩ else none

/-- What the variables of the loop hold between two lines. -/
structure Laid (b : Building) : Prop where
  distinct : b.seen.Nodup
  holds : Holds b.seen (driveNames b.seen) b

/-- The columns of a line make a drive and a partition. -/
structure Reads (exec : Exec) (line : Bytes) : Prop where
  drive : ∃ drive, newDrive (nameOf line) (split line 32 0) = .ok drive
  partition : numbered (nameOf line) = true →
    ∃ partition, newPartition exec (nameOf line) (split line 32 0) = .ok partition

/-- A decimal numeral that 64 bits can hold. -/
structure Numeral (s : Bytes) : Prop where
  nonempty : s ≠ []
  digits : ∀ c ∈ s, isdigit c = true
  fits : digitsValue s < 18446744073709551616

/-- The seven columns as `lsblk` writes them: texts with their escapes, sizes
in bytes, and blanks for a device without a file system. -/
def SevenColumns (line : Bytes) : Prop :=
  ∃ name mountpoint model size fstype fssize fsused,
    split line 32 0 = [name, mountpoint, model, size, fstype, fssize, fsused] ∧
      WellEscaped mountpoint ∧ WellEscaped model ∧ Numeral size ∧
      (fssize = [] ∨ Numeral fssize ∧ Numeral fsused)

/-- The state in which the line of a new name takes its pointer, and the name
it takes it by. -/
def opened (b : Building) (line : Bytes) : Except Failure Building :=
  if b.seen.any (· = baseName (nameOf line)) then .ok b
  else (newDrive (nameOf line) (split line 32 0)).map b.emplace

def takenBy (b : Building) (line : Bytes) : Bytes :=
  if b.seen.any (· = baseName (nameOf line)) then baseName (nameOf line) else nameOf line

/-- The pointer of a name is one to the drive with that name, in the vector as
it stands. -/
def Denotes (b : Building) (name : Bytes) : Prop :=
  ∃ pointer, (b.pointers.find? (·.1 = name)).map Prod.snd = some pointer ∧
    pointer.capacity = b.capacity ∧ b.drives[pointer.index]?.map Drive.devNode = some name

/-- The names of the lines, each once. -/
def listed (lines : List Bytes) : List Bytes := firsts (names lines)

/-- The set, the map and the vector agree, line by line and at the end. -/
structure Consistent (exec : Exec) (lines : List Bytes) : Prop where
  at_ : readLines exec lines ≠ .error (.exception (.outOfRange (bytes "map::at")))
  pointers : ∀ past line, past++[line] <+: lines → line ≠ [] → nameOf line ∉ names past →
    numbered (nameOf line) = true → ∀ b b₁, readLines exec past = .ok b → opened b line = .ok b₁ →
      Denotes b₁ (takenBy b line)
  entries : ∃ b, readLines exec lines = .ok b ∧ Entries (listed lines) b.drives

theorem baseName_idem (name : Bytes) : baseName (baseName name) = baseName name :=
  List.takeWhile_idem

theorem baseName_not_numbered (name : Bytes) : numbered (baseName name) = false := by
  rw [numbered, List.any_eq_false]
  intro c hc
  have htake := List.mem_takeWhile_imp hc
  simpa using htake

theorem map_modify {α β : Type} (f : α → α) (g : α → β) (h : β → β) (hfg : ∀ a, g (f a) = h (g a))
    (as : List α) (i : ℕ) : (as.modify i f).map g = (as.map g).modify i h := by
  induction as generalizing i with
  | nil => cases i <;> rfl
  | cons a as ih =>
    cases i with
    | zero => simp [hfg]
    | succ i => simp [ih]

theorem modify_idxOf {β : Type} (f : Bytes → β) (g : β → β) (as : List Bytes) (a : Bytes)
    (hd : as.Nodup) (ha : a ∈ as) :
    (as.map f).modify (as.idxOf a) g = as.map fun k => if k = a then g (f k) else f k := by
  induction as with
  | nil => cases ha
  | cons k as ih =>
    obtain ⟨hk, hd⟩ := List.nodup_cons.mp hd
    by_cases hka : k = a
    · subst hka
      have hrest : ∀ m ∈ as, (if m = k then g (f m) else f m) = f m :=
        fun m hm => if_neg fun he : m = k => hk (he ▸ hm)
      rw [List.idxOf_cons_self, List.map_cons, List.map_cons, List.map_congr_left hrest, if_pos rfl]
      rfl
    · have ha := (List.mem_cons.mp ha).resolve_left (Ne.symm hka)
      rw [List.idxOf_cons_ne _ hka, List.map_cons, List.map_cons, if_neg hka, ← ih hd ha]
      rfl

/-- A drive is put behind the others; the map has a pointer to it. -/
theorem emplace_holds (seen drives : List Bytes) (b : Building) (drive : Drive)
    (hempty : partitionsOf seen drive.devNode = []) (hparts : drive.partitions = [])
    (h : Holds seen drives b) :
    Holds seen (drives++[drive.devNode]) (b.emplace drive) := by
  have hlen : b.drives.length = drives.length := by
    simpa using congrArg List.length h.entries
  have hcapacity : (b.emplace drive).capacity = capacityOf (drives++[drive.devNode]).length := by
    rw [List.length_append, List.length_singleton, capacityOf, ← h.capacity, ← hlen]
    rfl
  refine ⟨?_, hcapacity, fun k => ?_⟩
  · have hshape : shape drive = (drive.devNode, []) := by rw [shape, hparts]; rfl
    rw [Building.emplace, List.map_append, h.entries, List.map_append, List.map_singleton,
      List.map_singleton, hshape, hempty]
  · have hfind := h.pointers k
    have hlast : (b.emplace drive).pointers =
        b.pointers++[(drive.devNode, ⟨drives.length, capacityOf (drives.length+1)⟩)] := by
      rw [List.length_append, List.length_singleton] at hcapacity
      rw [← hcapacity, ← hlen]
      rfl
    rw [hlast, List.find?_append]
    by_cases hk : k ∈ drives
    · rw [if_pos hk] at hfind
      obtain ⟨entry, hentry, hpointer⟩ := Option.map_eq_some_iff.mp hfind
      rw [hentry, if_pos (List.mem_append_left _ hk), List.idxOf_append_of_mem hk, ← hpointer]
      rfl
    · rw [if_neg hk] at hfind
      rw [Option.map_eq_none_iff.mp hfind, Option.none_or, List.find?_singleton]
      by_cases hname : drive.devNode = k
      · subst hname
        simp [List.idxOf_append_of_notMem hk]
      · have hne : ¬ k = drive.devNode := fun he => hname he.symm
        simp [hk, hname, hne]

/-- A partition is put behind the others of its drive. -/
theorem attach_entries (seen drives : List Bytes) (b : Building) (owner : Bytes)
    (partition : Partition) (hd : drives.Nodup) (ho : owner ∈ drives) (h : Holds seen drives b) :
    (b.attach (drives.idxOf owner) partition).drives.map shape = drives.map fun drive =>
      (drive, partitionsOf seen drive++if drive = owner then [partition.devNode] else []) := by
  have hshape : ∀ drive : Drive,
      shape { drive with partitions := drive.partitions++[partition] } =
        ((shape drive).1, (shape drive).2++[partition.devNode]) := by
    intro drive
    simp [shape]
  rw [Building.attach]
  dsimp only
  rw [map_modify _ shape (fun entry => (entry.1, entry.2++[partition.devNode])) hshape, h.entries,
    modify_idxOf _ _ _ _ hd ho]
  apply List.map_congr_left
  intro drive _
  split <;> simp

theorem pointer_found (seen drives : List Bytes) (b : Building) (owner : Bytes)
    (ho : owner ∈ drives) (h : Holds seen drives b) : ∃ name,
      b.pointers.find? (·.1 = owner) =
        some (name, ⟨drives.idxOf owner, capacityOf (drives.idxOf owner+1)⟩) := by
  have hfind := h.pointers owner
  rw [if_pos ho] at hfind
  obtain ⟨⟨name, pointer⟩, hentry, rfl⟩ := Option.map_eq_some_iff.mp hfind
  exact ⟨name, hentry⟩

theorem addPartition_stale (seen drives : List Bytes) (b : Building) (owner : Bytes)
    (partition : Except Failure Partition) (ho : owner ∈ drives) (h : Holds seen drives b)
    (hcap : capacityOf (drives.idxOf owner+1) ≠ capacityOf drives.length) :
    addPartition b owner partition = .error (.undefined .pastEnd) := by
  obtain ⟨name, hentry⟩ := pointer_found seen drives b owner ho h
  rw [addPartition, hentry]
  dsimp only
  rw [h.capacity, if_pos hcap]

theorem addPartition_fresh (seen drives : List Bytes) (b : Building) (owner : Bytes)
    (partition : Partition) (ho : owner ∈ drives) (h : Holds seen drives b)
    (hcap : capacityOf (drives.idxOf owner+1) = capacityOf drives.length) :
    addPartition b owner (.ok partition) = .ok (b.attach (drives.idxOf owner) partition) := by
  obtain ⟨name, hentry⟩ := pointer_found seen drives b owner ho h
  rw [addPartition, hentry]
  dsimp only
  rw [h.capacity, if_neg (not_not.mpr hcap)]
  rfl

theorem attach_holds (seen drives : List Bytes) (b : Building) (name owner : Bytes)
    (partition : Partition) (hnum : numbered name = true)
    (howner : ownerOf baseName (seen++[name]) name = owner) (hdev : partition.devNode = name)
    (hd : drives.Nodup) (ho : owner ∈ drives) (h : Holds seen drives b) :
    Holds (seen++[name]) drives (b.attach (drives.idxOf owner) partition) := by
  refine ⟨?_, h.capacity, h.pointers⟩
  rw [attach_entries seen drives b owner partition hd ho h]
  apply List.map_congr_left
  intro drive _
  rw [partitionsOf, partitionsOf, membersOf_append seen name drive, hnum, howner, hdev]
  simp [eq_comm]

theorem plain_holds (seen drives : List Bytes) (b : Building) (name : Bytes)
    (hnum : numbered name = false) (h : Holds seen drives b) :
    Holds (seen++[name]) drives b := by
  refine ⟨?_, h.capacity, h.pointers⟩
  rw [h.entries]
  apply List.map_congr_left
  intro drive _
  rw [partitionsOf, partitionsOf, membersOf_append seen name drive, hnum]
  simp

theorem laid_seen (names drives : List Bytes) (b : Building) (hd : names.Nodup)
    (hdrives : driveNames names = drives) (h : Holds names drives b) :
    Laid { b with seen := names } := by
  subst hdrives
  exact ⟨hd, ⟨h.entries, h.capacity, h.pointers⟩⟩

theorem owners_nodup (seen : List Bytes) (h : seen.Nodup) : (driveNames seen).Nodup := h.filter _

theorem members_nodup (seen : List Bytes) (drive : Bytes) (h : seen.Nodup) :
    (partitionsOf seen drive).Nodup := h.filter _

theorem readLine_new (exec : Exec) (b : Building) (line : Bytes) (hl : line ≠ [])
    (hn : nameOf line ∉ b.seen) : readLine exec b line = (do
      let b₁ ← opened b line
      let b₂ ← (if numbered (nameOf line) then
          addPartition b₁ (takenBy b line) (newPartition exec (nameOf line) (split line 32 0))
        else .ok b₁)
      return { b₂ with seen := b₂.seen++[nameOf line] }) := by
  have hskip : ¬(line = [] ∨ b.seen.any (· = nameOf line) = true) := by
    rw [seen_any]
    exact not_or.mpr ⟨hl, hn⟩
  rw [readLine, if_neg hskip]
  rfl

theorem emplaced_holds (b : Building) (line : Bytes) (hb : Laid b) (hn : nameOf line ∉ b.seen)
    (drive : Drive) (h : newDrive (nameOf line) (split line 32 0) = .ok drive) :
    Holds b.seen (driveNames b.seen++[nameOf line]) (b.emplace drive) := by
  obtain ⟨hname, -, -, hparts, -⟩ := newDrive_ok _ _ _ h
  have hempty := @membersOf_absent _ _ baseName numbered b.seen (nameOf line) hn
  have hopened := emplace_holds b.seen (driveNames b.seen) b drive (hname.symm ▸ hempty) hparts
    hb.holds
  rwa [hname] at hopened

/-- The pointer to a drive that has just been put into the vector is good. -/
theorem emplaced_capacity (b : Building) (line : Bytes) (hn : nameOf line ∉ b.seen) :
    capacityOf ((driveNames b.seen++[nameOf line]).idxOf (nameOf line)+1) =
      capacityOf (driveNames b.seen++[nameOf line]).length := by
  have habsent : nameOf line ∉ driveNames b.seen := fun h => hn ((mem_owners _ _).mp h).1
  rw [List.idxOf_append_of_notMem habsent, List.idxOf_cons_self, List.length_append,
    List.length_singleton]

section
variable (exec : Exec) (b : Building) (line : Bytes) (hb : Laid b) (hl : line ≠ [])
  (hn : nameOf line ∉ b.seen) (hr : Reads exec line)
include hb hn

theorem seen_distinct : (b.seen++[nameOf line]).Nodup := by
  rw [List.nodup_append]
  exact ⟨hb.distinct, List.nodup_singleton _, fun m hm k hk he => hn
    (List.mem_singleton.mp hk ▸ he ▸ hm)⟩

include hl hr

/-- A name whose base has come is a partition of that drive. -/
theorem readLine_base (hbase : baseName (nameOf line) ∈ b.seen) :
    (CapacityKept b.seen (nameOf line) → ∃ b', readLine exec b line = .ok b' ∧ Laid b' ∧
      b'.seen = b.seen++[nameOf line]) ∧
    (¬ CapacityKept b.seen (nameOf line) →
      readLine exec b line = .error (.undefined .pastEnd)) := by
  have hcontains : b.seen.any (· = baseName (nameOf line)) = true := (seen_any _ _).mpr hbase
  have hnum : numbered (nameOf line) = true := by
    by_contra hplain
    rw [baseName_plain _ (Bool.eq_false_iff.mpr hplain)] at hbase
    exact hn hbase
  obtain ⟨partition, hpartition⟩ := hr.partition hnum
  have hdev := (newPartition_ok _ _ _ _ hpartition).1
  have howner := base_owner b.seen _ hbase (baseName_idem (nameOf line))
  have howned : ownerOf baseName (b.seen++[nameOf line]) (nameOf line) =
      baseName (nameOf line) := by
    rw [ownerOf_new _ _ hn, if_pos hbase]
  have hnames := @owners_append _ _ baseName b.seen (nameOf line) hn
  rw [if_pos hbase, List.append_nil] at hnames
  rw [readLine_new exec b line hl hn]
  simp only [opened, takenBy, hcontains, if_true, hnum, hpartition, bind, Except.bind]
  constructor
  · intro hkept
    rw [addPartition_fresh _ _ b _ partition howner hb.holds (hkept hbase)]
    exact ⟨_, rfl, laid_seen _ _ _ (seen_distinct b line hb hn) hnames (attach_holds _ _ b _ _
      partition hnum howned hdev (owners_nodup _ hb.distinct) howner hb.holds), rfl⟩
  · intro hmoved
    rw [addPartition_stale _ _ b _ _ howner hb.holds fun he => hmoved fun _ => he]

/-- Any other name is a drive, and its own partition if it has a digit. -/
theorem readLine_own (hbase : baseName (nameOf line) ∉ b.seen) : ∃ b',
    readLine exec b line = .ok b' ∧ Laid b' ∧ b'.seen = b.seen++[nameOf line] := by
  have hcontains : b.seen.any (· = baseName (nameOf line)) = false :=
    Bool.eq_false_iff.mpr fun h => hbase ((seen_any _ _).mp h)
  have hdistinct := seen_distinct b line hb hn
  obtain ⟨drive, hdrive⟩ := hr.drive
  have hopened := emplaced_holds b line hb hn drive hdrive
  have hindex := emplaced_capacity b line hn
  have hnames := @owners_append _ _ baseName b.seen (nameOf line) hn
  rw [if_neg hbase] at hnames
  rw [driveNames, ← hnames] at hopened hindex
  rw [readLine_new exec b line hl hn]
  simp only [opened, takenBy, hcontains, hdrive, Except.map, bind, Except.bind, Bool.false_eq_true,
    if_false]
  by_cases hnum : numbered (nameOf line) = true
  · have howned : ownerOf baseName (b.seen++[nameOf line]) (nameOf line) = nameOf line := by
      rw [ownerOf_new _ _ hn, if_neg hbase]
    have hlast : nameOf line ∈ driveNames (b.seen++[nameOf line]) := by
      rw [driveNames, hnames]
      exact List.mem_append_right _ List.mem_cons_self
    obtain ⟨partition, hpartition⟩ := hr.partition hnum
    have hdev := (newPartition_ok _ _ _ _ hpartition).1
    rw [if_pos hnum, hpartition, addPartition_fresh _ _ _ _ partition hlast hopened hindex]
    exact ⟨_, rfl, laid_seen _ _ _ hdistinct rfl (attach_holds _ _ _ _ _ partition hnum howned
      hdev (owners_nodup _ hdistinct) hlast hopened), rfl⟩
  · rw [if_neg hnum]
    exact ⟨_, rfl, laid_seen _ _ _ hdistinct rfl (plain_holds _ _ _ _
      (Bool.eq_false_iff.mpr hnum) hopened), rfl⟩

/-- What the line of a new name does, in the terms of the names. -/
theorem readLine_laid :
    (CapacityKept b.seen (nameOf line) → ∃ b', readLine exec b line = .ok b' ∧ Laid b' ∧
      b'.seen = b.seen++[nameOf line]) ∧
    (¬ CapacityKept b.seen (nameOf line) →
      readLine exec b line = .error (.undefined .pastEnd)) := by
  by_cases hbase : baseName (nameOf line) ∈ b.seen
  · exact readLine_base exec b line hb hl hn hr hbase
  · refine ⟨fun _ => readLine_own exec b line hb hl hn hr hbase, fun hmoved => ?_⟩
    exact absurd (fun h => absurd h hbase) hmoved

end

theorem listed_append (lines : List Bytes) (line : Bytes) : listed (lines++[line]) =
    if line = [] ∨ nameOf line ∈ listed lines then listed lines
    else listed lines++[nameOf line] := by
  rw [listed, names_append]
  by_cases hl : line = []
  · simp [hl, listed]
  · rw [if_neg hl, firsts_concat, listed]
    by_cases hn : nameOf line ∈ names lines <;> simp [hn, hl, mem_firsts]

theorem listed_past (past lines : List Bytes) (h : past <+: lines) :
    listed past <+: listed lines := by
  obtain ⟨rest, rfl⟩ := h
  have hnames : names (past++rest) = names past++names rest := by
    simp [names, List.filter_append]
  rw [listed, listed, hnames]
  exact firsts_prefix _ _

theorem pointersKept_append (seen : List Bytes) (name : Bytes) :
    PointersKept (seen++[name]) ↔ PointersKept seen ∧ CapacityKept seen name := by
  constructor
  · intro h
    exact ⟨fun past n hp => h past n (hp.trans (List.prefix_append _ _)), h seen name List.prefix_rfl⟩
  · rintro ⟨hseen, hname⟩ past n hp
    rcases List.prefix_concat_iff.mp hp with heq | hp
    · obtain ⟨rfl, hn⟩ := List.append_inj' heq rfl
      cases hn
      exact hname
    · exact hseen past n hp

theorem laid_empty : Laid {} where
  distinct := List.nodup_nil
  holds := ⟨rfl, rfl, fun _ => rfl⟩

/-- The lines come to their end exactly when no pointer is used too late. -/
theorem readLines_laid (exec : Exec) (lines : List Bytes)
    (hr : ∀ line ∈ lines, line ≠ [] → Reads exec line) :
    (PointersKept (listed lines) → ∃ b, readLines exec lines = .ok b ∧ Laid b ∧
      b.seen = listed lines) ∧
    (¬ PointersKept (listed lines) → readLines exec lines = .error (.undefined .pastEnd)) := by
  induction lines using List.reverseRecOn with
  | nil =>
    refine ⟨fun _ => ⟨{}, rfl, laid_empty, rfl⟩, fun h => absurd (fun past name hp => ?_) h⟩
    exact absurd (List.prefix_nil.mp hp) (by simp)
  | append_singleton lines line ih =>
    obtain ⟨hkept, hmoved⟩ := ih fun l hl => hr l (List.mem_append_left _ hl)
    rw [readLines_append, listed_append]
    by_cases hold : line = [] ∨ nameOf line ∈ listed lines
    · rw [if_pos hold]
      constructor
      · intro h
        obtain ⟨b, hb, hlaid, hseen⟩ := hkept h
        refine ⟨b, ?_, hlaid, hseen⟩
        rw [hb]
        exact readLine_old exec b line (hseen ▸ hold)
      · intro h
        rw [hmoved h]
        rfl
    · rw [if_neg hold, pointersKept_append]
      obtain ⟨hl, hn⟩ := not_or.mp hold
      have hread := hr line (List.mem_append_right _ List.mem_cons_self) hl
      by_cases hpast : PointersKept (listed lines)
      · obtain ⟨b, hb, hlaid, hseen⟩ := hkept hpast
        rw [← hseen] at hn ⊢
        obtain ⟨hok, herror⟩ := readLine_laid exec b line hlaid hl hn hread
        rw [hb]
        constructor
        · rintro ⟨-, hcap⟩
          exact hok hcap
        · intro h
          exact herror fun hcap => h ⟨hseen.symm ▸ hpast, hcap⟩
      · refine ⟨fun h => absurd h.1 hpast, fun _ => ?_⟩
        rw [hmoved hpast]
        rfl

theorem stoull_numeral (s : Bytes) (h : Numeral s) : DriveList.stoull s = .ok (digitsValue s) := by
  have hread := strtol_run s [] h.nonempty h.digits fun c hc => by cases hc
  have hfits := h.fits
  rw [List.append_nil] at hread
  rw [DriveList.stoull, hread]
  dsimp only
  rw [if_neg (by omega)]
  congr 1
  omega

theorem stoull_number (n : ℕ) (hn : IsUInt64 n) : DriveList.stoull (numeral n) = .ok n := by
  obtain ⟨hne, -, hvalue⟩ := numeral_digits n
  have h := stoull_numeral (numeral n) ⟨hne, numeral_mem n, hvalue.symm ▸ hn⟩
  rw [h, hvalue]

theorem newDrive_returns (name model size : Bytes) (info : List Bytes) (hm : info[2]? = some model)
    (hs : info[3]? = some size) (hmodel : WellEscaped model) (hsize : Numeral size) :
    ∃ drive, newDrive name info = .ok drive := by
  obtain ⟨text, htext⟩ := drive_unescape_ok model hmodel
  unfold newDrive
  simp only [(column_ok _ _ _).mpr hm, (column_ok _ _ _).mpr hs, bind, Except.bind,
    (raise_ok _ _).mpr htext, (raise_ok _ _).mpr (stoull_numeral size hsize)]
  exact ⟨_, rfl⟩

/-- A partition is read where its size is told in one of two ways. -/
theorem newPartition_returns (exec : Exec) (name mountpoint size fstype fssize fsused : Bytes)
    (info sizes : List Bytes) (hm : info[1]? = some mountpoint) (hs : info[3]? = some size)
    (hf : info[4]? = some fstype)
    (hsizes : (if info.length ≤ 5 then measure exec name else .ok []) = .ok sizes)
    (h5 : (info++sizes)[5]? = some fssize) (h6 : (info++sizes)[6]? = some fsused)
    (hmount : WellEscaped mountpoint) (hsize : Numeral size)
    (htold : fssize = [] ∨ Numeral fssize ∧ Numeral fsused) :
    ∃ partition, newPartition exec name info = .ok partition := by
  obtain ⟨text, htext⟩ := drive_unescape_ok mountpoint hmount
  unfold newPartition
  simp only [(column_ok _ _ _).mpr hm, (column_ok _ _ _).mpr hs, (column_ok _ _ _).mpr hf, hsizes,
    (column_ok _ _ _).mpr h5, (column_ok _ _ _).mpr h6, bind, Except.bind,
    (raise_ok _ _).mpr htext, (raise_ok _ _).mpr (stoull_numeral size hsize)]
  rcases htold with rfl | ⟨hfs, hused⟩
  · rw [if_neg (not_not.mpr rfl)]
    exact ⟨_, rfl⟩
  · rw [if_pos hfs.nonempty]
    simp only [(raise_ok _ _).mpr (stoull_numeral fssize hfs),
      (raise_ok _ _).mpr (stoull_numeral fsused hused)]
    exact ⟨_, rfl⟩

theorem sevenColumns_reads (exec : Exec) (line : Bytes) (h : SevenColumns line) :
    Reads exec line := by
  obtain ⟨name, mountpoint, model, size, fstype, fssize, fsused, hsplit, hmount, hmodel, hsize,
    htold⟩ := h
  have hsizes : (if (7:ℕ) ≤ 5 then measure exec (nameOf line) else .ok []) =
      (.ok [] : Except Failure (List Bytes)) := if_neg (by decide)
  refine ⟨?_, fun _ => ?_⟩
  · rw [hsplit]
    exact newDrive_returns _ model size _ rfl rfl hmodel hsize
  · rw [hsplit]
    exact newPartition_returns exec _ mountpoint size fstype fssize fsused _ [] rfl rfl rfl hsizes
      rfl rfl hmount hsize htold

theorem entries_names (seen names : List Bytes) (drives : List Drive)
    (h : drives.map shape = names.map fun drive => (drive, partitionsOf seen drive)) :
    drives.map Drive.devNode = names := by
  have hfst := congrArg (List.map Prod.fst) h
  rw [List.map_map, List.map_map] at hfst
  exact hfst.trans (List.map_id _)

theorem entry_shape (seen : List Bytes) (drives : List Drive) (h : Entries seen drives) (d : Drive)
    (hd : d ∈ drives) : d.devNode ∈ driveNames seen ∧
      d.partitions.map Partition.devNode = partitionsOf seen d.devNode := by
  have hmem : shape d ∈ drives.map shape := List.mem_map_of_mem hd
  rw [h] at hmem
  obtain ⟨name, hname, hshape⟩ := List.mem_map.mp hmem
  obtain ⟨hdev, hparts⟩ := Prod.mk.inj hshape
  rw [← hdev]
  exact ⟨hname, hparts.symm⟩

theorem denotes_of_holds (seen drives : List Bytes) (b : Building) (name : Bytes)
    (hn : name ∈ drives) (h : Holds seen drives b)
    (hcap : capacityOf (drives.idxOf name+1) = capacityOf drives.length) : Denotes b name := by
  have hnames := entries_names seen drives b.drives h.entries
  refine ⟨_, (h.pointers name).trans (if_pos hn), hcap.trans h.capacity.symm, ?_⟩
  rw [← List.getElem?_map, hnames]
  exact List.getElem?_idxOf hn

/-- The pointer a line takes is good if the vector has not moved. -/
theorem opened_denotes (b b₁ : Building) (line : Bytes) (hb : Laid b) (hn : nameOf line ∉ b.seen)
    (hkept : CapacityKept b.seen (nameOf line)) (h : opened b line = .ok b₁) :
    Denotes b₁ (takenBy b line) := by
  unfold opened at h
  unfold takenBy
  split at h
  · next hcontains =>
    cases h
    rw [if_pos hcontains]
    have hbase := (seen_any _ _).mp hcontains
    exact denotes_of_holds _ _ b _ (base_owner b.seen _ hbase (baseName_idem _)) hb.holds
      (hkept hbase)
  · next hcontains =>
    rw [if_neg hcontains]
    obtain ⟨drive, hdrive, rfl⟩ := (map_ok _ _ _).mp h
    exact denotes_of_holds _ _ _ _ (List.mem_append_right _ List.mem_cons_self)
      (emplaced_holds b line hb hn drive hdrive) (emplaced_capacity b line hn)

theorem pointersKept_past (past lines : List Bytes) (hp : past <+: lines)
    (h : PointersKept (listed lines)) : PointersKept (listed past) :=
  fun seen name hs => h seen name (hs.trans (listed_past past lines hp))

/-- Everything agrees exactly when no partition comes after the vector has
moved away from its drive. -/
theorem consistent_iff (exec : Exec) (out : Bytes)
    (h : ∀ line ∈ split out 10 0, line ≠ [] → SevenColumns line) :
    Consistent exec (split out 10 0) ↔ PointersKept (listed (split out 10 0)) := by
  have hreads : ∀ line ∈ split out 10 0, line ≠ [] → Reads exec line :=
    fun line hl hne => sevenColumns_reads exec line (h line hl hne)
  generalize split out 10 0 = lines at hreads
  obtain ⟨hkept, hmoved⟩ := readLines_laid exec lines hreads
  constructor
  · intro hc
    by_contra hnot
    obtain ⟨b, hb, -⟩ := hc.entries
    rw [hmoved hnot] at hb
    cases hb
  · intro hp
    obtain ⟨b, hb, hlaid, hseen⟩ := hkept hp
    refine ⟨?_, fun past line hpast hl hn hnum c c₁ hc hopen => ?_, b, hb, hseen ▸ hlaid.holds.entries⟩
    · rw [hb]
      exact fun he => by cases he
    · have hpast' := (List.prefix_append past [line]).trans hpast
      obtain ⟨b', hb', hlaid', hseen'⟩ := (readLines_laid exec past fun l hl hne =>
        hreads l (hpast'.subset hl) hne).1 (pointersKept_past _ _ hpast' hp)
      obtain rfl : b' = c := Except.ok.inj (hb'.symm.trans hc)
      have hnew : nameOf line ∉ listed past := fun hm => hn ((mem_firsts _ _).mp hm)
      have hline := pointersKept_past _ _ hpast hp
      rw [listed_append, if_neg (not_or.mpr ⟨hl, hnew⟩), pointersKept_append] at hline
      rw [← hseen'] at hnew hline
      exact opened_denotes b' c₁ line hlaid' hnew hline.2 hopen

/-- The line of a device of one byte, without texts and without a file system. -/
def bareLine (name : Bytes) : Bytes := name++[32, 32, 32, 49, 32, 32, 32]

theorem bareLine_columns (name : Bytes)
    (h : split (bareLine name) 32 0 = [name, [], [], [49], [], [], []]) :
    SevenColumns (bareLine name) := by
  have hone : Numeral [49] := by
    refine ⟨List.cons_ne_nil _ _, fun c hc => ?_, by decide⟩
    rw [List.mem_singleton.mp hc]
    rfl
  exact ⟨name, [], [], [49], [], [], [], h, wellEscaped_nil, wellEscaped_nil, hone, .inl rfl⟩

def sda : Bytes := [115, 100, 97]
def sdb : Bytes := [115, 100, 98]
def sda1 : Bytes := [115, 100, 97, 49]

def noCommand : Exec := fun _ => .ok (256, [])

/-- A disk and its partition. -/
def oneDisk : Bytes := unlines [bareLine sda, bareLine sda1]

theorem oneDisk_lines : split oneDisk 10 0 = [bareLine sda, bareLine sda1, []] := by decide

theorem consistent_iff_oneDisk : Consistent noCommand (split oneDisk 10 0) ↔
    PointersKept (listed (split oneDisk 10 0)) :=
  consistent_iff noCommand oneDisk fun line hl hne => by
    rw [oneDisk_lines] at hl
    simp only [List.mem_cons, List.not_mem_nil, or_false] at hl
    rcases hl with rfl | rfl | rfl
    · exact bareLine_columns sda (by decide)
    · exact bareLine_columns sda1 (by decide)
    · exact absurd rfl hne

/-- A second disk between a disk and its partition. -/
def twoDisks : Bytes := unlines [bareLine sda, bareLine sdb, bareLine sda1]

theorem twoDisks_lines :
    split twoDisks 10 0 = [bareLine sda, bareLine sdb, bareLine sda1, []] := by decide

theorem twoDisks_columns : ∀ line ∈ split twoDisks 10 0, line ≠ [] → SevenColumns line := by
  intro line hl hne
  rw [twoDisks_lines] at hl
  simp only [List.mem_cons, List.not_mem_nil, or_false] at hl
  rcases hl with rfl | rfl | rfl | rfl
  · exact bareLine_columns sda (by decide)
  · exact bareLine_columns sdb (by decide)
  · exact bareLine_columns sda1 (by decide)
  · exact absurd rfl hne

/-- The pointer to the first disk is used after the vector has moved. -/
theorem twoDisks_not_consistent :
    (∀ line ∈ split twoDisks 10 0, line ≠ [] → SevenColumns line) ∧
      ¬ Consistent noCommand (split twoDisks 10 0) := by
  refine ⟨twoDisks_columns, fun h => ?_⟩
  have hlisted : listed (split twoDisks 10 0) = [sda, sdb, sda1] := by decide
  have hmoved : ¬ PointersKept (listed (split twoDisks 10 0)) := by
    rw [hlisted]
    exact fun hp => absurd (hp [sda, sdb] sda1 List.prefix_rfl (by decide)) (by decide)
  obtain ⟨b, hb, -⟩ := h.entries
  have herror := (readLines_laid noCommand _ fun line hl hne =>
    sevenColumns_reads noCommand line (twoDisks_columns line hl hne)).2 hmoved
  rw [herror] at hb
  cases hb

end Bakaneko.DriveEntries
