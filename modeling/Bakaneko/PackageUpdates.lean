import Bakaneko.DriveList

/-!
# The updates of the packages

`Info::Updates` asks three package managers for their updates, decodes the
lines of each that ends well, and leaves out what it can not decode. What is
behind the first blank of a line of `pacman` starts with that blank.
-/

set_option autoImplicit false

namespace Bakaneko.PackageUpdates
open Bakaneko.Native Bakaneko.Text Bakaneko.Messages Bakaneko.DriveList

def npos : ℕ := 18446744073709551615

/-- `find` of a character from a position on. -/
def find (c : UInt8) (s : Bytes) (pos : ℕ) : ℕ :=
  if c ∈ s.drop pos then pos+(s.drop pos).idxOf c else npos

def substr (s : Bytes) (pos count : ℕ) : Except StdException Bytes :=
  if s.length < pos then .error (.outOfRange (bytes "basic_string::substr"))
  else .ok ((s.drop pos).take count)

/-- What a decoder makes of a line, if it takes it. -/
abbrev Decode := Bytes → Except StdException (Option Update)

def decodeLine (decode : Decode) (updates : List Update) (package : Bytes) :
    Except StdException (List Update) :=
  if package = [] then .ok updates
  else (decode package).map fun update => updates++update.toList

/-- Whether the command has ended well is told as well. -/
def run (exec : Exec) (command flags : Bytes) (decode : Decode) (updates : List Update) :
    Except StdException (List Update × Bool) := do
  let out ← exec (command++32::flags)
  if out.1 = 0 then do
    let updates ← (split out.2 10 0).foldlM (decodeLine decode) updates
    return (updates, true)
  else return (updates, false)

def pacmanDecode (package : Bytes) : Except StdException (Option Update) := do
  let space := find 32 package 0
  let name ← substr package 0 space
  let preSpace := space
  let space := find 32 package (sizeT (space+1))
  let oldVersion ← substr package preSpace (sizeT (space-preSpace))
  let preSpace := sizeT (space+4)
  let newVersion ← substr package preSpace npos
  return some { source := [], name, oldVersion, newVersion }

def aptDecode (package : Bytes) : Except StdException (Option Update) :=
  match split package 32 0 with
  | [field, newVersion, _, _, _, last] => do
    let name ← substr field 0 (find 47 field 0)
    let oldVersion ← substr last 0 (sizeT (last.length-1))
    return some { source := [], name, oldVersion, newVersion }
  | _ => .ok none

/-- The characters a dot stands for. -/
def wildcard (c : UInt8) : Bool := c ≠ 10 && c ≠ 13

/-- `-r\d` -/
def release : Bytes → Option Bytes
  | 45::114::d::_ => if isdigit d then some [45, 114, d] else none
  | _ => none

/-- `.*?-r\d`, the shortest one. -/
def upToRelease : Bytes → Option Bytes
  | [] => none
  | c::rest => match release (c::rest) with
    | some text => some text
    | none => if wildcard c then (upToRelease rest).map (c::·) else none

/-- `-(\d.*?-r\d)` -/
def versionAt : Bytes → Option Bytes
  | 45::d::rest => if isdigit d then (upToRelease rest).map (d::·) else none
  | _ => none

/-- `(.*)-(\d.*?-r\d)`, with the longest first group. -/
def nameVersion : Bytes → Option (Bytes × Bytes)
  | [] => none
  | c::rest => match if wildcard c then nameVersion rest else none with
    | some (name, version) => some (c::name, version)
    | none => (versionAt (c::rest)).map ([], ·)

/-- `std::regex_search`: the match that starts first. -/
def regexSearch : Bytes → Option (Bytes × Bytes)
  | [] => none
  | c::rest => match nameVersion (c::rest) with
    | some groups => some groups
    | none => regexSearch rest

def apkDecode (package : Bytes) : Except StdException (Option Update) :=
  match split package 61 0 with
  | [field, newVersion] => .ok ((regexSearch field).map fun groups =>
      { source := [], name := groups.1, oldVersion := groups.2, newVersion })
  | _ => .ok none

def listUpdates (exec : Exec) : Except StdException Updates := do
  let (updates, _) ← run exec (bytes "pacman") (bytes "-Qu") pacmanDecode []
  let (updates, _) ← run exec (bytes "apt") (bytes "list --upgradable") aptDecode updates
  let (updates, _) ← run exec (bytes "apk") (bytes "version -v -l '<'") apkDecode updates
  return { updates }

/-- A command that ends well with these lines; a string can hold them. -/
def Prints (exec : Exec) (command flags : Bytes) (lines : List Bytes) : Prop :=
  exec (command++32::flags) = .ok (0, unlines lines) ∧
    (unlines lines).length < 18446744073709551616

def Fails (exec : Exec) (command flags : Bytes) : Prop :=
  ∃ code out, exec (command++32::flags) = .ok (code, out) ∧ code ≠ 0

/-- A text without blanks and ends of line. -/
structure Word where
  text : Bytes
  nonempty : text ≠ []
  blank : 32 ∉ text
  line : 10 ∉ text

structure Package where
  name : Word
  old : Word
  new : Word

/-- A package as `apt` knows it. -/
structure AptPackage extends Package where
  suites : Word
  arch : Word
  slash : 47 ∉ name.text

def Package.record (p : Package) : Update :=
  { source := [], name := p.name.text, oldVersion := p.old.text, newVersion := p.new.text }

/-- What is listed of a line of `pacman`. -/
def Package.listed (p : Package) : Update := { p.record with oldVersion := 32::p.old.text }

def Package.pacmanLine (p : Package) : Bytes :=
  p.name.text++32::(p.old.text++32::45::62::32::p.new.text)

def AptPackage.fields (p : AptPackage) : List Bytes :=
  [p.name.text++47::p.suites.text, p.new.text, p.arch.text, bytes "[upgradable", bytes "from:",
    p.old.text++[93]]

/-- A line of `apt`; the others have not six fields. -/
inductive AptLine where
  | package (p : AptPackage)
  | other (line : Bytes) (end_ : 10 ∉ line) (blanks : line.count 32+1 ≠ 6)

def AptLine.text : AptLine → Bytes
  | .package p => [32].intercalate p.fields
  | .other line _ _ => line

def AptLine.record : AptLine → Option Update
  | .package p => some p.record
  | .other _ _ _ => none

/-- A character is found behind a field without it. -/
theorem find_behind (c : UInt8) (front field rest : Bytes) (pos : ℕ) (hpos : front.length = pos)
    (h : c ∉ field) : find c (front++(field++c::rest)) pos = pos+field.length := by
  subst hpos
  have hmem : c ∈ field++c::rest := by simp
  rw [find, List.drop_left, if_pos hmem, List.idxOf_append_of_notMem h, List.idxOf_cons_self,
    Nat.add_zero]

theorem substr_behind (front field rest : Bytes) (pos count : ℕ) (hpos : front.length = pos)
    (hcount : field.length = count) :
    substr (front++(field++rest)) pos count = .ok field := by
  subst hpos hcount
  rw [substr, if_neg (by simp), List.drop_left, List.take_left]

theorem substr_rest (front rest : Bytes) (pos count : ℕ) (hpos : front.length = pos)
    (hcount : rest.length ≤ count) : substr (front++rest) pos count = .ok rest := by
  subst hpos
  rw [substr, if_neg (by simp), List.drop_left, List.take_of_length_le hcount]

theorem sizeT_nat (n : ℕ) (h : n < 18446744073709551616) : sizeT n = n :=
  sizeT_of_nonneg (Int.natCast_nonneg n) (by exact_mod_cast h)

/-- The blank behind the name is kept in front of the version. -/
theorem pacmanDecode_line (p : Package) (hsize : p.pacmanLine.length < 18446744073709551616) :
    pacmanDecode p.pacmanLine = .ok (some p.listed) := by
  have hlen : p.pacmanLine.length = p.name.text.length+p.old.text.length+p.new.text.length+5 := by
    simp only [Package.pacmanLine, List.length_append, List.length_cons]
    omega
  rw [hlen] at hsize
  have hline : p.pacmanLine = (p.name.text++[32])++(p.old.text++32::45::62::32::p.new.text) := by
    simp [Package.pacmanLine]
  have hold : p.pacmanLine = p.name.text++((32::p.old.text)++(32::45::62::32::p.new.text)) := rfl
  have hnew : p.pacmanLine = (p.name.text++32::(p.old.text++[32, 45, 62, 32]))++p.new.text := by
    simp [Package.pacmanLine]
  have hfirst : find 32 p.pacmanLine 0 = p.name.text.length := by
    rw [Package.pacmanLine]
    exact (find_behind 32 [] _ _ 0 rfl p.name.blank).trans (Nat.zero_add _)
  have hsecond : find 32 p.pacmanLine (p.name.text.length+1) =
      p.name.text.length+1+p.old.text.length := by
    rw [hline]
    exact find_behind 32 _ _ _ _ (by simp) p.old.blank
  have hname : substr p.pacmanLine 0 p.name.text.length = .ok p.name.text :=
    substr_behind [] _ _ 0 _ rfl rfl
  have hversion : substr p.pacmanLine p.name.text.length (p.old.text.length+1) =
      .ok (32::p.old.text) := by
    rw [hold]
    exact substr_behind _ _ _ _ _ rfl rfl
  have hrest : substr p.pacmanLine (p.name.text.length+1+p.old.text.length+4) npos =
      .ok p.new.text := by
    rw [hnew]
    refine substr_rest _ _ _ _ ?_ (by unfold npos; omega)
    simp only [List.length_append, List.length_cons, List.length_nil]
    omega
  have hpos : sizeT ((p.name.text.length:ℤ)+1) = p.name.text.length+1 :=
    sizeT_nat (p.name.text.length+1) (by omega)
  have hcount : sizeT (((p.name.text.length+1+p.old.text.length:ℕ):ℤ)-p.name.text.length) =
      p.old.text.length+1 := by
    rw [← sizeT_nat (p.old.text.length+1) (by omega)]
    exact congrArg sizeT (by omega)
  have hskip : sizeT (((p.name.text.length+1+p.old.text.length:ℕ):ℤ)+4) =
      p.name.text.length+1+p.old.text.length+4 :=
    sizeT_nat (p.name.text.length+1+p.old.text.length+4) (by omega)
  simp only [pacmanDecode, hfirst, hname, bind, Except.bind, hpos, hsecond, hcount, hversion,
    hskip, hrest]
  rfl

theorem AptPackage.fields_blank (p : AptPackage) : ∀ field ∈ p.fields, 32 ∉ field := by
  have hword (w : Word) := w.blank
  have hmark : (32 : UInt8) ∉ bytes "[upgradable" ∧ (32 : UInt8) ∉ bytes "from:" := by decide
  simp [AptPackage.fields, hword, hmark]

theorem aptDecode_line (p : AptPackage)
    (hsize : ([32].intercalate p.fields).length < 18446744073709551616) :
    aptDecode ([32].intercalate p.fields) = .ok (some p.record) := by
  have hne : p.fields ≠ [] := List.cons_ne_nil _ _
  have hname : substr (p.name.text++47::p.suites.text) 0
      (find 47 (p.name.text++47::p.suites.text) 0) = .ok p.name.text := by
    have hslash : find 47 (p.name.text++47::p.suites.text) 0 = p.name.text.length :=
      (find_behind 47 [] _ _ 0 rfl p.slash).trans (Nat.zero_add _)
    rw [hslash]
    exact substr_behind [] _ _ 0 _ rfl rfl
  have hlast : p.old.text.length+1 ≤ ([32].intercalate p.fields).length := by
    simp only [AptPackage.fields, List.intercalate_cons_cons, List.intercalate_singleton,
      List.length_append, List.length_singleton]
    omega
  have hcount : sizeT (((p.old.text++[93]).length:ℤ)-1) = p.old.text.length := by
    rw [← sizeT_nat p.old.text.length (by omega)]
    exact congrArg sizeT (by simp)
  have hold : substr (p.old.text++[93]) 0 p.old.text.length = .ok p.old.text :=
    substr_behind [] _ [93] 0 _ rfl rfl
  rw [aptDecode, split_intercalate 32 p.fields hne p.fields_blank hsize, AptPackage.fields]
  dsimp only
  rw [hname, hcount, hold]
  rfl

theorem aptDecode_other (line : Bytes) (hsize : line.length < 18446744073709551615)
    (h : line.count 32+1 ≠ 6) : aptDecode line = .ok none := by
  have hlen := split_length line 32 hsize
  rw [aptDecode]
  split
  · next hfields =>
    rw [hfields] at hlen
    exact absurd hlen.symm h
  · rfl

section
variable {α : Type} (exec : Exec) (command flags : Bytes) (decode : Decode) (updates : List Update)

theorem run_fails (h : Fails exec command flags) :
    run exec command flags decode updates = .ok (updates, false) := by
  obtain ⟨code, out, hexec, hcode⟩ := h
  rw [run, hexec]
  exact if_neg hcode

variable (items : List α) (text : α → Bytes) (record : α → Option Update)
  (hfree : ∀ a ∈ items, 10 ∉ text a)
  (hline : ∀ a ∈ items, ∀ updates, decodeLine decode updates (text a) =
    .ok (updates++(record a).toList))

include hline in
theorem decodeLines : (items.map text).foldlM (decodeLine decode) updates =
    .ok (updates++items.filterMap record) := by
  induction items generalizing updates with
  | nil => simp [pure, Except.pure]
  | cons a items ih =>
    rw [List.map_cons, List.foldlM_cons, hline a List.mem_cons_self]
    refine (ih _ fun b hb => hline b (List.mem_cons_of_mem a hb)).trans ?_
    rw [List.append_assoc, List.filterMap_cons]
    cases record a <;> rfl

include hfree hline in
/-- The records of the lines, in their order. -/
theorem run_prints (h : Prints exec command flags (items.map text)) :
    run exec command flags decode updates = .ok (updates++items.filterMap record, true) := by
  have hsplit : split (unlines (items.map text)) 10 0 = items.map text++[[]] := by
    refine split_unlines _ (fun line hl => ?_) h.2
    obtain ⟨a, ha, rfl⟩ := List.mem_map.mp hl
    exact hfree a ha
  have hlines := decodeLines decode updates items text record hline
  rw [run, h.1]
  simp only [bind, Except.bind, if_true, hsplit, List.foldlM_append, hlines]
  rfl

end

theorem pacmanLine_ends (p : Package) : p.pacmanLine ≠ [] ∧ 10 ∉ p.pacmanLine := by
  have hword (w : Word) := w.line
  exact ⟨by simp [Package.pacmanLine], by simp [Package.pacmanLine, hword]⟩

/-- What is listed for the packages of `pacman`. -/
theorem listUpdates_pacman (exec : Exec) (packages : List Package)
    (hpacman : Prints exec (bytes "pacman") (bytes "-Qu") (packages.map Package.pacmanLine))
    (hapt : Fails exec (bytes "apt") (bytes "list --upgradable"))
    (hapk : Fails exec (bytes "apk") (bytes "version -v -l '<'")) :
    listUpdates exec = .ok ⟨packages.map Package.listed⟩ := by
  have hline : ∀ p ∈ packages, ∀ updates, decodeLine pacmanDecode updates p.pacmanLine =
      .ok (updates++(some p.listed).toList) := by
    intro p hp updates
    have hlen := unlines_length (packages.map Package.pacmanLine) _ (List.mem_map_of_mem hp)
    rw [decodeLine, if_neg (pacmanLine_ends p).1, pacmanDecode_line p (hlen.trans hpacman.2)]
    rfl
  have hrun := run_prints exec _ _ pacmanDecode [] packages Package.pacmanLine
    (fun p => some p.listed) (fun p _ => (pacmanLine_ends p).2) hline hpacman
  simp only [listUpdates, hrun, bind, Except.bind, run_fails exec _ _ _ _ hapt,
    run_fails exec _ _ _ _ hapk, List.nil_append, List.filterMap_eq_map']
  rfl

/-- The old versions come with a blank in front: only no package is listed as
it is. -/
theorem listUpdates_pacman_iff (exec : Exec) (packages : List Package)
    (hpacman : Prints exec (bytes "pacman") (bytes "-Qu") (packages.map Package.pacmanLine))
    (hapt : Fails exec (bytes "apt") (bytes "list --upgradable"))
    (hapk : Fails exec (bytes "apk") (bytes "version -v -l '<'")) :
    listUpdates exec = .ok ⟨packages.map Package.record⟩ ↔ packages = [] := by
  rw [listUpdates_pacman exec packages hpacman hapt hapk]
  constructor
  · intro h
    cases packages with
    | nil => rfl
    | cons p packages =>
      have hfirst := (List.cons.inj (Updates.mk.inj (Except.ok.inj h))).1
      have hversion : 32::p.old.text = p.old.text := congrArg Update.oldVersion hfirst
      exact absurd (congrArg List.length hversion) (Nat.succ_ne_self _)
  · rintro rfl
    rfl

/-- A host on which one command ends well. -/
def answers (command flags : Bytes) (lines : List Bytes) : Exec := fun line =>
  .ok (if line = command++32::flags then (0, unlines lines) else (256, []))

theorem answers_prints (command flags : Bytes) (lines : List Bytes)
    (hsize : (unlines lines).length < 18446744073709551616) :
    Prints (answers command flags lines) command flags lines :=
  ⟨congrArg Except.ok (if_pos rfl), hsize⟩

theorem answers_fails (command flags command' flags' : Bytes) (lines : List Bytes)
    (h : command'++32::flags' ≠ command++32::flags) :
    Fails (answers command flags lines) command' flags' :=
  ⟨256, [], congrArg Except.ok (if_neg h), by decide⟩

def wordOf (c : UInt8) (h : c ≠ 32 ∧ c ≠ 10) : Word :=
  ⟨[c], List.cons_ne_nil _ _, by simpa using h.1.symm, by simpa using h.2.symm⟩

/-- `a 1 -> 2` -/
def onePackage : Package := ⟨wordOf 97 (by decide), wordOf 49 (by decide), wordOf 50 (by decide)⟩

def pacmanHost : Exec := answers (bytes "pacman") (bytes "-Qu") [onePackage.pacmanLine]

theorem pacmanHost_prints :
    Prints pacmanHost (bytes "pacman") (bytes "-Qu") ([onePackage].map Package.pacmanLine) ∧
      Fails pacmanHost (bytes "apt") (bytes "list --upgradable") ∧
      Fails pacmanHost (bytes "apk") (bytes "version -v -l '<'") :=
  ⟨answers_prints _ _ _ (by decide), answers_fails _ _ _ _ _ (by decide),
    answers_fails _ _ _ _ _ (by decide)⟩

theorem listUpdates_pacman_iff_one :
    listUpdates pacmanHost = .ok ⟨[onePackage].map Package.record⟩ ↔ [onePackage] = [] :=
  listUpdates_pacman_iff pacmanHost [onePackage] pacmanHost_prints.1 pacmanHost_prints.2.1
    pacmanHost_prints.2.2

/-- The old version of the package is listed as ` 1`. -/
theorem listUpdates_pacman_one :
    Prints pacmanHost (bytes "pacman") (bytes "-Qu") ([onePackage].map Package.pacmanLine) ∧
      Fails pacmanHost (bytes "apt") (bytes "list --upgradable") ∧
      Fails pacmanHost (bytes "apk") (bytes "version -v -l '<'") ∧
      listUpdates pacmanHost = .ok ⟨[⟨[], [97], [32, 49], [50]⟩]⟩ ∧
      listUpdates pacmanHost ≠ .ok ⟨[onePackage].map Package.record⟩ := by
  obtain ⟨hpacman, hapt, hapk⟩ := pacmanHost_prints
  have hlist := listUpdates_pacman pacmanHost [onePackage] hpacman hapt hapk
  refine ⟨hpacman, hapt, hapk, hlist, ?_⟩
  rw [hlist]
  decide

theorem aptLine_free (line : AptLine) : 10 ∉ line.text := by
  cases line with
  | package p =>
    have hword (w : Word) := w.line
    have hmark : (10 : UInt8) ∉ bytes "[upgradable" ∧ (10 : UInt8) ∉ bytes "from:" := by decide
    simp [AptLine.text, AptPackage.fields, List.intercalate_cons_cons, hword, hmark]
  | other line hend => exact hend

theorem decodeLine_apt (line : AptLine) (hsize : line.text.length < 18446744073709551615)
    (updates : List Update) :
    decodeLine aptDecode updates line.text = .ok (updates++line.record.toList) := by
  cases line with
  | package p =>
    have hne : AptLine.text (.package p) ≠ [] := by
      simp [AptLine.text, AptPackage.fields, List.intercalate_cons_cons]
    rw [decodeLine, if_neg hne, AptLine.text, aptDecode_line p (Nat.lt_succ_of_lt hsize)]
    rfl
  | other line hend hblanks =>
    rw [decodeLine]
    split
    · exact congrArg Except.ok (List.append_nil updates).symm
    · rw [AptLine.text, aptDecode_other line hsize hblanks]
      rfl

/-- The packages of `apt`, and nothing for the other lines. -/
theorem listUpdates_apt (exec : Exec) (lines : List AptLine)
    (hpacman : Fails exec (bytes "pacman") (bytes "-Qu"))
    (hapt : Prints exec (bytes "apt") (bytes "list --upgradable") (lines.map AptLine.text))
    (hapk : Fails exec (bytes "apk") (bytes "version -v -l '<'")) :
    listUpdates exec = .ok ⟨lines.filterMap AptLine.record⟩ := by
  have hline : ∀ line ∈ lines, ∀ updates, decodeLine aptDecode updates line.text =
      .ok (updates++line.record.toList) := by
    intro line hl updates
    have hlen := unlines_length (lines.map AptLine.text) _ (List.mem_map_of_mem hl)
    exact decodeLine_apt line (Nat.lt_of_lt_of_le hlen (Nat.le_of_lt_succ hapt.2)) updates
  have hrun := run_prints exec _ _ aptDecode [] lines AptLine.text AptLine.record
    (fun line _ => aptLine_free line) hline hapt
  simp only [listUpdates, hrun, bind, Except.bind, run_fails exec _ _ _ _ hpacman,
    run_fails exec _ _ _ _ hapk, List.nil_append]
  rfl

/-- `a/b 2 c [upgradable from: 1]` behind a line that announces the list. -/
def aptLines : List AptLine :=
  [.other (bytes "Listing...") (by decide) (by decide),
    .package ⟨onePackage, wordOf 98 (by decide), wordOf 99 (by decide), by decide⟩]

theorem listUpdates_apt_one :
    listUpdates (answers (bytes "apt") (bytes "list --upgradable") (aptLines.map AptLine.text)) =
      .ok ⟨[⟨[], [97], [49], [50]⟩]⟩ :=
  listUpdates_apt _ aptLines (answers_fails _ _ _ _ _ (by decide))
    (answers_prints _ _ _ (by decide)) (answers_fails _ _ _ _ _ (by decide))

end Bakaneko.PackageUpdates
