import Bakaneko.PackageUpdates

/-!
# The updates of `apk`

The command asks for the packages behind whose version a `<` stands, and so
does each line it prints. The decoder cuts the line at a `=`. Its expression
takes one digit of the revision.
-/

set_option autoImplicit false

namespace Bakaneko.ApkUpdates
open Bakaneko.Native Bakaneko.Text Bakaneko.Messages Bakaneko.DriveList Bakaneko.PackageUpdates

/-- A package as `apk` knows it, with the blanks its line has more than one. -/
structure ApkPackage where
  name : Word
  version : Word
  digit : version.text.head?.any isdigit
  dash : 45 ∉ version.text
  revision : ℕ
  new : Word
  left : ℕ
  right : ℕ

def ApkPackage.old (p : ApkPackage) : Bytes := p.version.text++45::114::numeral p.revision

def ApkPackage.line (p : ApkPackage) : Bytes :=
  p.name.text++45::(p.old++List.replicate (p.left+1) 32++60::List.replicate (p.right+1) 32++
    p.new.text)

def ApkPackage.record (p : ApkPackage) : Update :=
  { source := [], name := p.name.text, oldVersion := p.old, newVersion := p.new.text }

/-- A line gives an update or none; the new version of one stands behind a `=`. -/
theorem apkDecode_behind (line : Bytes) : ∃ update, apkDecode line = .ok update ∧
    ∀ u ∈ update, ∃ front, line = front++61::u.newVersion := by
  have hjoin := split_joined line 61 0
  rw [apkDecode]
  split
  · next field new hfields =>
    refine ⟨_, rfl, fun u hu => ⟨field, ?_⟩⟩
    obtain ⟨groups, -, rfl⟩ := Option.map_eq_some_iff.mp hu
    rw [hfields, List.intercalate_cons_cons, List.intercalate_singleton] at hjoin
    simpa using hjoin.symm
  · exact ⟨none, rfl, fun u hu => by cases hu⟩

/-- In front of the new version of a package stands a blank. -/
theorem apkDecode_line (p : ApkPackage) : apkDecode p.line ≠ .ok (some p.record) := by
  intro h
  obtain ⟨update, hupdate, hbehind⟩ := apkDecode_behind p.line
  obtain rfl : some p.record = update := Except.ok.inj (h.symm.trans hupdate)
  obtain ⟨front, hfront⟩ := hbehind p.record rfl
  have hblank : p.line = (p.name.text++45::(p.old++List.replicate (p.left+1) 32++60::
      List.replicate p.right 32))++32::p.new.text := by
    simp [ApkPackage.line, List.replicate_succ']
  rw [hblank] at hfront
  cases List.head_eq_of_cons_eq (List.append_inj_right' hfront rfl)

theorem numeral_free (n : ℕ) (c : UInt8) (h : isdigit c = false) : c ∉ numeral n := by
  intro hc
  exact Bool.false_ne_true (h.symm.trans (List.all_eq_true.mp (numeral_digits n).2.1 c hc))

theorem line_ends (p : ApkPackage) : p.line ≠ [] ∧ 10 ∉ p.line := by
  have hword (w : Word) := w.line
  have hdigits : 10 ∉ numeral p.revision := numeral_free _ _ (by decide)
  exact ⟨by simp [ApkPackage.line],
    by simp [ApkPackage.line, ApkPackage.old, hword, hdigits, List.mem_replicate]⟩

def ApkPackage.listed (p : ApkPackage) : Option Update := (apkDecode p.line).toOption.join

theorem apkDecode_listed (p : ApkPackage) : apkDecode p.line = .ok p.listed := by
  obtain ⟨update, hupdate, -⟩ := apkDecode_behind p.line
  rw [ApkPackage.listed, hupdate]
  rfl

section
variable (exec : Exec) (packages : List ApkPackage)
  (hpacman : Fails exec (bytes "pacman") (bytes "-Qu"))
  (hapt : Fails exec (bytes "apt") (bytes "list --upgradable"))
  (hapk : Prints exec (bytes "apk") (bytes "version -v -l '<'") (packages.map ApkPackage.line))
include hpacman hapt hapk

theorem listUpdates_apk : listUpdates exec = .ok ⟨packages.filterMap ApkPackage.listed⟩ := by
  have hline : ∀ p ∈ packages, ∀ updates, decodeLine apkDecode updates p.line =
      .ok (updates++p.listed.toList) := by
    intro p _ updates
    rw [decodeLine, if_neg (line_ends p).1, apkDecode_listed]
    rfl
  have hrun := run_prints exec _ _ apkDecode [] packages ApkPackage.line ApkPackage.listed
    (fun p _ => (line_ends p).2) hline hapk
  simp only [listUpdates, hrun, bind, Except.bind, run_fails exec _ _ _ _ hpacman,
    run_fails exec _ _ _ _ hapt, List.nil_append]
  rfl

/-- No package is listed as it is. -/
theorem listUpdates_apk_iff :
    listUpdates exec = .ok ⟨packages.map ApkPackage.record⟩ ↔ packages = [] := by
  rw [listUpdates_apk exec packages hpacman hapt hapk]
  constructor
  · intro h
    have hlists := Updates.mk.inj (Except.ok.inj h)
    cases packages with
    | nil => rfl
    | cons p packages =>
      rw [List.map_cons, List.filterMap_cons] at hlists
      cases hp : p.listed with
      | none =>
        rw [hp] at hlists
        have hlen := congrArg List.length hlists
        have hle := List.length_filterMap_le ApkPackage.listed packages
        simp only [List.length_cons, List.length_map] at hlen
        omega
      | some update =>
        rw [hp] at hlists
        have hfirst : update = p.record := List.head_eq_of_cons_eq hlists
        exact absurd ((apkDecode_listed p).trans (hfirst ▸ congrArg Except.ok hp))
          (apkDecode_line p)
  · rintro rfl
    rfl

end

/-- `a-1-r10 < 2` -/
def onePackage : ApkPackage where
  name := PackageUpdates.onePackage.name
  version := PackageUpdates.onePackage.old
  digit := by decide
  dash := fun h => absurd (List.mem_singleton.mp h) (by decide)
  revision := 10
  new := PackageUpdates.onePackage.new
  left := 0
  right := 0

def apkHost : Exec := answers (bytes "apk") (bytes "version -v -l '<'") [onePackage.line]

theorem apkHost_prints : Fails apkHost (bytes "pacman") (bytes "-Qu") ∧
    Fails apkHost (bytes "apt") (bytes "list --upgradable") ∧
    Prints apkHost (bytes "apk") (bytes "version -v -l '<'") ([onePackage].map ApkPackage.line) :=
  ⟨answers_fails _ _ _ _ _ (by decide), answers_fails _ _ _ _ _ (by decide),
    answers_prints _ _ _ (by decide)⟩

theorem listUpdates_apk_iff_one :
    listUpdates apkHost = .ok ⟨[onePackage].map ApkPackage.record⟩ ↔ [onePackage] = [] :=
  listUpdates_apk_iff apkHost [onePackage] apkHost_prints.1 apkHost_prints.2.1 apkHost_prints.2.2

/-- The line has no `=`, and the package is left out. -/
theorem listUpdates_apk_one : Fails apkHost (bytes "pacman") (bytes "-Qu") ∧
    Fails apkHost (bytes "apt") (bytes "list --upgradable") ∧
    Prints apkHost (bytes "apk") (bytes "version -v -l '<'") ([onePackage].map ApkPackage.line) ∧
    listUpdates apkHost = .ok ⟨[]⟩ ∧
    listUpdates apkHost ≠ .ok ⟨[onePackage].map ApkPackage.record⟩ := by
  obtain ⟨hpacman, hapt, hapk⟩ := apkHost_prints
  have hlist := listUpdates_apk apkHost [onePackage] hpacman hapt hapk
  have hlisted : onePackage.listed = none := by decide
  rw [List.filterMap_cons, hlisted] at hlist
  refine ⟨hpacman, hapt, hapk, hlist, ?_⟩
  rw [hlist]
  decide

theorem versionAt_other (c : UInt8) (s : Bytes) (h : 45 ≠ c) : versionAt (c::s) = none := by
  unfold versionAt
  split
  · next heq => exact absurd (List.head_eq_of_cons_eq heq).symm h
  · rfl

theorem nameVersion_free (s : Bytes) (h : 45 ∉ s) : nameVersion s = none := by
  induction s with
  | nil => rfl
  | cons c s ih =>
    rw [List.mem_cons, not_or] at h
    rw [nameVersion, ih h.2, ite_self, versionAt_other c s h.1]
    rfl

/-- Inside a version no other one starts. -/
theorem nameVersion_version (version digits : Bytes) (hv : 45 ∉ version) (hd : 45 ∉ digits) :
    nameVersion (version++45::114::digits) = none := by
  induction version with
  | nil =>
    have hletter : versionAt (45::114::digits) = none := rfl
    rw [List.nil_append, nameVersion, nameVersion_free (114::digits) (by simpa using hd), ite_self,
      hletter]
    rfl
  | cons c version ih =>
    rw [List.mem_cons, not_or] at hv
    rw [List.cons_append, nameVersion, ih hv.2, ite_self, versionAt_other c _ hv.1]
    rfl

/-- The shortest match ends at the first digit of the revision. -/
theorem upToRelease_version (version rest : Bytes) (d : UInt8) (hd : isdigit d = true)
    (hdash : 45 ∉ version) (hany : version.all wildcard = true) :
    upToRelease (version++45::114::d::rest) = some (version++[45, 114, d]) := by
  induction version with
  | nil =>
    have hrelease : release (45::114::d::rest) = some [45, 114, d] := if_pos hd
    rw [List.nil_append, upToRelease, hrelease]
    rfl
  | cons c version ih =>
    rw [List.mem_cons, not_or] at hdash
    rw [List.all_cons, Bool.and_eq_true] at hany
    have hrelease : release (c::(version++45::114::d::rest)) = none := by
      unfold release
      split
      · next heq => exact absurd (List.head_eq_of_cons_eq heq).symm hdash.1
      · rfl
    rw [List.cons_append, upToRelease, hrelease, ih hdash.2 hany.2]
    simp [hany.1]

theorem nameVersion_name (name rest version : Bytes) (hany : name.all wildcard = true)
    (hlast : nameVersion rest = none) (hversion : versionAt (45::rest) = some version) :
    nameVersion (name++45::rest) = some (name, version) := by
  induction name with
  | nil =>
    rw [List.nil_append, nameVersion, hlast, ite_self, hversion]
    rfl
  | cons c name ih =>
    rw [List.all_cons, Bool.and_eq_true] at hany
    rw [List.cons_append, nameVersion, if_pos hany.1, ih hany.2]

theorem word_wildcard (w : Word) (h : 13 ∉ w.text) : w.text.all wildcard = true := by
  refine List.all_eq_true.mpr fun c hc => ?_
  have hline : c ≠ 10 := fun he => w.line (he ▸ hc)
  have hreturn : c ≠ 13 := fun he => h (he ▸ hc)
  simp [wildcard, hline, hreturn]

/-- Name and version are told apart at the last dash a digit stands behind, and
the version ends with the first digit of the revision. -/
theorem regexSearch_installed (p : ApkPackage) (hname : 13 ∉ p.name.text)
    (hversion : 13 ∉ p.version.text) : ∃ d digits, numeral p.revision = d::digits ∧
      regexSearch (p.name.text++45::p.old) =
        some (p.name.text, p.version.text++[45, 114, d]) := by
  obtain ⟨hne, hall, -⟩ := numeral_digits p.revision
  have hfree : 45 ∉ numeral p.revision := numeral_free _ _ (by decide)
  obtain ⟨d, digits, hdigits⟩ := List.exists_cons_of_ne_nil hne
  obtain ⟨e, version, hfirst⟩ := List.exists_cons_of_ne_nil p.version.nonempty
  have hdash : 45 ∉ version := fun h => p.dash (hfirst ▸ List.mem_cons_of_mem e h)
  have hany := word_wildcard p.version hversion
  have he : isdigit e = true := by simpa [hfirst] using p.digit
  rw [hfirst, List.all_cons, Bool.and_eq_true] at hany
  rw [hdigits, List.all_cons, Bool.and_eq_true] at hall
  have hlast : nameVersion p.old = none := nameVersion_version _ _ p.dash hfree
  have hat : versionAt (45::p.old) = some (p.version.text++[45, 114, d]) := by
    have hup := upToRelease_version version digits d hall.1 hdash hany.2
    rw [ApkPackage.old, hfirst, hdigits, List.cons_append, versionAt, if_pos he, hup]
    rfl
  have hfound := nameVersion_name p.name.text p.old _ (word_wildcard p.name hname) hlast hat
  refine ⟨d, digits, hdigits, ?_⟩
  obtain ⟨c, name, hc⟩ := List.exists_cons_of_ne_nil p.name.nonempty
  rw [hc, List.cons_append] at hfound ⊢
  rw [regexSearch, hfound]

end Bakaneko.ApkUpdates
