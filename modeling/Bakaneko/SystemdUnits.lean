import Bakaneko.SystemBus
import Bakaneko.Library.EscapedText
import Bakaneko.Library.Fallible

/-!
# The list of units

`Info::Services` asks systemd for its loaded units and for its unit files.
The names and descriptions it gets are rewritten: two characters behind a
backslash and an `x` are read as a hexadecimal numeral and stand for one byte.
-/

set_option autoImplicit false

namespace Bakaneko.SystemdUnits
open Bakaneko.Native Bakaneko.Messages Bakaneko.Rest Bakaneko.SystemBus
open Fallible

def hexDigit (c : UInt8) : Option ℕ :=
  if isdigit c then some (c.toNat-48)
  else if 65 ≤ c ∧ c ≤ 70 then some (c.toNat-55)
  else if 97 ≤ c ∧ c ≤ 102 then some (c.toNat-87)
  else none

/-- The digits of a hexadecimal numeral, behind a `0x` that a digit follows. -/
def hexDigits : Bytes → Bytes
  | 48::x::d::rest =>
    if (x = 120 ∨ x = 88) ∧ (hexDigit d).isSome then (d::rest).takeWhile (hexDigit · |>.isSome)
    else (48::x::d::rest).takeWhile (hexDigit · |>.isSome)
  | s => s.takeWhile (hexDigit · |>.isSome)

/-- `std::stoull` in base 16. -/
def stoull (s : Bytes) : Except StdException ℕ :=
  let rest := s.dropWhile isspace
  let negative := rest.head? = some 45
  let digits := hexDigits (rest.drop (if negative ∨ rest.head? = some 43 then 1 else 0))
  let value := digits.foldl (fun n d => 16*n+(hexDigit d).getD 0) 0
  if digits = [] then .error (.invalidArgument (bytes "stoull"))
  else if 18446744073709551616 ≤ value then .error (.outOfRange (bytes "stoull"))
  else .ok (if negative then (18446744073709551616-value)%18446744073709551616 else value)

def Escape : Bytes := [92, 120]

/-- The loop over the characters that have one behind them. The bytes of an
escape that its letter replaces are skipped. -/
def unescapeLoop : ℕ → Bytes → Except StdException Bytes
  | _, [] => .ok []
  | skip+1, _::rest => unescapeLoop skip rest
  | 0, c::rest =>
    if Escape <+: c::rest then do
      let letter ← stoull ((rest.drop 1).take 2)
      let tail ← unescapeLoop 3 rest
      return UInt8.ofNat letter::tail
    else do
      let tail ← unescapeLoop 0 rest
      return c::tail

/-- On an empty string `size() - 1` wraps, and the loop runs past the end. -/
def unescape (s : Bytes) : Except Failure Bytes :=
  if s = [] then .error (.undefined .pastEnd) else (unescapeLoop 0 s).mapError .exception

/-- What stands behind the last `c`, or everything. -/
def afterLast (c : UInt8) (s : Bytes) : Bytes := (s.reverse.takeWhile (· ≠ c)).reverse

def toupper (c : UInt8) : UInt8 := if 97 ≤ c ∧ c ≤ 122 then c-32 else c

def typeOf (id : Bytes) : Bytes := (afterLast 46 id).modifyHead toupper

def enabledOf (state : Bytes) : Bool := state = bytes "enabled" || state = bytes "static"

/-- A state of another name leaves the first enumerator. -/
def stateOf (active : Bytes) : State :=
  if active = bytes "active" then .running
  else if active = bytes "activating" then .starting
  else if active = bytes "deactivating" then .stopping
  else .stopped

def describe (host : Host) (path id description : Bytes) : Except Failure Service := do
  let enabled ← ask (host.unitFileState path)
  let active ← ask (host.activeState path)
  return ⟨id, stateOf active, enabledOf enabled, typeOf id, id, description⟩

/-- A loaded unit, with the file it was loaded from. -/
def loadedService (host : Host) (unit : UnitEntry) : Except Failure (Bytes × Service) := do
  let fragment ← ask (host.fragmentPath unit.path)
  let id ← unescape unit.name
  let description ← unescape unit.description
  let service ← describe host unit.path id description
  return (fragment, service)

def unloadedService (host : Host) (file : Bytes) : Except Failure Service := do
  let name := afterLast 47 file
  let path ← ask (host.loadUnit name)
  let description ← ask (host.description path)
  let id ← unescape name
  let description ← unescape description
  describe host path id description

def listable (fragments : List Bytes) (file : Bytes) : Bool :=
  !fragments.any (· = file) && !file.any (· = 64)

def listServices (host : Host) : Except Failure Services := do
  ask host.connect
  let units ← ask host.listUnits
  let loaded ← units.mapM (loadedService host)
  let fragments := (loaded.map (·.1)).filter (· ≠ [])
  let files ← ask host.listUnitFiles
  let unloaded ← (files.filter (listable fragments)).mapM (unloadedService host)
  return { services := loaded.map (·.2)++unloaded }

def systemdServices (host : Host) : Outcome Services := (listServices host).map .ok

/-- What `stoull` makes of two characters behind a mark; both are taken. -/
def letterOf (s : Bytes) : Option (UInt8 × ℕ) :=
  match stoull (s.take 2) with
  | .error _ => none
  | .ok letter => some (UInt8.ofNat letter, 2)

theorem unescapeLoop_skip (skip : ℕ) (s : Bytes) :
    unescapeLoop skip s = unescapeLoop 0 (s.drop skip) := by
  induction s generalizing skip with
  | nil => simp [unescapeLoop]
  | cons c rest ih =>
    cases skip with
    | zero => rfl
    | succ skip => exact ih skip

theorem escape_cons (c : UInt8) (rest : Bytes) (h : Escape <+: c::rest) :
    ∃ text, c = 92 ∧ rest = 120::text := by
  obtain ⟨text, ht⟩ := h
  have hcons := List.cons.inj ht
  exact ⟨text, hcons.1.symm, hcons.2.symm⟩

/-- The loop leaves what the text stands for. -/
theorem unescapeLoop_iff (n : ℕ) (s t : Bytes) (hn : s.length ≤ n) :
    unescapeLoop 0 s = .ok t ↔ EscapedText.StandsFor Escape letterOf s t := by
  have hne : Escape ≠ [] := by decide
  induction n generalizing s t with
  | zero =>
    obtain rfl : s = [] := List.length_eq_zero_iff.mp (Nat.le_zero.mp hn)
    simp [unescapeLoop, EscapedText.standsFor_nil hne, eq_comm]
  | succ n ih =>
    cases s with
    | nil => simp [unescapeLoop, EscapedText.standsFor_nil hne, eq_comm]
    | cons c rest =>
      rw [List.length_cons] at hn
      rw [unescapeLoop]
      split
      · next hmark =>
        obtain ⟨text, rfl, rfl⟩ := escape_cons c rest hmark
        have htext : (92::120::text : Bytes) = Escape++text := rfl
        rw [List.length_cons] at hn
        rw [htext, EscapedText.standsFor_escape hne, unescapeLoop_skip]
        simp only [List.drop_succ_cons, List.drop_zero, letterOf]
        cases stoull (text.take 2) with
        | error e => simp [bind, Except.bind]
        | ok letter =>
          constructor
          · intro h
            obtain ⟨value, hvalue, h⟩ := (bind_ok _ _ _).mp h
            cases hvalue
            obtain ⟨tail, ht, h⟩ := (bind_ok _ _ _).mp h
            exact ⟨_, _, tail, rfl, (return_ok _ _).mp h,
              (ih _ _ (by rw [List.length_drop]; omega)).mp ht⟩
          · rintro ⟨c, k, tail, hc, rfl, ht⟩
            cases hc
            have htail := (ih _ _ (by rw [List.length_drop]; omega)).mpr ht
            exact (bind_ok _ _ _).mpr ⟨letter, rfl, (bind_ok _ _ _).mpr ⟨tail, htail, rfl⟩⟩
      · next hmark =>
        rw [EscapedText.standsFor_plain _ _ _ hmark]
        constructor
        · intro h
          obtain ⟨tail, ht, h⟩ := (bind_ok _ _ _).mp h
          exact ⟨tail, (return_ok _ _).mp h, (ih _ _ (by omega)).mp ht⟩
        · rintro ⟨tail, rfl, ht⟩
          exact (bind_ok _ _ _).mpr ⟨tail, (ih _ _ (by omega)).mpr ht, rfl⟩

theorem unescape_iff (s t : Bytes) :
    unescape s = .ok t ↔ s ≠ [] ∧ EscapedText.StandsFor Escape letterOf s t := by
  unfold unescape
  split
  · next hs => simp [hs]
  · next hs =>
    rw [mapError_ok, unescapeLoop_iff s.length s t le_rfl]
    simp [hs]

theorem unescapeLoop_length (skip : ℕ) (s t : Bytes) (h : unescapeLoop skip s = .ok t) :
    t.length ≤ s.length := by
  induction s generalizing skip t with
  | nil =>
    obtain rfl : [] = t := by simpa [unescapeLoop] using h
    rfl
  | cons c rest ih =>
    cases skip with
    | succ skip => exact (ih skip t h).trans (Nat.le_succ _)
    | zero =>
      rw [unescapeLoop] at h
      split at h
      · obtain ⟨letter, -, h⟩ := (bind_ok _ _ _).mp h
        obtain ⟨tail, ht, h⟩ := (bind_ok _ _ _).mp h
        rw [(return_ok _ _).mp h]
        exact Nat.succ_le_succ (ih 3 tail ht)
      · obtain ⟨tail, ht, h⟩ := (bind_ok _ _ _).mp h
        rw [(return_ok _ _).mp h]
        exact Nat.succ_le_succ (ih 0 tail ht)

/-- An escape is longer than the letter it stands for. -/
theorem escape_length (c : UInt8) (rest tail : Bytes) (he : Escape <+: c::rest)
    (ht : unescapeLoop 3 rest = .ok tail) : tail.length < rest.length := by
  cases rest with
  | nil =>
    have hl := he.length_le
    simp [Escape] at hl
  | cons d rest => exact Nat.lt_succ_of_le (unescapeLoop_length 2 rest tail ht)

theorem unescapeLoop_eq_iff (s t : Bytes) (h : unescapeLoop 0 s = .ok t) :
    t = s ↔ ¬ Escape <:+: s := by
  induction s generalizing t with
  | nil =>
    obtain rfl : [] = t := by simpa [unescapeLoop] using h
    simp [Escape]
  | cons c rest ih =>
    rw [unescapeLoop] at h
    rw [List.infix_cons_iff]
    split at h
    case isTrue he =>
      obtain ⟨letter, -, h⟩ := (bind_ok _ _ _).mp h
      obtain ⟨tail, ht, h⟩ := (bind_ok _ _ _).mp h
      rw [(return_ok _ _).mp h]
      apply iff_of_false
      · intro heq
        have hlt := escape_length c rest tail he ht
        rw [(List.cons.inj heq).2] at hlt
        exact lt_irrefl _ hlt
      · exact fun hn => hn (.inl he)
    case isFalse he =>
      obtain ⟨tail, ht, h⟩ := (bind_ok _ _ _).mp h
      rw [(return_ok _ _).mp h, List.cons.injEq, ih tail ht]
      simp [he]

/-- A name or description comes through as it is exactly when it has no escape. -/
theorem unescape_eq_iff (s t : Bytes) (h : unescape s = .ok t) : t = s ↔ ¬ Escape <:+: s := by
  unfold unescape at h
  split at h
  · cases h
  · exact unescapeLoop_eq_iff s t ((mapError_ok _ _ _).mp h)

/-- A service made of the name and the description of a unit. -/
structure Describes (service : Service) (text : Bytes × Bytes) : Prop where
  id : unescape text.1 = .ok service.id
  description : unescape text.2 = .ok service.description
  displayName : service.displayName = service.id
  type : service.type = typeOf service.id

theorem describe_spec (host : Host) (path : Bytes) (name text id description : Bytes)
    (service : Service) (hi : unescape name = .ok id) (hd : unescape text = .ok description)
    (h : describe host path id description = .ok service) : Describes service (name, text) := by
  obtain ⟨enabled, -, h⟩ := (bind_ok _ _ _).mp h
  obtain ⟨active, -, h⟩ := (bind_ok _ _ _).mp h
  rw [(return_ok _ _).mp h]
  exact ⟨hi, hd, rfl, rfl⟩

theorem loadedService_spec (host : Host) (unit : UnitEntry) (fragment : Bytes) (service : Service)
    (h : loadedService host unit = .ok (fragment, service)) :
    host.fragmentPath unit.path = .ok fragment ∧
      Describes service (unit.name, unit.description) := by
  obtain ⟨path, hp, h⟩ := (bind_ok _ _ _).mp h
  obtain ⟨id, hi, h⟩ := (bind_ok _ _ _).mp h
  obtain ⟨description, hd, h⟩ := (bind_ok _ _ _).mp h
  obtain ⟨described, hs, h⟩ := (bind_ok _ _ _).mp h
  obtain ⟨rfl, rfl⟩ := Prod.mk.inj ((return_ok _ _).mp h)
  exact ⟨(mapError_ok _ _ _).mp hp, describe_spec host _ _ _ id description service hi hd hs⟩

/-- The description of a unit that is loaded for it. -/
def unloadedDescription (host : Host) (name : Bytes) : Except DbusError Bytes := do
  let path ← host.loadUnit name
  host.description path

/-- The text of a unit file: its name and the description of its unit. -/
def fileText (host : Host) (file : Bytes) : Bytes × Bytes :=
  (afterLast 47 file, (unloadedDescription host (afterLast 47 file)).toOption.getD [])

theorem unloadedService_spec (host : Host) (file : Bytes) (service : Service)
    (h : unloadedService host file = .ok service) : Describes service (fileText host file) := by
  obtain ⟨path, hp, h⟩ := (bind_ok _ _ _).mp h
  obtain ⟨text, ht, h⟩ := (bind_ok _ _ _).mp h
  obtain ⟨id, hi, h⟩ := (bind_ok _ _ _).mp h
  obtain ⟨description, hd, h⟩ := (bind_ok _ _ _).mp h
  have htext : unloadedDescription host (afterLast 47 file) = .ok text :=
    (bind_ok _ _ _).mpr ⟨path, (mapError_ok _ _ _).mp hp, (mapError_ok _ _ _).mp ht⟩
  rw [fileText, htext]
  exact describe_spec host path _ _ id description service hi hd h

/-- The files of the loaded units. -/
def fragments (host : Host) (units : List UnitEntry) : List Bytes :=
  (units.filterMap fun unit => (host.fragmentPath unit.path).toOption).filter (· ≠ [])

/-- The names systemd has for the units of the list, in its order. -/
def listedNames (host : Host) : List Bytes :=
  let units := host.listUnits.toOption.getD []
  let files := host.listUnitFiles.toOption.getD []
  units.map (·.name)++(files.filter (listable (fragments host units))).map (afterLast 47)

/-- The names and descriptions systemd has for the units of the list. -/
def listedTexts (host : Host) : List (Bytes × Bytes) :=
  let units := host.listUnits.toOption.getD []
  let files := host.listUnitFiles.toOption.getD []
  units.map (fun unit => (unit.name, unit.description))++
    (files.filter (listable (fragments host units))).map (fileText host)

theorem listedTexts_names (host : Host) : (listedTexts host).map Prod.fst = listedNames host := by
  rw [listedTexts, listedNames, List.map_append, List.map_map, List.map_map]
  rfl

theorem loaded_fragments (host : Host) (units : List UnitEntry) (loaded : List (Bytes × Service))
    (h : List.Forall₂ (fun unit entry => loadedService host unit = .ok entry) units loaded) :
    (loaded.map (·.1)).filter (· ≠ []) = fragments host units := by
  have hmap : loaded.map (·.1) =
      units.filterMap fun unit => (host.fragmentPath unit.path).toOption := by
    induction h with
    | nil => rfl
    | cons hue _ ih =>
      have hp := (loadedService_spec host _ _ _ hue).1
      rw [List.map_cons, ih, List.filterMap_cons, hp]
      rfl
  rw [hmap, fragments]

/-- Every service of the list is made of the texts of its unit. -/
theorem listServices_describes (host : Host) (reply : Services)
    (h : listServices host = .ok reply) :
    List.Forall₂ Describes reply.services (listedTexts host) := by
  obtain ⟨-, -, h⟩ := (bind_ok _ _ _).mp h
  obtain ⟨units, hu, h⟩ := (bind_ok _ _ _).mp h
  obtain ⟨loaded, hl, h⟩ := (bind_ok _ _ _).mp h
  obtain ⟨files, hf, h⟩ := (bind_ok _ _ _).mp h
  obtain ⟨unloaded, hn, h⟩ := (bind_ok _ _ _).mp h
  have hl := mapM_ok _ _ _ hl
  have hn := mapM_ok _ _ _ hn
  rw [loaded_fragments host units loaded hl] at hn
  rw [(return_ok _ _).mp h, listedTexts, (mapError_ok _ _ _).mp hu, (mapError_ok _ _ _).mp hf]
  apply List.rel_append
  · rw [List.forall₂_map_left_iff, List.forall₂_map_right_iff]
    exact hl.flip.imp fun entry unit he => (loadedService_spec host _ _ _ he).2
  · rw [List.forall₂_map_right_iff]
    exact hn.flip.imp fun service file hs => unloadedService_spec host file service hs

/-- Every service of the list has the rewritten name of its unit as its id. -/
theorem listServices_spec (host : Host) (reply : Services) (h : listServices host = .ok reply) :
    List.Forall₂ (fun service name => unescape name = .ok service.id) reply.services
      (listedNames host) := by
  rw [← listedTexts_names, List.forall₂_map_right_iff]
  exact (listServices_describes host reply h).imp fun _ _ hd => hd.id

end Bakaneko.SystemdUnits
