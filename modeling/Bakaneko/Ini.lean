import Bakaneko.Text

/-!
# The configuration file

`ini` keeps sections and items in the order in which they were first named.
A property in front of every section is written through a null pointer. A
file that loads gives every item it names a value.
-/

set_option autoImplicit false

namespace Bakaneko.Ini
open Bakaneko.Native Bakaneko.Text

structure Item where
  key : Bytes
  value : Option Bytes
  deriving DecidableEq, Repr

structure Section where
  name : Bytes
  items : List Item
  deriving DecidableEq, Repr

abbrev Sections := List Section

/-- `operator[]` of the file: the section is there afterwards. -/
def touch (name : Bytes) : Sections → Sections
  | [] => [⟨name, []⟩]
  | s::rest => if s.name = name then s::rest else s::touch name rest

def assign (key value : Bytes) : List Item → List Item
  | [] => [⟨key, some value⟩]
  | i::rest =>
    if i.key = key then { i with value := some value }::rest else i::assign key value rest

def assignIn (name key value : Bytes) : Sections → Sections
  | [] => []
  | s::rest =>
    if s.name = name then { s with items := assign key value s.items }::rest
    else s::assignIn name key value rest

/-- One line of the file, with the name of the current section. -/
def loadLine (line : Bytes) (sections : Sections) (current : Option Bytes) :
    Except Failure (Sections × Option Bytes) :=
  let data := rtrim ((split line 59 2).headD [])
  if data = [] then .ok (sections, current)
  else if data.head? = some 91 then
    match data.idxOf? 93 with
    | some stop =>
      let name := (data.drop 1).take (stop-1)
      .ok (touch name sections, some name)
    | none => .error (.exception (.invalidArgument []))
  else match split data 61 2 with
    | [key, value] => match current with
      | none => .error (.undefined .nullPointer)
      | some name =>
        if key = [] then .error (.exception (.outOfRange []))
        else .ok (assignIn name key value sections, current)
    | _ => .error (.exception (.invalidArgument []))

/-- What a line is, whatever stands in front of it. -/
inductive LineKind where
  | blank
  | header (name : Bytes)
  | property (key value : Bytes)
  | malformed
  deriving DecidableEq, Repr

def lineKind (line : Bytes) : LineKind :=
  let data := rtrim ((split line 59 2).headD [])
  if data = [] then .blank
  else if data.head? = some 91 then
    match data.idxOf? 93 with
    | some stop => .header ((data.drop 1).take (stop-1))
    | none => .malformed
  else match split data 61 2 with
    | [key, value] => .property key value
    | _ => .malformed

theorem loadLine_eq (line : Bytes) (sections : Sections) (current : Option Bytes) :
    loadLine line sections current = match lineKind line with
      | .blank => .ok (sections, current)
      | .header name => .ok (touch name sections, some name)
      | .property key value => match current with
        | none => .error (.undefined .nullPointer)
        | some name =>
          if key = [] then .error (.exception (.outOfRange []))
          else .ok (assignIn name key value sections, current)
      | .malformed => .error (.exception (.invalidArgument [])) := by
  unfold loadLine lineKind
  dsimp only
  split
  · rfl
  split
  · split <;> rfl
  split
  · rfl
  · rfl

/-- What a line that loads does. -/
theorem loadLine_cases (line : Bytes) (sections sections' : Sections)
    (current current' : Option Bytes)
    (h : loadLine line sections current = .ok (sections', current')) :
    (sections' = sections ∧ current' = current) ∨
    (∃ name, sections' = touch name sections ∧ current' = some name) ∨
    (∃ name key value, current = some name ∧ key ≠ [] ∧
      sections' = assignIn name key value sections ∧ current' = current) := by
  rw [loadLine_eq] at h
  cases hk : lineKind line with
  | blank =>
    simp only [hk, Except.ok.injEq, Prod.mk.injEq] at h
    exact .inl ⟨h.1.symm, h.2.symm⟩
  | header name =>
    simp only [hk, Except.ok.injEq, Prod.mk.injEq] at h
    exact .inr (.inl ⟨name, h.1.symm, h.2.symm⟩)
  | property key value =>
    cases current with
    | none => simp [hk] at h
    | some name =>
      by_cases hn : key = []
      · simp [hk, hn] at h
      · simp only [hk, hn, if_false, Except.ok.injEq, Prod.mk.injEq] at h
        exact .inr (.inr ⟨name, key, value, rfl, hn, h.1.symm, h.2.symm⟩)
  | malformed => simp [hk] at h

def loadLines : List Bytes → Sections → Option Bytes → Except Failure Sections
  | [], sections, _ => .ok sections
  | line::rest, sections, current => match loadLine line sections current with
    | .error e => .error e
    | .ok (sections, current) => loadLines rest sections current

/-- `load_file` on the bytes of the file; an empty file cannot be mapped. -/
def loadFile (fileData : Bytes) : Except Failure Sections :=
  if fileData = [] then .error (.exception (.ioError (bytes "invalid_file: could not open file")))
  else loadLines (split fileData 10 0) [] none

def section? (name : Bytes) (sections : Sections) : Option Section :=
  sections.find? fun s => s.name = name

def item? (name key : Bytes) (sections : Sections) : Option Item :=
  (section? name sections).bind fun s => s.items.find? fun i => i.key = key

def has (name key : Bytes) (sections : Sections) : Bool := (item? name key sections).isSome

/-- `ini[name][key].get<std::string>()`. -/
def get (name key : Bytes) (sections : Sections) : Except StdException Bytes :=
  if key = [] then .error (.outOfRange [])
  else match (item? name key sections).bind Item.value with
    | some value => .ok value
    | none => .error .badOptionalAccess

/-- What a line keeps is kept by the loop over the lines. -/
theorem loadLines_invariant (P : Sections → Prop)
    (hline : ∀ line sections sections' current current', P sections →
      loadLine line sections current = .ok (sections', current') → P sections')
    (lines : List Bytes) (sections sections' : Sections) (current : Option Bytes)
    (h : P sections) (hl : loadLines lines sections current = .ok sections') : P sections' := by
  induction lines generalizing sections current with
  | nil =>
    cases hl
    exact h
  | cons line rest ih =>
    rw [loadLines] at hl
    split at hl
    · cases hl
    case _ v c hv => exact ih v c (hline line sections v current c h hv) hl

theorem loadLine_pastEnd (line : Bytes) (sections : Sections) (current : Option Bytes) :
    loadLine line sections current ≠ .error (.undefined .pastEnd) := by
  rw [loadLine_eq]
  cases lineKind line with
  | blank => simp
  | header name => simp
  | property key value =>
    cases current with
    | none => simp
    | some name => by_cases hk : key = [] <;> simp [hk]
  | malformed => simp

theorem loadLines_pastEnd (lines : List Bytes) (sections : Sections) (current : Option Bytes) :
    loadLines lines sections current ≠ .error (.undefined .pastEnd) := by
  induction lines generalizing sections current with
  | nil => simp [loadLines]
  | cons line rest ih =>
    rw [loadLines]
    split
    case _ e he =>
      intro h
      cases h
      exact loadLine_pastEnd line sections current he
    case _ => exact ih _ _

/-- The loader indexes nothing it has not found. -/
theorem loadFile_pastEnd (fileData : Bytes) :
    loadFile fileData ≠ .error (.undefined .pastEnd) := by
  unfold loadFile
  split
  · simp
  · exact loadLines_pastEnd _ _ _

example : (loadFile (bytes "[admin]\npassword=d ; note\n")).bind
    (fun sections => (get (bytes "admin") (bytes "password") sections).mapError .exception) =
    .ok (bytes "d") := rfl

end Bakaneko.Ini
