import Bakaneko.IniOperations

/-!
# The text of a configuration

A configuration is written as header lines and property lines. A line may
end in blanks and a comment, and lines of nothing else may stand anywhere.
Loading the text gives the sections it names and, for each key, the value
assigned last. A property line in front of the first header is the one thing
the loader does not survive.
-/

set_option autoImplicit false

namespace Bakaneko.IniText
open Bakaneko.Native Bakaneko.Text Bakaneko.Ini Bakaneko.IniOperations KeyedTable

/-- What `load_file` is expected to end with. -/
def LoadsOrThrows (r : Except Failure Sections) : Prop :=
  (∃ sections, r = .ok sections) ∨ (∃ what, r = .error (.exception (.invalidArgument what))) ∨
    ∃ what, r = .error (.exception (.outOfRange what))

/-- The first line that is not blank, if there is one, is a property. -/
def PropertyFirst (lines : List Bytes) : Prop :=
  ∃ key value, (lines.map lineKind).find? (· ≠ .blank) = some (.property key value)

theorem loadLines_headed (lines : List Bytes) (sections : Sections) (name : Bytes) :
    LoadsOrThrows (loadLines lines sections (some name)) := by
  induction lines generalizing sections name with
  | nil => exact .inl ⟨sections, rfl⟩
  | cons line rest ih =>
    rw [loadLines, loadLine_eq]
    cases lineKind line with
    | blank => exact ih sections name
    | header name' => exact ih (touch name' sections) name'
    | property key value =>
      by_cases hk : key = []
      · simp only [hk, if_true]
        exact .inr (.inr ⟨[], rfl⟩)
      · simp only [hk, if_false]
        exact ih (assignIn name key value sections) name
    | malformed => exact .inr (.inl ⟨[], rfl⟩)

theorem nullPointer_undefined : ¬ LoadsOrThrows (.error (.undefined .nullPointer)) := by
  simp [LoadsOrThrows]

theorem loadLines_headless (lines : List Bytes) (sections : Sections) :
    LoadsOrThrows (loadLines lines sections none) ↔ ¬ PropertyFirst lines := by
  induction lines generalizing sections with
  | nil =>
    have hload : LoadsOrThrows (loadLines [] sections none) := .inl ⟨sections, rfl⟩
    simpa [PropertyFirst] using hload
  | cons line rest ih =>
    rw [loadLines, loadLine_eq, PropertyFirst, List.map_cons, List.find?_cons]
    cases lineKind line with
    | blank => exact ih sections
    | header name =>
      have hload := loadLines_headed rest (touch name sections) name
      simpa using hload
    | property key value => simpa using nullPointer_undefined
    | malformed =>
      have hload : LoadsOrThrows (.error (.exception (.invalidArgument []))) := .inr (.inl ⟨[], rfl⟩)
      simpa using hload

/-- A file loads or is refused with an exception exactly when a property is
not the first thing it says. -/
theorem loadFile_defined (fileData : Bytes) (h : fileData ≠ []) :
    LoadsOrThrows (loadFile fileData) ↔ ¬ PropertyFirst (split fileData 10 0) := by
  rw [loadFile, if_neg h]
  exact loadLines_headless _ []

theorem loadFile_defined_admin : LoadsOrThrows (loadFile (bytes "; note\n[admin]\na=b")) := by
  refine (loadFile_defined _ (by decide)).mpr ?_
  rintro ⟨key, value, h⟩
  have hfirst : ((split (bytes "; note\n[admin]\na=b") 10 0).map lineKind).find? (· ≠ .blank) =
      some (.header (bytes "admin")) := rfl
  rw [hfirst] at h
  cases h

theorem loadFile_headless : ¬ LoadsOrThrows (loadFile (bytes "password=d\n[admin]\n")) := by
  have h : loadFile (bytes "password=d\n[admin]\n") = .error (.undefined .nullPointer) := rfl
  rw [h]
  exact nullPointer_undefined

/-- What may follow on a line: blanks, then perhaps a comment. -/
structure LineEnd where
  blanks : Bytes
  comment : Option Bytes
  isBlank : ∀ c ∈ blanks, isspace c = true ∧ c ≠ 10
  oneLine : ∀ text ∈ comment, 10 ∉ text

/-- A name a header can hold. -/
abbrev Name := {name : Bytes // 93 ∉ name ∧ 59 ∉ name ∧ 10 ∉ name}

/-- A key and the value assigned to it. -/
structure Property where
  key : Bytes
  value : Bytes
  key_ne : key ≠ []
  key_head : key.head? ≠ some 91
  key_free : 61 ∉ key ∧ 59 ∉ key ∧ 10 ∉ key
  value_free : 59 ∉ value ∧ 10 ∉ value
  value_end : ∀ c, value.getLast? = some c → isspace c = false

inductive BodyLine where
  | blank (stop : LineEnd)
  | property (p : Property) (stop : LineEnd)

structure SectionText where
  name : Name
  stop : LineEnd
  body : List BodyLine

/-- A configuration as it is written: blank lines, then the sections. -/
structure FileText where
  front : List LineEnd
  sections : List SectionText

def LineEnd.text (stop : LineEnd) : Bytes :=
  stop.blanks++match stop.comment with
    | none => []
    | some text => 59::text

def BodyLine.text : BodyLine → Bytes
  | .blank stop => stop.text
  | .property p stop => p.key++61::p.value++stop.text

def SectionText.lines (s : SectionText) : List Bytes :=
  (91::s.name.val++93::s.stop.text)::s.body.map BodyLine.text

def FileText.lines (f : FileText) : List Bytes :=
  f.front.map LineEnd.text++f.sections.flatMap SectionText.lines

/-- Lines with a newline between them; a last blank line ends the one before it. -/
def FileText.text (f : FileText) : Bytes := [10].intercalate f.lines

structure Assignment where
  name : Bytes
  key : Bytes
  value : Bytes
  deriving DecidableEq, Repr

def BodyLine.assignment? (name : Bytes) : BodyLine → Option Assignment
  | .blank _ => none
  | .property p _ => some ⟨name, p.key, p.value⟩

def SectionText.assignments (s : SectionText) : List Assignment :=
  s.body.filterMap (BodyLine.assignment? s.name.val)

def FileText.assignments (f : FileText) : List Assignment :=
  f.sections.flatMap SectionText.assignments

def FileText.names (f : FileText) : List Bytes := f.sections.map fun s => s.name.val

/-- The value of the last assignment to a key of a section. -/
def lastValue (name key : Bytes) (assignments : List Assignment) : Option Bytes :=
  (assignments.filter fun a => a.name = name && a.key = key).getLast?.map Assignment.value

theorem rtrim_blanks (s : Bytes) (stop : LineEnd) (h : ∀ c, s.getLast? = some c → isspace c = false) :
    rtrim (s++stop.blanks) = s := by
  have hb : ∀ c ∈ stop.blanks.reverse, isspace c = true := by
    intro c hc
    exact (stop.isBlank c (List.mem_reverse.mp hc)).1
  rw [rtrim, List.rdropWhile, List.reverse_append, List.dropWhile_append_of_pos hb,
    List.reverse_eq_iff]
  cases hs : s.reverse with
  | nil => rfl
  | cons c rest =>
    have hlast : s.getLast? = some c := by rw [← List.head?_reverse, hs]; rfl
    simp [h c hlast]

theorem blanks_free (stop : LineEnd) (c : UInt8) (h : isspace c = false ∨ c = 10) :
    c ∉ stop.blanks := by
  intro hc
  obtain ⟨hs, hn⟩ := stop.isBlank c hc
  rcases h with h | h
  · rw [h] at hs
    cases hs
  · exact hn h

/-- Comment and blanks go, whatever stands in front of them stays. -/
theorem line_data (s : Bytes) (stop : LineEnd) (hs : 59 ∉ s)
    (h : ∀ c, s.getLast? = some c → isspace c = false) :
    rtrim ((split (s++stop.text) 59 2).headD []) = s := by
  have hfree : 59 ∉ s++stop.blanks := by
    rw [List.mem_append]
    rintro (h | h)
    · exact hs h
    · exact blanks_free stop 59 (.inl (by decide)) h
  cases hc : stop.comment with
  | none =>
    rw [LineEnd.text, hc, List.append_nil, split_two_absent _ _ hfree]
    exact rtrim_blanks s stop h
  | some text =>
    rw [LineEnd.text, hc, ← List.append_assoc, split_two_append _ _ _ hfree]
    exact rtrim_blanks s stop h

theorem lineKind_blank (stop : LineEnd) : lineKind stop.text = .blank := by
  have h := line_data [] stop (by simp) (by simp)
  rw [List.nil_append] at h
  rw [lineKind, h]
  rfl

theorem idxOf?_first (s rest : Bytes) (c : UInt8) (h : c ∉ s) :
    (s++c::rest).idxOf? c = some s.length := by
  induction s with
  | nil => simp [List.idxOf?_cons]
  | cons d s ih =>
    simp only [List.mem_cons, not_or] at h
    rw [List.cons_append, List.idxOf?_cons, ih h.2]
    simp [Ne.symm h.1]

theorem lineKind_header (name : Name) (stop : LineEnd) :
    lineKind (91::name.val++93::stop.text) = .header name.val := by
  obtain ⟨name, hclose, hcomment, -⟩ := name
  have h := line_data (91::name++[93]) stop (by simp [hcomment])
    (by rw [List.getLast?_append]; simp; decide)
  rw [List.append_assoc, List.singleton_append] at h
  have hidx := idxOf?_first (91::name) [] 93 (by simp [hclose])
  rw [lineKind, h]
  dsimp only
  rw [hidx]
  simp

theorem property_end (p : Property) (c : UInt8)
    (h : (p.key++61::p.value).getLast? = some c) : isspace c = false := by
  cases hv : p.value.getLast? with
  | none =>
    rw [List.getLast?_eq_none_iff] at hv
    rw [hv, List.getLast?_append] at h
    obtain rfl : 61 = c := by simpa using h
    decide
  | some d =>
    have hlast : (p.key++61::p.value).getLast? = some d := by
      rw [List.getLast?_append, List.getLast?_cons, hv]
      rfl
    rw [hlast] at h
    exact p.value_end c (hv.trans h)

theorem lineKind_property (p : Property) (stop : LineEnd) :
    lineKind (p.key++61::p.value++stop.text) = .property p.key p.value := by
  have h := line_data (p.key++61::p.value) stop (by simp [p.key_free.2.1, p.value_free.1])
    (property_end p)
  have hne : p.key++61::p.value ≠ [] := by simp
  have hhead : ¬(p.key++61::p.value).head? = some 91 := by
    have hkey := p.key_head
    cases hk : p.key with
    | nil => exact absurd hk p.key_ne
    | cons c rest => simpa [hk] using hkey
  rw [lineKind, h]
  rw [if_neg hne, if_neg hhead, split_two_append _ _ _ p.key_free.1]

/-- The sections hold what was named and assigned so far, the last value each. -/
structure Reflects (sections : Sections) (names : List Bytes) (done : List Assignment) : Prop where
  names : ∀ name, (section? name sections).isSome ↔ name ∈ names
  items : ∀ name key, item? name key sections =
    (lastValue name key done).map fun value => ⟨key, some value⟩

theorem lastValue_append (name key : Bytes) (done : List Assignment) (a : Assignment) :
    lastValue name key (done++[a]) =
      if name = a.name ∧ key = a.key then some a.value else lastValue name key done := by
  rw [lastValue, List.filter_append]
  by_cases h : name = a.name ∧ key = a.key
  · obtain ⟨rfl, rfl⟩ := h
    simp
  · have ha : (a.name = name && a.key = key) = false := by
      rw [Bool.eq_false_iff]
      intro hb
      simp only [Bool.and_eq_true, decide_eq_true_eq] at hb
      exact h ⟨hb.1.symm, hb.2.symm⟩
    simp only [List.filter_cons, ha, h]
    simp [lastValue]

theorem lastValue_isSome (name key : Bytes) (done : List Assignment) :
    (lastValue name key done).isSome ↔ ∃ value, ⟨name, key, value⟩ ∈ done := by
  rw [lastValue, Option.isSome_map, List.getLast?_isSome]
  constructor
  · intro h
    obtain ⟨a, ha⟩ := List.exists_mem_of_ne_nil _ h
    simp only [List.mem_filter, Bool.and_eq_true, decide_eq_true_eq] at ha
    obtain ⟨hm, rfl, rfl⟩ := ha
    exact ⟨a.value, hm⟩
  · rintro ⟨value, hm⟩
    exact List.ne_nil_of_mem (List.mem_filter.mpr ⟨hm, by simp⟩)

theorem reflects_nil : Reflects [] [] [] := ⟨by simp [section?], by simp [item?, section?, lastValue]⟩

theorem reflects_touch (name : Bytes) (sections : Sections) (names : List Bytes)
    (done : List Assignment) (h : Reflects sections names done) :
    Reflects (touch name sections) (names++[name]) done := by
  rw [touch_eq]
  constructor
  · intro name'
    rw [section?_withSection name name' id sections (fun _ => rfl), h.names, List.mem_append,
      List.mem_singleton, or_comm]
  · intro name' key'
    rw [item?_withSection, h.items]

theorem reflects_assign (a : Assignment) (sections : Sections) (names : List Bytes)
    (done : List Assignment) (hn : a.name ∈ names) (h : Reflects sections names done) :
    Reflects (assignIn a.name a.key a.value sections) names (done++[a]) := by
  have hin : a.name ∈ sections.map Section.name :=
    (row?_isSome a.name sections).mp ((h.names a.name).mpr hn)
  rw [assignIn_eq _ _ _ _ hin]
  constructor
  · intro name'
    rw [section?_withSection a.name name' _ sections (withItem_name a.key _), h.names]
    exact ⟨fun hor => hor.elim (fun he => he ▸ hn) id, .inr⟩
  · intro name' key'
    rw [item?_withItem a.name a.key name' key' _ sections (set_key _), lastValue_append]
    by_cases hm : name' = a.name ∧ key' = a.key
    · obtain ⟨rfl, rfl⟩ := hm
      rw [if_pos ⟨rfl, rfl⟩, if_pos ⟨rfl, rfl⟩, h.items]
      cases lastValue a.name a.key done <;> rfl
    · rw [if_neg hm, if_neg hm, h.items]

theorem body_loads (name : Bytes) (body : List BodyLine) (rest : List Bytes)
    (sections : Sections) (names : List Bytes) (done : List Assignment) (hn : name ∈ names)
    (h : Reflects sections names done) :
    ∃ sections', loadLines (body.map BodyLine.text++rest) sections (some name) =
        loadLines rest sections' (some name) ∧
      Reflects sections' names (done++body.filterMap (BodyLine.assignment? name)) := by
  induction body generalizing sections done with
  | nil => exact ⟨sections, rfl, by simpa using h⟩
  | cons line body ih =>
    rw [List.map_cons, List.cons_append, loadLines, loadLine_eq]
    cases line with
    | blank stop =>
      rw [BodyLine.text, lineKind_blank]
      exact ih sections done h
    | property p stop =>
      rw [BodyLine.text, lineKind_property]
      obtain ⟨sections', hload, hr⟩ := ih _ _ (reflects_assign ⟨name, p.key, p.value⟩ sections
        names done hn h)
      simp only [p.key_ne, if_false]
      refine ⟨sections', hload, ?_⟩
      rw [List.append_assoc] at hr
      exact hr

theorem sections_load (texts : List SectionText) (sections : Sections) (current : Option Bytes)
    (names : List Bytes) (done : List Assignment) (h : Reflects sections names done) :
    ∃ sections', loadLines (texts.flatMap SectionText.lines) sections current = .ok sections' ∧
      Reflects sections' (names++texts.map fun s => s.name.val)
        (done++texts.flatMap SectionText.assignments) := by
  induction texts generalizing sections current names done with
  | nil => exact ⟨sections, rfl, by simpa using h⟩
  | cons s texts ih =>
    rw [List.flatMap_cons, SectionText.lines, List.cons_append, loadLines, loadLine_eq,
      lineKind_header]
    obtain ⟨sections₁, hbody, hr₁⟩ := body_loads s.name.val s.body
      (texts.flatMap SectionText.lines) (touch s.name.val sections) (names++[s.name.val]) done
      (by simp) (reflects_touch s.name.val sections names done h)
    obtain ⟨sections₂, hload, hr₂⟩ := ih sections₁ (some s.name.val) _ _ hr₁
    refine ⟨sections₂, hbody.trans hload, ?_⟩
    rw [List.append_assoc, List.append_assoc] at hr₂
    exact hr₂

theorem front_loads (front : List LineEnd) (rest : List Bytes) (sections : Sections)
    (current : Option Bytes) :
    loadLines (front.map LineEnd.text++rest) sections current =
      loadLines rest sections current := by
  induction front with
  | nil => rfl
  | cons stop front ih =>
    rw [List.map_cons, List.cons_append, loadLines, loadLine_eq, lineKind_blank]
    exact ih

theorem end_free (stop : LineEnd) : 10 ∉ stop.text := by
  rw [LineEnd.text, List.mem_append, not_or]
  refine ⟨blanks_free stop 10 (.inr rfl), ?_⟩
  cases hc : stop.comment with
  | none => simp
  | some text => simpa using stop.oneLine text hc

theorem lines_free (f : FileText) : ∀ line ∈ f.lines, 10 ∉ line := by
  intro line hl
  rw [FileText.lines, List.mem_append, List.mem_map, List.mem_flatMap] at hl
  rcases hl with ⟨stop, -, rfl⟩ | ⟨s, -, hs⟩
  · exact end_free stop
  rw [SectionText.lines, List.mem_cons, List.mem_map] at hs
  rcases hs with rfl | ⟨body, -, rfl⟩
  · simp [s.name.property.2.2, end_free]
  · cases body with
    | blank stop => exact end_free stop
    | property p stop => simp [BodyLine.text, p.key_free.2.2, p.value_free.2, end_free]

theorem assignments_key (f : FileText) (a : Assignment) (h : a ∈ f.assignments) : a.key ≠ [] := by
  obtain ⟨s, -, hs⟩ := List.mem_flatMap.mp h
  obtain ⟨line, -, hl⟩ := List.mem_filterMap.mp hs
  cases line with
  | blank stop => cases hl
  | property p stop =>
    cases hl
    exact p.key_ne

/-- A written configuration that is not empty loads, and holds the sections it
names, the keys assigned in them and the value assigned last. -/
theorem loadFile_text (f : FileText) (hne : f.text ≠ [])
    (hsize : f.text.length < 18446744073709551616) :
    ∃ sections, loadFile f.text = .ok sections ∧
      (∀ name, (section? name sections).isSome ↔ name ∈ f.names) ∧
      (∀ name key, has name key sections ↔ ∃ value, ⟨name, key, value⟩ ∈ f.assignments) ∧
      ∀ name key value, lastValue name key f.assignments = some value →
        get name key sections = .ok value := by
  have hlines : f.lines ≠ [] := by
    intro h
    exact hne (by rw [FileText.text, h]; rfl)
  obtain ⟨sections, hload, hr⟩ := sections_load f.sections [] none [] [] reflects_nil
  refine ⟨sections, ?_, ?_, ?_, ?_⟩
  · rw [loadFile, if_neg hne, FileText.text, split_intercalate 10 f.lines hlines (lines_free f)
      hsize, FileText.lines, front_loads]
    exact hload
  · exact hr.names
  · intro name key
    rw [has, hr.items, Option.isSome_map, lastValue_isSome]
    rfl
  · intro name key value hv
    obtain ⟨v, hm⟩ := (lastValue_isSome name key f.assignments).mp (by rw [hv]; rfl)
    have hitem := hr.items name key
    rw [List.nil_append, show f.sections.flatMap SectionText.assignments = f.assignments from rfl,
      hv, Option.map_some] at hitem
    rw [Ini.get, if_neg (assignments_key f _ hm), hitem]
    rfl

/-- Two sections of one name, a comment, and blanks at the end of a line. -/
def exampleText : FileText where
  front := [⟨[], some (bytes " accounts"), by simp, by decide⟩]
  sections := [
    ⟨⟨bytes "admin", by decide⟩, ⟨[13], none, by simp [isspace], by simp⟩,
      [.property ⟨bytes "password", bytes "a", by decide, by decide, by decide, by decide,
        fun c hc => by cases hc; rfl⟩ ⟨[], none, by simp, by simp⟩]⟩,
    ⟨⟨bytes "admin", by decide⟩, ⟨[], none, by simp, by simp⟩,
      [.property ⟨bytes "password", bytes "d e", by decide, by decide, by decide, by decide,
        fun c hc => by cases hc; rfl⟩ ⟨[32, 9], some (bytes "x"), by simp [isspace], by decide⟩]⟩]

theorem loadFile_text_example :
    exampleText.text = bytes "; accounts\n[admin]\r\npassword=a\n[admin]\npassword=d e \t;x" ∧
    ∃ sections, loadFile exampleText.text = .ok sections ∧
      get (bytes "admin") (bytes "password") sections = .ok (bytes "d e") := by
  have htext : exampleText.text =
      bytes "; accounts\n[admin]\r\npassword=a\n[admin]\npassword=d e \t;x" := rfl
  refine ⟨htext, ?_⟩
  obtain ⟨sections, hload, -, -, hget⟩ := loadFile_text exampleText
    (by rw [htext]; decide) (by rw [htext]; decide)
  exact ⟨sections, hload, hget _ _ _ (by decide +kernel)⟩

end Bakaneko.IniText
