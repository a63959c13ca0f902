import Bakaneko.Ini
import Bakaneko.Library.KeyedTable

/-!
# Reading and writing a loaded configuration

`operator[]` makes the section and the item it is asked for. A call
`ini[name][key]` looks up the section before it looks at the key, and what
`item::set` or `item::remove` does is done to the item the lookup refers to.
Both levels are tables that make the row they are asked for.
-/

set_option autoImplicit false

namespace Bakaneko.IniOperations
open Bakaneko.Native Bakaneko.Ini KeyedTable

def remove (i : Item) : Item := { i with value := none }

/-- `data` is the text of what is stored, nothing for a `nullptr`. -/
def set (data : Option Bytes) (i : Item) : Item :=
  match data with
  | none => remove i
  | some text => { i with value := some text }

/-- `item::operator=` -/
def assignItem (data : Option Bytes) (i : Item) : Item := set data i

def getOr (defualt : Bytes) (i : Item) : Bytes := i.value.getD defualt

/-- `section::operator[]`, with what is done to the item it refers to. -/
def withItem (key : Bytes) (f : Item → Item) (s : Section) : Section :=
  { s with items := alter Item.key (⟨·, none⟩) key f s.items }

/-- `ini::operator[]`, with what is done to the section it refers to. -/
def withSection (name : Bytes) (f : Section → Section) (sections : Sections) : Sections :=
  alter Section.name (⟨·, []⟩) name f sections

/-- `ini[name][key]`: the section is there also when the key throws. -/
def atItem (name key : Bytes) (f : Item → Item) (sections : Sections) :
    Sections × Except StdException Unit :=
  if key = [] then (withSection name id sections, .error (.outOfRange []))
  else (withSection name (withItem key f) sections, .ok ())

inductive Operation where
  | lookupSection (name : Bytes)
  | lookupItem (name key : Bytes)
  | assign (name key : Bytes) (data : Option Bytes)
  | set (name key : Bytes) (data : Option Bytes)
  | remove (name key : Bytes)
  deriving DecidableEq, Repr

def perform : Operation → Sections → Sections × Except StdException Unit
  | .lookupSection name, sections => (withSection name id sections, .ok ())
  | .lookupItem name key, sections => atItem name key id sections
  | .assign name key data, sections => atItem name key (assignItem data) sections
  | .set name key data, sections => atItem name key (IniOperations.set data) sections
  | .remove name key, sections => atItem name key IniOperations.remove sections

/-- The values a program can hold: whatever it does after it began with an
empty or a loaded one. -/
inductive Reached : Sections → Prop where
  | empty : Reached []
  | loaded (fileData : Bytes) (sections : Sections) :
      loadFile fileData = .ok sections → Reached sections
  | step (operation : Operation) (sections : Sections) :
      Reached sections → Reached (perform operation sections).1

/-- The value stored under a name and a key, if there is one. -/
def stored (name key : Bytes) (sections : Sections) : Option Bytes :=
  (item? name key sections).bind Item.value

/-- `ini[name][key].get(defualt)` -/
def getDefault (name key defualt : Bytes) (sections : Sections) : Except StdException Bytes :=
  if key = [] then .error (.outOfRange [])
  else .ok (getOr defualt ((item? name key sections).getD ⟨key, none⟩))

theorem touch_eq (name : Bytes) (sections : Sections) :
    touch name sections = withSection name id sections := by
  induction sections with
  | nil => rfl
  | cons s rest ih =>
    rw [touch, ih]
    rfl

theorem assign_eq (key value : Bytes) (items : List Item) :
    assign key value items = alter Item.key (⟨·, none⟩) key (set (some value)) items := by
  induction items with
  | nil => rfl
  | cons i rest ih =>
    rw [assign, ih]
    rfl

theorem assignIn_eq (name key value : Bytes) (sections : Sections)
    (h : name ∈ sections.map Section.name) :
    assignIn name key value sections =
      withSection name (withItem key (set (some value))) sections := by
  induction sections with
  | nil => simp at h
  | cons s rest ih =>
    rw [assignIn, withSection, alter]
    by_cases hs : s.name = name
    · rw [if_pos hs, if_pos hs, assign_eq]
      rfl
    · have hrest : name ∈ rest.map Section.name := by simpa [Ne.symm hs] using h
      rw [if_neg hs, if_neg hs, ih hrest]
      rfl

theorem assignIn_absent (name key value : Bytes) (sections : Sections)
    (h : name ∉ sections.map Section.name) : assignIn name key value sections = sections := by
  induction sections with
  | nil => rfl
  | cons s rest ih =>
    simp only [List.map_cons, List.mem_cons, not_or] at h
    rw [assignIn, if_neg (Ne.symm h.1), ih h.2]

theorem section_keeps (f : Section → Section) (h : ∀ s, (f s).name = s.name) :
    KeepsKey Section.name (fun name => ⟨name, []⟩) f := ⟨fun _ => rfl, h⟩

theorem item_keeps (f : Item → Item) (h : ∀ i, (f i).key = i.key) :
    KeepsKey Item.key (fun key => ⟨key, none⟩) f := ⟨fun _ => rfl, h⟩

theorem withItem_name (key : Bytes) (f : Item → Item) (s : Section) :
    (withItem key f s).name = s.name := rfl

@[simp] theorem set_key (data : Option Bytes) (i : Item) : (set data i).key = i.key := by
  cases data <;> rfl

theorem section?_eq (name : Bytes) (sections : Sections) : section? name sections =
    row? Section.name name sections := rfl

theorem item?_eq (name key : Bytes) (sections : Sections) :
    item? name key sections =
      (row? Section.name name sections).bind fun s => row? Item.key key s.items := rfl

theorem section?_withSection (name name' : Bytes) (f : Section → Section) (sections : Sections)
    (hf : ∀ s, (f s).name = s.name) :
    (section? name' (withSection name f sections)).isSome ↔
      name' = name ∨ (section? name' sections).isSome := by
  rw [section?_eq, withSection, row?_alter (section_keeps f hf)]
  by_cases h : name' = name <;> simp [h, section?_eq]

/-- Looking up a section makes or changes no item. -/
theorem item?_withSection (name name' key' : Bytes) (sections : Sections) :
    item? name' key' (withSection name id sections) = item? name' key' sections := by
  rw [item?_eq, withSection, row?_alter (section_keeps id fun _ => rfl)]
  by_cases h : name' = name
  · subst h
    rw [if_pos rfl, item?_eq]
    cases row? Section.name name' sections <;> rfl
  · rw [if_neg h, item?_eq]

/-- The item that is found or made, changed; the others as they were. -/
theorem item?_withItem (name key name' key' : Bytes) (f : Item → Item) (sections : Sections)
    (hf : ∀ i, (f i).key = i.key) :
    item? name' key' (withSection name (withItem key f) sections) =
      if name' = name ∧ key' = key then some (f ((item? name key sections).getD ⟨key, none⟩))
      else item? name' key' sections := by
  rw [item?_eq, withSection, row?_alter (section_keeps _ (withItem_name key f))]
  by_cases hn : name' = name
  · subst hn
    rw [if_pos rfl, Option.bind_some, withItem, row?_alter (item_keeps f hf), item?_eq, item?_eq]
    by_cases hk : key' = key
    · subst hk
      rw [if_pos rfl, if_pos ⟨rfl, rfl⟩]
      cases row? Section.name name' sections <;> rfl
    · rw [if_neg hk, if_neg (fun h => hk h.2)]
      cases row? Section.name name' sections <;> rfl
  · rw [if_neg hn, if_neg (fun h => hn h.1), item?_eq]

/-- One section for a name, one item for a key, and no empty key. -/
structure WellKeyed (sections : Sections) : Prop where
  names : (sections.map Section.name).Nodup
  keys : ∀ s ∈ sections, (s.items.map Item.key).Nodup ∧ ∀ i ∈ s.items, i.key ≠ []

theorem withSection_wellKeyed (name : Bytes) (f : Section → Section) (sections : Sections)
    (hf : ∀ s, (f s).name = s.name)
    (hk : ∀ s, ((s.items.map Item.key).Nodup ∧ ∀ i ∈ s.items, i.key ≠ []) →
      ((f s).items.map Item.key).Nodup ∧ ∀ i ∈ (f s).items, i.key ≠ [])
    (h : WellKeyed sections) : WellKeyed (withSection name f sections) :=
  ⟨alter_nodup (section_keeps f hf) name sections h.names,
    alter_forall _ name sections (by simp) hk h.keys⟩

theorem withItem_keys (key : Bytes) (f : Item → Item) (s : Section) (hkey : key ≠ [])
    (hf : ∀ i, (f i).key = i.key)
    (h : (s.items.map Item.key).Nodup ∧ ∀ i ∈ s.items, i.key ≠ []) :
    ((withItem key f s).items.map Item.key).Nodup ∧ ∀ i ∈ (withItem key f s).items, i.key ≠ [] :=
  ⟨alter_nodup (item_keeps f hf) key s.items h.1,
    alter_forall _ key s.items hkey (fun i hi => by rwa [hf]) h.2⟩

theorem atItem_wellKeyed (name key : Bytes) (f : Item → Item) (sections : Sections)
    (hf : ∀ i, (f i).key = i.key) (h : WellKeyed sections) :
    WellKeyed (atItem name key f sections).1 := by
  unfold atItem
  split
  · exact withSection_wellKeyed name id sections (fun _ => rfl) (fun _ hs => hs) h
  · next hk =>
    exact withSection_wellKeyed name _ sections (withItem_name key f)
      (fun s hs => withItem_keys key f s hk hf hs) h

theorem perform_wellKeyed (operation : Operation) (sections : Sections)
    (h : WellKeyed sections) : WellKeyed (perform operation sections).1 := by
  cases operation with
  | lookupSection name =>
    exact withSection_wellKeyed name id sections (fun _ => rfl) (fun _ hs => hs) h
  | lookupItem name key => exact atItem_wellKeyed name key id sections (fun _ => rfl) h
  | assign name key data => exact atItem_wellKeyed name key _ sections (set_key data) h
  | set name key data => exact atItem_wellKeyed name key _ sections (set_key data) h
  | remove name key => exact atItem_wellKeyed name key _ sections (fun _ => rfl) h

theorem loadLine_wellKeyed (line : Bytes) (sections sections' : Sections)
    (current current' : Option Bytes) (h : WellKeyed sections)
    (hl : loadLine line sections current = .ok (sections', current')) : WellKeyed sections' := by
  rcases loadLine_cases line sections sections' current current' hl with
    ⟨rfl, -⟩ | ⟨name, rfl, -⟩ | ⟨name, key, value, -, hk, rfl, -⟩
  · exact h
  · rw [touch_eq]
    exact withSection_wellKeyed name id sections (fun _ => rfl) (fun _ hs => hs) h
  · by_cases hn : name ∈ sections.map Section.name
    · rw [assignIn_eq name key value sections hn]
      exact withSection_wellKeyed name _ sections (withItem_name key _)
        (fun s hs => withItem_keys key _ s hk (set_key _) hs) h
    · rwa [assignIn_absent name key value sections hn]

theorem loadLines_wellKeyed (lines : List Bytes) (sections sections' : Sections)
    (current : Option Bytes) (h : WellKeyed sections)
    (hl : loadLines lines sections current = .ok sections') : WellKeyed sections' :=
  loadLines_invariant WellKeyed loadLine_wellKeyed lines sections sections' current h hl

theorem empty_wellKeyed : WellKeyed [] := ⟨List.nodup_nil, by simp⟩

theorem reached_wellKeyed (sections : Sections) (h : Reached sections) : WellKeyed sections := by
  induction h with
  | empty => exact empty_wellKeyed
  | loaded fileData sections hl =>
    unfold loadFile at hl
    split at hl
    · cases hl
    · exact loadLines_wellKeyed _ [] sections none empty_wellKeyed hl
  | step operation sections _ ih => exact perform_wellKeyed operation sections ih

theorem atItem_stored (name key name' key' : Bytes) (f : Item → Item) (sections : Sections)
    (hkey : key ≠ []) (hf : ∀ i, (f i).key = i.key) :
    stored name' key' (atItem name key f sections).1 =
      if name' = name ∧ key' = key then
        (f ((item? name key sections).getD ⟨key, none⟩)).value
      else stored name' key' sections := by
  rw [atItem, if_neg hkey, stored, item?_withItem name key name' key' f sections hf]
  split <;> rfl

/-- What is stored is read back, and nothing else is touched. -/
theorem atItem_set (name key text : Bytes) (sections : Sections) (hkey : key ≠ []) :
    (atItem name key (set (some text)) sections).2 = .ok () ∧
    get name key (atItem name key (set (some text)) sections).1 = .ok text ∧
    ∀ name' key', ¬(name' = name ∧ key' = key) →
      stored name' key' (atItem name key (set (some text)) sections).1 =
        stored name' key' sections := by
  refine ⟨by rw [atItem, if_neg hkey], ?_, ?_⟩
  · have hs := atItem_stored name key name key (set (some text)) sections hkey (set_key _)
    rw [if_pos ⟨rfl, rfl⟩, stored] at hs
    rw [Ini.get, if_neg hkey, hs]
    rfl
  · intro name' key' h
    rw [atItem_stored name key name' key' _ sections hkey (set_key _), if_neg h]

theorem atItem_remove (name key : Bytes) (sections : Sections) (hkey : key ≠ []) :
    (atItem name key remove sections).2 = .ok () ∧
    (∀ defualt, getDefault name key defualt (atItem name key remove sections).1 = .ok defualt) ∧
    ∀ name' key', ¬(name' = name ∧ key' = key) →
      stored name' key' (atItem name key remove sections).1 = stored name' key' sections := by
  refine ⟨by rw [atItem, if_neg hkey], ?_, ?_⟩
  · intro defualt
    rw [getDefault, if_neg hkey, atItem, if_neg hkey,
      item?_withItem name key name key remove sections (fun _ => rfl), if_pos ⟨rfl, rfl⟩]
    rfl
  · intro name' key' h
    rw [atItem_stored name key name' key' remove sections hkey (fun _ => rfl), if_neg h]

theorem atItem_empty (name : Bytes) (f : Item → Item) (sections : Sections) :
    (atItem name [] f sections).2 = .error (.outOfRange []) ∧
    ∀ name' key', item? name' key' (atItem name [] f sections).1 = item? name' key' sections :=
  ⟨rfl, fun name' key' => item?_withSection name name' key' sections⟩

/-- Every configuration a program holds has one place for a name and a key,
and storing, removing and failing do what they say there and nothing elsewhere. -/
theorem reached_table (sections : Sections) (h : Reached sections) :
    WellKeyed sections ∧
    (∀ name key text, key ≠ [] → ∀ operation ∈ [Operation.set name key (some text),
        Operation.assign name key (some text)],
      (perform operation sections).2 = .ok () ∧
      get name key (perform operation sections).1 = .ok text ∧
      ∀ name' key', ¬(name' = name ∧ key' = key) →
        stored name' key' (perform operation sections).1 = stored name' key' sections) ∧
    (∀ name key, key ≠ [] →
      (perform (.remove name key) sections).2 = .ok () ∧
      (∀ defualt, getDefault name key defualt (perform (.remove name key) sections).1 =
        .ok defualt) ∧
      ∀ name' key', ¬(name' = name ∧ key' = key) →
        stored name' key' (perform (.remove name key) sections).1 = stored name' key' sections) ∧
    (∀ name data, ∀ operation ∈ [Operation.lookupItem name [], Operation.assign name [] data,
        Operation.set name [] data, Operation.remove name []],
      (perform operation sections).2 = .error (.outOfRange []) ∧
      ∀ name' key', item? name' key' (perform operation sections).1 =
        item? name' key' sections) := by
  refine ⟨reached_wellKeyed sections h, ?_, ?_, ?_⟩
  · intro name key text hkey operation ho
    simp only [List.mem_cons, List.not_mem_nil, or_false] at ho
    rcases ho with rfl | rfl <;> exact atItem_set name key text sections hkey
  · exact fun name key hkey => atItem_remove name key sections hkey
  · intro name data operation ho
    simp only [List.mem_cons, List.not_mem_nil, or_false] at ho
    rcases ho with rfl | rfl | rfl | rfl <;> exact atItem_empty name _ sections

theorem reached_table_admin : ∃ sections, Reached sections ∧
    get (bytes "admin") (bytes "password") sections = .ok (bytes "d") ∧ WellKeyed sections := by
  have hr := reached_table [] .empty
  obtain ⟨-, hget, -⟩ := hr.2.1 (bytes "admin") (bytes "password") (bytes "d") (by decide) _
    List.mem_cons_self
  exact ⟨_, .step _ [] .empty, hget, (reached_table _ (.step _ [] .empty)).1⟩

end Bakaneko.IniOperations
