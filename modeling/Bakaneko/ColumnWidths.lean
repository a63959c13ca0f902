import Bakaneko.TableRows

/-!
# The widths of the service table

Each column keeps the largest width that was flagged for it, with the row it
came from. When that row narrows, the header and the other rows are compared
with the width that is to be replaced, so it is never replaced by less. A
column is as wide as its texts ask for until its widest text goes.
-/

set_option autoImplicit false

namespace Bakaneko.ColumnWidths
open Bakaneko.Native Bakaneko.Messages Bakaneko.RowModels Bakaneko.TableHandlers Bakaneko.TableRows
open KeyedRows

inductive Column where
  | state
  | enabled
  | type
  | name
  deriving DecidableEq, Repr

/-- `headerData` -/
def header : Column → Bytes
  | .state => bytes "State"
  | .enabled => bytes "Enabled"
  | .type => bytes "Type"
  | .name => bytes "Name"

def stateText : State → Bytes
  | .running => bytes "Running"
  | .starting => bytes "Starting"
  | .stopped => bytes "Stopped"
  | .stopping => bytes "Stopping"
  | .undeclared _ => bytes "Unknown"

/-- `data` for a column. -/
def text (c : Column) (s : Service) : Bytes :=
  match c with
  | .state => stateText s.state
  | .enabled => if s.enabled then bytes "Enabled" else bytes "Disabled"
  | .type => s.type
  | .name => s.displayName

/-- An index of `-1` is that of no row. -/
structure MinSize where
  index : ℕ := 18446744073709551615
  size : ℤ := 0

structure ServiceTable where
  model : ServiceModel := {}
  minWidth : Column → MinSize

def ServiceTable.rows (t : ServiceTable) : List Service := t.model.updates

section
variable (metrics : Bytes → ℤ) (largeSpacing : ℤ)

def padded (s : Bytes) : ℤ := metrics s+largeSpacing*2

/-- The constructor of `ServiceModel`. -/
def construct : ServiceTable where
  minWidth c := { size := padded metrics largeSpacing (header c) }

def columnMinWidth (c : Column) (t : ServiceTable) : ℤ := (t.minWidth c).size

def cellWidth (c : Column) (t : ServiceTable) (row : ℕ) : ℤ :=
  padded metrics largeSpacing ((t.rows[row]?.map (text c)).getD [])

/-- The loop over the other rows. -/
def widen (c : Column) (t : ServiceTable) (row : ℕ) (min : MinSize) (a : ℕ) : MinSize :=
  if a = row then min
  else if min.size < cellWidth metrics largeSpacing c t a then
    ⟨a, cellWidth metrics largeSpacing c t a⟩
  else min

def setWidth (c : Column) (min : MinSize) (t : ServiceTable) : ServiceTable :=
  { t with minWidth := Function.update t.minWidth c min }

def flagColumn (row : ℕ) (t : ServiceTable) (c : Column) : ServiceTable :=
  let width := cellWidth metrics largeSpacing c t row
  let min := t.minWidth c
  if min.size < width then setWidth c ⟨row, width⟩ t
  else if row = min.index ∧ width < min.size then
    let width := padded metrics largeSpacing (header c)
    let min := if min.size < width then { size := width } else min
    setWidth c ((List.range t.rows.length).foldl (widen metrics largeSpacing c t row) min) t
  else t

def flag (row : ℕ) (columns : List Column) (t : ServiceTable) : ServiceTable :=
  columns.foldl (flagColumn metrics largeSpacing row) t

/-- The columns `handle_services` flags in a row that is there. -/
def delta (cur din : Service) : List Column :=
  (if cur.state ≠ din.state then [.state] else [])++
    (if cur.enabled ≠ din.enabled then [.enabled] else [])++
    if cur.displayName ≠ din.displayName then [.name] else []

def updateService (a : ℕ) (din : Service) (t : ServiceTable) : ServiceTable :=
  match t.rows[a]? with
  | none => t
  | some cur => flag metrics largeSpacing a (delta cur din)
      { t with model := ⟨t.rows.modify a (copyService din)⟩ }

def appendRow (din : Service) (t : ServiceTable) : ServiceTable :=
  flag metrics largeSpacing t.rows.length [.state, .enabled, .type, .name]
    { t with model := appendService din t.model }

def serviceTable : Table ServiceTable Service where
  rowCount t := t.rows.length
  key a t := t.rows[a]?.map Service.id
  recordKey := Service.id
  removeRow a t := { t with model := t.model.removeRows a 1 }
  update := updateService metrics largeSpacing
  append := appendRow metrics largeSpacing

def handleServices (info : Services) : ServiceTable → ServiceTable :=
  handle (serviceTable metrics largeSpacing) info.services

def tableAfter (history : List Services) : ServiceTable :=
  history.foldl (fun t info => handleServices metrics largeSpacing info t)
    (construct metrics largeSpacing)

/-- The padded width of a cell of the row. -/
def cell (c : Column) (s : Service) : ℤ := padded metrics largeSpacing (text c s)

/-- The largest width among the header and the texts of the rows. -/
def widest (c : Column) (rows : List Service) : ℤ :=
  (rows.map (cell metrics largeSpacing c)).foldr max (padded metrics largeSpacing (header c))

/-- Every column has the width of its widest text. -/
def Fitting (t : ServiceTable) : Prop :=
  ∀ c, columnMinWidth c t = widest metrics largeSpacing c t.rows

/-- The rows and records whose text the column shows after a message. -/
def Stays (rows records : List Service) (c : Column) (s : Service) : Prop :=
  match c with
  | .type => s ∈ rows ∧ s.id ∈ records.map Service.id ∨
      s.id ∉ rows.map Service.id ∧ (recordsOf Service.id s.id records).head? = some s
  | _ => (recordsOf Service.id s.id records).getLast? = some s

/-- The header or a text that stays is as wide. -/
def Covered (rows records : List Service) (c : Column) (s : Service) : Prop :=
  cell metrics largeSpacing c s ≤ padded metrics largeSpacing (header c) ∨
    ∃ s', Stays rows records c s' ∧ cell metrics largeSpacing c s ≤ cell metrics largeSpacing c s'

/-- No column loses its widest text: neither one it shows nor one that the
message brings. The type of a row that is there is never taken over. -/
def NothingNarrows (rows records : List Service) : Prop := ∀ c,
  (∀ s ∈ rows, Covered metrics largeSpacing rows records c s) ∧
    (c ≠ .type → ∀ s ∈ records, Covered metrics largeSpacing rows records c s)

/-- No cell is wider than its column. -/
def Bound (t : ServiceTable) : Prop := ∀ c,
  padded metrics largeSpacing (header c) ≤ columnMinWidth c t ∧
    ∀ s ∈ t.rows, cell metrics largeSpacing c s ≤ columnMinWidth c t

/-- A column of which the header and the other rows are not wider. -/
def Others (c : Column) (t : ServiceTable) (row : ℕ) : Prop :=
  padded metrics largeSpacing (header c) ≤ columnMinWidth c t ∧
    ∀ (b : ℕ) (r : Service), b ≠ row → t.rows[b]? = some r →
      cell metrics largeSpacing c r ≤ columnMinWidth c t

variable {metrics largeSpacing}

theorem cellWidth_row (c : Column) (t : ServiceTable) (row : ℕ) (s : Service)
    (h : t.rows[row]? = some s) :
    cellWidth metrics largeSpacing c t row = cell metrics largeSpacing c s := by
  rw [cellWidth, h]
  rfl

theorem setWidth_size (c c' : Column) (min : MinSize) (t : ServiceTable) :
    columnMinWidth c' (setWidth c min t) = if c' = c then min.size else columnMinWidth c' t := by
  unfold columnMinWidth setWidth
  by_cases hc : c' = c
  · subst hc
    simp
  · simp [hc]

/-- Where no other cell is wider, the loop finds nothing. -/
theorem widen_none (c : Column) (t : ServiceTable) (row : ℕ) (min : MinSize) (as : List ℕ)
    (h : ∀ a ∈ as, a ≠ row → cellWidth metrics largeSpacing c t a ≤ min.size) :
    as.foldl (widen metrics largeSpacing c t row) min = min := by
  induction as with
  | nil => rfl
  | cons a as ih =>
    have hstep : widen metrics largeSpacing c t row min a = min := by
      unfold widen
      split
      · rfl
      · next ha => exact if_neg (not_lt.mpr (h a List.mem_cons_self ha))
    rw [List.foldl_cons, hstep]
    exact ih fun b hb => h b (List.mem_cons_of_mem a hb)

theorem flagColumn_rows (row : ℕ) (t : ServiceTable) (c : Column) :
    (flagColumn metrics largeSpacing row t c).rows = t.rows := by
  unfold flagColumn
  dsimp only
  split
  · rfl
  · split <;> rfl

/-- A column only grows: what is compared with the old width is not above it. -/
theorem flagColumn_size (row : ℕ) (t : ServiceTable) (c c' : Column) (s : Service)
    (hs : t.rows[row]? = some s) (h : Others metrics largeSpacing c t row) :
    columnMinWidth c' (flagColumn metrics largeSpacing row t c) =
      if c' = c then max (columnMinWidth c t) (cell metrics largeSpacing c s)
      else columnMinWidth c' t := by
  have hold : columnMinWidth c' t = if c' = c then columnMinWidth c t else columnMinWidth c' t := by
    split
    · next hc => rw [hc]
    · rfl
  have hcell := @cellWidth_row metrics largeSpacing c t row s hs
  unfold flagColumn
  dsimp only
  rw [hcell]
  split
  · next hgrow =>
    have hle : columnMinWidth c t ≤ cell metrics largeSpacing c s := le_of_lt hgrow
    rw [setWidth_size, max_eq_right hle]
  · next hgrow =>
    have hle : cell metrics largeSpacing c s ≤ columnMinWidth c t := not_lt.mp hgrow
    rw [max_eq_left hle]
    split
    · have hheader : ¬ (t.minWidth c).size < padded metrics largeSpacing (header c) :=
        not_lt.mpr h.1
      have hscan : ∀ a ∈ List.range t.rows.length, a ≠ row →
          cellWidth metrics largeSpacing c t a ≤ (t.minWidth c).size := by
        intro a ha hne
        have hrow := List.getElem?_eq_getElem (List.mem_range.mp ha)
        rw [cellWidth_row c t a _ hrow]
        exact h.2 a _ hne hrow
      rw [if_neg hheader, widen_none c t row _ _ hscan, setWidth_size]
      rfl
    · exact hold

theorem flag_rows (row : ℕ) (columns : List Column) (t : ServiceTable) :
    (flag metrics largeSpacing row columns t).rows = t.rows := by
  induction columns generalizing t with
  | nil => rfl
  | cons c columns ih => exact (ih _).trans (flagColumn_rows row t c)

theorem flag_size (row : ℕ) (columns : List Column) (t : ServiceTable) (s : Service)
    (hs : t.rows[row]? = some s) (h : ∀ c, Others metrics largeSpacing c t row) (c : Column) :
    columnMinWidth c (flag metrics largeSpacing row columns t) =
      if c ∈ columns then max (columnMinWidth c t) (cell metrics largeSpacing c s)
      else columnMinWidth c t := by
  induction columns generalizing t with
  | nil => rfl
  | cons d columns ih =>
    have hsize (c : Column) := flagColumn_size row t d c s hs (h d)
    have hgrown (c : Column) : columnMinWidth c t ≤
        columnMinWidth c (flagColumn metrics largeSpacing row t d) := by
      rw [hsize c]
      split
      · next hc => exact hc ▸ le_max_left _ _
      · exact le_rfl
    have hnext : ∀ c,
        Others metrics largeSpacing c (flagColumn metrics largeSpacing row t d) row := by
      intro c
      refine ⟨(h c).1.trans (hgrown c), fun b r hb hr => ((h c).2 b r hb ?_).trans (hgrown c)⟩
      rwa [flagColumn_rows] at hr
    have hs' : (flagColumn metrics largeSpacing row t d).rows[row]? = some s := by
      rw [flagColumn_rows]
      exact hs
    rw [flag, List.foldl_cons]
    refine (ih _ hs' hnext).trans ?_
    rw [hsize c]
    by_cases hd : c = d
    · subst hd
      simp
    · simp [hd]

theorem text_copyService (c : Column) (din cur : Service) :
    text c (copyService din cur) = if c = .type then text c cur else text c din := by
  rw [copyService_eq]
  cases c <;> rfl

theorem cell_copyService (c : Column) (din cur : Service) :
    cell metrics largeSpacing c (copyService din cur) =
      if c = .type then cell metrics largeSpacing c cur else cell metrics largeSpacing c din := by
  rw [cell, text_copyService]
  split <;> rfl

/-- What is not flagged has not changed. -/
theorem text_delta (c : Column) (din cur : Service) (h : c ∉ delta cur din) :
    text c (copyService din cur) = text c cur := by
  rw [text_copyService]
  cases c with
  | state =>
    have he : cur.state = din.state := by simpa [delta] using h
    rw [if_neg (by decide), text, text, he]
  | enabled =>
    have he : cur.enabled = din.enabled := by simpa [delta] using h
    rw [if_neg (by decide), text, text, he]
  | type => rfl
  | name =>
    have he : cur.displayName = din.displayName := by simpa [delta] using h
    rw [if_neg (by decide), text, text, he]

theorem updateService_rows (a : ℕ) (din : Service) (t : ServiceTable) :
    (updateService metrics largeSpacing a din t).rows = t.rows.modify a (refreshService din) := by
  have hcopy : copyService din = refreshService din := funext fun cur => copyService_eq din cur
  unfold updateService
  split
  · next hnone => rw [List.modify_eq_self (List.getElem?_eq_none_iff.mp hnone)]
  · rw [flag_rows, ← hcopy]
    rfl

theorem updateService_size (a : ℕ) (din cur : Service) (t : ServiceTable)
    (hcur : t.rows[a]? = some cur) (h : Bound metrics largeSpacing t) (c : Column) :
    columnMinWidth c (updateService metrics largeSpacing a din t) =
      max (columnMinWidth c t) (cell metrics largeSpacing c (copyService din cur)) := by
  have hmem := List.mem_of_getElem? hcur
  have hothers (c : Column) : Others metrics largeSpacing c
      { t with model := ⟨t.rows.modify a (copyService din)⟩ } a := by
    refine ⟨(h c).1, fun b r hb hr => (h c).2 r ?_⟩
    have hrow : (t.rows.modify a (copyService din))[b]? = some r := hr
    rw [List.getElem?_modify_ne _ _ (Ne.symm hb)] at hrow
    exact List.mem_of_getElem? hrow
  have hrow : (t.rows.modify a (copyService din))[a]? = some (copyService din cur) := by
    rw [List.getElem?_modify_eq, hcur]
    rfl
  have hsize := flag_size a (delta cur din)
    { t with model := ⟨t.rows.modify a (copyService din)⟩ } _ hrow hothers c
  rw [updateService, hcur]
  refine hsize.trans ?_
  split
  · rfl
  · next hc =>
    have hcell : cell metrics largeSpacing c (copyService din cur) ≤ columnMinWidth c t := by
      rw [cell, text_delta c din cur hc]
      exact (h c).2 cur hmem
    exact (max_eq_left hcell).symm

theorem appendRow_rows (din : Service) (t : ServiceTable) :
    (appendRow metrics largeSpacing din t).rows = t.rows++[din] := by
  rw [appendRow, flag_rows]
  exact services_lawful.append din t.model

theorem appendRow_size (din : Service) (t : ServiceTable) (h : Bound metrics largeSpacing t)
    (c : Column) : columnMinWidth c (appendRow metrics largeSpacing din t) =
      max (columnMinWidth c t) (cell metrics largeSpacing c din) := by
  have hrows : ServiceTable.rows { t with model := appendService din t.model } = t.rows++[din] :=
    services_lawful.append din t.model
  have hothers (c : Column) : Others metrics largeSpacing c
      { t with model := appendService din t.model } t.rows.length := by
    refine ⟨(h c).1, fun b r hb hr => (h c).2 r ?_⟩
    rw [hrows] at hr
    have hlen := (List.getElem?_eq_some_iff.mp hr).1
    rw [List.length_append, List.length_singleton] at hlen
    rw [List.getElem?_append_left (by omega)] at hr
    exact List.mem_of_getElem? hr
  have hrow : (ServiceTable.rows { t with model := appendService din t.model })[t.rows.length]? =
      some din := by
    rw [hrows, List.getElem?_concat_length]
  have hmem : c ∈ [Column.state, .enabled, .type, .name] := by cases c <;> decide
  exact (flag_size t.rows.length _ _ din hrow hothers c).trans (if_pos hmem)

theorem serviceTable_lawful : Lawful (serviceTable metrics largeSpacing) ServiceTable.rows
    Service.id refreshService id where
  keeps := services_keeps
  rowCount _ := rfl
  key _ _ := rfl
  removeRow a t := eraseAt_one a t.rows
  update := updateService_rows
  append := appendRow_rows

/-- The rows are those of the table without widths. -/
theorem handleServices_rows (info : Services) (t : ServiceTable) :
    (handleServices metrics largeSpacing info t).rows =
      reconcile Service.id Service.id refreshService id info.services t.rows :=
  handle_rows serviceTable_lawful info.services t

theorem bound_grow (t t' : ServiceTable) (s : Service)
    (hrows : ∀ r ∈ t'.rows, r ∈ t.rows ∨ r = s)
    (hsize : ∀ c, columnMinWidth c t' =
      max (columnMinWidth c t) (cell metrics largeSpacing c s))
    (h : Bound metrics largeSpacing t) : Bound metrics largeSpacing t' := by
  intro c
  rw [hsize c]
  refine ⟨le_max_of_le_left (h c).1, fun r hr => ?_⟩
  rcases hrows r hr with hold | rfl
  · exact le_max_of_le_left ((h c).2 r hold)
  · exact le_max_right _ _

variable (metrics largeSpacing)

/-- The loop over the rows for one record: a row that was found has widened
the columns it takes over. -/
structure Refreshed (din : Service) (t₀ : ServiceTable) (p : Bool × ServiceTable) : Prop where
  bound : Bound metrics largeSpacing p.2
  size : ∀ c, columnMinWidth c p.2 = if p.1 = true ∧ c ≠ .type then
    max (columnMinWidth c t₀) (cell metrics largeSpacing c din) else columnMinWidth c t₀

variable {metrics largeSpacing}

theorem refreshed_update (din : Service) (t₀ : ServiceTable) (p : Bool × ServiceTable) (a : ℕ)
    (cur : Service) (hcur : p.2.rows[a]? = some cur) (h : Refreshed metrics largeSpacing din t₀ p) :
    Refreshed metrics largeSpacing din t₀ (true, updateService metrics largeSpacing a din p.2) := by
  have hsize := updateService_size a din cur p.2 hcur h.bound
  constructor
  · refine bound_grow p.2 _ (copyService din cur) (fun r hr => ?_) hsize h.bound
    rw [updateService_rows] at hr
    obtain ⟨i, hi⟩ := List.mem_iff_getElem?.mp hr
    by_cases ha : a = i
    · subst ha
      rw [List.getElem?_modify_eq, hcur] at hi
      exact .inr ((Option.some.inj hi).symm.trans (copyService_eq din cur).symm)
    · rw [List.getElem?_modify_ne _ _ ha] at hi
      exact .inl (List.mem_of_getElem? hi)
  · intro c
    have hcell := (h.bound .type).2 cur (List.mem_of_getElem? hcur)
    rw [h.size .type] at hcell
    rw [hsize c, cell_copyService, h.size c]
    by_cases hc : c = .type
    · subst hc
      simpa using hcell
    · by_cases hp : p.1 = true <;> simp [hc, hp]

theorem updateLoop_refreshed (din : Service) (t₀ : ServiceTable) (n a : ℕ)
    (p : Bool × ServiceTable) (h : Refreshed metrics largeSpacing din t₀ p) :
    Refreshed metrics largeSpacing din t₀
      (updateLoop (serviceTable metrics largeSpacing) din n a p) := by
  induction n generalizing a p with
  | zero => exact h
  | succ n ih =>
    rw [updateLoop]
    split
    · next hkey =>
      obtain ⟨cur, hcur, -⟩ := Option.map_eq_some_iff.mp hkey
      exact ih _ _ (refreshed_update din t₀ p a cur hcur h)
    · exact ih _ _ h

/-- One record widens every column it is shown in. -/
theorem place_size (din : Service) (t : ServiceTable) (h : Bound metrics largeSpacing t) :
    Bound metrics largeSpacing (TableHandlers.place (serviceTable metrics largeSpacing) t din) ∧
      ∀ c, columnMinWidth c (TableHandlers.place (serviceTable metrics largeSpacing) t din) =
        if c = .type ∧ din.id ∈ t.rows.map Service.id then columnMinWidth c t
        else max (columnMinWidth c t) (cell metrics largeSpacing c din) := by
  have hplace : TableHandlers.place (serviceTable metrics largeSpacing) t din =
      let p := updateLoop (serviceTable metrics largeSpacing) din t.rows.length 0 (false, t)
      if p.1 then p.2 else appendRow metrics largeSpacing din p.2 := rfl
  have hloop := updateLoop_refreshed din t t.rows.length 0 (false, t) ⟨h, fun c => by simp⟩
  have hdone : (updateLoop (serviceTable metrics largeSpacing) din t.rows.length 0 (false, t)).1 =
      true ↔ din.id ∈ t.rows.map Service.id := by
    have hany := (updateLoop_rows (@serviceTable_lawful metrics largeSpacing) din [] t.rows false t
      rfl).1
    rw [List.length_nil, Bool.false_or] at hany
    rw [hany, List.any_eq_true, List.mem_map]
    exact exists_congr fun r => and_congr_right fun _ => decide_eq_true_iff
  rw [hplace]
  generalize updateLoop (serviceTable metrics largeSpacing) din t.rows.length 0 (false, t) = p
    at hloop hdone
  dsimp only
  split
  · next hp =>
    refine ⟨hloop.bound, fun c => ?_⟩
    rw [hloop.size c]
    by_cases hc : c = .type <;> simp [hp, hc, hdone.mp hp]
  · next hp =>
    have hsize := appendRow_size din p.2 hloop.bound
    refine ⟨bound_grow p.2 _ din (fun r hr => ?_) hsize hloop.bound, fun c => ?_⟩
    · rw [appendRow_rows, List.mem_append, List.mem_singleton] at hr
      exact hr
    · rw [hsize c, hloop.size c, if_neg fun hc => hp hc.1, if_neg fun hc => hp (hdone.mpr hc.2)]

/-- A row keeps its type. -/
theorem place_types (din r : Service) (t : ServiceTable) (hr : r ∈ t.rows) :
    ∃ r' ∈ (TableHandlers.place (serviceTable metrics largeSpacing) t din).rows,
      r'.type = r.type := by
  rw [place_rows serviceTable_lawful, KeyedRows.place]
  split
  · refine ⟨_, List.mem_map_of_mem hr, ?_⟩
    split <;> rfl
  · exact ⟨r, List.mem_append_left _ hr, rfl⟩

theorem foldl_types (records : List Service) (r : Service) (t : ServiceTable) (hr : r ∈ t.rows) :
    ∃ r' ∈ (records.foldl (TableHandlers.place (serviceTable metrics largeSpacing)) t).rows,
      r'.type = r.type := by
  induction records generalizing t r with
  | nil => exact ⟨r, hr, rfl⟩
  | cons m records ih =>
    obtain ⟨r', hr', htype⟩ := place_types m r t hr
    obtain ⟨r'', hr'', htype'⟩ := ih r' _ hr'
    exact ⟨r'', hr'', htype'.trans htype⟩

theorem place_new (din : Service) (t : ServiceTable) (h : din.id ∉ t.rows.map Service.id) :
    din ∈ (TableHandlers.place (serviceTable metrics largeSpacing) t din).rows := by
  have hany : ¬ (t.rows.any fun r => r.id = din.id) = true := by simpa using h
  rw [place_rows serviceTable_lawful, KeyedRows.place]
  exact (if_neg hany).symm ▸ List.mem_append_right _ List.mem_cons_self

/-- After the records a column is as wide as before or as they ask for. -/
theorem foldl_size (records : List Service) (t : ServiceTable) (h : Bound metrics largeSpacing t)
    (c : Column) (hc : c ≠ .type) (width : ℤ) :
    columnMinWidth c (records.foldl (TableHandlers.place (serviceTable metrics largeSpacing)) t) ≤
        width ↔
      columnMinWidth c t ≤ width ∧ ∀ m ∈ records, cell metrics largeSpacing c m ≤ width := by
  induction records generalizing t with
  | nil => simp
  | cons m records ih =>
    obtain ⟨hbound, hsize⟩ := place_size m t h
    rw [List.foldl_cons, ih _ hbound, hsize c, if_neg fun he => hc he.1, max_le_iff,
      List.forall_mem_cons, and_assoc]

theorem foldl_bound (records : List Service) (t : ServiceTable) (h : Bound metrics largeSpacing t) :
    Bound metrics largeSpacing
      (records.foldl (TableHandlers.place (serviceTable metrics largeSpacing)) t) := by
  induction records generalizing t with
  | nil => exact h
  | cons m records ih => exact ih _ (place_size m t h).1

/-- Of the types only those that are shown matter. -/
theorem foldl_type_size (records : List Service) (t u : ServiceTable)
    (h : Bound metrics largeSpacing t) (width : ℤ)
    (hu : records.foldl (TableHandlers.place (serviceTable metrics largeSpacing)) t = u)
    (hrows : ∀ r ∈ u.rows, cell metrics largeSpacing .type r ≤ width) :
    columnMinWidth .type u ≤ width ↔ columnMinWidth .type t ≤ width := by
  induction records generalizing t with
  | nil => rw [← hu]; rfl
  | cons m records ih =>
    obtain ⟨hbound, hsize⟩ := place_size m t h
    rw [List.foldl_cons] at hu
    rw [ih _ hbound hu, hsize .type]
    split
    · rfl
    · next hnew =>
      have hm := @place_new metrics largeSpacing m t fun hid => hnew ⟨rfl, hid⟩
      obtain ⟨r, hr, htype⟩ := foldl_types records m _ hm
      have hcell : cell metrics largeSpacing .type m ≤ width := by
        have := hrows r (hu ▸ hr)
        rwa [cell, text, htype] at this
      rw [max_le_iff]
      exact and_iff_left hcell

theorem removeLoop_size (info : List Service) (n a : ℕ) (t : ServiceTable) (c : Column) :
    columnMinWidth c (removeLoop (serviceTable metrics largeSpacing) info n a t) =
      columnMinWidth c t := by
  induction n generalizing a t with
  | zero => rfl
  | succ n ih =>
    rw [removeLoop]
    split
    · exact ih _ _
    · exact ih _ _

theorem removeLoop_bound (info : List Service) (t : ServiceTable)
    (h : Bound metrics largeSpacing t) : Bound metrics largeSpacing
      (removeLoop (serviceTable metrics largeSpacing) info t.rows.length 0 t) := by
  intro c
  have hrows := removeLoop_rows (@serviceTable_lawful metrics largeSpacing) info [] t.rows t rfl
  rw [List.length_nil, List.nil_append] at hrows
  rw [removeLoop_size, hrows]
  exact ⟨(h c).1, fun s hs => (h c).2 s (List.mem_filter.mp hs).1⟩

theorem widest_le (c : Column) (rows : List Service) (width : ℤ) :
    widest metrics largeSpacing c rows ≤ width ↔ padded metrics largeSpacing (header c) ≤ width ∧
      ∀ s ∈ rows, cell metrics largeSpacing c s ≤ width := by
  unfold widest
  induction rows with
  | nil => simp
  | cons s rows ih =>
    rw [List.map_cons, List.foldr_cons, max_le_iff, ih, List.forall_mem_cons]
    exact and_left_comm

theorem le_widest (c : Column) (rows : List Service) (width : ℤ) :
    width ≤ widest metrics largeSpacing c rows ↔ width ≤ padded metrics largeSpacing (header c) ∨
      ∃ s ∈ rows, width ≤ cell metrics largeSpacing c s := by
  unfold widest
  induction rows with
  | nil => simp
  | cons s rows ih =>
    rw [List.map_cons, List.foldr_cons, le_max_iff, ih, List.exists_mem_cons_iff]
    exact or_left_comm

theorem handleServices_bound (info : Services) (t : ServiceTable)
    (h : Bound metrics largeSpacing t) :
    Bound metrics largeSpacing (handleServices metrics largeSpacing info t) :=
  foldl_bound info.services _ (removeLoop_bound info.services t h)

/-- A table that fits before a message fits after it exactly when nothing that
was shown or is brought is wider than what is shown then. -/
theorem handleServices_fitting (info : Services) (t : ServiceTable)
    (hbound : Bound metrics largeSpacing t) (hfit : Fitting metrics largeSpacing t) :
    Fitting metrics largeSpacing (handleServices metrics largeSpacing info t) ↔
      ∀ c, (∀ s ∈ t.rows, cell metrics largeSpacing c s ≤ widest metrics largeSpacing c
          (handleServices metrics largeSpacing info t).rows) ∧
        (c ≠ .type → ∀ s ∈ info.services, cell metrics largeSpacing c s ≤
          widest metrics largeSpacing c (handleServices metrics largeSpacing info t).rows) := by
  have hfold : info.services.foldl (TableHandlers.place (serviceTable metrics largeSpacing))
      (removeLoop (serviceTable metrics largeSpacing) info.services t.rows.length 0 t) =
        handleServices metrics largeSpacing info t := rfl
  have hpruned := removeLoop_bound info.services t hbound
  have hafter := handleServices_bound info t hbound
  refine forall_congr' fun c => ?_
  have hrows := (widest_le c (handleServices metrics largeSpacing info t).rows _).mp
    (le_refl (widest metrics largeSpacing c _))
  have hbefore : columnMinWidth c t ≤
      widest metrics largeSpacing c (handleServices metrics largeSpacing info t).rows ↔
        ∀ s ∈ t.rows, cell metrics largeSpacing c s ≤
          widest metrics largeSpacing c (handleServices metrics largeSpacing info t).rows := by
    rw [hfit c, widest_le]
    exact and_iff_right hrows.1
  have hle : columnMinWidth c (handleServices metrics largeSpacing info t) =
      widest metrics largeSpacing c (handleServices metrics largeSpacing info t).rows ↔
        columnMinWidth c (handleServices metrics largeSpacing info t) ≤
          widest metrics largeSpacing c (handleServices metrics largeSpacing info t).rows :=
    ⟨le_of_eq, fun h => le_antisymm h ((widest_le c _ _).mpr (hafter c))⟩
  rw [hle, ← hbefore]
  by_cases hc : c = .type
  · subst hc
    rw [foldl_type_size info.services _ _ hpruned _ hfold hrows.2, removeLoop_size]
    simp
  · have hsize := foldl_size info.services _ hpruned c hc
      (widest metrics largeSpacing c (handleServices metrics largeSpacing info t).rows)
    rw [hfold, removeLoop_size] at hsize
    rw [hsize]
    exact and_congr_right fun _ => ⟨fun h _ => h, fun h => h hc⟩

end

/-- The fields a row takes over. -/
def taken (s : Service) : State × Bool × Bytes := (s.state, s.enabled, s.displayName)

theorem text_taken (c : Column) (hc : c ≠ .type) (s s' : Service) (h : taken s = taken s') :
    text c s = text c s' := by
  simp only [taken, Prod.mk.injEq] at h
  cases c with
  | state => rw [text, text, h.1]
  | enabled => rw [text, text, h.2.1]
  | type => exact absurd rfl hc
  | name => exact h.2.2

theorem refreshed_type (records : List Service) (s : Service) :
    (refreshed refreshService records s).type = s.type := by
  induction records generalizing s with
  | nil => rfl
  | cons m records ih => exact ih (refreshService m s)

section
variable (rows records : List Service) (r : Service)
  (hr : r ∈ reconcile Service.id Service.id refreshService id records rows)
include hr

/-- A row has what it takes over from the last record of its id. -/
theorem row_last : ∃ m, (recordsOf Service.id r.id records).getLast? = some m ∧
    taken r = taken m := by
  obtain ⟨hne, ⟨old, -, -, hold⟩ | ⟨-, hnew⟩⟩ := mem_reconcile services_keeps records rows r hr
  · obtain ⟨past, m, hpast⟩ := (List.eq_nil_or_concat _).resolve_left hne
    rw [List.concat_eq_append] at hpast
    rw [hpast, refreshed, List.foldl_append] at hold
    rw [hpast, List.getLast?_concat]
    refine ⟨m, rfl, ?_⟩
    rw [hold]
    rfl
  · have hrefresh : ∀ m r, taken (refreshService m r) = taken m := fun _ _ => rfl
    obtain ⟨past, m, hpast, htaken⟩ := content_last taken taken (fun _ => rfl) hrefresh _ r hnew
    rw [hpast, List.getLast?_concat]
    exact ⟨m, rfl, htaken⟩

/-- A row has the type it had, or that of the first record of its id. -/
theorem row_type : (∃ s ∈ rows, s.id = r.id ∧ s.type = r.type) ∨
    r.id ∉ rows.map Service.id ∧ ∃ m, (recordsOf Service.id r.id records).head? = some m ∧
      m.type = r.type := by
  obtain ⟨-, ⟨old, ho, hid, hold⟩ | ⟨habsent, hnew⟩⟩ := mem_reconcile services_keeps records rows r hr
  · refine .inl ⟨old, ho, hid, ?_⟩
    rw [hold, refreshed_type]
  · refine .inr ⟨habsent, ?_⟩
    cases hof : recordsOf Service.id r.id records with
    | nil =>
      rw [hof] at hnew
      cases hnew
    | cons m rest =>
      rw [hof] at hnew
      refine ⟨m, rfl, ?_⟩
      rw [← Option.some.inj hnew, refreshed_type]
      rfl

end

theorem recordsOf_id (id : Bytes) (records : List Service) (m : Service)
    (h : m ∈ recordsOf Service.id id records) : m.id = id ∧ m ∈ records :=
  ((mem_recordsOf id records m).mp h).symm

theorem row_named (rows records : List Service) (s : Service) (hs : s ∈ records) :
    ∃ r ∈ reconcile Service.id Service.id refreshService id records rows, r.id = s.id :=
  List.mem_map.mp ((mem_reconcile_keys services_keeps records rows s.id).mpr
    (List.mem_map_of_mem hs))

theorem exists_type (rows records : List Service) (P : Bytes → Prop) :
    (∃ r ∈ reconcile Service.id Service.id refreshService id records rows, P (text .type r)) ↔
      ∃ s, Stays rows records .type s ∧ P (text .type s) := by
  constructor
  · rintro ⟨r, hr, hP⟩
    have hnamed := (mem_reconcile_keys services_keeps records rows r.id).mp
      (List.mem_map_of_mem hr)
    obtain ⟨s, hs, hid, htype⟩ | ⟨habsent, m, hm, htype⟩ := row_type rows records r hr
    · exact ⟨s, .inl ⟨hs, hid ▸ hnamed⟩, by rwa [text, htype]⟩
    · have hid := (recordsOf_id _ _ _ (List.mem_of_mem_head? hm)).1
      exact ⟨m, .inr ⟨hid ▸ habsent, hid ▸ hm⟩, by rwa [text, htype]⟩
  · rintro ⟨s, ⟨hs, hnamed⟩ | ⟨habsent, hfirst⟩, hP⟩
    · refine ⟨refreshed refreshService (recordsOf Service.id s.id records) s, ?_, ?_⟩
      · rw [reconcile_eq services_keeps, List.mem_append]
        refine .inl (List.mem_map.mpr ⟨s, List.mem_filter.mpr ⟨hs, ?_⟩, rfl⟩)
        obtain ⟨m, hm, hid⟩ := List.mem_map.mp hnamed
        exact List.any_eq_true.mpr ⟨m, hm, decide_eq_true hid⟩
      · rwa [text, refreshed_type]
    · obtain ⟨r, hr, hid⟩ :=
        row_named rows records s (recordsOf_id _ _ _ (List.mem_of_mem_head? hfirst)).2
      refine ⟨r, hr, ?_⟩
      obtain ⟨old, ho, hold, -⟩ | ⟨-, m, hm, htype⟩ := row_type rows records r hr
      · exact absurd (hid ▸ hold ▸ List.mem_map_of_mem ho) habsent
      · rw [hid, hfirst] at hm
        cases hm
        rwa [text, ← htype]

theorem exists_taken (rows records : List Service) (c : Column) (hc : c ≠ .type)
    (P : Bytes → Prop) :
    (∃ r ∈ reconcile Service.id Service.id refreshService id records rows, P (text c r)) ↔
      ∃ s, Stays rows records c s ∧ P (text c s) := by
  have hstays (s : Service) : Stays rows records c s ↔
      (recordsOf Service.id s.id records).getLast? = some s := by
    cases c <;> first | exact absurd rfl hc | rfl
  constructor
  · rintro ⟨r, hr, hP⟩
    obtain ⟨m, hm, htaken⟩ := row_last rows records r hr
    have hid := (recordsOf_id _ _ _ (List.mem_of_mem_getLast? hm)).1
    exact ⟨m, (hstays m).mpr (hid ▸ hm), text_taken c hc r m htaken ▸ hP⟩
  · rintro ⟨s, hs, hP⟩
    have hlast := (hstays s).mp hs
    obtain ⟨r, hr, hid⟩ :=
      row_named rows records s (recordsOf_id _ _ _ (List.mem_of_mem_getLast? hlast)).2
    obtain ⟨m, hm, htaken⟩ := row_last rows records r hr
    rw [hid, hlast] at hm
    cases hm
    exact ⟨r, hr, (text_taken c hc r s htaken).symm ▸ hP⟩

/-- The texts of a column after a message. -/
theorem exists_text (rows records : List Service) (c : Column) (P : Bytes → Prop) :
    (∃ r ∈ reconcile Service.id Service.id refreshService id records rows, P (text c r)) ↔
      ∃ s, Stays rows records c s ∧ P (text c s) := by
  by_cases hc : c = .type
  · rw [hc]
    exact exists_type rows records P
  · exact exists_taken rows records c hc P

section
variable (metrics : Bytes → ℤ) (largeSpacing : ℤ)

theorem covered_iff (c : Column) (info : Services) (t : ServiceTable) (s : Service) :
    cell metrics largeSpacing c s ≤
        widest metrics largeSpacing c (handleServices metrics largeSpacing info t).rows ↔
      Covered metrics largeSpacing t.rows info.services c s := by
  rw [le_widest, handleServices_rows, Covered]
  exact or_congr_right (exists_text t.rows info.services c fun text =>
    cell metrics largeSpacing c s ≤ padded metrics largeSpacing text)

theorem construct_fitting : Bound metrics largeSpacing (construct metrics largeSpacing) ∧
    Fitting metrics largeSpacing (construct metrics largeSpacing) :=
  ⟨fun _ => ⟨le_rfl, fun s hs => by cases hs⟩, fun _ => rfl⟩

theorem tableAfter_append (past : List Services) (info : Services) :
    tableAfter metrics largeSpacing (past++[info]) =
      handleServices metrics largeSpacing info (tableAfter metrics largeSpacing past) := by
  rw [tableAfter, List.foldl_append]
  rfl

theorem tableAfter_bound (history : List Services) :
    Bound metrics largeSpacing (tableAfter metrics largeSpacing history) := by
  induction history using List.reverseRecOn with
  | nil => exact (construct_fitting metrics largeSpacing).1
  | append_singleton past info ih =>
    rw [tableAfter_append]
    exact handleServices_bound info _ ih

/-- The columns fit after each message exactly when no message takes the
widest text of one away. -/
theorem fitting_iff (history : List Services) :
    (∀ past, past <+: history → Fitting metrics largeSpacing (tableAfter metrics largeSpacing past)) ↔
      ∀ past info, past++[info] <+: history →
        NothingNarrows metrics largeSpacing (tableAfter metrics largeSpacing past).rows
          info.services := by
  have hstep (past : List Services) (info : Services)
      (hfit : Fitting metrics largeSpacing (tableAfter metrics largeSpacing past)) :
      Fitting metrics largeSpacing (tableAfter metrics largeSpacing (past++[info])) ↔
        NothingNarrows metrics largeSpacing (tableAfter metrics largeSpacing past).rows
          info.services := by
    rw [tableAfter_append,
      handleServices_fitting info _ (tableAfter_bound metrics largeSpacing past) hfit]
    simp only [covered_iff, NothingNarrows]
  constructor
  · intro h past info hpast
    exact (hstep past info (h past ((List.prefix_append past [info]).trans hpast))).mp
      (h _ hpast)
  · intro h past hpast
    induction past using List.reverseRecOn with
    | nil => exact (construct_fitting metrics largeSpacing).2
    | append_singleton past info ih =>
      exact (hstep past info (ih ((List.prefix_append past [info]).trans hpast))).mpr
        (h past info hpast)

end

def named (displayName : Bytes) : Service := ⟨[97], .running, true, [], displayName, []⟩

/-- A service that gets a shorter name: the column keeps the old width. -/
theorem not_fitting :
    columnMinWidth .name (tableAfter (fun s => s.length) 1
      [⟨[named [97, 98, 99, 100, 101]]⟩, ⟨[named [97]]⟩]) = 7 ∧
    ¬ Fitting (fun s => s.length) 1 (tableAfter (fun s => s.length) 1
      [⟨[named [97, 98, 99, 100, 101]]⟩, ⟨[named [97]]⟩]) := by
  have hwidth : columnMinWidth .name (tableAfter (fun s => s.length) 1
      [⟨[named [97, 98, 99, 100, 101]]⟩, ⟨[named [97]]⟩]) = 7 := by decide
  refine ⟨hwidth, fun h => ?_⟩
  have hfit := h .name
  rw [hwidth] at hfit
  exact absurd hfit (by decide)

end Bakaneko.ColumnWidths
