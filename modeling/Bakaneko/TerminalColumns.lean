import Bakaneko.TerminalFrame

/-!
# The column of the Linux terminal

`add_letter` pads a row up to the column, so a negative column, which the
comparison with `size()` turns into a huge one, fills memory instead of
ending. Rows never outgrow the columns an `int` can hold, hence every byte
that makes the column negative, or pads towards a negative one, is told by
its parameter alone.
-/

set_option autoImplicit false

namespace Bakaneko.TerminalColumns
open Bakaneko.Native Bakaneko.Terminal Bakaneko.TerminalFrame PartialRun Fallible

def ColumnSafe (t : Linux) : Prop := 0 ≤ t.currentChar.val

instance (t : Linux) : Decidable (ColumnSafe t) := inferInstanceAs (Decidable (_ ≤ _))

/-- No state has a negative column, and every padding loop reaches it. -/
def ColumnInvariant (calls : List Call) : Prop :=
  Always step ColumnSafe (addTexts calls) init ∧ Never step (· = .length) (addTexts calls) init

def RowPresent (t : Linux) : Prop := sizeT t.currentLine.val < t.data.length

def columnSequence (env : Env) (b : Bytes) : Final → Linux → Prop
  | .H, _ => -1 ≤ columnAsked env b ∨ b.idxOf? 59 = some 0
  | .K, t => RowPresent t →
      (eraseBounds env b t).1.val < (eraseBounds env b t).2.val →
      0 ≤ (eraseBounds env b t).1.val
  | .C, t => ∀ value, countArgument b = .ok value → 0 ≤ int32 (t.currentChar.val+value)
  | _, _ => True

/-- What a byte needs of the state in front of it. -/
def ColumnStep : Event → Linux → Prop
  | .letter env c, t => match action c t with
    | .flush => RowPresent t → ∀ letters, toUtf32 (append c t).commandBuffer = some letters →
        t.currentChar.val+letters.length < 2147483648
    | .sequence final b => columnSequence env b final t
    | _ => True
  | .finish _, _ => True

/-- Every row holds at most as many letters as an `int` has columns. -/
def ShortLines (t : Linux) : Prop := ∀ line ∈ t.data, line.length ≤ 2147483648

theorem maxSize_ge : 2147483648 ≤ maxSize := by decide

theorem maxSize_lt : maxSize < 18446744071562067968 := by decide

theorem padTo_length (blank : Symbol) (target room : ℕ) (line l : List Symbol)
    (h : padTo blank target room line = some l) : l.length = target := by
  induction room generalizing line with
  | zero =>
    rw [padTo] at h
    split at h
    · cases h
      assumption
    · cases h
  | succ room ih =>
    rw [padTo] at h
    split at h
    · cases h
      assumption
    · exact ih _ h

theorem padTo_reaches (blank : Symbol) (target room : ℕ) (line : List Symbol)
    (hle : line.length ≤ target) (hroom : target ≤ line.length+room) :
    ∃ l, padTo blank target room line = some l := by
  induction room generalizing line with
  | zero => exact ⟨line, if_pos (by omega)⟩
  | succ room ih =>
    rw [padTo]
    split
    · exact ⟨line, rfl⟩
    · exact ih _ (by simp; omega) (by simp; omega)

theorem padTo_fails (blank : Symbol) (target room : ℕ) (line : List Symbol)
    (hroom : line.length+room < target) : padTo blank target room line = none := by
  induction room generalizing line with
  | zero => exact if_neg (by omega)
  | succ room ih =>
    rw [padTo, if_neg (by omega)]
    exact ih _ (by simp; omega)

theorem column_nonneg (t : Linux) (h : ColumnSafe t) :
    sizeT t.currentChar.val = t.currentChar.val.toNat ∧ sizeT t.currentChar.val < 2147483648 := by
  have hr := t.currentChar.property
  have hs := sizeT_of_int32 h hr
  unfold IsInt32 at hr
  exact ⟨hs, by omega⟩

theorem storeLetter_some (letter : ℕ) (t : Linux) (line : List Symbol) (h : ColumnSafe t) :
    ∃ line', storeLetter letter t line = some line' := by
  have hc := (column_nonneg t h).2
  have hm := maxSize_ge
  unfold storeLetter
  dsimp only
  split
  · exact ⟨_, rfl⟩
  split
  · exact ⟨_, rfl⟩
  obtain ⟨l, hl⟩ := padTo_reaches (symbol 32 t) (sizeT t.currentChar.val)
    (maxSize-line.length) line (by omega) (by omega)
  exact ⟨l++[symbol letter t], by rw [hl]; rfl⟩

theorem storeLetter_none (letter : ℕ) (t : Linux) (line : List Symbol)
    (hn : ¬ ColumnSafe t) (hl : line.length ≤ 2147483648) : storeLetter letter t line = none := by
  have hneg : t.currentChar.val < 0 := Int.not_le.mp hn
  have hc := sizeT_of_neg hneg t.currentChar.property
  have hm := maxSize_lt
  unfold storeLetter
  dsimp only
  rw [if_neg (by omega), if_neg (by omega), padTo_fails _ _ _ _ (by omega)]
  rfl

theorem storeLetter_length (letter : ℕ) (t : Linux) (line line' : List Symbol)
    (hl : line.length ≤ 2147483648) (h : storeLetter letter t line = some line') :
    line'.length ≤ 2147483648 := by
  by_cases hs : ColumnSafe t
  case neg =>
    rw [storeLetter_none letter t line hs hl] at h
    cases h
  have hc := (column_nonneg t hs).2
  unfold storeLetter at h
  dsimp only at h
  split at h
  · cases h
    simp only [List.length_append, List.length_singleton]
    omega
  split at h
  · cases h
    rwa [List.length_set]
  obtain ⟨l, hp, rfl⟩ := Option.map_eq_some_iff.mp h
  have := padTo_length _ _ _ _ l hp
  simp only [List.length_append, List.length_singleton]
  omega

theorem addLetter_short (letter : ℕ) (t u : Linux) (ht : ShortLines t)
    (h : addLetter letter t = .ok u) : ShortLines u := by
  obtain ⟨-, hk⟩ | ⟨-, hk⟩ | ⟨line, hr, ⟨-, hk⟩ | ⟨line', hs, hk⟩⟩ := addLetter_cases letter t <;>
    rw [hk] at h <;> cases h
  · exact ht
  · intro l hl
    obtain hold | rfl := List.mem_or_eq_of_mem_set hl
    · exact ht l hold
    · exact storeLetter_length letter t line l (ht line (List.mem_of_getElem? hr)) hs

theorem addLetters_short (letters : List ℕ) (t u : Linux) (ht : ShortLines t)
    (h : addLetters letters t = .ok u) : ShortLines u :=
  addLetters_invariant ShortLines addLetter_short letters t u ht h

theorem eraseLoop_short (n : ℕ) (a : ℤ) (t u : Linux) (ht : ShortLines t)
    (h : eraseLoop n a t = .ok u) : ShortLines u :=
  eraseLoop_invariant ShortLines (fun _ _ ht => ht) addLetter_short n a t u ht h

theorem backspaceLine_length (t : Linux) (line : List Symbol) :
    (backspaceLine t line).length ≤ line.length := by
  unfold backspaceLine
  dsimp only
  split
  · simp
  · rw [List.length_modify]

theorem backspace_short (env : Env) (t u : Linux) (ht : ShortLines t)
    (h : backspace env t = .ok u) : ShortLines u := by
  unfold backspace at h
  split at h
  · cases h
  case _ line hr =>
    split at h <;> cases h
    · intro l hl
      obtain hold | rfl := List.mem_or_eq_of_mem_set hl
      · exact ht l hold
      · exact (backspaceLine_length t line).trans (ht line (List.mem_of_getElem? hr))
    · exact ht

theorem newline_short (t : Linux) (ht : ShortLines t) : ShortLines (newline t) := by
  unfold newline
  dsimp only
  split
  · intro l hl
    obtain hold | hnew := List.mem_append.mp hl
    · exact ht l hold
    · simp [List.mem_singleton.mp hnew]
  · exact ht

theorem escape_short (env : Env) (b : Bytes) (final : Final) (t u : Linux) (ht : ShortLines t)
    (h : escape env b final t = .ok u) : ShortLines u := by
  cases final with
  | H => cases h; exact ht
  | J =>
    cases h
    intro l hl
    simp [List.mem_singleton.mp hl]
  | m =>
    intro l hl
    exact ht l ((parseM_sameText b t u h).data ▸ hl)
  | K =>
    obtain ⟨v, hv, rfl⟩ := (map_ok _ _ _).mp h
    exact eraseLoop_short _ _ t v ht hv
  | D => obtain ⟨value, -, rfl⟩ := (map_ok _ _ _).mp h; exact ht
  | C => obtain ⟨value, -, rfl⟩ := (map_ok _ _ _).mp h; exact ht
  | A => obtain ⟨value, -, rfl⟩ := (map_ok _ _ _).mp h; exact ht
  | B => obtain ⟨value, -, rfl⟩ := (map_ok _ _ _).mp h; exact ht
  | other => cases h; exact ht

theorem step_short (i : Event) (t u : Linux) (ht : ShortLines t) (h : step i t = .ok u) :
    ShortLines u := by
  cases i with
  | finish env =>
    cases h
    by_cases hl : t.linesAdded <;> simpa [hl, lineRecount, ShortLines] using ht
  | letter env c =>
    rw [step, feed_action] at h
    cases ha : action c t with
    | collect => rw [ha] at h; cases h; exact ht
    | newline => rw [ha] at h; cases h; exact newline_short t ht
    | carriageReturn => rw [ha] at h; cases h; exact ht
    | backspace => rw [ha] at h; exact backspace_short env t u ht h
    | beep => rw [ha] at h; cases h; exact ht
    | flush =>
      rw [ha, perform, flush] at h
      split at h
      · cases h
      · obtain ⟨v, hv, rfl⟩ := (map_ok _ _ _).mp h
        exact addLetters_short _ (append c t) v ht hv
    | sequence final b =>
      rw [ha] at h
      obtain ⟨v, hv, rfl⟩ := (map_ok _ _ _).mp h
      exact escape_short env b final t v ht hv

theorem addLetter_length (letter : ℕ) (t : Linux) (hs : ColumnSafe t) :
    addLetter letter t ≠ .error .length := by
  intro h
  obtain ⟨-, hk⟩ | ⟨-, hk⟩ | ⟨line, -, ⟨hn, -⟩ | ⟨line', -, hk⟩⟩ := addLetter_cases letter t
  · rw [hk] at h
    cases h
  · rw [hk] at h
    cases h
  · obtain ⟨line', hl⟩ := storeLetter_some letter t line hs
    rw [hn] at hl
    cases hl
  · rw [hk] at h
    cases h

theorem addLetter_negative (letter : ℕ) (t : Linux) (ht : ShortLines t) (hp : RowPresent t)
    (hn : ¬ ColumnSafe t) : addLetter letter t = .error .length := by
  unfold RowPresent at hp
  obtain ⟨hl, -⟩ | ⟨he, -⟩ | ⟨line, hr, ⟨-, hk⟩ | ⟨line', hs, -⟩⟩ := addLetter_cases letter t
  · omega
  · omega
  · exact hk
  · rw [storeLetter_none letter t line hn (ht line (List.mem_of_getElem? hr))] at hs
    cases hs

theorem addLetter_moves (letter : ℕ) (t : Linux) (hp : RowPresent t) (hs : ColumnSafe t) :
    ∃ u, addLetter letter t = .ok u ∧ RowPresent u ∧
      u.currentChar = .wrap (t.currentChar.val+1) := by
  unfold RowPresent at hp
  obtain ⟨hl, -⟩ | ⟨he, -⟩ | ⟨line, hr, ⟨hn, -⟩ | ⟨line', -, hk⟩⟩ := addLetter_cases letter t
  · omega
  · omega
  · obtain ⟨line', hl⟩ := storeLetter_some letter t line hs
    rw [hn] at hl
    cases hl
  · exact ⟨_, hk, by simpa [RowPresent] using hp, rfl⟩

theorem addLetter_absent (letter : ℕ) (t : Linux) (hp : ¬ RowPresent t) :
    addLetter letter t = .ok t ∨ addLetter letter t = .error .row := by
  unfold RowPresent at hp
  obtain ⟨-, hk⟩ | ⟨-, hk⟩ | ⟨line, hr, -⟩ := addLetter_cases letter t
  · exact .inl hk
  · exact .inr hk
  · exact absurd (List.getElem?_eq_some_iff.mp hr).1 hp

theorem addLetters_absent (letters : List ℕ) (t : Linux) (hp : ¬ RowPresent t) :
    addLetters letters t = .ok t ∨ addLetters letters t = .error .row := by
  induction letters with
  | nil => exact .inl rfl
  | cons letter letters ih =>
    rw [addLetters]
    obtain hk | hk := addLetter_absent letter t hp
    · rw [hk]
      exact ih
    · rw [hk]
      exact .inr rfl

/-- The letters of one flush keep the column exactly when an `int` can count
past them. -/
theorem addLetters_keeps (letters : List ℕ) (t : Linux) (ht : ShortLines t)
    (hp : RowPresent t) (hs : ColumnSafe t) :
    t.currentChar.val+letters.length < 2147483648 ↔
      ∃ u, addLetters letters t = .ok u ∧ ColumnSafe u := by
  have hr := t.currentChar.property
  induction letters generalizing t with
  | nil =>
    unfold IsInt32 at hr
    exact iff_of_true (by simpa using hr.2) ⟨t, rfl, hs⟩
  | cons letter letters ih =>
    obtain ⟨u, hu, hpu, hc⟩ := addLetter_moves letter t hp hs
    have hru := u.currentChar.property
    simp only [addLetters, hu, List.length_cons, Nat.cast_add, Nat.cast_one]
    by_cases hlast : t.currentChar.val+1 < 2147483648
    · have hv : u.currentChar.val = t.currentChar.val+1 := by
        rw [hc]
        refine wrap_of_range ?_
        unfold IsInt32 ColumnSafe at *
        omega
      have hsu : ColumnSafe u := by unfold ColumnSafe at *; omega
      have hrest := ih u (addLetter_short letter t u ht hu) hpu hsu hru
      rw [hv] at hrest
      refine Iff.trans ?_ hrest
      omega
    · refine iff_of_false (by omega) ?_
      have hnu : ¬ ColumnSafe u := by
        have hmax : t.currentChar.val+1 = 2147483648 := by unfold IsInt32 at hr; omega
        rw [ColumnSafe, hc, hmax]
        decide
      rintro ⟨v, hv, hsv⟩
      cases letters with
      | nil =>
        cases hv
        exact hnu hsv
      | cons next letters =>
        rw [addLetters, addLetter_negative next u (addLetter_short letter t u ht hu) hpu hnu] at hv
        cases hv

theorem addLetter_error (letter : ℕ) (t : Linux) (hp : RowPresent t) (e : Fault)
    (h : addLetter letter t = .error e) : e = .length := by
  unfold RowPresent at hp
  obtain ⟨hl, -⟩ | ⟨he, -⟩ | ⟨line, -, ⟨-, hk⟩ | ⟨line', -, hk⟩⟩ := addLetter_cases letter t
  · omega
  · omega
  · rw [hk] at h
    cases h
    rfl
  · rw [hk] at h
    cases h

theorem addLetters_error (letters : List ℕ) (t : Linux) (hp : RowPresent t) (e : Fault)
    (h : addLetters letters t = .error e) : e = .length := by
  refine addLetters_failed RowPresent (· = .length) (fun letter u v hu hv => ?_)
    (fun letter u f hu hf => addLetter_error letter u hu f hf) letters t e hp h
  have hsame := (addLetter_stored letter u v hv).toSameRows
  rwa [RowPresent, hsame.line, hsame.rows]

theorem flush_keeps (t : Linux) (ht : ShortLines t) (hs : ColumnSafe t) :
    (RowPresent t → ∀ letters, toUtf32 t.commandBuffer = some letters →
        t.currentChar.val+letters.length < 2147483648) ↔
      (∀ u, flush t = .ok u → ColumnSafe u) ∧ ∀ e, flush t = .error e → ¬ e = .length := by
  unfold flush
  cases hu : toUtf32 t.commandBuffer with
  | none => simp
  | some letters =>
    by_cases hp : RowPresent t
    case neg =>
      refine iff_of_true (fun h => absurd h hp) ?_
      obtain hk | hk := addLetters_absent letters t hp <;> simp only [hk, Except.map]
      · refine ⟨fun u hu => ?_, fun e he => by cases he⟩
        cases hu
        exact hs
      · exact ⟨fun u hu => (by cases hu), fun e he => by cases he; simp⟩
    have hiff := addLetters_keeps letters t ht hp hs
    constructor
    · intro h
      obtain ⟨v, hv, hsv⟩ := hiff.mp (h hp letters rfl)
      simp only [hv, Except.map]
      refine ⟨fun u hu => ?_, fun e he => by cases he⟩
      cases hu
      exact hsv
    · rintro ⟨hok, herr⟩ - letters' hl
      cases hl
      refine hiff.mpr ?_
      cases hk : addLetters letters t with
      | ok v => exact ⟨v, rfl, hok (clear v) (by simp only [hk, Except.map, clear])⟩
      | error e =>
        exact absurd (addLetters_error letters t hp e hk) (herr e (by simp only [hk, Except.map]))

theorem eraseLoop_length (n : ℕ) (a : ℤ) (t : Linux) (h0 : 0 ≤ a) (hn : a+n < 2147483648) :
    eraseLoop n a t ≠ .error .length := by
  induction n generalizing a t with
  | zero => simp [eraseLoop]
  | succ n ih =>
    have hw : (CInt.wrap a).val = a := wrap_of_range (by unfold IsInt32; omega)
    rw [eraseLoop]
    split
    case _ e he =>
      intro h
      cases h
      refine addLetter_length 32 { t with currentChar := .wrap a } ?_ he
      unfold ColumnSafe
      rwa [hw]
    case _ v hv => exact ih (a+1) v (by omega) (by push_cast at hn; omega)

theorem eraseLoop_absent (n : ℕ) (a : ℤ) (t : Linux) (hp : ¬ RowPresent t) :
    eraseLoop n a t ≠ .error .length := by
  induction n generalizing a t with
  | zero => simp [eraseLoop]
  | succ n ih =>
    have hp' : ¬ RowPresent { t with currentChar := .wrap a } := hp
    rw [eraseLoop]
    obtain hk | hk := addLetter_absent 32 _ hp'
    · rw [hk]
      exact ih _ _ hp'
    · simp [hk]

theorem parseK_length (env : Env) (b : Bytes) (t : Linux) (ht : ShortLines t) :
    columnSequence env b .K t ↔ parseK env b t ≠ .error .length := by
  rw [parseK, Ne, map_error, columnSequence]
  have hstart := (eraseBounds env b t).1.property
  have hstop := (eraseBounds env b t).2.property
  unfold IsInt32 at hstart hstop
  by_cases hlt : (eraseBounds env b t).1.val < (eraseBounds env b t).2.val
  case neg =>
    refine iff_of_true (fun _ h => absurd h hlt) ?_
    rw [Int.toNat_of_nonpos (by omega)]
    simp [eraseLoop]
  by_cases hp : RowPresent t
  case neg => exact iff_of_true (fun h => absurd h hp) (eraseLoop_absent _ _ t hp)
  by_cases h0 : 0 ≤ (eraseBounds env b t).1.val
  · exact iff_of_true (fun _ _ => h0) (eraseLoop_length _ _ t h0 (by omega))
  · refine iff_of_false (fun h => h0 (h hp hlt)) (not_not.mpr ?_)
    obtain ⟨n, hn⟩ : ∃ n, ((eraseBounds env b t).2.val-(eraseBounds env b t).1.val).toNat = n+1 :=
      ⟨_, (Nat.succ_pred (by omega)).symm⟩
    have hw : (CInt.wrap (eraseBounds env b t).1.val).val = (eraseBounds env b t).1.val :=
      wrap_of_range (eraseBounds env b t).1.property
    rw [hn, eraseLoop, addLetter_negative 32 { t with currentChar := .wrap _ } ht hp
      (by rwa [ColumnSafe, hw])]

theorem parseH_columnSafe (env : Env) (b : Bytes) (t : Linux) :
    columnSequence env b .H t ↔ ColumnSafe (parseH env b t) := by
  have hc : int32 (columnAsked env b) = columnAsked env b := int32_of_range (int32_range _)
  have hz : int32 0 = 0 := rfl
  unfold columnSequence ColumnSafe parseH
  dsimp only
  by_cases hi : b.idxOf? 59 = some 0
  · simp [hi, hz]
  · simp only [hi, or_false, wrap_val]
    split
    · rw [hz]
      omega
    · rw [hc]
      omega

theorem parseD_columnSafe (b : Bytes) (t u : Linux) (h : parseD b t = .ok u) : ColumnSafe u := by
  obtain ⟨value, -, rfl⟩ := (map_ok _ _ _).mp h
  have hx : int32 (int32 (t.currentChar.val-value)) = int32 (t.currentChar.val-value) :=
    int32_of_range (int32_range _)
  have hz : int32 0 = 0 := rfl
  unfold ColumnSafe
  dsimp only
  split
  · rw [wrap_val, hz]
  · rw [wrap_val, hx]
    omega

theorem parseC_columnSafe (env : Env) (b : Bytes) (t : Linux) :
    columnSequence env b .C t ↔ ∀ u, parseC env b t = .ok u → ColumnSafe u := by
  have hcols := env.columns_pos
  have hc : int32 env.columns.val = env.columns.val := int32_of_range env.columns.property
  have hset : ∀ value, ColumnSafe { t with currentChar := .wrap (
        if env.columns.val < int32 (t.currentChar.val+value) then env.columns.val
        else int32 (t.currentChar.val+value)) } ↔ 0 ≤ int32 (t.currentChar.val+value) := by
    intro value
    have hx : int32 (int32 (t.currentChar.val+value)) = int32 (t.currentChar.val+value) :=
      int32_of_range (int32_range _)
    unfold ColumnSafe
    dsimp only
    split
    · rw [wrap_val, hc]
      omega
    · rw [wrap_val, hx]
  exact (map_forall _ _ ColumnSafe _ hset).symm

theorem escape_length (env : Env) (b : Bytes) (final : Final) (t : Linux) (hf : final ≠ .K) :
    escape env b final t ≠ .error .length :=
  escape_ne env b final t .length (by simp [Parsing]) fun hk => absurd hk hf

/-- One completed sequence keeps the column and ends exactly when its
condition holds. -/
theorem escape_keeps (env : Env) (b : Bytes) (final : Final) (t : Linux) (ht : ShortLines t)
    (hs : ColumnSafe t) :
    columnSequence env b final t ↔
      (∀ u, escape env b final t = .ok u → ColumnSafe u) ∧
      escape env b final t ≠ .error .length := by
  have same : ∀ u : Linux, u.currentChar = t.currentChar → ColumnSafe u := by
    intro u hu
    rwa [ColumnSafe, hu]
  cases final with
  | H =>
    rw [parseH_columnSafe]
    exact ⟨fun h => ⟨fun u hu => by cases hu; exact h, escape_length env b _ t (by decide)⟩,
      fun h => h.1 _ rfl⟩
  | C =>
    rw [parseC_columnSafe]
    exact ⟨fun h => ⟨h, escape_length env b _ t (by decide)⟩, fun h => h.1⟩
  | K =>
    rw [parseK_length env b t ht]
    refine ⟨fun h => ⟨fun u hu => ?_, h⟩, fun h => h.2⟩
    obtain ⟨v, -, rfl⟩ := (map_ok _ _ _).mp hu
    exact hs
  | J =>
    exact iff_of_true trivial ⟨fun u hu => by cases hu; exact hs,
      escape_length env b _ t (by decide)⟩
  | m =>
    exact iff_of_true trivial ⟨fun u hu => same u (parseM_sameText b t u hu).char,
      escape_length env b _ t (by decide)⟩
  | D =>
    exact iff_of_true trivial ⟨fun u hu => parseD_columnSafe b t u hu,
      escape_length env b _ t (by decide)⟩
  | A =>
    refine iff_of_true trivial ⟨fun u hu => ?_, escape_length env b _ t (by decide)⟩
    obtain ⟨value, -, rfl⟩ := (map_ok _ _ _).mp hu
    exact hs
  | B =>
    refine iff_of_true trivial ⟨fun u hu => ?_, escape_length env b _ t (by decide)⟩
    obtain ⟨value, -, rfl⟩ := (map_ok _ _ _).mp hu
    exact hs
  | other =>
    exact iff_of_true trivial ⟨fun u hu => by cases hu; exact hs,
      escape_length env b _ t (by decide)⟩

theorem backspace_keeps (env : Env) (t : Linux) (hs : ColumnSafe t) :
    (∀ u, backspace env t = .ok u → ColumnSafe u) ∧
      ∀ e, backspace env t = .error e → ¬ e = .length := by
  have hr := t.currentChar.property
  unfold backspace
  split
  · exact ⟨fun u hu => (by cases hu), fun e he => by cases he; simp⟩
  split
  case isTrue hpos =>
    refine ⟨fun u hu => ?_, fun e he => by cases he⟩
    cases hu
    have hin : IsInt32 (t.currentChar.val-1) := by unfold IsInt32 at *; omega
    have hi : int32 (t.currentChar.val-1) = t.currentChar.val-1 := int32_of_range hin
    simp only [ColumnSafe, wrap_val, hi]
    omega
  case isFalse =>
    refine ⟨fun u hu => ?_, fun e he => by cases he⟩
    cases hu
    exact hs

theorem step_keeps_column (i : Event) (t : Linux) (ht : ShortLines t) (hs : ColumnSafe t) :
    ColumnStep i t ↔ Keeps step ColumnSafe (· = .length) i t := by
  have moved : ∀ u, u.currentChar = t.currentChar →
      (∀ v, (Except.ok u : Except Fault Linux) = .ok v → ColumnSafe v) ∧
      ∀ e, (Except.ok u : Except Fault Linux) = .error e → ¬ e = .length := by
    intro u hu
    refine ⟨fun v hv => ?_, fun e he => by cases he⟩
    cases hv
    rwa [ColumnSafe, hu]
  unfold Keeps
  cases i with
  | finish env =>
    refine iff_of_true trivial (moved _ ?_)
    by_cases hl : t.linesAdded <;> simp [hl, lineRecount]
  | letter env c =>
    simp only [ColumnStep, step, feed_action]
    cases action c t with
    | collect => exact iff_of_true trivial (moved _ rfl)
    | newline =>
      refine iff_of_true trivial (moved _ ?_)
      unfold newline
      dsimp only
      split <;> rfl
    | carriageReturn =>
      refine iff_of_true trivial ⟨fun u hu => ?_, fun e he => by cases he⟩
      cases hu
      exact Int.le_refl 0
    | backspace => exact iff_of_true trivial (backspace_keeps env t hs)
    | beep => exact iff_of_true trivial (moved _ rfl)
    | flush => exact flush_keeps (append c t) ht hs
    | sequence final b =>
      simp only [escape_keeps env b final t ht hs, perform, map_ok, map_error]
      refine ⟨fun h => ⟨?_, ?_⟩, fun h => ⟨fun u hu => ?_, fun he => ?_⟩⟩
      · rintro u ⟨v, hv, rfl⟩
        exact h.1 v hv
      · rintro e he rfl
        exact h.2 he
      · exact h.1 (clear u) ⟨u, hu, rfl⟩
      · exact h.2 _ he rfl

theorem init_columnSafe : ColumnSafe init := by decide

theorem init_short : ShortLines init := by
  intro line hl
  rw [List.mem_singleton.mp hl]
  decide

/-- The column stays non-negative along a run and all padding ends exactly
when every byte of the run finds what its own movement of the column needs. -/
theorem column_invariant_iff (calls : List Call) :
    ColumnInvariant calls ↔ Meets step ColumnStep (addTexts calls) init :=
  always_never_iff_meets step ColumnSafe ShortLines (· = .length) ColumnStep step_short
    step_keeps_column (addTexts calls) init init_short init_columnSafe

def forwardByMinusFive : Call := ⟨['\x1b', '[', '-', '5', 'C'], fun _ => plainEnv⟩

/-- `ESC[-5C` on a fresh terminal moves the column to -5. -/
theorem column_negative_after_forward : ¬ ColumnInvariant [forwardByMinusFive] := by
  intro h
  have hr : run (addTexts [forwardByMinusFive]) init = .ok { init with currentChar := .wrap (-5) } := by
    decide
  exact absurd (always_last step ColumnSafe _ init _ h.1 hr) (by decide)

end Bakaneko.TerminalColumns
