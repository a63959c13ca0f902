import Bakaneko.TerminalFrame

/-!
# The row of the Linux terminal

`\n`, `H`, `A` and `B` move the row, `J` removes rows, and no other byte does
either. The row stays inside the text along a run exactly when each of these
five finds the state it needs.
-/

set_option autoImplicit false

namespace Bakaneko.TerminalRows
open Bakaneko.Native Bakaneko.Terminal Bakaneko.TerminalFrame PartialRun Fallible

def RowSafe (t : Linux) : Prop :=
  0 ≤ t.currentLine.val ∧ t.currentLine.val < t.data.length

/-- Every state has its row, and no byte looks up a row that is missing. -/
def RowInvariant (calls : List Call) : Prop :=
  Always step RowSafe (addTexts calls) init ∧ Never step (· = .row) (addTexts calls) init

def rowSequence (env : Env) (b : Bytes) : Final → Linux → Prop
  | .H, t => rowAsked b = -1 ∨ (0 ≤ rowAsked b ∧ rowAsked b < t.data.length)
  | .J, t => t.currentLine.val = 0
  | .A, t => ∀ value, countArgument b = .ok value →
      int32 (t.currentLine.val-value) < t.data.length ∧
      (0 ≤ int32 (t.currentLine.val-value) ∨ 0 ≤ upCap env t)
  | .B, t => ∀ value, countArgument b = .ok value →
      0 ≤ int32 (t.currentLine.val+value) ∧ 0 ≤ downCap env t ∧
      (int32 (t.currentLine.val+value) < t.data.length ∨ downCap env t < t.data.length)
  | _, _ => True

/-- What a byte needs of the state in front of it. -/
def RowStep : Event → Linux → Prop
  | .letter env c, t => match action c t with
    | .newline => t.currentLine.val+1 < 2147483648
    | .sequence final b => rowSequence env b final t
    | _ => True
  | .finish _, _ => True

theorem SameRows.rowSafe {t u : Linux} (h : SameRows t u) (ht : RowSafe t) : RowSafe u := by
  unfold RowSafe
  rw [h.line, h.rows]
  exact ht

theorem rowSafe_lookup (t : Linux) (ht : RowSafe t) :
    ∃ line, t.data[sizeT t.currentLine.val]? = some line := by
  have hn : sizeT t.currentLine.val = t.currentLine.val.toNat :=
    sizeT_of_int32 ht.1 t.currentLine.property
  have hl : t.currentLine.val.toNat < t.data.length := by have := ht.1; have := ht.2; omega
  rw [hn]
  exact ⟨_, List.getElem?_eq_getElem hl⟩

theorem newline_rowSafe (t : Linux) (ht : RowSafe t) :
    RowSafe (newline t) ↔ t.currentLine.val+1 < 2147483648 := by
  obtain ⟨h0, hl⟩ := ht
  have hr := t.currentLine.property
  constructor
  · intro h
    by_contra hc
    have hmax : t.currentLine.val+1 = 2147483648 := by unfold IsInt32 at hr; omega
    have hneg : (newline t).currentLine.val = -2147483648 := by
      unfold newline
      dsimp only
      split <;> rw [wrap_of_range (int32_range _), hmax] <;> rfl
    have := h.1
    omega
  · intro h
    have hin : IsInt32 (t.currentLine.val+1) := by unfold IsInt32 at *; omega
    have hi : int32 (t.currentLine.val+1) = t.currentLine.val+1 := int32_of_range hin
    have hs : sizeT (t.currentLine.val+1) = (t.currentLine.val+1).toNat :=
      sizeT_of_int32 (by omega) hin
    simp only [newline, RowSafe, hi, hs]
    split
    case isTrue he =>
      simp only [wrap_val, hi, List.length_append, List.length_singleton]
      omega
    case isFalse hne =>
      simp only [wrap_val, hi]
      omega

theorem parseH_rowSafe (env : Env) (b : Bytes) (t : Linux) (ht : RowSafe t) :
    RowSafe (parseH env b t) ↔ rowSequence env b .H t := by
  have hrow : int32 (rowAsked b) = rowAsked b := int32_of_range (int32_range _)
  have hl := ht.2
  have h0 := ht.1
  unfold RowSafe parseH rowSequence
  by_cases hm : rowAsked b = -1
  · have hz : int32 0 = 0 := rfl
    simp only [hm, if_true, wrap_val, hz, true_or, iff_true]
    omega
  · simp only [hm, if_false, wrap_val, hrow, false_or]

theorem parseJ_rowSafe (env : Env) (t : Linux) (ht : RowSafe t) :
    RowSafe (parseJ env t) ↔ t.currentLine.val = 0 := by
  have h0 := ht.1
  have hj : RowSafe (parseJ env t) ↔ 0 ≤ t.currentLine.val ∧ t.currentLine.val < ((1:ℕ):ℤ) :=
    Iff.rfl
  rw [hj]
  omega

theorem upCap_lt (env : Env) (t : Linux) (ht : RowSafe t) : upCap env t < t.data.length := by
  have hrows := env.rows_pos
  have h0 := ht.1
  have hl := ht.2
  unfold upCap int32
  split <;> omega

theorem parseA_rowSafe (env : Env) (b : Bytes) (t : Linux) (ht : RowSafe t) :
    (∀ u, parseA env b t = .ok u → RowSafe u) ↔ rowSequence env b .A t := by
  have hcap := upCap_lt env t ht
  have hset : ∀ value, RowSafe { t with currentLine := .wrap (
        if int32 (t.currentLine.val-value) < upCap env t then upCap env t
        else int32 (t.currentLine.val-value)) } ↔
      int32 (t.currentLine.val-value) < t.data.length ∧
      (0 ≤ int32 (t.currentLine.val-value) ∨ 0 ≤ upCap env t) := by
    intro value
    have hx : int32 (int32 (t.currentLine.val-value)) = int32 (t.currentLine.val-value) :=
      int32_of_range (int32_range _)
    have hc : int32 (upCap env t) = upCap env t := int32_of_range (int32_range _)
    unfold RowSafe
    split <;> simp only [wrap_val, hx, hc] <;> omega
  exact map_forall _ _ RowSafe _ hset

theorem parseB_rowSafe (env : Env) (b : Bytes) (t : Linux) :
    (∀ u, parseB env b t = .ok u → RowSafe u) ↔ rowSequence env b .B t := by
  have hset : ∀ value, RowSafe { t with currentLine := .wrap (
        if downCap env t < int32 (t.currentLine.val+value) then downCap env t
        else int32 (t.currentLine.val+value)) } ↔
      0 ≤ int32 (t.currentLine.val+value) ∧ 0 ≤ downCap env t ∧
      (int32 (t.currentLine.val+value) < t.data.length ∨ downCap env t < t.data.length) := by
    intro value
    have hx : int32 (int32 (t.currentLine.val+value)) = int32 (t.currentLine.val+value) :=
      int32_of_range (int32_range _)
    have hc : int32 (downCap env t) = downCap env t := int32_of_range (int32_range _)
    unfold RowSafe
    split <;> simp only [wrap_val, hx, hc] <;> omega
  exact map_forall _ _ RowSafe _ hset

/-- One completed sequence keeps the row in the text exactly when its
condition holds. -/
theorem escape_rowSafe (env : Env) (b : Bytes) (final : Final) (t : Linux) (ht : RowSafe t) :
    rowSequence env b final t ↔ ∀ u, escape env b final t = .ok u → RowSafe u := by
  have keep : ∀ u, SameRows t u → RowSafe u := fun u hu => SameRows.rowSafe hu ht
  cases final with
  | H => simpa [escape] using (parseH_rowSafe env b t ht).symm
  | J => simpa [escape, rowSequence] using (parseJ_rowSafe env t ht).symm
  | m => exact iff_of_true trivial fun u hu => keep u (parseM_sameText b t u hu).sameRows
  | K => exact iff_of_true trivial fun u hu => keep u (parseK_stored env b t u hu).toSameRows
  | D =>
    refine iff_of_true trivial fun u hu => keep u ?_
    obtain ⟨value, -, rfl⟩ := (map_ok _ _ _).mp hu
    exact ⟨rfl, rfl⟩
  | C =>
    refine iff_of_true trivial fun u hu => keep u ?_
    obtain ⟨value, -, rfl⟩ := (map_ok _ _ _).mp hu
    exact ⟨rfl, rfl⟩
  | A => exact (parseA_rowSafe env b t ht).symm
  | B => exact (parseB_rowSafe env b t).symm
  | other => exact iff_of_true trivial fun u hu => by cases hu; exact ht

theorem step_rowSafe (i : Event) (t : Linux) (ht : RowSafe t) :
    RowStep i t ↔ ∀ u, step i t = .ok u → RowSafe u := by
  cases i with
  | finish env =>
    refine iff_of_true trivial fun u hu => ?_
    cases hu
    refine SameRows.rowSafe (t := t) ?_ ht
    split <;> exact ⟨rfl, rfl⟩
  | letter env c =>
    simp only [RowStep, step, feed_action]
    cases action c t with
    | collect => exact iff_of_true trivial fun u hu => by cases hu; exact ht
    | newline => simpa [perform] using (newline_rowSafe t ht).symm
    | carriageReturn => exact iff_of_true trivial fun u hu => by cases hu; exact ht
    | backspace =>
      exact iff_of_true trivial fun u hu =>
        SameRows.rowSafe (backspace_stored env t u hu).toSameRows ht
    | beep => exact iff_of_true trivial fun u hu => by cases hu; exact ht
    | flush =>
      exact iff_of_true trivial fun u hu =>
        SameRows.rowSafe (t := append c t) (flush_stored _ u hu).toSameRows ht
    | sequence final b =>
      simp only [escape_rowSafe env b final t ht, perform, map_ok]
      constructor
      · rintro h u ⟨v, hv, rfl⟩
        exact h v hv
      · exact fun h v hv => h (clear v) ⟨v, hv, rfl⟩

theorem addLetter_row (letter : ℕ) (t : Linux) (ht : RowSafe t) :
    addLetter letter t ≠ .error .row := by
  obtain ⟨line, hline⟩ := rowSafe_lookup t ht
  have hin : sizeT t.currentLine.val < t.data.length := (List.getElem?_eq_some_iff.mp hline).1
  intro h
  obtain ⟨-, hk⟩ | ⟨he, -⟩ | ⟨l, -, ⟨-, hk⟩ | ⟨l', -, hk⟩⟩ := addLetter_cases letter t
  · rw [hk] at h
    cases h
  · omega
  · rw [hk] at h
    cases h
  · rw [hk] at h
    cases h

theorem addLetters_row (letters : List ℕ) (t : Linux) (ht : RowSafe t) :
    addLetters letters t ≠ .error .row := fun h =>
  addLetters_failed RowSafe (· ≠ .row)
    (fun letter u v hu hv => SameRows.rowSafe (addLetter_stored letter u v hv).toSameRows hu)
    (fun letter u _ hu he hrow => addLetter_row letter u hu (hrow ▸ he)) letters t .row ht h rfl

theorem eraseLoop_row (n : ℕ) (a : ℤ) (t : Linux) (ht : RowSafe t) :
    eraseLoop n a t ≠ .error .row := fun h =>
  eraseLoop_failed RowSafe (· ≠ .row) (fun _ _ hu => hu)
    (fun letter u v hu hv => SameRows.rowSafe (addLetter_stored letter u v hv).toSameRows hu)
    (fun letter u _ hu he hrow => addLetter_row letter u hu (hrow ▸ he)) n a t .row ht h rfl

theorem flush_row (t : Linux) (ht : RowSafe t) : flush t ≠ .error .row := by
  unfold flush
  split
  · simp
  · rw [Ne, map_error]
    exact addLetters_row _ t ht

theorem backspace_row (env : Env) (t : Linux) (ht : RowSafe t) :
    backspace env t ≠ .error .row := by
  obtain ⟨line, hline⟩ := rowSafe_lookup t ht
  unfold backspace
  simp only [hline]
  split <;> simp

theorem escape_row (env : Env) (b : Bytes) (final : Final) (t : Linux) (ht : RowSafe t) :
    escape env b final t ≠ .error .row := by
  refine escape_ne env b final t .row (by simp [Parsing]) fun _ => ?_
  rw [parseK, Ne, map_error]
  exact eraseLoop_row _ _ t ht

theorem step_row (i : Event) (t : Linux) (ht : RowSafe t) : step i t ≠ .error .row := by
  cases i with
  | finish env => simp [step]
  | letter env c =>
    simp only [step, feed_action]
    cases action c t with
    | backspace => exact backspace_row env t ht
    | flush => exact flush_row (append c t) ht
    | sequence final b =>
      rw [perform, Ne, map_error]
      exact escape_row env b final t ht
    | _ => simp [perform]

theorem step_keeps_row (i : Event) (t : Linux) (ht : RowSafe t) :
    RowStep i t ↔ Keeps step RowSafe (· = .row) i t := by
  rw [step_rowSafe i t ht]
  refine ⟨fun h => ⟨h, ?_⟩, fun h => h.1⟩
  rintro e he rfl
  exact step_row i t ht he

theorem init_rowSafe : RowSafe init := ⟨by decide, by decide⟩

/-- The row invariant holds along a run exactly when every byte of the run
finds what its own movement of the row needs. -/
theorem row_invariant_iff (calls : List Call) :
    RowInvariant calls ↔ Meets step RowStep (addTexts calls) init :=
  always_never_iff_meets step RowSafe (fun _ => True) (· = .row) RowStep
    (fun _ _ _ _ _ => trivial) (fun i t _ ht => step_keeps_row i t ht) (addTexts calls) init
    trivial init_rowSafe

def eraseBelow : Call := ⟨['\n', '\x1b', '[', 'J', 'x'], fun _ => plainEnv⟩

/-- A line feed followed by `ESC[J` leaves row 1 of a text of one row. -/
theorem row_lost_after_erase : ¬ RowInvariant [eraseBelow] := by
  intro h
  refine not_never_of_run step (· = .row) (addTexts [eraseBelow]) init .row ?_ rfl h.2
  decide

end Bakaneko.TerminalRows
