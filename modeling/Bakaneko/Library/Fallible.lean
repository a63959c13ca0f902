import Mathlib.Data.List.Forall2
import Mathlib.Tactic.Common

/-!
# Computations that may fail

When a sequence of steps ends with a value, every step of it has ended with
one. The lemmas take such a sequence apart. A sort whose comparison fails
ends with that failure.
-/

set_option autoImplicit false

namespace Fallible

universe u v
variable {α β : Type u} {ε : Type v}

theorem bind_ok (x : Except ε α) (f : α → Except ε β) (b : β) :
    x >>= f = .ok b ↔ ∃ a, x = .ok a ∧ f a = .ok b := by
  cases x with
  | error e => simp [bind, Except.bind]
  | ok a => simp [bind, Except.bind]

theorem return_ok (a b : α) : (pure a : Except ε α) = .ok b ↔ b = a := by
  rw [eq_comm]
  exact Except.ok.injEq b a ▸ Iff.rfl

theorem map_ok (f : α → β) (x : Except ε α) (b : β) :
    x.map f = .ok b ↔ ∃ a, x = .ok a ∧ f a = b := by
  cases x <;> simp [Except.map]

theorem map_error (f : α → β) (x : Except ε α) (e : ε) :
    x.map f = .error e ↔ x = .error e := by
  cases x <;> simp [Except.map]

theorem map_returns (f : α → β) (x : Except ε α) :
    (∃ b, x.map f = .ok b) ↔ ∃ a, x = .ok a := by
  cases x <;> simp [Except.map]

/-- What holds of every result of a map, in terms of the value mapped. -/
theorem map_forall (f : α → β) (x : Except ε α) (P : β → Prop) (Q : α → Prop)
    (h : ∀ a, P (f a) ↔ Q a) : (∀ b, x.map f = .ok b → P b) ↔ ∀ a, x = .ok a → Q a := by
  cases x with
  | error e => simp [Except.map]
  | ok a => simpa [Except.map] using h a

theorem mapError_ok {δ : Type v} (x : Except ε α) (f : ε → δ) (a : α) :
    x.mapError f = .ok a ↔ x = .ok a := by
  cases x <;> simp [Except.mapError]

theorem mapM_ok (f : α → Except ε β) (as : List α) (bs : List β) (h : as.mapM f = .ok bs) :
    List.Forall₂ (fun a b => f a = .ok b) as bs := by
  induction as generalizing bs with
  | nil =>
    rw [List.mapM_nil, return_ok] at h
    rw [h]
    exact .nil
  | cons a as ih =>
    rw [List.mapM_cons] at h
    obtain ⟨b, hb, h⟩ := (bind_ok _ _ _).mp h
    obtain ⟨rest, hr, h⟩ := (bind_ok _ _ _).mp h
    rw [(return_ok _ _).mp h]
    exact .cons hb (ih rest hr)

/-- A map of a function that yields one value under a condition, or none. -/
theorem mapM_ok_iff (f : α → Except ε β) (Good : α → Prop) (g : α → β)
    (hf : ∀ a b, f a = .ok b ↔ Good a ∧ b = g a) (as : List α) (bs : List β) :
    as.mapM f = .ok bs ↔ (∀ a ∈ as, Good a) ∧ bs = as.map g := by
  induction as generalizing bs with
  | nil => simp [return_ok]
  | cons a as ih =>
    rw [List.mapM_cons, bind_ok, List.forall_mem_cons, List.map_cons]
    constructor
    · rintro ⟨b, hb, h⟩
      obtain ⟨rest, hrest, h⟩ := (bind_ok _ _ _).mp h
      obtain ⟨hgood, rfl⟩ := (hf a b).mp hb
      obtain ⟨hall, rfl⟩ := (ih rest).mp hrest
      exact ⟨⟨hgood, hall⟩, (return_ok _ _).mp h⟩
    · rintro ⟨⟨hgood, hall⟩, rfl⟩
      exact ⟨_, (hf a _).mpr ⟨hgood, rfl⟩, (bind_ok _ _ _).mpr ⟨_, (ih _).mpr ⟨hall, rfl⟩, rfl⟩⟩

theorem mapM_map_ok {γ : Type u} (f : β → Except ε γ) (g : α → β) (as : List α) (h : α → γ)
    (hf : ∀ a ∈ as, f (g a) = .ok (h a)) : (as.map g).mapM f = .ok (as.map h) := by
  induction as with
  | nil => rfl
  | cons a as ih =>
    rw [List.map_cons, List.mapM_cons, hf a List.mem_cons_self,
      ih fun b hb => hf b (List.mem_cons_of_mem a hb)]
    rfl

theorem mapM_congr (f g : α → Except ε β) (as : List α) (h : ∀ a ∈ as, f a = g a) :
    as.mapM f = as.mapM g := by
  induction as with
  | nil => rfl
  | cons a as ih =>
    rw [List.mapM_cons, List.mapM_cons, h a List.mem_cons_self,
      ih fun b hb => h b (List.mem_cons_of_mem a hb)]

/-- Insertion into a sorted list by a comparison that may fail. -/
def insertWith (less : α → α → Except ε Bool) (a : α) : List α → Except ε (List α)
  | [] => .ok [a]
  | b::bs => match less b a with
    | .error e => .error e
    | .ok true => (insertWith less a bs).map (b::·)
    | .ok false => .ok (a::b::bs)

def sortWith (less : α → α → Except ε Bool) : List α → Except ε (List α)
  | [] => .ok []
  | a::as => match sortWith less as with
    | .error e => .error e
    | .ok bs => insertWith less a bs

theorem insertWith_perm (less : α → α → Except ε Bool) (a : α) (as bs : List α)
    (h : insertWith less a as = .ok bs) : bs.Perm (a::as) := by
  induction as generalizing bs with
  | nil =>
    cases h
    exact .refl _
  | cons b as ih =>
    rw [insertWith] at h
    split at h
    · cases h
    · obtain ⟨rest, hr, rfl⟩ := (map_ok _ _ _).mp h
      exact ((ih rest hr).cons b).trans (.swap a b as)
    · cases h
      exact .refl _

theorem sortWith_perm (less : α → α → Except ε Bool) (as bs : List α) (h : sortWith less as = .ok bs) :
    bs.Perm as := by
  induction as generalizing bs with
  | nil =>
    cases h
    exact .refl _
  | cons a as ih =>
    rw [sortWith] at h
    split at h
    · cases h
    · next cs hc => exact (insertWith_perm less a cs bs h).trans ((ih cs hc).cons a)

theorem insertWith_returns (less : α → α → Except ε Bool) (a : α) (as : List α)
    (h : ∀ b ∈ as, ∃ r, less b a = .ok r) : ∃ bs, insertWith less a as = .ok bs := by
  induction as with
  | nil => exact ⟨[a], rfl⟩
  | cons b as ih =>
    obtain ⟨r, hr⟩ := h b List.mem_cons_self
    obtain ⟨bs, hbs⟩ := ih fun c hc => h c (List.mem_cons_of_mem b hc)
    rw [insertWith, hr]
    cases r with
    | true => exact ⟨b::bs, by rw [hbs]; rfl⟩
    | false => exact ⟨a::b::as, rfl⟩

/-- A comparison that does not fail on the elements sorts them. -/
theorem sortWith_returns (less : α → α → Except ε Bool) (as : List α)
    (h : ∀ a ∈ as, ∀ b ∈ as, ∃ r, less a b = .ok r) : ∃ bs, sortWith less as = .ok bs := by
  induction as with
  | nil => exact ⟨[], rfl⟩
  | cons a as ih =>
    obtain ⟨bs, hbs⟩ := ih fun b hb c hc =>
      h b (List.mem_cons_of_mem a hb) c (List.mem_cons_of_mem a hc)
    have hperm := sortWith_perm less as bs hbs
    rw [sortWith, hbs]
    exact insertWith_returns less a bs fun b hb =>
      h b (List.mem_cons_of_mem a (hperm.mem_iff.mp hb)) a List.mem_cons_self

end Fallible
