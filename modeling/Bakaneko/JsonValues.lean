import Mathlib.Data.List.Sort
import Bakaneko.Messages
import Bakaneko.Library.Fallible
import Bakaneko.Library.KeyedTable
import Bakaneko.Library.Utf8

/-!
# JSON values as maps

The library keeps the members of an object in a `std::map`, so a parsed value
has them in the order of their keys. A conversion finds the same members in
either order. What the printer and the parser of the library promise is
stated here for any pair of them.
-/

set_option autoImplicit false

namespace Bakaneko.JsonValues
open Bakaneko.Native Bakaneko.Messages
open Fallible KeyedTable

mutual

/-- The same value with the members of its objects in the order of a `std::map`. -/
def ordered : Json → Json
  | .array elements => .array (orderedElements elements)
  | .object fields => .object ((orderedMembers fields).insertionSort fun f g => f.1 ≤ g.1)
  | j => j

def orderedElements : List Json → List Json
  | [] => []
  | j::elements => ordered j::orderedElements elements

def orderedMembers : List (Bytes × Json) → List (Bytes × Json)
  | [] => []
  | (key, j)::fields => (key, ordered j)::orderedMembers fields

end

mutual

/-- The strings of a value, its keys among them. -/
def strings : Json → List Bytes
  | .text s => [s]
  | .array elements => elementStrings elements
  | .object fields => memberStrings fields
  | _ => []

def elementStrings : List Json → List Bytes
  | [] => []
  | j::elements => strings j++elementStrings elements

def memberStrings : List (Bytes × Json) → List Bytes
  | [] => []
  | (key, j)::fields => key::(strings j++memberStrings fields)

end

def AllUtf8 (j : Json) : Prop := ∀ s ∈ strings j, Utf8.Valid s

/-- A value that its text determines: no key twice in an object, and numbers
that are 64-bit integers, with or without sign. -/
inductive Exact : Json → Prop where
  | null : Exact .null
  | boolean (b : Bool) : Exact (.boolean b)
  | number (n : ℤ) : -9223372036854775808 ≤ n → n < 18446744073709551616 → Exact (.number n)
  | text (s : Bytes) : Exact (.text s)
  | array (elements : List Json) : (∀ j ∈ elements, Exact j) → Exact (.array elements)
  | object (fields : List (Bytes × Json)) : (fields.map Prod.fst).Nodup →
      (∀ f ∈ fields, Exact f.2) → Exact (.object fields)

/-- Parsing undoes printing, on text that is UTF-8. -/
def Inverse (json : Nlohmann) : Prop :=
  ∀ j, Exact j → AllUtf8 j → ∃ body, json.dump j = .ok body ∧ json.parse body = .ok (ordered j)

/-- Printing fails on text that is not UTF-8, and on nothing else. -/
def Strict (json : Nlohmann) : Prop := ∀ j, (∃ body, json.dump j = .ok body) ↔ AllUtf8 j

theorem orderedElements_eq (elements : List Json) :
    orderedElements elements = elements.map ordered := by
  induction elements with
  | nil => rfl
  | cons j elements ih => rw [orderedElements, ih, List.map_cons]

theorem orderedMembers_eq (fields : List (Bytes × Json)) :
    orderedMembers fields = fields.map (Prod.map id ordered) := by
  induction fields with
  | nil => rfl
  | cons f fields ih => rw [orderedMembers, ih, List.map_cons, Prod.map, id]

theorem elementStrings_eq (elements : List Json) :
    elementStrings elements = elements.flatMap strings := by
  induction elements with
  | nil => rfl
  | cons j elements ih => rw [elementStrings, ih, List.flatMap_cons]

theorem memberStrings_eq (fields : List (Bytes × Json)) :
    memberStrings fields = fields.flatMap fun f => f.1::strings f.2 := by
  induction fields with
  | nil => rfl
  | cons f fields ih => rw [memberStrings, ih, List.flatMap_cons, List.cons_append]

theorem allUtf8_text (s : Bytes) : AllUtf8 (.text s) ↔ Utf8.Valid s := by
  simp [AllUtf8, strings]

theorem allUtf8_array (elements : List Json) :
    AllUtf8 (.array elements) ↔ ∀ j ∈ elements, AllUtf8 j := by
  simp only [AllUtf8, strings, elementStrings_eq, List.mem_flatMap, forall_exists_index, and_imp]
  exact forall_comm.trans (forall_congr' fun j => forall_comm)

theorem allUtf8_object (fields : List (Bytes × Json)) :
    AllUtf8 (.object fields) ↔ ∀ f ∈ fields, Utf8.Valid f.1 ∧ AllUtf8 f.2 := by
  simp only [AllUtf8, strings, memberStrings_eq, List.mem_flatMap, List.mem_cons,
    forall_exists_index, and_imp]
  constructor
  · exact fun h f hf => ⟨h f.1 f hf (.inl rfl), fun s hs => h s f hf (.inr hs)⟩
  · rintro h s f hf (rfl | hs)
    · exact (h f hf).1
    · exact (h f hf).2 s hs

theorem ordered_members (fields : List (Bytes × Json)) :
    ((orderedMembers fields).insertionSort fun f g => f.1 ≤ g.1).Perm
      (fields.map (Prod.map id ordered)) :=
  orderedMembers_eq fields ▸ List.perm_insertionSort _ _

/-- A member is found wherever the map has put it. -/
theorem atKey_ordered (key : String) (j : Json) (h : Exact j) :
    atKey key (ordered j) = (atKey key j).map ordered := by
  cases h with
  | object fields hd =>
    have hkeys : (fields.map (Prod.map id ordered)).map Prod.fst = fields.map Prod.fst := by
      simp only [List.map_map, Function.comp_def, Prod.map_fst, id]
    have hp := ordered_members fields
    have hrow := @row?_perm _ _ _ Prod.fst (bytes key) _ _
      ((hp.map Prod.fst).nodup_iff.mpr (hkeys ▸ hd)) hp
    rw [row?_map (Prod.map id ordered) (fun _ => rfl)] at hrow
    unfold row? at hrow
    rw [ordered, atKey, atKey, hrow]
    cases fields.find? fun f => f.1 = bytes key <;> rfl
  | _ => rfl

theorem exact_atKey (key : String) (j value : Json) (h : Exact j)
    (hv : atKey key j = .ok value) : Exact value := by
  cases h with
  | object fields hd hf =>
    rw [atKey] at hv
    split at hv
    · next f hfind =>
      cases hv
      exact hf f (List.mem_of_find?_eq_some hfind)
    · cases hv
  | _ => cases hv

theorem exact_ordered (j : Json) (h : Exact j) : Exact (ordered j) := by
  induction h with
  | array elements _ ih =>
    rw [ordered, orderedElements_eq]
    exact .array _ (by simpa using ih)
  | object fields hd _ ih =>
    have hp := ordered_members fields
    apply Exact.object
    · rw [(hp.map Prod.fst).nodup_iff]
      simpa [Function.comp_def] using hd
    · intro f hf
      obtain ⟨member, hm, rfl⟩ := List.mem_map.mp (hp.mem_iff.mp hf)
      exact ih member hm
  | null => exact .null
  | boolean b => exact .boolean b
  | number n h0 h1 => exact .number n h0 h1
  | text s => exact .text s

/-- A conversion that does not see the order of members. -/
def Stable {α : Type} (get : Json → Except StdException α) : Prop :=
  ∀ j, Exact j → get (ordered j) = get j

section Stable
variable {α β : Type}

theorem stable_field (get : Json → Except StdException α) (key : String) (h : Stable get) :
    Stable (field get key) := by
  intro j hj
  unfold field
  rw [atKey_ordered key j hj]
  cases hv : atKey key j with
  | error e => rfl
  | ok value => exact h value (exact_atKey key j value hj hv)

theorem stable_array (get : Json → Except StdException α) (h : Stable get) :
    Stable (getArray get) := by
  intro j hj
  cases hj with
  | array elements he =>
    rw [ordered, getArray, getArray, orderedElements_eq, List.mapM_map]
    exact mapM_congr _ _ _ fun j hj => h j (he j hj)
  | _ => rfl

theorem stable_bind (get : Json → Except StdException α) (rest : α → Json → Except StdException β)
    (h : Stable get) (hr : ∀ a, Stable (rest a)) : Stable fun j => get j >>= fun a => rest a j := by
  intro j hj
  dsimp only
  rw [h j hj]
  cases get j with
  | error e => rfl
  | ok a => exact hr a j hj

theorem stable_return (a : α) : Stable fun _ => return a := fun _ _ => rfl

theorem stable_text : Stable getText := by
  intro j hj
  cases hj <;> rfl

theorem stable_enum : Stable getEnum := by
  intro j hj
  cases hj <;> rfl

theorem stable_unsigned : Stable getUnsigned := by
  intro j hj
  cases hj <;> rfl

theorem stable_boolean : Stable getBoolean := by
  intro j hj
  cases hj <;> rfl

end Stable

/-- A conversion of objects that reads these members, and throws without one of them. -/
structure Reads {α : Type} (keys : List String) (get : Json → Except StdException α) : Prop where
  stable : Stable get
  needs : ∀ key ∈ keys, ∀ j e, atKey key j = .error e → ∃ e, get j = .error e

theorem reads_return {α : Type} (a : α) : Reads [] fun _ => return a :=
  ⟨stable_return a, by simp⟩

/-- One more member, in front of those the rest reads. -/
theorem reads_field {α β : Type} {get : Json → Except StdException α} {key : String}
    {keys : List String} {rest : α → Json → Except StdException β} (h : Stable get)
    (hr : ∀ a, Reads keys (rest a)) :
    Reads (key::keys) fun j => field get key j >>= fun a => rest a j where
  stable := stable_bind (field get key) rest (stable_field get key h) fun a => (hr a).stable
  needs := by
    intro k hk j e he
    cases hg : field get key j with
    | error e => exact ⟨e, rfl⟩
    | ok a =>
      rcases List.mem_cons.mp hk with rfl | hk
      · rw [field, he] at hg
        cases hg
      · exact (hr a).needs k hk j e he

end Bakaneko.JsonValues
