import Mathlib.Data.List.Basic

/-!
# The first element with a property

Errors name the first thing that is wrong. `IsFirst` says which element of a list that is and
at which index it stands.
-/
namespace EnumReflection

variable {α β : Type}

/-- The element at an index has a property that no element before it has. -/
structure IsFirst (p : α → Prop) (l : List α) (i : Nat) (a : α) : Prop where
  getElem : l[i]? = some a
  holds : p a
  before : ∀ j < i, ∀ b, l[j]? = some b → ¬ p b

namespace IsFirst

variable {p : α → Prop}

@[simp] theorem not_nil {i : Nat} {a : α} : ¬ IsFirst p [] i a := by
  intro h
  simpa using h.getElem

@[simp] theorem cons_zero {l : List α} {a b : α} : IsFirst p (b :: l) 0 a ↔ b = a ∧ p b := by
  constructor
  · intro h
    have he : b = a := by simpa using h.getElem
    exact ⟨he, he ▸ h.holds⟩
  · rintro ⟨rfl, hb⟩
    exact ⟨rfl, hb, by simp⟩

@[simp] theorem cons_succ {l : List α} {i : Nat} {a b : α} :
    IsFirst p (b :: l) (i + 1) a ↔ ¬ p b ∧ IsFirst p l i a := by
  constructor
  · intro h
    refine ⟨h.before 0 (by omega) b rfl, by simpa using h.getElem, h.holds, ?_⟩
    intro j hj c hc
    exact h.before (j + 1) (by omega) c (by simpa using hc)
  · rintro ⟨hb, h⟩
    refine ⟨by simpa using h.getElem, h.holds, ?_⟩
    intro j hj c hc
    cases j with
    | zero =>
      cases hc
      exact hb
    | succ j => exact h.before j (by omega) c (by simpa using hc)

theorem exists_of_mem {l : List α} {a : α} (ha : a ∈ l) (hp : p a) :
    ∃ i b, IsFirst p l i b := by
  induction l with
  | nil => cases ha
  | cons c l ih =>
    by_cases hc : p c
    · exact ⟨0, c, cons_zero.2 ⟨rfl, hc⟩⟩
    · have hl : a ∈ l := by
        rcases List.mem_cons.1 ha with rfl | hl
        · exact absurd hp hc
        · exact hl
      obtain ⟨i, b, h⟩ := ih hl
      exact ⟨i + 1, b, cons_succ.2 ⟨hc, h⟩⟩

theorem exists_of_mem_map {f : β → α} {l : List β} {a : α} (ha : a ∈ l.map f) :
    ∃ i b, IsFirst (f · = a) l i b := by
  obtain ⟨b, hb, hf⟩ := List.mem_map.1 ha
  exact exists_of_mem hb hf

theorem map {f : β → α} {l : List β} {i : Nat} {b : β} (h : IsFirst (fun x => p (f x)) l i b) :
    IsFirst p (l.map f) i (f b) := by
  refine ⟨by simp [h.getElem], h.holds, ?_⟩
  intro j hj a ha
  rw [List.getElem?_map] at ha
  obtain ⟨c, hc, rfl⟩ := Option.map_eq_some_iff.1 ha
  exact h.before j hj c hc

theorem take_iff {l : List α} {n i : Nat} {a : α} :
    IsFirst p (l.take n) i a ↔ i < n ∧ IsFirst p l i a := by
  constructor
  · intro h
    have hi : i < n := by
      have hlt := (List.getElem?_eq_some_iff.1 h.getElem).1
      simp only [List.length_take] at hlt
      omega
    refine ⟨hi, by simpa [hi] using h.getElem, h.holds, ?_⟩
    intro j hj b hb
    exact h.before j hj b (by simpa [Nat.lt_trans hj hi] using hb)
  · rintro ⟨hi, h⟩
    refine ⟨by simpa [hi] using h.getElem, h.holds, ?_⟩
    intro j hj b hb
    exact h.before j hj b (by simpa [Nat.lt_trans hj hi] using hb)

theorem dropWhile_eq [DecidablePred p] {l : List α} {i : Nat} {a : α} (h : IsFirst p l i a) :
    l.dropWhile (¬ p ·) = l.drop i := by
  induction l generalizing i with
  | nil => simp at h
  | cons b l ih =>
    cases i with
    | zero =>
      obtain ⟨rfl, hb⟩ := cons_zero.1 h
      simp [hb]
    | succ i =>
      obtain ⟨hb, h⟩ := cons_succ.1 h
      simpa [hb] using ih h

theorem find?_eq {p : α → Bool} {l : List α} {i : Nat} {a : α}
    (h : IsFirst (fun x => p x = true) l i a) : l.find? p = some a := by
  induction l generalizing i with
  | nil => simp at h
  | cons b l ih =>
    cases i with
    | zero =>
      obtain ⟨rfl, hb⟩ := cons_zero.1 h
      exact List.find?_cons_of_pos hb
    | succ i =>
      obtain ⟨hb, h⟩ := cons_succ.1 h
      rw [List.find?_cons_of_neg hb]
      exact ih h

end IsFirst

theorem find?_eq_some_iff_isFirst {κ : Type} [BEq κ] [LawfulBEq κ] {key : α → κ} {l : List α}
    {k : κ} {a : α} : l.find? (key · == k) = some a ↔ ∃ i, IsFirst (key · = k) l i a := by
  have hfind {i : Nat} {b : α} (h : IsFirst (key · = k) l i b) : l.find? (key · == k) = some b := by
    apply IsFirst.find?_eq
    simpa using h
  constructor
  · intro h
    have hkey : key a = k := by simpa using List.find?_some h
    obtain ⟨i, b, hfirst⟩ : ∃ i b, IsFirst (key · = k) l i b :=
      IsFirst.exists_of_mem (List.mem_of_find?_eq_some h) hkey
    obtain rfl : a = b := by simpa [h] using hfind hfirst
    exact ⟨i, hfirst⟩
  · rintro ⟨i, h⟩
    exact hfind h

end EnumReflection
