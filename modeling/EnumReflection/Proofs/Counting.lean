import EnumReflection.Command.Arguments
import EnumReflection.Numbering
import EnumReflection.Proofs.First

/-!
# Counting without an end

The values of members are numbers of unbounded integers, wrapped into their type. Members are
numbered in 128 bits and checked against a narrower type afterwards. The values there agree with
the numbers up to and including the first one that does not fit, since the number before it fits
and its successor cannot wrap.
-/
namespace EnumReflection

theorem IntType.contains_i128_succ {type : IntType} (htype : type ∈ Command.offeredTypes) {v : Int}
    (hv : type.Contains v) : IntType.i128.Contains (v + 1) := by
  have hmin : IntType.i128.min = -170141183460469231731687303715884105728 := by decide
  have hmax : IntType.i128.max = 170141183460469231731687303715884105727 := by decide
  have hbounds : ∀ ty ∈ Command.offeredTypes,
      -9223372036854775808 ≤ ty.min ∧ ty.max ≤ 18446744073709551615 := by decide
  obtain ⟨hlow, hhigh⟩ := hbounds type htype
  simp only [IntType.Contains, hmin, hmax] at hv ⊢
  omega

namespace Numbering

/-- The values of members in unbounded integers, when a given value comes next. -/
def countUp (next : Int) : List (Option Int) → List Int
  | [] => []
  | written :: rest => written.getD next :: countUp (written.getD next + 1) rest

@[simp] theorem length_countUp (next : Int) (written : List (Option Int)) :
    (countUp next written).length = written.length := by
  induction written generalizing next with
  | nil => rfl
  | cons w ws ih => simp [countUp, ih]

theorem getElem?_countUp_succ (next : Int) (written : List (Option Int)) (i : Nat) :
    (countUp next written)[i + 1]? =
      written[i + 1]?.map fun w => w.getD ((countUp next written)[i]?.getD 0 + 1) := by
  induction written generalizing next i with
  | nil => rfl
  | cons w ws ih =>
    rw [countUp, List.getElem?_cons_succ, List.getElem?_cons_succ]
    cases i with
    | zero =>
      cases ws with
      | nil => rfl
      | cons u us => rfl
    | succ i => rw [ih, List.getElem?_cons_succ]

theorem getElem?_countUp_of_written (next : Int) {written : List (Option Int)} {i : Nat} {v : Int}
    (h : written[i]? = some (some v)) : (countUp next written)[i]? = some v := by
  cases i with
  | zero =>
    cases written with
    | nil => simp at h
    | cons w ws =>
      have hw : w = some v := by simpa using h
      simp [countUp, hw]
  | succ i =>
    rw [getElem?_countUp_succ, h]
    rfl

theorem countUp_cases {next : Int} {written : List (Option Int)} {i : Nat} {u : Int}
    (h : (countUp next written)[i]? = some u) :
    some u ∈ written ∨ u = next ∨ ∃ k t, i = k + 1 ∧ written[k + 1]? = some none ∧
      (countUp next written)[k]? = some t ∧ u = t + 1 := by
  cases i with
  | zero =>
    cases written with
    | nil => cases h
    | cons w ws =>
      have hfirst : w.getD next = u := by simpa [countUp] using h
      cases w with
      | none => exact Or.inr (Or.inl hfirst.symm)
      | some v => exact Or.inl (by simp [← hfirst])
  | succ k =>
    rw [getElem?_countUp_succ] at h
    obtain ⟨w, hw, rfl⟩ := Option.map_eq_some_iff.1 h
    cases w with
    | some v => exact Or.inl (List.mem_of_getElem? hw)
    | none =>
      have hlt : k + 1 < written.length := (List.getElem?_eq_some_iff.1 hw).1
      have hk := List.getElem?_eq_getElem (l := countUp next written) (i := k)
        (by rw [length_countUp]; omega)
      exact Or.inr (Or.inr ⟨k, _, rfl, hw, hk, by rw [hk]; rfl⟩)

/-- The written values are among the numbers, so they fit if these do. -/
theorem contains_written {type : IntType} {written : List (Option Int)}
    (fits : ∀ v ∈ countUp 0 written, type.Contains v) {v : Int} (hv : some v ∈ written) :
    type.Contains v := by
  obtain ⟨i, hi⟩ := List.getElem?_of_mem hv
  exact fits v (List.mem_of_getElem? (getElem?_countUp_of_written 0 hi))

/-- To count in a type is to count without an end and to wrap each number. -/
theorem count_wrap_eq_map {type : IntType} (next : Int) {written : List (Option Int)}
    (hwritten : ∀ v, some v ∈ written → type.Contains v) :
    count type (type.wrap next) written = (countUp next written).map type.wrap := by
  induction written generalizing next with
  | nil => rfl
  | cons w ws ih =>
    have hvalue : w.getD (type.wrap next) = type.wrap (w.getD next) := by
      cases w with
      | none => rfl
      | some v => exact (IntType.wrap_eq_self (hwritten v (by simp))).symm
    rw [count, countUp, List.map_cons, hvalue, IntType.successor, IntType.wrap_wrap_add,
      ih _ fun v hv => hwritten v (by simp [hv])]

theorem values_eq_map_wrap {type : IntType} {written : List (Option Int)}
    (hwritten : ∀ v, some v ∈ written → type.Contains v) :
    values type written = (countUp 0 written).map type.wrap := by
  rw [← count_wrap_eq_map 0 hwritten, IntType.wrap_eq_self type.contains_zero, values]

theorem count_of_fits {type : IntType} {written : List (Option Int)}
    (hfit : ∀ v ∈ countUp 0 written, type.Contains v) :
    count type 0 written = countUp 0 written := by
  have hwrap : (countUp 0 written).map type.wrap = countUp 0 written := by
    rw [List.map_congr_left fun v hv => IntType.wrap_eq_self (hfit v hv), List.map_id']
  rw [← values, values_eq_map_wrap fun v hv => contains_written hfit hv, hwrap]

section
variable {type : IntType} (htype : type ∈ Command.offeredTypes)
include htype

theorem successor_of_fits {v : Int} (hv : type.Contains v) : IntType.i128.successor v = v + 1 :=
  IntType.wrap_eq_self (IntType.contains_i128_succ htype hv)

theorem getElem?_count_eq {next : Int} {written : List (Option Int)} {i : Nat}
    (hfit : ∀ j < i, ∀ v, (countUp next written)[j]? = some v → type.Contains v) :
    (count .i128 next written)[i]? = (countUp next written)[i]? := by
  induction written generalizing next i with
  | nil => rfl
  | cons w ws ih =>
    cases i with
    | zero => rfl
    | succ i =>
      have hfirst : type.Contains (w.getD next) := hfit 0 (by omega) _ rfl
      rw [count, countUp, successor_of_fits htype hfirst, List.getElem?_cons_succ,
        List.getElem?_cons_succ]
      apply ih
      intro j hj v hv
      exact hfit (j + 1) (by omega) v (by simpa [countUp] using hv)

theorem count_eq_countUp {next : Int} {written : List (Option Int)}
    (hfit : ∀ v ∈ countUp next written, type.Contains v) :
    count .i128 next written = countUp next written := by
  apply List.ext_getElem?
  intro i
  apply getElem?_count_eq htype
  intro j _ v hv
  exact hfit v (List.mem_of_getElem? hv)

theorem isFirst_count {next : Int} {written : List (Option Int)} {i : Nat} {v : Int}
    (h : IsFirst (¬ type.Contains ·) (countUp next written) i v) :
    IsFirst (¬ type.Contains ·) (count .i128 next written) i v := by
  have hfit : ∀ k ≤ i, ∀ j < k, ∀ u, (countUp next written)[j]? = some u → type.Contains u := by
    intro k hk j hj u hu
    exact Decidable.not_not.1 (h.before j (by omega) u hu)
  refine ⟨?_, h.holds, ?_⟩
  · rw [getElem?_count_eq htype (hfit i (by omega))]
    exact h.getElem
  · intro j hj u hu
    rw [getElem?_count_eq htype (hfit j (by omega))] at hu
    exact h.before j hj u hu

end

end Numbering

end EnumReflection
