import EnumReflection.IntType

/-!
# Numbering of members

A member takes the value that is written for it, or else the value that follows the one of the
member before it. Counting starts at zero and wraps at the ends of the integer type.
-/
namespace EnumReflection.Numbering

/-- The values of members from the ones written for them, when a given value comes next. -/
def count (ty : IntType) (next : Int) : List (Option Int) → List Int
  | [] => []
  | written :: rest => written.getD next :: count ty (ty.successor (written.getD next)) rest

/-- The values of all members from the ones written for them. -/
def values (ty : IntType) (written : List (Option Int)) : List Int := count ty 0 written

@[simp] theorem length_count (ty : IntType) (next : Int) (written : List (Option Int)) :
    (count ty next written).length = written.length := by
  induction written generalizing next with
  | nil => rfl
  | cons w ws ih => simp [count, ih]

@[simp] theorem length_values (ty : IntType) (written : List (Option Int)) :
    (values ty written).length = written.length := length_count ty 0 written

theorem getElem?_count_of_written {ty : IntType} (next : Int) {v : Int}
    {written : List (Option Int)} {i : Nat} (h : written[i]? = some (some v)) :
    (count ty next written)[i]? = some v := by
  induction written generalizing next i with
  | nil => simp at h
  | cons w ws ih =>
    cases i with
    | zero =>
      have hw : w = some v := by simpa using h
      simp [count, hw]
    | succ i =>
      have hi := ih (ty.successor (w.getD next)) (by simpa using h)
      simpa [count] using hi

theorem contains_of_mem_count {ty : IntType} {next : Int} {written : List (Option Int)}
    (hnext : ty.Contains next) (hwritten : ∀ v, some v ∈ written → ty.Contains v)
    {v : Int} (hv : v ∈ count ty next written) : ty.Contains v := by
  induction written generalizing next with
  | nil => cases hv
  | cons w ws ih =>
    have hfirst : ty.Contains (w.getD next) := by
      cases w with
      | none => exact hnext
      | some u => exact hwritten u (by simp)
    rcases List.mem_cons.1 hv with rfl | hv
    · exact hfirst
    · have hrest : ∀ u, some u ∈ ws → ty.Contains u := fun u hu => hwritten u (by simp [hu])
      exact ih (ty.contains_wrap _) hrest hv

end EnumReflection.Numbering
