import EnumReflection.Proofs.Counting
import Mathlib.Data.Int.ModEq

/-!
# Counting that wraps

Members that are numbered in an integer type have the values of counting without an end, each
brought into the type: wrapping on the way and wrapping once at the end come to the same. A member
is therefore counted on from the last written value, whatever stands before that. The values of a
type on offer are those of 128 bits exactly if the latter all fit it, which is what a declaration is
checked for, and exactly if no member is counted on from the last value of the type.
-/
namespace EnumReflection

theorem IntType.wrap_modEq (type : IntType) (v : Int) : type.wrap v ≡ v [ZMOD 2 ^ type.bits] := by
  have hcount : (type.count : Int) = 2 ^ type.bits := by simp [count]
  rw [← hcount]
  exact type.wrap_emod v

namespace Numbering

/-- The last member up to an index that has a written value, and this value. -/
structure LastWritten (written : List (Option Int)) (i j : Nat) (v : Int) : Prop where
  le : j ≤ i
  getElem : written[j]? = some (some v)
  unwritten : ∀ k, j < k → k ≤ i → written[k]? = some none

variable {written : List (Option Int)} {i j : Nat} {v : Int}

theorem LastWritten.unique {k : Nat} {w : Int} (h : LastWritten written i j v)
    (h' : LastWritten written i k w) : j = k ∧ v = w := by
  have hjk : j = k := by
    rcases Nat.lt_trichotomy j k with hlt | heq | hlt
    · have hnone := h.unwritten k hlt h'.le
      rw [h'.getElem] at hnone
      cases hnone
    · exact heq
    · have hnone := h'.unwritten j hlt h.le
      rw [h.getElem] at hnone
      cases hnone
  subst hjk
  have hvalue := h.getElem.symm.trans h'.getElem
  exact ⟨rfl, by simpa using hvalue⟩

theorem LastWritten.of_succ (h : LastWritten written (i + 1) j v) (hj : j ≤ i) :
    LastWritten written i j v :=
  ⟨hj, h.getElem, fun k hk hi => h.unwritten k hk (by omega)⟩

theorem LastWritten.succ (h : LastWritten written i j v) (hi : written[i + 1]? = some none) :
    LastWritten written (i + 1) j v := by
  refine ⟨Nat.le_succ_of_le h.le, h.getElem, ?_⟩
  intro k hk hki
  rcases Nat.le_succ_iff.1 hki with hki | rfl
  · exact h.unwritten k hk hki
  · exact hi

/-- The slots from the written value up to the member are enough to find it. -/
theorem LastWritten.slice (h : LastWritten written i j v) :
    LastWritten ((written.drop j).take (i + 1 - j)) (i - j) 0 v := by
  have hle := h.le
  refine ⟨Nat.zero_le _, ?_, ?_⟩
  · rw [List.getElem?_take_of_lt (by omega), List.getElem?_drop]
    exact h.getElem
  · intro k hk hki
    rw [List.getElem?_take_of_lt (by omega), List.getElem?_drop]
    exact h.unwritten (j + k) (by omega) (by omega)

theorem lastWritten_or_unwritten (hi : i < written.length) :
    (∃ j v, LastWritten written i j v) ∨ ∀ k ≤ i, written[k]? = some none := by
  induction i with
  | zero =>
    have hfirst := List.getElem?_eq_getElem hi
    cases hw : written[0] with
    | some v => exact Or.inl ⟨0, v, Nat.le_refl 0, hw ▸ hfirst, by omega⟩
    | none =>
      refine Or.inr fun k hk => ?_
      obtain rfl : k = 0 := by omega
      exact hw ▸ hfirst
  | succ i ih =>
    have hlast := List.getElem?_eq_getElem hi
    cases hw : written[i + 1] with
    | some v => exact Or.inl ⟨i + 1, v, Nat.le_refl _, hw ▸ hlast, by omega⟩
    | none =>
      rw [hw] at hlast
      rcases ih (by omega) with ⟨j, v, h⟩ | h
      · exact Or.inl ⟨j, v, h.succ hlast⟩
      · refine Or.inr fun k hk => ?_
        rcases Nat.le_succ_iff.1 hk with hk | rfl
        · exact h k hk
        · exact hlast

theorem getElem?_countUp_of_lastWritten (next : Int) (h : LastWritten written i j v) :
    (countUp next written)[i]? = some (v + (i - j)) := by
  induction i with
  | zero =>
    obtain rfl : j = 0 := by simpa using h.le
    rw [getElem?_countUp_of_written next h.getElem]
    simp
  | succ i ih =>
    rcases Nat.le_succ_iff.1 h.le with hj | rfl
    · rw [getElem?_countUp_succ, h.unwritten (i + 1) (by omega) (Nat.le_refl _),
        ih (h.of_succ hj)]
      simp only [Option.map_some, Option.getD_none, Option.getD_some]
      push_cast
      congr 1
      omega
    · rw [getElem?_countUp_of_written next h.getElem]
      simp

theorem getElem?_countUp_of_unwritten (next : Int) (h : ∀ k ≤ i, written[k]? = some none) :
    (countUp next written)[i]? = some (next + i) := by
  induction i with
  | zero =>
    have hfirst := h 0 (Nat.le_refl 0)
    cases written with
    | nil => simp at hfirst
    | cons w ws =>
      have hw : w = none := by simpa using hfirst
      simp [countUp, hw]
  | succ i ih =>
    rw [getElem?_countUp_succ, h (i + 1) (Nat.le_refl _), ih fun k hk => h k (by omega)]
    simp only [Option.map_some, Option.getD_none, Option.getD_some]
    push_cast
    congr 1
    omega

theorem getElem?_values_of_lastWritten {type : IntType}
    (hwritten : ∀ v, some v ∈ written → type.Contains v) (h : LastWritten written i j v) :
    (values type written)[i]? = some (type.wrap (v + (i - j))) := by
  rw [values_eq_map_wrap hwritten, List.getElem?_map, getElem?_countUp_of_lastWritten 0 h,
    Option.map_some]

theorem getElem?_values_of_unwritten {type : IntType}
    (hwritten : ∀ v, some v ∈ written → type.Contains v)
    (h : ∀ k ≤ i, written[k]? = some none) :
    (values type written)[i]? = some (type.wrap i) := by
  rw [values_eq_map_wrap hwritten, List.getElem?_map, getElem?_countUp_of_unwritten 0 h,
    Option.map_some, zero_add]

/-- Every member has the value of the type that differs by a multiple of the number of values from
counting on from the last written value, or from zero if there is none. What stands before that
value does not matter, and a written value is taken as it is. -/
theorem values_closed_form {type : IntType} {written : List (Option Int)}
    (hwritten : ∀ v, some v ∈ written → type.Contains v) :
    (values type written).length = written.length ∧
    (∀ i < written.length, ∃ u, (values type written)[i]? = some u ∧ type.Contains u ∧
      ((∃ j v, LastWritten written i j v ∧ u ≡ v + (i - j) [ZMOD 2 ^ type.bits]) ∨
        (∀ k ≤ i, written[k]? = some none) ∧ u ≡ i [ZMOD 2 ^ type.bits])) ∧
    (∀ i j v, LastWritten written i j v →
      (values type written)[i]? = (values type ((written.drop j).take (i + 1 - j)))[i - j]?) ∧
    ∀ (i : Nat) (v : Int), written[i]? = some (some v) → (values type written)[i]? = some v := by
  refine ⟨length_values type written, ?_, ?_, fun i v h => getElem?_count_of_written 0 h⟩
  · intro i hi
    rcases lastWritten_or_unwritten hi with ⟨j, v, h⟩ | h
    · exact ⟨_, getElem?_values_of_lastWritten hwritten h, type.contains_wrap _,
        Or.inl ⟨j, v, h, type.wrap_modEq _⟩⟩
    · exact ⟨_, getElem?_values_of_unwritten hwritten h, type.contains_wrap _,
        Or.inr ⟨h, type.wrap_modEq _⟩⟩
  · intro i j v h
    have hslice : ∀ v, some v ∈ (written.drop j).take (i + 1 - j) → type.Contains v :=
      fun v hv => hwritten v (List.mem_of_mem_drop (List.mem_of_mem_take hv))
    rw [getElem?_values_of_lastWritten hwritten h, getElem?_values_of_lastWritten hslice h.slice,
      Nat.cast_sub h.le, Nat.cast_zero, sub_zero]

/-- Counting past the end of a signed byte, and a written value that takes over. -/
theorem values_closed_form_signed_byte :
    let written := [some 126, none, none, some (-7), none]
    (∀ v, some v ∈ written → IntType.i8.Contains v) ∧ LastWritten written 2 0 126 ∧
      ∃ u, (values .i8 written)[2]? = some u ∧ IntType.i8.Contains u ∧ u ≡ 128 [ZMOD 2 ^ 8] ∧
        (values .i8 written)[4]? = (values .i8 [some (-7), none])[1]? := by
  intro written
  have hwritten : ∀ v, some v ∈ written → IntType.i8.Contains v := by
    intro v hv
    have hv : v = 126 ∨ v = -7 := by simpa [written] using hv
    rcases hv with rfl | rfl <;> decide
  have hsecond : LastWritten written 2 0 126 := by
    refine ⟨by decide, rfl, fun k hk hi => ?_⟩
    obtain rfl | rfl : k = 1 ∨ k = 2 := by omega
    all_goals rfl
  have hfourth : LastWritten written 4 3 (-7) := by
    refine ⟨by decide, rfl, fun k hk hi => ?_⟩
    obtain rfl : k = 4 := by omega
    rfl
  obtain ⟨-, hvalue, hslice, -⟩ := values_closed_form hwritten
  obtain ⟨u, hu, hcontains, ⟨j, v, h, hmod⟩ | ⟨hnone, -⟩⟩ := hvalue 2 (by decide)
  · obtain ⟨rfl, rfl⟩ := h.unique hsecond
    exact ⟨hwritten, hsecond, u, hu, hcontains, hmod, hslice 4 3 (-7) hfourth⟩
  · cases hnone 0 (by decide)

/-- Where a member takes the next value, the one before does not have the last value of the type. -/
def NeverWraps (type : IntType) (written : List (Option Int)) : Prop :=
  ∀ i, written[i + 1]? = some none → (values type written)[i]? ≠ some type.max

/-- The number before the first that does not fit would be the last value of the type. -/
theorem fits_of_neverWraps {type : IntType} (hwritten : ∀ v, some v ∈ written → type.Contains v)
    (h : NeverWraps type written) : ∀ v ∈ countUp 0 written, type.Contains v := by
  intro v hv
  by_contra hfit
  obtain ⟨i, u, hfirst⟩ := IsFirst.exists_of_mem (p := (¬ type.Contains ·)) hv hfit
  rcases countUp_cases hfirst.getElem with hmem | rfl | ⟨k, t, rfl, hslot, ht, rfl⟩
  · exact hfirst.holds (hwritten u hmem)
  · exact hfirst.holds type.contains_zero
  · have hbefore : type.Contains t := not_not.1 (hfirst.before k (by omega) t ht)
    have hmax : t ≠ type.max := by
      rintro rfl
      apply h k hslot
      rw [values_eq_map_wrap hwritten, List.getElem?_map, ht, Option.map_some,
        IntType.wrap_eq_self hbefore]
    have hlarge := hfirst.holds
    simp only [IntType.Contains] at hbefore hlarge
    omega

theorem neverWraps_of_fits {type : IntType} (hfits : ∀ v ∈ countUp 0 written, type.Contains v) :
    NeverWraps type written := by
  intro i hi hmax
  rw [values, count_of_fits hfits] at hmax
  have hnext : (countUp 0 written)[i + 1]? = some (type.max + 1) := by
    rw [getElem?_countUp_succ, hi, hmax]
    rfl
  have hfit := (hfits _ (List.mem_of_getElem? hnext)).2
  omega

theorem fits_of_values {type : IntType} (htype : type ∈ Command.offeredTypes)
    (h : ∀ v ∈ values .i128 written, type.Contains v) :
    ∀ v ∈ countUp 0 written, type.Contains v := by
  intro v hv
  by_contra hfit
  obtain ⟨i, u, hfirst⟩ := IsFirst.exists_of_mem (p := (¬ type.Contains ·)) hv hfit
  have hcount := isFirst_count htype hfirst
  exact hcount.holds (h u (List.mem_of_getElem? hcount.getElem))

/-- All values of 128 bits fit a type on offer exactly if counting in the type gives the same
values, and exactly if counting in the type never wraps. -/
theorem fits_iff_never_wraps {type : IntType} (htype : type ∈ Command.offeredTypes)
    {written : List (Option Int)} (hwritten : ∀ v, some v ∈ written → type.Contains v) :
    ((∀ v ∈ values .i128 written, type.Contains v) ↔
      values type written = values .i128 written) ∧
    ((∀ v ∈ values .i128 written, type.Contains v) ↔ NeverWraps type written) := by
  have hfit : ∀ v ∈ values type written, type.Contains v :=
    fun v hv => contains_of_mem_count type.contains_zero hwritten hv
  have hequal (h : ∀ v ∈ countUp 0 written, type.Contains v) :
      values type written = values .i128 written :=
    (count_of_fits h).trans (count_eq_countUp htype h).symm
  refine ⟨⟨fun h => hequal (fits_of_values htype h), fun h => h ▸ hfit⟩,
    fun h => neverWraps_of_fits (fits_of_values htype h), fun h => ?_⟩
  rw [← hequal (fits_of_neverWraps hwritten h)]
  exact hfit

/-- After the wrap to zero the counter goes on in range and is set anew, but 256 is noticed. -/
theorem fits_iff_never_wraps_byte :
    let written := [some 254, none, none, none, some 3, none]
    (.u8 ∈ Command.offeredTypes ∧ ∀ v, some v ∈ written → IntType.u8.Contains v) ∧
      values .u8 written = [254, 255, 0, 1, 3, 4] ∧
      values .i128 written = [254, 255, 256, 257, 3, 4] ∧ ¬ NeverWraps .u8 written := by
  intro written
  have hwritten : ∀ v, some v ∈ written → IntType.u8.Contains v := by
    intro v hv
    have hv : v = 254 ∨ v = 3 := by simpa [written] using hv
    rcases hv with rfl | rfl <;> decide
  obtain ⟨hvalues, hwraps⟩ := fits_iff_never_wraps (by decide) hwritten
  have hnarrow : values .u8 written = [254, 255, 0, 1, 3, 4] := by decide
  have hwide : values .i128 written = [254, 255, 256, 257, 3, 4] := by decide
  refine ⟨⟨by decide, hwritten⟩, hnarrow, hwide, fun h => ?_⟩
  have hequal := hvalues.1 (hwraps.2 h)
  rw [hnarrow, hwide] at hequal
  simp at hequal

end Numbering

end EnumReflection
