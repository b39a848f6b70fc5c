import EnumReflection.Proofs.Numeral
import Mathlib.Data.Nat.Digits.Defs

/-!
# Integers as they are written

A spelling is an integer literal with what may stand around it. Each spelling is read as its
integer if 128 signed bits hold it and refused otherwise. What is read is such a spelling, except
that underscores before the first digit are read over also where no mark comes before them, so that
an identifier like `_5` is taken for a number.
-/
namespace EnumReflection.Literal
open Trivia (IsLayout IsPadding)

/-- The parts of an integer as it is written. An underscore before a type name belongs to the
digits, and the last comment may be open. -/
structure Spelling where
  before : Text
  sign : Text
  between : Text
  mark : Text
  base : Nat
  run : Text
  suffix : Text
  after : Text
  isLayout_before : IsLayout before
  isSign : sign ∈ signs
  isLayout_between : IsLayout between
  isMark : IsMark mark base
  isRun : IsRun base mark run
  isSuffix : IsSuffix suffix
  isPadding_after : IsPadding after

namespace Spelling

def text (s : Spelling) : Text :=
  s.before ++ (s.sign ++ (s.between ++ (s.mark ++ (s.run ++ (s.suffix ++ s.after)))))

/-- The number of the digits, the last of which counts the ones. -/
def magnitude (s : Spelling) : Nat := Nat.ofDigits s.base (s.run.filterMap Text.digitValue?).reverse

def value (s : Spelling) : Int := if s.sign = ['-'] then -s.magnitude else s.magnitude

end Spelling

theorem numeral_eq_ofDigits (base acc : Nat) (run : Text) :
    numeral base acc run =
      Nat.ofDigits base ((run.filterMap Text.digitValue?).reverse ++ [acc]) := by
  induction run generalizing acc with
  | nil => simp [numeral]
  | cons c run ih =>
    rw [numeral]
    cases hc : Text.digitValue? c with
    | none => rw [List.filterMap_cons_none hc, ← ih]
    | some d =>
      simp only [ih, List.filterMap_cons_some hc, List.reverse_cons, Nat.ofDigits_append,
        Nat.ofDigits_singleton, List.length_append, List.length_singleton, pow_succ]
      ring

theorem contains_i128_iff {v : Int} :
    IntType.i128.Contains v ↔ -2 ^ 127 ≤ v ∧ v ≤ 2 ^ 127 - 1 := by
  have hmin : IntType.i128.min = -2 ^ 127 := by decide
  have hmax : IntType.i128.max = 2 ^ 127 - 1 := by decide
  rw [IntType.Contains, hmin, hmax]

theorem contains_u128_iff {m : Nat} : IntType.u128.Contains m ↔ m < 2 ^ 128 := by
  have hmin : IntType.u128.min = 0 := by decide
  have hmax : IntType.u128.max = 2 ^ 128 - 1 := by decide
  rw [IntType.Contains, hmin, hmax]
  omega

namespace Spelling

theorem numeral_run (s : Spelling) : numeral s.base 0 s.run = s.magnitude := by
  rw [numeral_eq_ofDigits, Nat.ofDigits_append_zero, magnitude]

theorem exists_digit (s : Spelling) : ∃ c r,
    s.mark ++ (s.run ++ (s.suffix ++ s.after)) = c :: r ∧ c.isDigit = true := by
  obtain ⟨c, r, he, hc⟩ := s.isRun.exists_digit s.isMark
  exact ⟨c, r ++ (s.suffix ++ s.after), by rw [← List.append_assoc, he, List.cons_append], hc⟩

theorem sign_skip_text (s : Spelling) : Literal.sign (Trivia.skip s.text) =
    (decide (s.sign = ['-']), s.mark ++ (s.run ++ (s.suffix ++ s.after))) := by
  obtain ⟨c, r, he, hc⟩ := s.exists_digit
  exact sign_skip s.isSign s.isLayout_before s.isLayout_between he (isWordChar_of_isDigit hc)

theorem withSign_magnitude (s : Spelling) :
    withSign (decide (s.sign = ['-'])) s.magnitude = s.value := by
  simp [withSign, value]

/-- A spelling is read as its integer exactly if 128 signed bits hold it. Otherwise it is out of
their range, or the digits alone are too large for 128 bits. -/
theorem parse_text (s : Spelling) : parse s.text =
    if -2 ^ 127 ≤ s.value ∧ s.value ≤ 2 ^ 127 - 1 then .ok s.value
    else if s.magnitude < 2 ^ 128 then .error (.outOfRange s.text)
    else .error (.badDigits s.text s.base .tooLarge) := by
  have hparse := parse_of_sign s.sign_skip_text s.isMark s.isRun s.isSuffix s.isPadding_after
  simpa only [numeral_run, withSign_magnitude, contains_i128_iff, contains_u128_iff] using hparse

/-- The least value, with an underscore before its type and a comment that stays open. -/
theorem parse_text_least :
    ∃ s : Spelling, s.text = "- 0x_80000000_00000000_00000000_00000000_i128 // least".toList ∧
      s.value = -2 ^ 127 ∧ parse s.text = .ok (-2 ^ 127) := by
  have hrun : IsRun 16 ['0', 'x'] "_80000000_00000000_00000000_00000000_".toList :=
    ⟨Text.forall_of_all (by decide), ⟨'8', by decide, by decide⟩, by simp⟩
  have hafter : IsPadding " // least".toList :=
    .opened (.space (by decide) .nil) (.line (Text.forall_of_all (by decide)))
  let s : Spelling := ⟨[], ['-'], [' '], ['0', 'x'], 16, _, "i128".toList, _, .nil, by decide,
    .space (by decide) .nil, .hexadecimal (by decide), hrun, .inr ⟨.i128, rfl⟩, hafter⟩
  have hmagnitude : Nat.ofDigits 16
      ("_80000000_00000000_00000000_00000000_".toList.filterMap Text.digitValue?).reverse =
        2 ^ 127 := by decide +kernel
  have hvalue : s.value = -2 ^ 127 := congrArg (fun m : Nat => -(m : Int)) hmagnitude
  refine ⟨s, rfl, hvalue, ?_⟩
  rw [parse_text s, hvalue, if_pos (by decide)]

end Spelling

theorem IsNumeral.exists_wordChar {t : Text} {m : Nat} (h : IsNumeral t m) :
    ∃ c r, t = c :: r ∧ Name.isWordChar c = true := by
  obtain @⟨mark, run, suffix, base, hmark, hrun, -⟩ := h
  obtain ⟨d, hd, -⟩ := hrun.some_digit
  obtain ⟨c, r, he, hc⟩ := hmark.exists_head (List.ne_nil_of_mem hd)
  refine ⟨c, r ++ suffix, by rw [← List.append_assoc, he, List.cons_append], ?_⟩
  obtain rfl | ⟨-, rfl, hhead⟩ := hc
  · decide
  · rcases hrun.all c (List.mem_of_head? hhead) with rfl | hdigit
    · decide
    · exact isWordChar_of_isDigit hdigit.isDigit

theorem IsLiteral.exists_parts {t : Text} {v : Int} (h : IsLiteral t v) :
    ∃ g mark g' s p m, IsLayout g ∧ mark ∈ signs ∧ IsLayout g' ∧ IsNumeral s m ∧ IsPadding p ∧
      t = g ++ (mark ++ (g' ++ (s ++ p))) ∧ v = if mark = ['-'] then -(m : Int) else m := by
  cases h with
  | unsigned hg hs hp => exact ⟨_, [], [], _, _, _, hg, by decide, .nil, hs, hp, rfl, rfl⟩
  | positive hg hg' hs hp => exact ⟨_, ['+'], _, _, _, _, hg, by decide, hg', hs, hp, rfl, rfl⟩
  | negative hg hg' hs hp => exact ⟨_, ['-'], _, _, _, _, hg, by decide, hg', hs, hp, rfl, rfl⟩

theorem IsNumeral.exists_spelling {g mark g' t p : Text} {m : Nat} (ht : IsNumeral t m)
    (hhead : (t ++ p).head? ≠ some '_') (hg : IsLayout g) (hmark : mark ∈ signs)
    (hg' : IsLayout g') (hp : IsPadding p) :
    ∃ s : Spelling, s.text = g ++ (mark ++ (g' ++ (t ++ p))) ∧
      s.value = if mark = ['-'] then -(m : Int) else m := by
  obtain @⟨radix, run, suffix, base, hradix, hdigits, hsuffix⟩ := ht
  have hrun : IsRun base radix run := by
    refine ⟨hdigits.all, hdigits.some_digit, ?_⟩
    rintro rfl c hc
    rcases hdigits.all c (List.mem_of_head? hc) with rfl | hd
    · obtain ⟨r, rfl⟩ := List.head?_eq_some_iff.1 hc
      exact absurd rfl hhead
    · exact hd
  let s : Spelling := ⟨g, mark, g', radix, base, run, suffix, p, hg, hmark, hg', hradix, hrun,
    hsuffix, hp⟩
  refine ⟨s, by simp [Spelling.text, s], ?_⟩
  rw [Spelling.value, ← s.numeral_run]

/-- What is read as an integer is digits of one radix with underscores among them, and a spelling
of that integer exactly if no underscore comes first. -/
theorem spelling_iff_of_parse {t : Text} {v : Int} (h : parse t = .ok v) :
    IsLiteral t v ∧ ((∃ s : Spelling, s.text = t ∧ s.value = v) ↔
      (sign (Trivia.skip t)).2.head? ≠ some '_') := by
  have hliteral := isLiteral_of_parse h
  refine ⟨hliteral, ?_, ?_⟩
  · rintro ⟨s, rfl, -⟩ hhead
    obtain ⟨c, r, he, hc⟩ := s.exists_digit
    rw [s.sign_skip_text, he] at hhead
    cases hhead
    exact absurd hc (by decide)
  · intro hhead
    obtain ⟨g, mark, g', n, p, m, hg, hmark, hg', hn, hp, rfl, rfl⟩ := hliteral.exists_parts
    obtain ⟨c, r, rfl, hc⟩ := hn.exists_wordChar
    rw [sign_skip hmark hg hg' (List.cons_append ..) hc] at hhead
    exact hn.exists_spelling hhead hg hmark hg' hp

/-- Digits that an underscore starts only after the mark. -/
theorem spelling_iff_of_parse_hexadecimal :
    let t := "- /* least */ 0x_80i8 // -2^7".toList
    parse t = .ok (-128) ∧ (sign (Trivia.skip t)).2.head? ≠ some '_' ∧
      ∃ s : Spelling, s.text = t ∧ s.value = -128 := by
  intro t
  have hparse : parse t = .ok (-128) := by decide +kernel
  have hhead : (sign (Trivia.skip t)).2.head? ≠ some '_' := by decide +kernel
  exact ⟨hparse, hhead, (spelling_iff_of_parse hparse).2.2 hhead⟩

/-- An identifier of an underscore and a digit is read as a number, but it spells none. -/
theorem parse_identifier :
    let t := "_5".toList
    Name.IsIdentifier t ∧ parse t = .ok 5 ∧ ∀ s : Spelling, s.text ≠ t := by
  refine ⟨⟨⟨'_', ['5'], rfl, by decide⟩, Text.forall_of_all (by decide)⟩, by decide +kernel, ?_⟩
  intro s hs
  obtain ⟨c, r, he, hc⟩ := s.exists_digit
  have hsign := s.sign_skip_text
  rw [hs, he] at hsign
  have hfive : sign (Trivia.skip "_5".toList) = (false, "_5".toList) := by decide +kernel
  rw [hfive] at hsign
  cases (Prod.mk.inj hsign).2
  exact absurd hc (by decide)

end EnumReflection.Literal
