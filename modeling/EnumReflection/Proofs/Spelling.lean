import EnumReflection.Literal
import EnumReflection.Proofs.Name

/-!
# Spellings of integers

An integer is written with an optional sign, a mark for its radix, digits among which underscores
may stand, and an optional type name, with layout between these parts where it may be. Reading a
spelling gives back the integer if 128 signed bits hold it, and an error that says so otherwise.
-/
namespace EnumReflection.Literal
open Trivia (IsLayout IsPadding)

/-- What announces a radix. -/
inductive IsMark : Text → Nat → Prop
  | decimal : IsMark [] 10
  | hexadecimal {c : Char} : c ∈ ['x', 'X'] → IsMark ['0', c] 16
  | octal {c : Char} : c ∈ ['o', 'O'] → IsMark ['0', c] 8
  | binary {c : Char} : c ∈ ['b', 'B'] → IsMark ['0', c] 2

/-- What may say whether an integer is negative. -/
def signs : List Text := [[], ['+'], ['-']]

def radixLetters : List Char := ['x', 'X', 'o', 'O', 'b', 'B']

def IsDigitOf (base : Nat) (c : Char) : Prop := ∃ d, Text.digitValue? c = some d ∧ d < base

instance (base : Nat) (c : Char) : Decidable (IsDigitOf base c) :=
  decidable_of_iff ((Text.digitValue? c).any (· < base) = true)
    (by simp [IsDigitOf, Option.any_eq_true])

/-- The number that the digits of a text go on to write, underscores apart. -/
def numeral (base acc : Nat) : Text → Nat
  | [] => acc
  | c :: r =>
    match Text.digitValue? c with
    | none => numeral base acc r
    | some d => numeral base (acc * base + d) r

/-- Digits and underscores. Without a mark a digit stands first, and otherwise somewhere. -/
structure IsRun (base : Nat) (mark run : Text) : Prop where
  all : ∀ c ∈ run, c = '_' ∨ IsDigitOf base c
  some_digit : ∃ c ∈ run, IsDigitOf base c
  head : mark = [] → ∀ c, run.head? = some c → IsDigitOf base c

def IsSuffix (t : Text) : Prop := t = [] ∨ ∃ type : IntType, t = type.name

inductive Spells : Text → Nat → Prop
  | plain {mark run : Text} {base : Nat} : IsMark mark base → IsRun base mark run →
      Spells (mark ++ run) (numeral base 0 run)
  | typed {mark run : Text} {base : Nat} (type : IntType) : IsMark mark base →
      IsRun base mark run → Spells (mark ++ run ++ type.name) (numeral base 0 run)

/-- The texts that write an integer, layout included. -/
inductive Writes : Text → Int → Prop
  | unsigned {g t h : Text} {m : Nat} : IsLayout g → Spells t m → IsLayout h →
      Writes (g ++ (t ++ h)) m
  | positive {g g' t h : Text} {m : Nat} : IsLayout g → IsLayout g' → Spells t m → IsLayout h →
      Writes (g ++ '+' :: (g' ++ (t ++ h))) m
  | negative {g g' t h : Text} {m : Nat} : IsLayout g → IsLayout g' → Spells t m → IsLayout h →
      Writes (g ++ '-' :: (g' ++ (t ++ h))) (-m)

/-- A text that can come after the digits of a literal. -/
def EndsRun (t : Text) : Prop := ∀ c, t.head? = some c → c ∈ 'i' :: 'u' :: Trivia.layoutHeads

theorem endsRun_suffix {suffix g : Text} (hsuffix : IsSuffix suffix) (hg : IsPadding g) :
    EndsRun (suffix ++ g) := by
  intro c hc
  rcases hsuffix with rfl | ⟨type, rfl⟩
  · exact List.mem_cons_of_mem _ (List.mem_cons_of_mem _ (hg.head hc))
  · cases type <;> cases hc <;> decide

theorem EndsRun.head {t : Text} (h : EndsRun t) {c : Char} (hc : t.head? = some c) :
    c ≠ '_' ∧ Text.digitValue? c = none ∧ c ∉ radixLetters := by
  have hall : ∀ d ∈ 'i' :: 'u' :: Trivia.layoutHeads,
      d ≠ '_' ∧ Text.digitValue? d = none ∧ d ∉ radixLetters := Text.forall_of_all (by decide)
  exact hall c (h c hc)

theorem isDigit_of_value {c : Char} {d : Nat} (h : Text.digitValue? c = some d) (hd : d < 10) :
    c.isDigit = true := by
  unfold Text.digitValue? at h
  split at h
  · assumption
  split at h
  · cases h
    omega
  split at h
  · cases h
    omega
  · cases h

theorem inRun_of_digit {mark : Text} {base : Nat} (hm : IsMark mark base) {c : Char}
    (h : IsDigitOf base c) : inRun base c = true := by
  obtain ⟨d, hd, hlt⟩ := h
  cases hm with
  | hexadecimal => simp [inRun, hd]
  | decimal => simp [inRun, isDigit_of_value hd hlt]
  | octal => simp [inRun, isDigit_of_value hd (show d < 10 by omega)]
  | binary => simp [inRun, isDigit_of_value hd (show d < 10 by omega)]

theorem inRun_eq_false (base : Nat) {c : Char} (hc : c ≠ '_') (h : Text.digitValue? c = none) :
    inRun base c = false := by
  have hdigit : c.isDigit = false := by
    unfold Text.digitValue? at h
    split at h
    · cases h
    · rename_i hd
      simpa using hd
  simp [inRun, hc, h, hdigit]

theorem inRun_of_isRun {mark run : Text} {base : Nat} (hm : IsMark mark base)
    (h : IsRun base mark run) : ∀ c ∈ run, inRun base c = true := by
  intro c hc
  rcases h.all c hc with rfl | hd
  · simp [inRun]
  · exact inRun_of_digit hm hd

theorem takeWhile_run {mark run : Text} {base : Nat} (hm : IsMark mark base)
    (h : IsRun base mark run) {t : Text} (ht : EndsRun t) :
    (run ++ t).takeWhile (inRun base) = run ∧ (run ++ t).dropWhile (inRun base) = t := by
  apply Text.span_append (inRun_of_isRun hm h)
  intro c hc
  obtain ⟨hne, hvalue, -⟩ := ht.head hc
  exact inRun_eq_false base hne hvalue

def digits (run : Text) : Text := run.filter (· ≠ '_')

theorem numeral_digits (base acc : Nat) (run : Text) :
    numeral base acc (digits run) = numeral base acc run := by
  induction run generalizing acc with
  | nil => rfl
  | cons c run ih =>
    by_cases hc : c = '_'
    · subst hc
      rw [digits, List.filter_cons_of_neg (by simp)]
      exact ih acc
    · rw [digits, List.filter_cons_of_pos (by simpa using hc), numeral, numeral]
      split
      · exact ih _
      · exact ih _

theorem digits_facts {base : Nat} {mark run : Text} (h : IsRun base mark run) :
    digits run ≠ [] ∧ ∀ c ∈ digits run, IsDigitOf base c := by
  constructor
  · obtain ⟨c, hc, d, hd, -⟩ := h.some_digit
    have hmem : c ∈ digits run := by
      refine List.mem_filter.2 ⟨hc, ?_⟩
      have hne : c ≠ '_' := by
        rintro rfl
        have hnone : Text.digitValue? '_' = none := by decide
        rw [hnone] at hd
        cases hd
      simpa using hne
    exact List.ne_nil_of_mem hmem
  · intro c hc
    obtain ⟨hc, hne⟩ := List.mem_filter.1 hc
    rcases h.all c hc with rfl | hd
    · simp at hne
    · exact hd

theorem le_numeral {base : Nat} (hbase : 1 ≤ base) (acc : Nat) (t : Text) :
    acc ≤ numeral base acc t := by
  induction t generalizing acc with
  | nil => exact Nat.le_refl acc
  | cons c t ih =>
    rw [numeral]
    split
    · exact ih acc
    · have hmul : acc ≤ acc * base := Nat.le_mul_of_pos_right acc hbase
      have := ih (acc * base + ‹Nat›)
      omega

theorem accumulate_digits {base : Nat} (hbase : 1 ≤ base) {acc : Nat} {ds : Text}
    (hds : ∀ c ∈ ds, IsDigitOf base c) (hacc : IntType.u128.Contains acc) :
    accumulate base acc ds =
      if IntType.u128.Contains (numeral base acc ds) then .ok (numeral base acc ds)
      else .error .tooLarge := by
  induction ds generalizing acc with
  | nil =>
    rw [numeral, if_pos hacc]
    rfl
  | cons c ds ih =>
    obtain ⟨d, hd, hlt⟩ := hds c (by simp)
    have hnum : numeral base acc (c :: ds) = numeral base (acc * base + d) ds := by
      rw [numeral, hd]
    rw [accumulate, hd, hnum]
    simp only
    rw [if_neg (by omega)]
    by_cases hstep : IntType.u128.Contains (acc * base + d : Nat)
    · rw [if_pos hstep]
      exact ih (fun e he => hds e (by simp [he])) hstep
    · -- The number only grows, so what is too large on the way is too large at the end.
      have hle := le_numeral hbase (acc * base + d) ds
      have hlarge : ¬ IntType.u128.Contains (numeral base (acc * base + d) ds) := by
        have hmin : IntType.u128.min = 0 := rfl
        simp only [IntType.Contains, hmin] at hstep ⊢
        omega
      rw [if_neg hstep, if_neg hlarge]

theorem radix_decimal {t : Text}
    (h : ∀ c r, t = '0' :: c :: r → c ∉ radixLetters) : radix t = (10, t) := by
  unfold radix
  split
  · exact absurd (by simp [radixLetters]) (h _ _ rfl)
  · exact absurd (by simp [radixLetters]) (h _ _ rfl)
  · exact absurd (by simp [radixLetters]) (h _ _ rfl)
  · exact absurd (by simp [radixLetters]) (h _ _ rfl)
  · exact absurd (by simp [radixLetters]) (h _ _ rfl)
  · exact absurd (by simp [radixLetters]) (h _ _ rfl)
  · rfl

theorem not_mem_of_isDigitOf {c : Char} (h : c = '_' ∨ IsDigitOf 10 c) :
    c ∉ radixLetters := by
  have hall : ∀ d ∈ radixLetters, d ≠ '_' ∧ ¬ IsDigitOf 10 d := Text.forall_of_all (by decide)
  intro hmem
  obtain ⟨hne, hdigit⟩ := hall c hmem
  rcases h with rfl | hd
  · exact hne rfl
  · exact hdigit hd

theorem radix_of_mark {mark run t : Text} {base : Nat} (hm : IsMark mark base)
    (h : IsRun base mark run) (ht : EndsRun t) :
    radix (mark ++ (run ++ t)) = (base, run ++ t) := by
  cases hm with
  | decimal =>
    apply radix_decimal
    intro c r he
    rw [List.nil_append] at he
    cases run with
    | nil =>
      obtain ⟨d, hd, -⟩ := h.some_digit
      cases hd
    | cons e run =>
      have hrest : run ++ t = c :: r := (List.cons.inj he).2
      cases run with
      | nil => exact (ht.head (show t.head? = some c by simp [show t = c :: r from hrest])).2.2
      | cons f run =>
        have hf : f = c := (List.cons.inj hrest).1
        exact not_mem_of_isDigitOf (h.all c (by simp [hf]))
  | hexadecimal hc =>
    simp only [List.mem_cons, List.not_mem_nil, or_false] at hc
    rcases hc with rfl | rfl <;> rfl
  | octal hc =>
    simp only [List.mem_cons, List.not_mem_nil, or_false] at hc
    rcases hc with rfl | rfl <;> rfl
  | binary hc =>
    simp only [List.mem_cons, List.not_mem_nil, or_false] at hc
    rcases hc with rfl | rfl <;> rfl

theorem afterSuffix_name (type : IntType) (t : Text) : afterSuffix (type.name ++ t) = t := by
  cases type <;> rfl

theorem afterSuffix_padding {g : Text} (h : IsPadding g) : afterSuffix g = g := by
  have hnone : suffixes.findSome? (List.isPrefixOf? · g) = none := by
    apply List.findSome?_eq_none_iff.2
    intro suffix hs
    cases g with
    | nil =>
      have hall : ∀ s ∈ suffixes, List.isPrefixOf? s ([] : Text) = none := by decide
      exact hall suffix hs
    | cons c g =>
      have hc := h.head rfl
      have hall : ∀ s ∈ suffixes, s.head?.any (· ∉ Trivia.layoutHeads) = true := by decide
      obtain ⟨e, he, hmem⟩ := (Option.any_eq_true _ _).1 (hall suffix hs)
      have hec : e ≠ c := by
        rintro rfl
        exact absurd hc (by simpa using hmem)
      obtain ⟨s, rfl⟩ := List.head?_eq_some_iff.1 he
      simp [List.isPrefixOf?, hec]
  rw [afterSuffix, hnone]
  rfl

theorem afterSuffix_suffix {suffix g : Text} (hsuffix : IsSuffix suffix) (hg : IsPadding g) :
    afterSuffix (suffix ++ g) = g := by
  rcases hsuffix with rfl | ⟨type, rfl⟩
  · exact afterSuffix_padding hg
  · exact afterSuffix_name type g

theorem IsMark.all {mark : Text} {base : Nat} (h : IsMark mark base) :
    ∀ c ∈ mark, c ∈ '0' :: radixLetters := by
  have hletter : ∀ {d : Char}, d ∈ radixLetters → ∀ c ∈ ['0', d], c ∈ '0' :: radixLetters := by
    intro d hd c hc
    simp only [List.mem_cons, List.not_mem_nil, or_false] at hc ⊢
    rcases hc with rfl | rfl
    · exact Or.inl rfl
    · exact Or.inr hd
  cases h with
  | decimal => simp
  | hexadecimal hc => exact hletter (List.mem_append_left ['o', 'O', 'b', 'B'] hc)
  | octal hc =>
    exact hletter (List.mem_append_right ['x', 'X'] (List.mem_append_left ['b', 'B'] hc))
  | binary hc => exact hletter (List.mem_append_right ['x', 'X', 'o', 'O'] hc)

theorem IsMark.one_le {mark : Text} {base : Nat} (h : IsMark mark base) : 1 ≤ base := by
  cases h <;> decide

theorem magnitude_run {mark run suffix g : Text} {base : Nat} (hm : IsMark mark base)
    (h : IsRun base mark run) (hsuffix : IsSuffix suffix) (hg : IsPadding g) (whole : Text) :
    magnitude whole (mark ++ (run ++ (suffix ++ g))) =
      if IntType.u128.Contains (numeral base 0 run) then .ok (numeral base 0 run)
      else .error (.badDigits whole base .tooLarge) := by
  have ht := endsRun_suffix hsuffix hg
  obtain ⟨hne, hdigits⟩ := digits_facts h
  obtain ⟨htake, hdrop⟩ := takeWhile_run hm h ht
  have hzero : IntType.u128.Contains (0 : Nat) := by decide
  have hacc := accumulate_digits hm.one_le hdigits hzero
  rw [numeral_digits] at hacc
  have hcond : ¬ (¬ Trivia.isBlank (afterSuffix (suffix ++ g)) = true ∨ digits run = []) := by
    simp [afterSuffix_suffix hsuffix hg, Trivia.isBlank_padding hg, hne]
  unfold magnitude
  rw [radix_of_mark hm h ht]
  simp only [htake, hdrop]
  rw [← digits, if_neg hcond, hacc]
  split <;> rfl

theorem IsDigitOf.isDigit {c : Char} (h : IsDigitOf 10 c) : c.isDigit = true := by
  obtain ⟨d, hd, hlt⟩ := h
  exact isDigit_of_value hd hlt

theorem IsMark.exists_head {mark run : Text} {base : Nat} (hm : IsMark mark base) (h : run ≠ []) :
    ∃ c r, mark ++ run = c :: r ∧ (c = '0' ∨ mark = [] ∧ base = 10 ∧ run.head? = some c) := by
  cases hm with
  | decimal =>
    obtain ⟨c, r, rfl⟩ := List.exists_cons_of_ne_nil h
    exact ⟨c, r, rfl, Or.inr ⟨rfl, rfl, rfl⟩⟩
  | hexadecimal => exact ⟨'0', _, rfl, Or.inl rfl⟩
  | octal => exact ⟨'0', _, rfl, Or.inl rfl⟩
  | binary => exact ⟨'0', _, rfl, Or.inl rfl⟩

theorem IsRun.exists_digit {mark run : Text} {base : Nat} (hm : IsMark mark base)
    (h : IsRun base mark run) : ∃ c r, mark ++ run = c :: r ∧ c.isDigit = true := by
  obtain ⟨d, hd, -⟩ := h.some_digit
  obtain ⟨c, r, he, rfl | ⟨hmark, rfl, hhead⟩⟩ := hm.exists_head (List.ne_nil_of_mem hd)
  · exact ⟨'0', r, he, by decide⟩
  · exact ⟨c, r, he, (h.head hmark c hhead).isDigit⟩

theorem Spells.exists_parts {t : Text} {m : Nat} (h : Spells t m) :
    ∃ mark run suffix base, IsMark mark base ∧ IsRun base mark run ∧ IsSuffix suffix ∧
      t = mark ++ (run ++ suffix) ∧ m = numeral base 0 run := by
  cases h with
  | plain hm hrun => exact ⟨_, _, [], _, hm, hrun, Or.inl rfl, by simp, rfl⟩
  | typed type hm hrun =>
    exact ⟨_, _, type.name, _, hm, hrun, Or.inr ⟨type, rfl⟩, List.append_assoc _ _ _, rfl⟩

theorem isWordChar_of_isDigit {c : Char} (h : c.isDigit = true) : Name.isWordChar c = true := by
  simp [Name.isWordChar, Char.isAlphanum, h]

theorem sign_skip {mark g g' t r : Text} {c : Char} (hmark : mark ∈ signs) (hg : IsLayout g)
    (hg' : IsLayout g') (ht : t = c :: r) (hc : Name.isWordChar c = true) :
    sign (Trivia.skip (g ++ (mark ++ (g' ++ t)))) = (decide (mark = ['-']), t) := by
  subst ht
  have hskip := Name.skip_of_isWordChar hc r
  rw [Trivia.skip_layout hg]
  simp only [signs, List.mem_cons, List.not_mem_nil, or_false] at hmark
  rcases hmark with rfl | rfl | rfl
  · have hsign : sign (c :: r) = (false, c :: r) := by
      rw [sign.eq_3]
      · rintro _ ⟨⟩
        exact absurd hc (by decide)
      · rintro _ ⟨⟩
        exact absurd hc (by decide)
    rw [List.nil_append, Trivia.skip_layout hg', hskip, hsign]
    rfl
  · rw [List.singleton_append, Trivia.skip_of_plain (by decide) (by decide), sign,
      Trivia.skip_layout hg', hskip]
    rfl
  · rw [List.singleton_append, Trivia.skip_of_plain (by decide) (by decide), sign,
      Trivia.skip_layout hg', hskip]
    rfl

theorem contains_of_withSign {negative : Bool} {m : Nat}
    (h : IntType.i128.Contains (withSign negative m)) : IntType.u128.Contains m := by
  have hsmall : IntType.i128.min = -170141183460469231731687303715884105728 := by decide
  have hlarge : IntType.i128.max = 170141183460469231731687303715884105727 := by decide
  have hzero : IntType.u128.min = 0 := by decide
  have hend : IntType.u128.max = 340282366920938463463374607431768211455 := by decide
  simp only [IntType.Contains, hsmall, hlarge, hzero, hend] at h ⊢
  cases negative with
  | false =>
    simp only [withSign, Bool.false_eq_true, if_false] at h
    omega
  | true =>
    simp only [withSign, if_true] at h
    omega

theorem parse_of_sign {text mark run suffix g : Text} {base : Nat} {negative : Bool}
    (hsign : sign (Trivia.skip text) = (negative, mark ++ (run ++ (suffix ++ g))))
    (hm : IsMark mark base) (h : IsRun base mark run) (hsuffix : IsSuffix suffix)
    (hg : IsPadding g) :
    parse text =
      if IntType.i128.Contains (withSign negative (numeral base 0 run)) then
        .ok (withSign negative (numeral base 0 run))
      else if IntType.u128.Contains (numeral base 0 run) then .error (.outOfRange text)
      else .error (.badDigits text base .tooLarge) := by
  rw [parse, hsign]
  simp only
  rw [magnitude_run hm h hsuffix hg]
  by_cases hmagnitude : IntType.u128.Contains (numeral base 0 run)
  · simp only [if_pos hmagnitude]
  · have hsigned : ¬ IntType.i128.Contains (withSign negative (numeral base 0 run)) :=
      fun hv => hmagnitude (contains_of_withSign hv)
    simp only [if_neg hmagnitude, if_neg hsigned]

theorem parse_of_spells {g mark g' t h : Text} {m : Nat} {v : Int} (hg : IsLayout g)
    (hmark : mark ∈ signs) (hg' : IsLayout g') (ht : Spells t m) (hh : IsLayout h)
    (hv : v = withSign (decide (mark = ['-'])) m) (hfits : IntType.i128.Contains v) :
    parse (g ++ (mark ++ (g' ++ (t ++ h)))) = .ok v := by
  obtain ⟨radix, run, suffix, base, hm, hrun, hsuffix, rfl, rfl⟩ := ht.exists_parts
  obtain ⟨c, r, he, hc⟩ := hrun.exists_digit hm
  have hhead : radix ++ (run ++ suffix) ++ h = c :: (r ++ (suffix ++ h)) := by
    rw [← List.append_assoc radix, he]
    simp
  have hsign := sign_skip hmark hg hg' hhead (isWordChar_of_isDigit hc)
  simp only [List.append_assoc] at hsign ⊢
  subst hv
  rw [parse_of_sign hsign hm hrun hsuffix (.closed hh), if_pos hfits]

/-- The integer that a text writes is read from it. -/
theorem parse_of_writes {t : Text} {v : Int} (h : Writes t v) (hfits : IntType.i128.Contains v) :
    parse t = .ok v := by
  cases h with
  | unsigned hg ht hh =>
    have hmark : [] ∈ signs := by decide
    have hread := parse_of_spells hg hmark .nil ht hh rfl hfits
    rwa [List.nil_append, List.nil_append] at hread
  | positive hg hg' ht hh =>
    have hmark : ['+'] ∈ signs := by decide
    have hread := parse_of_spells hg hmark hg' ht hh rfl hfits
    exact hread
  | negative hg hg' ht hh =>
    have hmark : ['-'] ∈ signs := by decide
    have hread := parse_of_spells hg hmark hg' ht hh rfl hfits
    exact hread

end EnumReflection.Literal
