import EnumReflection.Proofs.Spelling

/-!
# What is read as an integer

Whatever is read as an integer is a literal: a sign or none, a mark for the radix or none, digits of
that radix with underscores among them, and a type name or none, with layout around the sign and the
digits. The value is the number that the digits write. A run without a mark may start with an
underscore, which spellings leave out.
-/
namespace EnumReflection.Literal
open Trivia (IsLayout IsPadding)

structure HasDigits (base : Nat) (run : Text) : Prop where
  all : ∀ c ∈ run, c = '_' ∨ IsDigitOf base c
  some_digit : ∃ c ∈ run, IsDigitOf base c

/-- What is written after the sign of an integer. -/
inductive IsNumeral : Text → Nat → Prop
  | mk {mark run suffix : Text} {base : Nat} : IsMark mark base → HasDigits base run →
      IsSuffix suffix → IsNumeral (mark ++ (run ++ suffix)) (numeral base 0 run)

/-- An integer with layout around it, of which the last comment may be open. -/
inductive IsLiteral : Text → Int → Prop
  | unsigned {g t h : Text} {m : Nat} : IsLayout g → IsNumeral t m → IsPadding h →
      IsLiteral (g ++ (t ++ h)) m
  | positive {g g' t h : Text} {m : Nat} : IsLayout g → IsLayout g' → IsNumeral t m →
      IsPadding h → IsLiteral (g ++ '+' :: (g' ++ (t ++ h))) m
  | negative {g g' t h : Text} {m : Nat} : IsLayout g → IsLayout g' → IsNumeral t m →
      IsPadding h → IsLiteral (g ++ '-' :: (g' ++ (t ++ h))) (-m)

theorem exists_mark (t : Text) : ∃ mark, IsMark mark (radix t).1 ∧ mark ++ (radix t).2 = t := by
  unfold radix
  split
  · exact ⟨_, .hexadecimal (c := 'x') (by decide), rfl⟩
  · exact ⟨_, .hexadecimal (c := 'X') (by decide), rfl⟩
  · exact ⟨_, .octal (c := 'o') (by decide), rfl⟩
  · exact ⟨_, .octal (c := 'O') (by decide), rfl⟩
  · exact ⟨_, .binary (c := 'b') (by decide), rfl⟩
  · exact ⟨_, .binary (c := 'B') (by decide), rfl⟩
  · exact ⟨[], .decimal, rfl⟩

theorem isSuffix_of_mem {t : Text} (h : t ∈ suffixes) : IsSuffix t := by
  have hall : ∀ s ∈ suffixes, s ∈ IntType.all.map IntType.name := by decide
  obtain ⟨type, -, rfl⟩ := List.mem_map.1 (hall t h)
  exact Or.inr ⟨type, rfl⟩

theorem exists_suffix (t : Text) : ∃ suffix, IsSuffix suffix ∧ suffix ++ afterSuffix t = t := by
  cases h : suffixes.findSome? (List.isPrefixOf? · t) with
  | none => exact ⟨[], Or.inl rfl, by simp [afterSuffix, h]⟩
  | some r =>
    obtain ⟨suffix, hmem, hprefix⟩ := List.exists_of_findSome?_eq_some h
    refine ⟨suffix, isSuffix_of_mem hmem, ?_⟩
    rw [afterSuffix, h]
    exact List.isPrefixOf?_eq_some_iff_append_eq.1 hprefix

theorem accumulate_ok {base acc m : Nat} {ds : Text} (h : accumulate base acc ds = .ok m) :
    (∀ c ∈ ds, IsDigitOf base c) ∧ m = numeral base acc ds := by
  induction ds generalizing acc with
  | nil =>
    cases h
    exact ⟨by simp, rfl⟩
  | cons c ds ih =>
    rw [accumulate] at h
    split at h
    · cases h
    rename_i d hd
    split at h
    · cases h
    rename_i hlt
    split at h
    · obtain ⟨hds, hm⟩ := ih h
      constructor
      · intro e he
        rcases List.mem_cons.1 he with rfl | he
        · exact ⟨d, hd, by omega⟩
        · exact hds e he
      · rw [numeral, hd]
        exact hm
    · cases h

theorem exists_numeral {whole t : Text} {m : Nat} (h : magnitude whole t = .ok m) :
    ∃ s g, IsNumeral s m ∧ IsPadding g ∧ t = s ++ g := by
  obtain ⟨mark, hmark, ht⟩ := exists_mark t
  unfold magnitude at h
  generalize radix t = r at hmark ht h
  obtain ⟨base, u⟩ := r
  simp only at hmark ht h
  split at h
  · cases h
  rename_i hcond
  simp only [not_or, not_not] at hcond
  obtain ⟨hblank, hne⟩ := hcond
  cases hacc : accumulate base 0 ((u.takeWhile (inRun base)).filter (· ≠ '_')) with
  | error e => rw [hacc] at h; cases h
  | ok k =>
    rw [hacc] at h
    cases h
    obtain ⟨hdigits, rfl⟩ := accumulate_ok hacc
    obtain ⟨suffix, hsuffix, hrest⟩ := exists_suffix (u.dropWhile (inRun base))
    have hrun : HasDigits base (u.takeWhile (inRun base)) := by
      constructor
      · intro c hc
        by_cases hu : c = '_'
        · exact Or.inl hu
        · exact Or.inr (hdigits c (List.mem_filter.2 ⟨hc, by simpa using hu⟩))
      · obtain ⟨c, ds, hds⟩ := List.exists_cons_of_ne_nil hne
        have hc : c ∈ (u.takeWhile (inRun base)).filter (· ≠ '_') := hds ▸ List.mem_cons_self
        exact ⟨c, (List.mem_filter.1 hc).1, hdigits c hc⟩
    refine ⟨mark ++ (u.takeWhile (inRun base) ++ suffix), afterSuffix (u.dropWhile (inRun base)), ?_,
      Trivia.isPadding_of_isBlank hblank, ?_⟩
    · have hnumeral := IsNumeral.mk hmark hrun hsuffix
      rw [← numeral_digits] at hnumeral
      exact hnumeral
    · rw [← ht, List.append_assoc, List.append_assoc, hrest, List.takeWhile_append_dropWhile]

theorem ne_nil_of_magnitude {whole t : Text} {m : Nat} (h : magnitude whole t = .ok m) : t ≠ [] := by
  rintro rfl
  simp [magnitude, radix] at h

theorem magnitude_of_parse {t : Text} {v : Int} (h : parse t = .ok v) :
    ∃ m, magnitude t (sign (Trivia.skip t)).2 = .ok m ∧ v = withSign (sign (Trivia.skip t)).1 m := by
  unfold parse at h
  simp only at h
  split at h
  · cases h
  · rename_i m hm
    split at h
    · cases h
      exact ⟨m, hm, rfl⟩
    · cases h

/-- What is read as an integer is a literal of that integer. -/
theorem isLiteral_of_parse {t : Text} {v : Int} (h : parse t = .ok v) : IsLiteral t v := by
  obtain ⟨m, hm, rfl⟩ := magnitude_of_parse h
  obtain ⟨s, p, hs, hp, hrest⟩ := exists_numeral hm
  have hne := ne_nil_of_magnitude hm
  cases hskip : Trivia.skip t with
  | nil =>
    rw [hskip] at hne
    exact absurd rfl hne
  | cons c r =>
    obtain ⟨g, hg, ht⟩ := Trivia.exists_layout (t := t) (by simp [hskip])
    rw [hskip] at ht hne hrest
    rw [← ht]
    by_cases hminus : c = '-'
    · subst hminus
      obtain ⟨g', hg', hr⟩ := Trivia.exists_layout (t := r) hne
      have hrest : Trivia.skip r = s ++ p := hrest
      rw [← hr, hrest]
      exact .negative hg hg' hs hp
    by_cases hplus : c = '+'
    · subst hplus
      obtain ⟨g', hg', hr⟩ := Trivia.exists_layout (t := r) hne
      have hrest : Trivia.skip r = s ++ p := hrest
      rw [← hr, hrest]
      exact .positive hg hg' hs hp
    · have hsign : sign (c :: r) = (false, c :: r) := by
        rw [sign.eq_3]
        · exact fun _ he => hminus (List.cons.inj he).1
        · exact fun _ he => hplus (List.cons.inj he).1
      rw [hsign] at hrest ⊢
      have hrest : c :: r = s ++ p := hrest
      rw [hrest]
      exact .unsigned hg hs hp

end EnumReflection.Literal
