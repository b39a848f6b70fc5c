import EnumReflection.Bytes.Read
import EnumReflection.Proofs.Bytes.Comma
import EnumReflection.Proofs.Bytes.Name
import EnumReflection.Proofs.Numeral

/-!
# Literals over bytes

Integer literals and the values that segments write are read without a fault. A magnitude is
negated as a number of 128 bits, and the least value comes out right although its magnitude is none
of them.
-/
namespace EnumReflection

theorem Text.prefix_of_take? {n : Nat} {t p : Text} (h : take? n t = some p) : p <+: t := by
  induction t generalizing n p with
  | nil =>
    cases n with
    | zero =>
      cases h
      exact List.prefix_rfl
    | succ n => cases h
  | cons c r ih =>
    cases n with
    | zero =>
      cases h
      exact List.nil_prefix
    | succ n =>
      rw [take?] at h
      split at h
      · obtain ⟨q, hq, rfl⟩ := Option.map_eq_some_iff.1 h
        exact (List.prefix_cons_inj c).2 (ih hq)
      · cases h

theorem IntType.wrap_neg_wrap (ty : IntType) (v : Int) : ty.wrap (-ty.wrap v) = ty.wrap (-v) := by
  have hwrap : -ty.wrap v - ty.min = -v - ty.min + ty.count * ((v - ty.min) / ty.count) := by
    rw [wrap, Int.emod_def]
    omega
  rw [wrap, hwrap, Int.add_mul_emod_self_left, ← wrap]

namespace Bytes

theorem afterTrivia_eq (t : Text) : afterTrivia t = .ok (Trivia.skip t) := by
  obtain ⟨pos, hpos, hat⟩ := triviaEnd_at (at_zero t)
  rw [afterTrivia, hpos, ok_bind, hat.sliceFrom_eq]

theorem take?_ascii {a b : Char} (ha : IsAscii a) (hb : IsAscii b) (r : Text) :
    Text.take? 2 (a :: b :: r) = some [a, b] := by
  have htake := Text.take?_byteLength_append [a, b] r
  rwa [Text.byteLength_cons, Text.byteLength_cons, utf8Size_eq_one_iff.2 ha,
    utf8Size_eq_one_iff.2 hb] at htake

theorem sliceFrom_ascii {a b : Char} (ha : IsAscii a) (hb : IsAscii b) (r : Text) :
    sliceFrom 2 (a :: b :: r) = .ok r :=
  (((at_zero (a :: b :: r)).cons_ascii ha).cons_ascii hb).sliceFrom_eq

theorem radix_eq (t : Text) : radix t = .ok (Literal.radix t) := by
  unfold Literal.radix
  split
  any_goals
    unfold radix
    rw [take?_ascii, sliceFrom_ascii]
    · rfl
    all_goals decide
  rename_i hx hX ho hO hb hB
  unfold radix
  split
  any_goals
    rename_i htake
    obtain ⟨r, rfl⟩ := Text.prefix_of_take? htake
    first
      | exact (hx r rfl).elim
      | exact (hX r rfl).elim
      | exact (ho r rfl).elim
      | exact (hO r rfl).elim
      | exact (hb r rfl).elim
      | exact (hB r rfl).elim
  rfl

theorem isAscii_of_inRun {base : Nat} {c : Char} (h : Literal.inRun base c = true) : IsAscii c := by
  by_contra hascii
  have hunderscore : c ≠ '_' := by
    rintro rfl
    exact hascii (by decide)
  have hdigit : ¬ c.isDigit = true := fun hd =>
    hascii (isAscii_of_isWordChar (Literal.isWordChar_of_isDigit hd))
  have hnone : Text.digitValue? c = none := by
    rw [IsAscii] at hascii
    rw [Text.digitValue?, if_neg hdigit, if_neg (by omega), if_neg (by omega)]
  rw [Literal.inRun_eq_false base hunderscore hnone] at h
  cases h

theorem runLength_eq (base : Nat) (t : Text) :
    runLength base t = Text.byteLength (t.takeWhile (Literal.inRun base)) := by
  have hclass : IsAsciiClass (Literal.inRun base) := isAsciiClass_of_imp fun _ => isAscii_of_inRun
  induction t with
  | nil => rfl
  | cons c r ih =>
    rw [List.takeWhile_cons]
    by_cases hc : Literal.inRun base c = true
    · have hascii := isAscii_of_inRun hc
      rw [if_pos hc, runLength, ofText_cons, utf8EncodeChar_of_isAscii hascii, List.singleton_append,
        List.findIdx_cons, character_toUInt8 hascii, hc, Text.byteLength_cons, ← ih,
        utf8Size_eq_one_iff.2 hascii, Nat.add_comm]
      rfl
    · obtain ⟨b, hb, hleads⟩ := (at_zero (c :: r)).exists_byte?
      obtain ⟨bs, hbs⟩ : ∃ bs, ofText (c :: r) = b :: bs := by
        rw [byte?] at hb
        cases hbytes : ofText (c :: r) with
        | nil =>
          rw [hbytes] at hb
          cases hb
        | cons b' bs =>
          rw [hbytes] at hb
          cases hb
          exact ⟨bs, rfl⟩
      rw [if_neg hc, runLength, hbs, List.findIdx_cons, hleads.class_eq hclass,
        Bool.eq_false_iff.2 hc]
      rfl

theorem underscore_of_run (base : Nat) (t : Text) :
    (List.isPrefixOf? ['_'] (t.dropWhile (Literal.inRun base))).getD
      (t.dropWhile (Literal.inRun base)) = t.dropWhile (Literal.inRun base) := by
  cases hrest : t.dropWhile (Literal.inRun base) with
  | nil => rfl
  | cons c r =>
    have hhead := List.head?_dropWhile_not (Literal.inRun base) t
    rw [hrest, List.head?_cons] at hhead
    have hc : ('_' == c) = false := by
      rw [beq_eq_false_iff_ne]
      rintro rfl
      exact absurd hhead (by simp [Literal.inRun])
    simp [List.isPrefixOf?, hc]

theorem magnitude_eq (whole rest : Text) :
    magnitude whole rest = .ok (Literal.magnitude whole rest) := by
  rw [magnitude, radix_eq, ok_bind, Literal.magnitude]
  generalize Literal.radix rest = p
  obtain ⟨base, t⟩ := p
  have hat : At t 0 (t.takeWhile (Literal.inRun base) ++ t.dropWhile (Literal.inRun base)) := by
    rw [List.takeWhile_append_dropWhile]
    exact at_zero t
  have hend : At t (runLength base t) (t.dropWhile (Literal.inRun base)) := by
    have hafter := hat.append
    rwa [Nat.zero_add, ← runLength_eq] at hafter
  dsimp only
  rw [hat.slice_eq hend, ok_bind, hend.sliceFrom_eq, ok_bind, underscore_of_run, isBlank_eq, ok_bind]
  simp only [Bool.not_eq_true', ← Bool.not_eq_true]
  rfl

theorem lt_limit_iff (negative : Bool) (m : Nat) :
    (if negative then IntType.i128.max + 1 else IntType.i128.max) < m ↔
      ¬ IntType.i128.Contains (Literal.withSign negative m) := by
  have hmin : IntType.i128.min = -170141183460469231731687303715884105728 := by decide
  have hmax : IntType.i128.max = 170141183460469231731687303715884105727 := by decide
  rw [IntType.Contains, Literal.withSign, hmin, hmax]
  cases negative with
  | true =>
    rw [if_pos rfl, if_pos rfl]
    omega
  | false =>
    rw [if_neg Bool.false_ne_true, if_neg Bool.false_ne_true]
    omega

theorem wrap_withSign {negative : Bool} {m : Nat}
    (h : IntType.i128.Contains (Literal.withSign negative m)) :
    (if negative then IntType.i128.wrap (-IntType.i128.wrap m) else IntType.i128.wrap m) =
      Literal.withSign negative m := by
  unfold Literal.withSign at h ⊢
  cases negative with
  | true =>
    rw [if_pos rfl] at h ⊢
    rw [if_pos rfl, IntType.wrap_neg_wrap, IntType.wrap_eq_self h]
  | false =>
    rw [if_neg Bool.false_ne_true] at h ⊢
    rw [if_neg Bool.false_ne_true, IntType.wrap_eq_self h]

theorem withSign_eq (negative : Bool) (whole : Text) (m : Nat) :
    withSign negative whole m =
      if IntType.i128.Contains (Literal.withSign negative m) then
        .ok (Literal.withSign negative m)
      else .error (.outOfRange whole) := by
  rw [withSign]
  by_cases h : IntType.i128.Contains (Literal.withSign negative m)
  · have hlimit := mt (lt_limit_iff negative m).1 (not_not_intro h)
    rw [if_neg hlimit, if_pos h]
    dsimp only
    rw [wrap_withSign h]
  · rw [if_pos ((lt_limit_iff negative m).2 h), if_neg h]

theorem bind_withSign (negative : Bool) (whole : Text) (m : Except LiteralError Nat) :
    m.bind (withSign negative whole) =
      match m with
      | .error e => .error e
      | .ok m =>
        if IntType.i128.Contains (Literal.withSign negative m) then
          .ok (Literal.withSign negative m)
        else .error (.outOfRange whole) := by
  cases m with
  | error e => rfl
  | ok m => exact withSign_eq negative whole m

theorem sign_of_plain {t : Text} (hminus : t.head? ≠ some '-') (hplus : t.head? ≠ some '+') :
    Literal.sign t = (false, t) := by
  unfold Literal.sign
  split
  · exact absurd rfl hminus
  · exact absurd rfl hplus
  · rfl

/-- A literal is read without a fault from every text. -/
theorem literal_eq (t : Text) : literal t = .ok (Literal.parse t) := by
  rw [literal, afterTrivia_eq, ok_bind, Literal.parse]
  generalize Trivia.skip t = rest
  have hfirst {d : Char} (hd : IsAscii d) := (at_zero rest).byte?_eq_iff hd
  have hcut {c : Char} {r : Text} (hc : IsAscii c) : sliceFrom 1 (c :: r) = .ok r :=
    ((at_zero (c :: r)).cons_ascii hc).sliceFrom_eq
  by_cases hminus : rest.head? = some '-'
  · have hbyte := (hfirst (by decide)).2 hminus
    obtain ⟨r, rfl⟩ := List.head?_eq_some_iff.1 hminus
    rw [if_pos (.inl hbyte), hcut (by decide), ok_bind, afterTrivia_eq, ok_bind, magnitude_eq,
      ok_bind, hbyte, beq_self_eq_true, bind_withSign]
    rfl
  have hminus' := mt (hfirst (by decide)).1 hminus
  by_cases hplus : rest.head? = some '+'
  · have hbyte := (hfirst (by decide)).2 hplus
    obtain ⟨r, rfl⟩ := List.head?_eq_some_iff.1 hplus
    rw [if_pos (.inr hbyte), hcut (by decide), ok_bind, afterTrivia_eq, ok_bind, magnitude_eq,
      ok_bind, beq_eq_false_iff_ne.2 hminus', bind_withSign]
    rfl
  · have hplus' := mt (hfirst (by decide)).1 hplus
    rw [if_neg (not_or.2 ⟨hminus', hplus'⟩), magnitude_eq, ok_bind, bind_withSign,
      sign_of_plain hminus hplus]
    rfl

theorem afterName_eq (tail : Text) : afterName tail = .ok (Initializer.afterName tail) := by
  rw [afterName, afterTrivia_eq, ok_bind, Initializer.afterName]
  have hskip := Trivia.skip_skip tail
  generalize Trivia.skip tail = rest at hskip ⊢
  split
  · rename_i r
    dsimp only
    rw [literal_eq, ok_bind, if_pos rfl]
    cases Literal.parse r <;> rfl
  · rename_i hne
    rw [isBlank_eq, ok_bind, Trivia.isBlank, hskip]
    cases rest with
    | nil => rfl
    | cons c r =>
      have hc : ¬ c = '=' := fun hc => hne r (by rw [hc])
      dsimp only
      rw [if_neg hc]
      rfl

theorem writtenValue_eq (t : Text) : writtenValue t = .ok (Initializer.ofSegment t) := by
  have hspan := span?_at t
  rw [Initializer.ofSegment, writtenValue]
  cases hread : Name.read? t with
  | none =>
    rw [hread] at hspan
    rw [hspan]
    rfl
  | some p =>
    rw [hread] at hspan
    obtain ⟨start, stop, hspan, -, hstop⟩ := hspan
    rw [hspan, ok_bind]
    dsimp only
    rw [hstop.sliceFrom_eq, ok_bind, afterName_eq]

theorem writtenFrom_eq (index : Nat) (ss : List Text) :
    writtenFrom index ss = .ok (Initializer.ofSegments index ss) := by
  induction ss generalizing index with
  | nil => rfl
  | cons s ss ih =>
    rw [writtenFrom, writtenValue_eq, ok_bind, Initializer.ofSegments]
    cases Initializer.ofSegment s with
    | error e => rfl
    | ok v =>
      dsimp only
      rw [ih]
      rfl

end Bytes

end EnumReflection
