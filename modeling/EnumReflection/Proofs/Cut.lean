import EnumReflection.Name
import EnumReflection.Segment

/-!
# Cuts at top-level commas

A declaration is split in one pass over its lexemes, while a reader that keeps a position of its
own cuts one segment after the other off the text. The two agree: the texts of a declaration are
what repeated cuts give, since neither the lexemes nor the nesting after a top-level comma
depend on what stands before it. Blank text holds no such comma, and no name.
-/
namespace EnumReflection.Segment

/-- The texts that follow a cut, past its comma. -/
def following : Text → List Text
  | [] => []
  | _ :: r => bodies r

@[simp] theorem turn_after_comma (l : Lexeme) (after : Option Lexeme) :
    turn (some (.plain ',')) l after = turn none l after := by
  cases l with
  | plain c =>
    by_cases hc : c = ','
    · subst hc
      simp [turn]
    · have hne : ¬ Lexeme.plain ',' = Lexeme.plain c := by
        intro h
        cases h
        exact hc rfl
      simp [turn, hne]
  | string t => rfl
  | character t => rfl
  | comment t => rfl

theorem split_after_comma (nesting : Int) (ls : List Lexeme) :
    split (some (.plain ',')) nesting ls = split none nesting ls := by
  cases ls with
  | nil => rfl
  | cons l ls => simp only [split, turn_after_comma]

theorem eq_of_next_eq_plain {c d : Char} {r : Text} (h : (Lexeme.next c r).1 = .plain d) :
    c = d := by
  have hhead := Lexeme.head?_text_next c r
  rw [h] at hhead
  simpa [Lexeme.text] using hhead.symm

@[simp] theorem next_comma (r : Text) : Lexeme.next ',' r = (.plain ',', r) := by
  simp [Lexeme.next, Trivia.comment?]

theorem map_split_lex (before : Option Lexeme) (nesting : Int) (t : Text) :
    (split before nesting (Lexeme.lex t)).map (·.flatMap Lexeme.text) =
      (cut before nesting t).1 :: following (cut before nesting t).2 := by
  fun_induction cut before nesting t with
  | case1 => simp [Lexeme.lex, split, following]
  | case2 before nesting c r _ l h =>
    obtain ⟨hl, hn⟩ := h
    have hc : c = ',' := eq_of_next_eq_plain hl
    subst hc
    have hlex : Lexeme.lex (',' :: r) = .plain ',' :: Lexeme.lex r := by
      rw [Lexeme.lex, next_comma]
    rw [hlex, split, if_pos ⟨rfl, hn⟩, split_after_comma]
    rfl
  | case3 before nesting c r _ l rest h ih =>
    have hlex : Lexeme.lex (c :: r) = l :: Lexeme.lex rest := by rw [Lexeme.lex]
    rw [hlex, split, if_neg h, Lexeme.head?_lex]
    obtain ⟨p, ps, hp⟩ := List.exists_cons_of_ne_nil
      (split_ne_nil (some l) (nesting + turn before l (Lexeme.first? rest)) (Lexeme.lex rest))
    rw [hp] at ih ⊢
    simp only [List.map_cons, List.cons.injEq] at ih
    simp only [List.modifyHead_cons, List.map_cons, List.flatMap_cons, ih.1, ih.2, Prod.map_fst,
      Prod.map_snd, id]

theorem bodies_eq_cut (t : Text) : bodies t = (cut none 0 t).1 :: following (cut none 0 t).2 :=
  map_split_lex none 0 t

theorem cut_snd (before : Option Lexeme) (nesting : Int) (t : Text) :
    (cut before nesting t).2 = [] ∨ ∃ r, (cut before nesting t).2 = ',' :: r := by
  fun_induction cut before nesting t with
  | case1 => exact Or.inl rfl
  | case2 before nesting c r _ l h =>
    have hc : c = ',' := eq_of_next_eq_plain h.1
    exact Or.inr ⟨r, by rw [hc]⟩
  | case3 before nesting c r _ l rest h ih => exact ih

theorem next_space {c : Char} (hc : Trivia.isSpace c = true) (r : Text) :
    Lexeme.next c r = (.plain c, r) := by
  simp only [Trivia.isSpace, Bool.or_eq_true, beq_iff_eq] at hc
  rcases hc with (((rfl | rfl) | rfl) | rfl) | rfl <;> simp [Lexeme.next, Trivia.comment?]

theorem next_comment {c : Char} {r remark rest : Text}
    (h : Trivia.comment? (c :: r) = some (remark, rest)) :
    Lexeme.next c r = (.comment remark, rest) := by
  have hc := Trivia.eq_slash_of_comment? h
  subst hc
  simp [Lexeme.next, h]

theorem cut_of_blank (before : Option Lexeme) (nesting : Int) {t : Text}
    (h : Trivia.isBlank t = true) : cut before nesting t = (t, []) := by
  have hskip : Trivia.skip t = [] := by simpa [Trivia.isBlank] using h
  clear h
  fun_induction Trivia.skip t generalizing before nesting with
  | case1 => simp [cut]
  | case2 c r hc ih =>
    have hne : ¬ (Lexeme.plain c = Lexeme.plain ',' ∧ nesting ≤ 0) := by
      rintro ⟨he, -⟩
      cases he
      exact absurd hc (by decide)
    rw [cut, next_space hc]
    simp only
    rw [if_neg hne, ih _ _ hskip]
    rfl
  | case3 c r _ remark rest hr _ ih =>
    rw [cut, next_comment hr]
    simp only
    rw [if_neg (by simp), ih _ _ hskip]
    simp only [Prod.map_apply, id, Lexeme.text, Trivia.comment?_append hr]
  | case4 => cases hskip

theorem bodies_of_blank {t : Text} (h : Trivia.isBlank t = true) : bodies t = [t] := by
  rw [bodies_eq_cut, cut_of_blank none 0 h]
  rfl

theorem memberBodies_eq_nil {t : Text} : memberBodies t = [] ↔ Trivia.isBlank t = true := by
  constructor
  · intro h
    unfold memberBodies at h
    split at h
    · rename_i hlast
      obtain ⟨b, bs, hb⟩ := List.exists_cons_of_ne_nil (bodies_ne_nil t)
      rw [hb] at h hlast
      cases bs with
      | nil =>
        have ht := join_bodies t
        rw [hb, Text.join, List.intercalate_singleton] at ht
        rw [← ht]
        simpa [endsBlank] using hlast
      | cons c bs => simp at h
    · exact absurd h (bodies_ne_nil t)
  · intro h
    simp [memberBodies, bodies_of_blank h, endsBlank, h]

theorem drop?_stop_of_place (before : Text) {ts : List Text} {i : Nat} {s : Segment}
    (hs : (place before.byteLength ts)[i]? = some s) (hi : i + 1 < ts.length) :
    (before ++ Text.join [','] ts).drop? (s.stop + 1) =
      some (Text.join [','] (ts.drop (i + 1))) := by
  induction ts generalizing before i with
  | nil => simp at hi
  | cons t ts ih =>
    obtain ⟨u, us, rfl⟩ := List.exists_cons_of_length_pos
      (show 0 < ts.length by simp only [List.length_cons] at hi; omega)
    have hjoin : before ++ Text.join [','] (t :: u :: us) =
        (before ++ t ++ [',']) ++ Text.join [','] (u :: us) := by
      simp [Text.join_cons_cons]
    have hlen : (before ++ t ++ [',']).byteLength = before.byteLength + t.byteLength + 1 := by
      simp only [Text.byteLength_append, Text.byteLength_cons, Text.byteLength_nil]
      rfl
    rw [hjoin]
    cases i with
    | zero =>
      have he : s.stop = before.byteLength + t.byteLength := by
        simp only [place, List.getElem?_cons_zero, Option.some.injEq] at hs
        rw [← hs]
      rw [he, ← hlen, Text.drop?_byteLength_append]
      rfl
    | succ i =>
      simp only [place, List.getElem?_cons_succ] at hs
      apply ih (before ++ t ++ [','])
      · rw [hlen]
        exact hs
      · simpa using hi

theorem drop?_stop {t : Text} {i : Nat} {s : Segment} (hs : (segments t)[i]? = some s)
    (hi : i + 1 < (bodies t).length) :
    t.drop? (s.stop + 1) = some (Text.join [','] ((bodies t).drop (i + 1))) := by
  have h := drop?_stop_of_place [] hs hi
  rwa [List.nil_append, join_bodies] at h

theorem memberBodies_append {t r : Text} {used : List Text} (h : bodies t = used ++ bodies r) :
    memberBodies t = used ++ memberBodies r := by
  have hne := bodies_ne_nil r
  have hlast : endsBlank (bodies t) = endsBlank (bodies r) := by
    rw [h, endsBlank, endsBlank, List.getLast?_append, Option.or_of_isSome (by simpa using hne)]
  unfold memberBodies
  rw [hlast]
  split
  · rw [h, List.dropLast_append_of_ne_nil hne]
  · exact h

end EnumReflection.Segment

namespace EnumReflection.Name

theorem read?_of_blank {t : Text} (h : Trivia.isBlank t = true) : read? t = none := by
  have hskip : Trivia.skip t = [] := by simpa [Trivia.isBlank] using h
  have hafter : afterAttributes t = [] := by
    rw [afterAttributes_of_none (by rw [hskip]; rfl), hskip]
  simp [read?, hafter]

end EnumReflection.Name
