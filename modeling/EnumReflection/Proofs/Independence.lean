import EnumReflection.Proofs.Body
import EnumReflection.Proofs.Tiling

/-!
# Segments do not depend on one another

A run of neighbouring segments, taken out of its declaration, is split into the same segments. The
splitter looks one lexeme back and one ahead, and a lexeme may look further ahead for its end, so
that two things carry the argument: the lexemes before a comma that separates members are read
alike when the text stops there, and neither that comma nor the end of the text is half of a shift
sign.
-/
namespace EnumReflection

namespace Lexeme
open Trivia (comment?)

theorem closing?_of_self {window : Nat} {t p r : Text} (h : closing? window t = some (p, r))
    (u : Text) : closing? window (p ++ u) = some (p, u) := by
  induction t generalizing window p with
  | nil => cases h
  | cons c t ih =>
    rw [closing?] at h
    split at h
    · cases h
    rename_i hw
    split at h
    · rename_i hc
      cases h
      simp [closing?, hw, hc]
    · rename_i hc
      obtain ⟨⟨p', r'⟩, hp, he⟩ := Option.map_eq_some_iff.1 h
      cases he
      simp [closing?, hw, hc, ih hp]

theorem characterTail?_of_self {t p r : Text} (h : characterTail? t = some (p, r)) (u : Text) :
    characterTail? (p ++ u) = some (p, u) := by
  unfold characterTail? at h
  split at h
  · obtain ⟨⟨p', r'⟩, hp, he⟩ := Option.map_eq_some_iff.1 h
    cases he
    rw [List.cons_append, List.cons_append, characterTail?, closing?_of_self hp]
    rfl
  · rename_i c r hc
    cases h
    rw [List.cons_append, List.cons_append, characterTail?.eq_2]
    · rfl
    · exact fun he => hc he
  · cases h

theorem comment?_of_comma {c : Char} {u p q : Text}
    (h : comment? (c :: (u ++ (p ++ ',' :: q))) = some (c :: u, p ++ ',' :: q)) :
    comment? (c :: (u ++ p)) = some (c :: u, p) := by
  unfold comment? at h
  split at h
  · rename_i r heq
    obtain ⟨hu, hrest⟩ := Prod.mk.inj (Option.some.inj h)
    obtain ⟨rfl, rfl⟩ := List.cons.inj hu
    have inside : ∀ d ∈ r.takeWhile (!Trivia.endsLine ·), (!Trivia.endsLine d) = true :=
      List.all_eq_true.1 List.all_takeWhile
    have stops : ∀ d, p.head? = some d → (!Trivia.endsLine d) = false := by
      intro d hd
      have hhead := List.head?_dropWhile_not (!Trivia.endsLine ·) r
      obtain ⟨p', rfl⟩ := List.head?_eq_some_iff.1 hd
      rw [hrest] at hhead
      simpa using hhead
    obtain ⟨htake, hdrop⟩ := Text.span_append inside stops
    rw [List.cons_append, comment?, htake, hdrop]
  · rename_i r heq
    obtain ⟨hu, hrest⟩ := Prod.mk.inj (Option.some.inj h)
    obtain ⟨rfl, rfl⟩ := List.cons.inj hu
    rcases Trivia.block_cases r with ⟨remark, hno, hr⟩ | ⟨hr, -⟩
    · rw [hr]
      exact Trivia.comment?_block hno p
    · rw [hrest] at hr
      simp at hr
  · cases h

theorem comment?_eq_none_of_comma {c : Char} {p q : Text}
    (h : comment? (c :: (p ++ ',' :: q)) = none) : comment? (c :: p) = none := by
  apply Trivia.comment?_eq_none
  rintro rfl
  cases p with
  | nil => simp
  | cons d p =>
    constructor
    · rintro ⟨⟩
      cases h
    · rintro ⟨⟩
      cases h

theorem next_of_comma {c : Char} {u p q : Text} {l : Lexeme} (hl : l.text = c :: u)
    (h : next c (u ++ (p ++ ',' :: q)) = (l, p ++ ',' :: q)) : next c (u ++ p) = (l, p) := by
  unfold next at h ⊢
  split at h
  · rename_i hc
    obtain ⟨rfl, hrest⟩ := Prod.mk.inj h
    have hu : (stringTail (u ++ (p ++ ',' :: q))).1 = u := (List.cons.inj hl).2
    obtain ⟨s, hs, he⟩ := Segment.exists_quoted (t := u ++ (p ++ ',' :: q)) (by simp [hrest])
    have htail : stringTail (u ++ p) = (u, p) := by
      have hq := Segment.stringTail_quoted hs p
      rw [← hu, he, List.append_assoc]
      exact hq
    rw [if_pos hc, htail, hu]
  rename_i hq
  rw [if_neg hq]
  split at h
  · rename_i hc
    rw [if_pos hc]
    split at h
    · rename_i inside rest htail
      obtain ⟨rfl, rfl⟩ := Prod.mk.inj h
      have hu : inside = u := (List.cons.inj hl).2
      subst hu
      rw [characterTail?_of_self htail p]
    · rename_i htail
      obtain ⟨rfl, hrest⟩ := Prod.mk.inj h
      have hu : u = [] := (List.cons.inj hl).2.symm
      subst hu
      rw [List.nil_append] at htail ⊢
      cases hp : characterTail? p with
      | none => rfl
      | some r =>
        have hlong := characterTail?_of_self (p := r.1) (r := r.2) hp (r.2 ++ ',' :: q)
        have happ := characterTail?_append (p := r.1) (r := r.2) hp
        rw [← List.append_assoc, happ, htail] at hlong
        cases hlong
  · rename_i hc
    rw [if_neg hc]
    split at h
    · rename_i remark rest hcomment
      obtain ⟨rfl, rfl⟩ := Prod.mk.inj h
      have hr : remark = c :: u := hl
      subst hr
      rw [comment?_of_comma hcomment]
    · rename_i hcomment
      obtain ⟨rfl, -⟩ := Prod.mk.inj h
      have hu : u = [] := (List.cons.inj hl).2.symm
      subst hu
      rw [List.nil_append] at hcomment ⊢
      rw [comment?_eq_none_of_comma hcomment]

/-- Lexemes that their text is cut into again. -/
def Lexical (ls : List Lexeme) : Prop := lex (ls.flatMap text) = ls

theorem lexical_lex (t : Text) : Lexical (lex t) := by
  rw [Lexical, flatMap_text_lex]

theorem lexical_cons {l : Lexeme} {ls : List Lexeme} :
    Lexical (l :: ls) ↔ (∃ c u, l.text = c :: u ∧
      next c (u ++ ls.flatMap text) = (l, ls.flatMap text)) ∧ Lexical ls := by
  rw [Lexical, List.flatMap_cons]
  constructor
  · intro h
    cases ht : l.text ++ ls.flatMap text with
    | nil =>
      rw [ht, lex] at h
      cases h
    | cons c r =>
      rw [ht, lex] at h
      obtain ⟨hl, hls⟩ := List.cons.inj h
      have hrest : (next c r).2 = ls.flatMap text := by
        rw [← hls, flatMap_text_lex]
      have hhead := head?_text_next c r
      rw [hl] at hhead
      obtain ⟨u, hu⟩ := List.head?_eq_some_iff.1 hhead
      rw [hu, List.cons_append] at ht
      refine ⟨⟨c, u, hu, ?_⟩, ?_⟩
      · rw [(List.cons.inj ht).2]
        exact Prod.ext hl hrest
      · rw [Lexical, ← hrest, hls]
  · rintro ⟨⟨c, u, hu, hnext⟩, hls⟩
    rw [hu, List.cons_append, lex, hnext]
    exact congrArg (l :: ·) hls

theorem Lexical.of_append_right {ls ls' : List Lexeme} (h : Lexical (ls ++ ls')) : Lexical ls' := by
  induction ls with
  | nil => exact h
  | cons l ls ih => exact ih (lexical_cons.1 h).2

theorem Lexical.of_append_comma {ls ls' : List Lexeme} (h : Lexical (ls ++ .plain ',' :: ls')) :
    Lexical ls := by
  induction ls with
  | nil => simp [Lexical, lex]
  | cons l ls ih =>
    rw [List.cons_append] at h
    obtain ⟨⟨c, u, hu, hnext⟩, hls⟩ := lexical_cons.1 h
    refine lexical_cons.2 ⟨⟨c, u, hu, ?_⟩, ih hls⟩
    have happ : (ls ++ .plain ',' :: ls').flatMap text =
        ls.flatMap text ++ ',' :: ls'.flatMap text := List.flatMap_append
    rw [happ] at hnext
    exact next_of_comma hu hnext

end Lexeme

namespace Segment
open Lexeme (Lexical)

@[simp] theorem turn_before_comma (before : Option Lexeme) (l : Lexeme) :
    turn before l (some (.plain ',')) = turn before l none := by
  cases l with
  | plain c =>
    by_cases hc : c = ','
    · subst hc
      simp [turn]
    · have hne : ¬ Lexeme.plain ',' = Lexeme.plain c := by
        intro h
        cases h
        exact hc rfl
      simp [turn, hne]
  | string t => rfl
  | character t => rfl
  | comment t => rfl

theorem turn_of_follows (before : Option Lexeme) (l : Lexeme) {p r : List Lexeme}
    (hr : r = [] ∨ r.head? = some (.plain ',')) :
    turn before l (p ++ r).head? = turn before l p.head? := by
  cases p with
  | cons m p => rfl
  | nil =>
    rcases hr with rfl | hr
    · rfl
    · rw [List.nil_append, hr, turn_before_comma]
      rfl

theorem split_eq_cons {before : Option Lexeme} {nesting : Int} {ls p : List Lexeme}
    {ps : List (List Lexeme)} (h : split before nesting ls = p :: ps) :
    split before nesting p = [p] ∧ ((ls = p ∧ ps = []) ∨
      ∃ r, ls = p ++ .plain ',' :: r ∧ ps = split none 0 r ∧
        ∀ r', split before nesting (p ++ .plain ',' :: r') = p :: split none 0 r') := by
  induction ls generalizing before nesting p with
  | nil =>
    obtain ⟨rfl, rfl⟩ := List.cons.inj h
    exact ⟨rfl, Or.inl ⟨rfl, rfl⟩⟩
  | cons l ls ih =>
    rw [split] at h
    split at h
    · rename_i hcut
      obtain ⟨rfl, hn⟩ := hcut
      obtain ⟨rfl, rfl⟩ := List.cons.inj h
      refine ⟨rfl, Or.inr ⟨ls, rfl, split_after_comma 0 ls, ?_⟩⟩
      intro r'
      rw [List.nil_append, split, if_pos ⟨rfl, hn⟩, split_after_comma]
    · rename_i hcut
      obtain ⟨p', ps', hsplit⟩ := List.exists_cons_of_ne_nil
        (split_ne_nil (some l) (nesting + turn before l ls.head?) ls)
      rw [hsplit, List.modifyHead_cons] at h
      obtain ⟨rfl, rfl⟩ := List.cons.inj h
      have hfront : ∀ r : List Lexeme, r = [] ∨ r.head? = some (.plain ',') →
          split before nesting (l :: (p' ++ r)) =
            (split (some l) (nesting + turn before l p'.head?) (p' ++ r)).modifyHead (l :: ·) := by
        intro r hr
        rw [split, if_neg hcut, turn_of_follows before l hr]
      have hself := hfront [] (Or.inl rfl)
      rw [List.append_nil] at hself
      obtain ⟨hp, hrest⟩ := ih hsplit
      rcases hrest with ⟨rfl, rfl⟩ | ⟨r, rfl, rfl, hmore⟩
      · exact ⟨by rw [hself, hp]; rfl, Or.inl ⟨rfl, rfl⟩⟩
      · rw [turn_of_follows before l (Or.inr rfl)] at hp hmore
        refine ⟨by rw [hself, hp]; rfl, Or.inr ⟨r, rfl, rfl, ?_⟩⟩
        intro r'
        rw [List.cons_append, hfront _ (Or.inr rfl), hmore]
        rfl

/-- The first pieces of a split are what their own lexemes are split into. -/
theorem split_of_append_left {before : Option Lexeme} {nesting : Int} {ls : List Lexeme}
    {ps qs : List (List Lexeme)} (h : split before nesting ls = ps ++ qs) (hne : ps ≠ []) :
    split before nesting ([Lexeme.plain ','].intercalate ps) = ps := by
  induction ps generalizing before nesting ls with
  | nil => exact absurd rfl hne
  | cons p ps ih =>
    obtain ⟨hp, hrest⟩ := split_eq_cons h
    cases ps with
    | nil =>
      rw [List.intercalate_singleton]
      exact hp
    | cons p' ps =>
      rcases hrest with ⟨-, hnil⟩ | ⟨r, -, hps, hmore⟩
      · cases hnil
      · have hi := ih hps.symm (by simp)
        rw [List.intercalate_cons_cons, List.append_assoc, List.singleton_append, hmore, hi]

theorem split_of_append_right {ls : List Lexeme} {ps qs : List (List Lexeme)}
    (h : split none 0 ls = ps ++ qs) (hne : qs ≠ []) :
    split none 0 ([Lexeme.plain ','].intercalate qs) = qs := by
  induction ps generalizing ls with
  | nil =>
    have hqs : split none 0 ls = qs := h
    rw [← hqs, intercalate_split]
  | cons p ps ih =>
    rcases (split_eq_cons h).2 with ⟨-, hnil⟩ | ⟨r, -, hr, -⟩
    · exact absurd (List.append_eq_nil_iff.1 hnil).2 hne
    · exact ih hr.symm

theorem bodies_join_of_append_left {t : Text} {xs ys : List Text} (h : bodies t = xs ++ ys)
    (hne : xs ≠ []) : bodies (Text.join [','] xs) = xs := by
  obtain ⟨ps, qs, hsplit, rfl, -⟩ := List.map_eq_append_iff.1 h
  have hps : ps ≠ [] := by
    rintro rfl
    exact hne rfl
  have hlexical : Lexical ([Lexeme.plain ','].intercalate ps) := by
    have hwhole := Lexeme.lexical_lex t
    rw [← intercalate_split none 0 (Lexeme.lex t), hsplit] at hwhole
    rcases List.eq_nil_or_concat qs with rfl | ⟨qs', q, rfl⟩
    · rwa [List.append_nil] at hwhole
    · rw [intercalate_append _ hps (by simp)] at hwhole
      exact hwhole.of_append_comma
  have hjoin : Text.join [','] (ps.map (·.flatMap Lexeme.text)) =
      ([Lexeme.plain ','].intercalate ps).flatMap Lexeme.text := by
    rw [flatMap_intercalate]
    rfl
  rw [hjoin, bodies, hlexical, split_of_append_left hsplit hps]

theorem bodies_join_of_append_right {t : Text} {xs ys : List Text} (h : bodies t = xs ++ ys)
    (hne : ys ≠ []) : bodies (Text.join [','] ys) = ys := by
  obtain ⟨r, -, hr⟩ := exists_of_bodies_eq_append h hne
  rw [← hr, join_bodies]

theorem bodies_join_of_infix {t : Text} {ts : List Text} (h : ts <:+: bodies t) (hne : ts ≠ []) :
    bodies (Text.join [','] ts) = ts := by
  obtain ⟨xs, ys, hxy⟩ := h
  rw [List.append_assoc] at hxy
  exact bodies_join_of_append_left (bodies_join_of_append_right hxy.symm (by simp [hne])) hne

/-- A segment of a text that comes after a number of bytes. -/
def shift (n : Nat) (s : Segment) : Segment := ⟨n + s.start, n + s.stop, s.text⟩

theorem map_shift_place (n start : Nat) (ts : List Text) :
    (place start ts).map (shift n) = place (n + start) ts := by
  induction ts generalizing start with
  | nil => rfl
  | cons t ts ih =>
    rw [place, List.map_cons, ih, place, shift]
    simp only [Nat.add_assoc]

theorem place_append (start : Nat) (xs ys : List Text) :
    place start (xs ++ ys) =
      place start xs ++ place (start + Text.byteLength (xs.flatMap (· ++ [',']))) ys := by
  induction xs generalizing start with
  | nil => simp [place]
  | cons x xs ih =>
    have hcomma : Text.byteLength [','] = 1 := rfl
    rw [List.cons_append, place, ih, place, List.flatMap_cons, Text.byteLength_append,
      Text.byteLength_append, hcomma]
    simp only [List.cons_append, Nat.add_assoc]

@[simp] theorem length_place (start : Nat) (ts : List Text) :
    (place start ts).length = ts.length := by
  rw [← List.length_map (f := text), map_text_place]

section
variable {t : Text} {i : Nat} {s : Segment} (h : (segments t)[i]? = some s)
include h

theorem drop_segments :
    ∃ u, t.drop? s.start = some u ∧ (segments t).drop i = (segments u).map (shift s.start) := by
  obtain ⟨xs, ys, hbodies, hlen, ht, hstart, -⟩ := exists_of_getElem?_segments h
  have hjoin : s.text ++ ys.flatMap ([','] ++ ·) = Text.join [','] (s.text :: ys) := by
    have happ := intercalate_append_cons [','] [] s.text ys
    simpa [Text.join] using happ.symm
  have hsplit := bodies_join_of_append_right hbodies (by simp)
  refine ⟨s.text ++ ys.flatMap ([','] ++ ·), ?_, ?_⟩
  · conv_lhs => rw [ht, hstart]
    exact Text.drop?_byteLength_append _ _
  · rw [hjoin, segments, segments, hsplit, map_shift_place, hbodies, place_append, ← hlen,
      List.drop_left' (length_place 0 xs), hstart, Nat.zero_add, Nat.add_zero]

theorem take_segments : ∃ u, t.take? s.stop = some u ∧ segments u = (segments t).take (i + 1) := by
  obtain ⟨xs, ys, hbodies, hlen, ht, -, hstop⟩ := exists_of_getElem?_segments h
  have hrun : bodies t = (xs ++ [s.text]) ++ ys := by
    rw [hbodies, List.append_assoc]
    rfl
  have hjoin : xs.flatMap (· ++ [',']) ++ s.text = Text.join [','] (xs ++ [s.text]) := by
    have happ := intercalate_append_cons [','] xs s.text []
    simpa [Text.join] using happ.symm
  have hsplit := bodies_join_of_append_left hrun (by simp)
  have hcount : (place 0 (xs ++ [s.text])).length = i + 1 := by simp [hlen]
  refine ⟨xs.flatMap (· ++ [',']) ++ s.text, ?_, ?_⟩
  · conv_lhs => rw [ht, hstop, ← List.append_assoc]
    exact Text.take?_byteLength_append _ _
  · rw [hjoin, segments, segments, hsplit, hrun, place_append 0 (xs ++ [s.text]) ys,
      List.take_left' hcount]

/-- The text of a segment is a segment on its own. -/
theorem segments_text : segments s.text = [⟨0, s.text.byteLength, s.text⟩] := by
  obtain ⟨xs, ys, hbodies, -⟩ := exists_of_getElem?_segments h
  have hself : bodies (Text.join [','] [s.text]) = [s.text] := by
    apply bodies_join_of_infix (t := t) _ (by simp)
    rw [hbodies]
    exact ⟨xs, ys, by simp⟩
  rw [Text.join, List.intercalate_singleton] at hself
  rw [segments, hself]
  simp [place]

/-- What one segment holds does not change how those before and after it are split, nor does what
they hold change how it is split. -/
theorem segments_independent :
    (∃ u, t.drop? s.start = some u ∧ (segments t).drop i = (segments u).map (shift s.start)) ∧
    (∃ u, t.take? s.stop = some u ∧ segments u = (segments t).take (i + 1)) ∧
    segments s.text = [⟨0, s.text.byteLength, s.text⟩] :=
  ⟨drop_segments h, take_segments h, segments_text h⟩

end

/-- An apostrophe and half of a shift sign between a stray bracket and a string with a comma. -/
theorem segments_independent_stray :
    (segments "a),'>,>>\",\",b".toList)[1]? = some ⟨3, 5, "'>".toList⟩ ∧
      (∃ u, Text.drop? 3 "a),'>,>>\",\",b".toList = some u ∧
        (segments "a),'>,>>\",\",b".toList).drop 1 = (segments u).map (shift 3)) ∧
      (∃ u, Text.take? 5 "a),'>,>>\",\",b".toList = some u ∧
        segments u = (segments "a),'>,>>\",\",b".toList).take 2) ∧
      segments "'>".toList = [⟨0, 2, "'>".toList⟩] := by
  have h : (segments "a),'>,>>\",\",b".toList)[1]? = some ⟨3, 5, "'>".toList⟩ := by decide +kernel
  exact ⟨h, segments_independent h⟩

end Segment

end EnumReflection
