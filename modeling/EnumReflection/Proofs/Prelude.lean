import EnumReflection.Proofs.Body
import EnumReflection.Proofs.Name

/-!
# What stands before a name

A name is looked for after layout and attributes. If there is one, all of these are closed, since
anything open would have taken the rest of the segment. Between them and the name only characters
are passed over that start no identifier.
-/
namespace EnumReflection.Name
open Segment (Quoted)
open Trivia (IsLayout)

/-- The inside of an attribute: its strings are closed, and its other square brackets match. -/
inductive IsContent : Text → Prop
  | nil : IsContent []
  | plain {c : Char} {t : Text} : c ≠ '"' → c ≠ '[' → c ≠ ']' → IsContent t → IsContent (c :: t)
  | string {s t : Text} : Quoted s → IsContent t → IsContent ('"' :: (s ++ '"' :: t))
  | group {s t : Text} : IsContent s → IsContent t → IsContent ('[' :: (s ++ ']' :: t))

inductive IsAttribute : Text → Prop
  | outer {g t : Text} : IsLayout g → IsContent t → IsAttribute ('#' :: (g ++ '[' :: (t ++ [']'])))
  | inner {g h t : Text} : IsLayout g → IsLayout h → IsContent t →
      IsAttribute ('#' :: (g ++ '!' :: (h ++ '[' :: (t ++ [']']))))

inductive IsPrelude : Text → Prop
  | layout {g : Text} : IsLayout g → IsPrelude g
  | attributed {g a t : Text} : IsLayout g → IsAttribute a → IsPrelude t → IsPrelude (g ++ (a ++ t))

/-- A text that closes a group and a number of groups around it, and what follows. -/
inductive Closes : Nat → Text → Text → Prop
  | last {s r : Text} : IsContent s → Closes 0 (s ++ ']' :: r) r
  | more {n : Nat} {s t r : Text} : IsContent s → Closes n t r → Closes (n + 1) (s ++ ']' :: t) r

theorem IsContent.append {s t : Text} (hs : IsContent s) (ht : IsContent t) : IsContent (s ++ t) := by
  induction hs with
  | nil => exact ht
  | plain hq ho hc _ ih => exact .plain hq ho hc ih
  | string hs _ ih =>
    rw [List.cons_append, List.append_assoc]
    exact .string hs ih
  | group hs _ _ ih =>
    rw [List.cons_append, List.append_assoc]
    exact .group hs ih

theorem IsContent.of_plain {t : Text} (h : ∀ c ∈ t, c ≠ '"' ∧ c ≠ '[' ∧ c ≠ ']') : IsContent t := by
  induction t with
  | nil => exact .nil
  | cons c t ih =>
    obtain ⟨hq, ho, hc⟩ := h c (by simp)
    exact .plain hq ho hc (ih fun d hd => h d (by simp [hd]))

theorem Closes.append_left {n : Nat} {s t r : Text} (hs : IsContent s) (h : Closes n t r) :
    Closes n (s ++ t) r := by
  cases h with
  | last ht =>
    rw [← List.append_assoc]
    exact .last (hs.append ht)
  | more ht h =>
    rw [← List.append_assoc]
    exact .more (hs.append ht) h

theorem afterGroup_nil (n : Nat) : afterGroup n [] = [] := by
  rw [afterGroup]

theorem closes_afterGroup {n : Nat} {t : Text} (h : afterGroup n t ≠ []) :
    Closes n t (afterGroup n t) := by
  fun_induction afterGroup n t with
  | case1 => exact absurd rfl h
  | case2 n r _ ih =>
    have hne : (Lexeme.stringTail r).2 ≠ [] := by
      intro he
      rw [he, afterGroup_nil] at h
      exact h rfl
    obtain ⟨s, hs, he⟩ := Segment.exists_quoted hne
    have happ := Lexeme.stringTail_append r
    rw [he] at happ
    have hstring : IsContent ('"' :: (s ++ '"' :: [])) := .string hs .nil
    have hclosed := (ih h).append_left hstring
    rw [List.cons_append, happ] at hclosed
    exact hclosed
  | case3 n r ih =>
    cases ih h with
    | more hs hclosed =>
      have hgroup := hclosed.append_left (.group hs .nil)
      simpa using hgroup
  | case4 r => exact .last .nil
  | case5 r n ih => exact .more .nil (ih h)
  | case6 n c r hq ho hc ih =>
    have hplain : IsContent [c] := .plain hq ho hc .nil
    exact (ih h).append_left hplain

theorem exists_opening {s u : Text} (h : afterMark '!' (Trivia.skip s) = '[' :: u) :
    (∃ g, IsLayout g ∧ s = g ++ '[' :: u) ∨
      ∃ g g', IsLayout g ∧ IsLayout g' ∧ s = g ++ '!' :: (g' ++ '[' :: u) := by
  cases hskip : Trivia.skip s with
  | nil =>
    rw [hskip, afterMark] at h
    cases h
  | cons c v =>
    obtain ⟨g, hg, hs⟩ := Trivia.exists_layout (t := s) (by simp [hskip])
    rw [hskip, afterMark] at h
    rw [hskip] at hs
    split at h
    · rename_i hc
      obtain ⟨g', hg', hv⟩ := Trivia.exists_layout (t := v) (by simp [h])
      rw [h] at hv
      exact Or.inr ⟨g, g', hg, hg', by rw [← hs, hc, ← hv]⟩
    · exact Or.inl ⟨g, hg, by rw [← hs, h]⟩

theorem exists_attribute {t r : Text} (h : afterAttribute? t = some r) (hr : r ≠ []) :
    ∃ a, IsAttribute a ∧ a ++ r = t := by
  unfold afterAttribute? at h
  split at h
  · rename_i s
    split at h
    · rename_i u hmark
      obtain rfl : afterGroup 0 u = r := Option.some.inj h
      have hclosed := closes_afterGroup hr
      generalize afterGroup 0 u = r at hclosed
      cases hclosed with
      | last hcontent =>
        rcases exists_opening hmark with ⟨g, hg, rfl⟩ | ⟨g, g', hg, hg', rfl⟩
        · exact ⟨_, .outer hg hcontent, by simp⟩
        · exact ⟨_, .inner hg hg' hcontent, by simp⟩
    · cases h
  · cases h

theorem afterAttributes_nil : afterAttributes [] = [] :=
  List.suffix_nil.1 (afterAttributes_suffix [])

/-- What is passed over before a text that goes on is a prelude, and no longer one fits. -/
theorem exists_prelude {t : Text} (h : afterAttributes t ≠ []) :
    ∃ p, IsPrelude p ∧ p ++ afterAttributes t = t ∧
      Trivia.skip (afterAttributes t) = afterAttributes t ∧
      afterAttribute? (afterAttributes t) = none := by
  fun_induction afterAttributes t with
  | case1 t r hr _ ih =>
    have hne : r ≠ [] := by
      rintro rfl
      exact h afterAttributes_nil
    obtain ⟨p, hp, hpr, hsettled⟩ := ih h
    obtain ⟨a, ha, har⟩ := exists_attribute hr hne
    obtain ⟨g, hg, hgt⟩ := Trivia.exists_layout (t := t) (by simp [← har, hne])
    refine ⟨g ++ (a ++ p), .attributed hg ha hp, ?_, hsettled⟩
    rw [List.append_assoc, List.append_assoc, hpr, har, hgt]
  | case2 t hnone =>
    obtain ⟨g, hg, hgt⟩ := Trivia.exists_layout h
    exact ⟨g, .layout hg, hgt, Trivia.skip_skip t, hnone⟩

theorem identifier_cases (t : Text) : ∃ mark, (mark = [] ∨ mark = ['r', '#']) ∧
    mark ++ ((identifier t).1 ++ (identifier t).2) = t := by
  unfold identifier
  split
  · rename_i c r hw
    have happ := word_append t
    rw [hw] at happ
    split
    · refine ⟨['r', '#'], Or.inr rfl, ?_⟩
      rw [word_append]
      exact happ
    · exact ⟨[], Or.inl rfl, happ⟩
  · exact ⟨[], Or.inl rfl, word_append t⟩

/-- The parts of a segment up to and after its name. -/
structure Parts where
  prelude : Text
  skipped : Text
  mark : Text
  name : Text
  tail : Text

def Parts.rest (p : Parts) : Text := p.skipped ++ (p.mark ++ (p.name ++ p.tail))

/-- A segment that is made of its parts. -/
structure HasParts (segment : Text) (p : Parts) : Prop where
  text_eq : segment = p.prelude ++ p.rest
  prelude : IsPrelude p.prelude
  skipped : ∀ c ∈ p.skipped, isWordStart c = false
  mark : p.mark = [] ∨ p.mark = ['r', '#']
  name : IsIdentifier p.name

/-- A name that is read stands after a prelude and characters that start no identifier. -/
theorem exists_parts {segment name tail : Text} (h : read? segment = some (name, tail)) :
    ∃ p, HasParts segment p ∧ p.name = name ∧ p.tail = tail ∧
      Trivia.skip p.rest = p.rest ∧ afterAttribute? p.rest = none := by
  have hname := (read?_eq_some h).1
  unfold read? at h
  split at h
  · cases h
  · rename_i c r hdrop
    have hidentifier : identifier (c :: r) = (name, tail) := Option.some.inj h
    have happ := List.takeWhile_append_dropWhile (p := (!isWordStart ·)) (l := afterAttributes segment)
    rw [hdrop] at happ
    have hne : afterAttributes segment ≠ [] := by
      rw [← happ]
      simp
    obtain ⟨prelude, hprelude, hsegment, hskip, hnone⟩ := exists_prelude hne
    obtain ⟨mark, hmark, hrest⟩ := identifier_cases (c :: r)
    rw [hidentifier] at hrest
    let p : Parts := ⟨prelude, (afterAttributes segment).takeWhile (!isWordStart ·), mark, name, tail⟩
    have hp : p.rest = afterAttributes segment := by
      rw [← happ, ← hrest]
      rfl
    refine ⟨p, ⟨?_, hprelude, ?_, hmark, hname⟩, rfl, rfl, ?_, ?_⟩
    · rw [hp, hsegment]
    · intro d hd
      simpa using List.all_eq_true.1 List.all_takeWhile d hd
    · rw [hp, hskip]
    · rw [hp, hnone]

theorem afterGroup_plain {c : Char} (hq : c ≠ '"') (ho : c ≠ '[') (hc : c ≠ ']') (n : Nat)
    (t : Text) : afterGroup n (c :: t) = afterGroup n t := by
  rw [afterGroup.eq_def]
  split
  · rename_i heq
    cases heq
  · rename_i heq
    cases heq
    exact absurd rfl hq
  · rename_i heq
    cases heq
    exact absurd rfl ho
  · rename_i heq
    cases heq
    exact absurd rfl hc
  · rename_i heq
    cases heq
    rfl

theorem afterGroup_content {s : Text} (h : IsContent s) (n : Nat) (t : Text) :
    afterGroup n (s ++ t) = afterGroup n t := by
  induction h generalizing n t with
  | nil => rfl
  | plain hq ho hc _ ih => rw [List.cons_append, afterGroup_plain hq ho hc, ih]
  | string hs _ ih =>
    rw [List.cons_append, List.append_assoc, List.cons_append, afterGroup,
      Segment.stringTail_quoted hs, ih]
  | group _ _ ihs iht =>
    rw [List.cons_append, List.append_assoc, List.cons_append, afterGroup, ihs, afterGroup, iht]

theorem afterAttribute?_attribute {a : Text} (h : IsAttribute a) (t : Text) :
    afterAttribute? (a ++ t) = some t := by
  have hskip (g : Text) (hg : IsLayout g) {c : Char} (hc : c = '[' ∨ c = '!') (u : Text) :
      Trivia.skip (g ++ c :: u) = c :: u := by
    rw [Trivia.skip_layout hg]
    rcases hc with rfl | rfl <;> exact Trivia.skip_of_plain rfl (by decide)
  have hclose {s : Text} (hs : IsContent s) : afterGroup 0 (s ++ ']' :: t) = t := by
    rw [afterGroup_content hs, afterGroup]
  cases h with
  | @outer g s hg hs =>
    simp only [List.cons_append, List.append_assoc, List.nil_append]
    rw [afterAttribute?, hskip g hg (.inl rfl), afterMark, if_neg (by decide)]
    simp only [hclose hs]
  | @inner g g' s hg hg' hs =>
    simp only [List.cons_append, List.append_assoc, List.nil_append]
    rw [afterAttribute?, hskip g hg (.inr rfl), afterMark, if_pos rfl, hskip g' hg' (.inl rfl)]
    simp only [hclose hs]

theorem skip_attribute {a : Text} (h : IsAttribute a) (t : Text) :
    Trivia.skip (a ++ t) = a ++ t := by
  cases h <;> exact Trivia.skip_of_plain rfl (by decide)

theorem afterAttributes_prelude {p : Text} (h : IsPrelude p) (t : Text) :
    afterAttributes (p ++ t) = afterAttributes t := by
  induction h with
  | layout hg => exact afterAttributes_congr (Trivia.skip_layout hg t)
  | @attributed g a p hg ha _ ih =>
    have hskip : Trivia.skip (g ++ (a ++ p) ++ t) = a ++ (p ++ t) := by
      rw [List.append_assoc, List.append_assoc, Trivia.skip_layout hg, skip_attribute ha]
    rw [afterAttributes_of_some (by rw [hskip]; exact afterAttribute?_attribute ha _), ih]

/-- A prelude does not change which name is read. -/
theorem read?_prelude {p : Text} (h : IsPrelude p) (t : Text) : read? (p ++ t) = read? t := by
  rw [read?, read?, afterAttributes_prelude h]

end EnumReflection.Name
