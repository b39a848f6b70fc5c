import EnumReflection.Initializer
import EnumReflection.Proofs.Layout
import EnumReflection.Proofs.Tiling

/-!
# Blank text

Skipping, cutting and naming each read spaces and comments in a way of their own. They agree on
what is blank: what is skipped is blank by itself, also if a comment in it never closes, and blank
text is one segment without a member, a name or a value. Only blank text has no members.
-/
namespace EnumReflection

namespace Trivia

theorem isBlank_of_append_skip {s t : Text} (h : s ++ skip t = t) : isBlank s = true := by
  by_cases hskip : skip t = []
  · rw [hskip, List.append_nil] at h
    rw [h, isBlank, hskip]
    rfl
  · obtain ⟨g, hg, hgt⟩ := exists_layout hskip
    have hs : s = g := List.append_cancel_right (h.trans hgt.symm)
    rw [hs]
    exact isBlank_layout hg

theorem byteLength_append_skip {s t : Text} (h : s ++ skip t = t) : byteLength t = s.byteLength := by
  have hlen := congrArg Text.byteLength h
  rw [Text.byteLength_append] at hlen
  rw [byteLength]
  omega

theorem byteLength_skip (t : Text) : byteLength (skip t) = 0 := by
  rw [byteLength, skip_skip, Nat.sub_self]

end Trivia

/-- A text in which no reader of declarations finds anything. -/
structure DeclaresNothing (t : Text) : Prop where
  comma : Segment.commaFrom t 0 = t.byteLength
  segments : Segment.segments t = [⟨0, t.byteLength, t⟩]
  members : Segment.memberCount t = 0
  name : Name.ofSegment? t = none
  value : Initializer.ofSegment t = .ok none

theorem declaresNothing_of_blank {t : Text} (h : Trivia.isBlank t = true) : DeclaresNothing t where
  comma := by
    have hfrom := Segment.commaFrom_append [] t
    rw [Text.byteLength_nil, List.nil_append, Segment.cut_of_blank _ 0 h] at hfrom
    exact hfrom
  segments := by simp [Segment.segments, Segment.bodies_of_blank h, Segment.place]
  members := by rw [Segment.memberCount, Segment.memberBodies_eq_nil.2 h, List.length_nil]
  name := by rw [Name.ofSegment?, Name.read?_of_blank h, Option.map_none]
  value := by rw [Initializer.ofSegment, Name.read?_of_blank h]

/-- The spaces and comments at the head of any text are blank, and what follows starts with none.
Blank text declares nothing, and only blank text has no members. -/
theorem blank_agreement (t : Text) :
    (∃ skipped rest, t.take? (Trivia.byteLength t) = some skipped ∧
      t.drop? (Trivia.byteLength t) = some rest ∧ skipped ++ rest = t ∧
      Trivia.isBlank skipped = true ∧ Trivia.byteLength rest = 0) ∧
    (Trivia.isBlank t = true → DeclaresNothing t) ∧
    (Segment.memberCount t = 0 → Trivia.isBlank t = true) := by
  refine ⟨?_, declaresNothing_of_blank, ?_⟩
  · obtain ⟨skipped, happ⟩ := Trivia.skip_suffix t
    have hlen := Trivia.byteLength_append_skip happ
    refine ⟨skipped, Trivia.skip t, ?_, ?_, happ, Trivia.isBlank_of_append_skip happ,
      Trivia.byteLength_skip t⟩
    · conv_lhs => rw [hlen, ← happ]
      exact Text.take?_byteLength_append skipped (Trivia.skip t)
    · conv_lhs => rw [hlen, ← happ]
      exact Text.drop?_byteLength_append skipped (Trivia.skip t)
  · intro h
    exact Segment.memberBodies_eq_nil.1 (List.length_eq_zero_iff.1 h)

/-- A closed comment, and an open one that holds commas, quotes and brackets. -/
theorem blank_agreement_open_comment :
    let t : Text := " // A, \"B\n/* 'x', [( \" *".toList
    Trivia.isBlank t = true ∧ DeclaresNothing t := by
  intro t
  have hblank : Trivia.isBlank t = true := by decide +kernel
  exact ⟨hblank, (blank_agreement t).2.1 hblank⟩

end EnumReflection
