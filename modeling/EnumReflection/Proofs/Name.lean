import EnumReflection.Name
import EnumReflection.Proofs.Layout

/-!
# Names after layout

An identifier that follows layout is the name of its segment, whatever comes after it, unless
that goes on with the identifier or could make it the mark of a raw one.
-/
namespace EnumReflection.Name
open Trivia (IsLayout)

/-- A text that can come after a name. -/
def EndsName (t : Text) : Prop := ∀ c, t.head? = some c → isWordChar c = false ∧ c ≠ '#'

theorem endsName_layout {g : Text} (h : IsLayout g) : EndsName g := by
  intro c hc
  have hall : ∀ d ∈ Trivia.layoutHeads, isWordChar d = false ∧ d ≠ '#' :=
    Text.forall_of_all (by decide)
  exact hall c (Trivia.head_mem_layoutHeads h hc)

theorem endsName_layout_append {g t : Text} (h : IsLayout g) : EndsName (g ++ '=' :: t) := by
  cases g with
  | nil =>
    rintro c ⟨⟩
    decide
  | cons d g => exact fun c hc => endsName_layout h c hc

theorem word_append_of_endsName {name tail : Text} (hname : IsIdentifier name)
    (htail : EndsName tail) : word (name ++ tail) = (name, tail) := by
  obtain ⟨htake, hdrop⟩ := Text.span_append hname.all fun c hc => (htail c hc).1
  rw [word, htake, hdrop]

theorem identifier_append {name tail : Text} (hname : IsIdentifier name) (htail : EndsName tail) :
    identifier (name ++ tail) = (name, tail) := by
  rw [identifier, word_append_of_endsName hname htail]
  split
  · rename_i c r heq
    cases heq
    exact absurd rfl (htail '#' rfl).2
  · rfl

theorem ne_of_isWordChar {c d : Char} (hc : isWordChar c = true) (hd : isWordChar d = false) :
    c ≠ d := by
  rintro rfl
  rw [hc] at hd
  cases hd

theorem skip_of_isWordChar {c : Char} (h : isWordChar c = true) (r : Text) :
    Trivia.skip (c :: r) = c :: r := by
  have hspace : Trivia.isSpace c = false := by
    simp [Trivia.isSpace, ne_of_isWordChar h (show isWordChar ' ' = false by decide),
      ne_of_isWordChar h (show isWordChar '\t' = false by decide),
      ne_of_isWordChar h (show isWordChar '\n' = false by decide),
      ne_of_isWordChar h (show isWordChar '\x0C' = false by decide),
      ne_of_isWordChar h (show isWordChar '\r' = false by decide)]
  exact Trivia.skip_of_plain hspace (ne_of_isWordChar h (by decide))

theorem afterAttributes_of_isWordChar {c : Char} (h : isWordChar c = true) (r : Text) :
    afterAttributes (c :: r) = c :: r := by
  have hskip := skip_of_isWordChar h r
  have hnone : afterAttribute? (c :: r) = none := by
    unfold afterAttribute?
    split
    · rename_i heq
      cases heq
      exact absurd h (by decide)
    · rfl
  rw [afterAttributes_of_none (by rw [hskip, hnone]), hskip]

theorem read?_of_isWordStart {c : Char} (h : isWordStart c = true) (r : Text) :
    read? (c :: r) = some (identifier (c :: r)) := by
  rw [read?, afterAttributes_of_isWordChar (isWordChar_of_start h),
    List.dropWhile_cons_of_neg (by simp [h])]

theorem afterAttributes_congr {s t : Text} (h : Trivia.skip s = Trivia.skip t) :
    afterAttributes s = afterAttributes t := by
  cases hattribute : afterAttribute? (Trivia.skip t) with
  | some r =>
    rw [afterAttributes_of_some hattribute, afterAttributes_of_some (h ▸ hattribute)]
  | none => rw [afterAttributes_of_none hattribute, afterAttributes_of_none (h ▸ hattribute), h]

theorem read?_layout {g name tail : Text} (hg : IsLayout g) (hname : IsIdentifier name)
    (htail : EndsName tail) : read? (g ++ (name ++ tail)) = some (name, tail) := by
  obtain ⟨c, r, rfl, hc⟩ := hname.start
  have hread := read?_of_isWordStart hc (r ++ tail)
  rw [← List.cons_append, identifier_append hname htail] at hread
  rwa [read?, afterAttributes_congr (Trivia.skip_layout hg _)]

end EnumReflection.Name
