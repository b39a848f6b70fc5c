import EnumReflection.Proofs.Prelude

/-!
# Where the name of a member stands

A segment that is written as layout and attributes, a name with or without the mark of a raw
identifier, and any tail that does not go on with the name, has that name at its own byte offsets.
Whatever a segment holds, the span that is read is a whole identifier of it; a blank segment has
none.
-/
namespace EnumReflection

namespace Name
open Text (byteLength)

def EndsWord (t : Text) : Prop := ∀ c, t.head? = some c → isWordChar c = false

/-- A segment in which the name stands right after the prelude and nothing goes on with it. A
plain `r` is not followed by what would make it the mark of a raw identifier. -/
structure Declares (segment : Text) (p : Parts) : Prop extends HasParts segment p where
  immediate : p.skipped = []
  ends : EndsWord p.tail
  unmarked : p.mark = [] → p.name = ['r'] → ∀ c r, p.tail = '#' :: c :: r → isWordStart c = false

theorem word_append_of_endsWord {name tail : Text} (hname : IsIdentifier name)
    (htail : EndsWord tail) : word (name ++ tail) = (name, tail) := by
  obtain ⟨htake, hdrop⟩ := Text.span_append hname.all htail
  rw [word, htake, hdrop]

theorem endsWord_word (t : Text) : EndsWord (word t).2 := by
  intro c hc
  have hhead := List.head?_dropWhile_not isWordChar t
  rw [word] at hc
  rw [hc] at hhead
  simpa using hhead

theorem endsWord_identifier (t : Text) : EndsWord (identifier t).2 := by
  unfold identifier
  split
  · rename_i c r hw
    split
    · exact endsWord_word (c :: r)
    · have hends := endsWord_word t
      rwa [hw] at hends
  · exact endsWord_word t

theorem Declares.identifier_eq {segment : Text} {p : Parts} (h : Declares segment p) :
    identifier (p.mark ++ (p.name ++ p.tail)) = (p.name, p.tail) := by
  have hword := word_append_of_endsWord h.name h.ends
  rcases h.mark with hm | hm
  · rw [hm, List.nil_append, identifier, hword]
    split
    · rename_i c r heq
      obtain ⟨hname, htail⟩ := Prod.mk.inj heq
      rw [if_neg (by simp [h.unmarked hm hname c r htail]), hname, htail]
    · rfl
  · obtain ⟨c, r, hname, hc⟩ := h.name.start
    have hmark : word ('r' :: '#' :: (p.name ++ p.tail)) = (['r'], '#' :: (p.name ++ p.tail)) := by
      have hr : IsIdentifier ['r'] := ⟨⟨'r', [], rfl, by decide⟩, Text.forall_of_all (by decide)⟩
      apply word_append_of_endsWord hr
      rintro d ⟨⟩
      decide
    rw [hm]
    simp only [List.cons_append, List.nil_append, identifier, hmark]
    rw [hname, List.cons_append] at hword ⊢
    simp only [hc, if_true, hword]

theorem Declares.read?_eq {segment : Text} {p : Parts} (h : Declares segment p) :
    read? segment = some (p.name, p.tail) := by
  have hidentifier := h.identifier_eq
  obtain ⟨c, r, hrest, hc⟩ : ∃ c r, p.mark ++ (p.name ++ p.tail) = c :: r ∧
      isWordStart c = true := by
    obtain ⟨c, r, hname, hc⟩ := h.name.start
    rcases h.mark with hm | hm
    · exact ⟨c, r ++ p.tail, by rw [hm, hname]; rfl, hc⟩
    · exact ⟨'r', '#' :: (p.name ++ p.tail), by rw [hm]; rfl, by decide⟩
  rw [h.text_eq, read?_prelude h.prelude, Parts.rest, h.immediate, List.nil_append]
  rw [hrest] at hidentifier ⊢
  rw [read?_of_isWordStart hc, hidentifier]

theorem span?_of_read? {before name tail : Text}
    (h : read? (before ++ (name ++ tail)) = some (name, tail)) :
    span? (before ++ (name ++ tail)) = some (byteLength before, byteLength (before ++ name)) := by
  have hstop : byteLength (before ++ (name ++ tail)) - byteLength tail =
      byteLength (before ++ name) := by
    simp only [Text.byteLength_append]
    omega
  have hstart : byteLength (before ++ name) - byteLength name = byteLength before := by
    simp only [Text.byteLength_append]
    omega
  simp only [span?, h, Option.map_some, hstop, hstart]

theorem Declares.span?_eq {segment : Text} {p : Parts} (h : Declares segment p) :
    span? segment =
      some (byteLength (p.prelude ++ p.mark), byteLength (p.prelude ++ p.mark ++ p.name)) := by
  have htext : segment = p.prelude ++ p.mark ++ (p.name ++ p.tail) := by
    rw [h.text_eq, Parts.rest, h.immediate, List.nil_append, List.append_assoc]
  have hread := h.read?_eq
  rw [htext] at hread ⊢
  exact span?_of_read? hread

theorem exists_of_span? {segment : Text} {start stop : Nat} (h : span? segment = some (start, stop)) :
    ∃ before name tail, segment = before ++ (name ++ tail) ∧ start = byteLength before ∧
      stop = byteLength (before ++ name) ∧ IsIdentifier name ∧ EndsWord tail := by
  obtain ⟨⟨name, tail⟩, hread, -⟩ := Option.map_eq_some_iff.1 h
  obtain ⟨hname, before, hbefore⟩ := read?_eq_some hread
  have hends : EndsWord tail := by
    unfold read? at hread
    split at hread
    · cases hread
    · rename_i c r _
      have hidentifier : identifier (c :: r) = (name, tail) := Option.some.inj hread
      have hends := endsWord_identifier (c :: r)
      rwa [hidentifier] at hends
  subst hbefore
  rw [span?_of_read? hread] at h
  obtain ⟨rfl, rfl⟩ := Prod.mk.inj (Option.some.inj h)
  exact ⟨before, name, tail, rfl, rfl, rfl, hname, hends⟩

/-- The span of the declared identifier is found, a found span is always a whole identifier, and
spaces and comments alone have none. -/
theorem span_of_declared :
    (∀ segment p, Declares segment p → span? segment =
      some (byteLength (p.prelude ++ p.mark), byteLength (p.prelude ++ p.mark ++ p.name))) ∧
    (∀ segment start stop, span? segment = some (start, stop) →
      ∃ before name tail, segment = before ++ (name ++ tail) ∧ start = byteLength before ∧
        stop = byteLength (before ++ name) ∧ IsIdentifier name ∧ EndsWord tail) ∧
    (∀ segment, Trivia.IsPadding segment → span? segment = none) := by
  refine ⟨fun _ _ h => h.span?_eq, fun _ _ _ h => exists_of_span? h, ?_⟩
  intro segment h
  rw [span?, read?_of_blank (Trivia.isBlank_padding h)]
  rfl

/-- A raw identifier after an attribute with a bracket in a string and a comment with another
attribute, in front of a letter outside of ASCII. -/
theorem span_of_declared_raw :
    let p : Parts := ⟨"\n#[a = \"]é\"]/*#[*/".toList, [], ['r', '#'], "r".toList, "é = 1".toList⟩
    Declares (p.prelude ++ p.rest) p ∧ span? (p.prelude ++ p.rest) = some (21, 22) := by
  intro p
  have hcontent : IsContent "a = \"]é\"".toList :=
    .append (.of_plain (t := "a = ".toList) (Text.forall_of_all (by decide)))
      (.string (s := "]é".toList) (.plain (by decide) (by decide)
        (.plain (by decide) (by decide) .nil)) .nil)
  have hattribute : IsAttribute "#[a = \"]é\"]".toList := .outer .nil hcontent
  have hcomment : Trivia.IsLayout "/*#[*/".toList :=
    .comment (@Trivia.IsComment.block "#[".toList (by decide)) .nil
  have hdeclares : Declares (p.prelude ++ p.rest) p :=
    { text_eq := rfl
      prelude := .attributed (.space rfl .nil) hattribute (.layout hcomment)
      skipped := by simp [p]
      mark := .inr rfl
      name := ⟨⟨'r', [], rfl, by decide⟩, Text.forall_of_all (by decide)⟩
      immediate := rfl
      ends := by rintro c ⟨⟩; decide
      unmarked := by rintro ⟨⟩ }
  have hspan : (byteLength (p.prelude ++ p.mark), byteLength (p.prelude ++ p.mark ++ p.name)) =
      (21, 22) := by decide
  exact ⟨hdeclares, hspan ▸ span_of_declared.1 _ p hdeclares⟩

end Name

end EnumReflection
