import EnumReflection.Text.Basic

/-!
# Trivia: spaces and comments

Spaces and comments between the parts of a declaration carry no meaning. A line comment stops
before the end of its line; a block comment does not nest, and one without an end takes the
rest of the text. `skip` leaves the first character that is neither, or nothing.
-/
namespace EnumReflection.Trivia

/-- The spaces of a declaration, all of them ASCII. -/
def isSpace (c : Char) : Bool := c == ' ' || c == '\t' || c == '\n' || c == '\x0C' || c == '\r'

/-- The characters that end a line. -/
def endsLine (c : Char) : Bool := c == '\n' || c == '\r'

/-- The inside of a block comment with its end mark, and what follows it. -/
def block : Text → Text × Text
  | [] => ([], [])
  | '*' :: '/' :: r => (['*', '/'], r)
  | c :: r => (block r).map (c :: ·) id

/-- The comment at the head of a text, and what follows it. -/
def comment? : Text → Option (Text × Text)
  | '/' :: '/' :: r => some ('/' :: '/' :: r.takeWhile (!endsLine ·), r.dropWhile (!endsLine ·))
  | '/' :: '*' :: r => some ('/' :: '*' :: (block r).1, (block r).2)
  | _ => none

theorem comment?_eq_none {c : Char} {r : Text}
    (h : c = '/' → r.head? ≠ some '/' ∧ r.head? ≠ some '*') : comment? (c :: r) = none := by
  unfold comment?
  split
  · rename_i heq
    cases heq
    exact absurd rfl (h rfl).1
  · rename_i heq
    cases heq
    exact absurd rfl (h rfl).2
  · rfl

theorem eq_slash_of_comment? {c : Char} {r : Text} {p : Text × Text}
    (h : comment? (c :: r) = some p) : c = '/' := by
  by_cases hc : c = '/'
  · exact hc
  · rw [comment?_eq_none fun he => absurd he hc] at h
    cases h

theorem block_append (t : Text) : (block t).1 ++ (block t).2 = t := by
  fun_induction block t with
  | case1 => rfl
  | case2 r => rfl
  | case3 c r _ ih => simp [ih]

theorem comment?_append {t c r : Text} (h : comment? t = some (c, r)) : c ++ r = t := by
  unfold comment? at h
  split at h
  · cases h; simp [List.takeWhile_append_dropWhile]
  · cases h; simp [block_append]
  · cases h

theorem comment?_ne_nil {t c r : Text} (h : comment? t = some (c, r)) : c ≠ [] := by
  unfold comment? at h
  split at h <;> cases h <;> simp

theorem comment?_length {t c r : Text} (h : comment? t = some (c, r)) : r.length < t.length := by
  have := List.length_pos_iff.2 (comment?_ne_nil h)
  rw [← comment?_append h, List.length_append]
  omega

/-- The text after the spaces and comments at its head. -/
def skip : Text → Text
  | [] => []
  | c :: r =>
    if isSpace c then skip r
    else
      match h : comment? (c :: r) with
      | some (_, rest) =>
        have : rest.length < r.length + 1 := comment?_length h
        skip rest
      | none => c :: r
termination_by t => t.length

def byteLength (t : Text) : Nat := t.byteLength - (skip t).byteLength

def isBlank (t : Text) : Bool := (skip t).isEmpty

theorem skip_suffix (t : Text) : skip t <:+ t := by
  fun_induction skip t with
  | case1 => exact List.suffix_rfl
  | case2 c r _ ih => exact ih.trans (List.suffix_cons c r)
  | case3 c r _ d rest h _ ih => exact ih.trans ⟨d, comment?_append h⟩
  | case4 c r _ _ => exact List.suffix_rfl

theorem length_skip_le (t : Text) : (skip t).length ≤ t.length := (skip_suffix t).length_le

@[simp] theorem skip_nil : skip [] = [] := by simp [skip]

theorem skip_space {c : Char} (h : isSpace c = true) (t : Text) : skip (c :: t) = skip t := by
  rw [skip, if_pos h]

theorem skip_of_comment? {t remark rest : Text} (h : comment? t = some (remark, rest)) :
    skip t = skip rest := by
  cases t with
  | nil => cases h
  | cons c r =>
    have hc : ¬ isSpace c = true := by
      rw [eq_slash_of_comment? h]
      decide
    rw [skip, if_neg hc]
    split
    · rename_i d rest' h'
      rw [h] at h'
      cases h'
      rfl
    · rename_i h'
      rw [h] at h'
      cases h'

theorem skip_of_none {c : Char} {r : Text} (hc : ¬ isSpace c = true)
    (h : comment? (c :: r) = none) : skip (c :: r) = c :: r := by
  rw [skip, if_neg hc]
  split
  · rename_i h'
    rw [h] at h'
    cases h'
  · rfl

theorem skip_skip (t : Text) : skip (skip t) = skip t := by
  fun_induction skip t with
  | case1 => simp
  | case2 c r _ ih => exact ih
  | case3 c r _ d rest h _ ih => exact ih
  | case4 c r hs hc => exact skip_of_none hs hc

theorem isBlank_nil : isBlank [] = true := by simp [isBlank]

end EnumReflection.Trivia
