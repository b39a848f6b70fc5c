import EnumReflection.Lexeme

/-!
# Member names

The name of a member is the first identifier of its segment after spaces, comments and
attributes. An attribute is `#[…]` or `#![…]`; brackets nest in it, except inside strings, and
one that never closes takes the rest of the segment. A raw identifier `r#type` names `type`.
-/
namespace EnumReflection.Name

def isWordStart (c : Char) : Bool := c.isAlpha || c == '_'

def isWordChar (c : Char) : Bool := c.isAlphanum || c == '_'

/-- The text after the bracket that closes a group, with a number of groups around it still
open. -/
def afterGroup (enclosing : Nat) : Text → Text
  | [] => []
  | '"' :: r =>
    have := Lexeme.length_stringTail_le r
    afterGroup enclosing (Lexeme.stringTail r).2
  | '[' :: r => afterGroup (enclosing + 1) r
  | ']' :: r =>
    match enclosing with
    | 0 => r
    | n + 1 => afterGroup n r
  | _ :: r => afterGroup enclosing r
termination_by t => t.length

/-- The text after an optional mark and the trivia that follows it. -/
def afterMark (mark : Char) : Text → Text
  | [] => []
  | c :: r => if c = mark then Trivia.skip r else c :: r

/-- The text after the attribute at the head of a text. -/
def afterAttribute? : Text → Option Text
  | '#' :: r =>
    match afterMark '!' (Trivia.skip r) with
    | '[' :: s => some (afterGroup 0 s)
    | _ => none
  | _ => none

theorem afterGroup_suffix (enclosing : Nat) (t : Text) : afterGroup enclosing t <:+ t := by
  fun_induction afterGroup enclosing t with
  | case1 => exact List.suffix_rfl
  | case2 n r _ ih => exact (ih.trans (Lexeme.stringTail_suffix r)).trans (List.suffix_cons _ r)
  | case3 n r ih => exact ih.trans (List.suffix_cons _ r)
  | case4 r => exact List.suffix_cons _ r
  | case5 r n ih => exact ih.trans (List.suffix_cons _ r)
  | case6 n c r _ _ _ ih => exact ih.trans (List.suffix_cons c r)

theorem afterMark_suffix (mark : Char) (t : Text) : afterMark mark t <:+ t := by
  unfold afterMark
  split
  · exact List.suffix_rfl
  · split
    · exact (Trivia.skip_suffix _).trans (List.suffix_cons _ _)
    · exact List.suffix_rfl

theorem afterAttribute?_suffix {t r : Text} (h : afterAttribute? t = some r) :
    ∃ s, r <:+ s ∧ '#' :: s = t := by
  unfold afterAttribute? at h
  split at h
  · rename_i s
    split at h
    · rename_i u hu
      cases h
      have hs : '[' :: u <:+ s := by
        rw [← hu]
        exact (afterMark_suffix '!' _).trans (Trivia.skip_suffix s)
      exact ⟨s, ((afterGroup_suffix 0 u).trans (List.suffix_cons _ u)).trans hs, rfl⟩
    · cases h
  · cases h

theorem length_afterAttribute?_lt {t r : Text} (h : afterAttribute? t = some r) :
    r.length < t.length := by
  obtain ⟨s, hr, rfl⟩ := afterAttribute?_suffix h
  exact Nat.lt_succ_of_le hr.length_le

/-- The text after the trivia and attributes at its head. -/
def afterAttributes (t : Text) : Text :=
  match h : afterAttribute? (Trivia.skip t) with
  | some r =>
    have := Nat.lt_of_lt_of_le (length_afterAttribute?_lt h) (Trivia.length_skip_le t)
    afterAttributes r
  | none => Trivia.skip t
termination_by t.length

theorem afterAttributes_of_some {t r : Text} (h : afterAttribute? (Trivia.skip t) = some r) :
    afterAttributes t = afterAttributes r := by
  rw [afterAttributes]
  split
  · rename_i r' hr'
    rw [h] at hr'
    cases hr'
    rfl
  · rename_i hnone
    rw [h] at hnone
    cases hnone

theorem afterAttributes_of_none {t : Text} (h : afterAttribute? (Trivia.skip t) = none) :
    afterAttributes t = Trivia.skip t := by
  rw [afterAttributes]
  split
  · rename_i r hr
    rw [h] at hr
    cases hr
  · rfl

def word (t : Text) : Text × Text := (t.takeWhile isWordChar, t.dropWhile isWordChar)

/-- The identifier at the head of a text, without the mark of a raw one, and what follows it. -/
def identifier (t : Text) : Text × Text :=
  match word t with
  | (['r'], '#' :: c :: r) =>
    if isWordStart c then word (c :: r) else (['r'], '#' :: c :: r)
  | w => w

/-- The name that a segment declares, and what follows it. -/
def read? (segment : Text) : Option (Text × Text) :=
  match (afterAttributes segment).dropWhile (!isWordStart ·) with
  | [] => none
  | c :: r => some (identifier (c :: r))

def ofSegment? (segment : Text) : Option Text := (read? segment).map (·.1)

def span? (segment : Text) : Option (Nat × Nat) :=
  (read? segment).map fun (name, tail) =>
    let stop := segment.byteLength - tail.byteLength
    (stop - name.byteLength, stop)

theorem afterAttributes_suffix (t : Text) : afterAttributes t <:+ t := by
  fun_induction afterAttributes t with
  | case1 t r h _ ih =>
    obtain ⟨s, hr, hs⟩ := afterAttribute?_suffix h
    have hskip : s <:+ t := (hs ▸ List.suffix_cons '#' s : s <:+ Trivia.skip t).trans
      (Trivia.skip_suffix t)
    exact (ih.trans hr).trans hskip
  | case2 t _ => exact Trivia.skip_suffix t

theorem word_append (t : Text) : (word t).1 ++ (word t).2 = t :=
  List.takeWhile_append_dropWhile

theorem isWordChar_of_start {c : Char} (h : isWordStart c = true) :
    isWordChar c = true := by
  simp only [isWordStart, isWordChar, Char.isAlphanum, Bool.or_eq_true] at h ⊢
  rcases h with h | h
  · exact Or.inl (Or.inl h)
  · exact Or.inr h

theorem word_cons {c : Char} (h : isWordStart c = true) (r : Text) :
    word (c :: r) = (c :: (word r).1, (word r).2) := by
  simp [word, isWordChar_of_start h]

/-- A name starts as an identifier does and holds identifier characters only. -/
structure IsIdentifier (name : Text) : Prop where
  start : ∃ c r, name = c :: r ∧ isWordStart c = true
  all : ∀ c ∈ name, isWordChar c = true

theorem isIdentifier_word {c : Char} (h : isWordStart c = true) (r : Text) :
    IsIdentifier (word (c :: r)).1 where
  start := ⟨c, (word r).1, by rw [word_cons h], h⟩
  all := fun d hd => List.all_eq_true.1 List.all_takeWhile d hd

theorem isIdentifier_identifier {c : Char} (h : isWordStart c = true) (r : Text) :
    IsIdentifier (identifier (c :: r)).1 := by
  unfold identifier
  split
  · rename_i d s hw
    split
    · rename_i hd
      exact isIdentifier_word hd s
    · have := isIdentifier_word h r
      rwa [hw] at this
  · exact isIdentifier_word h r

theorem identifier_suffix (t : Text) : (identifier t).1 ++ (identifier t).2 <:+ t := by
  unfold identifier
  split
  · rename_i d s hw
    have ht : ['r'] ++ '#' :: d :: s = t := by rw [← word_append t, hw]
    split
    · rw [word_append, ← ht]
      exact ⟨['r', '#'], rfl⟩
    · exact ⟨[], ht⟩
  · exact ⟨[], word_append t⟩

theorem read?_eq_some {segment name tail : Text} (h : read? segment = some (name, tail)) :
    IsIdentifier name ∧ name ++ tail <:+ segment := by
  unfold read? at h
  split at h
  · cases h
  · rename_i c r hd
    have hc : isWordStart c = true := by
      have := List.head?_dropWhile_not (!isWordStart ·) (afterAttributes segment)
      rw [hd] at this
      simpa using this
    have hs : c :: r <:+ segment := by
      rw [← hd]
      exact (List.dropWhile_suffix _).trans (afterAttributes_suffix segment)
    have he : identifier (c :: r) = (name, tail) := Option.some.inj h
    have h1 := isIdentifier_identifier hc r
    have h2 := (identifier_suffix (c :: r)).trans hs
    rw [he] at h1 h2
    exact ⟨h1, h2⟩

end EnumReflection.Name
