import EnumReflection.Trivia

/-!
# Lexemes of a declaration

A declaration is cut into string literals, character literals, comments and single characters.
Only single characters can delimit anything. Every text has exactly one such cut, since a
literal that is not closed has a rule of its own: an open string takes the rest of the text,
and an apostrophe that opens no character literal stands for itself.
-/
namespace EnumReflection

/-- A piece of a declaration: text that delimits nothing, or one character. -/
inductive Lexeme
  | string (t : Text)
  | character (t : Text)
  | comment (t : Text)
  | plain (c : Char)
  deriving DecidableEq, Repr

namespace Lexeme

def text : Lexeme → Text
  | .string t => t
  | .character t => t
  | .comment t => t
  | .plain c => [c]

/-- The inside of a string literal with its closing quote, and what follows it. A backslash
takes the next character with it. -/
def stringTail : Text → Text × Text
  | [] => ([], [])
  | '\\' :: c :: r => (stringTail r).map ('\\' :: c :: ·) id
  | '"' :: r => (['"'], r)
  | c :: r => (stringTail r).map (c :: ·) id

/-- The text through the first apostrophe that starts within a number of bytes, and what
follows it. -/
def closing? (window : Nat) : Text → Option (Text × Text)
  | [] => none
  | c :: r =>
    if window = 0 then none
    else if c = '\'' then some ([c], r)
    else (closing? (window - c.utf8Size) r).map fun p => (c :: p.1, p.2)

/-- The bytes in which an escape and its closing apostrophe have to fit, after the backslash. -/
def escapeWindow : Nat := 10

/-- The inside of a character literal with its closing apostrophe, and what follows it: one
character, or a backslash, a character that never closes, and the text up to a near apostrophe. -/
def characterTail? : Text → Option (Text × Text)
  | '\\' :: c :: r =>
    (closing? (escapeWindow - c.utf8Size) r).map fun p => ('\\' :: c :: p.1, p.2)
  | c :: '\'' :: r => some ([c, '\''], r)
  | _ => none

/-- The lexeme that a character starts, and what follows it. -/
def next (c : Char) (r : Text) : Lexeme × Text :=
  if c = '"' then (.string (c :: (stringTail r).1), (stringTail r).2)
  else if c = '\'' then
    match characterTail? r with
    | some (inside, rest) => (.character (c :: inside), rest)
    | none => (.plain c, r)
  else
    match Trivia.comment? (c :: r) with
    | some (remark, rest) => (.comment remark, rest)
    | none => (.plain c, r)

theorem stringTail_append (t : Text) : (stringTail t).1 ++ (stringTail t).2 = t := by
  fun_induction stringTail t with
  | case1 => rfl
  | case2 c r ih => simp [ih]
  | case3 r => rfl
  | case4 c r _ _ ih => simp [ih]

theorem stringTail_suffix (t : Text) : (stringTail t).2 <:+ t := ⟨_, stringTail_append t⟩

theorem length_stringTail_le (t : Text) : (stringTail t).2.length ≤ t.length :=
  (stringTail_suffix t).length_le

theorem closing?_append {window : Nat} {t p r : Text} (h : closing? window t = some (p, r)) :
    p ++ r = t := by
  induction t generalizing window p with
  | nil => cases h
  | cons c t ih =>
    rw [closing?] at h
    split at h
    · cases h
    split at h
    · cases h; rfl
    · obtain ⟨q, hq, he⟩ := Option.map_eq_some_iff.1 h
      cases he
      simp [ih hq]

theorem characterTail?_append {t p r : Text} (h : characterTail? t = some (p, r)) : p ++ r = t := by
  unfold characterTail? at h
  split at h
  · obtain ⟨q, hq, he⟩ := Option.map_eq_some_iff.1 h
    cases he
    simp [closing?_append hq]
  · cases h; rfl
  · cases h

theorem next_append (c : Char) (r : Text) : (next c r).1.text ++ (next c r).2 = c :: r := by
  unfold next
  split
  · simp [text, stringTail_append]
  split
  · split
    · rename_i h; simp [text, characterTail?_append h]
    · rfl
  · split
    · rename_i h; exact Trivia.comment?_append h
    · rfl

theorem head?_text_next (c : Char) (r : Text) : (next c r).1.text.head? = some c := by
  unfold next
  split
  · rfl
  split
  · split <;> rfl
  · split
    · rename_i h
      have he := Trivia.comment?_append h
      have hn := Trivia.comment?_ne_nil h
      obtain ⟨d, p, rfl⟩ := List.exists_cons_of_ne_nil hn
      cases he
      rfl
    · rfl

theorem length_next_le (c : Char) (r : Text) : (next c r).2.length ≤ r.length := by
  have happ := congrArg List.length (next_append c r)
  have hpos : 0 < (next c r).1.text.length := by
    apply List.length_pos_iff.2
    intro h
    have := head?_text_next c r
    simp [h] at this
  simp only [List.length_append, List.length_cons] at happ
  omega

def first? : Text → Option Lexeme
  | [] => none
  | c :: r => some (next c r).1

def lex : Text → List Lexeme
  | [] => []
  | c :: r =>
    have := length_next_le c r
    (next c r).1 :: lex (next c r).2
termination_by t => t.length

theorem head?_lex (t : Text) : (lex t).head? = first? t := by
  cases t with
  | nil => simp [lex, first?]
  | cons c r => simp [lex, first?]

theorem flatMap_text_lex (t : Text) : (lex t).flatMap text = t := by
  fun_induction lex t with
  | case1 => rfl
  | case2 c r _ ih => rw [List.flatMap_cons, ih, next_append]

end Lexeme

end EnumReflection
