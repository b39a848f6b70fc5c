/-!
# Text and byte offsets

Text is a list of characters. Positions are byte offsets into its UTF-8 form, where a
character takes one to four bytes, so that only some offsets lie between two characters.
`slice?` is strict about that; `seek` rounds an offset up to the next character.
-/
namespace EnumReflection

/-- Text, character by character. -/
abbrev Text := List Char

namespace Text

/-- The number of bytes of the UTF-8 form. -/
def byteLength : Text → Nat
  | [] => 0
  | c :: r => c.utf8Size + byteLength r

/-- The text from a byte offset on, if the offset lies at the start of a character or at the end. -/
def drop? : Nat → Text → Option Text
  | 0, t => some t
  | _ + 1, [] => none
  | n + 1, c :: r => if c.utf8Size ≤ n + 1 then drop? (n + 1 - c.utf8Size) r else none

/-- The text before a byte offset, if the offset lies at the start of a character or at the end. -/
def take? : Nat → Text → Option Text
  | 0, _ => some []
  | _ + 1, [] => none
  | n + 1, c :: r =>
    if c.utf8Size ≤ n + 1 then (take? (n + 1 - c.utf8Size) r).map (c :: ·) else none

/-- The text between two byte offsets, both of which have to lie between characters. -/
def slice? (start stop : Nat) (t : Text) : Option Text :=
  if start ≤ stop then (drop? start t).bind (take? (stop - start)) else none

/-- The character that ends at or spans a byte offset, and the text after it. Past the end no
text is left. -/
def seek (before : Option Char) : Nat → Text → Option Char × Text
  | 0, t => (before, t)
  | _ + 1, [] => (before, [])
  | n + 1, c :: r => seek (some c) (n + 1 - c.utf8Size) r

def join (separator : Text) (pieces : List Text) : Text := separator.intercalate pieces

@[simp] theorem byteLength_nil : byteLength [] = 0 := rfl

@[simp] theorem byteLength_cons (c : Char) (t : Text) :
    byteLength (c :: t) = c.utf8Size + byteLength t := rfl

@[simp] theorem byteLength_append (s t : Text) :
    byteLength (s ++ t) = byteLength s + byteLength t := by
  induction s with
  | nil => simp
  | cons c s ih => simp [ih, Nat.add_assoc]

theorem byteLength_eq_zero {t : Text} : byteLength t = 0 ↔ t = [] := by
  cases t with
  | nil => simp
  | cons c t => simp [Nat.ne_of_gt (Char.utf8Size_pos c)]

@[simp] theorem drop?_zero (t : Text) : drop? 0 t = some t := by cases t <;> rfl

@[simp] theorem take?_zero (t : Text) : take? 0 t = some [] := by cases t <;> rfl

theorem drop?_byteLength_append (s t : Text) : drop? (byteLength s) (s ++ t) = some t := by
  induction s with
  | nil => simp
  | cons c s ih =>
    have hc := Char.utf8Size_pos c
    obtain ⟨n, hn⟩ : ∃ n, c.utf8Size + byteLength s = n + 1 := ⟨_, (Nat.succ_pred (by omega)).symm⟩
    simp only [byteLength_cons, hn, List.cons_append, drop?]
    rw [if_pos (by omega), show n + 1 - c.utf8Size = byteLength s by omega, ih]

theorem take?_byteLength_append (s t : Text) : take? (byteLength s) (s ++ t) = some s := by
  induction s with
  | nil => simp
  | cons c s ih =>
    have hc := Char.utf8Size_pos c
    obtain ⟨n, hn⟩ : ∃ n, c.utf8Size + byteLength s = n + 1 := ⟨_, (Nat.succ_pred (by omega)).symm⟩
    simp only [byteLength_cons, hn, List.cons_append, take?]
    rw [if_pos (by omega), show n + 1 - c.utf8Size = byteLength s by omega, ih, Option.map_some]

theorem slice?_append (s t u : Text) :
    slice? (byteLength s) (byteLength s + byteLength t) (s ++ t ++ u) = some t := by
  simp only [slice?, Nat.le_add_right, if_true, List.append_assoc, drop?_byteLength_append,
    Option.bind_some, Nat.add_sub_cancel_left, take?_byteLength_append]

theorem join_cons_cons (separator s t : Text) (ts : List Text) :
    join separator (s :: t :: ts) = s ++ (separator ++ join separator (t :: ts)) := by
  rw [join, List.intercalate_cons_cons, List.append_assoc]
  rfl

theorem forall_of_all {p : Char → Prop} [DecidablePred p] {t : Text}
    (h : t.all (fun c => decide (p c)) = true) : ∀ c ∈ t, p c := by
  simpa using h

theorem span_append {p : Char → Bool} {s t : Text} (hs : ∀ c ∈ s, p c = true)
    (ht : ∀ c, t.head? = some c → p c = false) :
    (s ++ t).takeWhile p = s ∧ (s ++ t).dropWhile p = t := by
  rw [List.takeWhile_append_of_pos hs, List.dropWhile_append_of_pos hs]
  cases t with
  | nil => simp
  | cons c t =>
    have hc := ht c rfl
    rw [List.takeWhile_cons_of_neg (by simp [hc]), List.dropWhile_cons_of_neg (by simp [hc])]
    simp

@[simp] theorem seek_zero (before : Option Char) (t : Text) : seek before 0 t = (before, t) := by
  cases t <;> rfl

end Text

end EnumReflection
