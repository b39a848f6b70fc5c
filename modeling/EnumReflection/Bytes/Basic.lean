import EnumReflection.IntType

/-!
# Texts as bytes

The scanners of a declaration move a position over the UTF-8 bytes of a text and cut pieces out of
it at such positions. Here each step is checked: a byte is taken only inside the text, a piece is
cut only between two characters, a counter stays in its type, and a scan moves on. The first check
that fails is the fault that the scan ends with.
-/
namespace EnumReflection

/-- What ends a scan that has no result. -/
inductive Fault
  | outOfBounds
  | insideCharacter
  | belowZero
  | overflow
  | endless
  | tooWide
  deriving DecidableEq, Repr

/-- The result of a scan, or the fault that ends it. -/
abbrev Checked := Except Fault

namespace Bytes

/-- The UTF-8 form of a text. -/
def ofText (t : Text) : List UInt8 := t.flatMap String.utf8EncodeChar

/-- The character that has a byte for its number. An ASCII character has the byte that encodes
it. -/
def character (b : UInt8) : Char := Char.ofNat b.toNat

def byte? (t : Text) (pos : Nat) : Option UInt8 := (ofText t)[pos]?

def byteAt (t : Text) (pos : Nat) : Checked UInt8 :=
  match byte? t pos with
  | some b => .ok b
  | none => .error .outOfBounds

def bytesIn (start stop : Nat) (t : Text) : Checked (List UInt8) :=
  if stop < start ∨ t.byteLength < stop then .error .outOfBounds
  else .ok ((ofText t).extract start stop)

/-- The piece between two positions of a text, both of which have to lie between characters. -/
def slice (start stop : Nat) (t : Text) : Checked Text :=
  if stop < start ∨ t.byteLength < stop then .error .outOfBounds
  else
    match t.slice? start stop with
    | some piece => .ok piece
    | none => .error .insideCharacter

def sliceFrom (start : Nat) (t : Text) : Checked Text := slice start t.byteLength t

def decrement : Nat → Checked Nat
  | 0 => .error .belowZero
  | n + 1 => .ok n

/-- A number that has to fit an integer type. -/
def fit (ty : IntType) (v : Int) : Checked Int :=
  if ty.Contains v then .ok v else .error .overflow

@[simp] theorem ok_bind {α β : Type} (a : α) (f : α → Checked β) :
    (Except.ok a >>= f : Checked β) = f a := rfl

@[simp] theorem pure_eq_ok {α : Type} (a : α) : (pure a : Checked α) = .ok a := rfl

@[simp] theorem map_ok {α β : Type} (f : α → β) (a : α) :
    (f <$> Except.ok a : Checked β) = .ok (f a) := rfl

@[simp] theorem length_ofText (t : Text) : (ofText t).length = t.byteLength := by
  induction t with
  | nil => rfl
  | cons c t ih =>
    rw [Text.byteLength_cons, ← ih, ofText, List.flatMap_cons, List.length_append,
      String.length_utf8EncodeChar]
    rfl

theorem lt_of_byte? {t : Text} {pos : Nat} {b : UInt8} (h : byte? t pos = some b) :
    pos < t.byteLength := by
  obtain ⟨hlt, -⟩ := List.getElem?_eq_some_iff.1 h
  rwa [length_ofText] at hlt

end Bytes

end EnumReflection
