import EnumReflection.Text.Decimal
import EnumReflection.Text.Quoted

/-!
# JSON values and their text

Values are written on one line or indented by two spaces a level. Only what must be escaped
inside a string is: the quote, the backslash and the control characters below the space.
-/
namespace EnumReflection

/-- A JSON value whose numbers are integers and whose objects keep the order of their fields. -/
inductive Json
  | null
  | number (n : Int)
  | string (t : Text)
  | array (items : List Json)
  | object (fields : List (Text × Json))

namespace Json

/-- The control characters with an escape of their own, each with its letter. -/
def letters : List (Char × Char) :=
  [('"', '"'), ('\\', '\\'), ('\x08', 'b'), ('\x0C', 'f'), ('\n', 'n'), ('\r', 'r'), ('\t', 't')]

def escape (c : Char) : Text :=
  match letters.lookup c with
  | some letter => ['\\', letter]
  | none =>
    if c.toNat < 0x20 then
      ['\\', 'u', '0', '0', Nat.digitChar (c.toNat / 16), Nat.digitChar (c.toNat % 16)]
    else [c]

def quote (t : Text) : Text := '"' :: t.flatMap escape ++ ['"']

/-- What stands between the parts of an array or object. -/
structure Layout where
  /-- What starts an item at a depth. -/
  newline : Nat → Text
  /-- What separates a key from its value. -/
  colon : Text

/-- Everything on one line, without spaces. -/
def Layout.compact : Layout := ⟨fun _ => [], [':']⟩

/-- One item a line, two spaces a level. -/
def Layout.pretty : Layout := ⟨fun depth => '\n' :: List.replicate (2 * depth) ' ', [':', ' ']⟩

mutual

/-- The text of a value at a depth. Empty arrays and objects stay on one line. -/
def write (layout : Layout) (depth : Nat) : Json → Text
  | .null => ['n', 'u', 'l', 'l']
  | .number n => Text.signedDecimal n
  | .string t => quote t
  | .array [] => ['[', ']']
  | .array (v :: vs) =>
    '[' :: layout.newline (depth + 1) ++ write layout (depth + 1) v ++
      writeItems layout (depth + 1) vs ++ layout.newline depth ++ [']']
  | .object [] => ['{', '}']
  | .object ((k, v) :: fs) =>
    '{' :: layout.newline (depth + 1) ++ quote k ++ layout.colon ++
      write layout (depth + 1) v ++ writeFields layout (depth + 1) fs ++
      layout.newline depth ++ ['}']

def writeItems (layout : Layout) (depth : Nat) : List Json → Text
  | [] => []
  | v :: vs => ',' :: layout.newline depth ++ write layout depth v ++ writeItems layout depth vs

def writeFields (layout : Layout) (depth : Nat) : List (Text × Json) → Text
  | [] => []
  | (k, v) :: fs =>
    ',' :: layout.newline depth ++ quote k ++ layout.colon ++ write layout depth v ++
      writeFields layout depth fs

end

def compact (v : Json) : Text := write .compact 0 v

def pretty (v : Json) : Text := write .pretty 0 v

end Json

end EnumReflection
