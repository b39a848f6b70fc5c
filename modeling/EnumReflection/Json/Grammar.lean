import EnumReflection.Json
import EnumReflection.Text.Digit

/-!
# The grammar of JSON

What a JSON text stands for, so far as it has a value here, which true, false and numbers that are
no integers have not. Blanks may stand around values and punctuation. A character of a string is
written as itself, by a letter, or by its number in UTF-16, for which it can take two numbers.
-/
namespace EnumReflection.Json

def isBlank (c : Char) : Bool := c == ' ' || c == '\t' || c == '\n' || c == '\r'

def Blank (t : Text) : Prop := ∀ c ∈ t, isBlank c = true

/-- The characters that a letter can stand for behind a backslash, each with its letter. -/
def spellings : List (Char × Char) := ('/', '/') :: letters

/-- The first of the numbers that stand for a character in two parts, and those of the other part. -/
def firstHigh : Nat := 0xD800

def firstLow : Nat := 0xDC00

/-- The number of the character that is written in two parts. -/
def combine (high low : Nat) : Nat := 0x10000 + 0x400 * (high - firstHigh) + (low - firstLow)

/-- The number that four hexadecimal digits write. -/
inductive IsUnit : Text → Nat → Prop
  | digits {a b c d : Char} {i j k l : Nat} : Text.digitValue? a = some i →
      Text.digitValue? b = some j → Text.digitValue? c = some k → Text.digitValue? d = some l →
      IsUnit [a, b, c, d] (16 * (16 * (16 * i + j) + k) + l)

/-- How a character can be written in a string. -/
inductive Spells : Text → Char → Prop
  | plain {c : Char} : c ≠ '"' → c ≠ '\\' → 0x20 ≤ c.toNat → Spells [c] c
  | letter {c l : Char} : (c, l) ∈ spellings → Spells ['\\', l] c
  | number {t : Text} {n : Nat} : IsUnit t n → n.isValidChar →
      Spells ('\\' :: 'u' :: t) (Char.ofNat n)
  | pair {t u : Text} {high low : Nat} : IsUnit t high → IsUnit u low →
      firstHigh ≤ high → high < firstLow → firstLow ≤ low → low < firstLow + 0x400 →
      Spells ('\\' :: 'u' :: (t ++ '\\' :: 'u' :: u)) (Char.ofNat (combine high low))

/-- How a text can be written between quotes. -/
inductive SpellsAll : Text → Text → Prop
  | nil : SpellsAll [] []
  | cons {t u s : Text} {c : Char} : Spells t c → SpellsAll u s → SpellsAll (t ++ u) (c :: s)

/-- Decimal digits without a zero in front. -/
structure IsDigits (ds : Text) : Prop where
  ne_nil : ds ≠ []
  all : ∀ c ∈ ds, c.isDigit = true
  lead : ds.head? = some '0' → ds = ['0']

inductive IsNumeral : Text → Int → Prop
  | natural {ds : Text} : IsDigits ds → IsNumeral ds (Nat.ofDigitChars 10 ds 0)
  | negative {ds : Text} : IsDigits ds → IsNumeral ('-' :: ds) (-(Nat.ofDigitChars 10 ds 0 : Nat))

/-- A part of an array or object: the text that stands for a value, and what stands around it. -/
structure Part (α : Type) where
  lead : Text
  body : Text
  tail : Text
  value : α

def Part.text {α : Type} (p : Part α) : Text := p.lead ++ (p.body ++ p.tail)

/-- What stands before the value of a field: its key and a colon. -/
inductive IsKey : Text → Text → Prop
  | mk {a b c t key : Text} : Blank a → SpellsAll t key → Blank b → Blank c →
      IsKey (a ++ '"' :: (t ++ '"' :: (b ++ ':' :: c))) key

/-- The value that a text stands for. -/
inductive Denotes : Text → Json → Prop
  | null : Denotes ['n', 'u', 'l', 'l'] .null
  | number {t : Text} {n : Int} : IsNumeral t n → Denotes t (.number n)
  | string {t s : Text} : SpellsAll t s → Denotes ('"' :: (t ++ ['"'])) (.string s)
  | emptyArray {b : Text} : Blank b → Denotes ('[' :: (b ++ [']'])) (.array [])
  | array {parts : List (Part Json)} : parts ≠ [] →
      (∀ p ∈ parts, Blank p.lead ∧ Blank p.tail) → (∀ p ∈ parts, Denotes p.body p.value) →
      Denotes ('[' :: (Text.join [','] (parts.map Part.text) ++ [']'])) (.array (parts.map Part.value))
  | emptyObject {b : Text} : Blank b → Denotes ('{' :: (b ++ ['}'])) (.object [])
  | object {parts : List (Part (Text × Json))} : parts ≠ [] →
      (∀ p ∈ parts, IsKey p.lead p.value.1 ∧ Blank p.tail) →
      (∀ p ∈ parts, Denotes p.body p.value.2) →
      Denotes ('{' :: (Text.join [','] (parts.map Part.text) ++ ['}']))
        (.object (parts.map Part.value))

/-- A text that stands for a value, with blanks around it. -/
inductive IsDocument : Text → Json → Prop
  | mk {a t b : Text} {v : Json} : Blank a → Denotes t v → Blank b → IsDocument (a ++ (t ++ b)) v

/-- A reader gives to every document the value that it stands for. -/
def IsReader (read : Text → Option Json) : Prop := ∀ t v, IsDocument t v → read t = some v

end EnumReflection.Json
