import EnumReflection.Text.Digit
import EnumReflection.Text.Unprintable

/-!
# Quoted text

A text is quoted for a message by double quotes around it and by escapes inside, so that the
result stays on one line. Six characters have escapes of their own; any other character that
does not print is written by its number. `decode?` reads quoted text back.
-/
namespace EnumReflection.Text.Quoted

/-- The characters with an escape of their own, each with the letter that follows the backslash. -/
def letters : List (Char × Char) :=
  [('\x00', '0'), ('\t', 't'), ('\n', 'n'), ('\r', 'r'), ('"', '"'), ('\\', '\\')]

def hex (n : Nat) : List Char := Nat.toDigits 16 n

def escape (c : Char) : List Char :=
  match letters.lookup c with
  | some letter => ['\\', letter]
  | none => if isUnprintable c then '\\' :: 'u' :: '{' :: hex c.toNat ++ ['}'] else [c]

def encode (t : List Char) : List Char := '"' :: t.flatMap escape ++ ['"']

/-- The number before a closing brace, and the text after it. -/
def number? (value : Nat) : List Char → Option (Nat × List Char)
  | [] => none
  | c :: r =>
    if c = '}' then some (value, r)
    else (digitValue? c).bind fun d => number? (16 * value + d) r

theorem number?_length {value n : Nat} {t r : List Char} (h : number? value t = some (n, r)) :
    r.length < t.length := by
  induction t generalizing value with
  | nil => simp [number?] at h
  | cons c t ih =>
    rw [number?] at h
    split at h
    · cases h; simp
    · obtain ⟨d, _, hd⟩ := Option.bind_eq_some_iff.1 h
      exact Nat.lt_succ_of_lt (ih hd)

/-- The text inside quotes up to the closing quote, and what follows it. -/
def decodeInside? : List Char → Option (List Char × List Char)
  | [] => none
  | '"' :: r => some ([], r)
  | '\\' :: 'u' :: '{' :: r =>
    match h : number? 0 r with
    | some (n, rest) =>
      have := number?_length h
      (decodeInside? rest).map fun p => (Char.ofNat n :: p.1, p.2)
    | none => none
  | '\\' :: letter :: r =>
    match letters.find? (fun p => p.2 == letter) with
    | some (c, _) => (decodeInside? r).map fun p => (c :: p.1, p.2)
    | none => none
  | c :: r => (decodeInside? r).map fun p => (c :: p.1, p.2)
termination_by t => t.length

/-- The text that a quoted form at the head stands for, and what follows the form. -/
def decode? : List Char → Option (List Char × List Char)
  | '"' :: r => decodeInside? r
  | _ => none

end EnumReflection.Text.Quoted
