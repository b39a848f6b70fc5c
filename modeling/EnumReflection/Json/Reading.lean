import EnumReflection.Json.Grammar

/-!
# Reading JSON

A reader of JSON texts by recursive descent. Each part reads what stands at the head of a text and
leaves the rest. How deep values can nest, and how many there can be, is bounded by the length of
the text.
-/
namespace EnumReflection.Json

def skipBlanks (t : Text) : Text := t.dropWhile isBlank

def unit? : Text → Option (Nat × Text)
  | a :: b :: c :: d :: r => do
    let i ← Text.digitValue? a
    let j ← Text.digitValue? b
    let k ← Text.digitValue? c
    let l ← Text.digitValue? d
    return (16 * (16 * (16 * i + j) + k) + l, r)
  | _ => none

/-- The character that a number in two parts stands for, once the first part is read. -/
def lowUnit? (high : Nat) : Text → Option (Char × Text)
  | '\\' :: 'u' :: t => do
    let (low, r) ← unit? t
    if high < firstLow ∧ firstLow ≤ low ∧ low < firstLow + 0x400 then
      return (Char.ofNat (combine high low), r)
    else none
  | _ => none

/-- The character that is written by its number. -/
def numbered? (t : Text) : Option (Char × Text) := do
  let (n, r) ← unit? t
  if n.isValidChar then return (Char.ofNat n, r) else lowUnit? n r

def character? : Text → Option (Char × Text)
  | [] => none
  | c :: r =>
    if c = '\\' then
      match r with
      | [] => none
      | l :: r =>
        if l = 'u' then numbered? r
        else (spellings.find? (·.2 == l)).map fun p => (p.1, r)
    else if c = '"' ∨ c.toNat < 0x20 then none
    else some (c, r)

/-- The characters of a string up to its closing quote. -/
def inside? : Nat → Text → Option (Text × Text)
  | 0, _ => none
  | _ + 1, [] => none
  | n + 1, c :: r =>
    if c = '"' then some ([], r)
    else do
      let (d, u) ← character? (c :: r)
      let (s, u) ← inside? n u
      return (d :: s, u)

def digits? (t : Text) : Option (Nat × Text) :=
  let ds := t.takeWhile Char.isDigit
  if ds = [] ∨ (ds.head? = some '0' ∧ ds ≠ ['0']) then none
  else some (Nat.ofDigitChars 10 ds 0, t.dropWhile Char.isDigit)

def numeral? : Text → Option (Int × Text)
  | [] => none
  | c :: r =>
    if c = '-' then (digits? r).map fun (n, u) => (-(n : Int), u)
    else (digits? (c :: r)).map fun (n, u) => ((n : Int), u)

section

variable {α : Type} (part : Text → Option (α × Text)) (close : Char)

/-- One part or more, with commas between them, and the closing bracket. -/
def parts? : Nat → Text → Option (List α × Text)
  | 0, _ => none
  | n + 1, t => do
    let (v, r) ← part t
    match skipBlanks r with
    | [] => none
    | c :: u =>
      if c = ',' then
        let (vs, u) ← parts? n u
        return (v :: vs, u)
      else if c = close then return ([v], u)
      else none

def list? (t : Text) : Option (List α × Text) :=
  match skipBlanks t with
  | [] => none
  | c :: r => if c = close then some ([], r) else parts? part close t.length t

end

def key? (t : Text) : Option (Text × Text) :=
  match skipBlanks t with
  | '"' :: r => do
    let (key, u) ← inside? r.length r
    match skipBlanks u with
    | ':' :: u => return (key, skipBlanks u)
    | _ => none
  | _ => none

def keyed? (value : Text → Option (Json × Text)) (t : Text) : Option ((Text × Json) × Text) := do
  let (key, u) ← key? t
  let (v, u) ← value u
  return ((key, v), u)

/-- A value at the head of a text, with a bound on its depth. -/
def value? : Nat → Text → Option (Json × Text)
  | 0, _ => none
  | _ + 1, [] => none
  | n + 1, c :: r =>
    if c = 'n' then
      if ['u', 'l', 'l'].isPrefixOf r then some (.null, r.drop 3) else none
    else if c = '"' then (inside? r.length r).map fun (s, u) => (.string s, u)
    else if c = '[' then
      (list? (fun t => value? n (skipBlanks t)) ']' r).map fun (vs, u) => (.array vs, u)
    else if c = '{' then (list? (keyed? (value? n)) '}' r).map fun (fs, u) => (.object fs, u)
    else (numeral? (c :: r)).map fun (n, u) => (.number n, u)

def read? (t : Text) : Option Json := do
  let (v, r) ← value? t.length (skipBlanks t)
  if skipBlanks r = [] then return v else none

end EnumReflection.Json
