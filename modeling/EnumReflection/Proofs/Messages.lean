import EnumReflection.Declaration
import EnumReflection.Enumeration

/-!
# What refusals say

The messages of every refusal of a table, of a declaration and of an enumeration are written out
here. They name the member that the refusal is about and quote the text that could not be read, and
below the message of a declaration stand those of its cause.
-/
namespace EnumReflection

inductive TableError.Tells : TableError → Text → Prop
  | nameless {i : Nat} {segment : Text} : Tells (.nameless i segment)
      ("member ".toList ++ Text.decimal i ++ " has no name in segment ".toList ++
        Text.Quoted.encode segment)
  | tooFew {expected found : Nat} : Tells (.tooFew expected found)
      ("expected ".toList ++ Text.decimal expected ++ " members but the text has ".toList ++
        Text.decimal found)
  | tooMany {expected : Nat} {rest : Text} : Tells (.tooMany expected rest)
      ("text continues after ".toList ++ Text.decimal expected ++ " members: ".toList ++
        Text.Quoted.encode rest)

theorem TableError.tells_message (e : TableError) : e.Tells e.message := by
  cases e with
  | nameless i segment => exact .nameless
  | tooFew expected found => exact .tooFew
  | tooMany expected rest => exact .tooMany

inductive LiteralError.Tells (text : Text) : LiteralError → List Text → Prop
  | notInteger : Tells text (.notInteger text)
      [Text.Quoted.encode text.trim ++ " is not an integer literal".toList]
  | badDigit {radix : Nat} : Tells text (.badDigits text radix .invalid)
      [Text.Quoted.encode text.trim ++ " is not a valid base-".toList ++ Text.decimal radix ++
        " literal".toList, "invalid digit found in string".toList]
  | tooLarge {radix : Nat} : Tells text (.badDigits text radix .tooLarge)
      [Text.Quoted.encode text.trim ++ " is not a valid base-".toList ++ Text.decimal radix ++
        " literal".toList, "number too large to fit in target type".toList]
  | outOfRange : Tells text (.outOfRange text)
      [Text.Quoted.encode text.trim ++ " is out of range".toList]

/-- The messages about a segment whose value cannot be read: what follows the name does not start
with an equals sign, or what follows the equals sign is no integer literal. -/
inductive InitializerError.Tells (segment : Text) : InitializerError → List Text → Prop
  | unexpected {name tail r : Text} {c : Char} (read : Name.read? segment = some (name, tail))
      (skip : Trivia.skip tail = c :: r) (ne : c ≠ '=') : Tells segment (.unexpected (c :: r))
      ["expected `=` or end of member, found ".toList ++ Text.Quoted.encode (Text.trim (c :: r))]
  | literal {name tail r : Text} {cause : LiteralError} {chain : List Text}
      (read : Name.read? segment = some (name, tail)) (skip : Trivia.skip tail = '=' :: r)
      (tells : cause.Tells r chain) : Tells segment (.literal cause) chain

/-- The messages about a declaration without a table, outermost first. -/
inductive DeclarationError.Tells : DeclarationError → List Text → Prop
  | initializer {i : Nat} {segment : Text} {cause : InitializerError} {chain : List Text}
      (tells : cause.Tells segment chain) : Tells (.initializer ⟨i, segment, cause⟩)
      (("member ".toList ++ Text.decimal i ++ " (".toList ++ Text.Quoted.encode segment.trim ++
        ") has an unsupported initializer".toList) :: chain)
  | malformed {cause : TableError} {message : Text} (tells : cause.Tells message) :
      Tells (.malformed cause) ["malformed member list".toList, message]
  | misfit {name : Text} {v : Int} {type : IntType} : Tells (.misfit name v type)
      ["member ".toList ++ name ++ " resolves to ".toList ++ Text.signedDecimal v ++
        ", which does not fit in ".toList ++ type.name]

theorem Literal.tells_of_magnitude {whole rest : Text} {e : LiteralError}
    (h : magnitude whole rest = .error e) : e.Tells whole e.chain := by
  unfold magnitude at h
  dsimp only at h
  split at h
  · cases h
    exact .notInteger
  · cases haccumulate : accumulate (radix rest).1 0
        (((radix rest).2.takeWhile (inRun (radix rest).1)).filter (· ≠ '_')) with
    | ok m =>
      rw [haccumulate] at h
      cases h
    | error cause =>
      rw [haccumulate] at h
      cases h
      cases cause with
      | invalid => exact .badDigit
      | tooLarge => exact .tooLarge

theorem Literal.tells_of_parse {text : Text} {e : LiteralError} (h : parse text = .error e) :
    e.Tells text e.chain := by
  unfold parse at h
  dsimp only at h
  split at h
  · rename_i hmagnitude
    cases h
    exact tells_of_magnitude hmagnitude
  · split at h
    · cases h
    · cases h
      exact .outOfRange

theorem Initializer.tells_of_afterName {segment name tail : Text} {e : InitializerError}
    (hread : Name.read? segment = some (name, tail)) (h : afterName tail = .error e) :
    e.Tells segment e.chain := by
  unfold afterName at h
  split at h
  · cases h
  · rename_i c r hskip
    split at h
    · rename_i hc
      subst hc
      split at h
      · cases h
      · rename_i cause hparse
        cases h
        exact .literal hread hskip (Literal.tells_of_parse hparse)
    · rename_i hc
      cases h
      exact .unexpected hread hskip hc

theorem Initializer.tells_of_ofSegment {segment : Text} {e : InitializerError}
    (h : ofSegment segment = .error e) : e.Tells segment e.chain := by
  unfold ofSegment at h
  split at h
  · cases h
  · rename_i hread
    exact tells_of_afterName hread h

inductive BuildError.Tells (enum : Text) : BuildError → Text → Prop
  | valueCount {slots members : Nat} : Tells enum (.valueCount slots members)
      ("assertion `left == right` failed: ".toList ++ (enum ++ ": ".toList ++ Text.decimal slots ++
        " explicit value slots for ".toList ++ Text.decimal members ++ " members".toList) ++
        "\n  left: ".toList ++ Text.decimal slots ++ "\n right: ".toList ++ Text.decimal members)
  | value {i : Nat} {counted discriminant : Int} : Tells enum (.value i counted discriminant)
      (enum ++ ": member ".toList ++ Text.decimal i ++ " resolves to ".toList ++
        Text.signedDecimal counted ++ " but its discriminant is ".toList ++
        Text.signedDecimal discriminant)
  | malformed {cause : TableError} {message : Text} (tells : cause.Tells message) :
      Tells enum (.malformed cause)
        ("malformed declaration of ".toList ++ enum ++ ": ".toList ++ message)
  | nameCount {idents members : Nat} : Tells enum (.nameCount idents members)
      ("assertion `left == right` failed: ".toList ++ (enum ++ ": ".toList ++ Text.decimal idents ++
        " variant names for ".toList ++ Text.decimal members ++ " members".toList) ++
        "\n  left: ".toList ++ Text.decimal idents ++ "\n right: ".toList ++ Text.decimal members)
  | name {i : Nat} {ident read : Text} : Tells enum (.name i ident read)
      (enum ++ ": member ".toList ++ Text.decimal i ++ " is declared as `".toList ++ ident ++
        "` but reads as `".toList ++ read ++ "`".toList)

theorem BuildError.tells_message (enum : Text) (refusal : BuildError) :
    refusal.Tells enum (refusal.message enum) := by
  cases refusal with
  | valueCount slots members => exact .valueCount
  | value i counted discriminant => exact .value
  | malformed cause => exact .malformed cause.tells_message
  | nameCount idents members => exact .nameCount
  | name i ident read => exact .name

end EnumReflection
