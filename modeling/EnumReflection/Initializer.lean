import EnumReflection.Literal
import EnumReflection.Name
import EnumReflection.Segment

/-!
# Written values

The value that is written for a member stands after its name and an equals sign. Only integer
literals are read; anything else after the name is an error. A segment without a name has no
written value, since the table reports it.
-/
namespace EnumReflection

/-- Why the value of a segment cannot be read. -/
inductive InitializerError
  | unexpected (rest : Text)
  | literal (cause : LiteralError)
  deriving DecidableEq, Repr

def InitializerError.chain : InitializerError → List Text
  | .unexpected rest =>
    ["expected `=` or end of member, found ".toList ++ Text.Quoted.encode rest.trim]
  | .literal cause => cause.chain

structure UnsupportedInitializer where
  index : Nat
  segment : Text
  cause : InitializerError
  deriving DecidableEq, Repr

def UnsupportedInitializer.chain (e : UnsupportedInitializer) : List Text :=
  ("member ".toList ++ Text.decimal e.index ++ " (".toList ++ Text.Quoted.encode e.segment.trim ++
    ") has an unsupported initializer".toList) :: e.cause.chain

namespace Initializer

/-- The value that is written after the name of a member. -/
def afterName (tail : Text) : Except InitializerError (Option Int) :=
  match Trivia.skip tail with
  | [] => .ok none
  | c :: r =>
    if c = '=' then
      match Literal.parse r with
      | .ok v => .ok (some v)
      | .error e => .error (.literal e)
    else .error (.unexpected (c :: r))

/-- The value that a segment writes for its member. -/
def ofSegment (segment : Text) : Except InitializerError (Option Int) :=
  match Name.read? segment with
  | none => .ok none
  | some (_, tail) => afterName tail

def ofSegments (index : Nat) : List Text → Except UnsupportedInitializer (List (Option Int))
  | [] => .ok []
  | s :: ss =>
    match ofSegment s with
    | .error e => .error ⟨index, s, e⟩
    | .ok v => (ofSegments (index + 1) ss).map (v :: ·)

/-- The values that a declaration writes for its members. -/
def ofText (t : Text) : Except UnsupportedInitializer (List (Option Int)) :=
  ofSegments 0 (Segment.memberBodies t)

theorem length_ofSegments {index : Nat} {ss : List Text} {vs : List (Option Int)}
    (h : ofSegments index ss = .ok vs) : vs.length = ss.length := by
  induction ss generalizing index vs with
  | nil =>
    cases h
    rfl
  | cons s ss ih =>
    rw [ofSegments] at h
    split at h
    · cases h
    · cases hrest : ofSegments (index + 1) ss with
      | error e => rw [hrest] at h; cases h
      | ok ws =>
        rw [hrest] at h
        cases h
        simp [ih hrest]

theorem length_ofText {t : Text} {vs : List (Option Int)} (h : ofText t = .ok vs) :
    vs.length = Segment.memberCount t := length_ofSegments h

end Initializer

end EnumReflection
