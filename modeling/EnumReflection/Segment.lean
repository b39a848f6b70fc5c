import EnumReflection.Lexeme

/-!
# Segments of a declaration

A declaration is cut at its top-level commas. A comma counts as top-level while no more
brackets have opened than closed since the cut before it, so a stray closing bracket hides
nothing. Angle signs count as brackets, except beside a sign of the same kind, where they are
read as a shift. A trailing comma leaves a blank last segment, which is not a member.
-/
namespace EnumReflection

/-- A piece of a declaration with the byte offsets of its ends. -/
structure Segment where
  start : Nat
  stop : Nat
  text : Text
  deriving DecidableEq, Repr

namespace Segment

/-- The change of nesting at a lexeme between its neighbours. -/
def turn (before : Option Lexeme) (l : Lexeme) (after : Option Lexeme) : Int :=
  match l with
  | .plain c =>
    if c = '(' ∨ c = '[' ∨ c = '{' then 1
    else if c = ')' ∨ c = ']' ∨ c = '}' then -1
    else if before = some l ∨ after = some l then 0
    else if c = '<' then 1
    else if c = '>' then -1
    else 0
  | _ => 0

/-- The lexemes between top-level commas. -/
def split (before : Option Lexeme) (nesting : Int) : List Lexeme → List (List Lexeme)
  | [] => [[]]
  | l :: ls =>
    if l = .plain ',' ∧ nesting ≤ 0 then [] :: split (some l) 0 ls
    else (split (some l) (nesting + turn before l ls.head?) ls).modifyHead (l :: ·)

/-- The texts between the top-level commas of a declaration. -/
def bodies (t : Text) : List Text :=
  (split none 0 (Lexeme.lex t)).map (·.flatMap Lexeme.text)

/-- Texts laid out one after the other with one byte between each two. -/
def place (start : Nat) : List Text → List Segment
  | [] => []
  | t :: ts => ⟨start, start + t.byteLength, t⟩ :: place (start + t.byteLength + 1) ts

/-- The segments of a declaration, at least one. -/
def segments (t : Text) : List Segment := place 0 (bodies t)

def endsBlank (ts : List Text) : Bool := ts.getLast?.any Trivia.isBlank

/-- The texts that declare a member. -/
def memberBodies (t : Text) : List Text :=
  if endsBlank (bodies t) then (bodies t).dropLast else bodies t

def memberCount (t : Text) : Nat := (memberBodies t).length

/-- The text before the first top-level comma, and what follows from that comma on, when the
text comes after a lexeme and inside a number of brackets. -/
def cut (before : Option Lexeme) (nesting : Int) : Text → Text × Text
  | [] => ([], [])
  | c :: r =>
    have := Lexeme.length_next_le c r
    let l := (Lexeme.next c r).1
    let rest := (Lexeme.next c r).2
    if l = .plain ',' ∧ nesting ≤ 0 then ([], c :: r)
    else (cut (some l) (nesting + turn before l (Lexeme.first? rest)) rest).map (l.text ++ ·) id
termination_by t => t.length

/-- The byte offset of the first top-level comma at or after an offset, counting brackets from
there, or the length of the text. -/
def commaFrom (t : Text) (start : Nat) : Nat :=
  let (before, rest) := t.seek none start
  t.byteLength - rest.byteLength + (cut (before.map .plain) 0 rest).1.byteLength

theorem cut_append (before : Option Lexeme) (nesting : Int) (t : Text) :
    (cut before nesting t).1 ++ (cut before nesting t).2 = t := by
  fun_induction cut before nesting t with
  | case1 => rfl
  | case2 => rfl
  | case3 before nesting c r _ l rest h ih =>
    rw [Prod.map_fst, Prod.map_snd, id, List.append_assoc, ih]
    exact Lexeme.next_append c r

theorem split_ne_nil (before : Option Lexeme) (nesting : Int) (ls : List Lexeme) :
    split before nesting ls ≠ [] := by
  induction ls generalizing before nesting with
  | nil => simp [split]
  | cons l ls ih =>
    rw [split]
    split
    · simp
    · simpa using ih _ _

theorem intercalate_split (before : Option Lexeme) (nesting : Int) (ls : List Lexeme) :
    [Lexeme.plain ','].intercalate (split before nesting ls) = ls := by
  induction ls generalizing before nesting with
  | nil => simp [split, List.intercalate]
  | cons l ls ih =>
    rw [split]
    split
    · rename_i h
      have hne := split_ne_nil (some l) 0 ls
      rw [List.intercalate_cons_of_ne_nil hne, ih, h.1]
      rfl
    · have hne := split_ne_nil (some l) (nesting + turn before l ls.head?) ls
      obtain ⟨p, ps, hp⟩ := List.exists_cons_of_ne_nil hne
      have hi := ih (some l) (nesting + turn before l ls.head?)
      rw [hp] at hi ⊢
      rw [← hi]
      cases ps <;> simp [List.intercalate]

theorem bodies_ne_nil (t : Text) : bodies t ≠ [] := by
  simpa [bodies] using split_ne_nil _ _ _

theorem flatMap_intercalate (sep : List Lexeme) (ps : List (List Lexeme)) :
    (sep.intercalate ps).flatMap Lexeme.text =
      (sep.flatMap Lexeme.text).intercalate (ps.map (·.flatMap Lexeme.text)) := by
  induction ps with
  | nil => simp
  | cons p ps ih =>
    cases ps with
    | nil => simp
    | cons q ps =>
      rw [List.intercalate_cons_cons, List.flatMap_append, List.flatMap_append, ih]
      simp [List.intercalate_cons_cons]

/-- The texts joined by commas are the declaration. -/
theorem join_bodies (t : Text) : Text.join [','] (bodies t) = t := by
  have h := congrArg (·.flatMap Lexeme.text) (intercalate_split none 0 (Lexeme.lex t))
  simp only [flatMap_intercalate, Lexeme.flatMap_text_lex] at h
  exact h

@[simp] theorem map_text_place (start : Nat) (ts : List Text) : (place start ts).map text = ts := by
  induction ts generalizing start with
  | nil => rfl
  | cons t ts ih => simp [place, ih]

@[simp] theorem map_text_segments (t : Text) : (segments t).map text = bodies t :=
  map_text_place 0 (bodies t)

@[simp] theorem length_segments (t : Text) : (segments t).length = (bodies t).length := by
  rw [← map_text_segments, List.length_map]

theorem memberBodies_isPrefix_bodies (t : Text) : memberBodies t <+: bodies t := by
  unfold memberBodies
  split
  · exact List.dropLast_prefix _
  · exact List.prefix_rfl

theorem memberCount_le (t : Text) : memberCount t ≤ (segments t).length := by
  rw [length_segments]
  exact (memberBodies_isPrefix_bodies t).length_le

theorem slice?_of_mem_place (before : Text) {ts : List Text} {s : Segment}
    (hs : s ∈ place before.byteLength ts) :
    Text.slice? s.start s.stop (before ++ Text.join [','] ts) = some s.text := by
  induction ts generalizing before with
  | nil => cases hs
  | cons t ts ih =>
    have hcons : before ++ Text.join [','] (t :: ts) = before ++ t ∨
        before ++ Text.join [','] (t :: ts) =
          (before ++ t ++ [',']) ++ Text.join [','] ts := by
      cases ts with
      | nil => simp [Text.join, List.intercalate]
      | cons u us => right; simp [Text.join_cons_cons]
    rcases List.mem_cons.1 hs with rfl | hs
    · rcases hcons with h | h
      · have := Text.slice?_append before t []
        rw [List.append_nil] at this
        rw [h]
        exact this
      · have := Text.slice?_append before t (',' :: Text.join [','] ts)
        rw [h]
        simpa using this
    · cases ts with
      | nil => cases hs
      | cons u us =>
        have hlen : (before ++ t ++ [',']).byteLength = before.byteLength + t.byteLength + 1 := by
          simp only [Text.byteLength_append, Text.byteLength_cons, Text.byteLength_nil]
          rfl
        have hi := ih (before ++ t ++ [',']) (by rw [hlen]; exact hs)
        have he : before ++ Text.join [','] (t :: u :: us) =
            (before ++ t ++ [',']) ++ Text.join [','] (u :: us) := by
          simp [Text.join_cons_cons]
        rw [he]
        exact hi

theorem slice?_of_mem_segments {t : Text} {s : Segment} (hs : s ∈ segments t) :
    t.slice? s.start s.stop = some s.text := by
  have h := slice?_of_mem_place [] hs
  rwa [List.nil_append, join_bodies] at h

end Segment

end EnumReflection
