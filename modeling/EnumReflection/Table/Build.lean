import EnumReflection.Name
import EnumReflection.Segment
import EnumReflection.Table.Basic
import EnumReflection.Text.Decimal
import EnumReflection.Text.Quoted

/-!
# Tables from declarations

A table is made from the text of a declaration and one value for each member. Every value takes
the next segment, which is cut off the text and has to hold a name; nothing but a trailing comma,
spaces and comments may follow the last one.
-/
namespace EnumReflection

/-- Why a declaration does not fit its values. -/
inductive TableError
  | nameless (index : Nat) (segment : Text)
  | tooFew (expected found : Nat)
  | tooMany (expected : Nat) (rest : Text)
  deriving DecidableEq, Repr

def TableError.message : TableError → Text
  | .nameless index segment =>
    "member ".toList ++ Text.decimal index ++ " has no name in segment ".toList ++
      Text.Quoted.encode segment
  | .tooFew expected found =>
    "expected ".toList ++ Text.decimal expected ++ " members but the text has ".toList ++
      Text.decimal found
  | .tooMany expected rest =>
    "text continues after ".toList ++ Text.decimal expected ++ " members: ".toList ++
      Text.Quoted.encode rest

namespace Table

variable {α : Type}

/-- The text in which the segment of a member is looked for, past the comma that ends the
segment before it. -/
def afterSegment? : Nat → Text → Option Text
  | 0, t => some t
  | _ + 1, [] => none
  | _ + 1, _ :: r => some r

/-- The members that values and a text make up from an index on, and the text left over. After
the first member the text starts at the comma that ended the segment before. -/
def fill (expected index : Nat) : List α → Text → Except TableError (List (Member α) × Text)
  | [], left => .ok ([], left)
  | v :: vs, left =>
    match afterSegment? index left with
    | none => .error (.tooFew expected index)
    | some t =>
      let (body, rest) := Segment.cut none 0 t
      match Name.ofSegment? body with
      | none => .error (.nameless index body)
      | some name =>
        (fill expected (index + 1) vs rest).map fun (ms, last) =>
          (⟨v, name, body, index⟩ :: ms, last)

/-- The text after a number of members and the comma that may follow the last of them. -/
def afterMembers : Nat → Text → Text
  | 0, t => t
  | _ + 1, ',' :: r => r
  | _ + 1, t => t

/-- The table of a declaration with these values for its members. -/
def ofText (text : Text) (values : List α) : Except TableError (Table α) :=
  match fill values.length 0 values text with
  | .error e => .error e
  | .ok (members, left) =>
    let rest := afterMembers values.length left
    if Trivia.isBlank rest then .ok ⟨text, members⟩ else .error (.tooMany values.length rest)

theorem fill_ok {expected index : Nat} {vs : List α} {left last : Text} {ms : List (Member α)}
    (h : fill expected index vs left = .ok (ms, last)) :
    ms.map Member.value = vs ∧ ms.map Member.index = List.range' index vs.length ∧
      ∀ m ∈ ms, Name.ofSegment? m.text = some m.name := by
  induction vs generalizing index left ms with
  | nil =>
    cases h
    simp
  | cons v vs ih =>
    rw [fill] at h
    split at h
    · cases h
    · rename_i t _
      dsimp only at h
      split at h
      · cases h
      · rename_i name hname
        cases hfill : fill expected (index + 1) vs (Segment.cut none 0 t).2 with
        | error e => rw [hfill] at h; cases h
        | ok p =>
          rw [hfill] at h
          cases h
          obtain ⟨hv, hi, hn⟩ := ih hfill
          refine ⟨by simp [hv], by simp [hi, List.range'_succ], ?_⟩
          intro m hm
          rcases List.mem_cons.1 hm with rfl | hm
          · exact hname
          · exact hn m hm

theorem ofText_ok {text : Text} {vs : List α} {t : Table α} (h : ofText text vs = .ok t) :
    t.text = text ∧ t.values = vs ∧ t.members.map Member.index = List.range t.size ∧
      ∀ m ∈ t.members, Name.ofSegment? m.text = some m.name := by
  unfold ofText at h
  split at h
  · cases h
  · rename_i ms last hfill
    obtain ⟨hv, hi, hn⟩ := fill_ok hfill
    have hlen : ms.length = vs.length := by rw [← hv, List.length_map]
    dsimp only at h
    split at h
    · cases h
      refine ⟨rfl, hv, ?_, hn⟩
      rw [hi, ← List.range_eq_range', ← hlen]
      rfl
    · cases h

theorem map_some_names {text : Text} {vs : List α} {t : Table α} (h : ofText text vs = .ok t) :
    t.names.map some = (t.members.map Member.text).map Name.ofSegment? := by
  obtain ⟨-, -, -, hnames⟩ := ofText_ok h
  rw [names, List.map_map, List.map_map]
  apply List.map_congr_left
  intro m hm
  exact (hnames m hm).symm

end Table

end EnumReflection
