import EnumReflection.Table.Deferred

/-!
# The cell of a deferred table

The table of a deferred table is kept in a cell, at which several accesses may stand. What is
assumed of the cell is assumed of the steps that accesses make at it. They return a table that
they find. If they find none, one of them builds while the others wait, and a build that fails
leaves the cell empty. `Move` makes all the steps that these assumptions allow.
-/
namespace EnumReflection.DeferredTable

variable {α : Type}

/-- How far an access has come. -/
inductive Access (α : Type)
  | called
  | waiting
  | building
  | returned (answer : Except TableError (Table α))

namespace Access

def isBuilding : Access α → Bool
  | .building => true
  | _ => false

def hasStarted : Access α → Bool
  | .building | .returned _ => true
  | _ => false

/-- The most steps that an access has still to make. -/
def work : Access α → Nat
  | .called => 3
  | .waiting => 2
  | .building => 1
  | .returned _ => 0

end Access

/-- The steps that an access may make at a cell. They depend on what a build gives and on the other
accesses, and lead from a cell and an access to a cell and an access. -/
abbrev CellStep (α : Type) : Type :=
  Except TableError (Table α) → List (Access α) →
    Option (Table α) → Access α → Option (Table α) → Access α → Prop

/-- What is assumed of a cell that is initialized once, by one access at a time. -/
structure InitializesOnce (step : CellStep α) : Prop where
  onward {init others cell a cell' b} : step init others cell a cell' b → b.work < a.work
  found {init others t a cell' b} : step init others (some t) a cell' b → a ≠ .building →
    cell' = some t ∧ b = .returned (.ok t)
  missing {init others a cell' b} : step init others none a cell' b → a ≠ .building →
    cell' = none ∧ (b = .waiting ∨ b = .building)
  alone {init others cell a cell'} : step init others cell a cell' .building → .building ∉ others
  success {t others cell cell' b} : step (.ok t) others cell .building cell' b →
    cell' = some t ∧ b = .returned (.ok t)
  failure {e others cell cell' b} : step (.error e) others cell .building cell' b →
    cell' = cell ∧ b = .returned (.error e)
  proceeds {init others cell a} : (∀ answer, a ≠ .returned answer) →
    a = .building ∨ .building ∉ others → ∃ cell' b, step init others cell a cell' b

/-- All steps that a cell may allow if it is initialized once. -/
inductive Move (init : Except TableError (Table α)) (others : List (Access α))
    (cell : Option (Table α)) : Access α → Option (Table α) → Access α → Prop
  | find {a : Access α} {t : Table α} : cell = some t → a = .called ∨ a = .waiting →
      Move init others cell a cell (.returned (.ok t))
  | miss : cell = none → Move init others cell .called cell .waiting
  | start {a : Access α} : cell = none → a = .called ∨ a = .waiting → .building ∉ others →
      Move init others cell a cell .building
  | finish {t : Table α} : init = .ok t →
      Move init others cell .building (some t) (.returned (.ok t))
  | fail {e : TableError} : init = .error e →
      Move init others cell .building cell (.returned (.error e))

variable {step : CellStep α} {init : Except TableError (Table α)} {others : List (Access α)}
  {cell cell' : Option (Table α)} {a b : Access α}

theorem eq_called_or_waiting (hbuilding : a ≠ .building)
    (hreturned : ∀ answer, a ≠ .returned answer) : a = .called ∨ a = .waiting := by
  cases a with
  | called => exact .inl rfl
  | waiting => exact .inr rfl
  | building => exact absurd rfl hbuilding
  | returned answer => exact absurd rfl (hreturned answer)

theorem InitializesOnce.not_returned (once : InitializesOnce step)
    (h : step init others cell a cell' b) (answer : Except TableError (Table α)) :
    a ≠ .returned answer := by
  rintro rfl
  exact absurd (once.onward h) (Nat.not_lt_zero _)

theorem InitializesOnce.move (once : InitializesOnce step) (h : step init others cell a cell' b) :
    Move init others cell a cell' b := by
  by_cases hbuilding : a = .building
  · subst hbuilding
    cases init with
    | ok t =>
      obtain ⟨rfl, rfl⟩ := once.success h
      exact .finish rfl
    | error e =>
      obtain ⟨rfl, rfl⟩ := once.failure h
      exact .fail rfl
  have ha := eq_called_or_waiting hbuilding (once.not_returned h)
  cases cell with
  | some t =>
    obtain ⟨rfl, rfl⟩ := once.found h hbuilding
    exact .find rfl ha
  | none =>
    obtain ⟨rfl, rfl | rfl⟩ := once.missing h hbuilding
    · rcases ha with rfl | rfl
      · exact .miss rfl
      · exact absurd (once.onward h) (Nat.lt_irrefl _)
    · exact .start rfl ha (once.alone h)

theorem Move.exists_of_not_returned (hreturned : ∀ answer, a ≠ .returned answer)
    (h : a = .building ∨ .building ∉ others) : ∃ cell' b, Move init others cell a cell' b := by
  by_cases hbuilding : a = .building
  · subst hbuilding
    cases init with
    | ok t => exact ⟨_, _, .finish rfl⟩
    | error e => exact ⟨_, _, .fail rfl⟩
  have ha := eq_called_or_waiting hbuilding hreturned
  cases cell with
  | some t => exact ⟨_, _, .find rfl ha⟩
  | none => exact ⟨_, _, .start rfl ha (h.resolve_left hbuilding)⟩

theorem initializesOnce_move : InitializesOnce (@Move α) where
  onward h := by
    cases h with
    | find _ ha => rcases ha with rfl | rfl <;> simp [Access.work]
    | start _ ha _ => rcases ha with rfl | rfl <;> simp [Access.work]
    | _ => simp [Access.work]
  found h hbuilding := by
    cases h with
    | find hcell _ =>
      cases hcell
      exact ⟨rfl, rfl⟩
    | miss hcell => cases hcell
    | start hcell _ _ => cases hcell
    | finish _ => exact absurd rfl hbuilding
    | fail _ => exact absurd rfl hbuilding
  missing h hbuilding := by
    cases h with
    | find hcell _ => cases hcell
    | miss _ => exact ⟨rfl, .inl rfl⟩
    | start _ _ _ => exact ⟨rfl, .inr rfl⟩
    | finish _ => exact absurd rfl hbuilding
    | fail _ => exact absurd rfl hbuilding
  alone h := by
    cases h with
    | start _ _ hidle => exact hidle
  success h := by
    cases h with
    | find _ ha => rcases ha with h | h <;> cases h
    | start _ ha _ => rcases ha with h | h <;> cases h
    | finish hinit =>
      cases hinit
      exact ⟨rfl, rfl⟩
    | fail hinit => cases hinit
  failure h := by
    cases h with
    | find _ ha => rcases ha with h | h <;> cases h
    | start _ ha _ => rcases ha with h | h <;> cases h
    | finish hinit => cases hinit
    | fail hinit =>
      cases hinit
      exact ⟨rfl, rfl⟩
  proceeds := Move.exists_of_not_returned

end EnumReflection.DeferredTable
