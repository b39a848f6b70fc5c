import EnumReflection.Table.Build

/-!
# Tables built on first use

A deferred table is built from its source by the first access and kept from then on, whatever the
source becomes. A build that fails keeps nothing, so the next access builds again. Accesses
that compete for a table that is not built yet build one after the other until one succeeds.
-/
namespace EnumReflection

structure Source (α : Type) where
  text : Text
  values : List α
  deriving DecidableEq, Repr

/-- The source that a build would read, the table once it is built, and the number of builds. -/
structure DeferredTable (α : Type) where
  source : Source α
  cell : Option (Table α)
  builds : Nat
  deriving DecidableEq, Repr

namespace DeferredTable

variable {α : Type}

def ofSource (s : Source α) : DeferredTable α := ⟨s, none, 0⟩

def replace (s : Source α) (d : DeferredTable α) : DeferredTable α := { d with source := s }

def isInitialized (d : DeferredTable α) : Bool := d.cell.isSome

/-- The table or the reason why it cannot be built. -/
def get (d : DeferredTable α) : Except TableError (Table α) × DeferredTable α :=
  match d.cell with
  | some t => (.ok t, d)
  | none =>
    match Table.ofText d.source.text d.source.values with
    | .ok t => (.ok t, { d with cell := some t, builds := d.builds + 1 })
    | .error e => (.error e, { d with builds := d.builds + 1 })

/-- What a number of competing accesses get, in the order in which they are served. -/
def race : Nat → DeferredTable α → List (Except TableError (Table α)) × DeferredTable α
  | 0, d => ([], d)
  | n + 1, d =>
    let (answer, d) := d.get
    let (answers, d) := race n d
    (answer :: answers, d)

/-- The text of a deferred table in a diagnostic, which does not build it. -/
def describe (d : DeferredTable α) : Text :=
  "LazyTable \x7b initialized: ".toList ++ (if d.isInitialized then "true" else "false").toList ++
    " \x7d".toList

def failureMessage (e : TableError) : Text := "malformed declaration: ".toList ++ e.message

theorem get_of_cell {d : DeferredTable α} {t : Table α} (h : d.cell = some t) :
    d.get = (.ok t, d) := by
  simp [get, h]

theorem cell_get {d : DeferredTable α} {t : Table α} (h : d.get.1 = .ok t) :
    d.get.2.cell = some t := by
  unfold get at h ⊢
  split at h
  · rename_i s hs
    cases h
    exact hs
  · split at h
    · cases h
      rfl
    · cases h

@[simp] theorem source_get (d : DeferredTable α) : d.get.2.source = d.source := by
  unfold get
  split
  · rfl
  · split <;> rfl

end DeferredTable

end EnumReflection
