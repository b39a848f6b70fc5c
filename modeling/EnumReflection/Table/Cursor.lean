import EnumReflection.Table.Basic

/-!
# Cursors over the values of a table

A slice of a list loses items at both ends. It keeps the list and the places of its two ends, which
never cross; `toList` is what is still to come. A cursor over the values of a table is a slice of
its members of which only the values are shown.
-/
namespace EnumReflection

/-- The items of a list from a front place up to a back place. -/
structure Slice (α : Type) where
  items : List α
  front : Nat
  back : Nat
  front_le : front ≤ back
  back_le : back ≤ items.length

namespace Slice

variable {α : Type}

def ofList (items : List α) : Slice α := ⟨items, 0, items.length, Nat.zero_le _, Nat.le_refl _⟩

def toList (s : Slice α) : List α := (s.items.take s.back).drop s.front

def size (s : Slice α) : Nat := s.back - s.front

/-- The item after a number of skipped ones from the front. When too few are left, none is. -/
def nth (n : Nat) (s : Slice α) : Option α × Slice α :=
  if h : n < s.size then
    have hback : s.front + n + 1 ≤ s.back := by unfold size at h; omega
    (s.items[s.front + n]?, { s with front := s.front + n + 1, front_le := hback })
  else (none, { s with front := s.back, front_le := Nat.le_refl _ })

/-- The item before a number of skipped ones from the back. When too few are left, none is. -/
def nthBack (n : Nat) (s : Slice α) : Option α × Slice α :=
  if h : n < s.size then
    have hfront : s.front ≤ s.back - n - 1 := by unfold size at h; omega
    have hback : s.back - n - 1 ≤ s.items.length := by have := s.back_le; omega
    (s.items[s.back - n - 1]?,
      { s with back := s.back - n - 1, front_le := hfront, back_le := hback })
  else
    (none, { s with back := s.front, front_le := Nat.le_refl _,
                    back_le := Nat.le_trans s.front_le s.back_le })

def next (s : Slice α) : Option α × Slice α := s.nth 0

def nextBack (s : Slice α) : Option α × Slice α := s.nthBack 0

@[simp] theorem toList_ofList (items : List α) : (ofList items).toList = items := by
  simp [ofList, toList]

theorem length_toList (s : Slice α) : s.toList.length = s.size := by
  have := s.back_le
  simp [toList, size, Nat.min_eq_left this]

theorem nth_fst (n : Nat) (s : Slice α) : (s.nth n).1 = s.toList[n]? := by
  have hlen := s.length_toList
  unfold nth
  split
  · rename_i h
    have hn : s.front + n < s.back := by unfold size at h; omega
    simp [toList, hn]
  · rename_i h
    rw [List.getElem?_eq_none (by omega)]

theorem toList_nth (n : Nat) (s : Slice α) : (s.nth n).2.toList = s.toList.drop (n + 1) := by
  have hlen := s.length_toList
  unfold nth
  split
  · simp [toList, Nat.add_assoc]
  · rename_i h
    rw [List.drop_eq_nil_of_le (by omega)]
    simp [toList]

theorem nthBack_fst (n : Nat) (s : Slice α) : (s.nthBack n).1 = s.toList.reverse[n]? := by
  have hlen := s.length_toList
  unfold nthBack
  split
  · rename_i h
    have hn : n < s.back - s.front := h
    rw [List.getElem?_reverse (by omega), hlen]
    have hplace : s.front + (s.size - 1 - n) = s.back - n - 1 := by unfold size; omega
    have hlt : s.back - n - 1 < s.back := by omega
    simp [toList, hplace, hlt]
  · rename_i h
    rw [List.getElem?_eq_none (by simp only [List.length_reverse]; omega)]

theorem toList_nthBack (n : Nat) (s : Slice α) :
    (s.nthBack n).2.toList = s.toList.take (s.toList.length - (n + 1)) := by
  have hlen := s.length_toList
  unfold nthBack
  split
  · rename_i h
    have hn : n < s.back - s.front := h
    have hback := s.back_le
    have hmin : min (s.front + (s.back - s.front - (n + 1))) s.back = s.back - n - 1 := by omega
    rw [hlen, size]
    simp only [toList, List.take_drop, List.take_take, hmin]
  · rename_i h
    rw [show s.toList.length - (n + 1) = 0 by omega]
    simp [toList]

end Slice

structure Cursor (α : Type) where
  members : Slice (Member α)

namespace Cursor

variable {α : Type}

def ofMembers (ms : List (Member α)) : Cursor α := ⟨.ofList ms⟩

def toList (c : Cursor α) : List α := c.members.toList.map Member.value

def size (c : Cursor α) : Nat := c.members.size

/-- What a slice yields of its members, with the value in place of the member. -/
def read (yielded : Option (Member α) × Slice (Member α)) : Option α × Cursor α :=
  (yielded.1.map Member.value, ⟨yielded.2⟩)

def next (c : Cursor α) : Option α × Cursor α := read c.members.next

def nextBack (c : Cursor α) : Option α × Cursor α := read c.members.nextBack

def nth (n : Nat) (c : Cursor α) : Option α × Cursor α := read (c.members.nth n)

def nthBack (n : Nat) (c : Cursor α) : Option α × Cursor α := read (c.members.nthBack n)

theorem next_eq_nth (c : Cursor α) : c.next = c.nth 0 := rfl

theorem nextBack_eq_nthBack (c : Cursor α) : c.nextBack = c.nthBack 0 := rfl

@[simp] theorem toList_ofMembers (ms : List (Member α)) :
    (ofMembers ms).toList = ms.map Member.value := by
  simp [ofMembers, toList]

theorem length_toList (c : Cursor α) : c.toList.length = c.size := by
  simp [toList, size, Slice.length_toList]

theorem nth_fst (n : Nat) (c : Cursor α) : (c.nth n).1 = c.toList[n]? := by
  simp [nth, read, toList, Slice.nth_fst]

theorem toList_nth (n : Nat) (c : Cursor α) : (c.nth n).2.toList = c.toList.drop (n + 1) := by
  simp [nth, read, toList, Slice.toList_nth, List.map_drop]

theorem nthBack_fst (n : Nat) (c : Cursor α) : (c.nthBack n).1 = c.toList.reverse[n]? := by
  simp [nthBack, read, toList, Slice.nthBack_fst, ← List.map_reverse]

theorem toList_nthBack (n : Nat) (c : Cursor α) :
    (c.nthBack n).2.toList = c.toList.take (c.toList.length - (n + 1)) := by
  simp [nthBack, read, toList, Slice.toList_nthBack, List.map_take]

theorem size_nth (n : Nat) (c : Cursor α) : (c.nth n).2.size = c.size - (n + 1) := by
  simp [← length_toList, toList_nth]

theorem size_nthBack (n : Nat) (c : Cursor α) : (c.nthBack n).2.size = c.size - (n + 1) := by
  simp [← length_toList, toList_nthBack]

/-- An end of a cursor. -/
inductive Side
  | front
  | back
  deriving DecidableEq, Repr

def pull (c : Cursor α) : Side → Option α × Cursor α
  | .front => c.next
  | .back => c.nextBack

theorem size_pull (c : Cursor α) (side : Side) : (c.pull side).2.size = c.size - 1 := by
  cases side with
  | front => simp [pull, next_eq_nth, size_nth]
  | back => simp [pull, nextBack_eq_nthBack, size_nthBack]

theorem pull_eq_none (c : Cursor α) (side : Side) : (c.pull side).1 = none ↔ c.size = 0 := by
  have hlen := c.length_toList
  cases side with
  | front => simp [pull, next_eq_nth, nth_fst, ← hlen]
  | back => simp [pull, nextBack_eq_nthBack, nthBack_fst, ← hlen]

theorem size_lt_of_pull {c rest : Cursor α} {side : Side} {v : α}
    (h : c.pull side = (some v, rest)) : rest.size < c.size := by
  have hsize : rest.size = c.size - 1 := by simpa [h] using c.size_pull side
  have hpos : c.size ≠ 0 := by simp [← c.pull_eq_none side, h]
  omega

/-- The values that an end yields until it yields none. -/
def collect (side : Side) (c : Cursor α) : List α :=
  match h : c.pull side with
  | (some v, rest) =>
    have := size_lt_of_pull h
    v :: collect side rest
  | (none, _) => []
termination_by c.size

inductive Step
  | next
  | nextBack
  | nth (n : Nat)
  | nthBack (n : Nat)
  | size
  | sizeHint
  | rest
  | restReversed
  deriving DecidableEq, Repr

inductive Answer (α : Type)
  | item (v : Option α)
  | size (n : Nat)
  | sizeHint (lower upper : Nat)
  | items (vs : List α)
  deriving DecidableEq, Repr

/-- The answer to one step. Only the first four steps move the cursor. -/
def step (c : Cursor α) : Step → Answer α × Cursor α
  | .next => (.item c.next.1, c.next.2)
  | .nextBack => (.item c.nextBack.1, c.nextBack.2)
  | .nth n => (.item (c.nth n).1, (c.nth n).2)
  | .nthBack n => (.item (c.nthBack n).1, (c.nthBack n).2)
  | .size => (.size c.size, c)
  | .sizeHint => (.sizeHint c.size c.size, c)
  | .rest => (.items (c.collect .front), c)
  | .restReversed => (.items (c.collect .back), c)

/-- The answers to steps that are taken one after the other. -/
def run (c : Cursor α) : List Step → List (Answer α)
  | [] => []
  | s :: ss => (c.step s).1 :: run (c.step s).2 ss

end Cursor

def Table.cursor {α : Type} (t : Table α) : Cursor α := .ofMembers t.members

@[simp] theorem Table.toList_cursor {α : Type} (t : Table α) : t.cursor.toList = t.values :=
  Cursor.toList_ofMembers t.members

end EnumReflection
