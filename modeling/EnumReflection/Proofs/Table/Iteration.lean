import EnumReflection.Table.Cursor
import Mathlib.Data.List.Basic

/-!
# Iteration from both ends

A cursor keeps two places in a list that it never changes. Its answers are those of the list of
items still to come, from which every step removes items at one end: `run_eq` says so for any
sequence of steps. Nothing is therefore yielded twice or out of order, and a cursor that has come to
its end stays there.
-/
namespace EnumReflection

namespace Cursor

variable {α : Type}

/-- The last of the items that are removed from the head of a list, one more than a number of
skipped ones. If the list has too few, it loses all of them without an answer. -/
def removeFront (n : Nat) (l : List α) : Option α × List α :=
  if n + 1 ≤ l.length then ((l.take (n + 1)).getLast?, l.drop (n + 1)) else (none, [])

def removeBack (n : Nat) (l : List α) : Option α × List α :=
  (removeFront n l.reverse).map id List.reverse

theorem removeFront_eq (n : Nat) (l : List α) : removeFront n l = (l[n]?, l.drop (n + 1)) := by
  unfold removeFront
  split
  · rename_i h
    simp [List.getLast?_take, List.getElem?_eq_getElem (show n < l.length by omega)]
  · rename_i h
    simp [List.getElem?_eq_none (show l.length ≤ n by omega),
      List.drop_eq_nil_of_le (show l.length ≤ n + 1 by omega)]

theorem removeBack_eq (n : Nat) (l : List α) :
    removeBack n l = (l.reverse[n]?, l.take (l.length - (n + 1))) := by
  simp [removeBack, removeFront_eq, List.drop_reverse]

/-- The answer to a step while a list of items is still to come, and the list after it. -/
def Remaining.step (l : List α) : Step → Answer α × List α
  | .next => (removeFront 0 l).map .item id
  | .nextBack => (removeBack 0 l).map .item id
  | .nth n => (removeFront n l).map .item id
  | .nthBack n => (removeBack n l).map .item id
  | .size => (.size l.length, l)
  | .sizeHint => (.sizeHint l.length l.length, l)
  | .rest => (.items l, l)
  | .restReversed => (.items l.reverse, l)

def Remaining.run (l : List α) : List Step → List (Answer α)
  | [] => []
  | s :: ss => (Remaining.step l s).1 :: run (Remaining.step l s).2 ss

/-- The items of a list in the order in which an end meets them. -/
def seenFrom (l : List α) : Side → List α
  | .front => l
  | .back => l.reverse

theorem pull_fst (c : Cursor α) (side : Side) :
    (c.pull side).1 = (seenFrom c.toList side).head? := by
  cases side with
  | front => simp [pull, next_eq_nth, nth_fst, seenFrom, List.head?_eq_getElem?]
  | back => simp [pull, nextBack_eq_nthBack, nthBack_fst, seenFrom, List.head?_eq_getElem?]

theorem seenFrom_pull (c : Cursor α) (side : Side) :
    seenFrom (c.pull side).2.toList side = (seenFrom c.toList side).tail := by
  cases side with
  | front => simp [pull, next_eq_nth, toList_nth, seenFrom]
  | back => simp [pull, nextBack_eq_nthBack, toList_nthBack, seenFrom, ← List.dropLast_eq_take]

theorem collect_eq (c : Cursor α) (side : Side) : c.collect side = seenFrom c.toList side := by
  fun_induction collect side c with
  | case1 c v rest h _ ih =>
    have hhead := c.pull_fst side
    have htail := c.seenFrom_pull side
    rw [h] at hhead htail
    rw [ih, htail]
    exact List.cons_head?_tail hhead.symm
  | case2 c rest h =>
    have hhead := c.pull_fst side
    rw [h] at hhead
    exact (List.head?_eq_none_iff.1 hhead.symm).symm

/-- A step of a cursor is a step of the list that is still to come. -/
theorem step_eq (c : Cursor α) (s : Step) :
    ((c.step s).1, (c.step s).2.toList) = Remaining.step c.toList s := by
  cases s with
  | next => simp [step, Remaining.step, next_eq_nth, removeFront_eq, nth_fst, toList_nth]
  | nextBack =>
    simp [step, Remaining.step, nextBack_eq_nthBack, removeBack_eq, nthBack_fst, toList_nthBack]
  | nth n => simp [step, Remaining.step, removeFront_eq, nth_fst, toList_nth]
  | nthBack n => simp [step, Remaining.step, removeBack_eq, nthBack_fst, toList_nthBack]
  | size => simp [step, Remaining.step, length_toList]
  | sizeHint => simp [step, Remaining.step, length_toList]
  | rest => simp [step, Remaining.step, collect_eq, seenFrom]
  | restReversed => simp [step, Remaining.step, collect_eq, seenFrom]

theorem run_eq (c : Cursor α) (ss : List Step) : c.run ss = Remaining.run c.toList ss := by
  induction ss generalizing c with
  | nil => rfl
  | cons s ss ih => rw [run, Remaining.run, ← step_eq, ih]

/-- Only what is still to come decides about the answers. -/
theorem run_congr {c d : Cursor α} (h : c.toList = d.toList) (ss : List Step) :
    c.run ss = d.run ss := by
  rw [run_eq, run_eq, h]

def after (c : Cursor α) (ss : List Step) : Cursor α := ss.foldl (fun c s => (c.step s).2) c

theorem run_append (c : Cursor α) (ss more : List Step) :
    c.run (ss ++ more) = c.run ss ++ (c.after ss).run more := by
  induction ss generalizing c with
  | nil => rfl
  | cons s ss ih => simp [run, ih, after]

theorem after_concat (c : Cursor α) (ss : List Step) (s : Step) :
    c.after (ss ++ [s]) = ((c.after ss).step s).2 := by
  simp [after]

/-- The answer to a step when nothing is still to come. -/
def Answer.spent : Step → Answer α
  | .next | .nextBack | .nth _ | .nthBack _ => .item none
  | .size => .size 0
  | .sizeHint => .sizeHint 0 0
  | .rest | .restReversed => .items []

theorem Remaining.step_nil (s : Step) :
    Remaining.step ([] : List α) s = (Answer.spent s, []) := by
  cases s <;> simp [Remaining.step, removeFront, removeBack, Answer.spent]

theorem Remaining.run_nil (ss : List Step) :
    Remaining.run ([] : List α) ss = ss.map Answer.spent := by
  induction ss with
  | nil => rfl
  | cons s ss ih => simp [run, step_nil, ih]

theorem run_of_size_eq_zero {c : Cursor α} (h : c.size = 0) (ss : List Step) :
    c.run ss = ss.map Answer.spent := by
  have hnil : c.toList = [] := List.length_eq_zero_iff.1 (c.length_toList.trans h)
  rw [run_eq, hnil, Remaining.run_nil]

theorem size_of_nth_none {c : Cursor α} {n : Nat} (h : (c.nth n).1 = none) :
    (c.nth n).2.size = 0 := by
  have hlen : c.size ≤ n := by simpa [nth_fst, length_toList] using h
  rw [size_nth]
  omega

theorem size_of_nthBack_none {c : Cursor α} {n : Nat} (h : (c.nthBack n).1 = none) :
    (c.nthBack n).2.size = 0 := by
  have hlen : c.size ≤ n := by simpa [nthBack_fst, length_toList] using h
  rw [size_nthBack]
  omega

theorem size_of_step_none {c : Cursor α} {s : Step} (h : (c.step s).1 = .item none) :
    (c.step s).2.size = 0 := by
  cases s with
  | next | nth n => exact size_of_nth_none (Answer.item.inj h)
  | nextBack | nthBack n => exact size_of_nthBack_none (Answer.item.inj h)
  | size | sizeHint | rest | restReversed => cases h

/-- The end at which a step takes its item. -/
def Step.side? : Step → Option Side
  | .next | .nth _ => some .front
  | .nextBack | .nthBack _ => some .back
  | .size | .sizeHint | .rest | .restReversed => none

def Answer.item? : Answer α → Option α
  | .item v => v
  | .size _ | .sizeHint .. | .items _ => none

def yield? (c : Cursor α) (side : Side) (s : Step) : Option α :=
  if s.side? = some side then (c.step s).1.item? else none

/-- The items that steps yield at an end, in the order of the steps. -/
def yielded (c : Cursor α) (side : Side) : List Step → List α
  | [] => []
  | s :: ss => (c.yield? side s).toList ++ yielded (c.step s).2 side ss

theorem getElem?_append_drop_sublist (l : List α) (n : Nat) :
    (l[n]?.toList ++ l.drop (n + 1)).Sublist l := by
  rw [← List.drop_eq_getElem?_toList_append]
  exact List.drop_sublist n l

theorem nth_sublist (c : Cursor α) (n : Nat) :
    ((c.nth n).1.toList ++ (c.nth n).2.toList).Sublist c.toList := by
  rw [nth_fst, toList_nth]
  exact getElem?_append_drop_sublist _ n

theorem reverse_toList (o : Option α) : o.toList.reverse = o.toList := by
  cases o <;> rfl

theorem nthBack_sublist (c : Cursor α) (n : Nat) :
    ((c.nthBack n).2.toList ++ (c.nthBack n).1.toList).Sublist c.toList := by
  have h := (getElem?_append_drop_sublist c.toList.reverse n).reverse
  rw [nthBack_fst, toList_nthBack]
  simpa [List.drop_reverse, reverse_toList] using h

theorem step_sublist (c : Cursor α) (s : Step) :
    ((c.yield? .front s).toList ++ (c.step s).2.toList ++
      (c.yield? .back s).toList).Sublist c.toList := by
  cases s with
  | next | nth n => simpa [yield?, Step.side?, Answer.item?, step, next_eq_nth] using c.nth_sublist _
  | nextBack | nthBack n =>
    simpa [yield?, Step.side?, Answer.item?, step, nextBack_eq_nthBack] using
      c.nthBack_sublist _
  | size | sizeHint | rest | restReversed => simp [yield?, Step.side?, step]

/-- What was yielded at the two ends and what is still to come keep their order in the list. -/
theorem yielded_sublist (c : Cursor α) (ss : List Step) :
    (c.yielded .front ss ++ (c.after ss).toList ++ (c.yielded .back ss).reverse).Sublist
      c.toList := by
  induction ss generalizing c with
  | nil => simp [yielded, after]
  | cons s ss ih =>
    have hinner := ((List.Sublist.refl (c.yield? .front s).toList).append (ih (c.step s).2)).append
      (List.Sublist.refl (c.yield? .back s).toList)
    simpa [yielded, after, reverse_toList] using hinner.trans (c.step_sublist s)

end Cursor

/-- Any sequence of steps on the cursor of a table is answered as by the list of the values still
to come. So the values yielded at the front, those still to come and those yielded at the back stand
in this order in the table, the size is the number of values still to come, after the end there is
nothing, and another cursor starts over. -/
theorem Table.run_cursor {α : Type} (t : Table α) (ss : List Cursor.Step) :
    t.cursor.run ss = Cursor.Remaining.run t.values ss ∧
    (t.cursor.yielded .front ss ++ (t.cursor.after ss).collect .front ++
      (t.cursor.yielded .back ss).reverse).Sublist t.values ∧
    ((t.cursor.after ss).step .size).1 = .size ((t.cursor.after ss).collect .front).length ∧
    ((t.cursor.after ss).size = 0 → ∀ more,
      t.cursor.run (ss ++ more) = t.cursor.run ss ++ more.map Cursor.Answer.spent) ∧
    (∀ s, ((t.cursor.after ss).step s).1 = .item none → (t.cursor.after (ss ++ [s])).size = 0) ∧
    t.cursor.collect .front = t.values := by
  refine ⟨?_, ?_, ?_, ?_, ?_, ?_⟩
  · rw [Cursor.run_eq, t.toList_cursor]
  · rw [Cursor.collect_eq, ← t.toList_cursor]
    exact t.cursor.yielded_sublist ss
  · rw [Cursor.collect_eq, Cursor.seenFrom, Cursor.length_toList]
    rfl
  · intro hend more
    rw [Cursor.run_append, Cursor.run_of_size_eq_zero hend]
  · intro s hs
    rw [Cursor.after_concat]
    exact Cursor.size_of_step_none hs
  · rw [Cursor.collect_eq, Cursor.seenFrom, t.toList_cursor]

/-- A jump from the back past the front, far beyond the end, leaves nothing. -/
example :
    let t : Table Char := ⟨[], "abcd".toList.map fun c => ⟨c, [c], [c], 0⟩⟩
    t.cursor.run [.nth 1, .nextBack, .size, .nthBack (2 ^ 64 - 1), .next, .sizeHint] =
      [.item (some 'b'), .item (some 'd'), .size 1, .item none, .item none, .sizeHint 0 0] := by
  decide

end EnumReflection
