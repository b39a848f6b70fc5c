import EnumReflection.Enumeration
import EnumReflection.Proofs.Table.FirstDeclared
import EnumReflection.Proofs.Table.Iteration
import Mathlib.Data.List.TakeWhile

/-!
# Iteration from a value on

A cursor from a value on is the cursor over all values after one jump, which skips as many values
as stand before the first member with the value. If no member has it, its index is the size and the
jump takes all of them. What is left is a cursor like any other over the tail.
-/
namespace EnumReflection

namespace Table

variable {α : Type}

theorem exists_value_at {t : Table α} {i : Nat} (hi : i < t.size) :
    ∃ w, t.values[i]? = some w ∧ (t.get? i).map Member.value = some w ∧
      (t.cursor.nth i).1 = some w ∧ (t.cursor.nthBack (t.size - 1 - i)).1 = some w := by
  have hlen : t.values.length = t.size := List.length_map _
  have hget : (t.get? i).map Member.value = t.values[i]? := by simp [get?, values]
  have hvalue := List.getElem?_eq_getElem (hlen.symm ▸ hi)
  refine ⟨t.values[i], hvalue, hget.trans hvalue, ?_, ?_⟩
  · rw [Cursor.nth_fst, t.toList_cursor, hvalue]
  · have hplace : t.values.length - 1 - (t.size - 1 - i) = i := by omega
    rw [Cursor.nthBack_fst, t.toList_cursor, List.getElem?_reverse (by omega), hplace, hvalue]

theorem drop_indexOf [DecidableEq α] {t : Table α} (ht : t.Indexed) (v : α) :
    t.values.drop (t.indexOf v) = t.values.dropWhile (¬ · = v) := by
  by_cases hv : v ∈ t.values
  · obtain ⟨m, hfirst⟩ := isFirst_indexOf ht hv
    exact hfirst.map.dropWhile_eq.symm
  · have hother : ∀ w ∈ t.values, decide (¬ w = v) = true := by
      intro w hw
      simpa using ne_of_mem_of_not_mem hw hv
    rw [indexOf_of_not_mem hv, List.dropWhile_eq_nil_iff.2 hother]
    simp [size, values]

theorem exists_drop_indexOf [DecidableEq α] {t : Table α} (ht : t.Indexed) {v : α}
    (hv : v ∈ t.values) : ∃ rest, t.values.drop (t.indexOf v) = v :: rest := by
  obtain ⟨m, hfirst⟩ := isFirst_indexOf ht hv
  have hvalue : t.values[t.indexOf v]? = some v := by
    simp [values, hfirst.getElem, hfirst.holds]
  obtain ⟨hlt, hget⟩ := List.getElem?_eq_some_iff.1 hvalue
  have hdrop := List.drop_eq_getElem_cons hlt
  rw [hget] at hdrop
  exact ⟨_, hdrop⟩

end Table

namespace Enumeration

variable {E : Type} [DecidableEq E]

theorem toList_cursorFrom (t : Table E) (v : E) :
    (cursorFrom t v).toList = t.values.drop (t.indexOf v) := by
  unfold cursorFrom
  split
  · rename_i h
    simp [h]
  · rename_i n h
    simp [h, Cursor.toList_nth]

/-- Whatever enumeration a table was built for, iteration from a value on yields its values without
the longest prefix of other values, and goes on like iteration over that tail. A place of the table
holds the same value for access by index and for iteration from both ends. -/
theorem cursorFrom_tail {text : Text} {values : List E} {t : Table E}
    (h : Table.ofText text values = .ok t) (v : E) :
    (cursorFrom t v).collect .front = t.values.dropWhile (¬ · = v) ∧
    (v ∈ t.values → ∃ m rest, IsFirst (·.value = v) t.members (t.indexOf v) m ∧
      t.values.drop (t.indexOf v) = v :: rest ∧
      (cursorFrom t v).collect .front = v :: rest) ∧
    (v ∉ t.values → (cursorFrom t v).collect .front = []) ∧
    ((cursorFrom t v).step .size).1 = .size (t.size - t.indexOf v) ∧
    (∀ ss, (cursorFrom t v).run ss = Cursor.Remaining.run (t.values.dropWhile (¬ · = v)) ss) ∧
    (∀ u : Table E, u.values = t.values.dropWhile (¬ · = v) →
      ∀ ss, (cursorFrom t v).run ss = u.cursor.run ss) ∧
    ∀ i < t.size, ∃ w, t.values[i]? = some w ∧ (t.get? i).map Member.value = some w ∧
      (t.cursor.nth i).1 = some w ∧ (t.cursor.nthBack (t.size - 1 - i)).1 = some w := by
  have ht := Table.indexed_of_ofText h
  have hlist : (cursorFrom t v).toList = t.values.dropWhile (¬ · = v) :=
    (toList_cursorFrom t v).trans (Table.drop_indexOf ht v)
  have hcollect : (cursorFrom t v).collect .front = t.values.drop (t.indexOf v) := by
    rw [Cursor.collect_eq, Cursor.seenFrom, toList_cursorFrom]
  refine ⟨hcollect.trans (Table.drop_indexOf ht v), ?_, ?_, ?_, ?_, ?_,
    fun i hi => Table.exists_value_at hi⟩
  · intro hv
    obtain ⟨m, hfirst⟩ := Table.isFirst_indexOf ht hv
    obtain ⟨rest, hrest⟩ := Table.exists_drop_indexOf ht hv
    exact ⟨m, rest, hfirst, hrest, hcollect.trans hrest⟩
  · intro hv
    rw [hcollect, Table.indexOf_of_not_mem hv]
    simp [Table.size, Table.values]
  · rw [Cursor.step, ← Cursor.length_toList, toList_cursorFrom]
    simp [Table.size, Table.values]
  · intro ss
    rw [Cursor.run_eq, hlist]
  · intro u hu ss
    apply Cursor.run_congr
    rw [hlist, u.toList_cursor, hu]

/-- Iteration from a value that two members have, and from one that none has. -/
theorem cursorFrom_tail_shared_value :
    let t : Table Int := ⟨"Ten = 10, Twenty = 20, Again = 20, Last = 10".toList,
      [⟨10, "Ten".toList, "Ten = 10".toList, 0⟩, ⟨20, "Twenty".toList, " Twenty = 20".toList, 1⟩,
        ⟨20, "Again".toList, " Again = 20".toList, 2⟩, ⟨10, "Last".toList, " Last = 10".toList, 3⟩]⟩
    Table.ofText t.text [10, 20, 20, 10] = .ok t ∧ (20 : Int) ∈ t.values ∧ (7 : Int) ∉ t.values ∧
      (cursorFrom t 20).collect .front = [20, 20, 10] ∧ (cursorFrom t 7).collect .front = [] ∧
      (cursorFrom t 20).run [.nextBack, .nth 1, .size] =
        [.item (some 10), .item (some 20), .size 0] := by
  intro t
  have ht : Table.ofText t.text [10, 20, 20, 10] = .ok t := by decide +kernel
  have hmem : (20 : Int) ∈ t.values := by simp [Table.values, t]
  have habsent : (7 : Int) ∉ t.values := by simp [Table.values, t]
  obtain ⟨htail, -, -, -, hrun, -, -⟩ := cursorFrom_tail ht 20
  obtain ⟨-, -, hnone, -⟩ := cursorFrom_tail ht 7
  exact ⟨ht, hmem, habsent, htail, hnone habsent, hrun [.nextBack, .nth 1, .size]⟩

end Enumeration

end EnumReflection
