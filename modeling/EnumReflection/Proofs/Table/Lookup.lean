import EnumReflection.Table.Basic
import Mathlib.Data.List.Basic
import Mathlib.Data.List.Nodup

/-!
# Look-ups without repeats

A look-up finds the first member with a key. If no two members share the key, the first one is
the only one, so that a look-up can be undone: a member is found by its value and by its name.
-/
namespace EnumReflection

theorem find?_key_eq_some_iff {α κ : Type} [BEq κ] [LawfulBEq κ] {key : α → κ} {l : List α}
    (h : (l.map key).Nodup) {k : κ} {a : α} :
    l.find? (key · == k) = some a ↔ a ∈ l ∧ key a = k := by
  constructor
  · intro hfind
    have hkey := List.find?_some hfind
    exact ⟨List.mem_of_find?_eq_some hfind, by simpa using hkey⟩
  · rintro ⟨ha, rfl⟩
    cases hfind : l.find? (key · == key a) with
    | none =>
      have hno := List.find?_eq_none.1 hfind a ha
      simp at hno
    | some b =>
      have hkey := List.find?_some hfind
      rw [List.inj_on_of_nodup_map h (List.mem_of_find?_eq_some hfind) ha (by simpa using hkey)]

namespace Table

variable {α : Type} {t : Table α}

theorem valueOf?_eq_some_iff (h : t.names.Nodup) {name : Text} {v : α} :
    t.valueOf? name = some v ↔ ∃ m ∈ t.members, m.name = name ∧ m.value = v := by
  rw [valueOf?, Option.map_eq_some_iff]
  constructor
  · rintro ⟨m, hm, hv⟩
    obtain ⟨hmem, hname⟩ := (find?_key_eq_some_iff h).1 hm
    exact ⟨m, hmem, hname, hv⟩
  · rintro ⟨m, hm, hname, hv⟩
    exact ⟨m, (find?_key_eq_some_iff h).2 ⟨hm, hname⟩, hv⟩

variable [DecidableEq α]

theorem memberOf?_of_mem (h : t.values.Nodup) {m : Member α} (hm : m ∈ t.members) :
    t.memberOf? m.value = some m := (find?_key_eq_some_iff h).2 ⟨hm, rfl⟩

theorem indexOf_of_mem (h : t.values.Nodup) {m : Member α} (hm : m ∈ t.members) :
    t.indexOf m.value = m.index := by
  rw [indexOf, memberOf?_of_mem h hm]
  rfl

theorem nameOf_of_mem (h : t.values.Nodup) {m : Member α} (hm : m ∈ t.members) :
    t.nameOf m.value = m.name := by
  rw [nameOf, memberOf?_of_mem h hm]
  rfl

end Table

end EnumReflection
