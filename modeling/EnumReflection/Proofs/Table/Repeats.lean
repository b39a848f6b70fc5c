import EnumReflection.Proofs.Table.FirstDeclared
import EnumReflection.Table.Duplicates

/-!
# Reports of repeated names and values

One pass over the members reports what they repeat. Its invariant is that it knows of each key
what a search of the members so far would find, as a key that was seen is never noted down again. So
a member is reported exactly if an earlier one has its name or its value, the index in the report is
the least one, and the look-ups find the member at that index.
-/
namespace EnumReflection

namespace Duplicate

section
variable {κ : Type} [BEq κ] {key : Member Int → κ} {earlier : List (Member Int)} {m : Member Int}
  {seen : List (κ × Nat)}

/-- The index of the first of some members with a key. -/
def firstWith? (key : Member Int → κ) (ms : List (Member Int)) (k : κ) : Option Nat :=
  (ms.find? (key · == k)).map Member.index

theorem firstWith?_append_self (k : κ) : firstWith? key (earlier ++ [m]) k =
    (firstWith? key earlier k).or (if key m == k then some m.index else none) := by
  by_cases hk : (key m == k) = true
  · simp [firstWith?, List.find?_append, hk]
  · simp [firstWith?, List.find?_append, hk]

/-- What was noted down of each key is the index of the first member that has it. -/
def Knows (key : Member Int → κ) (earlier : List (Member Int)) (seen : List (κ × Nat)) : Prop :=
  ∀ k, seen.lookup k = firstWith? key earlier k

theorem knows_nil : Knows key [] [] := fun _ => rfl

theorem Knows.note_fst (h : Knows key earlier seen) (report : Nat → Duplicate) :
    (note report (key m) m.index seen).1 =
      ((firstWith? key earlier (key m)).map report).toList := by
  rw [note, h]
  cases firstWith? key earlier (key m) <;> rfl

/-- A key is noted down once, at the first member that has it. -/
theorem Knows.note_snd [LawfulBEq κ] (h : Knows key earlier seen) (report : Nat → Duplicate) :
    Knows key (earlier ++ [m]) (note report (key m) m.index seen).2 := by
  intro k
  rw [firstWith?_append_self, note]
  split
  · rename_i first hfirst
    rw [h] at hfirst ⊢
    by_cases hk : key m = k
    · simp [← hk, hfirst]
    · simp [hk]
  · rename_i hnone
    rw [h] at hnone
    by_cases hk : key m = k
    · simp [← hk, hnone]
    · have hne : (k == key m) = false := by simpa using Ne.symm hk
      simp [List.lookup_cons, hne, hk, h k]

theorem pairwise_note (R : Duplicate → Duplicate → Prop) (report : Nat → Duplicate) (k : κ)
    (index : Nat) : (note report k index seen).1.Pairwise R := by
  unfold note
  split <;> simp

theorem exists_of_mem_note {report : Nat → Duplicate} {k : κ} {index : Nat} {d : Duplicate}
    (hd : d ∈ (note report k index seen).1) : ∃ first, d = report first := by
  unfold note at hd
  split at hd
  · exact ⟨_, List.mem_singleton.1 hd⟩
  · cases hd

end

variable {seen : Seen} {earlier ms : List (Member Int)} {m : Member Int} {d : Duplicate}

/-- What a member repeats of earlier ones, as searches for its name and its value find it. -/
def repeated (earlier : List (Member Int)) (m : Member Int) : List Duplicate :=
  ((firstWith? Member.name earlier m.name).map (name m)).toList ++
    ((firstWith? Member.value earlier m.value).map (value m)).toList

/-- What was seen of some members is where each of their names and values stands first. -/
structure Seen.Knows (seen : Seen) (earlier : List (Member Int)) : Prop where
  names : Duplicate.Knows Member.name earlier seen.names
  values : Duplicate.Knows Member.value earlier seen.values

theorem Seen.Knows.ofMember_fst (h : seen.Knows earlier) :
    (ofMember seen m).1 = repeated earlier m := by
  rw [ofMember, repeated, ← h.names.note_fst, ← h.values.note_fst]

theorem Seen.Knows.ofMember_snd (h : seen.Knows earlier) :
    (ofMember seen m).2.Knows (earlier ++ [m]) :=
  ⟨h.names.note_snd (name m), h.values.note_snd (value m)⟩

/-- The pass reports of every member what it repeats of the members before it, and no more. -/
theorem Seen.Knows.mem_among (h : seen.Knows earlier) :
    d ∈ among seen ms ↔ ∃ i m, ms[i]? = some m ∧ d ∈ repeated (earlier ++ ms.take i) m := by
  induction ms generalizing earlier seen with
  | nil => simp [among]
  | cons k ms ih =>
    rw [among, List.mem_append, h.ofMember_fst, ih h.ofMember_snd]
    constructor
    · rintro (hd | ⟨i, m, hm, hd⟩)
      · exact ⟨0, k, rfl, by simpa using hd⟩
      · exact ⟨i + 1, m, hm, by simpa using hd⟩
    · rintro ⟨i, m, hm, hd⟩
      cases i with
      | zero =>
        obtain rfl : k = m := by simpa using hm
        exact Or.inl (by simpa using hd)
      | succ i => exact Or.inr ⟨i, m, hm, by simpa using hd⟩

def member : Duplicate → Member Int
  | .name m _ => m
  | .value m _ => m

/-- Reports come by member, the name of a member before its value. -/
inductive Precedes : Duplicate → Duplicate → Prop
  | member {d e : Duplicate} (h : d.member.index < e.member.index) : Precedes d e
  | nameFirst (m : Member Int) (i j : Nat) : Precedes (.name m i) (.value m j)

theorem member_of_mem_ofMember (hd : d ∈ (ofMember seen m).1) : d.member = m := by
  rcases List.mem_append.1 hd with hd | hd
  all_goals
    obtain ⟨first, rfl⟩ := exists_of_mem_note hd
    rfl

theorem member_mem_of_mem_among (hd : d ∈ among seen ms) : d.member ∈ ms := by
  induction ms generalizing seen with
  | nil => cases hd
  | cons m ms ih =>
    rcases List.mem_append.1 hd with hd | hd
    · simp [member_of_mem_ofMember hd]
    · exact List.mem_cons_of_mem m (ih hd)

theorem pairwise_ofMember : (ofMember seen m).1.Pairwise Precedes := by
  refine List.pairwise_append.2 ⟨pairwise_note _ _ _ _, pairwise_note _ _ _ _, ?_⟩
  intro d hd e he
  obtain ⟨i, rfl⟩ := exists_of_mem_note hd
  obtain ⟨j, rfl⟩ := exists_of_mem_note he
  exact .nameFirst m i j

theorem pairwise_among (hms : ms.Pairwise (·.index < ·.index)) :
    (among seen ms).Pairwise Precedes := by
  induction ms generalizing seen with
  | nil => simp [among]
  | cons m ms ih =>
    obtain ⟨hm, hms⟩ := List.pairwise_cons.1 hms
    refine List.pairwise_append.2 ⟨pairwise_ofMember, ih hms, ?_⟩
    intro d hd e he
    apply Precedes.member
    rw [member_of_mem_ofMember hd]
    exact hm _ (member_mem_of_mem_among he)

end Duplicate

namespace Table

variable {t : Table Int} {κ : Type} {key : Member Int → κ} {m : Member Int} {i j : Nat}

/-- A member has a key of an earlier one, and the first member with this key has an index. -/
structure Repeats (t : Table Int) (key : Member Int → κ) (m : Member Int) (j : Nat) : Prop where
  getElem : t.get? m.index = some m
  lt : j < m.index
  first : ∃ k, IsFirst (key · = key m) t.members j k

theorem mem_duplicates {d : Duplicate} : d ∈ t.duplicates ↔
    ∃ i m, t.get? i = some m ∧ d ∈ Duplicate.repeated (t.members.take i) m := by
  have hknows : Duplicate.Seen.Knows ⟨[], []⟩ [] := ⟨Duplicate.knows_nil, Duplicate.knows_nil⟩
  exact hknows.mem_among

section
variable (ht : t.Indexed)
include ht

theorem pairwise_index : t.members.Pairwise (·.index < ·.index) := by
  rw [List.pairwise_iff_getElem]
  intro i j hi hj hij
  rw [ht i _ (List.getElem?_eq_getElem hi), ht j _ (List.getElem?_eq_getElem hj)]
  exact hij

theorem firstWith?_take_iff [BEq κ] [LawfulBEq κ] {k : κ} :
    Duplicate.firstWith? key (t.members.take i) k = some j ↔
      j < i ∧ ∃ l, IsFirst (key · = k) t.members j l := by
  rw [Duplicate.firstWith?, Option.map_eq_some_iff]
  constructor
  · rintro ⟨l, hl, rfl⟩
    obtain ⟨j, hfirst⟩ := find?_eq_some_iff_isFirst.1 hl
    obtain ⟨hj, hfirst⟩ := IsFirst.take_iff.1 hfirst
    rw [ht j l hfirst.getElem]
    exact ⟨hj, l, hfirst⟩
  · rintro ⟨hj, l, hfirst⟩
    exact ⟨l, find?_eq_some_iff_isFirst.2 ⟨j, IsFirst.take_iff.2 ⟨hj, hfirst⟩⟩,
      ht j l hfirst.getElem⟩

theorem repeats_iff [BEq κ] [LawfulBEq κ] : t.Repeats key m j ↔
    ∃ i, t.get? i = some m ∧ Duplicate.firstWith? key (t.members.take i) (key m) = some j := by
  simp only [firstWith?_take_iff ht]
  constructor
  · rintro ⟨hm, hj, hfirst⟩
    exact ⟨m.index, hm, hj, hfirst⟩
  · rintro ⟨i, hm, hj, hfirst⟩
    obtain rfl := ht i m hm
    exact ⟨hm, hj, hfirst⟩

theorem name_mem_duplicates : .name m j ∈ t.duplicates ↔ t.Repeats Member.name m j := by
  rw [mem_duplicates, repeats_iff ht]
  simp [Duplicate.repeated]

theorem value_mem_duplicates : .value m j ∈ t.duplicates ↔ t.Repeats Member.value m j := by
  rw [mem_duplicates, repeats_iff ht]
  simp [Duplicate.repeated]

theorem exists_repeats_iff (hm : t.get? i = some m) :
    (∃ j, t.Repeats key m j) ↔ ∃ j l, j < i ∧ t.get? j = some l ∧ key l = key m := by
  obtain rfl := ht i m hm
  constructor
  · rintro ⟨j, -, hj, l, hfirst⟩
    exact ⟨j, l, hj, hfirst.getElem, hfirst.holds⟩
  · rintro ⟨j, l, hj, hl, hkey⟩
    have hmem : l ∈ t.members.take m.index :=
      List.mem_of_getElem? ((List.getElem?_take_of_lt hj).trans hl)
    obtain ⟨j, l, hfirst⟩ : ∃ j l, IsFirst (key · = key m) (t.members.take m.index) j l :=
      IsFirst.exists_of_mem hmem hkey
    obtain ⟨hj, hfirst⟩ := IsFirst.take_iff.1 hfirst
    exact ⟨j, hm, hj, l, hfirst⟩

theorem nodup_iff_not_repeats :
    (t.members.map key).Nodup ↔ ∀ m j, ¬ t.Repeats key m j := by
  rw [List.Nodup, List.pairwise_map, List.pairwise_iff_getElem]
  constructor
  · rintro h m j ⟨hm, hj, l, hfirst⟩
    obtain ⟨hlt, rfl⟩ := List.getElem?_eq_some_iff.1 hfirst.getElem
    obtain ⟨hlt', hm⟩ := List.getElem?_eq_some_iff.1 hm
    exact h j m.index hlt hlt' hj (by rw [hm]; exact hfirst.holds)
  · intro h i j hi hj hij heq
    have hm := List.getElem?_eq_getElem hj
    obtain ⟨k, hk⟩ := (exists_repeats_iff ht hm).2 ⟨i, _, hij, List.getElem?_eq_getElem hi, heq⟩
    exact h _ k hk

theorem duplicates_eq_nil_iff : t.duplicates = [] ↔ t.names.Nodup ∧ t.values.Nodup := by
  rw [names, values, nodup_iff_not_repeats ht, nodup_iff_not_repeats ht]
  simp only [← name_mem_duplicates ht, ← value_mem_duplicates ht, List.eq_nil_iff_forall_not_mem]
  constructor
  · intro h
    exact ⟨fun m j => h _, fun m j => h _⟩
  · rintro ⟨hname, hvalue⟩ d
    cases d with
    | name m j => exact hname m j
    | value m j => exact hvalue m j

end

/-- The reports of a table that is built come in order, one for each member with the name of an
earlier one and one for each with the value of an earlier one. They tell the least index of such a
member, and what they say that look-ups find is what look-ups find. -/
theorem duplicates_exact {text : Text} {values : List Int} (h : ofText text values = .ok t) :
    t.duplicates.Pairwise Duplicate.Precedes ∧
    (∀ m j, .name m j ∈ t.duplicates ↔ t.Repeats Member.name m j) ∧
    (∀ m j, .value m j ∈ t.duplicates ↔ t.Repeats Member.value m j) ∧
    (∀ i m, t.get? i = some m →
      ((∃ j, .name m j ∈ t.duplicates) ↔
        ∃ j l, j < i ∧ t.get? j = some l ∧ l.name = m.name) ∧
      ((∃ j, .value m j ∈ t.duplicates) ↔
        ∃ j l, j < i ∧ t.get? j = some l ∧ l.value = m.value)) ∧
    (∀ m j, .name m j ∈ t.duplicates →
      (Duplicate.name m j).message =
        "member ".toList ++ Text.decimal m.index ++ " repeats the name `".toList ++ m.name ++
          "` of member ".toList ++ Text.decimal j ++
          "; lookups by name find member ".toList ++ Text.decimal j ∧
      ∃ l, t.get? j = some l ∧ t.members.find? (·.name == m.name) = some l ∧
        t.valueOf? m.name = some l.value) ∧
    (∀ m j, .value m j ∈ t.duplicates →
      (Duplicate.value m j).message =
        "member ".toList ++ Text.decimal m.index ++ " (`".toList ++ m.name ++
          "`) repeats the value ".toList ++ Text.signedDecimal m.value ++ " of member ".toList ++
          Text.decimal j ++ "; lookups by value find member ".toList ++ Text.decimal j ∧
      t.indexOf m.value = j ∧ t.memberOf? m.value = t.get? j) ∧
    (t.duplicates = [] ↔ t.names.Nodup ∧ t.values.Nodup) := by
  have ht := indexed_of_ofText h
  refine ⟨Duplicate.pairwise_among (pairwise_index ht), fun _ _ => name_mem_duplicates ht,
    fun _ _ => value_mem_duplicates ht, ?_, ?_, ?_, duplicates_eq_nil_iff ht⟩
  · intro i m hm
    simp only [name_mem_duplicates ht, value_mem_duplicates ht]
    exact ⟨exists_repeats_iff ht hm, exists_repeats_iff ht hm⟩
  · intro m j hmem
    obtain ⟨-, -, l, hfirst⟩ := (name_mem_duplicates ht).1 hmem
    refine ⟨rfl, l, hfirst.getElem, ?_, valueOf?_of_isFirst hfirst⟩
    exact find?_eq_some_iff_isFirst.2 ⟨j, hfirst⟩
  · intro m j hmem
    obtain ⟨-, -, l, hfirst⟩ := (value_mem_duplicates ht).1 hmem
    have hindex := indexOf_of_isFirst ht hfirst
    exact ⟨rfl, hindex, by rw [memberOf?_eq_get? ht, hindex]⟩

/-- The last member repeats the name of the first and the value of the second, not of the third. -/
theorem duplicates_exact_crossing :
    let last : Member Int := ⟨2, "A".toList, " A = 2".toList, 3⟩
    let t : Table Int := ⟨"A = 1, B = 2, A = 2, A = 2".toList, [⟨1, "A".toList, "A = 1".toList, 0⟩,
      ⟨2, "B".toList, " B = 2".toList, 1⟩, ⟨2, "A".toList, " A = 2".toList, 2⟩, last]⟩
    ofText t.text [1, 2, 2, 2] = .ok t ∧ .name last 0 ∈ t.duplicates ∧
      .value last 1 ∈ t.duplicates ∧ .value last 2 ∉ t.duplicates ∧ t.indexOf last.value = 1 := by
  intro last t
  have ht : ofText t.text [1, 2, 2, 2] = .ok t := by decide +kernel
  obtain ⟨-, hname, -, hexists, -, hvalue, -⟩ := duplicates_exact ht
  obtain ⟨-, hrepeats⟩ := hexists 3 last rfl
  obtain ⟨j, hj⟩ := hrepeats.2 ⟨1, _, by omega, rfl, rfl⟩
  have hindex : t.indexOf last.value = 1 := by decide
  have hleast {k : Nat} (hk : .value last k ∈ t.duplicates) : k = 1 :=
    (hvalue last k hk).2.1.symm.trans hindex
  refine ⟨ht, (hname last 0).2 ⟨rfl, by decide, _, rfl, rfl, by omega⟩, hleast hj ▸ hj, ?_, hindex⟩
  intro hthird
  cases hleast hthird

end Table

end EnumReflection
