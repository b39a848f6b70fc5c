import EnumReflection.Proofs.Enumeration.Agreement
import EnumReflection.Proofs.Messages
import EnumReflection.Proofs.Table.Outcome
import Mathlib.Data.Fin.VecNotation

/-!
# What becomes of the table of an enumeration

The counted values, the text and the identifiers of an enumeration are checked against its variants
one after the other. The outcome is said here of these lists alone, with the reasons for a refusal
in the order in which they win. Values and names are compared pair by pair, and only after the
lists are known to be equally long, so that no pair is left out.
-/
namespace EnumReflection

namespace Enumeration

variable {E : Type} {e : Enumeration E} {text : Text} {idents : List Text}
  {written : List (Option Int)}

/-- A variant beside the value counted for it, which is not its discriminant. -/
def Misvalued (e : Enumeration E) (p : E × Int) : Prop := e.discriminant p.1 ≠ p.2

/-- A member beside its identifier, which is not its name. -/
def Misnamed (p : Member E × Text) : Prop := p.1.name ≠ bareIdent p.2

/-- Each variant has one counted value, which is its discriminant. -/
structure Valued (e : Enumeration E) (written : List (Option Int)) : Prop where
  slots : written.length = e.variants.length
  discriminants : e.variants.map e.discriminant = Numbering.values e.type written

/-- What becomes of an enumeration. Each reason for a refusal rules out the ones before it. -/
inductive Outcome (e : Enumeration E) (text : Text) (idents : List Text)
    (written : List (Option Int)) : Except BuildError (Table E) → Prop
  | valueCount (slots : written.length ≠ e.variants.length) :
      Outcome e text idents written (.error (.valueCount written.length e.variants.length))
  | value {i : Nat} {v : E} {n : Int} (slots : written.length = e.variants.length)
      (first : IsFirst (Misvalued e) (e.variants.zip (Numbering.values e.type written)) i (v, n)) :
      Outcome e text idents written (.error (.value i n (e.discriminant v)))
  | malformed {cause : TableError} (valued : Valued e written)
      (refused : Table.Refused text e.variants cause) :
      Outcome e text idents written (.error (.malformed cause))
  | nameCount {t : Table E} (valued : Valued e written) (built : Table.ofText text e.variants = .ok t)
      (count : idents.length ≠ e.variants.length) :
      Outcome e text idents written (.error (.nameCount idents.length e.variants.length))
  | name {t : Table E} {i : Nat} {m : Member E} {ident : Text} (valued : Valued e written)
      (built : Table.ofText text e.variants = .ok t) (count : idents.length = e.variants.length)
      (first : IsFirst Misnamed (t.members.zip idents) i (m, ident)) :
      Outcome e text idents written (.error (.name i ident m.name))
  | table {t : Table E} (valued : Valued e written) (built : Table.ofText text e.variants = .ok t)
      (names : t.names = idents.map bareIdent) : Outcome e text idents written (.ok t)

theorem map_eq_map_of_zip {α β γ : Type} {f : α → γ} {g : β → γ} {xs : List α} {ys : List β}
    (hlen : xs.length = ys.length) (h : ∀ p ∈ xs.zip ys, f p.1 = g p.2) : xs.map f = ys.map g := by
  induction xs generalizing ys with
  | nil =>
    rw [List.eq_nil_of_length_eq_zero hlen.symm]
    rfl
  | cons x xs ih =>
    obtain ⟨y, ys, rfl⟩ := List.exists_cons_of_length_pos (l := ys) (by simp [← hlen])
    have hrest := ih (by simpa using hlen) fun p hp => h p (by simp [hp])
    rw [List.map_cons, List.map_cons, h (x, y) (by simp), hrest]

theorem misvalued?_of_first {index i : Nat} {vs : List E} {ns : List Int} {v : E} {n : Int}
    (h : IsFirst (Misvalued e) (vs.zip ns) i (v, n)) :
    e.misvalued? index vs ns = some (.value (index + i) n (e.discriminant v)) := by
  induction vs generalizing index i ns with
  | nil => simp at h
  | cons w vs ih =>
    cases ns with
    | nil => simp at h
    | cons k ns =>
      rw [List.zip_cons_cons] at h
      rw [misvalued?]
      cases i with
      | zero =>
        obtain ⟨heq, hw⟩ := IsFirst.cons_zero.1 h
        cases heq
        rw [if_neg hw, Nat.add_zero]
      | succ i =>
        obtain ⟨hw, h⟩ := IsFirst.cons_succ.1 h
        rw [if_pos (Decidable.not_not.1 hw), ih h, Nat.add_right_comm, Nat.add_assoc]

theorem misnamed?_of_first {i : Nat} {ms : List (Member E)} {idents : List Text} {m : Member E}
    {ident : Text} (h : IsFirst Misnamed (ms.zip idents) i (m, ident)) :
    misnamed? ms idents = some (.name m.index ident m.name) := by
  induction ms generalizing i idents with
  | nil => simp at h
  | cons k ms ih =>
    cases idents with
    | nil => simp at h
    | cons x idents =>
      rw [List.zip_cons_cons] at h
      rw [misnamed?]
      cases i with
      | zero =>
        obtain ⟨heq, hk⟩ := IsFirst.cons_zero.1 h
        cases heq
        rw [if_neg hk]
      | succ i =>
        obtain ⟨hk, h⟩ := IsFirst.cons_succ.1 h
        rw [if_pos (Decidable.not_not.1 hk), ih h]

theorem Valued.misvalued?_eq (h : Valued e written) :
    e.misvalued? 0 e.variants (Numbering.values e.type written) = none :=
  (misvalued?_eq_none (by rw [Numbering.length_values, h.slots])).2 h.discriminants

theorem Valued.build_eq (h : Valued e written) :
    e.build text idents written =
      match Table.ofText text e.variants with
      | .error cause => .error (.malformed cause)
      | .ok t =>
        if idents.length ≠ t.size then .error (.nameCount idents.length t.size)
        else
          match misnamed? t.members idents with
          | some refusal => .error refusal
          | none => .ok t := by
  have hslots : (Numbering.values e.type written).length = e.variants.length := by
    rw [Numbering.length_values, h.slots]
  unfold build
  dsimp only
  rw [if_neg (not_not_intro hslots)]
  split
  · rename_i refusal hrefusal
    rw [h.misvalued?_eq] at hrefusal
    cases hrefusal
  · rfl

theorem size_of_ofText {t : Table E} (h : Table.ofText text e.variants = .ok t) :
    t.size = e.variants.length := (Table.holds_of_ofText h).length_eq

theorem build_of_outcome {r : Except BuildError (Table E)} (h : Outcome e text idents written r) :
    e.build text idents written = r := by
  cases h with
  | valueCount slots =>
    simp only [build, Numbering.length_values, ne_eq, slots, not_false_eq_true, if_true]
  | value slots first =>
    simp only [build, Numbering.length_values, slots, ne_eq, not_true_eq_false, if_false,
      misvalued?_of_first first, Nat.zero_add]
  | malformed valued refused => rw [valued.build_eq, Table.ofText_of_refused refused]
  | nameCount valued built count =>
    rw [valued.build_eq, built]
    simp only [size_of_ofText built, ne_eq, count, not_false_eq_true, if_true]
  | @name t i m ident valued built count first =>
    have hget := (List.getElem?_zip_eq_some.1 first.getElem).1
    have hindex : m.index = i := ((Table.holds_of_ofText built).member i m hget).2.1
    rw [valued.build_eq, built]
    simp only [size_of_ofText built, count, ne_eq, not_true_eq_false, if_false,
      misnamed?_of_first first, hindex]
  | table valued built names => exact Agrees.build_eq ⟨valued.discriminants, built, names⟩

theorem exists_outcome (e : Enumeration E) (text : Text) (idents : List Text)
    (written : List (Option Int)) : ∃ r, Outcome e text idents written r := by
  by_cases slots : written.length = e.variants.length
  swap
  · exact ⟨_, .valueCount slots⟩
  by_cases hvalued : ∀ p ∈ e.variants.zip (Numbering.values e.type written), ¬ Misvalued e p
  swap
  · simp only [not_forall, not_not] at hvalued
    obtain ⟨p, hp, hmis⟩ := hvalued
    obtain ⟨i, q, first⟩ := IsFirst.exists_of_mem hp hmis
    exact ⟨_, .value slots first⟩
  have valued : Valued e written := by
    refine ⟨slots, ?_⟩
    have hmap := map_eq_map_of_zip (f := e.discriminant) (g := id)
      (by rw [Numbering.length_values, slots]) fun p hp => Decidable.not_not.1 (hvalued p hp)
    rwa [List.map_id] at hmap
  cases htable : Table.ofText text e.variants with
  | error cause =>
    rcases Table.named_or_refused text e.variants with ⟨hcount, hn⟩ | ⟨cause, refused⟩
    · obtain ⟨t, ht, -⟩ := Table.ofText_of_named (Table.named_iff.1 hn) hcount
      rw [htable] at ht
      cases ht
    · exact ⟨_, .malformed valued refused⟩
  | ok t =>
    by_cases count : idents.length = e.variants.length
    swap
    · exact ⟨_, .nameCount valued htable count⟩
    by_cases hnamed : ∀ p ∈ t.members.zip idents, ¬ Misnamed p
    · have names : t.names = idents.map bareIdent :=
        map_eq_map_of_zip ((size_of_ofText htable).trans count.symm)
          fun p hp => Decidable.not_not.1 (hnamed p hp)
      exact ⟨_, .table valued htable names⟩
    · simp only [not_forall, not_not] at hnamed
      obtain ⟨p, hp, hmis⟩ := hnamed
      obtain ⟨i, q, first⟩ := IsFirst.exists_of_mem hp hmis
      exact ⟨_, .name valued htable count first⟩

/-- An identifier in the source, which may have the mark of a raw one, and the name that it
stands for. -/
def StandsFor (ident name : Text) : Prop :=
  ident = "r#".toList ++ name ∨ ident = name ∧ ¬ "r#".toList <+: ident

/-- Every source of truth on an enumeration says the same of each of its members. -/
structure Consistent (e : Enumeration E) (text : Text) (idents : List Text)
    (written : List (Option Int)) : Prop where
  slots : written.length = e.variants.length
  values : ∀ (i : Nat) (v : E), e.variants[i]? = some v →
    (Numbering.values e.type written)[i]? = some (e.discriminant v)
  table : ∃ t, Table.ofText text e.variants = .ok t
  count : idents.length = e.variants.length
  names : ∀ (i : Nat) (s : Segment) (ident : Text), (Segment.segments text)[i]? = some s →
    idents[i]? = some ident → ∃ name, Name.ofSegment? s.text = some name ∧ StandsFor ident name

theorem consistent_iff :
    (∃ t, e.build text idents written = .ok t) ↔ Consistent e text idents written := by
  constructor
  · rintro ⟨t, ht⟩
    have agrees := agrees_of_build ht
    have holds := Table.holds_of_ofText agrees.table
    refine ⟨?_, ?_, ⟨t, agrees.table⟩, ?_, ?_⟩
    · rw [← Numbering.length_values e.type, agrees.slots]
    · intro i v hv
      rw [← agrees.values, List.getElem?_map, hv, Option.map_some]
    · rw [agrees.idents_length, size_of_ofText agrees.table]
    · intro i s ident hs hident
      have hname := congrArg (·[i]?) agrees.names
      simp only [Table.names, List.getElem?_map, hident, Option.map_some] at hname
      obtain ⟨m, hm, hmi⟩ := Option.map_eq_some_iff.1 hname
      obtain ⟨-, -, s', hs', -, hread⟩ := holds.member i m hm
      rw [hs] at hs'
      cases hs'
      exact ⟨m.name, hread, bareIdent_eq_iff.1 hmi.symm⟩
  · intro h
    obtain ⟨t, ht⟩ := h.table
    have holds := Table.holds_of_ofText ht
    have hvalues : e.variants.map e.discriminant = Numbering.values e.type written := by
      apply List.ext_getElem?
      intro i
      by_cases hi : i < e.variants.length
      · rw [List.getElem?_map, List.getElem?_eq_getElem hi, Option.map_some,
          h.values i _ (List.getElem?_eq_getElem hi)]
      · rw [List.getElem?_eq_none (by simpa using hi), List.getElem?_eq_none (by simp [h.slots]; omega)]
    have hnames : t.names = idents.map bareIdent := by
      apply map_eq_map_of_zip (holds.length_eq.trans h.count.symm)
      intro p hp
      obtain ⟨i, hi⟩ := List.getElem?_of_mem hp
      obtain ⟨hm, hident⟩ := List.getElem?_zip_eq_some.1 hi
      obtain ⟨-, -, s, hs, -, hread⟩ := holds.member i p.1 hm
      obtain ⟨name, hname, hstands⟩ := h.names i s p.2 hs hident
      rw [hread] at hname
      cases hname
      exact (bareIdent_eq_iff.2 hstands).symm
    exact ⟨t, Agrees.build_eq ⟨hvalues, ht, hnames⟩⟩

/-- An enumeration has exactly the outcome that its lists give it: a table if and only if every
source of truth agrees, and that table is the one of its text. The message of a refusal says what
disagrees. -/
theorem build_outcome (e : Enumeration E) (text : Text) (idents : List Text)
    (written : List (Option Int)) :
    (∀ r, e.build text idents written = r ↔ Outcome e text idents written r) ∧
    ((∃ t, e.build text idents written = .ok t) ↔ Consistent e text idents written) ∧
    (∀ t, e.build text idents written = .ok t → Table.ofText text e.variants = .ok t ∧
      ∀ (i : Nat) (v : E), e.variants[i]? = some v → ∃ m ident, t.members[i]? = some m ∧
        idents[i]? = some ident ∧ m.value = v ∧ m.index = i ∧ StandsFor ident m.name) ∧
    ∀ refusal, e.build text idents written = .error refusal →
      refusal.Tells e.name (refusal.message e.name) := by
  obtain ⟨r, hr⟩ := exists_outcome e text idents written
  have hbuild := build_of_outcome hr
  refine ⟨?_, consistent_iff, ?_, fun refusal _ => BuildError.tells_message e.name refusal⟩
  · intro r'
    constructor
    · intro h
      rw [← h, hbuild]
      exact hr
    · exact build_of_outcome
  · intro t ht
    have agrees := agrees_of_build ht
    refine ⟨agrees.table, fun i v hv => ?_⟩
    obtain ⟨m, ident, hm, hident, hvalue, hindex, hname⟩ := agrees.exists_member hv
    exact ⟨m, ident, hm, hident, hvalue, hindex, bareIdent_eq_iff.1 hname.symm⟩

/-- An enumeration in which a value, the text and a name are wrong is refused for the value. -/
example :
    let e : Enumeration (Fin 3) := ⟨"Manual".toList, .i8, [0, 1, 2], ![-1, 0, 7], [], [], []⟩
    (e.build "Low, 0".toList ["Up".toList] [some (-1), some 1, some 8]) =
      .error (.value 1 1 0) := by decide +kernel

end Enumeration

end EnumReflection
