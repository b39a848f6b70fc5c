import EnumReflection.Proofs.Body
import EnumReflection.Proofs.Bytes.Trivia

/-!
# Which apostrophes open a character literal

An escape is told by the apostrophe that ends it, which is looked for in a few bytes behind the
backslash, and not by its letters. That gives the grammar of literals exactly where the text up to
the next apostrophe is short if and only if it is an escape. A bare apostrophe between two others
is taken for a literal too.
-/
namespace EnumReflection.Lexeme
open Segment (IsHex)

/-- The digits of a numeric escape, at most six. Underscores may stand behind the first. -/
structure IsScalar (ds : Text) : Prop where
  head : ∃ d r, ds = d :: r ∧ IsHex d
  all : ∀ d ∈ ds, IsHex d ∨ d = '_'
  count : ds.countP (· != '_') ≤ 6

/-- What can follow the backslash of an escape. -/
inductive IsEscape : Text → Prop
  | letter {c : Char} : c ∈ ['n', 'r', 't', '\\', '0', '\'', '"'] → IsEscape [c]
  | byte {c d : Char} : IsHex c → IsHex d → IsEscape ['x', c, d]
  | scalar {ds : Text} : IsScalar ds → IsEscape ('u' :: '{' :: (ds ++ ['}']))

/-- What follows the apostrophe that opens a character literal, through the one that closes it. -/
inductive IsLiteralTail : Text → Prop
  | single {c : Char} : c ≠ '\'' → c ≠ '\\' → IsLiteralTail [c, '\'']
  | escaped {e : Text} : IsEscape e → IsLiteralTail ('\\' :: (e ++ ['\'']))

/-- An apostrophe behind one text and before another is read as the grammar says: past the closing
apostrophe of the literal that it opens, and alone if it opens none. -/
structure ReadsLiteral (s r : Text) : Prop where
  literal : ∀ p rest, r = p ++ rest → IsLiteralTail p →
    next '\'' r = (.character ('\'' :: p), rest) ∧
      Bytes.characterEnd (s ++ '\'' :: r) s.byteLength = .ok (s ++ '\'' :: p).byteLength
  alone : (∀ p rest, r = p ++ rest → ¬ IsLiteralTail p) →
    next '\'' r = (.plain '\'', r) ∧
      Bytes.characterEnd (s ++ '\'' :: r) s.byteLength = .ok (s.byteLength + 1)

/-- The texts in which the search for an apostrophe does not mislead. -/
structure Regular (r : Text) : Prop where
  quoted : ¬ ['\'', '\''] <+: r
  escaped : ∀ c q rest, r = '\\' :: c :: (q ++ '\'' :: rest) → '\'' ∉ q →
    (Text.byteLength (c :: q) < escapeWindow ↔ IsEscape (c :: q))

theorem IsEscape.exists_cons {e : Text} (h : IsEscape e) : ∃ c q, e = c :: q ∧ '\'' ∉ q := by
  have hhex {c : Char} (hc : IsHex c) : '\'' ≠ c := (Segment.hex_facts hc).1.symm
  cases h with
  | @letter c _ => exact ⟨c, [], rfl, by simp⟩
  | @byte c d hc hd => exact ⟨'x', [c, d], rfl, by simp [hhex hc, hhex hd]⟩
  | @scalar ds hds =>
    refine ⟨'u', '{' :: (ds ++ ['}']), rfl, ?_⟩
    have hfree : '\'' ∉ ds := by
      intro hmem
      rcases hds.all _ hmem with hh | hh
      · exact hhex hh rfl
      · exact absurd hh (by decide)
    simp [hfree]

theorem isLiteralTail_single_iff {c : Char} : IsLiteralTail [c, '\''] ↔ c ≠ '\'' ∧ c ≠ '\\' := by
  constructor
  · intro h
    generalize he : [c, '\''] = p at h
    cases h with
    | single hq hb =>
      cases he
      exact ⟨hq, hb⟩
    | @escaped e hesc =>
      obtain ⟨d, q, rfl, -⟩ := hesc.exists_cons
      simp at he
  · rintro ⟨hq, hb⟩
    exact .single hq hb

theorem isLiteralTail_escaped_iff {e : Text} (hne : e ≠ []) :
    IsLiteralTail ('\\' :: (e ++ ['\''])) ↔ IsEscape e := by
  refine ⟨?_, .escaped⟩
  intro h
  generalize he : '\\' :: (e ++ ['\'']) = p at h
  cases h with
  | single hq hb =>
    cases e with
    | nil => exact absurd rfl hne
    | cons d e => simp at he
  | escaped hesc =>
    have happ : e = _ := List.append_cancel_right (List.cons.inj he).2
    rw [happ]
    exact hesc

theorem closing?_eq_some_iff {window : Nat} {t p rest : Text} :
    closing? window t = some (p, rest) ↔
      ∃ q, p = q ++ ['\''] ∧ t = q ++ '\'' :: rest ∧ '\'' ∉ q ∧ Text.byteLength q < window := by
  induction t generalizing window p with
  | nil => simp [closing?]
  | cons c t ih =>
    rw [closing?]
    by_cases hw : window = 0
    · simp [hw]
    by_cases hc : c = '\''
    · rw [if_neg hw, if_pos hc]
      constructor
      · rintro ⟨⟩
        exact ⟨[], by simp [hc], by simp [hc], by simp, by simpa using Nat.pos_of_ne_zero hw⟩
      · rintro ⟨q, rfl, ht, hq, -⟩
        cases q with
        | nil =>
          cases ht
          rfl
        | cons d q =>
          cases ht
          exact absurd hc (fun he => hq (by simp [he]))
    · rw [if_neg hw, if_neg hc, Option.map_eq_some_iff]
      constructor
      · rintro ⟨⟨p', r⟩, hp, he⟩
        cases he
        obtain ⟨q, rfl, rfl, hq, hlen⟩ := ih.1 hp
        refine ⟨c :: q, rfl, rfl, by simp [Ne.symm hc, hq], ?_⟩
        rw [Text.byteLength_cons]
        omega
      · rintro ⟨q, rfl, ht, hq, hlen⟩
        cases q with
        | nil =>
          cases ht
          exact absurd rfl hc
        | cons d q =>
          cases ht
          rw [Text.byteLength_cons] at hlen
          exact ⟨(q ++ ['\''], rest), ih.2 ⟨q, rfl, rfl, fun hm => hq (by simp [hm]), by omega⟩, rfl⟩

theorem characterTail?_backslash {c : Char} {s p rest : Text} :
    characterTail? ('\\' :: c :: s) = some (p, rest) ↔
      ∃ q, p = '\\' :: c :: (q ++ ['\'']) ∧ s = q ++ '\'' :: rest ∧ '\'' ∉ q ∧
        Text.byteLength (c :: q) < escapeWindow := by
  rw [characterTail?, Option.map_eq_some_iff]
  constructor
  · rintro ⟨⟨p', r⟩, hp, he⟩
    cases he
    obtain ⟨q, rfl, rfl, hq, hlen⟩ := closing?_eq_some_iff.1 hp
    refine ⟨q, rfl, rfl, hq, ?_⟩
    rw [Text.byteLength_cons]
    omega
  · rintro ⟨q, rfl, rfl, hq, hlen⟩
    rw [Text.byteLength_cons] at hlen
    exact ⟨(q ++ ['\''], rest), closing?_eq_some_iff.2 ⟨q, rfl, rfl, hq, by omega⟩, rfl⟩

theorem characterTail?_of_ne {c : Char} (hc : c ≠ '\\') {s p rest : Text} :
    characterTail? (c :: s) = some (p, rest) ↔ p = [c, '\''] ∧ s = '\'' :: rest := by
  cases s with
  | nil => simp [characterTail?]
  | cons d s =>
    by_cases hd : d = '\''
    · subst hd
      rw [characterTail?.eq_2 c s (fun he => absurd he hc)]
      simp [eq_comm]
    · have hnone : characterTail? (c :: d :: s) = none := by
        unfold characterTail?
        split
        · rename_i heq
          cases heq
          exact absurd rfl hc
        · rename_i heq
          cases heq
          exact absurd rfl hd
        · rfl
      simp [hnone, hd]

/-- The reader takes a text exactly if it is the rest of a literal. -/
def TakesLiterals (r : Text) : Prop :=
  ∀ p rest, characterTail? r = some (p, rest) ↔ r = p ++ rest ∧ IsLiteralTail p

theorem takesLiterals_backslash (c : Char) (s : Text) :
    TakesLiterals ('\\' :: c :: s) ↔ Regular ('\\' :: c :: s) := by
  constructor
  · intro h
    refine ⟨by simp, ?_⟩
    intro d q rest hr hq
    obtain ⟨rfl, rfl⟩ : c = d ∧ s = q ++ '\'' :: rest := by simpa using hr
    have htakes := h ('\\' :: c :: (q ++ ['\''])) rest
    have hescape := isLiteralTail_escaped_iff (List.cons_ne_nil c q)
    rw [List.cons_append] at hescape
    rw [characterTail?_backslash, hescape] at htakes
    simpa [hq] using htakes
  · intro h p rest
    rw [characterTail?_backslash]
    constructor
    · rintro ⟨q, rfl, rfl, hq, hlen⟩
      exact ⟨by simp, .escaped (e := c :: q) ((h.escaped c q rest rfl hq).1 hlen)⟩
    · rintro ⟨hr, hp⟩
      cases hp with
      | single _ hb =>
        simp only [List.cons_append, List.cons.injEq] at hr
        exact absurd hr.1.symm hb
      | escaped hesc =>
        obtain ⟨d, q, rfl, hq⟩ := hesc.exists_cons
        obtain ⟨rfl, rfl⟩ : c = d ∧ s = q ++ '\'' :: rest := by simpa using hr
        exact ⟨q, rfl, rfl, hq, (h.escaped c q rest rfl hq).2 hesc⟩

theorem takesLiterals_of_ne {c : Char} (hc : c ≠ '\\') (s : Text) :
    TakesLiterals (c :: s) ↔ Regular (c :: s) := by
  constructor
  · intro h
    refine ⟨?_, fun d q rest hr => absurd (List.cons.inj hr).1 hc⟩
    rintro ⟨rest, hr⟩
    cases hr
    have hp := ((h ['\'', '\''] rest).1 ((characterTail?_of_ne hc).2 ⟨rfl, rfl⟩)).2
    exact (isLiteralTail_single_iff.1 hp).1 rfl
  · intro h p rest
    rw [characterTail?_of_ne hc]
    constructor
    · rintro ⟨rfl, rfl⟩
      have hq : c ≠ '\'' := by
        rintro rfl
        exact h.quoted ⟨rest, rfl⟩
      exact ⟨rfl, .single hq hc⟩
    · rintro ⟨hr, hp⟩
      cases hp with
      | single =>
        cases hr
        exact ⟨rfl, rfl⟩
      | escaped => exact absurd (List.cons.inj hr).1 hc

theorem IsLiteralTail.two_le_length {p : Text} (h : IsLiteralTail p) : 2 ≤ p.length := by
  cases h with
  | single => simp
  | escaped => simp

/-- A text too short for a literal is never taken for one. -/
theorem takesLiterals_of_short {r : Text} (hr : r.length < 2) : TakesLiterals r ↔ Regular r := by
  have hnone : characterTail? r = none := by
    match r, hr with
    | [], _ => rfl
    | [c], _ =>
      by_cases hc : c = '\\'
      · rw [hc]
        rfl
      · simp [Option.eq_none_iff_forall_ne_some, characterTail?_of_ne hc]
  have htakes : TakesLiterals r := by
    intro p rest
    rw [hnone]
    refine ⟨by simp, ?_⟩
    rintro ⟨rfl, hp⟩
    have hlen := hp.two_le_length
    rw [List.length_append] at hr
    omega
  have hregular : Regular r := by
    constructor
    · intro h
      exact absurd h.length_le (Nat.not_le.2 hr)
    · rintro c q rest rfl -
      simp only [List.length_cons] at hr
      omega
  exact iff_of_true htakes hregular

theorem takesLiterals_iff (r : Text) : TakesLiterals r ↔ Regular r := by
  match r with
  | [] => exact takesLiterals_of_short (by simp)
  | [c] => exact takesLiterals_of_short (by simp)
  | c :: d :: s =>
    by_cases hc : c = '\\'
    · rw [hc]
      exact takesLiterals_backslash d s
    · exact takesLiterals_of_ne hc (d :: s)

theorem next_of_characterTail? {r p rest : Text} (h : characterTail? r = some (p, rest)) :
    next '\'' r = (.character ('\'' :: p), rest) := by
  simp [next, h]

theorem next_of_characterTail?_none {r : Text} (h : characterTail? r = none) :
    next '\'' r = (.plain '\'', r) := by
  simp [next, h]

/-- The offset behind an apostrophe is the end of the lexeme that it starts. -/
theorem characterEnd_eq (s r : Text) : Bytes.characterEnd (s ++ '\'' :: r) s.byteLength =
    .ok (s ++ (next '\'' r).1.text).byteLength := by
  have hat : Bytes.At (s ++ '\'' :: r) s.byteLength ('\'' :: r) := ⟨s, rfl, rfl⟩
  obtain ⟨stop, hstop, hrest⟩ := Bytes.characterEnd_at hat
  have hafter : ((characterTail? r).map (·.2)).getD r = (next '\'' r).2 := by
    cases h : characterTail? r with
    | none => rw [next_of_characterTail?_none h]; rfl
    | some p => rw [next_of_characterTail? h]; rfl
  have hadd := hrest.add
  have happ := congrArg Text.byteLength (next_append '\'' r)
  rw [hafter, Text.byteLength_append s] at hadd
  rw [Text.byteLength_append] at happ
  rw [hstop, Text.byteLength_append]
  congr 1
  omega

theorem readsLiteral_of_takesLiterals (s : Text) {r : Text} (h : TakesLiterals r) :
    ReadsLiteral s r where
  literal := by
    intro p rest hr hp
    have hnext := next_of_characterTail? ((h p rest).2 ⟨hr, hp⟩)
    rw [characterEnd_eq, hnext]
    exact ⟨rfl, rfl⟩
  alone := by
    intro hno
    have hnone : characterTail? r = none := by
      rw [Option.eq_none_iff_forall_not_mem]
      rintro ⟨p, rest⟩ hp
      obtain ⟨hr, htail⟩ := (h p rest).1 hp
      exact hno p rest hr htail
    rw [characterEnd_eq, next_of_characterTail?_none hnone, Text.byteLength_append]
    exact ⟨rfl, rfl⟩

theorem takesLiterals_of_readsLiteral {s r : Text} (h : ReadsLiteral s r) : TakesLiterals r := by
  intro p rest
  constructor
  · intro hp
    have hnext := next_of_characterTail? hp
    by_cases hno : ∀ p rest, r = p ++ rest → ¬ IsLiteralTail p
    · rw [(h.alone hno).1] at hnext
      cases hnext
    · simp only [not_forall, not_not] at hno
      obtain ⟨p', rest', hr, htail⟩ := hno
      rw [(h.literal p' rest' hr htail).1] at hnext
      cases hnext
      exact ⟨hr, htail⟩
  · rintro ⟨hr, htail⟩
    have hnext := (h.literal p rest hr htail).1
    cases hp : characterTail? r with
    | none =>
      rw [next_of_characterTail?_none hp] at hnext
      cases hnext
    | some q =>
      rw [next_of_characterTail? hp] at hnext
      cases hnext
      rfl

/-- An apostrophe hides exactly the literal that it opens if and only if it is not quoted bare and
the text between a backslash behind it and the next apostrophe is short exactly when it is an
escape. -/
theorem readsLiteral_iff_regular (s r : Text) : ReadsLiteral s r ↔ Regular r := by
  rw [← takesLiterals_iff]
  exact ⟨takesLiterals_of_readsLiteral, readsLiteral_of_takesLiterals s⟩

/-- A misspelled escape takes the comma behind it, a bare apostrophe counts as a literal, and an
escape of seven places is overlooked, so that its last apostrophe hides the next comma. -/
theorem apostrophe_misread :
    let misspelled := "\\q,'".toList
    let bare := "'','".toList
    let long := "\\u\x7b10_FFFF\x7d',','".toList
    (∀ p rest, misspelled = p ++ rest → ¬ IsLiteralTail p) ∧
      next '\'' misspelled = (.character ('\'' :: misspelled), []) ∧
      Segment.commaFrom ('\'' :: misspelled) 0 = 5 ∧
    (∀ p rest, bare = p ++ rest → ¬ IsLiteralTail p) ∧
      next '\'' bare = (.character "'''".toList, ",'".toList) ∧
      Segment.commaFrom ('\'' :: bare) 0 = 3 ∧
    (∃ p rest, long = p ++ rest ∧ IsLiteralTail p ∧ rest = ",','".toList) ∧
      next '\'' long = (.plain '\'', long) ∧ Segment.commaFrom ('\'' :: long) 0 = 15 := by
  intro misspelled bare long
  refine ⟨?_, by decide +kernel, by decide +kernel, ?_, by decide +kernel, by decide +kernel,
    ⟨"\\u\x7b10_FFFF\x7d'".toList, ",','".toList, by decide, ?_, rfl⟩, by decide +kernel,
    by decide +kernel⟩
  · intro p rest hr hp
    change ['\\', 'q', ',', '\''] = p ++ rest at hr
    cases hp with
    | single _ hb => exact hb (List.cons.inj hr).1.symm
    | escaped hesc =>
      cases hesc with
      | letter => cases hr
      | byte => cases hr
      | scalar => cases hr
  · intro p rest hr hp
    change ['\'', '\'', ',', '\''] = p ++ rest at hr
    cases hp with
    | single hq _ => exact hq (List.cons.inj hr).1.symm
    | escaped => cases hr
  · have hdigits : IsScalar "10_FFFF".toList :=
      ⟨⟨'1', "0_FFFF".toList, rfl, by decide⟩, Text.forall_of_all (by decide), by decide⟩
    exact .escaped (.scalar hdigits)

end EnumReflection.Lexeme
