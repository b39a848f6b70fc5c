import EnumReflection.Proofs.Body
import EnumReflection.Proofs.Bytes.Trivia

/-!
# Commas over bytes

The search for a comma looks at single bytes beside an angle sign, while the cut of a text knows
the lexemes there. Both see the same, since a literal or comment ends with a mark of its own, or
where the line ends. The nesting is at most as far from zero as the position is from the start, so
it stays in 32 bits on every text of less than two to the power of 31 bytes.
-/
namespace EnumReflection

theorem Trivia.getLast?_block {t : Text} (h : (block t).2 ≠ []) :
    (block t).1.getLast? = some '/' := by
  fun_induction block t with
  | case1 => exact absurd rfl h
  | case2 r => rfl
  | case3 c r _ ih =>
    have hi := ih h
    rw [Prod.map_fst, List.getLast?_cons, hi]
    rfl

theorem Lexeme.getLast?_closing? {window : Nat} {t p r : Text}
    (h : closing? window t = some (p, r)) : p.getLast? = some '\'' := by
  induction t generalizing window p with
  | nil => cases h
  | cons c t ih =>
    rw [closing?] at h
    split at h
    · cases h
    split at h
    · rename_i hc
      cases h
      rw [hc]
      rfl
    · obtain ⟨q, hq, he⟩ := Option.map_eq_some_iff.1 h
      cases he
      rw [List.getLast?_cons, ih hq]
      rfl

theorem Lexeme.getLast?_characterTail? {t p r : Text} (h : characterTail? t = some (p, r)) :
    p.getLast? = some '\'' := by
  unfold characterTail? at h
  split at h
  · obtain ⟨q, hq, he⟩ := Option.map_eq_some_iff.1 h
    cases he
    rw [List.getLast?_cons, List.getLast?_cons, getLast?_closing? hq]
    rfl
  · cases h
    rfl
  · cases h

theorem Lexeme.next_cases (c : Char) (r : Text) :
    (c = '"' ∧ next c r = (.string (c :: (stringTail r).1), (stringTail r).2)) ∨
    (c = '\'' ∧ ∃ inside rest, characterTail? r = some (inside, rest) ∧
      next c r = (.character (c :: inside), rest)) ∨
    (∃ remark rest, Trivia.comment? (c :: r) = some (remark, rest) ∧
      next c r = (.comment remark, rest)) ∨
    (c ≠ '"' ∧ (c = '\'' → characterTail? r = none) ∧ Trivia.comment? (c :: r) = none ∧
      next c r = (.plain c, r)) := by
  unfold next
  by_cases hq : c = '"'
  · exact .inl ⟨hq, by rw [if_pos hq]⟩
  rw [if_neg hq]
  by_cases ha : c = '\''
  · have hcomment : Trivia.comment? (c :: r) = none :=
      Trivia.comment?_eq_none fun hs => absurd (ha.symm.trans hs) (by decide)
    rw [if_pos ha]
    cases htail : characterTail? r with
    | none => exact .inr (.inr (.inr ⟨hq, fun _ => rfl, hcomment, rfl⟩))
    | some p => exact .inr (.inl ⟨ha, p.1, p.2, rfl, rfl⟩)
  · rw [if_neg ha]
    cases hcomment : Trivia.comment? (c :: r) with
    | none => exact .inr (.inr (.inr ⟨hq, fun he => absurd he ha, rfl, rfl⟩))
    | some p => exact .inr (.inr (.inl ⟨p.1, p.2, rfl, rfl⟩))

theorem Lexeme.text_next_ne_nil (c : Char) (r : Text) : (next c r).1.text ≠ [] := by
  intro he
  have hhead := head?_text_next c r
  rw [he] at hhead
  cases hhead

theorem Trivia.getLast?_comment? {t remark rest : Text} {d : Char} (hd : d = '<' ∨ d = '>')
    (h : comment? t = some (remark, rest)) (hrest : rest.head? = some d) :
    remark.getLast? = some '/' := by
  unfold comment? at h
  split at h
  · rename_i r
    cases h
    have hline := List.head?_dropWhile_not (!endsLine ·) r
    rw [hrest] at hline
    rcases hd with rfl | rfl <;> exact absurd hline (by decide)
  · rename_i r
    cases h
    have hne : (block r).2 ≠ [] := by
      intro he
      rw [he] at hrest
      cases hrest
    rw [List.getLast?_cons, List.getLast?_cons, getLast?_block hne]
    rfl
  · cases h

theorem Lexeme.getLast?_next {c d : Char} {r : Text} (hd : d = '<' ∨ d = '>')
    (hrest : (next c r).2.head? = some d) :
    (next c r).1.text.getLast? = some d ↔ (next c r).1 = .plain d := by
  rcases next_cases c r with ⟨-, h⟩ | ⟨-, inside, rest, htail, h⟩ | ⟨remark, rest, hcomment, h⟩ |
    ⟨-, -, -, h⟩
  · rw [h] at hrest ⊢
    have hne : (stringTail r).2 ≠ [] := by
      intro he
      rw [he] at hrest
      cases hrest
    obtain ⟨s, -, he⟩ := Segment.exists_quoted hne
    rcases hd with rfl | rfl <;> simp [text, he, List.getLast?_cons]
  · rw [h]
    have hlast := getLast?_characterTail? htail
    rcases hd with rfl | rfl <;> simp [text, hlast, List.getLast?_cons]
  · rw [h] at hrest ⊢
    have hlast := Trivia.getLast?_comment? hd hcomment hrest
    rcases hd with rfl | rfl <;> simp [text, hlast]
  · rw [h]
    simp [text]

namespace Bytes

theorem literalEnd?_at {t r : Text} {c : Char} {pos : Nat} {b : UInt8} (h : At t pos (c :: r))
    (hleads : Leads b c) :
    (literalEnd? t pos b = .ok none ∧ Lexeme.next c r = (.plain c, r)) ∨
    (c ∈ ['"', '\'', '/'] ∧
      ∃ stop, literalEnd? t pos b = .ok (some stop) ∧ At t stop (Lexeme.next c r).2) := by
  unfold literalEnd?
  by_cases hq : c = '"'
  · subst hq
    obtain ⟨stop, hstop, hat⟩ := stringEnd_at h
    rw [if_pos (hleads.eq (by decide)), hstop]
    exact .inr ⟨by simp, stop, rfl, hat⟩
  rw [if_neg (hleads.ne (by decide) hq)]
  by_cases ha : c = '\''
  · subst ha
    obtain ⟨stop, hstop, hat⟩ := characterEnd_at h
    rw [if_pos (hleads.eq (by decide)), hstop]
    refine .inr ⟨by simp, stop, rfl, ?_⟩
    cases htail : Lexeme.characterTail? r
    all_goals
      rw [htail] at hat
      simpa [Lexeme.next, htail] using hat
  rw [if_neg (hleads.ne (by decide) ha)]
  by_cases hs : c = '/'
  · subst hs
    have hfinds := commentEnd?_at h
    rw [if_pos (hleads.eq (by decide))]
    cases hcomment : Trivia.comment? ('/' :: r) with
    | none =>
      rw [hcomment] at hfinds
      exact .inl ⟨hfinds, by simp [Lexeme.next, hcomment]⟩
    | some p =>
      rw [hcomment] at hfinds
      obtain ⟨stop, hstop, hat⟩ := hfinds
      exact .inr ⟨by simp, stop, hstop, by simpa [Lexeme.next, hcomment] using hat⟩
  · rw [if_neg (hleads.ne (by decide) hs)]
    exact .inl ⟨rfl, Segment.next_plain hq ha hs r⟩

/-- In front of an angle sign the lexeme before is the same sign exactly if the character before
is. -/
def Beside (s : Text) (before : Option Lexeme) (u : Text) : Prop :=
  ∀ d, d = '<' ∨ d = '>' → u.head? = some d →
    (s.getLast? = some d ↔ before = some (.plain d))

theorem beside_next (s : Text) (c : Char) (r : Text) :
    Beside (s ++ (Lexeme.next c r).1.text) (some (Lexeme.next c r).1) (Lexeme.next c r).2 := by
  intro d hd hrest
  rw [List.getLast?_append_of_ne_nil _ (Lexeme.text_next_ne_nil c r), Lexeme.getLast?_next hd hrest,
    Option.some_inj]

theorem byteAt_before {s u : Text} (hs : s ≠ []) {d : Char} (hd : IsAscii d) :
    ∃ b, byteAt (s ++ u) (s.byteLength - 1) = .ok b ∧
      (b = d.toUInt8 ↔ s.getLast? = some d) := by
  obtain ⟨v, e, rfl⟩ := (List.eq_nil_or_concat s).resolve_left hs
  have hat : At (v.concat e ++ u) (Text.byteLength v) (e :: u) := ⟨v, by simp, rfl⟩
  have hlen : Text.byteLength (v.concat e) - 1 = Text.byteLength v + (e.utf8Size - 1) := by
    rw [List.concat_eq_append]
    have hpos := e.utf8Size_pos
    simp only [Text.byteLength_append, Text.byteLength_cons, Text.byteLength_nil]
    omega
  rw [hlen, List.concat_eq_append, List.getLast?_concat, Option.some_inj,
    ← List.concat_eq_append]
  by_cases he : IsAscii e
  · obtain ⟨b, hb, hleads⟩ := hat.exists_byteAt
    rw [utf8Size_eq_one_iff.2 he]
    exact ⟨b, hb, hleads.eq_iff hd⟩
  · have hpos := e.utf8Size_pos
    obtain ⟨b, hb, hlarge⟩ := hat.large he (show e.utf8Size - 1 < e.utf8Size by omega)
    refine ⟨b, hb, fun h => absurd h (ne_of_large hlarge hd), ?_⟩
    rintro rfl
    exact absurd hd he

theorem touches_at {s r : Text} {c : Char} {before : Option Lexeme} (hc : c = '<' ∨ c = '>')
    (h : Beside s before (c :: r)) :
    touches (s ++ c :: r) s.byteLength c.toUInt8 =
      .ok (decide (before = some (.plain c) ∨ Lexeme.first? r = some (.plain c))) := by
  have hascii : IsAscii c := by rcases hc with rfl | rfl <;> decide
  have hat : At (s ++ c :: r) s.byteLength (c :: r) := ⟨s, rfl, rfl⟩
  have hafter : (byte? (s ++ c :: r) (s.byteLength + 1) == some c.toUInt8) =
      decide (Lexeme.first? r = some (.plain c)) := by
    rw [Bool.eq_iff_iff, beq_iff_eq, (hat.cons_ascii hascii).byte?_eq_iff hascii,
      decide_eq_true_iff]
    constructor
    · intro hhead
      obtain ⟨v, rfl⟩ := List.head?_eq_some_iff.1 hhead
      exact Segment.first?_angle hc v
    · exact not_imp_not.1 Segment.first?_ne_plain
  have hbefore : follows (s ++ c :: r) s.byteLength c.toUInt8 =
      .ok (decide (before = some (.plain c))) := by
    have hbeside := h c hc rfl
    rw [follows]
    by_cases hs : s = []
    · subst hs
      have hnone : before ≠ some (.plain c) := fun he => by simpa using hbeside.2 he
      simp [hnone]
    · have hlen : 0 < s.byteLength :=
        Nat.pos_of_ne_zero fun h0 => hs (Text.byteLength_eq_zero.1 h0)
      obtain ⟨b, hb, hiff⟩ := byteAt_before (u := c :: r) hs hascii
      rw [if_pos hlen, hb, map_ok]
      congr 1
      rw [Bool.eq_iff_iff, beq_iff_eq, hiff, hbeside, decide_eq_true_iff]
  rw [touches, hbefore, ok_bind, hafter, Bool.decide_or]
  rfl

theorem turn_at {s r : Text} {c : Char} {b : UInt8} {before : Option Lexeme} (hleads : Leads b c)
    (h : Beside s before (c :: r)) :
    turn (s ++ c :: r) s.byteLength b =
      .ok (Segment.turn before (.plain c) (Lexeme.first? r)) := by
  have heq {d : Char} (hd : IsAscii d) : (b = d.toUInt8) = (c = d) := propext (hleads.eq_iff hd)
  have htouches (hc : c = '<' ∨ c = '>') := touches_at hc h
  have hb (hc : c = '<' ∨ c = '>') : b = c.toUInt8 :=
    hleads.eq (by rcases hc with rfl | rfl <;> decide)
  simp only [turn, Segment.turn, heq (d := '(') (by decide), heq (d := '[') (by decide),
    heq (d := '{') (by decide), heq (d := ')') (by decide), heq (d := ']') (by decide),
    heq (d := '}') (by decide), heq (d := '<') (by decide), heq (d := '>') (by decide)]
  by_cases hopen : c = '(' ∨ c = '[' ∨ c = '{'
  · rw [if_pos hopen, if_pos hopen]
    rfl
  rw [if_neg hopen, if_neg hopen]
  by_cases hclose : c = ')' ∨ c = ']' ∨ c = '}'
  · rw [if_pos hclose, if_pos hclose]
    rfl
  rw [if_neg hclose, if_neg hclose]
  by_cases hless : c = '<'
  · rw [if_pos hless, hb (.inl hless), htouches (.inl hless), ok_bind, if_pos hless]
    simp only [decide_eq_true_iff]
    rfl
  rw [if_neg hless, if_neg hless]
  by_cases hgreater : c = '>'
  · rw [if_pos hgreater, hb (.inr hgreater), htouches (.inr hgreater), ok_bind, if_pos hgreater]
    simp only [decide_eq_true_iff]
    rfl
  · rw [if_neg hgreater, if_neg hgreater, ite_self]
    rfl

theorem turn_bounds (before : Option Lexeme) (l : Lexeme) (after : Option Lexeme) :
    -1 ≤ Segment.turn before l after ∧ Segment.turn before l after ≤ 1 := by
  unfold Segment.turn
  split
  · repeat' split
    all_goals decide
  · decide

theorem comma_of_byteAt {t : Text} {nesting : Int} {pos : Nat} {b : UInt8}
    (h : byteAt t pos = .ok b) :
    comma t nesting pos =
      if b = ','.toUInt8 ∧ nesting ≤ 0 then .ok pos
      else literalEnd? t pos b >>= fun
        | some stop => if pos < stop then comma t nesting stop else .error .endless
        | none => turn t pos b >>= fun change => fit .i32 (nesting + change) >>= fun nesting =>
          comma t nesting (pos + 1) := by
  rw [comma, dif_pos (lt_of_byteAt h), h]
  rfl

theorem fit_of_contains {ty : IntType} {v : Int} (h : ty.Contains v) : fit ty v = .ok v := if_pos h

theorem comma_of_large {t : Text} {nesting : Int} (hnesting : IntType.i32.Contains nesting)
    {pos : Nat} (h : Large t pos) : comma t nesting pos = comma t nesting (pos + 1) := by
  obtain ⟨b, hb, hlarge⟩ := h
  have hne {d : Char} (hd : IsAscii d) : ¬ b = d.toUInt8 := ne_of_large hlarge hd
  have hliteral : literalEnd? t pos b = .ok none := by
    rw [literalEnd?, if_neg (hne (by decide)), if_neg (hne (by decide)), if_neg (hne (by decide))]
    rfl
  have hturn : turn t pos b = .ok 0 := by
    simp only [turn, hne (d := '(') (by decide), hne (d := '[') (by decide),
      hne (d := '{') (by decide), hne (d := ')') (by decide), hne (d := ']') (by decide),
      hne (d := '}') (by decide), hne (d := '<') (by decide), hne (d := '>') (by decide), or_self,
      if_false]
    rfl
  rw [comma_of_byteAt hb, if_neg fun hcomma => hne (by decide) hcomma.1, hliteral, ok_bind, hturn,
    ok_bind, Int.add_zero, fit_of_contains hnesting, ok_bind]

/-- The nesting that a text of some length can reach. -/
structure Bounded (s : Text) (nesting : Int) : Prop where
  low : -(s.byteLength : Int) ≤ nesting
  high : nesting ≤ s.byteLength

theorem Bounded.contains {s : Text} {nesting : Int} (h : Bounded s nesting) {u : Text}
    (hlen : (s ++ u).byteLength < Nat.pow 2 31) : IntType.i32.Contains nesting := by
  obtain ⟨hlow, hhigh⟩ := h
  rw [Text.byteLength_append] at hlen
  have hmin : IntType.i32.min = -2147483648 := by decide
  have hmax : IntType.i32.max = 2147483647 := by decide
  have hpow : Nat.pow 2 31 = 2147483648 := by decide
  rw [IntType.Contains, hmin, hmax]
  omega

theorem Bounded.turn {s v : Text} {nesting : Int} (h : Bounded s nesting) (hv : v ≠ [])
    (before : Option Lexeme) (l : Lexeme) (after : Option Lexeme) :
    Bounded (s ++ v) (nesting + Segment.turn before l after) := by
  obtain ⟨hlow, hhigh⟩ := h
  obtain ⟨hturn, hturn'⟩ := turn_bounds before l after
  have hlen : v.byteLength ≠ 0 := fun h0 => hv (Text.byteLength_eq_zero.1 h0)
  constructor <;> rw [Text.byteLength_append] <;> omega

theorem turn_of_literal {c : Char} (hc : c ∈ ['"', '\'', '/']) (before : Option Lexeme) (r : Text)
    (after : Option Lexeme) : Segment.turn before (Lexeme.next c r).1 after = 0 := by
  cases hl : (Lexeme.next c r).1 with
  | plain d =>
    obtain rfl := Segment.eq_of_next_eq_plain hl
    simp only [List.mem_cons, List.not_mem_nil, or_false] at hc
    rcases hc with rfl | rfl | rfl <;> simp [Segment.turn]
  | string t => rfl
  | character t => rfl
  | comment t => rfl

/-- Off a top-level comma the search goes on after the next lexeme, with the nesting there. -/
theorem comma_step {s r : Text} {c : Char} {before : Option Lexeme} {nesting : Int}
    (hbeside : Beside s before (c :: r)) (hbounded : Bounded s nesting)
    (hlen : (s ++ c :: r).byteLength < Nat.pow 2 31)
    (h : ¬ ((Lexeme.next c r).1 = .plain ',' ∧ nesting ≤ 0)) :
    comma (s ++ c :: r) nesting s.byteLength =
      comma (s ++ c :: r)
        (nesting + Segment.turn before (Lexeme.next c r).1 (Lexeme.first? (Lexeme.next c r).2))
        (s ++ (Lexeme.next c r).1.text).byteLength := by
  have hat : At (s ++ c :: r) s.byteLength (c :: r) := ⟨s, rfl, rfl⟩
  have happ := Lexeme.next_append c r
  have hne := Lexeme.text_next_ne_nil c r
  obtain ⟨b, hb, hleads⟩ := hat.exists_byteAt
  have hcomma : ¬ (b = ','.toUInt8 ∧ nesting ≤ 0) := by
    rintro ⟨hb, hn⟩
    obtain rfl := (hleads.eq_iff (by decide)).1 hb
    exact h ⟨by rw [Segment.next_comma], hn⟩
  rw [comma_of_byteAt hb, if_neg hcomma]
  rcases literalEnd?_at hat hleads with ⟨hnone, hnext⟩ | ⟨hc, stop, hstop, hend⟩
  · have hcontains : IntType.i32.Contains
        (nesting + Segment.turn before (.plain c) (Lexeme.first? r)) := by
      apply (hbounded.turn (List.cons_ne_nil c []) before (.plain c) _).contains
      rwa [List.append_assoc]
    rw [hnone, ok_bind, turn_at hleads hbeside, ok_bind, fit_of_contains hcontains, ok_bind,
      hat.pass fun _ _ => comma_of_large hcontains, hnext, Text.byteLength_append]
    rfl
  · have hlt : s.byteLength < stop := by
      rw [← happ] at hat hend
      exact hat.lt_stop hne hend
    have hstop' : stop = (s ++ (Lexeme.next c r).1.text).byteLength := by
      have hadd := hend.add
      rw [← happ, ← List.append_assoc, Text.byteLength_append _ (Lexeme.next c r).2] at hadd
      exact Nat.add_right_cancel hadd
    rw [hstop, ok_bind]
    simp only [if_pos hlt]
    rw [turn_of_literal hc, Int.add_zero, hstop']

/-- The search for a comma ends where the cut of the text that is left does. -/
theorem comma_append {s u : Text} {before : Option Lexeme} {nesting : Int}
    (hbeside : Beside s before u) (hbounded : Bounded s nesting)
    (hlen : (s ++ u).byteLength < Nat.pow 2 31) :
    comma (s ++ u) nesting s.byteLength =
      .ok (s ++ (Segment.cut before nesting u).1).byteLength := by
  fun_induction Segment.cut before nesting u generalizing s with
  | case1 before nesting =>
    rw [comma, dif_neg (by simp)]
    rfl
  | case2 before nesting c r _ l =>
    rename_i h
    obtain rfl : c = ',' := Segment.eq_of_next_eq_plain h.1
    have hat : At (s ++ ',' :: r) s.byteLength (',' :: r) := ⟨s, rfl, rfl⟩
    obtain ⟨b, hb, hleads⟩ := hat.exists_byteAt
    rw [comma_of_byteAt hb, if_pos ⟨hleads.eq (by decide), h.2⟩, List.append_nil]
  | case3 before nesting c r _ l rest h =>
    rename_i ih
    have happ : c :: r = l.text ++ rest := (Lexeme.next_append c r).symm
    have hturned := hbounded.turn (Lexeme.text_next_ne_nil c r) before l (Lexeme.first? rest)
    have hi := ih (beside_next s c r) hturned (by rwa [List.append_assoc, ← happ])
    rw [List.append_assoc, ← happ, List.append_assoc] at hi
    rw [comma_step hbeside hbounded hlen h, Prod.map_fst]
    exact hi

/-- What stands before a segment: nothing, or a text up to a comma. -/
def Fresh (s : Text) : Prop := s = [] ∨ s.getLast? = some ','

theorem fresh_nil : Fresh [] := .inl rfl

theorem fresh_comma (s : Text) : Fresh (s ++ [',']) := .inr (by simp)

theorem Fresh.beside {s : Text} (h : Fresh s) (u : Text) : Beside s none u := by
  intro d hd _
  rcases h with rfl | h
  · simp
  · rw [h]
    rcases hd with rfl | rfl <;> simp

theorem bounded_zero (s : Text) : Bounded s 0 := ⟨by omega, by omega⟩

theorem commaFrom_append {s u : Text} (hs : Fresh s) (hlen : (s ++ u).byteLength < Nat.pow 2 31) :
    commaFrom (s ++ u) s.byteLength = .ok (s ++ (Segment.cut none 0 u).1).byteLength := by
  rw [commaFrom, Nat.min_eq_left (by simp), comma_append (hs.beside u) (bounded_zero s) hlen]

theorem at_cut (s u : Text) :
    At (s ++ u) (s ++ (Segment.cut none 0 u).1).byteLength (Segment.cut none 0 u).2 :=
  ⟨s ++ (Segment.cut none 0 u).1, by rw [List.append_assoc, Segment.cut_append], rfl⟩

theorem slice_cut (s u : Text) :
    slice s.byteLength (s ++ (Segment.cut none 0 u).1).byteLength (s ++ u) =
      .ok (Segment.cut none 0 u).1 := by
  have hat : At (s ++ u) s.byteLength ((Segment.cut none 0 u).1 ++ (Segment.cut none 0 u).2) :=
    ⟨s, by rw [Segment.cut_append], rfl⟩
  exact hat.slice_eq (at_cut s u)

theorem segmentsFrom_append {s u : Text} (hs : Fresh s)
    (hlen : (s ++ u).byteLength < Nat.pow 2 31) :
    segmentsFrom (s ++ u) s.byteLength = .ok (Segment.place s.byteLength (Segment.bodies u)) := by
  have happ := Segment.cut_append none 0 u
  have hadd := (at_cut s u).add
  rw [segmentsFrom, commaFrom_append hs hlen, ok_bind, slice_cut, ok_bind, Segment.bodies_eq_cut,
    Segment.place]
  rcases hcut : Segment.cut none 0 u with ⟨v, w⟩
  have hsnd := Segment.cut_snd none 0 u
  rw [hcut] at happ hadd hsnd
  dsimp only at happ hadd hsnd
  rcases hsnd with rfl | ⟨r, rfl⟩
  · rw [dif_neg (by rw [← hadd]; exact Nat.lt_irrefl _)]
    simp only [Segment.following, Segment.place, Text.byteLength_append]
    rfl
  · have hcomma : Text.byteLength (',' :: r) = 1 + Text.byteLength r := rfl
    have hlt : (s ++ v).byteLength < (s ++ u).byteLength := by omega
    have hle : s.byteLength ≤ (s ++ v).byteLength := by simp
    have htext : s ++ u = s ++ v ++ [','] ++ r := by simp [← happ]
    have hstart : (s ++ v).byteLength + 1 = (s ++ v ++ [',']).byteLength :=
      (Text.byteLength_append (s ++ v) [',']).symm
    have hlength : r.length < u.length := by
      rw [← happ, List.length_append, List.length_cons]
      omega
    rw [dif_pos hlt, dif_pos hle, hstart]
    rw [htext] at hlen ⊢
    rw [segmentsFrom_append (fresh_comma (s ++ v)) hlen, ← hstart, Text.byteLength_append]
    rfl
termination_by u.length

theorem segments_eq {t : Text} (h : t.byteLength < Nat.pow 2 31) :
    segments t = .ok (Segment.segments t) := segmentsFrom_append (u := t) fresh_nil h

theorem countFrom_eq (count : Nat) (lastBlank : Bool) (ts : List Text) :
    countFrom count lastBlank ts =
      .ok (count + ts.length, (ts.getLast?.map Trivia.isBlank).getD lastBlank) := by
  induction ts generalizing count lastBlank with
  | nil => rfl
  | cons t ts ih =>
    rw [countFrom, isBlank_eq, ok_bind, ih, List.length_cons, List.getLast?_cons]
    have hcount : count + 1 + ts.length = count + (ts.length + 1) := by omega
    rw [hcount]
    cases ts.getLast? <;> rfl

theorem memberCount_eq {t : Text} (h : t.byteLength < Nat.pow 2 31) :
    memberCount t = .ok (Segment.memberCount t) := by
  have hlast : ((Segment.bodies t).getLast?.map Trivia.isBlank).getD false =
      Segment.endsBlank (Segment.bodies t) := by
    rw [Segment.endsBlank]
    cases (Segment.bodies t).getLast? <;> rfl
  rw [memberCount, segments_eq h, ok_bind, Segment.map_text_segments, countFrom_eq, ok_bind, hlast,
    Segment.memberCount, Segment.memberBodies, Nat.zero_add]
  obtain ⟨b, bs, hb⟩ := List.exists_cons_of_ne_nil (Segment.bodies_ne_nil t)
  dsimp only
  split
  · rw [List.length_dropLast, hb]
    rfl
  · rfl

end Bytes

end EnumReflection
