import EnumReflection.Proofs.Cut
import EnumReflection.Proofs.Layout
import EnumReflection.Text.Digit

/-!
# Well-formed bodies of members

A body is built of characters that delimit nothing, closed literals, comments with their ends,
shift signs and bracketed groups, in which commas may stand as well. Splitting recovers every
list of such bodies from the text that joins them with commas: a derivation is followed by the
cut that reads it, which is as deep in brackets after the derived text as before it.
-/
namespace EnumReflection.Segment
open Trivia (IsComment IsLayout)

/-- The inside of a closed string literal. -/
inductive Quoted : Text → Prop
  | nil : Quoted []
  | plain {c : Char} {s : Text} : c ≠ '"' → c ≠ '\\' → Quoted s → Quoted (c :: s)
  | escape {c : Char} {s : Text} : Quoted s → Quoted ('\\' :: c :: s)

def IsHex (c : Char) : Prop := (Text.digitValue? c).isSome

instance (c : Char) : Decidable (IsHex c) :=
  inferInstanceAs (Decidable ((Text.digitValue? c).isSome = true))

/-- The escapes of a character literal. -/
inductive Escape : Text → Prop
  | letter {c : Char} : c ∈ ['n', 'r', 't', '0', '\\', '\'', '"'] → Escape ['\\', c]
  | byte {c d : Char} : IsHex c → IsHex d → Escape ['\\', 'x', c, d]
  | scalar {ds : Text} : 1 ≤ ds.length → ds.length ≤ 6 → (∀ d ∈ ds, IsHex d) →
      Escape ('\\' :: 'u' :: '{' :: (ds ++ ['}']))

/-- The characters that start a literal or a comment, or that can delimit. -/
def marks : List Char := [',', '"', '\'', '/', '(', ')', '[', ']', '{', '}', '<', '>']

/-- The pieces of a body that are well-formed wherever they stand. -/
inductive Atom : Text → Prop
  | plain {c : Char} : c ∉ marks → Atom [c]
  | string {s : Text} : Quoted s → Atom ('"' :: (s ++ ['"']))
  | character {c : Char} : c ≠ '\'' → c ≠ '\\' → Atom ['\'', c, '\'']
  | escaped {e : Text} : Escape e → Atom ('\'' :: (e ++ ['\'']))
  | comment {r : Text} : IsComment r → Atom r
  | shiftLeft : Atom ['<', '<']
  | shiftRight : Atom ['>', '>']

/-- The brackets that count wherever they stand. -/
inductive Pair : Char → Char → Prop
  | round : Pair '(' ')'
  | square : Pair '[' ']'
  | curly : Pair '{' '}'

/-- Well-formed text between two characters, with or without commas of its own. Next to these
characters and to its own, a slash must not open a comment and a single angle sign must not look
like half of a shift sign. -/
inductive Body : Bool → Option Char → Text → Option Char → Prop
  | nil {commas : Bool} {before after : Option Char} : Body commas before [] after
  | atom {commas : Bool} {before after : Option Char} {a r : Text} :
      Atom a → Body commas a.getLast? r after → Body commas before (a ++ r) after
  | slash {commas : Bool} {before after : Option Char} {r : Text} :
      r.head?.or after ≠ some '/' → r.head?.or after ≠ some '*' →
      Body commas (some '/') r after → Body commas before ('/' :: r) after
  | comma {before after : Option Char} {r : Text} :
      Body true (some ',') r after → Body true before (',' :: r) after
  | group {commas : Bool} {before after : Option Char} {o c : Char} {t r : Text} :
      Pair o c → Body true (some o) t (some c) → Body commas (some c) r after →
      Body commas before (o :: (t ++ c :: r)) after
  | angle {commas : Bool} {before after : Option Char} {t r : Text} :
      before ≠ some '<' → t.head? ≠ some '<' → t.getLast? ≠ some '>' →
      r.head?.or after ≠ some '>' →
      Body true (some '<') t (some '>') → Body commas (some '>') r after →
      Body commas before ('<' :: (t ++ '>' :: r)) after

/-- Well-formed text with no comma outside its brackets, literals and comments. -/
def WellFormed (t : Text) : Prop := Body false none t none

def prepend (s : Text) (p : Text × Text) : Text × Text := (s ++ p.1, p.2)

theorem prepend_append (s t : Text) (p : Text × Text) :
    prepend (s ++ t) p = prepend s (prepend t p) := by
  simp [prepend]

/-- A single angle sign that comes before is the character that comes before. -/
def Follows (before : Option Lexeme) (b : Option Char) : Prop :=
  ∀ c, c = '<' ∨ c = '>' → before = some (.plain c) → b = some c

theorem follows_plain (c : Char) : Follows (some (.plain c)) (some c) := by
  rintro d - h
  cases h
  rfl

theorem follows_of_text {l : Lexeme} (h : ∀ c, l ≠ .plain c) (b : Option Char) :
    Follows (some l) b := by
  intro c _ he
  exact absurd (Option.some.inj he) (h c)

theorem cut_cons {c : Char} {r rest : Text} {l : Lexeme} (h : Lexeme.next c r = (l, rest))
    (before : Option Lexeme) (nesting : Int) (hl : l = .plain ',' → 0 < nesting) :
    cut before nesting (c :: r) =
      prepend l.text (cut (some l) (nesting + turn before l (Lexeme.first? rest)) rest) := by
  have hne : ¬ (l = .plain ',' ∧ nesting ≤ 0) := by
    rintro ⟨he, hn⟩
    have := hl he
    omega
  rw [cut, h]
  simp only
  rw [if_neg hne]
  rfl

theorem cut_cons_text {c : Char} {r rest : Text} {l : Lexeme} (h : Lexeme.next c r = (l, rest))
    (before : Option Lexeme) (nesting : Int) (hl : ∀ d, l ≠ .plain d) :
    cut before nesting (c :: r) = prepend l.text (cut (some l) nesting rest) := by
  have hturn : turn before l (Lexeme.first? rest) = 0 := by
    cases l with
    | plain d => exact absurd rfl (hl d)
    | string t => rfl
    | character t => rfl
    | comment t => rfl
  rw [cut_cons h before nesting (fun he => absurd he (hl ',')), hturn, Int.add_zero]

theorem next_plain {c : Char} (hq : c ≠ '"') (ha : c ≠ '\'') (hs : c ≠ '/') (r : Text) :
    Lexeme.next c r = (.plain c, r) := by
  have hnone : Trivia.comment? (c :: r) = none := Trivia.comment?_eq_none fun he => absurd he hs
  simp [Lexeme.next, hq, ha, hnone]

theorem stringTail_quoted {s : Text} (h : Quoted s) (t : Text) :
    Lexeme.stringTail (s ++ '"' :: t) = (s ++ ['"'], t) := by
  induction h with
  | nil => rfl
  | @plain c s hq hb _ ih =>
    have hesc : ∀ (d : Char) (u : Text), c = '\\' → s ++ '"' :: t = d :: u → False :=
      fun _ _ he _ => hb he
    have hquote : c = '"' → False := fun he => hq he
    rw [List.cons_append, Lexeme.stringTail.eq_4 _ _ hesc hquote, ih]
    rfl
  | escape _ ih =>
    rw [List.cons_append, List.cons_append, Lexeme.stringTail, ih]
    rfl

theorem exists_quoted {t : Text} (h : (Lexeme.stringTail t).2 ≠ []) :
    ∃ s, Quoted s ∧ (Lexeme.stringTail t).1 = s ++ ['"'] := by
  fun_induction Lexeme.stringTail t with
  | case1 => exact absurd rfl h
  | case2 c r ih =>
    obtain ⟨s, hs, he⟩ := ih h
    exact ⟨'\\' :: c :: s, .escape hs, by simp [he]⟩
  | case3 r => exact ⟨[], .nil, rfl⟩
  | case4 c r hesc hquote ih =>
    obtain ⟨s, hs, he⟩ := ih h
    refine ⟨c :: s, .plain hquote ?_ hs, by simp [he]⟩
    rintro rfl
    cases r with
    | nil => exact h rfl
    | cons d r => exact hesc d r rfl rfl

theorem closing?_append_quote (window : Nat) {ds : Text}
    (hds : ∀ d ∈ ds, d ≠ '\'' ∧ d.utf8Size = 1) (hw : ds.length < window) (t : Text) :
    Lexeme.closing? window (ds ++ '\'' :: t) = some (ds ++ ['\''], t) := by
  induction ds generalizing window with
  | nil =>
    have hw : window ≠ 0 := by simpa using Nat.ne_of_gt hw
    simp [Lexeme.closing?, hw]
  | cons d ds ih =>
    obtain ⟨hd, hsize⟩ := hds d (by simp)
    simp only [List.length_cons] at hw
    have hi := ih (window - 1) (fun e he => hds e (by simp [he])) (by omega)
    rw [List.cons_append, Lexeme.closing?, if_neg (by omega), if_neg hd, hsize, hi]
    rfl

theorem hex_facts {c : Char} (h : IsHex c) : c ≠ '\'' ∧ c.utf8Size = 1 := by
  have hrange : c.toNat ≤ 102 ∧ c.toNat ≠ 39 := by
    unfold IsHex Text.digitValue? at h
    split at h
    · rename_i hd
      simp only [Char.isDigit, Bool.and_eq_true, decide_eq_true_eq] at hd
      have h1 : 48 ≤ c.toNat := hd.1
      have h2 : c.toNat ≤ 57 := hd.2
      omega
    split at h
    · omega
    split at h
    · omega
    · cases h
  constructor
  · rintro rfl
    exact hrange.2 rfl
  · rw [Char.utf8Size, if_pos]
    have : c.val.toNat ≤ 127 := by
      have := hrange.1
      change c.val.toNat ≤ 102 at this
      omega
    exact UInt32.le_iff_toNat_le.2 this

theorem characterTail?_escape {e : Text} (h : Escape e) (t : Text) :
    Lexeme.characterTail? (e ++ '\'' :: t) = some (e ++ ['\''], t) := by
  cases h with
  | @letter c hc =>
    have hsize : c.utf8Size = 1 := by
      simp only [List.mem_cons, List.not_mem_nil, or_false] at hc
      rcases hc with rfl | rfl | rfl | rfl | rfl | rfl | rfl <;> rfl
    have hfits : ([] : Text).length < Lexeme.escapeWindow - c.utf8Size := by
      rw [hsize]
      decide
    have hr := closing?_append_quote _ (by simp) hfits t
    simp only [List.cons_append, List.nil_append] at hr ⊢
    rw [Lexeme.characterTail?, hr]
    rfl
  | @byte c d hc hd =>
    have hds : ∀ x ∈ [c, d], x ≠ '\'' ∧ x.utf8Size = 1 := by
      intro x hx
      simp only [List.mem_cons, List.not_mem_nil, or_false] at hx
      rcases hx with rfl | rfl
      · exact hex_facts hc
      · exact hex_facts hd
    have hfits : [c, d].length < Lexeme.escapeWindow - 'x'.utf8Size := by
      change 2 < 9
      omega
    have hr := closing?_append_quote _ hds hfits t
    simp only [List.cons_append, List.nil_append] at hr ⊢
    rw [Lexeme.characterTail?, hr]
    rfl
  | @scalar ds hpos hlen hhex =>
    have hds : ∀ x ∈ '{' :: (ds ++ ['}']), x ≠ '\'' ∧ x.utf8Size = 1 := by
      intro x hx
      simp only [List.mem_cons, List.mem_append, List.not_mem_nil, or_false] at hx
      rcases hx with rfl | hx | rfl
      · exact ⟨by decide, rfl⟩
      · exact hex_facts (hhex x hx)
      · exact ⟨by decide, rfl⟩
    have hfits : ('{' :: (ds ++ ['}'])).length < Lexeme.escapeWindow - 'u'.utf8Size := by
      simp only [List.length_cons, List.length_append, List.length_nil]
      change ds.length + (0 + 1) + 1 < 9
      omega
    have hr := closing?_append_quote _ hds hfits t
    simp only [List.cons_append, List.append_assoc, List.nil_append] at hr ⊢
    rw [Lexeme.characterTail?, hr]
    rfl

theorem turn_of_not_mem_marks {c : Char} (hc : c ∉ marks) (before after : Option Lexeme) :
    turn before (.plain c) after = 0 := by
  simp only [marks, List.mem_cons, List.not_mem_nil, or_false, not_or] at hc
  simp [turn, hc]

theorem turn_shift {c : Char} (hc : c = '<' ∨ c = '>') {before after : Option Lexeme}
    (h : before = some (.plain c) ∨ after = some (.plain c)) : turn before (.plain c) after = 0 := by
  rcases hc with rfl | rfl <;> simp [turn, h]

theorem first?_angle {c : Char} (hc : c = '<' ∨ c = '>') (r : Text) :
    Lexeme.first? (c :: r) = some (.plain c) := by
  rcases hc with rfl | rfl <;> simp [Lexeme.first?, Lexeme.next, Trivia.comment?]

theorem cut_shift {c : Char} (hc : c = '<' ∨ c = '>') (before : Option Lexeme) (nesting : Int)
    (rest : Text) :
    cut before nesting ([c, c] ++ rest) =
      prepend [c, c] (cut (some (.plain c)) nesting rest) := by
  have hnext : ∀ r, Lexeme.next c r = (.plain c, r) := by
    intro r
    rcases hc with rfl | rfl <;> exact next_plain (by decide) (by decide) (by decide) r
  have hcomma : Lexeme.plain c = .plain ',' → 0 < nesting := by
    rintro ⟨⟩
    simp at hc
  have hfirst : turn before (.plain c) (Lexeme.first? (c :: rest)) = 0 :=
    turn_shift hc (Or.inr (first?_angle hc rest))
  have hsecond : turn (some (.plain c)) (.plain c) (Lexeme.first? rest) = 0 :=
    turn_shift hc (Or.inl rfl)
  rw [List.cons_append, List.cons_append, List.nil_append, cut_cons (hnext _) _ _ hcomma, hfirst,
    Int.add_zero, cut_cons (hnext _) _ _ hcomma, hsecond, Int.add_zero, ← prepend_append]
  rfl

theorem not_mem_marks_of_isSpace {c : Char} (h : Trivia.isSpace c = true) : c ∉ marks := by
  intro hm
  have hall : ∀ d ∈ marks, Trivia.isSpace d = false := Text.forall_of_all (by decide)
  rw [hall c hm] at h
  cases h

theorem cut_comment {r : Text} (h : IsComment r) (before : Option Lexeme) (nesting : Int)
    (rest : Text) :
    ∃ l, Follows (some l) r.getLast? ∧
      cut before nesting (r ++ rest) = prepend r (cut (some l) nesting rest) := by
  cases h with
  | @line remark stop inside stops =>
    refine ⟨.plain stop, ?_, ?_⟩
    · have hlast : ('/' :: '/' :: (remark ++ [stop])).getLast? = some stop := by
        rw [← List.cons_append, ← List.cons_append, List.getLast?_concat]
      rw [hlast]
      exact follows_plain stop
    · have hnext := next_comment (Trivia.comment?_line inside stops rest)
      have hspace := Trivia.isSpace_of_endsLine stops
      have hmarks := not_mem_marks_of_isSpace hspace
      have hcomma : Lexeme.plain stop = .plain ',' → 0 < nesting := by
        rintro ⟨⟩
        exact absurd hspace (by decide)
      simp only [List.cons_append, List.append_assoc, List.nil_append]
      rw [cut_cons_text hnext before nesting (by simp), cut_cons (next_space hspace rest) _ _ hcomma,
        turn_of_not_mem_marks hmarks, Int.add_zero, ← prepend_append]
      rfl
  | @block remark inside =>
    have hnext := next_comment (Trivia.comment?_block inside rest)
    refine ⟨.comment ('/' :: '*' :: (remark ++ ['*', '/'])), follows_of_text (by simp) _, ?_⟩
    exact cut_cons_text hnext before nesting (by simp)

/-- An atom is read without a comma and without a change of nesting. -/
theorem cut_atom {a : Text} (h : Atom a) (before : Option Lexeme) (nesting : Int) (rest : Text) :
    ∃ l, Follows (some l) a.getLast? ∧
      cut before nesting (a ++ rest) = prepend a (cut (some l) nesting rest) := by
  cases h with
  | @plain c hc =>
    have hne : ∀ d ∈ marks, c ≠ d := fun d hd he => hc (he ▸ hd)
    have hnext := next_plain (hne '"' (by decide)) (hne '\'' (by decide)) (hne '/' (by decide)) rest
    have hcomma : Lexeme.plain c = .plain ',' → 0 < nesting := by
      rintro ⟨⟩
      exact absurd rfl (hne ',' (by decide))
    refine ⟨.plain c, follows_plain c, ?_⟩
    rw [List.singleton_append, cut_cons hnext _ _ hcomma, turn_of_not_mem_marks hc, Int.add_zero]
    rfl
  | @string s hs =>
    have htail := stringTail_quoted hs rest
    have hnext : Lexeme.next '"' (s ++ '"' :: rest) = (.string ('"' :: (s ++ ['"'])), rest) := by
      simp [Lexeme.next, htail]
    refine ⟨.string ('"' :: (s ++ ['"'])), follows_of_text (by simp) _, ?_⟩
    simp only [List.cons_append, List.append_assoc, List.nil_append]
    exact cut_cons_text hnext before nesting (by simp)
  | @character c hq hb =>
    have htail : Lexeme.characterTail? (c :: '\'' :: rest) = some ([c, '\''], rest) := by
      rw [Lexeme.characterTail?]
      exact fun he => hb he
    have hnext : Lexeme.next '\'' (c :: '\'' :: rest) = (.character ['\'', c, '\''], rest) := by
      simp [Lexeme.next, htail]
    refine ⟨.character ['\'', c, '\''], follows_of_text (by simp) _, ?_⟩
    exact cut_cons_text hnext before nesting (by simp)
  | @escaped e he =>
    have htail := characterTail?_escape he rest
    have hnext : Lexeme.next '\'' (e ++ '\'' :: rest) =
        (.character ('\'' :: (e ++ ['\''])), rest) := by
      simp [Lexeme.next, htail]
    refine ⟨.character ('\'' :: (e ++ ['\''])), follows_of_text (by simp) _, ?_⟩
    simp only [List.cons_append, List.append_assoc, List.nil_append]
    exact cut_cons_text hnext before nesting (by simp)
  | comment hr => exact cut_comment hr before nesting rest
  | shiftLeft => exact ⟨.plain '<', follows_plain '<', cut_shift (Or.inl rfl) before nesting rest⟩
  | shiftRight => exact ⟨.plain '>', follows_plain '>', cut_shift (Or.inr rfl) before nesting rest⟩

/-- A character that starts a text and matters to what comes before is the expected one. -/
def Sees (rest : Text) (after : Option Char) : Prop :=
  ∀ c, c ∈ ['/', '*', '<', '>'] → rest.head? = some c → after = some c

theorem sees_cons (c : Char) (t : Text) : Sees (c :: t) (some c) := fun _ _ h => h

theorem sees_of_end {rest : Text} (h : rest = [] ∨ rest.head? = some ',') (after : Option Char) :
    Sees rest after := by
  intro c hc he
  rcases h with rfl | h
  · cases he
  · rw [h] at he
    cases he
    simp at hc

theorem Sees.append {rest : Text} {after : Option Char} (h : Sees rest after) (r : Text) :
    Sees (r ++ rest) (r.head?.or after) := by
  cases r with
  | nil => exact h
  | cons c r => exact sees_cons c (r ++ rest)

theorem first?_ne_plain {c : Char} {t : Text} (h : t.head? ≠ some c) :
    Lexeme.first? t ≠ some (.plain c) := by
  cases t with
  | nil => simp [Lexeme.first?]
  | cons d r =>
    intro hf
    have hd : d = c := eq_of_next_eq_plain (Option.some.inj hf)
    exact h (by rw [hd]; rfl)

theorem turn_open_angle {before after : Option Lexeme} (hb : before ≠ some (.plain '<'))
    (ha : after ≠ some (.plain '<')) : turn before (.plain '<') after = 1 := by
  simp [turn, hb, ha]

theorem turn_close_angle {before after : Option Lexeme} (hb : before ≠ some (.plain '>'))
    (ha : after ≠ some (.plain '>')) : turn before (.plain '>') after = -1 := by
  simp [turn, hb, ha]

theorem Pair.facts {o c : Char} (h : Pair o c) (before after : Option Lexeme) (r : Text) :
    Lexeme.next o r = (.plain o, r) ∧ Lexeme.next c r = (.plain c, r) ∧
      turn before (.plain o) after = 1 ∧ turn before (.plain c) after = -1 ∧ o ≠ ',' ∧ c ≠ ',' := by
  cases h <;> simp [Lexeme.next, Trivia.comment?, turn]

theorem next_slash {r : Text} (h1 : r.head? ≠ some '/') (h2 : r.head? ≠ some '*') :
    Lexeme.next '/' r = (.plain '/', r) := by
  have hnone : Trivia.comment? ('/' :: r) = none := Trivia.comment?_eq_none fun _ => ⟨h1, h2⟩
  simp [Lexeme.next, hnone]

theorem Follows.append {l : Option Lexeme} {s t : Text}
    (h : Follows l (t.getLast?.or s.getLast?)) (b : Option Char) :
    Follows l ((s ++ t).getLast?.or b) := by
  intro c hc he
  rw [List.getLast?_append, h c hc he]
  rfl

theorem Follows.ne_angle {l : Option Lexeme} {b : Option Char} (h : Follows l b) {c : Char}
    (hc : c = '<' ∨ c = '>') (hb : b ≠ some c) : l ≠ some (.plain c) :=
  fun he => hb (h c hc he)

theorem first?_append_ne {c : Char} (hc : c ∈ ['/', '*', '<', '>']) {r rest : Text}
    {after : Option Char} (hrest : Sees rest after) (h : r.head?.or after ≠ some c) :
    Lexeme.first? (r ++ rest) ≠ some (.plain c) :=
  first?_ne_plain fun he => h (hrest.append r c hc he)

/-- The brackets around a text are read as one level of nesting when the text leaves the nesting
as it was. -/
theorem cut_bracketed {o c : Char} {t u : Text} {before l : Option Lexeme} {nesting : Int}
    (ho : Lexeme.next o (t ++ c :: u) = (.plain o, t ++ c :: u))
    (hc : Lexeme.next c u = (.plain c, u)) (hoc : o ≠ ',') (hcc : c ≠ ',')
    (hopen : turn before (.plain o) (Lexeme.first? (t ++ c :: u)) = 1)
    (hclose : turn l (.plain c) (Lexeme.first? u) = -1)
    (hinner : cut (some (.plain o)) (nesting + 1) (t ++ c :: u) =
      prepend t (cut l (nesting + 1) (c :: u))) :
    cut before nesting (o :: (t ++ c :: u)) =
      prepend (o :: (t ++ [c])) (cut (some (.plain c)) nesting u) := by
  have hcomma : ∀ {d : Char} {n : Int}, d ≠ ',' → Lexeme.plain d = .plain ',' → 0 < n := by
    rintro d n hd ⟨⟩
    exact absurd rfl hd
  rw [cut_cons ho _ _ (hcomma hoc), hopen, hinner, cut_cons hc _ _ (hcomma hcc), hclose,
    Int.add_neg_cancel_right, ← prepend_append, ← prepend_append]
  rfl

theorem cut_bracketed_append {o c : Char} {t r rest : Text} {before l : Option Lexeme}
    {nesting : Int} {b : Option Char}
    (hwhole : cut before nesting (o :: (t ++ c :: (r ++ rest))) =
      prepend (o :: (t ++ [c])) (cut (some (.plain c)) nesting (r ++ rest)))
    (hl : Follows l (r.getLast?.or (some c)))
    (hcut : cut (some (.plain c)) nesting (r ++ rest) = prepend r (cut l nesting rest)) :
    Follows l ((o :: (t ++ c :: r)).getLast?.or b) ∧
      cut before nesting ((o :: (t ++ c :: r)) ++ rest) =
        prepend (o :: (t ++ c :: r)) (cut l nesting rest) := by
  have happ : (o :: (t ++ [c])) ++ r = o :: (t ++ c :: r) := by simp
  have hlast : (o :: (t ++ [c])).getLast? = some c := by
    rw [← List.cons_append, List.getLast?_concat]
  constructor
  · rw [← happ]
    exact Follows.append (hlast ▸ hl) b
  · rw [← happ, List.append_assoc, prepend_append, ← hcut, ← hwhole]
    simp

/-- Reading a body brings a cut from its start to its end at the same nesting. -/
theorem cut_body {commas : Bool} {b after : Option Char} {t : Text} (h : Body commas b t after)
    {rest : Text} (hrest : Sees rest after) {before : Option Lexeme} (hbefore : Follows before b)
    {nesting : Int} (hn : 0 ≤ nesting) (hcommas : commas = true → 0 < nesting) :
    ∃ l, Follows l (t.getLast?.or b) ∧
      cut before nesting (t ++ rest) = prepend t (cut l nesting rest) := by
  induction h generalizing rest before nesting with
  | nil => exact ⟨before, hbefore, rfl⟩
  | @atom commas b after a r ha _ ih =>
    obtain ⟨l, hl, hcut⟩ := cut_atom ha before nesting (r ++ rest)
    obtain ⟨l', hl', hcut'⟩ := ih hrest hl hn hcommas
    refine ⟨l', hl'.append b, ?_⟩
    rw [List.append_assoc, hcut, hcut', prepend_append]
  | @slash commas b after r h1 h2 _ ih =>
    have hnext : Lexeme.next '/' (r ++ rest) = (.plain '/', r ++ rest) :=
      next_slash (fun he => h1 (hrest.append r '/' (by decide) he))
        (fun he => h2 (hrest.append r '*' (by decide) he))
    have hturn : turn before (.plain '/') (Lexeme.first? (r ++ rest)) = 0 := by simp [turn]
    obtain ⟨l, hl, hcut⟩ := ih hrest (follows_plain '/') hn hcommas
    refine ⟨l, Follows.append (s := ['/']) hl b, ?_⟩
    rw [List.cons_append, cut_cons hnext _ _ (by simp), hturn, Int.add_zero, hcut, ← prepend_append]
    rfl
  | @comma b after r _ ih =>
    have hturn : turn before (.plain ',') (Lexeme.first? (r ++ rest)) = 0 := by simp [turn]
    obtain ⟨l, hl, hcut⟩ := ih hrest (follows_plain ',') hn hcommas
    refine ⟨l, Follows.append (s := [',']) hl b, ?_⟩
    rw [List.cons_append, cut_cons (next_comma _) _ _ (fun _ => hcommas rfl), hturn, Int.add_zero,
      hcut, ← prepend_append]
    rfl
  | @group commas b after o c t r ho _ _ iht ihr =>
    obtain ⟨l, -, hinner⟩ := iht (sees_cons c (r ++ rest)) (follows_plain o)
      (show 0 ≤ nesting + 1 by omega) (by omega)
    obtain ⟨l', hl', hcut⟩ := ihr hrest (follows_plain c) hn hcommas
    obtain ⟨hopen, -, hturn, -, hoc, -⟩ := ho.facts before (Lexeme.first? (t ++ c :: (r ++ rest)))
      (t ++ c :: (r ++ rest))
    obtain ⟨-, hclose, -, hturn', -, hcc⟩ := ho.facts l (Lexeme.first? (r ++ rest)) (r ++ rest)
    have hwhole := cut_bracketed hopen hclose hoc hcc hturn hturn' hinner
    exact ⟨l', cut_bracketed_append hwhole hl' hcut⟩
  | @angle commas b after t r hb hfirst hlast ha _ _ iht ihr =>
    obtain ⟨l, hl, hinner⟩ := iht (sees_cons '>' (r ++ rest)) (follows_plain '<')
      (show 0 ≤ nesting + 1 by omega) (by omega)
    obtain ⟨l', hl', hcut⟩ := ihr hrest (follows_plain '>') hn hcommas
    have hnext : ∀ u, Lexeme.next '<' u = (.plain '<', u) :=
      next_plain (by decide) (by decide) (by decide)
    have hnext' : ∀ u, Lexeme.next '>' u = (.plain '>', u) :=
      next_plain (by decide) (by decide) (by decide)
    have hopen : Lexeme.first? (t ++ '>' :: (r ++ rest)) ≠ some (.plain '<') := by
      apply first?_ne_plain
      cases t with
      | nil => simp
      | cons d t => exact hfirst
    have hclose : l ≠ some (.plain '>') := by
      apply hl.ne_angle (Or.inr rfl)
      cases hd : t.getLast? with
      | none => simp
      | some d =>
        rw [hd] at hlast
        exact hlast
    have hturn := turn_open_angle (hbefore.ne_angle (Or.inl rfl) hb) hopen
    have hturn' := turn_close_angle hclose (first?_append_ne (by decide) hrest ha)
    have hwhole := cut_bracketed (hnext _) (hnext' _) (by decide) (by decide) hturn hturn' hinner
    exact ⟨l', cut_bracketed_append hwhole hl' hcut⟩

theorem Body.congr_after {commas : Bool} {b after after' : Option Char} {t : Text}
    (h : Body commas b t after) (hafter : after' ≠ some '/' ∧ after' ≠ some '*' ∧ after' ≠ some '>') :
    Body commas b t after' := by
  have hor {c : Char} {r : Text} (hr : r.head?.or after ≠ some c) (hc : after' ≠ some c) :
      r.head?.or after' ≠ some c := by
    cases r with
    | nil => exact hc
    | cons d r => exact hr
  induction h with
  | nil => exact .nil
  | atom ha _ ih => exact .atom ha (ih hor)
  | slash h1 h2 _ ih => exact .slash (hor h1 hafter.1) (hor h2 hafter.2.1) (ih hor)
  | comma _ ih => exact .comma (ih hor)
  | group hpair ht _ _ ih => exact .group hpair ht (ih hor)
  | angle hb hfirst hlast ha ht _ _ ih =>
    exact .angle hb hfirst hlast (hor ha hafter.2.2) ht (ih hor)

theorem Body.append {commas : Bool} {b after : Option Char} {s t : Text}
    (hs : Body commas b s (t.head?.or after)) (ht : ∀ b', Body commas b' t after) :
    Body commas b (s ++ t) after := by
  have hor (r : Text) : (r ++ t).head?.or after = r.head?.or (t.head?.or after) := by
    rw [List.head?_append, Option.or_assoc]
  generalize ha : t.head?.or after = after' at hs hor
  induction hs with
  | nil => exact ht _
  | atom hatom _ ih =>
    rw [List.append_assoc]
    exact .atom hatom (ih ht ha hor)
  | slash h1 h2 _ ih =>
    exact .slash ((hor _).trans_ne h1) ((hor _).trans_ne h2) (ih ht ha hor)
  | comma _ ih => exact .comma (ih ht ha hor)
  | group hpair hinner _ _ ih =>
    rw [List.cons_append, List.append_assoc]
    exact .group hpair hinner (ih ht ha hor)
  | angle hb hfirst hlast hend hinner _ _ ih =>
    rw [List.cons_append, List.append_assoc]
    exact .angle hb hfirst hlast ((hor _).trans_ne hend) hinner (ih ht ha hor)

theorem Body.congr_before {commas : Bool} {b b' after : Option Char} {t : Text}
    (h : Body commas b t after) (hhead : t.head? ≠ some '<') : Body commas b' t after := by
  cases h with
  | nil => exact .nil
  | atom ha hr => exact .atom ha hr
  | slash h1 h2 hr => exact .slash h1 h2 hr
  | comma hr => exact .comma hr
  | group hpair ht hr => exact .group hpair ht hr
  | angle _ _ _ _ _ _ => exact absurd rfl hhead

/-- Atoms in a row, which are well-formed wherever they stand. -/
inductive Atoms : Text → Prop
  | nil : Atoms []
  | cons {a r : Text} : Atom a → Atoms r → Atoms (a ++ r)

theorem Atoms.of_atom {a : Text} (h : Atom a) : Atoms a := by
  have hatoms := Atoms.cons h .nil
  rwa [List.append_nil] at hatoms

theorem Atoms.append {s t : Text} (hs : Atoms s) (ht : Atoms t) : Atoms (s ++ t) := by
  induction hs with
  | nil => exact ht
  | cons ha _ ih =>
    rw [List.append_assoc]
    exact .cons ha ih

theorem Atoms.of_plain {t : Text} (h : ∀ c ∈ t, c ∉ marks) : Atoms t := by
  induction t with
  | nil => exact .nil
  | cons c t ih => exact .cons (.plain (h c (by simp))) (ih fun d hd => h d (by simp [hd]))

theorem not_mem_marks_of_isWordChar {c : Char} (h : Name.isWordChar c = true) : c ∉ marks := by
  intro hc
  have hall : ∀ d ∈ marks, Name.isWordChar d = false := Text.forall_of_all (by decide)
  rw [hall c hc] at h
  cases h

theorem Atoms.of_isIdentifier {name : Text} (h : Name.IsIdentifier name) : Atoms name :=
  .of_plain fun c hc => not_mem_marks_of_isWordChar (h.all c hc)

theorem Atoms.of_layout {g : Text} (h : IsLayout g) : Atoms g := by
  induction h with
  | nil => exact .nil
  | space hc _ ih => exact .cons (.plain (not_mem_marks_of_isSpace hc)) ih
  | comment hr _ ih => exact .cons (.comment hr) ih

theorem Atoms.body {commas : Bool} {t : Text} (h : Atoms t) (b after : Option Char) :
    Body commas b t after := by
  induction h generalizing b with
  | nil => exact .nil
  | cons ha _ ih => exact .atom ha (ih _)

theorem Atoms.wellFormed {t : Text} (h : Atoms t) : WellFormed t := h.body none none

/-- What is read to its end, whenever a comma or nothing follows. -/
def Closed (t : Text) : Prop :=
  ∀ rest : Text, rest = [] ∨ rest.head? = some ',' → cut none 0 (t ++ rest) = (t, rest)

theorem cut_at_end {rest : Text} (h : rest = [] ∨ rest.head? = some ',')
    (before : Option Lexeme) : cut before 0 rest = ([], rest) := by
  rcases h with rfl | h
  · simp [cut]
  · obtain ⟨r, rfl⟩ := List.head?_eq_some_iff.1 h
    rw [cut, next_comma]
    simp

theorem WellFormed.closed {t : Text} (h : WellFormed t) : Closed t := by
  intro rest hrest
  have hnone : Follows none none := by
    rintro c - ⟨⟩
  obtain ⟨l, -, hcut⟩ := cut_body h (sees_of_end hrest none) hnone (Int.le_refl 0) (by simp)
  rw [hcut, cut_at_end hrest, prepend, List.append_nil]

theorem bodies_append_comma {t : Text} (h : Closed t) (r : Text) :
    bodies (t ++ ',' :: r) = t :: bodies r := by
  rw [bodies_eq_cut, h (',' :: r) (Or.inr rfl)]
  rfl

theorem bodies_of_closed {t : Text} (h : Closed t) : bodies t = [t] := by
  have hcut := h [] (Or.inl rfl)
  rw [List.append_nil] at hcut
  rw [bodies_eq_cut, hcut]
  rfl

theorem bodies_join {ts : List Text} (hne : ts ≠ []) (h : ∀ t ∈ ts, Closed t) :
    bodies (Text.join [','] ts) = ts := by
  induction ts with
  | nil => exact absurd rfl hne
  | cons t ts ih =>
    have ht := h t (by simp)
    cases ts with
    | nil =>
      rw [Text.join, List.intercalate_singleton]
      exact bodies_of_closed ht
    | cons u us =>
      rw [Text.join_cons_cons, List.singleton_append, bodies_append_comma ht, ih (by simp) (fun v hv => h v (by simp [hv]))]

theorem segments_join {ts : List Text} (hne : ts ≠ []) (h : ∀ t ∈ ts, Closed t) :
    segments (Text.join [','] ts) = place 0 ts := by
  rw [segments, bodies_join hne h]

/-- Splitting recovers every list of well-formed bodies. -/
theorem segments_join_wellFormed {ts : List Text} (hne : ts ≠ []) (h : ∀ t ∈ ts, WellFormed t) :
    (segments (Text.join [','] ts)).map text = ts ∧ segments (Text.join [','] ts) = place 0 ts := by
  have hplace := segments_join hne fun t ht => (h t ht).closed
  exact ⟨by rw [hplace, map_text_place], hplace⟩

/-- A literal with a bracket, one with a quote, an angle pair beside a shift, and a comment. -/
theorem segments_join_call_and_shift :
    (∀ t ∈ ["F(\"\\\",\",')')".toList, "<a,b> >>//,\n".toList], WellFormed t) ∧
      (segments (Text.join [','] ["F(\"\\\",\",')')".toList, "<a,b> >>//,\n".toList])).map text =
        ["F(\"\\\",\",')')".toList, "<a,b> >>//,\n".toList] := by
  have hcall : WellFormed "F(\"\\\",\",')')".toList := by
    have hquoted : Quoted ['\\', '"', ','] := .escape (.plain (by decide) (by decide) .nil)
    have hinside : Body true (some '(') "\"\\\",\",')'".toList (some ')') :=
      .atom (.string hquoted) (.comma (.atom (.character (by decide) (by decide)) .nil))
    exact .atom (.plain (by decide)) (.group .round hinside .nil)
  have hshift : WellFormed "<a,b> >>//,\n".toList := by
    have hinside : Body true (some '<') "a,b".toList (some '>') :=
      .atom (.plain (by decide)) (.comma (.atom (.plain (by decide)) .nil))
    have hcomma : ∀ c ∈ [','], Trivia.endsLine c = false := Text.forall_of_all (by decide)
    have hremark : IsComment "//,\n".toList := .line hcomma rfl
    have hrest : Body false (some '>') " >>//,\n".toList none :=
      .atom (.plain (by decide)) (.atom .shiftRight (.atom (.comment hremark) .nil))
    exact .angle (by decide) (by decide) (by decide) (by decide) hinside hrest
  have hall : ∀ t ∈ ["F(\"\\\",\",')')".toList, "<a,b> >>//,\n".toList], WellFormed t := by
    simp only [List.mem_cons, List.not_mem_nil, or_false]
    rintro t (rfl | rfl)
    · exact hcall
    · exact hshift
  exact ⟨hall, (segments_join_wellFormed (by simp) hall).1⟩

end EnumReflection.Segment
