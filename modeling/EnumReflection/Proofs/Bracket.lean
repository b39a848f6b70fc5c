import EnumReflection.Proofs.Independence
import Mathlib.Algebra.Ring.Int.Defs

/-!
# Brackets around the ends of segments

Round, square and curly brackets share one count with single angle signs. In a declaration whose
brackets match, a segment that starts outside of them therefore ends inside some pairs only where
its single `>` signs outnumber its single `<` signs by as many.
-/
namespace EnumReflection.Segment
open Lexeme (Lexical)

/-- What a bracket adds to the number of open ones. -/
def level : Lexeme → Int
  | .plain c => if c ∈ ['(', '[', '{'] then 1 else if c ∈ [')', ']', '}'] then -1 else 0
  | _ => 0

/-- Lexemes in which every bracket has its partner. -/
inductive Matched : List Lexeme → Prop
  | nil : Matched []
  | other {l : Lexeme} {ls : List Lexeme} : level l = 0 → Matched ls → Matched (l :: ls)
  | pair {o c : Char} {inner ls : List Lexeme} : Pair o c → Matched inner → Matched ls →
      Matched (.plain o :: (inner ++ .plain c :: ls))

/-- Between two lists of lexemes lies a place strictly inside a number of matched pairs. -/
inductive Inside : Nat → List Lexeme → List Lexeme → Prop
  | outside {p q : List Lexeme} : Matched p → Matched q → Inside 0 p q
  | within {n : Nat} {o c : Char} {p q i j : List Lexeme} : Pair o c → Matched p → Inside n i j →
      Matched q → Inside (n + 1) (p ++ .plain o :: i) (j ++ .plain c :: q)

/-- An offset of a text lies strictly inside a number of matched pairs. -/
def LiesInside (t : Text) (offset n : Nat) : Prop :=
  ∃ p q, Lexeme.lex t = p ++ q ∧ Text.byteLength (p.flatMap Lexeme.text) = offset ∧ Inside n p q

/-- What a lexeme between its neighbours adds to the surplus of `>` signs. Beside a sign of its
kind an angle sign is part of a shift. -/
def single (before : Option Lexeme) (l : Lexeme) (after : Option Lexeme) : Int :=
  if before = some l ∨ after = some l then 0
  else if l = .plain '>' then 1
  else if l = .plain '<' then -1
  else 0

/-- The number of single `>` signs less that of single `<` signs. -/
def surplus (before : Option Lexeme) : List Lexeme → Int
  | [] => 0
  | l :: ls => single before l ls.head? + surplus (some l) ls

def depth (ls : List Lexeme) : Int := (ls.map level).sum

@[simp] theorem depth_nil : depth [] = 0 := rfl

@[simp] theorem depth_cons (l : Lexeme) (ls : List Lexeme) : depth (l :: ls) = level l + depth ls := by
  simp [depth]

@[simp] theorem depth_append (p q : List Lexeme) : depth (p ++ q) = depth p + depth q := by
  simp [depth]

theorem Pair.level_eq {o c : Char} (h : Pair o c) :
    level (.plain o) = 1 ∧ level (.plain c) = -1 := by
  cases h <;> decide

theorem Matched.depth_eq {ls : List Lexeme} (h : Matched ls) : depth ls = 0 := by
  induction h with
  | nil => rfl
  | other hl _ ih => rw [depth_cons, hl, ih, Int.add_zero]
  | pair ho _ _ ihi ihs =>
    obtain ⟨hopen, hclose⟩ := ho.level_eq
    rw [depth_cons, depth_append, depth_cons, hopen, hclose, ihi, ihs]
    rfl

theorem Inside.depth_eq {n : Nat} {p q : List Lexeme} (h : Inside n p q) : depth p = n := by
  induction h with
  | outside hp _ => exact hp.depth_eq
  | within ho hp _ _ ih =>
    rw [depth_append, depth_cons, ho.level_eq.1, hp.depth_eq, ih]
    omega

theorem Matched.append {p q : List Lexeme} (hp : Matched p) (hq : Matched q) : Matched (p ++ q) := by
  induction hp with
  | nil => exact hq
  | other hl _ ih => exact .other hl ih
  | pair ho hi _ _ ih =>
    rw [List.cons_append, List.append_assoc]
    exact .pair ho hi ih

theorem Inside.append_left {n : Nat} {m p q : List Lexeme} (hm : Matched m) (h : Inside n p q) :
    Inside n (m ++ p) q := by
  cases h with
  | outside hp hq => exact .outside (hm.append hp) hq
  | within ho hp hi hq =>
    rw [← List.append_assoc]
    exact .within ho (hm.append hp) hi hq

/-- Every place between matched lexemes lies inside some number of pairs. -/
theorem Matched.exists_inside {p q : List Lexeme} (h : Matched (p ++ q)) : ∃ n, Inside n p q := by
  generalize he : p ++ q = ls at h
  induction h generalizing p q with
  | nil =>
    obtain ⟨rfl, rfl⟩ := List.append_eq_nil_iff.1 he
    exact ⟨0, .outside .nil .nil⟩
  | @other l ls hl hls ih =>
    rcases List.append_eq_cons_iff.1 he with ⟨rfl, rfl⟩ | ⟨p', rfl, rfl⟩
    · exact ⟨0, .outside .nil (.other hl hls)⟩
    · obtain ⟨n, hn⟩ := ih rfl
      exact ⟨n, hn.append_left (.other hl .nil)⟩
  | @pair o c inner ls ho hi hls ihi ihs =>
    rcases List.append_eq_cons_iff.1 he with ⟨rfl, rfl⟩ | ⟨p', rfl, hp'⟩
    · exact ⟨0, .outside .nil (.pair ho hi hls)⟩
    rcases List.append_eq_append_iff.1 hp' with ⟨r, rfl, hr⟩ | ⟨r, rfl, rfl⟩
    · rcases List.append_eq_cons_iff.1 hr.symm with ⟨rfl, rfl⟩ | ⟨r', rfl, rfl⟩
      · obtain ⟨n, hn⟩ := ihi (List.append_nil inner)
        rw [List.append_nil]
        exact ⟨n + 1, .within ho .nil hn hls⟩
      · obtain ⟨n, hn⟩ := ihs rfl
        have hpair := hn.append_left (.pair ho hi .nil)
        exact ⟨n, by simpa using hpair⟩
    · obtain ⟨n, hn⟩ := ihi rfl
      exact ⟨n + 1, .within ho .nil hn hls⟩

def rise (before : Option Lexeme) : List Lexeme → Int
  | [] => 0
  | l :: ls => turn before l ls.head? + rise (some l) ls

theorem single_of_level {l : Lexeme} (h : level l ≠ 0) (before after : Option Lexeme) :
    single before l after = 0 := by
  have hgreater : l ≠ .plain '>' := by
    rintro rfl
    exact h rfl
  have hless : l ≠ .plain '<' := by
    rintro rfl
    exact h rfl
  simp [single, hgreater, hless]

theorem turn_eq (before : Option Lexeme) (l : Lexeme) (after : Option Lexeme) :
    turn before l after = level l - single before l after := by
  by_cases hl : level l = 0
  · cases l with
    | plain c =>
      have hopen : ¬ (c = '(' ∨ c = '[' ∨ c = '{') := by
        rintro (rfl | rfl | rfl) <;> cases hl
      have hclose : ¬ (c = ')' ∨ c = ']' ∨ c = '}') := by
        rintro (rfl | rfl | rfl) <;> cases hl
      rw [turn, if_neg hopen, if_neg hclose, hl, single]
      simp only [Lexeme.plain.injEq]
      split
      · rfl
      · by_cases hc : c = '<'
        · subst hc
          rfl
        · simp only [hc, if_false]
          split <;> rfl
    | string t => simp [turn, level, single]
    | character t => simp [turn, level, single]
    | comment t => simp [turn, level, single]
  · rw [single_of_level hl, Int.sub_zero]
    cases l with
    | plain c =>
      simp only [level, List.mem_cons, List.not_mem_nil, or_false] at hl ⊢
      rw [turn]
      split
      · rfl
      · split
        · rfl
        · rename_i hopen hclose
          rw [if_neg hopen, if_neg hclose] at hl
          exact absurd rfl hl
    | string t => rfl
    | character t => rfl
    | comment t => rfl

theorem rise_eq (before : Option Lexeme) (ls : List Lexeme) :
    rise before ls = depth ls - surplus before ls := by
  induction ls generalizing before with
  | nil => rfl
  | cons l ls ih =>
    rw [rise, surplus, depth_cons, turn_eq, ih]
    omega

/-- At the comma that ends a piece no more brackets have opened than closed since its start. -/
theorem rise_le_zero {before : Option Lexeme} {nesting : Int} {p r : List Lexeme}
    {ps : List (List Lexeme)} (h : split before nesting (p ++ .plain ',' :: r) = p :: ps) :
    nesting + rise before p ≤ 0 := by
  induction p generalizing before nesting with
  | nil =>
    rw [List.nil_append, split] at h
    split at h
    · rename_i hcut
      rw [rise]
      omega
    · obtain ⟨p', ps', hsplit⟩ := List.exists_cons_of_ne_nil
        (split_ne_nil (some (.plain ',')) (nesting + turn before (.plain ',') r.head?) r)
      rw [hsplit] at h
      cases h
  | cons l p ih =>
    rw [List.cons_append, split] at h
    split at h
    · cases h
    · obtain ⟨p', ps', hsplit⟩ := List.exists_cons_of_ne_nil (split_ne_nil (some l)
        (nesting + turn before l (p ++ .plain ',' :: r).head?) (p ++ .plain ',' :: r))
      rw [hsplit, List.modifyHead_cons] at h
      obtain ⟨hl, rfl⟩ := List.cons.inj h
      obtain ⟨-, rfl⟩ := List.cons.inj hl
      have hi := ih hsplit
      rw [turn_of_follows before l (Or.inr rfl)] at hi
      rw [rise]
      omega

theorem text_ne_nil {ls : List Lexeme} (h : Lexical ls) : ∀ l ∈ ls, l.text ≠ [] := by
  induction ls with
  | nil => simp
  | cons l ls ih =>
    obtain ⟨⟨c, u, hu, -⟩, hls⟩ := Lexeme.lexical_cons.1 h
    intro m hm
    rcases List.mem_cons.1 hm with rfl | hm
    · simp [hu]
    · exact ih hls m hm

theorem eq_of_byteLength_eq {p q p' q' : List Lexeme} (h : Lexical (p ++ q))
    (he : p ++ q = p' ++ q') (hlen : Text.byteLength (p.flatMap Lexeme.text) =
      Text.byteLength (p'.flatMap Lexeme.text)) : p = p' := by
  have hnil : ∀ {a b c : List Lexeme}, Lexical (a ++ b ++ c) →
      Text.byteLength (a.flatMap Lexeme.text) = Text.byteLength ((a ++ b).flatMap Lexeme.text) →
      b = [] := by
    intro a b c hlexical hab
    rw [List.flatMap_append, Text.byteLength_append] at hab
    have hempty : b.flatMap Lexeme.text = [] := Text.byteLength_eq_zero.1 (by omega)
    cases b with
    | nil => rfl
    | cons l b =>
      rw [List.flatMap_cons] at hempty
      exact absurd (List.append_eq_nil_iff.1 hempty).1 (text_ne_nil hlexical l (by simp))
  rcases List.append_eq_append_iff.1 he with ⟨r, rfl, rfl⟩ | ⟨r, rfl, rfl⟩
  · rw [← List.append_assoc] at h
    rw [hnil h hlen, List.append_nil]
  · rw [hnil h hlen.symm, List.append_nil]

/-- The pairs around an offset are counted on the lexemes before it. -/
theorem LiesInside.depth_eq {t : Text} {p q : List Lexeme} (ht : Lexeme.lex t = p ++ q) {n : Nat}
    (h : LiesInside t (Text.byteLength (p.flatMap Lexeme.text)) n) : Inside n p q := by
  obtain ⟨p', q', ht', hlen, hn⟩ := h
  have hlexical := Lexeme.lexical_lex t
  rw [ht] at hlexical
  have hp : p = p' := eq_of_byteLength_eq hlexical (ht.symm.trans ht') hlen.symm
  subst hp
  have hq : q = q' := List.append_cancel_left (ht.symm.trans ht')
  rwa [hq]

theorem flatMap_text_headed (ps : List (List Lexeme)) :
    (ps.flatMap (· ++ [.plain ','])).flatMap Lexeme.text =
      (ps.map (·.flatMap Lexeme.text)).flatMap (· ++ [',']) := by
  induction ps with
  | nil => rfl
  | cons p ps ih =>
    rw [List.flatMap_cons, List.flatMap_append, List.flatMap_append, ih]
    rfl

theorem exists_lexemes {t : Text} {i : Nat} {s : Segment} (h : (segments t)[i]? = some s) :
    ∃ p q, Lexeme.lex t = p ++ Lexeme.lex s.text ++ q ∧
      Text.byteLength (p.flatMap Lexeme.text) = s.start ∧
      Text.byteLength ((p ++ Lexeme.lex s.text).flatMap Lexeme.text) = s.stop ∧
      (q = [] ∨ ∃ r, q = .plain ',' :: r ∧ rise none (Lexeme.lex s.text) ≤ 0) := by
  obtain ⟨xs, ys, hbodies, -, -, hstart, hstop⟩ := exists_of_getElem?_segments h
  obtain ⟨ps, rs, hsplit, rfl, hrs⟩ := List.map_eq_append_iff.1 hbodies
  obtain ⟨p, qs, rfl, hp, rfl⟩ := List.map_eq_cons_iff.1 hrs
  have hlex := intercalate_split none 0 (Lexeme.lex t)
  rw [hsplit, intercalate_append_cons] at hlex
  have hlexical := Lexeme.lexical_lex t
  rw [← hlex] at hlexical
  have hrest := hlexical.of_append_right
  have hlast := split_of_append_right hsplit (by simp)
  have hends : Lexical p ∧ (qs.flatMap ([Lexeme.plain ','] ++ ·) = [] ∨
      ∃ r, qs.flatMap ([Lexeme.plain ','] ++ ·) = .plain ',' :: r ∧ rise none p ≤ 0) := by
    cases qs with
    | nil =>
      rw [List.flatMap_nil, List.append_nil] at hrest
      exact ⟨hrest, Or.inl rfl⟩
    | cons q qs =>
      rw [List.intercalate_cons_cons, List.append_assoc] at hlast
      have hrise := rise_le_zero hlast
      rw [Int.zero_add] at hrise
      exact ⟨hrest.of_append_comma, Or.inr ⟨_, rfl, hrise⟩⟩
  obtain ⟨hself, hq⟩ := hends
  rw [Lexical, hp] at hself
  rw [hself]
  refine ⟨ps.flatMap (· ++ [.plain ',']), _, ?_, ?_, ?_, hq⟩
  · rw [← hlex, List.append_assoc]
  · rw [hstart, flatMap_text_headed]
  · rw [hstop, List.flatMap_append, flatMap_text_headed, hp]

theorem Inside.eq_zero_of_nil {n : Nat} {p : List Lexeme} (h : Inside n p []) : n = 0 := by
  generalize hq : ([] : List Lexeme) = q at h
  cases h with
  | outside => rfl
  | within => simp at hq

/-- A segment that ends inside more pairs than it starts in has as many more single `>` signs than
single `<` signs. -/
theorem le_of_liesInside {t : Text} {i : Nat} {s : Segment} (h : (segments t)[i]? = some s)
    {m n : Nat} (hm : LiesInside t s.start m) (hn : LiesInside t s.stop n) (hpos : 0 < n) :
    (n : Int) ≤ m + surplus none (Lexeme.lex s.text) := by
  obtain ⟨p, q, ht, hstart, hstop, hq⟩ := exists_lexemes h
  rw [← hstart] at hm
  rw [← hstop] at hn
  have hafter := LiesInside.depth_eq ht hn
  rw [List.append_assoc] at ht
  have hbefore := LiesInside.depth_eq ht hm
  rcases hq with rfl | ⟨r, -, hrise⟩
  · have := hafter.eq_zero_of_nil
    omega
  · have hdepth := hafter.depth_eq
    rw [depth_append, hbefore.depth_eq] at hdepth
    rw [rise_eq] at hrise
    omega

section
variable {t : Text} (hmatched : Matched (Lexeme.lex t))
include hmatched

theorem exists_liesInside {p q : List Lexeme} (ht : Lexeme.lex t = p ++ q) :
    ∃ n, LiesInside t (Text.byteLength (p.flatMap Lexeme.text)) n := by
  rw [ht] at hmatched
  obtain ⟨n, hn⟩ := hmatched.exists_inside
  exact ⟨n, p, q, ht, rfl, hn⟩

theorem exists_liesInside_segment {i : Nat} {s : Segment} (hs : (segments t)[i]? = some s) :
    (∃ m, LiesInside t s.start m) ∧ ∃ n, LiesInside t s.stop n := by
  obtain ⟨p, q, ht, hstart, hstop, -⟩ := exists_lexemes hs
  constructor
  · rw [List.append_assoc] at ht
    rw [← hstart]
    exact exists_liesInside hmatched ht
  · rw [← hstop]
    exact exists_liesInside hmatched ht

theorem liesInside_stop {i : Nat} {s s' : Segment} (hs : (segments t)[i]? = some s)
    (hs' : (segments t)[i + 1]? = some s') {n : Nat} (h : LiesInside t s'.start n) :
    LiesInside t s.stop n := by
  obtain ⟨p, q, ht, -, hstop, hq⟩ := exists_lexemes hs
  have hnext := (next_of_getElem? hs hs').1
  rcases hq with rfl | ⟨r, rfl, -⟩
  · -- Nothing follows the last segment.
    obtain ⟨xs, ys, -, -, ht', hstart', -⟩ := exists_of_getElem?_segments hs'
    have hlen := congrArg Text.byteLength ht'
    rw [Text.byteLength_append, ← hstart'] at hlen
    rw [List.append_nil] at ht
    rw [← ht, Lexeme.flatMap_text_lex] at hstop
    omega
  · obtain ⟨k, hk⟩ := exists_liesInside hmatched ht
    have hdepth := (LiesInside.depth_eq ht hk).depth_eq
    have ht' : Lexeme.lex t = (p ++ Lexeme.lex s.text ++ [.plain ',']) ++ r := by
      rw [ht, List.append_assoc _ [_] r]
      rfl
    have hstart : Text.byteLength ((p ++ Lexeme.lex s.text ++ [Lexeme.plain ',']).flatMap Lexeme.text) =
        s'.start := by
      rw [List.flatMap_append, Text.byteLength_append, hstop, hnext]
      rfl
    rw [← hstart] at h
    have hdepth' := (LiesInside.depth_eq ht' h).depth_eq
    rw [depth_append, hdepth] at hdepth'
    have hkn : k = n := by
      have hcomma : depth [Lexeme.plain ','] = 0 := by decide
      omega
    rw [hkn, hstop] at hk
    exact hk

/-- As long as no segment has more single `>` signs than single `<` signs, all start outside of
pairs. -/
theorem start_outside (hsigns : ∀ s ∈ segments t, surplus none (Lexeme.lex s.text) ≤ 0) {i : Nat}
    {s : Segment} (hs : (segments t)[i]? = some s) : LiesInside t s.start 0 := by
  induction i generalizing s with
  | zero =>
    obtain ⟨xs, ys, -, hlen, -, hstart, -⟩ := exists_of_getElem?_segments hs
    rw [List.eq_nil_of_length_eq_zero hlen] at hstart
    rw [hstart]
    exact ⟨[], _, rfl, rfl, .outside .nil hmatched⟩
  | succ i ih =>
    obtain ⟨s', hs'⟩ : ∃ s', (segments t)[i]? = some s' := by
      have hlt := (List.getElem?_eq_some_iff.1 hs).1
      exact ⟨_, List.getElem?_eq_getElem (Nat.lt_of_succ_lt hlt)⟩
    obtain ⟨m, hm⟩ := (exists_liesInside_segment hmatched hs).1
    have hstop := liesInside_stop hmatched hs' hs hm
    have hsign := hsigns s' (List.mem_of_getElem? hs')
    have hzero : m = 0 := by
      by_contra hpos
      have := le_of_liesInside hs' (ih hs') hstop (Nat.pos_of_ne_zero hpos)
      omega
    rwa [hzero] at hm

theorem stop_outside (hsigns : ∀ s ∈ segments t, surplus none (Lexeme.lex s.text) ≤ 0) {s : Segment}
    (hs : s ∈ segments t) {n : Nat} (hn : LiesInside t s.stop n) : n = 0 := by
  obtain ⟨i, hi⟩ := List.getElem?_of_mem hs
  have hsign := hsigns s hs
  by_contra hpos
  have := le_of_liesInside hi (start_outside hmatched hsigns hi) hn (Nat.pos_of_ne_zero hpos)
  omega

theorem ends_of_mem_segments {s : Segment} (hs : s ∈ segments t) :
    (∃ m, LiesInside t s.start m) ∧ (∃ n, LiesInside t s.stop n) ∧
      ∀ m n, LiesInside t s.start m → LiesInside t s.stop n → 0 < n →
        (n : Int) ≤ m + surplus none (Lexeme.lex s.text) := by
  obtain ⟨i, hi⟩ := List.getElem?_of_mem hs
  obtain ⟨hstart, hstop⟩ := exists_liesInside_segment hmatched hi
  exact ⟨hstart, hstop, fun m n hm hn => le_of_liesInside hi hm hn⟩

/-- In a declaration whose brackets match, a segment ends deeper in them than it starts only by its
single `>` signs. -/
theorem stop_inside_pairs :
    (∀ s ∈ segments t, (∃ m, LiesInside t s.start m) ∧ (∃ n, LiesInside t s.stop n) ∧
      ∀ m n, LiesInside t s.start m → LiesInside t s.stop n → 0 < n →
        (n : Int) ≤ m + surplus none (Lexeme.lex s.text)) ∧
    ((∀ s ∈ segments t, surplus none (Lexeme.lex s.text) ≤ 0) →
      ∀ s ∈ segments t, ∀ n, LiesInside t s.stop n → n = 0) :=
  ⟨fun _ hs => ends_of_mem_segments hmatched hs,
    fun hsigns _ hs _ hn => stop_outside hmatched hsigns hs hn⟩

end

theorem Matched.of_level {ls : List Lexeme} (h : ∀ l ∈ ls, level l = 0) : Matched ls := by
  induction ls with
  | nil => exact .nil
  | cons l ls ih => exact .other (h l (by simp)) (ih fun m hm => h m (by simp [hm]))

/-- An arrow lowers the count, but inside curly brackets the comma of round ones stays hidden. -/
theorem stop_inside_pairs_arrow :
    Matched (Lexeme.lex "{x => (y, z)}, w".toList) ∧
      (∃ m, LiesInside "{x => (y, z)}, w".toList 0 m) ∧
      (∃ n, LiesInside "{x => (y, z)}, w".toList 13 n) ∧
      ∀ m n, LiesInside "{x => (y, z)}, w".toList 0 m →
        LiesInside "{x => (y, z)}, w".toList 13 n → 0 < n →
          (n : Int) ≤ m + surplus none (Lexeme.lex "{x => (y, z)}".toList) := by
  have hlex : Lexeme.lex "{x => (y, z)}, w".toList =
      .plain '{' :: (("x => ".toList.map .plain ++
        .plain '(' :: ("y, z".toList.map .plain ++ [Lexeme.plain ')'])) ++
          .plain '}' :: ", w".toList.map .plain) := by decide +kernel
  have hmatched : Matched (Lexeme.lex "{x => (y, z)}, w".toList) := by
    have hround : Matched (.plain '(' :: ("y, z".toList.map .plain ++ [Lexeme.plain ')'])) :=
      .pair .round (.of_level (by decide)) .nil
    rw [hlex]
    exact .pair .curly ((Matched.of_level (by decide)).append hround) (.of_level (by decide))
  have hsegment : (⟨0, 13, "{x => (y, z)}".toList⟩ : Segment) ∈
      segments "{x => (y, z)}, w".toList := by decide +kernel
  exact ⟨hmatched, (stop_inside_pairs hmatched).1 _ hsegment⟩

/-- A comma in round brackets ends a segment after a comparison. -/
theorem stop_inside_comparison :
    Matched (Lexeme.lex "(a > b, c)".toList) ∧
      ⟨0, 6, "(a > b".toList⟩ ∈ segments "(a > b, c)".toList ∧
      LiesInside "(a > b, c)".toList 6 1 := by
  have hlex : Lexeme.lex "(a > b, c)".toList =
      .plain '(' :: ("a > b, c".toList.map .plain ++ [Lexeme.plain ')']) := by decide +kernel
  have hleft : Matched ("a > b".toList.map .plain) := .of_level (by decide)
  have hright : Matched (", c".toList.map .plain) := .of_level (by decide)
  refine ⟨?_, by decide +kernel, ?_⟩
  · rw [hlex]
    exact .pair .round (.of_level (by decide)) .nil
  · exact ⟨[] ++ Lexeme.plain '(' :: "a > b".toList.map .plain,
      ", c".toList.map .plain ++ [Lexeme.plain ')'], hlex, by decide +kernel,
      .within .round .nil (.outside hleft hright) .nil⟩

end EnumReflection.Segment
