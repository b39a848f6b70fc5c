import EnumReflection.Trivia
import Mathlib.Data.List.Basic

/-!
# Layout as it is written

Comments with their ends, and texts of spaces and such comments. `skip` passes over layout as a
whole, whatever follows it. An open comment is no layout, since it would swallow what follows,
but it may stand at the end of a text. Nothing else is passed over.
-/
namespace EnumReflection.Trivia

/-- A comment together with what ends it: the end of its line, or the first end mark. -/
inductive IsComment : Text → Prop
  | line {remark : Text} {stop : Char} (inside : ∀ c ∈ remark, endsLine c = false)
      (stops : endsLine stop = true) : IsComment ('/' :: '/' :: (remark ++ [stop]))
  | block {remark : Text} (inside : ¬ ['*', '/'] <:+: remark ++ ['*']) :
      IsComment ('/' :: '*' :: (remark ++ ['*', '/']))

/-- Spaces and comments. -/
inductive IsLayout : Text → Prop
  | nil : IsLayout []
  | space {c : Char} {g : Text} : isSpace c = true → IsLayout g → IsLayout (c :: g)
  | comment {r g : Text} : IsComment r → IsLayout g → IsLayout (r ++ g)

/-- A comment at the end of a text that its end mark does not follow any more. -/
inductive IsOpenComment : Text → Prop
  | line {remark : Text} (inside : ∀ c ∈ remark, endsLine c = false) :
      IsOpenComment ('/' :: '/' :: remark)
  | block {remark : Text} (inside : ¬ ['*', '/'] <:+: remark) :
      IsOpenComment ('/' :: '*' :: remark)

/-- Layout up to the end of a text, where the last comment may be open. -/
inductive IsPadding : Text → Prop
  | closed {g : Text} : IsLayout g → IsPadding g
  | opened {g remark : Text} : IsLayout g → IsOpenComment remark → IsPadding (g ++ remark)

theorem block_of_not_infix {remark : Text} (h : ¬ ['*', '/'] <:+: remark ++ ['*']) (t : Text) :
    block (remark ++ '*' :: '/' :: t) = (remark ++ ['*', '/'], t) := by
  induction remark with
  | nil => rfl
  | cons c remark ih =>
    have hrest : ¬ ['*', '/'] <:+: remark ++ ['*'] := by
      intro hi
      exact h (List.infix_cons hi)
    have hmark : ∀ r, c = '*' → remark ++ '*' :: '/' :: t = '/' :: r → False := by
      rintro r rfl hr
      cases remark with
      | nil => simp at hr
      | cons d remark =>
        have hd : d = '/' := (List.cons.inj hr).1
        subst hd
        exact h ⟨[], remark ++ ['*'], rfl⟩
    rw [List.cons_append, block.eq_3 _ _ hmark, ih hrest]
    rfl

theorem comment?_block {remark : Text} (h : ¬ ['*', '/'] <:+: remark ++ ['*']) (t : Text) :
    comment? ('/' :: '*' :: (remark ++ ['*', '/']) ++ t) =
      some ('/' :: '*' :: (remark ++ ['*', '/']), t) := by
  have hb := block_of_not_infix h t
  simp only [List.cons_append, List.append_assoc, List.nil_append, comment?, hb]

theorem comment?_line {remark : Text} {stop : Char} (inside : ∀ c ∈ remark, endsLine c = false)
    (stops : endsLine stop = true) (t : Text) :
    comment? ('/' :: '/' :: (remark ++ stop :: t)) = some ('/' :: '/' :: remark, stop :: t) := by
  obtain ⟨htake, hdrop⟩ : (remark ++ stop :: t).takeWhile (!endsLine ·) = remark ∧
      (remark ++ stop :: t).dropWhile (!endsLine ·) = stop :: t := by
    apply Text.span_append
    · simpa using inside
    · rintro c ⟨⟩
      simpa using stops
  rw [comment?, htake, hdrop]

theorem isSpace_of_endsLine {c : Char} (h : endsLine c = true) : isSpace c = true := by
  simp only [endsLine, Bool.or_eq_true, beq_iff_eq] at h
  rcases h with rfl | rfl <;> rfl

theorem skip_comment {r : Text} (h : IsComment r) (t : Text) : skip (r ++ t) = skip t := by
  cases h with
  | line inside stops =>
    have hr := comment?_line inside stops t
    simp only [List.cons_append, List.append_assoc, List.nil_append]
    rw [skip_of_comment? hr, skip_space (isSpace_of_endsLine stops)]
  | block inside => exact skip_of_comment? (comment?_block inside t)

theorem skip_layout {g : Text} (h : IsLayout g) (t : Text) : skip (g ++ t) = skip t := by
  induction h with
  | nil => rfl
  | space hc _ ih => rw [List.cons_append, skip_space hc, ih]
  | comment hr _ ih => rw [List.append_assoc, skip_comment hr, ih]

theorem isBlank_layout {g : Text} (h : IsLayout g) : isBlank g = true := by
  have hs := skip_layout h []
  rw [List.append_nil, skip_nil] at hs
  simp [isBlank, hs]

def layoutHeads : List Char := [' ', '\t', '\n', '\x0C', '\r', '/']

theorem head_mem_layoutHeads {g : Text} (h : IsLayout g) {c : Char} (hc : g.head? = some c) :
    c ∈ layoutHeads := by
  cases h with
  | nil => cases hc
  | space hs =>
    cases hc
    simp only [isSpace, Bool.or_eq_true, beq_iff_eq] at hs
    rcases hs with (((rfl | rfl) | rfl) | rfl) | rfl <;> decide
  | comment hr =>
    cases hr <;> cases hc <;> decide

theorem skip_of_plain {c : Char} {t : Text} (hspace : isSpace c = false) (hc : c ≠ '/') :
    skip (c :: t) = c :: t :=
  skip_of_none (by simp [hspace]) (comment?_eq_none fun he => absurd he hc)

theorem block_cases (t : Text) :
    (∃ remark, ¬ ['*', '/'] <:+: remark ++ ['*'] ∧ (block t).1 = remark ++ ['*', '/']) ∨
      ((block t).2 = [] ∧ ¬ ['*', '/'] <:+: t) := by
  fun_induction block t with
  | case1 => exact Or.inr ⟨rfl, by simp⟩
  | case2 r => exact Or.inl ⟨[], by decide, rfl⟩
  | case3 c r hmark ih =>
    rcases ih with ⟨remark, hno, hr⟩ | ⟨hr, hno⟩
    · refine Or.inl ⟨c :: remark, ?_, by simp [hr]⟩
      intro h
      rcases List.infix_cons_iff.1 h with h | h
      · obtain ⟨rfl, hhead⟩ := List.cons_prefix_cons.1 h
        have happ := block_append r
        rw [hr] at happ
        cases remark with
        | nil => simp at hhead
        | cons d remark =>
          obtain ⟨rfl, -⟩ := List.cons_prefix_cons.1 hhead
          exact hmark _ rfl happ.symm
      · exact hno h
    · refine Or.inr ⟨hr, ?_⟩
      intro h
      rcases List.infix_cons_iff.1 h with h | h
      · obtain ⟨rfl, s, rfl⟩ := List.cons_prefix_cons.1 h
        exact hmark _ rfl rfl
      · exact hno h

theorem comment?_cases {t remark rest : Text} (h : comment? t = some (remark, rest)) :
    IsComment remark ∨ (∃ stop r, rest = stop :: r ∧ endsLine stop = true ∧
      IsComment (remark ++ [stop])) ∨ (rest = [] ∧ IsOpenComment remark) := by
  unfold comment? at h
  split at h
  · rename_i r
    cases h
    have inside : ∀ c ∈ r.takeWhile (!endsLine ·), endsLine c = false := by
      intro c hc
      simpa using List.all_eq_true.1 List.all_takeWhile c hc
    cases hrest : r.dropWhile (!endsLine ·) with
    | nil => exact Or.inr (Or.inr ⟨rfl, .line inside⟩)
    | cons stop s =>
      have stops : endsLine stop = true := by
        have := List.head?_dropWhile_not (!endsLine ·) r
        rw [hrest] at this
        simpa using this
      exact Or.inr (Or.inl ⟨stop, s, rfl, stops, .line inside stops⟩)
  · rename_i r
    cases h
    rcases block_cases r with ⟨remark, hno, hr⟩ | ⟨hr, hno⟩
    · rw [hr]
      exact Or.inl (.block hno)
    · have happ := block_append r
      rw [hr, List.append_nil] at happ
      rw [happ]
      exact Or.inr (Or.inr ⟨hr, .block hno⟩)
  · cases h

theorem IsLayout.of_cons_endsLine {c : Char} {g : Text} (h : IsLayout (c :: g))
    (hc : endsLine c = true) : IsLayout g := by
  generalize he : c :: g = t at h
  cases h with
  | nil => cases he
  | space _ hg =>
    cases he
    exact hg
  | comment hr _ =>
    cases hr <;> (cases he; cases hc)

/-- What is skipped before a text goes on is layout. -/
theorem exists_layout {t : Text} (h : skip t ≠ []) : ∃ g, IsLayout g ∧ g ++ skip t = t := by
  fun_induction skip t with
  | case1 => exact absurd rfl h
  | case2 c r hc ih =>
    obtain ⟨g, hg, ht⟩ := ih h
    exact ⟨c :: g, .space hc hg, by rw [List.cons_append, ht]⟩
  | case3 c r _ remark rest hr _ ih =>
    obtain ⟨g, hg, ht⟩ := ih h
    have happ := comment?_append hr
    rcases comment?_cases hr with hremark | ⟨stop, s, rfl, hstop, hremark⟩ | ⟨rfl, -⟩
    · exact ⟨remark ++ g, .comment hremark hg, by rw [List.append_assoc, ht, happ]⟩
    · -- The end of the line is skipped next, as the first part of the layout that follows.
      cases g with
      | nil =>
        rw [List.nil_append] at ht
        have hshort := length_skip_le s
        rw [← skip_space (isSpace_of_endsLine hstop) s, ht, List.length_cons] at hshort
        omega
      | cons d g =>
        obtain ⟨rfl, hs⟩ := List.cons.inj ht
        change g ++ skip (d :: s) = s at hs
        refine ⟨remark ++ [d] ++ g, .comment hremark (hg.of_cons_endsLine hstop), ?_⟩
        rw [List.append_assoc, hs, ← happ, List.append_assoc]
        rfl
    · exact absurd skip_nil h
  | case4 c r _ _ => exact ⟨[], .nil, rfl⟩

theorem IsPadding.space {c : Char} {t : Text} (hc : isSpace c = true) (ht : IsPadding t) :
    IsPadding (c :: t) := by
  cases ht with
  | closed hg => exact .closed (.space hc hg)
  | opened hg hr => exact .opened (.space hc hg) hr

theorem IsPadding.comment {r t : Text} (hr : IsComment r) (ht : IsPadding t) :
    IsPadding (r ++ t) := by
  cases ht with
  | closed hg => exact .closed (.comment hr hg)
  | opened hg ho =>
    rw [← List.append_assoc]
    exact .opened (.comment hr hg) ho

theorem IsPadding.of_cons_endsLine {c : Char} {t : Text} (h : IsPadding (c :: t))
    (hc : endsLine c = true) : IsPadding t := by
  generalize he : c :: t = u at h
  cases h with
  | closed hg =>
    subst he
    exact .closed (hg.of_cons_endsLine hc)
  | @opened g remark hg ho =>
    cases g with
    | nil =>
      rw [List.nil_append] at he
      subst he
      cases ho <;> cases hc
    | cons d g =>
      obtain ⟨rfl, rfl⟩ := List.cons.inj he
      exact .opened (hg.of_cons_endsLine hc) ho

theorem isPadding_of_isBlank {t : Text} (h : isBlank t = true) : IsPadding t := by
  have hskip : skip t = [] := by simpa [isBlank] using h
  clear h
  fun_induction skip t with
  | case1 => exact .closed .nil
  | case2 c r hc ih => exact (ih hskip).space hc
  | case3 c r _ remark rest hr _ ih =>
    rw [← comment?_append hr]
    rcases comment?_cases hr with hremark | ⟨stop, s, rfl, hstop, hremark⟩ | ⟨rfl, hremark⟩
    · exact (ih hskip).comment hremark
    · have hs := ((ih hskip).of_cons_endsLine hstop).comment hremark
      simpa using hs
    · rw [List.append_nil]
      exact .opened .nil hremark
  | case4 => cases hskip

theorem skip_openComment {remark : Text} (h : IsOpenComment remark) : skip remark = [] := by
  have hskip {t : Text} (hc : comment? t = some (t, [])) : skip t = [] := by
    rw [skip_of_comment? hc, skip_nil]
  cases h with
  | @line remark inside =>
    apply hskip
    obtain ⟨htake, hdrop⟩ := Text.span_append (s := remark) (t := [])
      (p := (!endsLine ·)) (by simpa using inside) (by simp)
    rw [List.append_nil] at htake hdrop
    rw [comment?, htake, hdrop]
  | @block remark inside =>
    apply hskip
    have happ := block_append remark
    rcases block_cases remark with ⟨r, -, hr⟩ | ⟨hr, -⟩
    · have hinfix : ['*', '/'] <:+: remark := ⟨r, (block remark).2, by rw [← hr, happ]⟩
      exact absurd hinfix inside
    · rw [hr, List.append_nil] at happ
      rw [comment?, happ, hr]

theorem isBlank_padding {t : Text} (h : IsPadding t) : isBlank t = true := by
  cases h with
  | closed hg => exact isBlank_layout hg
  | opened hg ho => simp [isBlank, skip_layout hg, skip_openComment ho]

theorem IsPadding.head {g : Text} (h : IsPadding g) {c : Char} (hc : g.head? = some c) :
    c ∈ layoutHeads := by
  cases h with
  | closed hg => exact head_mem_layoutHeads hg hc
  | @opened g remark hg ho =>
    cases g with
    | nil => cases ho <;> (cases hc; decide)
    | cons d g => exact head_mem_layoutHeads hg hc

end EnumReflection.Trivia
