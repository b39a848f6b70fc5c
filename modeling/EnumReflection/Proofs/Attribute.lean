import EnumReflection.Proofs.Prelude

/-!
# Two readings of an attribute

Splitting sets strings, character literals and comments aside before it counts a bracket, while the
search for the end of an attribute sets only strings aside. Where the lexemes of a text match its
opening bracket with a later one, the two agree if what stands between them is also closed and
matched when it is read without character literals and comments, and only then as long as something
follows the attribute.
-/
namespace EnumReflection.Name
open Lexeme (lex)
open Segment (exists_quoted)

/-- Lexemes whose square brackets match. -/
inductive Squared : List Lexeme → Prop
  | nil : Squared []
  | other {l : Lexeme} {ls : List Lexeme} : l ≠ .plain '[' → l ≠ .plain ']' → Squared ls →
      Squared (l :: ls)
  | group {inner ls : List Lexeme} : Squared inner → Squared ls →
      Squared (.plain '[' :: (inner ++ .plain ']' :: ls))

/-- The inside of an attribute whose opening bracket the lexemes of a text match. -/
structure Encloses (u : Text) (p q : List Lexeme) : Prop where
  lex_eq : lex u = p ++ .plain ']' :: q
  squared : Squared p

/-- A lexeme that is passed over as a whole in both readings. Of character literals and comments
those are that hold closed strings and matched brackets of their own. -/
def PassedOver : Lexeme → Prop
  | .character t | .comment t => IsContent t
  | .string _ | .plain _ => True

theorem isContent_of_next {c : Char} {r : Text} (hrest : (Lexeme.next c r).2 ≠ [])
    (hopen : (Lexeme.next c r).1 ≠ .plain '[') (hclose : (Lexeme.next c r).1 ≠ .plain ']')
    (hpassed : PassedOver (Lexeme.next c r).1) : IsContent (Lexeme.next c r).1.text := by
  have hplain (hq : c ≠ '"') (hl : (Lexeme.next c r).1 = .plain c) : IsContent [c] := by
    rw [hl] at hopen hclose
    exact .plain hq (fun h => hopen (by rw [h])) (fun h => hclose (by rw [h])) .nil
  by_cases hq : c = '"'
  · subst hq
    have hnext : Lexeme.next '"' r =
        (.string ('"' :: (Lexeme.stringTail r).1), (Lexeme.stringTail r).2) := rfl
    rw [hnext] at hrest ⊢
    obtain ⟨s, hs, he⟩ := exists_quoted hrest
    rw [Lexeme.text, he]
    exact .string hs .nil
  · cases hl : (Lexeme.next c r).1 with
    | string t =>
      unfold Lexeme.next at hl
      rw [if_neg hq] at hl
      split at hl
      · split at hl <;> cases hl
      · split at hl <;> cases hl
    | character t =>
      rw [hl] at hpassed
      exact hpassed
    | comment t =>
      rw [hl] at hpassed
      exact hpassed
    | plain d =>
      have hd : c = d := by
        have hhead := Lexeme.head?_text_next c r
        rw [hl] at hhead
        simpa [Lexeme.text] using hhead.symm
      subst hd
      exact hplain hq hl

theorem isContent_of_lex {u : Text} {p q : List Lexeme} (hlex : lex u = p ++ q) (hq : q ≠ [])
    {l : Lexeme} (hl : l ∈ p) (hopen : l ≠ .plain '[') (hclose : l ≠ .plain ']')
    (hpassed : PassedOver l) : IsContent l.text := by
  induction p generalizing u with
  | nil => cases hl
  | cons k p ih =>
    cases u with
    | nil =>
      rw [lex] at hlex
      cases hlex
    | cons c r =>
      rw [lex, List.cons_append] at hlex
      obtain ⟨rfl, hrest⟩ := List.cons.inj hlex
      rcases List.mem_cons.1 hl with rfl | hl
      · apply isContent_of_next _ hopen hclose hpassed
        intro hnil
        rw [hnil, lex] at hrest
        exact hq (List.append_eq_nil_iff.1 hrest.symm).2
      · exact ih hrest hl

theorem Squared.isContent {p : List Lexeme} (h : Squared p)
    (hp : ∀ l ∈ p, l ≠ .plain '[' → l ≠ .plain ']' → IsContent l.text) :
    IsContent (p.flatMap Lexeme.text) := by
  induction h with
  | nil => exact .nil
  | other hopen hclose _ ih =>
    rw [List.flatMap_cons]
    exact (hp _ (by simp) hopen hclose).append (ih fun l hl => hp l (by simp [hl]))
  | @group inner ls _ _ ihi ihs =>
    have hinner := ihi fun l hl => hp l (by simp [hl])
    have hrest := ihs fun l hl => hp l (by simp [hl])
    have happ : (Lexeme.plain '[' :: (inner ++ .plain ']' :: ls)).flatMap Lexeme.text =
        '[' :: (inner.flatMap Lexeme.text ++ ']' :: ls.flatMap Lexeme.text) := by
      simp [Lexeme.text]
    rw [happ]
    exact .group hinner hrest

section
variable {u : Text} {p q : List Lexeme} (h : Encloses u p q)
include h

theorem Encloses.text_eq : u = p.flatMap Lexeme.text ++ ']' :: q.flatMap Lexeme.text := by
  have hu := Lexeme.flatMap_text_lex u
  rw [h.lex_eq, List.flatMap_append] at hu
  exact hu.symm

theorem Encloses.isContent (hp : ∀ l ∈ p, PassedOver l) : IsContent (p.flatMap Lexeme.text) :=
  h.squared.isContent fun l hl hopen hclose =>
    isContent_of_lex h.lex_eq (by simp) hl hopen hclose (hp l hl)

theorem Encloses.afterGroup_eq (hp : IsContent (p.flatMap Lexeme.text)) :
    afterGroup 0 u = q.flatMap Lexeme.text := by
  rw [h.text_eq, afterGroup_content hp, afterGroup]

/-- What stands before the end that is found is closed and matched. -/
theorem Encloses.isContent_of_afterGroup (hne : q.flatMap Lexeme.text ≠ [])
    (hafter : afterGroup 0 u = q.flatMap Lexeme.text) : IsContent (p.flatMap Lexeme.text) := by
  have hcloses := closes_afterGroup (n := 0) (t := u) (by rwa [hafter])
  rw [hafter] at hcloses
  generalize hr : q.flatMap Lexeme.text = r at hcloses
  have htext := h.text_eq
  cases hcloses with
  | @last s _ hs =>
    rw [hr] at htext
    rw [← List.append_cancel_right htext]
    exact hs

theorem Encloses.read?_eq (hp : IsContent (p.flatMap Lexeme.text)) :
    read? ('#' :: '[' :: u) = read? (q.flatMap Lexeme.text) := by
  have hattribute : IsAttribute ('#' :: '[' :: (p.flatMap Lexeme.text ++ [']'])) := .outer .nil hp
  have hprelude := read?_prelude (.attributed .nil hattribute (.layout .nil)) (q.flatMap Lexeme.text)
  rw [← hprelude, h.text_eq]
  simp

end

/-- The end of an attribute is found where the lexemes close it, and the name is looked for from
there, if the attribute is passed over in both readings. As long as text follows it the end is
found there only if what it holds is closed and matched without literals and comments. -/
theorem afterGroup_of_encloses {u : Text} {p q : List Lexeme} (h : Encloses u p q) :
    ((∀ l ∈ p, PassedOver l) → IsContent (p.flatMap Lexeme.text)) ∧
    (IsContent (p.flatMap Lexeme.text) → afterGroup 0 u = q.flatMap Lexeme.text ∧
      read? ('#' :: '[' :: u) = read? (q.flatMap Lexeme.text)) ∧
    (q.flatMap Lexeme.text ≠ [] →
      (afterGroup 0 u = q.flatMap Lexeme.text ↔ IsContent (p.flatMap Lexeme.text))) :=
  ⟨h.isContent, fun hp => ⟨h.afterGroup_eq hp, h.read?_eq hp⟩,
    fun hne => ⟨h.isContent_of_afterGroup hne, h.afterGroup_eq⟩⟩

/-- A comment with a string of its own, a quoted comma, and a bracket in a string. -/
theorem afterGroup_of_encloses_comment :
    let u := "a(',') /* \"]\" */ [\"]\"]] B".toList
    ∃ p q, Encloses u p q ∧ (∀ l ∈ p, PassedOver l) ∧ q.flatMap Lexeme.text = " B".toList ∧
      afterGroup 0 u = " B".toList ∧ ofSegment? ('#' :: '[' :: u) = some ['B'] := by
  intro u
  let p : List Lexeme := [.plain 'a', .plain '(', .character "','".toList, .plain ')', .plain ' ',
    .comment "/* \"]\" */".toList, .plain ' ', .plain '[', .string "\"]\"".toList, .plain ']']
  let q : List Lexeme := [.plain ' ', .plain 'B']
  have hsquared : Squared p :=
    .other (by decide) (by decide) <| .other (by decide) (by decide) <|
    .other (by decide) (by decide) <| .other (by decide) (by decide) <|
    .other (by decide) (by decide) <| .other (by decide) (by decide) <|
    .other (by decide) (by decide) <|
    @Squared.group [.string "\"]\"".toList] [] (.other (by decide) (by decide) .nil) .nil
  have hencloses : Encloses u p q := ⟨by decide +kernel, hsquared⟩
  have hquoted : IsContent "/* \"]\" */".toList := by
    have hopening : IsContent "/* ".toList := .of_plain (Text.forall_of_all (by decide))
    have hclosing : IsContent " */".toList := .of_plain (Text.forall_of_all (by decide))
    exact hopening.append (.string (s := [']']) (.plain (by decide) (by decide) .nil) hclosing)
  have hcharacter : IsContent "','".toList := .of_plain (Text.forall_of_all (by decide))
  have hpassed : ∀ l ∈ p, PassedOver l := by
    simp only [p, List.mem_cons, List.not_mem_nil, or_false]
    rintro l (rfl | rfl | rfl | rfl | rfl | rfl | rfl | rfl | rfl | rfl)
    exacts [trivial, trivial, hcharacter, trivial, trivial, hquoted, trivial, trivial, trivial,
      trivial]
  obtain ⟨hcontent, hread, -⟩ := afterGroup_of_encloses hencloses
  obtain ⟨hafter, hname⟩ := hread (hcontent hpassed)
  refine ⟨p, q, hencloses, hpassed, rfl, hafter, ?_⟩
  rw [ofSegment?, hname]
  decide +kernel

/-- A bracket in a character literal or in a comment ends an attribute early, so that a word of the
attribute is read for the name, and a quote in a character literal hides the name. -/
theorem afterGroup_inside_literal :
    let literal := "a = ']' b] B".toList
    let comment := "a /* ] */ b] B".toList
    let hidden := "a = '\"'] B".toList
    let q : List Lexeme := [.plain ' ', .plain 'B']
    (∃ p, Encloses literal p q) ∧ afterGroup 0 literal = "' b] B".toList ∧
      ofSegment? ('#' :: '[' :: literal) = some ['b'] ∧
    (∃ p, Encloses comment p q) ∧ afterGroup 0 comment = " */ b] B".toList ∧
      ofSegment? ('#' :: '[' :: comment) = some ['b'] ∧
    (∃ p, Encloses hidden p q) ∧ afterGroup 0 hidden = [] ∧
      ofSegment? ('#' :: '[' :: hidden) = none := by
  intro literal comment hidden q
  have hsquared {p : List Lexeme} (hp : ∀ l ∈ p, l ≠ .plain '[' ∧ l ≠ .plain ']') : Squared p := by
    induction p with
    | nil => exact .nil
    | cons l p ih =>
      obtain ⟨hopen, hclose⟩ := hp l (by simp)
      exact .other hopen hclose (ih fun k hk => hp k (by simp [hk]))
  have hencloses {u : Text} (n : Nat) (hu : lex u = (lex u).take n ++ .plain ']' :: q)
      (hp : ∀ l ∈ (lex u).take n, l ≠ .plain '[' ∧ l ≠ .plain ']') : ∃ p, Encloses u p q :=
    ⟨_, hu, hsquared hp⟩
  refine ⟨hencloses 7 ?_ ?_, ?_, ?_, hencloses 5 ?_ ?_, ?_, ?_, hencloses 5 ?_ ?_, ?_, ?_⟩
  all_goals decide +kernel

end EnumReflection.Name
