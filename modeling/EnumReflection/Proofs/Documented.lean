import EnumReflection.Proofs.Prelude
import EnumReflection.Proofs.Table.Outcome
import EnumReflection.Proofs.Tiling
import Mathlib.Algebra.Ring.Parity

/-!
# Documented members

The documentation of a member reaches a declaration as an attribute that holds a raw string, with
as many number signs around it as the documentation requires. Reading takes the raw string for a
string with escapes. The documentation disturbs nothing as long as it is well-formed when it is
read so between its quotes. Without quotes of its own it is exactly if it ends with an even number
of backslashes, since an odd one takes the closing quote for its own.
-/
namespace EnumReflection

/-- A member with its documentation. -/
structure Documented where
  doc : Text
  name : Text

namespace Documented
open Segment (Body Quoted Atoms)
open Name (IsContent IsAttribute IsIdentifier)
open Trivia (IsLayout)

/-- The number signs that a raw string requires: one more than follow any quote in it. -/
def signs : Text → Nat
  | [] => 0
  | '"' :: r => max (1 + (r.takeWhile (· == '#')).length) (signs r)
  | _ :: r => signs r

def fence (doc : Text) : Text := List.replicate (signs doc) '#'

def quote (doc : Text) : Text := '"' :: (doc ++ ['"'])

def opening : Text := "doc = r".toList

def content (doc : Text) : Text := opening ++ (fence doc ++ (quote doc ++ fence doc))

def docAttribute (doc : Text) : Text := '#' :: '[' :: (content doc ++ [']'])

def text (m : Documented) : Text := docAttribute m.doc ++ ' ' :: m.name

def declaration (ms : List Documented) : Text := Text.join [',', ' '] (ms.map text)

def backslashes (doc : Text) : Nat := (doc.reverse.takeWhile (· == '\\')).length

/-- Documentation that is well-formed when it is read between quotes: its strings are closed as
they are read, and what is read as outside of them has its brackets matched. -/
structure Harmless (doc : Text) : Prop where
  body : Body true none (quote doc) none
  content : IsContent (quote doc)

theorem lt_signs_iff {doc : Text} {n : Nat} :
    n < signs doc ↔ '"' :: List.replicate n '#' <:+: doc := by
  have hrun (r : Text) : List.replicate n '#' <+: r ↔
      n < 1 + (r.takeWhile (· == '#')).length := by
    induction n generalizing r with
    | zero =>
      rw [List.replicate_zero]
      exact ⟨fun _ => Nat.lt_add_right _ Nat.one_pos, fun _ => List.nil_prefix⟩
    | succ n ih =>
      cases r with
      | nil => simp
      | cons c r =>
        rw [List.replicate_succ, List.cons_prefix_cons, ih]
        by_cases hc : c = '#'
        · simp [hc]
          omega
        · simp [hc, Ne.symm hc]
  induction doc with
  | nil => simp [signs]
  | cons c r ih =>
    rw [List.infix_cons_iff, List.cons_prefix_cons, hrun, ih.symm]
    by_cases hc : c = '"'
    · subst hc
      simp only [signs, true_and]
      omega
    · simp [signs, Ne.symm hc]

theorem signs_eq_zero {doc : Text} (h : '"' ∉ doc) : signs doc = 0 := by
  by_contra hne
  exact h ((lt_signs_iff.1 (Nat.pos_of_ne_zero hne)).subset (by simp))

theorem eq_of_mem_fence {doc : Text} {c : Char} (h : c ∈ fence doc) : c = '#' :=
  List.eq_of_mem_replicate h

theorem isContent_opening : IsContent opening := .of_plain (Text.forall_of_all (by decide))

theorem isContent_content {doc : Text} (h : IsContent (quote doc)) : IsContent (content doc) := by
  have hfence : IsContent (fence doc) := .of_plain fun c hc => by
    rw [eq_of_mem_fence hc]
    decide
  exact isContent_opening.append (hfence.append (h.append hfence))

theorem isAttribute_docAttribute {doc : Text} (h : Harmless doc) : IsAttribute (docAttribute doc) :=
  .outer .nil (isContent_content h.content)

theorem body_content {doc : Text} (h : Body true none (quote doc) none) (b : Option Char) :
    Body true b (content doc) (some ']') := by
  have hfence : Atoms (fence doc) := .of_plain fun c hc => by
    rw [eq_of_mem_fence hc]
    decide
  have hafter : (fence doc).head?.or (some ']') = some '#' ∨
      (fence doc).head?.or (some ']') = some ']' := by
    cases hhead : (fence doc).head? with
    | none => exact .inr rfl
    | some c =>
      rw [eq_of_mem_fence (List.mem_of_mem_head? hhead)]
      exact .inl rfl
  have hquote (b : Option Char) : Body true b (quote doc) ((fence doc).head?.or (some ']')) := by
    refine (h.congr_after ?_).congr_before (by simp [quote])
    rcases hafter with h | h <;> rw [h] <;> decide
  have hopening : Atoms opening := .of_plain (Text.forall_of_all (by decide))
  refine (hopening.body b _).append fun b => (hfence.body b _).append fun b => ?_
  exact (hquote b).append fun b => hfence.body b _

theorem body_text {m : Documented} (h : Harmless m.doc) (hname : IsIdentifier m.name)
    (b : Option Char) : Body false b m.text none := by
  have hrest : Atoms (' ' :: m.name) :=
    .cons (a := [' ']) (.plain (by decide)) (.of_isIdentifier hname)
  have hgroup : Body false (some '#') ('[' :: (content m.doc ++ ']' :: (' ' :: m.name))) none :=
    .group .square (body_content h.body _) (hrest.body _ none)
  have htext : m.text = ['#'] ++ '[' :: (content m.doc ++ ']' :: (' ' :: m.name)) := by
    simp [text, docAttribute]
  rw [htext]
  exact .atom (.plain (by decide)) hgroup

theorem wellFormed_text {m : Documented} (h : Harmless m.doc) (hname : IsIdentifier m.name) :
    Segment.WellFormed m.text ∧ Segment.WellFormed (' ' :: m.text) :=
  ⟨body_text h hname none, .atom (a := [' ']) (.plain (by decide)) (body_text h hname _)⟩

theorem ofSegment?_text {m : Documented} (h : Harmless m.doc) (hname : IsIdentifier m.name)
    {g : Text} (hg : IsLayout g) : Name.ofSegment? (g ++ m.text) = some m.name := by
  have hspace : IsLayout [' '] := .space rfl .nil
  have hprelude : Name.IsPrelude (g ++ (docAttribute m.doc ++ [' '])) :=
    .attributed hg (isAttribute_docAttribute h) (.layout hspace)
  have hend : Name.EndsName [] := by rintro c ⟨⟩
  have hread := Name.read?_layout .nil hname hend
  rw [List.nil_append, List.append_nil] at hread
  have htext : g ++ m.text = g ++ (docAttribute m.doc ++ [' ']) ++ m.name := by
    simp [text]
  rw [htext, Name.ofSegment?, Name.read?_prelude hprelude, hread]
  rfl

theorem join_comma_space (t : Text) (ts : List Text) :
    Text.join [',', ' '] (t :: ts) = Text.join [','] (t :: ts.map (' ' :: ·)) := by
  have hcomma := intercalate_append_cons [','] [] t (ts.map (' ' :: ·))
  have hboth := intercalate_append_cons [',', ' '] [] t ts
  rw [List.nil_append] at hcomma hboth
  rw [Text.join, Text.join, hcomma, hboth, List.flatMap_map]
  rfl

theorem bodies_declaration {m : Documented} {ms : List Documented}
    (h : ∀ n ∈ m :: ms, Harmless n.doc ∧ IsIdentifier n.name) :
    Segment.bodies (declaration (m :: ms)) = m.text :: (ms.map text).map (' ' :: ·) := by
  rw [declaration, List.map_cons, join_comma_space]
  apply Segment.bodies_join (by simp)
  intro t ht
  rcases List.mem_cons.1 ht with rfl | ht
  · obtain ⟨hdoc, hname⟩ := h m (by simp)
    exact (wellFormed_text hdoc hname).1.closed
  · rw [List.map_map] at ht
    obtain ⟨n, hn, rfl⟩ := List.mem_map.1 ht
    obtain ⟨hdoc, hname⟩ := h n (by simp [hn])
    exact (wellFormed_text hdoc hname).2.closed

theorem map_ofSegment?_bodies {ms : List Documented} (hne : ms ≠ [])
    (h : ∀ m ∈ ms, Harmless m.doc ∧ IsIdentifier m.name) :
    (Segment.bodies (declaration ms)).map Name.ofSegment? = (ms.map name).map some := by
  obtain ⟨m, ms, rfl⟩ := List.exists_cons_of_ne_nil hne
  rw [bodies_declaration h, List.map_map, List.map_map, List.map_cons, List.map_map, List.map_cons]
  congr 1
  · obtain ⟨hdoc, hname⟩ := h m (by simp)
    exact ofSegment?_text hdoc hname .nil
  · apply List.map_congr_left
    intro n hn
    obtain ⟨hdoc, hname⟩ := h n (by simp [hn])
    exact ofSegment?_text hdoc hname (.space rfl .nil)

theorem exists_table {α : Type} {ms : List Documented} (hne : ms ≠ [])
    (h : ∀ m ∈ ms, Harmless m.doc ∧ IsIdentifier m.name) {values : List α}
    (hlen : values.length = ms.length) :
    ∃ t, Table.ofText (declaration ms) values = .ok t ∧ t.names = ms.map name := by
  have hbodies := map_ofSegment?_bodies hne h
  have hnamed : ∀ b ∈ Segment.bodies (declaration ms), ¬ Table.Nameless b := by
    intro b hb hno
    have hread := List.mem_map_of_mem (f := Name.ofSegment?) hb
    rw [hbodies, hno] at hread
    obtain ⟨name, -, hname⟩ := List.mem_map.1 hread
    cases hname
  have hmembers := Table.memberBodies_of_named hnamed
  have hcount : values.length = Segment.memberCount (declaration ms) := by
    have hlength := congrArg List.length hbodies
    rw [List.length_map, List.length_map, List.length_map] at hlength
    rw [hlen, Segment.memberCount, hmembers, hlength]
  obtain ⟨t, ht, htexts⟩ :=
    Table.ofText_of_named (fun b hb => hnamed b (List.mem_of_mem_take hb)) hcount
  refine ⟨t, ht, ?_⟩
  have hnames := Table.map_some_names ht
  rw [htexts, hmembers, hbodies] at hnames
  exact List.map_injective_iff.2 (Option.some_injective _) hnames

theorem harmless_quotation {s t u : Text} (hs : Quoted s)
    (body : ∀ b, Body true b t (some '"')) (content : IsContent t) (hu : Quoted u) :
    Harmless (s ++ '"' :: (t ++ '"' :: u)) := by
  have hquote : quote (s ++ '"' :: (t ++ '"' :: u)) =
      ('"' :: (s ++ ['"'])) ++ (t ++ '"' :: (u ++ ['"'])) := by
    simp [quote]
  have hstring : Atoms ('"' :: (u ++ ['"'])) := .of_atom (.string hu)
  have hcontent : IsContent ('"' :: (u ++ ['"'])) := .string hu .nil
  constructor
  · rw [hquote]
    exact .atom (.string hs) ((body _).append fun b => hstring.body b none)
  · have hrest := IsContent.string hs (content.append hcontent)
    rw [hquote, List.cons_append, List.append_assoc]
    exact hrest

theorem harmless_of_quoted {doc : Text} (h : Quoted doc) : Harmless doc where
  body := (Atoms.of_atom (.string h)).body none none
  content := .string h .nil

theorem stringTail_append {s : Text} (hs : Quoted s) (t : Text) :
    (Lexeme.stringTail (s ++ t)).2 = (Lexeme.stringTail t).2 := by
  induction hs with
  | nil => rfl
  | @plain c s hq hb _ ih =>
    have hesc : ∀ (d : Char) (u : Text), c = '\\' → s ++ t = d :: u → False :=
      fun _ _ he _ => hb he
    rw [List.cons_append, Lexeme.stringTail.eq_4 _ _ hesc fun he => hq he]
    exact ih
  | escape _ ih => exact ih

theorem stringTail_of_not_mem {t : Text} (h : '"' ∉ t) : (Lexeme.stringTail t).2 = [] := by
  fun_induction Lexeme.stringTail t with
  | case1 => rfl
  | case2 c r ih => exact ih fun hr => h (by simp [hr])
  | case3 r => exact absurd (by simp) h
  | case4 c r _ _ ih => exact ih fun hr => h (by simp [hr])

theorem quoted_or_dangling {doc : Text} (h : '"' ∉ doc) :
    Quoted doc ∨ ∃ s, Quoted s ∧ doc = s ++ ['\\'] := by
  fun_induction Lexeme.stringTail doc with
  | case1 => exact .inl .nil
  | case2 c r ih =>
    rcases ih fun hr => h (by simp [hr]) with hs | ⟨s, hs, rfl⟩
    · exact .inl (.escape hs)
    · exact .inr ⟨'\\' :: c :: s, .escape hs, rfl⟩
  | case3 r => exact absurd (by simp) h
  | case4 c r hesc hquote ih =>
    by_cases hc : c = '\\'
    · cases r with
      | nil => exact .inr ⟨[], .nil, by rw [hc]; rfl⟩
      | cons d r => exact absurd rfl (hesc d r hc)
    · rcases ih fun hr => h (by simp [hr]) with hs | ⟨s, hs, rfl⟩
      · exact .inl (.plain hquote hc hs)
      · exact .inr ⟨c :: s, .plain hquote hc hs, rfl⟩

theorem quoted_of_getLast? {body : Text} (hbody : '"' ∉ body) (hlast : body.getLast? ≠ some '\\') :
    Quoted body := by
  rcases quoted_or_dangling hbody with h | ⟨s, -, rfl⟩
  · exact h
  · exact absurd List.getLast?_concat hlast

theorem quoted_append {s t : Text} (hs : Quoted s) (ht : Quoted t) : Quoted (s ++ t) := by
  induction hs with
  | nil => exact ht
  | plain hq hb _ ih => exact .plain hq hb ih
  | escape _ ih => exact .escape ih

theorem not_quoted_dangling {s : Text} (hs : Quoted s) : ¬ Quoted (s ++ ['\\']) := by
  intro h
  have hshort := stringTail_append hs ['\\', '"', ' ']
  have hlong := congrArg Prod.snd (Segment.stringTail_quoted h [' '])
  rw [List.append_assoc, List.singleton_append, hshort] at hlong
  cases hlong

theorem quoted_backslashes (n : Nat) : Quoted (List.replicate (2 * n) '\\') := by
  induction n with
  | zero => exact .nil
  | succ n ih => exact .escape ih

theorem exists_backslashes (doc : Text) :
    ∃ body, body ++ List.replicate (backslashes doc) '\\' = doc ∧ body.getLast? ≠ some '\\' := by
  refine ⟨(doc.reverse.dropWhile (· == '\\')).reverse, ?_, ?_⟩
  · have hrun : doc.reverse.takeWhile (· == '\\') = List.replicate (backslashes doc) '\\' := by
      refine List.eq_replicate_iff.2 ⟨rfl, fun c hc => ?_⟩
      simpa using List.all_eq_true.1 List.all_takeWhile c hc
    calc (doc.reverse.dropWhile (· == '\\')).reverse ++ List.replicate (backslashes doc) '\\'
        = (doc.reverse.takeWhile (· == '\\') ++ doc.reverse.dropWhile (· == '\\')).reverse := by
          rw [List.reverse_append, hrun, List.reverse_replicate]
      _ = doc := by rw [List.takeWhile_append_dropWhile, List.reverse_reverse]
  · intro hlast
    rw [List.getLast?_reverse] at hlast
    have hhead := List.head?_dropWhile_not (· == '\\') doc.reverse
    rw [hlast] at hhead
    simp at hhead

/-- Without quotes, the inside of a string is closed exactly if the backslashes at its end come in
pairs. -/
theorem quoted_iff_even {doc : Text} (hfree : '"' ∉ doc) :
    Quoted doc ↔ Even (backslashes doc) := by
  obtain ⟨body, hdoc, hlast⟩ := exists_backslashes doc
  generalize backslashes doc = k at hdoc ⊢
  subst hdoc
  have hquoted := quoted_of_getLast? (fun hmem => hfree (by simp [hmem])) hlast
  obtain ⟨n, rfl | rfl⟩ := Nat.even_or_odd' k
  · exact ⟨fun _ => even_two_mul n, fun _ => quoted_append hquoted (quoted_backslashes n)⟩
  · have hpaired := quoted_append hquoted (quoted_backslashes n)
    rw [List.replicate_succ', ← List.append_assoc]
    refine ⟨fun h => absurd h (not_quoted_dangling hpaired), fun h => ?_⟩
    exact absurd h (Nat.not_even_two_mul_add_one n)

theorem ofSegment?_of_dangling {s name : Text} (hs : Quoted s) (hfree : '"' ∉ s)
    (hname : IsIdentifier name) : Name.ofSegment? (text ⟨s ++ ['\\'], name⟩) = none := by
  have hcontent : content (s ++ ['\\']) = opening ++ quote (s ++ ['\\']) := by
    rw [content, fence, signs_eq_zero (by simpa using hfree), List.replicate_zero, List.nil_append,
      List.append_nil]
  have hopen : (Lexeme.stringTail (s ++ ['\\'] ++ ['"'] ++ ([']'] ++ ' ' :: name))).2 = [] := by
    have hquote : '"' ∉ ']' :: ' ' :: name := by
      simp only [List.mem_cons, not_or]
      exact ⟨by decide, by decide, fun hmem => absurd (hname.all _ hmem) (by decide)⟩
    rw [List.append_assoc, List.append_assoc, stringTail_append hs]
    change (Lexeme.stringTail (']' :: ' ' :: name)).2 = []
    exact stringTail_of_not_mem hquote
  have hgroup : Name.afterGroup 0 (content (s ++ ['\\']) ++ ([']'] ++ ' ' :: name)) = [] := by
    rw [hcontent, List.append_assoc, Name.afterGroup_content isContent_opening, quote,
      List.cons_append, Name.afterGroup, hopen, Name.afterGroup_nil]
  have hattribute : Name.afterAttribute? (text ⟨s ++ ['\\'], name⟩) = some [] := by
    rw [text, docAttribute, List.cons_append, List.cons_append, List.append_assoc,
      Name.afterAttribute?, Trivia.skip_of_plain rfl (by decide), Name.afterMark,
      if_neg (by decide)]
    exact congrArg some hgroup
  have hskip : Trivia.skip (text ⟨s ++ ['\\'], name⟩) = text ⟨s ++ ['\\'], name⟩ :=
    Trivia.skip_of_plain rfl (by decide)
  rw [Name.ofSegment?, Name.read?, Name.afterAttributes_of_some (by rw [hskip, hattribute]),
    Name.afterAttributes_nil]
  rfl

theorem ofSegment?_text_iff_quoted {m : Documented} (hfree : '"' ∉ m.doc)
    (hname : IsIdentifier m.name) : Name.ofSegment? m.text = some m.name ↔ Quoted m.doc := by
  constructor
  · intro hread
    obtain ⟨doc, name⟩ := m
    rcases quoted_or_dangling hfree with h | ⟨s, hs, rfl⟩
    · exact h
    · rw [ofSegment?_of_dangling hs (fun hmem => hfree (by simp [hmem])) hname] at hread
      cases hread
  · exact fun h => ofSegment?_text (harmless_of_quoted h) hname .nil

theorem isIdentifier_singleton {c : Char} (h : Name.isWordStart c = true) : IsIdentifier [c] := by
  refine ⟨⟨c, [], rfl, h⟩, fun d hd => ?_⟩
  rw [List.mem_singleton.1 hd]
  exact Name.isWordChar_of_start h

/-- Documentation without quotes is harmless exactly if the backslashes at its end come in pairs. -/
theorem harmless_iff_even {doc : Text} (hfree : '"' ∉ doc) :
    Harmless doc ↔ Even (backslashes doc) := by
  rw [← quoted_iff_even hfree]
  refine ⟨fun h => ?_, harmless_of_quoted⟩
  have hname : IsIdentifier ['A'] := isIdentifier_singleton (by decide)
  exact (ofSegment?_text_iff_quoted (m := ⟨doc, ['A']⟩) hfree hname).1
    (ofSegment?_text h hname .nil)

/-- Harmless documentation disturbs neither the segments of a declaration nor its table. A member
whose documentation has no quotes declares its name exactly if the documentation is harmless, and
that is if it ends with an even number of backslashes. -/
theorem declaration_read {ms : List Documented} (hne : ms ≠ [])
    (hnames : ∀ m ∈ ms, IsIdentifier m.name) :
    ((∀ m ∈ ms, Harmless m.doc) →
      (Segment.segments (declaration ms)).map (fun s => Name.ofSegment? s.text) =
          ms.map (fun m => some m.name) ∧
        ∀ (α : Type) (values : List α), values.length = ms.length →
          ∃ t, Table.ofText (declaration ms) values = .ok t ∧ t.names = ms.map name) ∧
    ∀ m ∈ ms, '"' ∉ m.doc →
      (Harmless m.doc ↔ Even (backslashes m.doc)) ∧
      (Name.ofSegment? m.text = some m.name ↔ Harmless m.doc) := by
  constructor
  · intro hharmless
    have h : ∀ m ∈ ms, Harmless m.doc ∧ IsIdentifier m.name :=
      fun m hm => ⟨hharmless m hm, hnames m hm⟩
    refine ⟨?_, fun α values hlen => exists_table hne h hlen⟩
    have hread := map_ofSegment?_bodies hne h
    rw [← Segment.map_text_segments, List.map_map, List.map_map] at hread
    exact hread
  · intro m hm hfree
    have heven := harmless_iff_even hfree
    refine ⟨heven, ?_⟩
    rw [heven, ← quoted_iff_even hfree]
    exact ofSegment?_text_iff_quoted hfree (hnames m hm)

/-- Documentation with a comma between quotes and an open bracket behind them, and documentation
that ends with a pair of backslashes. -/
theorem declaration_read_quotation :
    let ms : List Documented :=
      [⟨"Say ".toList ++ '"' :: ("a,b".toList ++ '"' :: " [(".toList), ['A']⟩,
        ⟨"C:\\\\".toList, ['B']⟩]
    (∀ m ∈ ms, Harmless m.doc ∧ IsIdentifier m.name) ∧
      declaration ms = "#[doc = r#\"Say \"a,b\" [(\"#] A, #[doc = r\"C:\\\\\"] B".toList ∧
      (Segment.segments (declaration ms)).map (fun s => Name.ofSegment? s.text) =
        [some ['A'], some ['B']] := by
  intro ms
  have hfirst : Harmless ("Say ".toList ++ '"' :: ("a,b".toList ++ '"' :: " [(".toList)) := by
    refine harmless_quotation (quoted_of_getLast? (by decide) (by decide)) (fun b => ?_)
      (.of_plain (Text.forall_of_all (by decide))) (quoted_of_getLast? (by decide) (by decide))
    exact .atom (a := ['a']) (.plain (by decide))
      (.comma (.atom (a := ['b']) (.plain (by decide)) .nil))
  have hnames : ∀ m ∈ ms, IsIdentifier m.name := by
    simp only [ms, List.mem_cons, List.not_mem_nil, or_false]
    rintro m (rfl | rfl) <;> exact isIdentifier_singleton (by decide)
  obtain ⟨hread, heven⟩ := declaration_read (by simp [ms]) hnames
  have hpair : (⟨"C:\\\\".toList, ['B']⟩ : Documented) ∈ ms := List.mem_cons_of_mem _ (by simp)
  have hsecond : Harmless "C:\\\\".toList := (heven _ hpair (by decide)).1.2 (by decide)
  have hall : ∀ m ∈ ms, Harmless m.doc := by
    simp only [ms, List.mem_cons, List.not_mem_nil, or_false]
    rintro m (rfl | rfl)
    · exact hfirst
    · exact hsecond
  exact ⟨fun m hm => ⟨hall m hm, hnames m hm⟩, by decide +kernel, (hread hall).1⟩

/-- A backslash at the end of documentation hides the member behind it and all that follow, and a
comma in documentation can separate. -/
theorem declaration_read_disturbed :
    let hidden : List Documented := [⟨['\\'], ['A']⟩, ⟨['b'], ['B']⟩]
    let cut : List Documented := [⟨"a \"], [\"b".toList, ['A']⟩]
    (∀ m ∈ hidden ++ cut, (∀ c ∈ m.doc, Trivia.endsLine c = false) ∧ IsIdentifier m.name) ∧
      declaration hidden = "#[doc = r\"\\\"] A, #[doc = r\"b\"] B".toList ∧
      (Segment.segments (declaration hidden)).map (fun s => Name.ofSegment? s.text) = [none] ∧
      Table.ofText (declaration hidden) [0, 1] = .error (.nameless 0 (declaration hidden)) ∧
      declaration cut = "#[doc = r#\"a \"], [\"b\"#] A".toList ∧
      (Segment.segments (declaration cut)).map (fun s => Name.ofSegment? s.text) =
        [none, some ['b']] := by
  intro hidden cut
  refine ⟨?_, by decide +kernel, by decide +kernel, by decide +kernel, by decide +kernel,
    by decide +kernel⟩
  simp only [hidden, cut, List.cons_append, List.nil_append, List.mem_cons, List.not_mem_nil,
    or_false]
  rintro m (rfl | rfl | rfl) <;>
    exact ⟨Text.forall_of_all (by decide), isIdentifier_singleton (by decide)⟩

end Documented

end EnumReflection
