import EnumReflection.Proofs.Cut
import Mathlib.Data.List.Basic

/-!
# Segments tile the text

Whatever a declaration holds, its segments stand one after the other with one comma between each
two, from the start of the text to its end, and every offset lies between two characters. Each
segment ends at the comma that is searched for from its start. The search itself may start
anywhere: it stays in the text, stops at a comma or at the end, and stays there.
-/
namespace EnumReflection

theorem intercalate_append_cons {α : Type} (separator : List α) (xs : List (List α)) (y : List α)
    (ys : List (List α)) :
    separator.intercalate (xs ++ y :: ys) =
      xs.flatMap (· ++ separator) ++ (y ++ ys.flatMap (separator ++ ·)) := by
  induction xs with
  | nil =>
    induction ys generalizing y with
    | nil => simp
    | cons z zs ih =>
      rw [List.nil_append, List.intercalate_cons_cons]
      simpa using ih z
  | cons x xs ih =>
    have hne : xs ++ y :: ys ≠ [] := by simp
    rw [List.cons_append, List.intercalate_cons_of_ne_nil hne, ih]
    simp

theorem intercalate_append {α : Type} (separator : List α) {xs ys : List (List α)} (hx : xs ≠ [])
    (hy : ys ≠ []) : separator.intercalate (xs ++ ys) =
      separator.intercalate xs ++ (separator ++ separator.intercalate ys) := by
  induction xs with
  | nil => exact absurd rfl hx
  | cons x xs ih =>
    cases xs with
    | nil =>
      rw [List.singleton_append, List.intercalate_cons_of_ne_nil hy, List.intercalate_singleton,
        List.append_assoc]
    | cons z zs =>
      have hi := ih (by simp)
      rw [List.cons_append, List.cons_append, List.intercalate_cons_cons, ← List.cons_append, hi,
        List.intercalate_cons_cons]
      simp only [List.append_assoc]

namespace Text

theorem exists_seek (before : Option Char) (n : Nat) (t : Text) :
    ∃ s rest, s ++ rest = t ∧ seek before n t = (s.getLast?.or before, rest) ∧
      min n t.byteLength ≤ byteLength s := by
  fun_induction seek before n t with
  | case1 before t => exact ⟨[], t, rfl, rfl, by simp⟩
  | case2 before n => exact ⟨[], [], rfl, rfl, by simp⟩
  | case3 before n c r ih =>
    obtain ⟨s, rest, rfl, hseek, hmin⟩ := ih
    refine ⟨c :: s, rest, rfl, ?_, ?_⟩
    · rw [hseek, List.getLast?_cons]
      cases s.getLast? <;> rfl
    · simp only [byteLength_cons] at hmin ⊢
      omega

theorem seek_byteLength (before : Option Char) (s t : Text) :
    seek before (byteLength s) (s ++ t) = (s.getLast?.or before, t) := by
  induction s generalizing before with
  | nil => simp
  | cons c s ih =>
    have hc := Char.utf8Size_pos c
    obtain ⟨n, hn⟩ : ∃ n, c.utf8Size + byteLength s = n + 1 := ⟨_, (Nat.succ_pred (by omega)).symm⟩
    rw [byteLength_cons, hn, List.cons_append, seek, show n + 1 - c.utf8Size = byteLength s by omega,
      ih, List.getLast?_cons]
    cases s.getLast? <;> rfl

end Text

namespace Segment

theorem cut_after_comma (nesting : Int) (t : Text) :
    cut (some (.plain ',')) nesting t = cut none nesting t := by
  cases t with
  | nil => simp [cut]
  | cons c r =>
    rw [cut, cut]
    simp only [turn_after_comma]

theorem cut_comma (before : Option Lexeme) (r : Text) : cut before 0 (',' :: r) = ([], ',' :: r) := by
  rw [cut, next_comma]
  simp

theorem commaFrom_append (s rest : Text) :
    commaFrom (s ++ rest) s.byteLength =
      (s ++ (cut (s.getLast?.map .plain) 0 rest).1).byteLength := by
  rw [commaFrom, Text.seek_byteLength, Option.or_none]
  simp only [Text.byteLength_append]
  omega

theorem exists_commaFrom (t : Text) (start : Nat) :
    ∃ s rest, s ++ rest = t ∧ commaFrom t start = s.byteLength ∧
      min start t.byteLength ≤ s.byteLength ∧ (rest = [] ∨ ∃ r, rest = ',' :: r) := by
  obtain ⟨s, rest, rfl, hseek, hmin⟩ := Text.exists_seek none start t
  have happ := cut_append (s.getLast?.map .plain) 0 rest
  refine ⟨s ++ (cut (s.getLast?.map .plain) 0 rest).1, (cut (s.getLast?.map .plain) 0 rest).2,
    ?_, ?_, ?_, cut_snd _ _ _⟩
  · rw [List.append_assoc, happ]
  · rw [commaFrom, hseek, Option.or_none]
    simp only [Text.byteLength_append]
    omega
  · simp only [Text.byteLength_append] at hmin ⊢
    omega

theorem commaFrom_of_stop {s rest : Text} (h : rest = [] ∨ ∃ r, rest = ',' :: r) :
    commaFrom (s ++ rest) s.byteLength = s.byteLength := by
  rw [commaFrom_append]
  rcases h with rfl | ⟨r, rfl⟩
  · simp [cut]
  · simp [cut_comma]

theorem exists_of_getElem?_place {start i : Nat} {ts : List Text} {s : Segment}
    (h : (place start ts)[i]? = some s) :
    ∃ xs ys, ts = xs ++ s.text :: ys ∧ xs.length = i ∧
      s.start = start + Text.byteLength (xs.flatMap (· ++ [','])) ∧
      s.stop = s.start + s.text.byteLength := by
  induction ts generalizing start i with
  | nil => simp [place] at h
  | cons t ts ih =>
    cases i with
    | zero =>
      have hs : (⟨start, start + t.byteLength, t⟩ : Segment) = s := by simpa [place] using h
      subst hs
      exact ⟨[], ts, rfl, rfl, by simp, rfl⟩
    | succ i =>
      rw [place, List.getElem?_cons_succ] at h
      obtain ⟨xs, ys, rfl, hlen, hstart, hstop⟩ := ih h
      refine ⟨t :: xs, ys, rfl, by simp [hlen], ?_, hstop⟩
      have hcomma : Text.byteLength [','] = 1 := rfl
      rw [hstart, List.flatMap_cons, Text.byteLength_append, Text.byteLength_append, hcomma]
      omega

theorem exists_of_getElem?_segments {t : Text} {i : Nat} {s : Segment}
    (h : (segments t)[i]? = some s) :
    ∃ xs ys, bodies t = xs ++ s.text :: ys ∧ xs.length = i ∧
      t = xs.flatMap (· ++ [',']) ++ (s.text ++ ys.flatMap ([','] ++ ·)) ∧
      s.start = Text.byteLength (xs.flatMap (· ++ [','])) ∧
      s.stop = Text.byteLength (xs.flatMap (· ++ [',']) ++ s.text) := by
  obtain ⟨xs, ys, hbodies, hlen, hstart, hstop⟩ := exists_of_getElem?_place h
  rw [Nat.zero_add] at hstart
  refine ⟨xs, ys, hbodies, hlen, ?_, hstart, by rw [hstop, hstart, Text.byteLength_append]⟩
  have hjoin := join_bodies t
  rw [hbodies, Text.join, intercalate_append_cons] at hjoin
  exact hjoin.symm

theorem exists_of_bodies_eq_append {t : Text} {xs ys : List Text} (h : bodies t = xs ++ ys)
    (hne : ys ≠ []) : ∃ r, t = xs.flatMap (· ++ [',']) ++ r ∧ bodies r = ys := by
  induction xs generalizing t with
  | nil => exact ⟨t, rfl, h⟩
  | cons x xs ih =>
    have happ := cut_append none 0 t
    rw [bodies_eq_cut, List.cons_append] at h
    obtain ⟨hx, hfollow⟩ := List.cons.inj h
    rcases cut_snd none 0 t with hsnd | ⟨r, hsnd⟩
    · rw [hsnd, following] at hfollow
      have hnil : xs ++ ys = [] := hfollow.symm
      exact absurd (List.append_eq_nil_iff.1 hnil).2 hne
    · rw [hsnd, following] at hfollow
      obtain ⟨r', rfl, hr'⟩ := ih hfollow
      refine ⟨r', ?_, hr'⟩
      rw [← happ, hsnd, hx]
      simp

theorem commaFrom_start {t : Text} {i : Nat} {s : Segment} (h : (segments t)[i]? = some s) :
    commaFrom t s.start = s.stop := by
  obtain ⟨xs, ys, hbodies, -, -, hstart, hstop⟩ := exists_of_getElem?_segments h
  obtain ⟨r, ht, hr⟩ := exists_of_bodies_eq_append hbodies (by simp)
  have hcut : (cut ((xs.flatMap (· ++ [','])).getLast?.map .plain) 0 r).1 = s.text := by
    rw [bodies_eq_cut] at hr
    rcases List.eq_nil_or_concat xs with rfl | ⟨zs, z, rfl⟩
    · exact (List.cons.inj hr).1
    · have hlast : ((zs.concat z).flatMap (· ++ [','])).getLast? = some ',' := by simp
      rw [hlast, Option.map_some, cut_after_comma]
      exact (List.cons.inj hr).1
  rw [hstart, hstop]
  conv_lhs => rw [ht]
  rw [commaFrom_append, hcut]

/-- Segments that stand one after the other in a text, with a comma between each two. -/
structure Tiles (t : Text) (ss : List Segment) : Prop where
  first : ss.head?.map start = some 0
  last : ss.getLast?.map stop = some t.byteLength
  next : ∀ (i : Nat) (s s' : Segment), ss[i]? = some s → ss[i + 1]? = some s' →
    s'.start = s.stop + 1 ∧ ∃ r, t.drop? s.stop = some (',' :: r)
  between : ∀ s ∈ ss, ∃ before after, t = before ++ s.text ++ after ∧
    s.start = before.byteLength ∧ s.stop = (before ++ s.text).byteLength
  found : ∀ s ∈ ss, s.stop = commaFrom t s.start
  joined : Text.join [','] (ss.map text) = t

theorem next_of_getElem? {t : Text} {i : Nat} {s s' : Segment} (hs : (segments t)[i]? = some s)
    (hs' : (segments t)[i + 1]? = some s') :
    s'.start = s.stop + 1 ∧ ∃ r, t.drop? s.stop = some (',' :: r) := by
  obtain ⟨xs, ys, hbodies, hlen, ht, -, hstop⟩ := exists_of_getElem?_segments hs
  obtain ⟨xs', ys', hbodies', hlen', -, hstart', -⟩ := exists_of_getElem?_segments hs'
  have hsplit : xs ++ [s.text] ++ ys = xs' ++ s'.text :: ys' := by
    rw [← hbodies', hbodies, List.append_assoc]
    rfl
  obtain ⟨rfl, rfl⟩ := List.append_inj hsplit (by simp [hlen, hlen'])
  constructor
  · have happ : (xs ++ [s.text]).flatMap (· ++ [',']) = xs.flatMap (· ++ [',']) ++ s.text ++ [','] := by
      simp
    rw [hstart', hstop, happ, Text.byteLength_append _ [',']]
    rfl
  · rw [ht, hstop, ← List.append_assoc, Text.drop?_byteLength_append]
    exact ⟨_, rfl⟩

theorem stop_of_getLast? {t : Text} {s : Segment} (h : (segments t).getLast? = some s) :
    s.stop = t.byteLength := by
  rw [List.getLast?_eq_getElem?] at h
  obtain ⟨xs, ys, hbodies, hlen, ht, -, hstop⟩ := exists_of_getElem?_segments h
  have hnil : ys = [] := by
    rw [length_segments, hbodies, List.length_append, List.length_cons] at hlen
    apply List.eq_nil_of_length_eq_zero
    omega
  rw [hnil, List.flatMap_nil, List.append_nil] at ht
  rw [hstop, ← ht]

theorem tiles_segments (t : Text) : Tiles t (segments t) where
  first := by
    obtain ⟨b, bs, hb⟩ := List.exists_cons_of_ne_nil (bodies_ne_nil t)
    simp [segments, hb, place]
  last := by
    have hne : segments t ≠ [] := by
      rw [← List.length_pos_iff, length_segments, List.length_pos_iff]
      exact bodies_ne_nil t
    have hlast := List.getLast?_eq_some_getLast hne
    rw [hlast, Option.map_some, stop_of_getLast? hlast]
  next := fun _ _ _ hs hs' => next_of_getElem? hs hs'
  between := by
    intro s hs
    obtain ⟨i, hi⟩ := List.getElem?_of_mem hs
    obtain ⟨xs, ys, -, -, ht, hstart, hstop⟩ := exists_of_getElem?_segments hi
    exact ⟨_, _, by rw [List.append_assoc]; exact ht, hstart, hstop⟩
  found := by
    intro s hs
    obtain ⟨i, hi⟩ := List.getElem?_of_mem hs
    exact (commaFrom_start hi).symm
  joined := by rw [map_text_segments, join_bodies]

/-- Splitting loses nothing and repeats nothing on any text, and the search for a comma makes
progress from every offset. -/
theorem segments_tile (t : Text) :
    Tiles t (segments t) ∧ ∀ start,
      min start t.byteLength ≤ commaFrom t start ∧ commaFrom t start ≤ t.byteLength ∧
      (commaFrom t start = t.byteLength ∨ ∃ r, t.drop? (commaFrom t start) = some (',' :: r)) ∧
      commaFrom t (commaFrom t start) = commaFrom t start := by
  refine ⟨tiles_segments t, ?_⟩
  intro start
  obtain ⟨s, rest, rfl, hfrom, hmin, hrest⟩ := exists_commaFrom t start
  rw [hfrom]
  refine ⟨hmin, by simp, ?_, commaFrom_of_stop hrest⟩
  rcases hrest with rfl | ⟨r, rfl⟩
  · exact Or.inl (by simp)
  · exact Or.inr ⟨r, Text.drop?_byteLength_append s _⟩

end Segment

end EnumReflection
