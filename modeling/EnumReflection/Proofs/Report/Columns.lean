import EnumReflection.Proofs.Json.Writing
import EnumReflection.Report.Reading
import Mathlib.Data.List.Forall2

/-!
# Lines and columns

Lines that hold no line feed are read back from the text that ends each of them, and words without
spaces from the columns that spaces fill. A number takes at most the width of a larger one.
-/
namespace EnumReflection

theorem mapM_map_eq_some {α β γ : Type} {read : β → Option γ} {f : α → β} {g : α → γ} {l : List α}
    (h : ∀ a ∈ l, read (f a) = some (g a)) : (l.map f).mapM read = some (l.map g) := by
  induction l with
  | nil => rfl
  | cons a l ih =>
    have hl := ih fun b hb => h b (List.mem_cons_of_mem a hb)
    simp [h a (by simp), hl]

theorem mapM_map_eq_self {α β : Type} {read : β → Option α} {f : α → β} {l : List α}
    (h : ∀ a ∈ l, read (f a) = some a) : (l.map f).mapM read = some l := by
  rw [mapM_map_eq_some (g := id) h, List.map_id]

namespace Name

theorem isIdentifier_of_ofSegment? {segment name : Text} (h : ofSegment? segment = some name) :
    IsIdentifier name := by
  obtain ⟨⟨name, tail⟩, hread, rfl⟩ := Option.map_eq_some_iff.1 h
  exact (read?_eq_some hread).1

theorem IsIdentifier.not_mem {name : Text} (h : IsIdentifier name) {c : Char}
    (hc : isWordChar c = false) : c ∉ name := by
  intro hmem
  rw [h.all c hmem] at hc
  cases hc

theorem IsIdentifier.ne_nil {name : Text} (h : IsIdentifier name) : name ≠ [] := by
  obtain ⟨c, r, hname, -⟩ := h.start
  rw [hname]
  exact List.cons_ne_nil c r

end Name

namespace Text

theorem length_decimal_mono {m n : Nat} (h : m ≤ n) : (decimal m).length ≤ (decimal n).length := by
  have hpos : 0 < (decimal n).length := List.length_pos_iff.2 (decimal_ne_nil n)
  have hlt : n < 10 ^ (decimal n).length :=
    (Nat.length_toDigits_le_iff (by decide) hpos).1 (Nat.le_refl _)
  exact (Nat.length_toDigits_le_iff (by decide) hpos).2 (Nat.lt_of_le_of_lt h hlt)

theorem not_mem_of_isDigit {t : Text} (h : ∀ c ∈ t, c.isDigit = true) {d : Char}
    (hd : d.isDigit = false) : d ∉ t := by
  intro hmem
  rw [h d hmem] at hd
  cases hd

theorem not_mem_decimal {d : Char} (hd : d.isDigit = false) (n : Nat) : d ∉ decimal n :=
  not_mem_of_isDigit (fun _ hc => isDigit_of_mem_decimal hc) hd

theorem not_mem_signedDecimal {d : Char} (hd : d.isDigit = false) (hminus : d ≠ '-') (v : Int) :
    d ∉ signedDecimal v := by
  cases v with
  | ofNat n => exact not_mem_decimal hd n
  | negSucc n =>
    rw [signedDecimal, List.mem_cons, not_or]
    exact ⟨hminus, not_mem_decimal hd (n + 1)⟩

theorem signedDecimal_ne_nil (v : Int) : signedDecimal v ≠ [] := by
  cases v with
  | ofNat n => exact decimal_ne_nil n
  | negSucc n => simp [signedDecimal]

theorem not_mem_padLeft {d : Char} (hd : d ≠ ' ') {t : Text} (ht : d ∉ t) (width : Nat) :
    d ∉ padLeft width t := by
  simp [padLeft, List.mem_replicate, hd, ht]

theorem not_mem_padRight {d : Char} (hd : d ≠ ' ') {t : Text} (ht : d ∉ t) (width : Nat) :
    d ∉ padRight width t := by
  simp [padRight, List.mem_replicate, hd, ht]

theorem length_padLeft_of_le {width : Nat} {t : Text} (h : t.length ≤ width) :
    (padLeft width t).length = width := by
  rw [length_padLeft, Nat.max_eq_left h]

theorem length_padRight_of_le {width : Nat} {t : Text} (h : t.length ≤ width) :
    (padRight width t).length = width := by
  rw [length_padRight, Nat.max_eq_left h]

end Text

namespace Report

theorem unlines_eq_intercalate (ls : List Text) : unlines ls = ['\n'].intercalate (ls ++ [[]]) := by
  induction ls with
  | nil => rfl
  | cons l ls ih =>
    have hne : ls ++ [[]] ≠ [] := by simp
    rw [List.cons_append, List.intercalate_cons_of_ne_nil hne, ← ih]
    simp [unlines]

theorem lines_unlines {ls : List Text} (h : ∀ l ∈ ls, '\n' ∉ l) : lines (unlines ls) = ls := by
  have hall : ∀ l ∈ ls ++ [[]], '\n' ∉ l := by
    intro l hl
    rcases List.mem_append.1 hl with hl | hl
    · exact h l hl
    · rw [List.mem_singleton.1 hl]
      exact List.not_mem_nil
  rw [lines, unlines_eq_intercalate, List.splitOn_intercalate '\n' hall (by simp),
    List.getLast?_concat, if_pos rfl, List.dropLast_concat]

theorem words_space (t : Text) : words (' ' :: t) = words t := by
  have hsplit := List.splitOn_append_cons_self_of_not_mem (List.not_mem_nil (a := ' ')) t
  rw [List.nil_append] at hsplit
  simp [words, hsplit]

theorem words_spaces (n : Nat) (t : Text) : words (List.replicate n ' ' ++ t) = words t := by
  induction n with
  | zero => rfl
  | succ n ih => rw [List.replicate_succ, List.cons_append, words_space, ih]

theorem words_cons {w : Text} (hne : w ≠ []) (hw : ' ' ∉ w) (t : Text) :
    words (w ++ ' ' :: t) = w :: words t := by
  rw [words, List.splitOn_append_cons_self_of_not_mem hw, List.filter_cons_of_pos (by simp [hne])]
  rfl

theorem words_singleton {w : Text} (hne : w ≠ []) (hw : ' ' ∉ w) : words w = [w] := by
  rw [words, List.splitOn_eq_singleton hw, List.filter_cons_of_pos (by simp [hne]), List.filter_nil]

theorem words_padLeft (width : Nat) (w t : Text) :
    words (Text.padLeft width w ++ t) = words (w ++ t) := by
  rw [Text.padLeft, List.append_assoc, words_spaces]

theorem isDocument_unlines (v : Json) : Json.IsDocument (unlines [Json.pretty v]) v := by
  have hend : Json.Blank ['\n'] := by
    intro c hc
    rw [List.mem_singleton.1 hc]
    rfl
  have h := Json.IsDocument.mk Json.blank_nil (Json.denotes_write Json.blanks_pretty 0 v) hend
  simpa [unlines, Json.pretty] using h

end Report

end EnumReflection
