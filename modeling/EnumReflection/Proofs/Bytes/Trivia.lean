import EnumReflection.Bytes.Scan
import EnumReflection.Proofs.Bytes.Basic

/-!
# Trivia and literals over bytes

The scanners for trivia, strings and character literals end at the places that the readers of
characters lead to. No check fails on the way, whatever the text is.
-/
namespace EnumReflection.Bytes

theorem isAsciiClass_isSpace : IsAsciiClass Trivia.isSpace := by
  apply isAsciiClass_of_imp
  intro c hc
  simp only [Trivia.isSpace, Bool.or_eq_true, beq_iff_eq] at hc
  rcases hc with (((rfl | rfl) | rfl) | rfl) | rfl <;> decide

theorem isAsciiClass_endsLine : IsAsciiClass Trivia.endsLine := by
  apply isAsciiClass_of_imp
  intro c hc
  simp only [Trivia.endsLine, Bool.or_eq_true, beq_iff_eq] at hc
  rcases hc with rfl | rfl <;> decide

theorem skipWhile_of_byteAt {p : Char → Bool} {t : Text} {pos : Nat} {b : UInt8}
    (h : byteAt t pos = .ok b) :
    skipWhile p t pos = if p (character b) then skipWhile p t (pos + 1) else .ok pos := by
  rw [skipWhile, if_pos (lt_of_byteAt h), h]
  rfl

theorem skipWhile_at {p : Char → Bool} (hp : IsAsciiClass p) {t u : Text} {pos : Nat}
    (h : At t pos u) : Reaches t (skipWhile p t pos) (u.dropWhile p) := by
  induction u generalizing pos with
  | nil =>
    rw [skipWhile, if_neg (by rw [h.eq_end]; exact Nat.lt_irrefl _)]
    exact reaches_ok h
  | cons c r ih =>
    obtain ⟨b, hb, hleads⟩ := h.exists_byteAt
    rw [skipWhile_of_byteAt hb, hleads.class_eq hp, List.dropWhile_cons]
    by_cases hc : p c = true
    · have hpass : skipWhile p t (pos + 1) = skipWhile p t (pos + c.utf8Size) := by
        apply h.pass
        intro hascii i ⟨b', hb', hlarge⟩
        rw [skipWhile_of_byteAt hb', hp _ _ (not_isAscii_character hlarge) hascii, if_pos hc]
      rw [if_pos hc, if_pos hc, hpass]
      exact ih h.cons
    · rw [if_neg hc, if_neg hc]
      exact reaches_ok h

theorem blockEnd_step {t : Text} {pos : Nat}
    (h : byte? t pos = some '*'.toUInt8 → byte? t (pos + 1) ≠ some '/'.toUInt8) :
    blockEnd t pos = blockEnd t (pos + 1) := by
  rw [blockEnd]
  split
  · rename_i hlt
    obtain ⟨b, hb⟩ := exists_byteAt (Nat.lt_of_succ_lt hlt)
    obtain ⟨b', hb'⟩ := exists_byteAt hlt
    rw [hb, hb', ok_bind, map_ok]
    by_cases hstar : b = '*'.toUInt8
    · have hslash : (b' == '/'.toUInt8) = false := by
        rw [beq_eq_false_iff_ne]
        rintro rfl
        exact h (hstar ▸ byteAt_eq_ok.1 hb) (byteAt_eq_ok.1 hb')
      rw [if_pos hstar, ok_bind, hslash]
      rfl
    · rw [if_neg hstar]
      rfl
  · rw [blockEnd, if_neg (by omega)]

theorem blockEnd_of_large {t : Text} {pos : Nat} (h : Large t pos) :
    blockEnd t pos = blockEnd t (pos + 1) := by
  obtain ⟨b, hb, hlarge⟩ := h
  apply blockEnd_step
  intro hstar
  rw [byteAt_eq_ok.1 hb, Option.some_inj] at hstar
  exact absurd hstar (ne_of_large hlarge (by decide))

theorem blockEnd_at {t u : Text} {pos : Nat} (h : At t pos u) :
    Reaches t (blockEnd t pos) (Trivia.block u).2 := by
  fun_induction Trivia.block u generalizing pos with
  | case1 =>
    rw [blockEnd, if_neg (by rw [h.eq_end]; omega)]
    exact reaches_ok (at_end t)
  | case2 r =>
    have hslash := h.cons_ascii (by decide)
    have hb := byteAt_of_byte? ((h.byte?_eq_iff (d := '*') (by decide)).2 rfl)
    have hb' := byteAt_of_byte? ((hslash.byte?_eq_iff (d := '/') (by decide)).2 rfl)
    rw [blockEnd, if_pos hslash.lt, hb, hb']
    exact reaches_ok (hslash.cons_ascii (by decide))
  | case3 c r hne ih =>
    have hpass : blockEnd t (pos + 1) = blockEnd t (pos + c.utf8Size) :=
      h.pass fun _ _ => blockEnd_of_large
    rw [blockEnd_step, hpass]
    · exact ih h.cons
    · intro hstar hslash
      obtain rfl : c = '*' := by simpa using (h.byte?_eq_iff (by decide)).1 hstar
      have hhead := ((h.cons_ascii (by decide)).byte?_eq_iff (by decide)).1 hslash
      obtain ⟨s, rfl⟩ := List.head?_eq_some_iff.1 hhead
      exact hne s rfl rfl

theorem commentEnd?_at {t u : Text} {pos : Nat} (h : At t pos u) :
    Finds t (commentEnd? t pos) ((Trivia.comment? u).map (·.2)) := by
  unfold commentEnd?
  by_cases hslash : u.head? = some '/'
  · obtain ⟨v, rfl⟩ := List.head?_eq_some_iff.1 hslash
    have hnext := h.cons_ascii (by decide)
    rw [if_neg (not_not_intro ((h.byte?_eq_iff (by decide)).2 rfl))]
    by_cases hline : v.head? = some '/'
    · obtain ⟨r, rfl⟩ := List.head?_eq_some_iff.1 hline
      obtain ⟨stop, hstop, hat⟩ :=
        skipWhile_at isAsciiClass_endsLine.not (hnext.cons_ascii (by decide))
      rw [if_pos ((hnext.byte?_eq_iff (by decide)).2 rfl), hstop]
      exact ⟨stop, rfl, hat⟩
    rw [if_neg fun hb => hline ((hnext.byte?_eq_iff (by decide)).1 hb)]
    by_cases hblock : v.head? = some '*'
    · obtain ⟨r, rfl⟩ := List.head?_eq_some_iff.1 hblock
      obtain ⟨stop, hstop, hat⟩ := blockEnd_at (hnext.cons_ascii (by decide))
      rw [if_pos ((hnext.byte?_eq_iff (by decide)).2 rfl), hstop]
      exact ⟨stop, rfl, hat⟩
    rw [if_neg fun hb => hblock ((hnext.byte?_eq_iff (by decide)).1 hb),
      Trivia.comment?_eq_none fun _ => ⟨hline, hblock⟩]
    rfl
  · rw [if_pos fun hb => hslash ((h.byte?_eq_iff (by decide)).1 hb)]
    cases u with
    | nil => rfl
    | cons c r =>
      rw [Trivia.comment?_eq_none fun hc => absurd (by rw [hc]; rfl) hslash]
      rfl

theorem triviaEnd_of_byteAt {t : Text} {pos : Nat} {b : UInt8} (h : byteAt t pos = .ok b) :
    triviaEnd t pos =
      if Trivia.isSpace (character b) then triviaEnd t (pos + 1)
      else commentEnd? t pos >>= fun
        | some stop => if pos < stop then triviaEnd t stop else .error .endless
        | none => .ok pos := by
  rw [triviaEnd, dif_pos (lt_of_byteAt h), h]
  rfl

theorem triviaEnd_at {t u : Text} {pos : Nat} (h : At t pos u) :
    Reaches t (triviaEnd t pos) (Trivia.skip u) := by
  fun_induction Trivia.skip u generalizing pos with
  | case1 =>
    rw [triviaEnd, dif_neg (by rw [h.eq_end]; exact Nat.lt_irrefl _)]
    exact reaches_ok h
  | case2 c r hspace ih =>
    obtain ⟨b, hb, hleads⟩ := h.exists_byteAt
    have hascii : IsAscii c := by
      simp only [Trivia.isSpace, Bool.or_eq_true, beq_iff_eq] at hspace
      rcases hspace with (((rfl | rfl) | rfl) | rfl) | rfl <;> decide
    rw [triviaEnd_of_byteAt hb, hleads.class_eq isAsciiClass_isSpace, if_pos hspace]
    exact ih (h.cons_ascii hascii)
  | case3 c r hspace remark rest hcomment _ ih =>
    obtain ⟨b, hb, hleads⟩ := h.exists_byteAt
    have hfinds := commentEnd?_at h
    rw [hcomment] at hfinds
    obtain ⟨stop, hstop, hat⟩ := hfinds
    have hlt : pos < stop := by
      rw [← Trivia.comment?_append hcomment] at h
      exact h.lt_stop (Trivia.comment?_ne_nil hcomment) hat
    rw [triviaEnd_of_byteAt hb, hleads.class_eq isAsciiClass_isSpace, if_neg hspace, hstop, ok_bind]
    simp only [if_pos hlt]
    exact ih hat
  | case4 c r hspace hcomment =>
    obtain ⟨b, hb, hleads⟩ := h.exists_byteAt
    have hfinds := commentEnd?_at h
    rw [hcomment] at hfinds
    rw [triviaEnd_of_byteAt hb, hleads.class_eq isAsciiClass_isSpace, if_neg hspace, hfinds]
    exact reaches_ok h

theorem isBlank_eq (t : Text) : isBlank t = .ok (Trivia.isBlank t) := by
  obtain ⟨stop, hstop, hat⟩ := triviaEnd_at (at_zero t)
  have hblank : (stop == t.byteLength) = Trivia.isBlank t := by
    rw [Bool.eq_iff_iff, beq_iff_eq, hat.eq_end_iff, Trivia.isBlank, List.isEmpty_iff]
  rw [isBlank, hstop, ok_bind, hblank]
  rfl

theorem closingQuote_of_byteAt {t : Text} {pos : Nat} {b : UInt8} (h : byteAt t pos = .ok b) :
    closingQuote t pos =
      if b = '\\'.toUInt8 then closingQuote t (pos + 2)
      else if b = '"'.toUInt8 then .ok (pos + 1)
      else closingQuote t (pos + 1) := by
  rw [closingQuote, if_pos (lt_of_byteAt h), h]
  rfl

theorem closingQuote_of_le {t : Text} {pos : Nat} (h : t.byteLength ≤ pos) :
    closingQuote t pos = .ok t.byteLength := by
  rw [closingQuote, if_neg (Nat.not_lt.2 h)]
  rfl

theorem closingQuote_of_large {t : Text} {pos : Nat} (h : Large t pos) :
    closingQuote t pos = closingQuote t (pos + 1) := by
  obtain ⟨b, hb, hlarge⟩ := h
  rw [closingQuote_of_byteAt hb, if_neg (ne_of_large hlarge (by decide)),
    if_neg (ne_of_large hlarge (by decide))]

theorem closingQuote_at {t u : Text} {pos : Nat} (h : At t pos u) :
    Reaches t (closingQuote t pos) (Lexeme.stringTail u).2 := by
  fun_induction Lexeme.stringTail u generalizing pos with
  | case1 =>
    rw [closingQuote_of_le (Nat.le_of_eq h.eq_end.symm)]
    exact reaches_ok (at_end t)
  | case2 c r ih =>
    obtain ⟨b, hb, hleads⟩ := h.exists_byteAt
    have hnext := h.cons_ascii (by decide)
    have hpass : closingQuote t (pos + 2) = closingQuote t (pos + 1 + c.utf8Size) :=
      hnext.pass fun _ _ => closingQuote_of_large
    rw [closingQuote_of_byteAt hb, if_pos (hleads.eq (by decide)), hpass]
    exact ih hnext.cons
  | case3 r =>
    obtain ⟨b, hb, hleads⟩ := h.exists_byteAt
    rw [closingQuote_of_byteAt hb, if_neg (hleads.ne (by decide) (by decide)),
      if_pos (hleads.eq (by decide))]
    exact reaches_ok (h.cons_ascii (by decide))
  | case4 c r hescape hquote ih =>
    obtain ⟨b, hb, hleads⟩ := h.exists_byteAt
    rw [closingQuote_of_byteAt hb]
    by_cases hc : c = '\\'
    · subst hc
      obtain rfl : r = [] := by
        cases r with
        | nil => rfl
        | cons d s => exact (hescape d s rfl rfl).elim
      have hend := (h.cons_ascii (by decide)).eq_end
      rw [if_pos (hleads.eq (by decide)), closingQuote_of_le (by omega)]
      exact reaches_ok (at_end t)
    · have hpass : closingQuote t (pos + 1) = closingQuote t (pos + c.utf8Size) :=
        h.pass fun _ _ => closingQuote_of_large
      rw [if_neg (hleads.ne (by decide) hc),
        if_neg (hleads.ne (by decide) hquote), hpass]
      exact ih h.cons

theorem stringEnd_at {t r : Text} {pos : Nat} (h : At t pos ('"' :: r)) :
    Reaches t (stringEnd t pos) (Lexeme.stringTail r).2 :=
  closingQuote_at (h.cons_ascii (by decide))

theorem apostrophe?_of_byteAt {t : Text} {limit pos : Nat} {b : UInt8}
    (h : byteAt t pos = .ok b) (hlt : pos < limit) :
    apostrophe? t limit pos =
      if b = '\''.toUInt8 then .ok (some (pos + 1)) else apostrophe? t limit (pos + 1) := by
  rw [apostrophe?, if_pos hlt, h]
  rfl

theorem apostrophe?_of_le {t : Text} {limit pos : Nat} (h : limit ≤ pos) :
    apostrophe? t limit pos = .ok none := by
  rw [apostrophe?, if_neg (Nat.not_lt.2 h)]
  rfl

theorem apostrophe?_of_large {t : Text} {limit pos : Nat} (h : Large t pos) :
    apostrophe? t limit pos = apostrophe? t limit (pos + 1) := by
  obtain ⟨b, hb, hlarge⟩ := h
  by_cases hlt : pos < limit
  · rw [apostrophe?_of_byteAt hb hlt, if_neg (ne_of_large hlarge (by decide))]
  · rw [apostrophe?_of_le (Nat.not_lt.1 hlt), apostrophe?_of_le (by omega)]

theorem apostrophe?_at {t u : Text} {limit pos : Nat} (h : At t pos u) :
    Finds t (apostrophe? t (min limit t.byteLength) pos)
      ((Lexeme.closing? (limit - pos) u).map (·.2)) := by
  induction u generalizing pos with
  | nil =>
    have hend := h.eq_end
    rw [apostrophe?_of_le (by omega)]
    rfl
  | cons c r ih =>
    rw [Lexeme.closing?]
    by_cases hwindow : limit - pos = 0
    · rw [if_pos hwindow, apostrophe?_of_le (by omega)]
      rfl
    obtain ⟨b, hb, hleads⟩ := h.exists_byteAt
    have hlt := h.lt
    rw [if_neg hwindow, apostrophe?_of_byteAt hb (by omega)]
    by_cases hc : c = '\''
    · rw [if_pos hc, if_pos ((hleads.eq_iff (by decide)).2 hc)]
      exact ⟨pos + 1, rfl, h.cons_ascii (by rw [hc]; decide)⟩
    · have hpass : apostrophe? t (min limit t.byteLength) (pos + 1) =
          apostrophe? t (min limit t.byteLength) (pos + c.utf8Size) :=
        h.pass fun _ _ => apostrophe?_of_large
      have hi := ih h.cons
      rw [Nat.sub_add_eq] at hi
      rw [if_neg hc, if_neg (hleads.ne (by decide) hc), hpass, Option.map_map]
      exact hi

theorem characterEnd_escape {t r : Text} {pos : Nat} (h : At t pos ('\'' :: '\\' :: r)) :
    Reaches t (characterEnd t pos)
      (((Lexeme.characterTail? ('\\' :: r)).map (·.2)).getD ('\\' :: r)) := by
  have hnext := h.cons_ascii (by decide)
  rw [characterEnd, if_pos ((hnext.byte?_eq_iff (by decide)).2 rfl)]
  cases r with
  | nil =>
    have hend := (hnext.cons_ascii (by decide)).eq_end
    rw [apostrophe?_of_le (by omega)]
    exact reaches_ok hnext
  | cons c s =>
    have hc := hnext.cons_ascii (by decide)
    have hpass : apostrophe? t (min (pos + 12) t.byteLength) (pos + 3) =
        apostrophe? t (min (pos + 12) t.byteLength) (pos + 1 + 1 + c.utf8Size) :=
      hc.pass fun _ _ => apostrophe?_of_large
    have hwindow : pos + 12 - (pos + 1 + 1 + c.utf8Size) = Lexeme.escapeWindow - c.utf8Size := by
      rw [Lexeme.escapeWindow]
      omega
    have hfinds := @apostrophe?_at t s (pos + 12) _ hc.cons
    rw [hwindow] at hfinds
    rw [hpass, Lexeme.characterTail?, Option.map_map]
    cases hclosing : Lexeme.closing? (Lexeme.escapeWindow - c.utf8Size) s with
    | none =>
      rw [hclosing] at hfinds
      rw [hfinds]
      exact reaches_ok hnext
    | some p =>
      rw [hclosing] at hfinds
      obtain ⟨stop, hstop, hat⟩ := hfinds
      rw [hstop]
      exact reaches_ok hat

theorem characterEnd_at {t r : Text} {pos : Nat} (h : At t pos ('\'' :: r)) :
    Reaches t (characterEnd t pos) (((Lexeme.characterTail? r).map (·.2)).getD r) := by
  have hnext := h.cons_ascii (by decide)
  by_cases hescape : r.head? = some '\\'
  · obtain ⟨s, rfl⟩ := List.head?_eq_some_iff.1 hescape
    exact characterEnd_escape h
  rw [characterEnd, if_neg fun hb => hescape ((hnext.byte?_eq_iff (by decide)).1 hb),
    hnext.drop?_eq]
  cases r with
  | nil => exact reaches_ok hnext
  | cons c s =>
    have hc : c ≠ '\\' := fun he => hescape (by rw [he]; rfl)
    have hclose := hnext.cons.byte?_eq_iff (d := '\'') (by decide)
    by_cases hclosed : s.head? = some '\''
    · obtain ⟨s, rfl⟩ := List.head?_eq_some_iff.1 hclosed
      have htail : Lexeme.characterTail? (c :: '\'' :: s) = some ([c, '\''], s) := by
        rw [Lexeme.characterTail?]
        exact hc
      simp only [htail, if_pos (hclose.2 rfl)]
      exact reaches_ok (hnext.cons.cons_ascii (by decide))
    · have htail : Lexeme.characterTail? (c :: s) = none := by
        unfold Lexeme.characterTail?
        split
        · rename_i heq
          cases heq
          exact absurd rfl hc
        · rename_i heq
          cases heq
          exact absurd rfl hclosed
        · rfl
      simp only [htail, if_neg (mt hclose.1 hclosed)]
      exact reaches_ok hnext

end EnumReflection.Bytes
