import EnumReflection.Proofs.Bytes.Trivia

/-!
# Names over bytes

Attributes are passed over and names found at the places that the reader of a segment leads to. The
depth of brackets is never taken below zero, since the scan starts at an opening bracket and ends
with the one that closes it.
-/
namespace EnumReflection.Bytes
open Name (afterGroup afterMark afterAttribute? afterAttributes)

theorem isAscii_of_isWordChar {c : Char} (h : Name.isWordChar c = true) : IsAscii c := by
  have hranges : ((decide ('A'.val ≤ c.val ∧ c.val ≤ 'Z'.val) ||
      (decide ('a'.val ≤ c.val) && decide (c.val ≤ 'z'.val))) ||
      (decide ('0'.val ≤ c.val) && decide (c.val ≤ '9'.val)) || c == '_') = true := h
  have hnumber : c.toNat = c.val.toNat := rfl
  simp only [Bool.or_eq_true, Bool.and_eq_true, decide_eq_true_eq, beq_iff_eq,
    UInt32.le_iff_toNat_le] at hranges
  rw [IsAscii, hnumber]
  rcases hranges with ((h | h) | h) | rfl
  · exact Nat.lt_of_le_of_lt h.2 (by decide)
  · exact Nat.lt_of_le_of_lt h.2 (by decide)
  · exact Nat.lt_of_le_of_lt h.2 (by decide)
  · decide

theorem isAsciiClass_isWordChar : IsAsciiClass Name.isWordChar :=
  isAsciiClass_of_imp fun _ => isAscii_of_isWordChar

theorem isAsciiClass_isWordStart : IsAsciiClass Name.isWordStart :=
  isAsciiClass_of_imp fun _ h => isAscii_of_isWordChar (Name.isWordChar_of_start h)

theorem groupEnd_of_byteAt {t : Text} {depth pos : Nat} {b : UInt8} (h : byteAt t pos = .ok b) :
    groupEnd t depth pos =
      if b = '"'.toUInt8 then stringEnd t pos >>= fun stop =>
        if pos < stop then groupEnd t depth stop else .error .endless
      else if b = '['.toUInt8 then groupEnd t (depth + 1) (pos + 1)
      else if b = ']'.toUInt8 then decrement depth >>= fun depth =>
        if depth = 0 then .ok (pos + 1) else groupEnd t depth (pos + 1)
      else groupEnd t depth (pos + 1) := by
  rw [groupEnd, dif_pos (lt_of_byteAt h), h]
  rfl

theorem groupEnd_of_large {t : Text} {depth pos : Nat} (h : Large t pos) :
    groupEnd t depth pos = groupEnd t depth (pos + 1) := by
  obtain ⟨b, hb, hlarge⟩ := h
  rw [groupEnd_of_byteAt hb, if_neg (ne_of_large hlarge (by decide)),
    if_neg (ne_of_large hlarge (by decide)), if_neg (ne_of_large hlarge (by decide))]

/-- Inside a group the depth is one more than the number of groups around it. -/
theorem groupEnd_at {t u : Text} {n pos : Nat} (h : At t pos u) :
    Reaches t (groupEnd t (n + 1) pos) (afterGroup n u) := by
  fun_induction afterGroup n u generalizing pos with
  | case1 n =>
    rw [groupEnd, dif_neg (by rw [h.eq_end]; exact Nat.lt_irrefl _)]
    exact reaches_ok (at_end t)
  | case2 n r _ ih =>
    obtain ⟨b, hb, hleads⟩ := h.exists_byteAt
    obtain ⟨stop, hstop, hat⟩ := stringEnd_at h
    have hlt : pos < stop := by
      rw [← Lexeme.stringTail_append r, ← List.cons_append] at h
      exact h.lt_stop (List.cons_ne_nil _ _) hat
    rw [groupEnd_of_byteAt hb, if_pos (hleads.eq (by decide)), hstop, ok_bind,
      if_pos hlt]
    exact ih hat
  | case3 n r ih =>
    obtain ⟨b, hb, hleads⟩ := h.exists_byteAt
    rw [groupEnd_of_byteAt hb, if_neg (hleads.ne (by decide) (by decide)),
      if_pos (hleads.eq (by decide))]
    exact ih (h.cons_ascii (by decide))
  | case4 r =>
    obtain ⟨b, hb, hleads⟩ := h.exists_byteAt
    rw [groupEnd_of_byteAt hb, if_neg (hleads.ne (by decide) (by decide)),
      if_neg (hleads.ne (by decide) (by decide)),
      if_pos (hleads.eq (by decide))]
    exact reaches_ok (h.cons_ascii (by decide))
  | case5 r n ih =>
    obtain ⟨b, hb, hleads⟩ := h.exists_byteAt
    rw [groupEnd_of_byteAt hb, if_neg (hleads.ne (by decide) (by decide)),
      if_neg (hleads.ne (by decide) (by decide)),
      if_pos (hleads.eq (by decide))]
    exact ih (h.cons_ascii (by decide))
  | case6 n c r hquote hopen hclose ih =>
    obtain ⟨b, hb, hleads⟩ := h.exists_byteAt
    have hpass : groupEnd t (n + 1) (pos + 1) = groupEnd t (n + 1) (pos + c.utf8Size) :=
      h.pass fun _ _ => groupEnd_of_large
    rw [groupEnd_of_byteAt hb, if_neg (hleads.ne (by decide) hquote),
      if_neg (hleads.ne (by decide) hopen),
      if_neg (hleads.ne (by decide) hclose), hpass]
    exact ih h.cons

theorem groupEnd_open {t r : Text} {pos : Nat} (h : At t pos ('[' :: r)) :
    Reaches t (groupEnd t 0 pos) (afterGroup 0 r) := by
  obtain ⟨b, hb, hleads⟩ := h.exists_byteAt
  rw [groupEnd_of_byteAt hb, if_neg (hleads.ne (by decide) (by decide)),
    if_pos (hleads.eq (by decide))]
  exact groupEnd_at (h.cons_ascii (by decide))

theorem markEnd_at {t u : Text} {pos : Nat} (h : At t pos u) :
    Reaches t (markEnd t pos) (afterMark '!' u) := by
  unfold markEnd
  cases u with
  | nil =>
    rw [h.byte?_nil]
    exact reaches_ok h
  | cons c r =>
    rw [afterMark]
    by_cases hc : c = '!'
    · subst hc
      rw [if_pos ((h.byte?_eq_iff (by decide)).2 rfl), if_pos rfl]
      exact triviaEnd_at (h.cons_ascii (by decide))
    · have hhead : (c :: r).head? ≠ some '!' := by simpa using hc
      rw [if_neg (mt (h.byte?_eq_iff (by decide)).1 hhead), if_neg hc]
      exact reaches_ok h

theorem attributeEnd?_at {t r : Text} {pos : Nat} (h : At t pos r) :
    Finds t (attributeEnd? t pos) (afterAttribute? ('#' :: r)) := by
  obtain ⟨mark, hmark, hat⟩ := triviaEnd_at h
  obtain ⟨bracket, hbracket, hat⟩ := markEnd_at hat
  rw [attributeEnd?, hmark, ok_bind, hbracket, ok_bind, afterAttribute?]
  by_cases hopen : (afterMark '!' (Trivia.skip r)).head? = some '['
  · obtain ⟨s, hs⟩ := List.head?_eq_some_iff.1 hopen
    rw [if_pos ((hat.byte?_eq_iff (by decide)).2 hopen)]
    rw [hs] at hat ⊢
    obtain ⟨stop, hstop, hat⟩ := groupEnd_open hat
    rw [hstop]
    exact ⟨stop, rfl, hat⟩
  · rw [if_neg (mt (hat.byte?_eq_iff (by decide)).1 hopen)]
    split
    · rename_i s hs
      rw [hs] at hopen
      exact absurd rfl hopen
    · rfl

theorem attributesEnd_at {t u : Text} {pos : Nat} (h : At t pos (Trivia.skip u)) :
    Reaches t (attributesEnd t pos) (afterAttributes u) := by
  fun_induction afterAttributes u generalizing pos with
  | case1 u r hattribute _ ih =>
    obtain ⟨s, hsuffix, hs⟩ := Name.afterAttribute?_suffix hattribute
    rw [← hs] at h hattribute
    have hfinds := attributeEnd?_at (h.cons_ascii (by decide))
    rw [hattribute] at hfinds
    obtain ⟨stop, hstop, hat⟩ := hfinds
    obtain ⟨next, hnext, hat⟩ := triviaEnd_at hat
    obtain ⟨v, rfl⟩ := (Trivia.skip_suffix r).trans hsuffix
    have hlt : pos < next := by
      rw [← List.cons_append] at h
      exact h.lt_stop (List.cons_ne_nil _ _) hat
    rw [attributesEnd, dif_pos ((h.byte?_eq_iff (by decide)).2 rfl), hstop, ok_bind]
    dsimp only
    rw [hnext, ok_bind, dif_pos hlt]
    exact ih hat
  | case2 u hnone =>
    rw [attributesEnd]
    by_cases hhash : (Trivia.skip u).head? = some '#'
    · obtain ⟨s, hs⟩ := List.head?_eq_some_iff.1 hhash
      rw [dif_pos ((h.byte?_eq_iff (by decide)).2 hhash)]
      rw [hs] at h hnone
      have hfinds := attributeEnd?_at (h.cons_ascii (by decide))
      rw [hnone] at hfinds
      rw [hfinds, hs]
      exact reaches_ok h
    · rw [dif_neg (mt (h.byte?_eq_iff (by decide)).1 hhash)]
      exact reaches_ok h

theorem preludeEnd_at (t : Text) : Reaches t (preludeEnd t) (afterAttributes t) := by
  obtain ⟨pos, hpos, hat⟩ := triviaEnd_at (at_zero t)
  rw [preludeEnd, hpos]
  exact attributesEnd_at hat

theorem bytesIn_at {t s r : Text} {start stop : Nat} (h : At t start (s ++ r))
    (hstop : At t stop r) : bytesIn start stop t = .ok (ofText s) := by
  have hadd := h.append.add
  have hadd' := hstop.add
  obtain rfl : stop = start + s.byteLength := by omega
  obtain ⟨v, rfl, rfl⟩ := h
  have hbytes : (ofText (v ++ (s ++ r))).extract v.byteLength (v.byteLength + s.byteLength) =
      ofText s := by
    rw [ofText_append, ofText_append, List.extract_eq_take_drop, Nat.add_sub_cancel_left,
      ← length_ofText v, ← length_ofText s, List.drop_left, List.take_left]
  rw [bytesIn, if_neg (by simp only [Text.byteLength_append]; omega), hbytes]

theorem ofText_eq_singleton_iff {t : Text} {d : Char} (hd : IsAscii d) :
    ofText t = [d.toUInt8] ↔ t = [d] := by
  constructor
  · intro h
    have hlen := congrArg List.length h
    rw [length_ofText] at hlen
    cases t with
    | nil => cases hlen
    | cons c r =>
      have hpos := c.utf8Size_pos
      simp only [Text.byteLength_cons, List.length_singleton] at hlen
      obtain rfl : r = [] := Text.byteLength_eq_zero.1 (by omega)
      have hc : IsAscii c := utf8Size_eq_one_iff.1 (by simpa using hlen)
      rw [ofText_cons, utf8EncodeChar_of_isAscii hc] at h
      rw [((leads_of_isAscii hc).eq_iff hd).1 (List.cons.inj h).1]
  · rintro rfl
    rw [ofText_cons, utf8EncodeChar_of_isAscii hd]
    rfl

theorem At.any_byte? {t u : Text} {pos : Nat} (h : At t pos u) {p : Char → Bool}
    (hp : IsAsciiClass p) : (byte? t pos).any (fun b => p (character b)) = u.head?.any p := by
  cases u with
  | nil =>
    rw [h.byte?_nil]
    rfl
  | cons c r =>
    obtain ⟨b, hb, hleads⟩ := h.exists_byte?
    rw [hb, List.head?_cons, Option.any_some, Option.any_some, hleads.class_eq hp]

theorem identifier_of_raw {t v : Text} (hword : Name.word t = (['r'], '#' :: v))
    (hv : v.head?.any Name.isWordStart = true) : Name.identifier t = Name.word v := by
  cases v with
  | nil => cases hv
  | cons c r =>
    unfold Name.identifier
    rw [hword]
    exact if_pos hv

theorem identifier_of_plain {t : Text}
    (h : ∀ v, Name.word t = (['r'], '#' :: v) → v.head?.any Name.isWordStart = false) :
    Name.identifier t = Name.word t := by
  unfold Name.identifier
  split
  · rename_i c r hword
    have hc : ¬ Name.isWordStart c = true := Bool.eq_false_iff.1 (h (c :: r) hword)
    rw [if_neg hc, hword]
  · rfl

theorem wordEnd_at {t u : Text} {pos : Nat} (h : At t pos u) :
    Reaches t (wordEnd t pos) (Name.word u).2 := skipWhile_at isAsciiClass_isWordChar h

theorem At.word {t u : Text} {pos : Nat} (h : At t pos u) :
    At t pos ((Name.word u).1 ++ (Name.word u).2) := by rwa [Name.word_append]

theorem identifierAt_at {t u : Text} {pos : Nat} (h : At t pos u) :
    ∃ start stop, identifierAt t pos = .ok (start, stop) ∧
      At t start ((Name.identifier u).1 ++ (Name.identifier u).2) ∧
      At t stop (Name.identifier u).2 := by
  obtain ⟨stop, hstop, hend⟩ := wordEnd_at h
  have hr := ofText_eq_singleton_iff (t := (Name.word u).1) (d := 'r') (by decide)
  have hhash := hend.byte?_eq_iff (d := '#') (by decide)
  rw [identifierAt, hstop, ok_bind, bytesIn_at h.word hend, ok_bind]
  by_cases hraw : ofText (Name.word u).1 = ['r'.toUInt8] ∧ byte? t stop = some '#'.toUInt8 ∧
      (byte? t (stop + 1)).any (fun b => Name.isWordStart (character b)) = true
  · obtain ⟨v, hv⟩ := List.head?_eq_some_iff.1 (hhash.1 hraw.2.1)
    have hword : Name.word u = (['r'], '#' :: v) := Prod.ext (hr.1 hraw.1) hv
    rw [hv] at hend
    have hname := hend.cons_ascii (by decide)
    have hstarts := hraw.2.2
    rw [hname.any_byte? isAsciiClass_isWordStart] at hstarts
    obtain ⟨last, hlast, hafter⟩ := wordEnd_at hname
    rw [if_pos hraw, hlast, ok_bind, identifier_of_raw hword hstarts]
    exact ⟨stop + 1, last, rfl, hname.word, hafter⟩
  · have hplain : ∀ v, Name.word u = (['r'], '#' :: v) →
        v.head?.any Name.isWordStart = false := by
      intro v hv
      rw [hv] at hend hr hhash hraw
      rw [← (hend.cons_ascii (by decide)).any_byte? isAsciiClass_isWordStart, Bool.eq_false_iff]
      exact fun hstarts => hraw ⟨hr.2 rfl, hhash.2 rfl, hstarts⟩
    rw [if_neg hraw, identifier_of_plain hplain]
    exact ⟨pos, stop, rfl, h.word, hend⟩

theorem span?_at (t : Text) :
    match Name.read? t with
    | none => span? t = .ok none
    | some (name, tail) => ∃ start stop, span? t = .ok (some (start, stop)) ∧
        At t start (name ++ tail) ∧ At t stop tail := by
  obtain ⟨pos, hpos, hat⟩ := preludeEnd_at t
  obtain ⟨start, hstart, hat⟩ := skipWhile_at isAsciiClass_isWordStart.not hat
  rw [span?, hpos, ok_bind, hstart, ok_bind]
  unfold Name.read?
  cases hsearch : (afterAttributes t).dropWhile (!Name.isWordStart ·) with
  | nil =>
    rw [hsearch] at hat
    rw [if_pos hat.eq_end]
    rfl
  | cons c r =>
    rw [hsearch] at hat
    obtain ⟨start', stop, hends, hname, htail⟩ := identifierAt_at hat
    rw [if_neg (Nat.ne_of_lt hat.lt), hends]
    exact ⟨start', stop, rfl, hname, htail⟩

theorem span?_eq (t : Text) : span? t = .ok (Name.span? t) := by
  have hspan := span?_at t
  rw [Name.span?]
  cases hread : Name.read? t with
  | none =>
    rw [hread] at hspan
    exact hspan
  | some p =>
    rw [hread] at hspan
    obtain ⟨start, stop, hspan, hstart, hstop⟩ := hspan
    have hadd := hstart.add
    have hadd' := hstop.add
    rw [Text.byteLength_append] at hadd
    have hends : start = t.byteLength - p.2.byteLength - p.1.byteLength ∧
        stop = t.byteLength - p.2.byteLength := by omega
    rw [hspan, Option.map_some, hends.1, hends.2]

theorem name?_eq (t : Text) : name? t = .ok (Name.ofSegment? t) := by
  have hspan := span?_at t
  rw [Name.ofSegment?, name?]
  cases hread : Name.read? t with
  | none =>
    rw [hread] at hspan
    rw [hspan]
    rfl
  | some p =>
    rw [hread] at hspan
    obtain ⟨start, stop, hspan, hstart, hstop⟩ := hspan
    rw [hspan, ok_bind]
    dsimp only
    rw [hstart.slice_eq hstop]
    rfl

end EnumReflection.Bytes
