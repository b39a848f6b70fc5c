import EnumReflection.Json.Reading

/-!
# Documents are read as what they stand for

What the grammar derives, the reader reads, whatever follows it, except that digits must not follow
a numeral. So a document stands for one value only, and `read?` is a reader as any other.
-/
namespace EnumReflection.Json

/-- A text before which a numeral ends. -/
def EndsNumeral (t : Text) : Prop := ∀ c, t.head? = some c → c.isDigit = false

theorem isDigit_of_isBlank {c : Char} (h : isBlank c = true) : c.isDigit = false := by
  simp only [isBlank, Bool.or_eq_true, beq_iff_eq] at h
  rcases h with ((rfl | rfl) | rfl) | rfl <;> decide

theorem endsNumeral_append {b t : Text} (hb : Blank b) (ht : EndsNumeral t) :
    EndsNumeral (b ++ t) := by
  cases b with
  | nil => exact ht
  | cons c b =>
    rintro d ⟨⟩
    exact isDigit_of_isBlank (hb c (by simp))

theorem endsNumeral_cons {c : Char} (hc : c.isDigit = false) (t : Text) : EndsNumeral (c :: t) := by
  rintro d ⟨⟩
  exact hc

theorem skipBlanks_append {b : Text} (hb : Blank b) (t : Text) :
    skipBlanks (b ++ t) = skipBlanks t := List.dropWhile_append_of_pos hb

theorem skipBlanks_cons {c : Char} (hc : isBlank c = false) (t : Text) :
    skipBlanks (c :: t) = c :: t := List.dropWhile_cons_of_neg (by simp [hc])

theorem skipBlanks_blank {b : Text} (hb : Blank b) : skipBlanks b = [] := by
  have h := skipBlanks_append hb []
  rwa [List.append_nil] at h

theorem unit?_append {t : Text} {n : Nat} (h : IsUnit t n) (r : Text) :
    unit? (t ++ r) = some (n, r) := by
  cases h with
  | digits ha hb hc hd => simp [unit?, ha, hb, hc, hd]

theorem numbered?_append {t : Text} {n : Nat} (h : IsUnit t n) (hn : n.isValidChar) (r : Text) :
    numbered? (t ++ r) = some (Char.ofNat n, r) := by
  simp [numbered?, unit?_append h, hn]

theorem numbered?_pair {t u : Text} {high low : Nat} (ht : IsUnit t high) (hu : IsUnit u low)
    (hfirst : firstHigh ≤ high) (hhigh : high < firstLow) (hlow : firstLow ≤ low)
    (hlast : low < firstLow + 0x400) (r : Text) :
    numbered? (t ++ '\\' :: 'u' :: (u ++ r)) = some (Char.ofNat (combine high low), r) := by
  have hpart : ¬ high.isValidChar := by
    simp only [Nat.isValidChar, firstHigh, firstLow] at *
    omega
  simp [numbered?, unit?_append ht, hpart, lowUnit?, unit?_append hu, hhigh, hlow, hlast]

theorem find?_spellings {c l : Char} (h : (c, l) ∈ spellings) :
    l ≠ 'u' ∧ spellings.find? (·.2 == l) = some (c, l) := by
  have all : ∀ p ∈ spellings, p.2 ≠ 'u' ∧ spellings.find? (·.2 == p.2) = some p := by decide
  exact all (c, l) h

theorem character?_append {t : Text} {c : Char} (h : Spells t c) (r : Text) :
    character? (t ++ r) = some (c, r) := by
  cases h with
  | plain hquote hslash hhigh => simp [character?, hquote, hslash, Nat.not_lt.2 hhigh]
  | letter hl =>
    obtain ⟨hu, hfind⟩ := find?_spellings hl
    simp [character?, hu, hfind]
  | number ht hn => simp [character?, numbered?_append ht hn]
  | pair ht hu hfirst hhigh hlow hlast =>
    simp [character?, numbered?_pair ht hu hfirst hhigh hlow hlast]

theorem Spells.exists_cons {t : Text} {c : Char} (h : Spells t c) :
    ∃ d u, t = d :: u ∧ d ≠ '"' := by
  cases h with
  | plain hquote => exact ⟨_, _, rfl, hquote⟩
  | letter => exact ⟨_, _, rfl, by decide⟩
  | number => exact ⟨_, _, rfl, by decide⟩
  | pair => exact ⟨_, _, rfl, by decide⟩

theorem inside?_append {t s : Text} (h : SpellsAll t s) {n : Nat} (hn : t.length < n) (r : Text) :
    inside? n (t ++ '"' :: r) = some (s, r) := by
  induction h generalizing n with
  | nil =>
    obtain ⟨m, rfl⟩ := Nat.exists_eq_add_of_lt hn
    simp [inside?]
  | @cons t u s c hc _ ih =>
    obtain ⟨d, t', rfl, hd⟩ := hc.exists_cons
    simp only [List.cons_append, List.length_cons, List.length_append] at hn
    obtain ⟨m, rfl⟩ : ∃ m, n = m + 1 := ⟨n - 1, by omega⟩
    have hread := character?_append hc (u ++ '"' :: r)
    rw [List.cons_append] at hread
    simp [inside?, hd, hread, ih (show u.length < m by omega)]

theorem digits?_append {ds r : Text} (h : IsDigits ds) (hr : EndsNumeral r) :
    digits? (ds ++ r) = some (Nat.ofDigitChars 10 ds 0, r) := by
  obtain ⟨htake, hdrop⟩ := Text.span_append h.all hr
  have hlead : ¬ (ds = [] ∨ (ds.head? = some '0' ∧ ds ≠ ['0'])) := by
    rintro (hnil | ⟨hzero, hne⟩)
    · exact h.ne_nil hnil
    · exact hne (h.lead hzero)
  simp only [digits?, htake, hdrop, if_neg hlead]

theorem IsDigits.exists_cons {ds : Text} (h : IsDigits ds) :
    ∃ c u, ds = c :: u ∧ c.isDigit = true := by
  obtain ⟨c, u, rfl⟩ := List.exists_cons_of_ne_nil h.ne_nil
  exact ⟨c, u, rfl, h.all c (by simp)⟩

theorem ne_of_isDigit {c d : Char} (hc : c.isDigit = true) (hd : d.isDigit = false) : c ≠ d := by
  rintro rfl
  rw [hc] at hd
  cases hd

theorem numeral?_append {t : Text} {n : Int} (h : IsNumeral t n) {r : Text} (hr : EndsNumeral r) :
    numeral? (t ++ r) = some (n, r) := by
  cases h with
  | natural hds =>
    obtain ⟨c, u, rfl, hc⟩ := hds.exists_cons
    have hread := digits?_append hds hr
    rw [List.cons_append] at hread ⊢
    rw [numeral?, if_neg (ne_of_isDigit hc (by decide)), hread]
    rfl
  | negative hds =>
    rw [List.cons_append, numeral?, if_pos rfl, digits?_append hds hr]
    rfl

theorem IsNumeral.exists_cons {t : Text} {n : Int} (h : IsNumeral t n) :
    ∃ c u, t = c :: u ∧ (c = '-' ∨ c.isDigit = true) := by
  cases h with
  | natural hds =>
    obtain ⟨c, u, rfl, hc⟩ := hds.exists_cons
    exact ⟨c, u, rfl, .inr hc⟩
  | negative => exact ⟨'-', _, rfl, .inl rfl⟩

section

variable {α : Type} {part : Text → Option (α × Text)} {close : Char}

/-- A part is read from the text that it stands for, as is the blank behind it. -/
structure Part.IsRead (part : Text → Option (α × Text)) (close : Char) (p : Part α) : Prop where
  read : ∀ r, EndsNumeral r → part (p.lead ++ (p.body ++ r)) = some (p.value, r)
  tail : Blank p.tail
  opens : ∀ r, ∃ c u, skipBlanks (p.lead ++ (p.body ++ r)) = c :: u ∧ c ≠ close

def IsClosing (c : Char) : Prop := c = ']' ∨ c = '}'

theorem IsClosing.facts {c : Char} (h : IsClosing c) :
    isBlank c = false ∧ c.isDigit = false ∧ c ≠ ',' := by
  rcases h with rfl | rfl <;> decide

theorem Part.IsRead.skipBlanks_tail {p : Part α} (hp : p.IsRead part close) {c : Char}
    (hc : isBlank c = false) (r : Text) : skipBlanks (p.tail ++ c :: r) = c :: r := by
  rw [skipBlanks_append hp.tail, skipBlanks_cons hc]

theorem Part.IsRead.read_text {p : Part α} (hp : p.IsRead part close) {c : Char}
    (hc : c.isDigit = false) (r : Text) :
    part (p.text ++ c :: r) = some (p.value, p.tail ++ c :: r) := by
  rw [Part.text, List.append_assoc, List.append_assoc]
  exact hp.read _ (endsNumeral_append hp.tail (endsNumeral_cons hc r))

theorem parts?_append (hclose : IsClosing close) {parts : List (Part α)} (hne : parts ≠ [])
    (hparts : ∀ p ∈ parts, p.IsRead part close) {n : Nat} (hn : parts.length ≤ n) (r : Text) :
    parts? part close n (Text.join [','] (parts.map Part.text) ++ close :: r) =
      some (parts.map Part.value, r) := by
  obtain ⟨hblank, hdigit, hcomma⟩ := hclose.facts
  induction parts generalizing n with
  | nil => exact absurd rfl hne
  | cons p ps ih =>
    simp only [List.length_cons] at hn
    obtain ⟨m, rfl⟩ : ∃ m, n = m + 1 := ⟨n - 1, by omega⟩
    have hp := hparts p (by simp)
    cases ps with
    | nil =>
      simp [parts?, Text.join, hp.read_text hdigit, hp.skipBlanks_tail hblank, hcomma]
    | cons q qs =>
      have hi := ih (by simp) (fun p hp => hparts p (List.mem_cons_of_mem _ hp)) (n := m) (by omega)
      simp only [List.map_cons] at hi
      rw [List.map_cons, List.map_cons, Text.join_cons_cons, List.append_assoc,
        List.append_assoc, List.singleton_append, parts?, hp.read_text (by decide)]
      simp [hp.skipBlanks_tail (c := ',') (by decide), hi]

theorem length_le_length_join (ts : List Text) : ts.length ≤ (Text.join [','] ts).length + 1 := by
  induction ts with
  | nil => simp
  | cons t ts ih =>
    cases ts with
    | nil => simp
    | cons u us =>
      rw [Text.join_cons_cons, List.length_append, List.length_append, List.length_singleton,
        List.length_cons]
      omega

theorem length_le_of_mem_join {ts : List Text} {t : Text} (ht : t ∈ ts) :
    t.length ≤ (Text.join [','] ts).length := by
  induction ts with
  | nil => cases ht
  | cons u us ih =>
    cases us with
    | nil =>
      rw [List.mem_singleton.1 ht]
      simp [Text.join]
    | cons v vs =>
      rw [Text.join_cons_cons, List.length_append, List.length_append]
      rcases List.mem_cons.1 ht with rfl | ht
      · omega
      · have := ih ht
        omega

theorem length_body_le {parts : List (Part α)} {p : Part α} (hp : p ∈ parts) :
    p.body.length ≤ (Text.join [','] (parts.map Part.text)).length := by
  have hle : p.body.length ≤ p.text.length := by
    simp only [Part.text, List.length_append]
    omega
  exact Nat.le_trans hle (length_le_of_mem_join (List.mem_map_of_mem hp))

theorem list?_append (hclose : IsClosing close) {parts : List (Part α)} (hne : parts ≠ [])
    (hparts : ∀ p ∈ parts, p.IsRead part close) (r : Text) :
    list? part close (Text.join [','] (parts.map Part.text) ++ close :: r) =
      some (parts.map Part.value, r) := by
  have hopens : ∃ c u, skipBlanks (Text.join [','] (parts.map Part.text) ++ close :: r) = c :: u ∧
      c ≠ close := by
    cases parts with
    | nil => exact absurd rfl hne
    | cons p ps =>
      have hp := (hparts p (by simp)).opens
      cases ps with
      | nil => simpa [Text.join, Part.text] using hp (p.tail ++ close :: r)
      | cons q qs =>
        rw [List.map_cons, List.map_cons, Text.join_cons_cons, Part.text, List.append_assoc,
          List.append_assoc, List.append_assoc]
        exact hp _
  obtain ⟨c, u, hskip, hc⟩ := hopens
  have hlen := length_le_length_join (parts.map Part.text)
  rw [List.length_map] at hlen
  have hread := parts?_append hclose hne hparts
    (n := (Text.join [','] (parts.map Part.text) ++ close :: r).length)
    (by simp only [List.length_append, List.length_cons]; omega) r
  rw [list?, hskip]
  simp only
  rw [if_neg hc]
  exact hread

theorem list?_nil (hclose : IsClosing close) {b : Text} (hb : Blank b) (r : Text) :
    list? part close (b ++ close :: r) = some ([], r) := by
  rw [list?, skipBlanks_append hb, skipBlanks_cons hclose.facts.1]
  simp

end

theorem key?_append {t key : Text} (h : IsKey t key) {c : Char} (hc : isBlank c = false) (r : Text) :
    key? (t ++ c :: r) = some (key, c :: r) := by
  cases h with
  | @mk a b d t key ha ht hb hd =>
    have hread := inside?_append ht (n := (t ++ '"' :: (b ++ ':' :: (d ++ c :: r))).length)
      (by simp) (b ++ ':' :: (d ++ c :: r))
    simp only [List.append_assoc, List.cons_append, key?, skipBlanks_append ha]
    rw [skipBlanks_cons (by decide)]
    simp only [hread, Option.bind_eq_bind, Option.bind_some, skipBlanks_append hb]
    rw [skipBlanks_cons (by decide)]
    simp only [skipBlanks_append hd, skipBlanks_cons hc]
    rfl

theorem IsKey.opens {t key : Text} (h : IsKey t key) (r : Text) :
    ∃ u, skipBlanks (t ++ r) = '"' :: u := by
  cases h with
  | mk ha =>
    rw [List.append_assoc, skipBlanks_append ha, List.cons_append, skipBlanks_cons (by decide)]
    exact ⟨_, rfl⟩

theorem Denotes.exists_cons {t : Text} {v : Json} (h : Denotes t v) :
    ∃ c u, t = c :: u ∧ isBlank c = false ∧ c ≠ ']' := by
  cases h with
  | number hn =>
    obtain ⟨c, u, rfl, hc⟩ := hn.exists_cons
    refine ⟨c, u, rfl, ?_⟩
    rcases hc with rfl | hc
    · decide
    · refine ⟨Bool.eq_false_iff.2 fun hb => ?_, ne_of_isDigit hc (by decide)⟩
      rw [isDigit_of_isBlank hb] at hc
      cases hc
  | null => exact ⟨_, _, rfl, by decide⟩
  | string => exact ⟨_, _, rfl, by decide⟩
  | emptyArray => exact ⟨_, _, rfl, by decide⟩
  | array => exact ⟨_, _, rfl, by decide⟩
  | emptyObject => exact ⟨_, _, rfl, by decide⟩
  | object => exact ⟨_, _, rfl, by decide⟩

theorem value?_number {c : Char} {u : Text} (hc : c = '-' ∨ c.isDigit = true) (n : Nat) :
    value? (n + 1) (c :: u) = (numeral? (c :: u)).map fun (n, u) => (.number n, u) := by
  have hne {d : Char} (hminus : '-' ≠ d) (hd : d.isDigit = false) : c ≠ d := by
    rcases hc with rfl | hc
    · exact hminus
    · exact ne_of_isDigit hc hd
  rw [value?, if_neg (hne (by decide) (by decide)), if_neg (hne (by decide) (by decide)),
    if_neg (hne (by decide) (by decide)), if_neg (hne (by decide) (by decide))]

theorem exists_eq_add_one {c : Char} {u : Text} {n : Nat} (h : (c :: u).length ≤ n) :
    ∃ m, n = m + 1 := Nat.exists_eq_add_one.2 (Nat.lt_of_lt_of_le (Nat.succ_pos _) h)

/-- A value is read in front of any text that does not go on with digits. -/
theorem value?_append {t : Text} {v : Json} (h : Denotes t v) {n : Nat} (hn : t.length ≤ n)
    {r : Text} (hr : EndsNumeral r) : value? n (t ++ r) = some (v, r) := by
  induction h generalizing n r with
  | null =>
    obtain ⟨m, rfl⟩ := exists_eq_add_one hn
    simp [value?]
  | number hnum =>
    obtain ⟨c, u, rfl, hc⟩ := hnum.exists_cons
    obtain ⟨m, rfl⟩ := exists_eq_add_one hn
    rw [List.cons_append, value?_number hc, ← List.cons_append, numeral?_append hnum hr]
    rfl
  | @string t s hs =>
    obtain ⟨m, rfl⟩ := exists_eq_add_one hn
    have happ : '"' :: (t ++ ['"']) ++ r = '"' :: (t ++ '"' :: r) := by simp
    rw [happ, value?, if_neg (by decide), if_pos rfl,
      inside?_append hs (n := (t ++ '"' :: r).length) (by simp) r]
    rfl
  | emptyArray hb =>
    obtain ⟨m, rfl⟩ := exists_eq_add_one hn
    simp [value?, list?_nil (.inl rfl) hb]
  | @array parts hne hblank hdenotes ih =>
    obtain ⟨m, rfl⟩ := exists_eq_add_one hn
    simp only [List.length_cons, List.length_append, List.length_nil] at hn
    have hparts : ∀ p ∈ parts, p.IsRead (fun t => value? m (skipBlanks t)) ']' := by
      intro p hp
      obtain ⟨c, u, hbody, hc, hclose⟩ := (hdenotes p hp).exists_cons
      have hskip (r : Text) : skipBlanks (p.lead ++ (p.body ++ r)) = p.body ++ r := by
        rw [skipBlanks_append (hblank p hp).1, hbody, List.cons_append, skipBlanks_cons hc]
      have hlen := length_body_le hp
      refine ⟨fun r hr => ?_, (hblank p hp).2, fun r => ⟨c, u ++ r, ?_, hclose⟩⟩
      · simp only [hskip]
        exact ih p hp (by omega) hr
      · rw [hskip, hbody, List.cons_append]
    simp [value?, list?_append (.inl rfl) hne hparts]
  | emptyObject hb =>
    obtain ⟨m, rfl⟩ := exists_eq_add_one hn
    simp [value?, list?_nil (.inr rfl) hb]
  | @object parts hne hkeys hdenotes ih =>
    obtain ⟨m, rfl⟩ := exists_eq_add_one hn
    simp only [List.length_cons, List.length_append, List.length_nil] at hn
    have hparts : ∀ p ∈ parts, p.IsRead (keyed? (value? m)) '}' := by
      intro p hp
      obtain ⟨c, u, hbody, hc, -⟩ := (hdenotes p hp).exists_cons
      have hlen := length_body_le hp
      refine ⟨fun r hr => ?_, (hkeys p hp).2, fun r => ?_⟩
      · have hvalue := ih p hp (n := m) (by omega) hr
        rw [hbody, List.cons_append] at hvalue ⊢
        simp [keyed?, key?_append (hkeys p hp).1 hc, hvalue]
      · obtain ⟨w, hw⟩ := (hkeys p hp).1.opens (p.body ++ r)
        exact ⟨'"', w, hw, by decide⟩
    simp [value?, list?_append (.inr rfl) hne hparts]

/-- Every document is read as the value that it stands for. -/
theorem isReader_read? : IsReader read? := by
  rintro t v ⟨ha, hv, hb⟩
  rename_i a t b
  obtain ⟨c, u, rfl, hc, -⟩ := hv.exists_cons
  have hskip : skipBlanks (a ++ (c :: u ++ b)) = c :: u ++ b := by
    rw [skipBlanks_append ha, List.cons_append, skipBlanks_cons hc]
  have hends : EndsNumeral b := by
    have h := endsNumeral_append hb (t := []) (by simp [EndsNumeral])
    rwa [List.append_nil] at h
  have hread := value?_append hv (n := (a ++ (c :: u ++ b)).length) (by simp; omega) hends
  simp only [read?, hskip, hread, Option.bind_eq_bind, Option.bind_some, skipBlanks_blank hb]
  rfl

/-- A document stands for one value only. -/
theorem IsDocument.unique {t : Text} {v w : Json} (hv : IsDocument t v) (hw : IsDocument t w) :
    v = w := Option.some.inj ((isReader_read? t v hv).symm.trans (isReader_read? t w hw))

end EnumReflection.Json
