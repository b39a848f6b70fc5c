import EnumReflection.Proofs.Cut
import EnumReflection.Proofs.First
import EnumReflection.Table.Build

/-!
# When a declaration and its values make up a table

The table builder cuts its segments off the text with a position and a trailing-comma rule of
its own. Its result is said here of the segments alone: a table with one member for each value
exactly when the values are as many as the members and all of these are named, and otherwise
the first reason in a fixed order.
-/
namespace EnumReflection.Table

variable {α : Type}

def Nameless (body : Text) : Prop := Name.ofSegment? body = none

/-- The texts that are still to come when the segment at an index is looked for. -/
def upcoming (index : Nat) (left : Text) : List Text :=
  match afterSegment? index left with
  | none => []
  | some t => Segment.bodies t

/-- Between two members the text left over is at its end or at a comma. -/
def AtComma (index : Nat) (left : Text) : Prop :=
  0 < index → left = [] ∨ ∃ r, left = ',' :: r

@[simp] theorem upcoming_zero (t : Text) : upcoming 0 t = Segment.bodies t := rfl

@[simp] theorem upcoming_succ (index : Nat) (t : Text) :
    upcoming (index + 1) t = Segment.following t := by
  cases t <;> rfl

theorem upcoming_of_none {index : Nat} {left : Text} (h : afterSegment? index left = none) :
    upcoming index left = [] := by
  rw [upcoming, h]

theorem upcoming_of_some {index : Nat} {left t : Text} (h : afterSegment? index left = some t) :
    upcoming index left =
      (Segment.cut none 0 t).1 :: upcoming (index + 1) (Segment.cut none 0 t).2 := by
  rw [upcoming, h, upcoming_succ]
  exact Segment.bodies_eq_cut t

theorem fill_cons_none {expected index : Nat} {v : α} {vs : List α} {left : Text}
    (h : afterSegment? index left = none) :
    fill expected index (v :: vs) left = .error (.tooFew expected index) := by
  rw [fill, h]

theorem fill_cons_nameless {expected index : Nat} {v : α} {vs : List α} {left t : Text}
    (h : afterSegment? index left = some t) (hn : Nameless (Segment.cut none 0 t).1) :
    fill expected index (v :: vs) left = .error (.nameless index (Segment.cut none 0 t).1) := by
  rw [fill, h]
  simp only
  rw [hn]

theorem fill_cons_named {expected index : Nat} {v : α} {vs : List α} {left t name : Text}
    (h : afterSegment? index left = some t)
    (hn : Name.ofSegment? (Segment.cut none 0 t).1 = some name) :
    fill expected index (v :: vs) left =
      (fill expected (index + 1) vs (Segment.cut none 0 t).2).map fun (ms, last) =>
        (⟨v, name, (Segment.cut none 0 t).1, index⟩ :: ms, last) := by
  rw [fill, h]
  simp only
  rw [hn]

theorem exists_name {body : Text} (h : ¬ Nameless body) :
    ∃ name, Name.ofSegment? body = some name := Option.ne_none_iff_exists'.1 h

theorem fill_of_nameless (expected index : Nat) {i : Nat} {vs : List α} {left b : Text}
    (h : IsFirst Nameless ((upcoming index left).take vs.length) i b) :
    fill expected index vs left = .error (.nameless (index + i) b) := by
  induction vs generalizing index left i with
  | nil => simp at h
  | cons v vs ih =>
    cases ht : afterSegment? index left with
    | none =>
      rw [upcoming_of_none ht] at h
      simp at h
    | some t =>
      rw [upcoming_of_some ht, List.length_cons, List.take_succ_cons] at h
      cases i with
      | zero =>
        obtain ⟨rfl, hn⟩ := IsFirst.cons_zero.1 h
        rw [fill_cons_nameless ht hn, Nat.add_zero]
      | succ i =>
        obtain ⟨hn, h⟩ := IsFirst.cons_succ.1 h
        obtain ⟨name, hname⟩ := exists_name hn
        rw [fill_cons_named ht hname, ih (index + 1) h, Nat.add_right_comm]
        rfl

theorem fill_of_short (expected index : Nat) {vs : List α} {left : Text}
    (hn : ∀ b ∈ upcoming index left, ¬ Nameless b)
    (hlen : (upcoming index left).length < vs.length) :
    fill expected index vs left =
      .error (.tooFew expected (index + (upcoming index left).length)) := by
  induction vs generalizing index left with
  | nil => simp at hlen
  | cons v vs ih =>
    cases ht : afterSegment? index left with
    | none => rw [fill_cons_none ht, upcoming_of_none ht, List.length_nil, Nat.add_zero]
    | some t =>
      have hup := upcoming_of_some ht
      rw [hup] at hn hlen ⊢
      simp only [List.mem_cons, List.length_cons] at hn hlen ⊢
      obtain ⟨name, hname⟩ := exists_name (hn _ (Or.inl rfl))
      rw [fill_cons_named ht hname, ih (index + 1) (fun b hb => hn b (Or.inr hb)) (by omega)]
      rw [Nat.add_right_comm, Nat.add_assoc]
      rfl

/-- The loop over the values ends behind the segments that it has used. -/
theorem fill_of_named (expected index : Nat) {vs : List α} {left : Text}
    (hn : ∀ b ∈ (upcoming index left).take vs.length, ¬ Nameless b)
    (hlen : vs.length ≤ (upcoming index left).length) (hleft : AtComma index left) :
    ∃ ms last, fill expected index vs left = .ok (ms, last) ∧
      ms.map Member.text = (upcoming index left).take vs.length ∧
      upcoming (index + vs.length) last = (upcoming index left).drop vs.length ∧
      AtComma (index + vs.length) last := by
  induction vs generalizing index left with
  | nil => exact ⟨[], left, rfl, by simp, by simp, hleft⟩
  | cons v vs ih =>
    cases ht : afterSegment? index left with
    | none =>
      rw [upcoming_of_none ht] at hlen
      simp at hlen
    | some t =>
      have hup := upcoming_of_some ht
      rw [hup] at hn hlen ⊢
      simp only [List.length_cons, List.take_succ_cons, List.mem_cons, List.drop_succ_cons]
        at hn hlen ⊢
      obtain ⟨name, hname⟩ := exists_name (hn _ (Or.inl rfl))
      have hcomma : AtComma (index + 1) (Segment.cut none 0 t).2 := fun _ => Segment.cut_snd none 0 t
      obtain ⟨ms, last, hfill, htext, hrest, hlast⟩ :=
        ih (index + 1) (fun b hb => hn b (Or.inr hb)) (by omega) hcomma
      have hindex : index + (vs.length + 1) = index + 1 + vs.length := by omega
      refine ⟨⟨v, name, (Segment.cut none 0 t).1, index⟩ :: ms, last, ?_, ?_, ?_, ?_⟩
      · rw [fill_cons_named ht hname, hfill]
        rfl
      · rw [List.map_cons, htext]
      · rw [hindex, hrest]
      · rw [hindex]
        exact hlast

theorem not_blank_of_named {body : Text} (h : ¬ Nameless body) : Trivia.isBlank body = false := by
  cases hb : Trivia.isBlank body with
  | false => rfl
  | true => exact absurd (by rw [Nameless, Name.ofSegment?, Name.read?_of_blank hb]; rfl) h

theorem memberBodies_of_named {t : Text} (h : ∀ b ∈ Segment.bodies t, ¬ Nameless b) :
    Segment.memberBodies t = Segment.bodies t := by
  have hlast : Segment.endsBlank (Segment.bodies t) = false := by
    rw [Segment.endsBlank, List.getLast?_eq_some_getLast (Segment.bodies_ne_nil t)]
    exact not_blank_of_named (h _ (List.getLast_mem _))
  rw [Segment.memberBodies, hlast]
  rfl

/-- The text after the comma that ends the last of a number of segments. -/
def leftover? (text : Text) : Nat → Option Text
  | 0 => some text
  | n + 1 => (Segment.segments text)[n]?.bind fun s => text.drop? (s.stop + 1)

theorem isBlank_afterMembers {n : Nat} {text last : Text}
    (hn : ∀ b ∈ (Segment.bodies text).take n, ¬ Nameless b)
    (hlen : n ≤ (Segment.bodies text).length)
    (hup : upcoming n last = (Segment.bodies text).drop n) (hlast : AtComma n last) :
    Trivia.isBlank (afterMembers n last) = true ↔ n = Segment.memberCount text := by
  have hsplit := List.take_append_drop n (Segment.bodies text)
  cases n with
  | zero =>
    have he : last = text := by
      have hb : Segment.bodies last = Segment.bodies text := hup
      rw [← Segment.join_bodies last, hb, Segment.join_bodies]
    rw [he, afterMembers, ← Segment.memberBodies_eq_nil, ← List.length_eq_zero_iff]
    exact eq_comm
  | succ n =>
    rcases hlast (by omega) with rfl | ⟨r, rfl⟩
    · have hdrop : (Segment.bodies text).drop (n + 1) = [] := by rw [← hup]; rfl
      rw [hdrop, List.append_nil] at hsplit
      rw [hsplit] at hn
      have hcount : Segment.memberCount text = n + 1 := by
        rw [Segment.memberCount, memberBodies_of_named hn]
        have := List.drop_eq_nil_iff.1 hdrop
        omega
      simp [hcount, afterMembers, Trivia.isBlank_nil]
    · have hbodies : Segment.bodies text =
          (Segment.bodies text).take (n + 1) ++ Segment.bodies r := by
        rw [upcoming_succ] at hup
        exact hsplit.symm.trans (by rw [← hup, Segment.following])
      have hcount : Segment.memberCount text = n + 1 + Segment.memberCount r := by
        have := Segment.memberBodies_append hbodies
        simp only [Segment.memberCount, this, List.length_append, List.length_take]
        omega
      rw [afterMembers, hcount, ← Segment.memberBodies_eq_nil, Segment.memberCount,
        ← List.length_eq_zero_iff]
      omega

theorem leftover?_of_upcoming {n : Nat} {text last : Text}
    (hup : upcoming n last = (Segment.bodies text).drop n) (hlast : AtComma n last)
    (hlen : n ≤ (Segment.bodies text).length)
    (hne : Trivia.isBlank (afterMembers n last) = false) :
    leftover? text n = some (afterMembers n last) := by
  cases n with
  | zero =>
    have hb : Segment.bodies last = Segment.bodies text := hup
    rw [leftover?, afterMembers, ← Segment.join_bodies last, hb, Segment.join_bodies]
  | succ n =>
    rcases hlast (by omega) with rfl | ⟨r, rfl⟩
    · simp [afterMembers, Trivia.isBlank_nil] at hne
    · have hdrop : (Segment.bodies text).drop (n + 1) = Segment.bodies r := by
        rw [← hup, upcoming_succ, Segment.following]
      have hlt : n + 1 < (Segment.bodies text).length := by
        have hpos := List.length_pos_iff.2 (Segment.bodies_ne_nil r)
        rw [← hdrop, List.length_drop] at hpos
        omega
      have hget : n < (Segment.segments text).length := by
        rw [Segment.length_segments]
        omega
      have hs := List.getElem?_eq_getElem hget
      rw [leftover?, hs, Option.bind_some, Segment.drop?_stop hs hlt, hdrop, Segment.join_bodies,
        afterMembers]

theorem ofText_of_nameless {text b : Text} {values : List α} {i : Nat}
    (h : IsFirst Nameless ((Segment.bodies text).take values.length) i b) :
    ofText text values = .error (.nameless i b) := by
  rw [ofText, fill_of_nameless values.length 0 h, Nat.zero_add]

theorem ofText_of_short {text : Text} {values : List α}
    (hn : ∀ b ∈ Segment.bodies text, ¬ Nameless b)
    (hlen : (Segment.bodies text).length < values.length) :
    ofText text values = .error (.tooFew values.length (Segment.bodies text).length) := by
  rw [ofText, fill_of_short values.length 0 hn hlen, Nat.zero_add]
  rfl

section
variable {text : Text} {values : List α}
  (hn : ∀ b ∈ (Segment.bodies text).take values.length, ¬ Nameless b)
include hn

theorem ofText_of_named (hcount : values.length = Segment.memberCount text) :
    ∃ t, ofText text values = .ok t ∧ t.members.map Member.text = Segment.memberBodies text := by
  have hprefix := Segment.memberBodies_isPrefix_bodies text
  have hlen : values.length ≤ (Segment.bodies text).length := hcount ▸ hprefix.length_le
  obtain ⟨ms, last, hfill, htext, hup, hlast⟩ :=
    fill_of_named values.length 0 hn hlen (by simp [AtComma])
  rw [Nat.zero_add] at hup hlast
  have hblank := (isBlank_afterMembers hn hlen hup hlast).2 hcount
  refine ⟨⟨text, ms⟩, by simp [ofText, hfill, hblank], ?_⟩
  rw [List.prefix_iff_eq_take.1 hprefix, ← Segment.memberCount, ← hcount]
  exact htext

theorem ofText_of_long (hlen : values.length ≤ (Segment.bodies text).length)
    (hcount : values.length ≠ Segment.memberCount text) :
    ∃ rest, leftover? text values.length = some rest ∧
      ofText text values = .error (.tooMany values.length rest) := by
  obtain ⟨ms, last, hfill, -, hup, hlast⟩ :=
    fill_of_named values.length 0 hn hlen (by simp [AtComma])
  rw [Nat.zero_add] at hup hlast
  have hblank : Trivia.isBlank (afterMembers values.length last) = false := by
    rw [← Bool.not_eq_true, isBlank_afterMembers hn hlen hup hlast]
    exact hcount
  exact ⟨_, leftover?_of_upcoming hup hlast hlen hblank, by simp [ofText, hfill, hblank]⟩

end

theorem map_text_take (text : Text) (n : Nat) :
    ((Segment.segments text).take n).map Segment.text = (Segment.bodies text).take n := by
  rw [List.map_take, Segment.map_text_segments]

theorem named_iff {text : Text} {n : Nat} :
    (∀ s ∈ (Segment.segments text).take n, ¬ Nameless s.text) ↔
      ∀ b ∈ (Segment.bodies text).take n, ¬ Nameless b := by
  rw [← map_text_take, List.forall_mem_map]

/-- What the table of a text and values holds: one member for each value, read from the segment
at the same place. -/
structure Holds (text : Text) (values : List α) (t : Table α) : Prop where
  text_eq : t.text = text
  length_eq : t.members.length = values.length
  member : ∀ (i : Nat) (m : Member α), t.members[i]? = some m →
    values[i]? = some m.value ∧ m.index = i ∧ ∃ s : Segment,
      (Segment.segments text)[i]? = some s ∧ m.text = s.text ∧ Name.ofSegment? s.text = some m.name

section
variable {text : Text} {values : List α} {t : Table α}

theorem Holds.values_eq (h : Holds text values t) : t.values = values := by
  apply List.ext_getElem
  · rw [Table.values, List.length_map, h.length_eq]
  · intro i _ hi
    have hlt : i < t.members.length := h.length_eq.symm ▸ hi
    obtain ⟨hv, -⟩ := h.member i _ (List.getElem?_eq_getElem hlt)
    rw [List.getElem?_eq_getElem hi] at hv
    simp only [Table.values, List.getElem_map]
    exact (Option.some.inj hv).symm

theorem Holds.texts_eq (h : Holds text values t) (hlen : values.length = Segment.memberCount text) :
    t.members.map Member.text = Segment.memberBodies text := by
  obtain ⟨rest, hrest⟩ := Segment.memberBodies_isPrefix_bodies text
  apply List.ext_getElem
  · rw [List.length_map, h.length_eq, hlen, Segment.memberCount]
  · intro i hi hi'
    have hlt : i < t.members.length := by simpa using hi
    obtain ⟨-, -, s, hs, htext, -⟩ := h.member i _ (List.getElem?_eq_getElem hlt)
    have hbody : (Segment.bodies text)[i]? = some s.text := by
      rw [← Segment.map_text_segments, List.getElem?_map, hs]
      rfl
    rw [← hrest, List.getElem?_append_left hi', List.getElem?_eq_getElem hi'] at hbody
    rw [List.getElem_map, htext, Option.some.inj hbody]

theorem Holds.name_eq (h : Holds text values t) {m : Member α} (hm : m ∈ t.members) :
    Name.ofSegment? m.text = some m.name := by
  obtain ⟨i, hi⟩ := List.getElem?_of_mem hm
  obtain ⟨-, -, s, -, htext, hname⟩ := h.member i m hi
  rw [htext, hname]

theorem Holds.map_declared_eq {β : Type} {others : List β} {u : Table β} (ht : Holds text values t)
    (hu : Holds text others u) (hlen : values.length = others.length) :
    t.members.map Member.declared = u.members.map Member.declared := by
  apply List.ext_getElem
  · rw [List.length_map, List.length_map, ht.length_eq, hu.length_eq, hlen]
  · intro i hi hi'
    rw [List.length_map] at hi hi'
    obtain ⟨-, hx, s, hs, htext, hname⟩ := ht.member i _ (List.getElem?_eq_getElem hi)
    obtain ⟨-, hx', s', hs', htext', hname'⟩ := hu.member i _ (List.getElem?_eq_getElem hi')
    rw [hs] at hs'
    cases hs'
    rw [List.getElem_map, List.getElem_map, Member.declared, Member.declared, htext, htext', hx, hx',
      Option.some.inj (hname.symm.trans hname')]

/-- The text and the values leave no choice about the table. -/
theorem Holds.unique {u : Table α} (ht : Holds text values t) (hu : Holds text values u) :
    t = u := by
  have hmembers : t.members = u.members := by
    apply List.ext_getElem (ht.length_eq.trans hu.length_eq.symm)
    intro i hi hi'
    obtain ⟨hv, hx, s, hs, htext, hname⟩ := ht.member i _ (List.getElem?_eq_getElem hi)
    obtain ⟨hv', hx', s', hs', htext', hname'⟩ := hu.member i _ (List.getElem?_eq_getElem hi')
    rw [hs] at hs'
    cases hs'
    have hv : t.members[i].value = u.members[i].value := Option.some.inj (hv.symm.trans hv')
    have hn : t.members[i].name = u.members[i].name := Option.some.inj (hname.symm.trans hname')
    cases hm : t.members[i]
    cases hm' : u.members[i]
    rw [hm, hm'] at hv hn
    rw [hm] at hx htext
    rw [hm'] at hx' htext'
    simp only [Member.mk.injEq]
    exact ⟨hv, hn, htext.trans htext'.symm, hx.trans hx'.symm⟩
  cases t
  cases u
  simp only [Table.mk.injEq]
  exact ⟨ht.text_eq.trans hu.text_eq.symm, hmembers⟩

end

/-- The reasons for which a text and values give no table, the earlier one first. -/
inductive Refused (text : Text) (values : List α) : TableError → Prop
  | nameless {i : Nat} {s : Segment}
      (first : IsFirst (fun s => Nameless s.text)
        ((Segment.segments text).take values.length) i s) :
      Refused text values (.nameless i s.text)
  | tooFew (named : ∀ s ∈ (Segment.segments text).take values.length, ¬ Nameless s.text)
      (short : (Segment.segments text).length < values.length) :
      Refused text values (.tooFew values.length (Segment.segments text).length)
  | tooMany {rest : Text}
      (named : ∀ s ∈ (Segment.segments text).take values.length, ¬ Nameless s.text)
      (long : values.length ≤ (Segment.segments text).length)
      (count : values.length ≠ Segment.memberCount text)
      (leftover : leftover? text values.length = some rest) :
      Refused text values (.tooMany values.length rest)

theorem holds_of_texts {text : Text} {values : List α} {t : Table α} (h : ofText text values = .ok t)
    (htext : t.members.map Member.text = Segment.memberBodies text) : Holds text values t := by
  obtain ⟨ht, hv, hi, hn⟩ := ofText_ok h
  refine ⟨ht, by rw [← hv, Table.values, List.length_map], ?_⟩
  intro i m hm
  have hlt : i < t.size := (List.getElem?_eq_some_iff.1 hm).1
  have hindex : (t.members.map Member.index)[i]? = some m.index := by simp [hm]
  have hbody : (Segment.memberBodies text)[i]? = some m.text := by simp [← htext, hm]
  rw [hi, List.getElem?_range hlt] at hindex
  have hseg : ((Segment.segments text).map Segment.text)[i]? = some m.text := by
    rw [Segment.map_text_segments]
    obtain ⟨rest, hrest⟩ := Segment.memberBodies_isPrefix_bodies text
    rw [← hrest, List.getElem?_append_left (List.getElem?_eq_some_iff.1 hbody).1]
    exact hbody
  rw [List.getElem?_map] at hseg
  obtain ⟨s, hs, he⟩ := Option.map_eq_some_iff.1 hseg
  refine ⟨by simp [← hv, Table.values, hm], (Option.some.inj hindex).symm, s, hs, he.symm, ?_⟩
  rw [he]
  exact hn m (List.mem_of_getElem? hm)

theorem named_or_refused (text : Text) (values : List α) :
    (values.length = Segment.memberCount text ∧
      ∀ s ∈ (Segment.segments text).take values.length, ¬ Nameless s.text) ∨
    ∃ e, Refused text values e := by
  by_cases hn : ∀ s ∈ (Segment.segments text).take values.length, ¬ Nameless s.text
  · by_cases hcount : values.length = Segment.memberCount text
    · exact Or.inl ⟨hcount, hn⟩
    · right
      by_cases hlen : values.length ≤ (Segment.segments text).length
      · rw [Segment.length_segments] at hlen
        obtain ⟨rest, hrest, -⟩ := ofText_of_long (named_iff.1 hn) hlen hcount
        exact ⟨_, .tooMany hn (by rwa [Segment.length_segments]) hcount hrest⟩
      · exact ⟨_, .tooFew hn (by omega)⟩
  · right
    simp only [not_forall, not_not] at hn
    obtain ⟨s, hs, hname⟩ := hn
    obtain ⟨i, b, hfirst⟩ : ∃ i b, IsFirst (fun s : Segment => Nameless s.text) _ i b :=
      IsFirst.exists_of_mem hs hname
    exact ⟨_, .nameless hfirst⟩

theorem ofText_of_refused {text : Text} {values : List α} {e : TableError}
    (h : Refused text values e) : ofText text values = .error e := by
  cases h with
  | nameless first =>
    apply ofText_of_nameless
    rw [← map_text_take]
    exact first.map
  | tooFew named short =>
    rw [Segment.length_segments] at short ⊢
    apply ofText_of_short _ short
    intro b hb
    apply named_iff.1 named
    rwa [List.take_of_length_le (Nat.le_of_lt short)]
  | tooMany named long count leftover =>
    rw [Segment.length_segments] at long
    obtain ⟨rest, hrest, h⟩ := ofText_of_long (named_iff.1 named) long count
    rw [leftover] at hrest
    cases hrest
    exact h

theorem holds_of_ofText {text : Text} {values : List α} {t : Table α}
    (h : ofText text values = .ok t) : Holds text values t := by
  rcases named_or_refused text values with ⟨hcount, hn⟩ | ⟨e, he⟩
  · obtain ⟨u, hu, htext⟩ := ofText_of_named (named_iff.1 hn) hcount
    rw [h] at hu
    cases hu
    exact holds_of_texts h htext
  · rw [ofText_of_refused he] at h
    cases h

/-- The outcome of building a table, for every text and all values. -/
theorem ofText_outcome (text : Text) (values : List α) :
    ((∃ t, ofText text values = .ok t) ↔ values.length = Segment.memberCount text ∧
      ∀ s ∈ (Segment.segments text).take values.length, ¬ Nameless s.text) ∧
    (∀ t, ofText text values = .ok t → Holds text values t) ∧
    (∀ e, ofText text values = .error e ↔ Refused text values e) := by
  rcases named_or_refused text values with ⟨hcount, hn⟩ | ⟨e, he⟩
  · obtain ⟨t, ht, htext⟩ := ofText_of_named (named_iff.1 hn) hcount
    refine ⟨⟨fun _ => ⟨hcount, hn⟩, fun _ => ⟨t, ht⟩⟩, ?_, ?_⟩
    · intro u hu
      rw [ht] at hu
      cases hu
      exact holds_of_texts ht htext
    · intro e
      rw [ht]
      constructor
      · intro h
        cases h
      · intro h
        rw [ofText_of_refused h] at ht
        cases ht
  · have hno := ofText_of_refused he
    refine ⟨⟨?_, ?_⟩, ?_, ?_⟩
    · rintro ⟨t, ht⟩
      rw [hno] at ht
      cases ht
    · rintro ⟨hcount, hn⟩
      obtain ⟨t, ht, -⟩ := ofText_of_named (named_iff.1 hn) hcount
      exact ⟨t, ht⟩
    · intro t ht
      rw [hno] at ht
      cases ht
    · intro e'
      rw [hno]
      constructor
      · intro h
        cases h
        exact he
      · intro h
        rw [ofText_of_refused h] at hno
        cases hno
        rfl

end EnumReflection.Table
