import EnumReflection.Proofs.Table.Cell
import Mathlib.Algebra.Ring.Nat
import Mathlib.Data.Set.List
import Mathlib.Logic.Relation

/-!
# Accesses that compete for a table

Accesses to a deferred table may overlap, and each makes its steps at the cell in which the table is
kept. However the steps of the accesses are interleaved, all accesses return, and they end with what
the same number of accesses one after the other get.
-/
namespace EnumReflection.DeferredTable

variable {α : Type}

/-- The table that a build makes of the source, or the reason why there is none. -/
def result (s : Source α) : Except TableError (Table α) := Table.ofText s.text s.values

structure Contest (α : Type) where
  table : DeferredTable α
  accesses : List (Access α)

namespace Contest

/-- One step of one access. The build reads the source, and each access that starts one is
counted. -/
inductive Step (step : CellStep α) : Contest α → Contest α → Prop
  | access {d : DeferredTable α} {l r : List (Access α)} {a b : Access α}
      {cell : Option (Table α)} : step (result d.source) (l ++ r) d.cell a cell b →
      Step step ⟨d, l ++ a :: r⟩
        ⟨{ d with cell := cell, builds := d.builds + b.isBuilding.toNat }, l ++ b :: r⟩

abbrev Steps (step : CellStep α) : Contest α → Contest α → Prop :=
  Relation.ReflTransGen (Step step)

def ofCalls (n : Nat) (d : DeferredTable α) : Contest α := ⟨d, List.replicate n .called⟩

def ofAnswers (d : DeferredTable α) (answers : List (Except TableError (Table α))) : Contest α :=
  ⟨d, answers.map .returned⟩

end Contest

theorem get_of_ok {d : DeferredTable α} {t : Table α} (hcell : d.cell = none)
    (h : result d.source = .ok t) :
    d.get = (.ok t, { d with cell := some t, builds := d.builds + 1 }) := by
  rw [result] at h
  simp only [get, hcell, h]

theorem get_of_error {d : DeferredTable α} {e : TableError} (hcell : d.cell = none)
    (h : result d.source = .error e) :
    d.get = (.error e, { d with builds := d.builds + 1 }) := by
  rw [result] at h
  simp only [get, hcell, h]

theorem race_succ (n : Nat) (d : DeferredTable α) :
    race (n + 1) d = (d.get.1 :: (race n d.get.2).1, (race n d.get.2).2) := rfl

theorem race_of_cell {d : DeferredTable α} {t : Table α} (h : d.cell = some t) (n : Nat) :
    race n d = (List.replicate n (.ok t), d) := by
  induction n with
  | zero => rfl
  | succ n ih => rw [race_succ, get_of_cell h, ih, List.replicate_succ]

theorem race_of_ok {d : DeferredTable α} {t : Table α} (hcell : d.cell = none)
    (h : result d.source = .ok t) (n : Nat) :
    race (n + 1) d =
      (List.replicate (n + 1) (.ok t), { d with cell := some t, builds := d.builds + 1 }) := by
  rw [race_succ, get_of_ok hcell h, race_of_cell rfl, List.replicate_succ]

theorem race_of_error {d : DeferredTable α} {e : TableError} (hcell : d.cell = none)
    (h : result d.source = .error e) (n : Nat) :
    race n d = (List.replicate n (.error e), { d with builds := d.builds + n }) := by
  induction n generalizing d with
  | zero => rfl
  | succ n ih =>
    have hrest := ih (d := { d with builds := d.builds + 1 }) hcell h
    rw [race_succ, get_of_error hcell h, hrest, List.replicate_succ, Nat.add_assoc,
      Nat.add_comm 1 n]

namespace Contest

/-- Where the accesses to a table can stand. While there is no table, those that have returned
failed, and one at most builds; once there is one, nobody builds any more. -/
inductive Stands (d : DeferredTable α) : Contest α → Prop
  | unbuilt {as : List (Access α)} (cell : d.cell = none)
      (failed : ∀ answer, .returned answer ∈ as → ∃ e, answer = .error e ∧
        result d.source = .error e)
      (alone : as.countP Access.isBuilding ≤ 1) :
      Stands d ⟨{ d with builds := d.builds + as.countP Access.hasStarted }, as⟩
  | built {as : List (Access α)} {t : Table α} (get : d.get = (.ok t, d.get.2))
      (answers : ∀ answer, .returned answer ∈ as → answer = .ok t) (idle : .building ∉ as)
      (accessed : d.cell = none → as ≠ []) : Stands d ⟨d.get.2, as⟩

theorem stands_ofCalls (n : Nat) (d : DeferredTable α) : Stands d (ofCalls n d) := by
  cases hcell : d.cell with
  | none =>
    have hcount : (List.replicate n (Access.called (α := α))).countP Access.hasStarted = 0 := by
      simp [List.countP_replicate, Access.hasStarted]
    have hstands : Stands d ⟨{ d with builds := d.builds + (List.replicate n
        (Access.called (α := α))).countP Access.hasStarted }, List.replicate n .called⟩ := by
      refine .unbuilt hcell ?_ ?_
      · intro answer h
        simp at h
      · simp [List.countP_replicate, Access.isBuilding]
    rwa [hcount] at hstands
  | some t =>
    have hget := get_of_cell hcell
    have hstands : Stands d ⟨d.get.2, List.replicate n .called⟩ := by
      refine .built (t := t) (by rw [hget]) ?_ ?_ ?_
      · intro answer h
        simp at h
      · simp
      · intro hnone
        rw [hcell] at hnone
        cases hnone
    rwa [hget] at hstands

theorem countP_middle (p : Access α → Bool) (l r : List (Access α)) (a : Access α) :
    (l ++ a :: r).countP p = (l ++ r).countP p + (p a).toNat := by
  rw [List.countP_append, List.countP_cons, List.countP_append, ← Nat.add_assoc]
  cases p a <;> rfl

theorem mem_middle {l r : List (Access α)} {x a : Access α} (b : Access α)
    (h : x ∈ l ++ a :: r) : x = a ∨ x ∈ l ++ b :: r := by
  simp only [List.mem_append, List.mem_cons] at h ⊢
  tauto

theorem answers_middle {p : Except TableError (Table α) → Prop} {l r : List (Access α)}
    {a b : Access α} (h : ∀ answer, .returned answer ∈ l ++ a :: r → p answer)
    (hb : ∀ answer, .returned answer = b → p answer) :
    ∀ answer, .returned answer ∈ l ++ b :: r → p answer := by
  intro answer hmem
  rcases mem_middle a hmem with he | hmem
  · exact hb answer he
  · exact h answer hmem

/-- A step that finds no table and leaves none is counted if a build starts with it. -/
theorem Stands.unbuilt_middle {d : DeferredTable α} {l r : List (Access α)} {a b : Access α}
    (cell : d.cell = none)
    (failed : ∀ answer, .returned answer ∈ l ++ a :: r → ∃ e, answer = .error e ∧
      result d.source = .error e)
    (hb : ∀ answer, .returned answer = b → ∃ e, answer = .error e ∧ result d.source = .error e)
    (alone : (l ++ r).countP Access.isBuilding + b.isBuilding.toNat ≤ 1)
    (started : b.hasStarted.toNat = a.hasStarted.toNat + b.isBuilding.toNat) :
    Stands d ⟨{ d with builds := d.builds + (l ++ a :: r).countP Access.hasStarted +
      b.isBuilding.toNat }, l ++ b :: r⟩ := by
  have hbuilds : d.builds + (l ++ a :: r).countP Access.hasStarted + b.isBuilding.toNat =
      d.builds + (l ++ b :: r).countP Access.hasStarted := by
    rw [countP_middle, countP_middle]
    omega
  rw [hbuilds]
  exact .unbuilt cell (answers_middle failed hb) (by rwa [countP_middle])

theorem count_building {as : List (Access α)} :
    as.countP Access.isBuilding = 0 ↔ .building ∉ as := by
  rw [List.countP_eq_zero]
  constructor
  · intro h hmem
    exact h _ hmem rfl
  · intro h a ha hb
    cases a with
    | building => exact h ha
    | called => cases hb
    | waiting => cases hb
    | returned answer => cases hb

theorem count_started {as : List (Access α)} (h : ∀ answer, .returned answer ∉ as) :
    as.countP Access.hasStarted = as.countP Access.isBuilding := by
  apply List.countP_congr
  intro a ha
  cases a with
  | returned answer => exact absurd ha (h answer)
  | called => rfl
  | waiting => rfl
  | building => rfl

theorem length_of_steps {step : CellStep α} {c c' : Contest α} (h : Steps step c c') :
    c'.accesses.length = c.accesses.length := by
  induction h with
  | refl => rfl
  | tail _ hstep ih =>
    rw [← ih]
    cases hstep with
    | access _ => simp

theorem eq_replicate {answers : List (Except TableError (Table α))} {n : Nat}
    {answer : Except TableError (Table α)} (hlen : answers.length = n)
    (h : ∀ a ∈ answers, a = answer) : answers = List.replicate n answer :=
  List.eq_replicate_iff.2 ⟨hlen, h⟩

section
variable {step : CellStep α} (once : InitializesOnce step)
include once

theorem Stands.step_unbuilt {d : DeferredTable α} {as : List (Access α)} {c : Contest α}
    (cell : d.cell = none)
    (failed : ∀ answer, .returned answer ∈ as → ∃ e, answer = .error e ∧
      result d.source = .error e)
    (alone : as.countP Access.isBuilding ≤ 1)
    (hstep : Step step ⟨{ d with builds := d.builds + as.countP Access.hasStarted }, as⟩ c) :
    Stands d c := by
  obtain @⟨_, l, r, a, b, _, h⟩ := hstep
  rw [countP_middle] at alone
  cases once.move h with
  | find hfound _ =>
    rw [cell] at hfound
    cases hfound
  | miss _ => exact .unbuilt_middle cell failed (fun _ he => by cases he) alone rfl
  | start _ ha hidle =>
    refine .unbuilt_middle cell failed (fun _ he => by cases he) ?_ ?_
    · rw [count_building.2 hidle]
      exact Nat.le_refl 1
    · rcases ha with rfl | rfl
      · rfl
      · rfl
  | @finish t hresult =>
    have hnone : ∀ answer, .returned answer ∉ l ++ .building :: r := by
      intro answer h
      obtain ⟨e, -, he⟩ := failed answer h
      rw [hresult] at he
      cases he
    have hidle : (l ++ r).countP Access.isBuilding = 0 :=
      Nat.le_zero.1 (Nat.le_of_succ_le_succ alone)
    have hget := get_of_ok cell hresult
    have hafter : { d with
        cell := some t
        builds := d.builds + (l ++ .building :: r).countP Access.hasStarted } = d.get.2 := by
      rw [count_started hnone, countP_middle, hidle, hget]
      rfl
    change Stands d ⟨{ d with
      cell := some t
      builds := d.builds + (l ++ .building :: r).countP Access.hasStarted }, _⟩
    rw [hafter]
    refine .built (t := t) (by rw [hget]) (answers_middle (fun _ h => absurd h (hnone _)) ?_) ?_
      (by simp)
    · rintro answer ⟨⟩
      rfl
    · rw [← count_building, countP_middle, hidle]
      rfl
  | @fail e hresult =>
    refine .unbuilt_middle cell failed ?_ (Nat.le_of_add_right_le alone) rfl
    rintro answer ⟨⟩
    exact ⟨e, rfl, hresult⟩

theorem Stands.step_built {d : DeferredTable α} {as : List (Access α)} {t : Table α} {c : Contest α}
    (get : d.get = (.ok t, d.get.2)) (answers : ∀ answer, .returned answer ∈ as → answer = .ok t)
    (idle : .building ∉ as) (hstep : Step step ⟨d.get.2, as⟩ c) : Stands d c := by
  have hcell : d.get.2.cell = some t := cell_get (by rw [get])
  generalize hd : d.get.2 = d' at hstep hcell
  obtain @⟨_, l, r, a, _, _, h⟩ := hstep
  cases once.move h with
  | @find _ u hfound _ =>
    rw [hcell] at hfound
    cases hfound
    rw [← hd]
    refine .built get (answers_middle answers ?_) ?_ (by simp)
    · rintro answer ⟨⟩
      rfl
    · intro h
      rcases mem_middle a h with he | h
      · cases he
      · exact idle h
  | miss hmissing =>
    rw [hcell] at hmissing
    cases hmissing
  | start hmissing _ _ =>
    rw [hcell] at hmissing
    cases hmissing
  | finish _ => exact absurd (by simp) idle
  | fail _ => exact absurd (by simp) idle

/-- Every step leaves the accesses where they can stand. -/
theorem Stands.of_step {d : DeferredTable α} {c c' : Contest α} (h : Stands d c)
    (hstep : Step step c c') : Stands d c' := by
  cases h with
  | unbuilt cell failed alone => exact step_unbuilt once cell failed alone hstep
  | built get answers idle _ => exact step_built once get answers idle hstep

theorem stands_of_steps {n : Nat} {d : DeferredTable α} {c : Contest α}
    (h : Steps step (ofCalls n d) c) : Stands d c := by
  induction h with
  | refl => exact stands_ofCalls n d
  | tail _ hstep ih => exact ih.of_step once hstep

/-- However the steps of competing accesses are interleaved, the accesses end as if they had come
one after the other. -/
theorem race_of_steps {n : Nat} {d d' : DeferredTable α}
    {answers : List (Except TableError (Table α))}
    (h : Steps step (ofCalls n d) (ofAnswers d' answers)) : race n d = (answers, d') := by
  have hlen : answers.length = n := by
    have := length_of_steps h
    simpa [ofCalls, ofAnswers] using this
  have hstands := stands_of_steps once h
  generalize hc : ofAnswers d' answers = c at hstands
  cases hstands with
  | @unbuilt as cell failed alone =>
    obtain ⟨rfl, rfl⟩ := Contest.mk.inj hc
    have hcount : (answers.map Access.returned).countP Access.hasStarted = n := by
      rw [← hlen, List.countP_map]
      exact List.countP_eq_length.2 fun _ _ => rfl
    rw [hcount]
    cases answers with
    | nil =>
      subst hlen
      rfl
    | cons a answers =>
      obtain ⟨e, rfl, he⟩ := failed a (by simp)
      rw [race_of_error cell he]
      congr 1
      symm
      apply eq_replicate hlen
      intro b hb
      obtain ⟨e', rfl, he'⟩ := failed b (List.mem_map_of_mem hb)
      rw [he] at he'
      cases he'
      rfl
  | @built as t get same idle accessed =>
    obtain ⟨rfl, rfl⟩ := Contest.mk.inj hc
    have hanswers : answers = List.replicate n (.ok t) :=
      eq_replicate hlen fun a ha => same a (List.mem_map_of_mem ha)
    rw [hanswers]
    cases hcell : d.cell with
    | some u =>
      rw [race_of_cell hcell, get_of_cell hcell]
      rw [get_of_cell hcell] at get
      cases get
      rfl
    | none =>
      obtain ⟨k, rfl⟩ : ∃ k, n = k + 1 := by
        cases answers with
        | nil => exact absurd rfl (accessed hcell)
        | cons a answers => exact ⟨answers.length, hlen.symm⟩
      cases hresult : result d.source with
      | ok u =>
        rw [race_of_ok hcell hresult, get_of_ok hcell hresult]
        rw [get_of_ok hcell hresult] at get
        cases get
        rfl
      | error e =>
        rw [get_of_error hcell hresult] at get
        cases get

def work (c : Contest α) : Nat := (c.accesses.map Access.work).sum

theorem work_lt_of_step {c c' : Contest α} (h : Step step c c') : c'.work < c.work := by
  have hmiddle (d : DeferredTable α) (l r : List (Access α)) (a : Access α) :
      work ⟨d, l ++ a :: r⟩ = (l.map Access.work).sum + (a.work + (r.map Access.work).sum) := by
    rw [work, List.map_append, List.sum_append, List.map_cons, List.sum_cons]
  cases h with
  | access h =>
    have honward := once.onward h
    rw [hmiddle, hmiddle]
    omega

theorem exists_step {c : Contest α} {a : Access α} (ha : a ∈ c.accesses)
    (hreturned : ∀ answer, a ≠ .returned answer) : ∃ c', Step step c c' := by
  obtain ⟨d, as⟩ := c
  by_cases hbuilding : .building ∈ as
  · obtain ⟨l, r, rfl⟩ := List.append_of_mem hbuilding
    obtain ⟨cell, b, h⟩ : ∃ cell b, step (result d.source) (l ++ r) d.cell .building cell b :=
      once.proceeds (by simp) (.inl rfl)
    exact ⟨_, .access h⟩
  · obtain ⟨l, r, rfl⟩ := List.append_of_mem ha
    have hidle : .building ∉ l ++ r := fun h => hbuilding (by
      rw [List.mem_append] at h ⊢
      exact h.imp_right (List.mem_cons_of_mem a))
    obtain ⟨cell, b, h⟩ : ∃ cell b, step (result d.source) (l ++ r) d.cell a cell b :=
      once.proceeds hreturned (.inr hidle)
    exact ⟨_, .access h⟩

/-- A contest can be brought to its end from wherever it stands. -/
theorem exists_answers (c : Contest α) : ∃ d answers, Steps step c (ofAnswers d answers) := by
  induction hwork : c.work using Nat.strongRecOn generalizing c with
  | ind n ih =>
    by_cases hover : ∀ a ∈ c.accesses, a ∈ Set.range Access.returned
    · obtain ⟨answers, hanswers⟩ : c.accesses ∈ Set.range (List.map Access.returned) := by
        rw [Set.range_list_map]
        exact hover
      refine ⟨c.table, answers, ?_⟩
      rw [ofAnswers, hanswers]
    · push Not at hover
      obtain ⟨a, ha, hreturned⟩ := hover
      obtain ⟨c', hstep⟩ := exists_step once ha fun answer h => hreturned ⟨answer, h.symm⟩
      have hlt := work_lt_of_step once hstep
      rw [hwork] at hlt
      obtain ⟨d, answers, hsteps⟩ := ih _ hlt c' rfl
      exact ⟨d, answers, hsteps.head hstep⟩

end

end Contest

end EnumReflection.DeferredTable
