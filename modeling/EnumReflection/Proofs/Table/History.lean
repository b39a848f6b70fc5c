import EnumReflection.Proofs.Table.FirstUse

/-!
# Histories of a deferred table

A history lists what was asked of a deferred table, with the answers: sources were replaced,
tables were got, also by accesses that compete, and the question was put whether the table is
built. At most one build of a history succeeds. Its table is what all later accesses return, and
every access before it failed on the source of its own moment.
-/
namespace EnumReflection.DeferredTable

open Contest

variable {α : Type}

inductive Operation (α : Type)
  | replace (s : Source α)
  | get
  | contest (n : Nat)
  | ask
  deriving DecidableEq, Repr

/-- An operation with what came out of it. -/
inductive Event (α : Type)
  | replaced (s : Source α)
  | got (answer : Except TableError (Table α))
  | contested (answers : List (Except TableError (Table α)))
  | asked (built : Bool)

namespace Event

def operation : Event α → Operation α
  | .replaced s => .replace s
  | .got _ => .get
  | .contested answers => .contest answers.length
  | .asked _ => .ask

def answers : Event α → List (Except TableError (Table α))
  | .got answer => [answer]
  | .contested answers => answers
  | .replaced _ | .asked _ => []

def source (s : Source α) : Event α → Source α
  | .replaced s' => s'
  | .got _ | .contested _ | .asked _ => s

end Event

def answers (es : List (Event α)) : List (Except TableError (Table α)) := es.flatMap Event.answers

def sourceAfter (s : Source α) (es : List (Event α)) : Source α := es.foldl Event.source s

/-- One event. The steps of accesses that compete may be interleaved in any way. -/
inductive Happens (step : CellStep α) : DeferredTable α → Event α → DeferredTable α → Prop
  | replaced (d : DeferredTable α) (s : Source α) : Happens step d (.replaced s) (d.replace s)
  | got (d : DeferredTable α) : Happens step d (.got d.get.1) d.get.2
  | contested {n : Nat} {d d' : DeferredTable α} {answers : List (Except TableError (Table α))}
      (h : Steps step (ofCalls n d) (ofAnswers d' answers)) : Happens step d (.contested answers) d'
  | asked (d : DeferredTable α) : Happens step d (.asked d.isInitialized) d

inductive Run (step : CellStep α) : DeferredTable α → List (Event α) → DeferredTable α → Prop
  | nil (d : DeferredTable α) : Run step d [] d
  | cons {d d' d'' : DeferredTable α} {e : Event α} {es : List (Event α)} (h : Happens step d e d')
      (rest : Run step d' es d'') : Run step d (e :: es) d''

variable {step : CellStep α}

theorem run_append {before after : List (Event α)} {d d'' : DeferredTable α} :
    Run step d (before ++ after) d'' ↔
      ∃ d', Run step d before d' ∧ Run step d' after d'' := by
  constructor
  · intro h
    induction before generalizing d with
    | nil => exact ⟨d, .nil d, h⟩
    | cons e before ih =>
      cases h with
      | cons he rest =>
        obtain ⟨d', hbefore, hafter⟩ := ih rest
        exact ⟨d', .cons he hbefore, hafter⟩
  · rintro ⟨d', hbefore, hafter⟩
    induction hbefore with
    | nil => exact hafter
    | cons he _ ih => exact .cons he (ih hafter)

/-- An event is a number of accesses, one after the other, to the source that is then current. -/
theorem Happens.race (once : InitializesOnce step) {d d' : DeferredTable α} {e : Event α}
    (h : Happens step d e d') :
    ∃ n, race n { d with source := e.source d.source } = (e.answers, d') := by
  cases h with
  | replaced d s => exact ⟨0, rfl⟩
  | got d => exact ⟨1, rfl⟩
  | @contested n d d' answers h => exact ⟨n, race_of_steps once h⟩
  | asked d => exact ⟨0, rfl⟩

theorem exists_event (once : InitializesOnce step) (d : DeferredTable α) (o : Operation α) :
    ∃ e d', Happens step d e d' ∧ e.operation = o := by
  cases o with
  | replace s => exact ⟨_, _, .replaced d s, rfl⟩
  | get => exact ⟨_, _, .got d, rfl⟩
  | contest n =>
    obtain ⟨d', answers, h⟩ := exists_answers once (ofCalls n d)
    have hlen : answers.length = n := by
      have := length_of_steps h
      simpa [ofCalls, ofAnswers] using this
    exact ⟨_, _, .contested h, congrArg Operation.contest hlen⟩
  | ask => exact ⟨_, _, .asked d, rfl⟩

theorem exists_run (once : InitializesOnce step) (d : DeferredTable α)
    (ops : List (Operation α)) :
    ∃ es d', Run step d es d' ∧ es.map Event.operation = ops := by
  induction ops generalizing d with
  | nil => exact ⟨[], d, .nil d, rfl⟩
  | cons o ops ih =>
    obtain ⟨e, d₁, he, rfl⟩ := exists_event once d o
    obtain ⟨es, d₂, hes, rfl⟩ := ih d₁
    exact ⟨e :: es, d₂, .cons he hes, rfl⟩

theorem cell_get_iff (d : DeferredTable α) (t : Table α) :
    d.get.2.cell = some t ↔ d.cell = some t ∨ .ok t = d.get.1 := by
  cases hcell : d.cell with
  | some u => simp [get_of_cell hcell, hcell, eq_comm]
  | none =>
    cases hresult : result d.source with
    | ok u => simp [get_of_ok hcell hresult, eq_comm]
    | error err => simp [get_of_error hcell hresult, hcell]

theorem builds_get (d : DeferredTable α) :
    d.get.2.builds + d.isInitialized.toNat =
      d.builds + (!d.get.1.isOk).toNat + d.get.2.isInitialized.toNat := by
  cases hcell : d.cell with
  | some u => rw [get_of_cell hcell]; rfl
  | none =>
    cases hresult : result d.source with
    | ok u => simp [get_of_ok hcell hresult, isInitialized, hcell, Except.isOk, Except.toBool]
    | error err =>
      simp [get_of_error hcell hresult, isInitialized, hcell, Except.isOk, Except.toBool]

theorem source_race (n : Nat) (d : DeferredTable α) : (race n d).2.source = d.source := by
  induction n generalizing d with
  | zero => rfl
  | succ n ih => rw [race_succ, ih, source_get]

theorem mem_race_of_none {n : Nat} {d : DeferredTable α} {a : Except TableError (Table α)}
    (hcell : d.cell = none) (ha : a ∈ (race n d).1) : a = result d.source := by
  cases hresult : result d.source with
  | error err =>
    rw [race_of_error hcell hresult] at ha
    exact List.eq_of_mem_replicate ha
  | ok t =>
    cases n with
    | zero => exact absurd ha List.not_mem_nil
    | succ n =>
      rw [race_of_ok hcell hresult] at ha
      exact List.eq_of_mem_replicate ha

theorem cell_race_iff (n : Nat) (d : DeferredTable α) (t : Table α) :
    (race n d).2.cell = some t ↔ d.cell = some t ∨ .ok t ∈ (race n d).1 := by
  induction n generalizing d with
  | zero => simp [race]
  | succ n ih => rw [race_succ, ih, cell_get_iff, List.mem_cons, or_assoc]

theorem builds_race (n : Nat) (d : DeferredTable α) :
    (race n d).2.builds + d.isInitialized.toNat =
      d.builds + (race n d).1.countP (fun answer => !answer.isOk) +
        (race n d).2.isInitialized.toNat := by
  induction n generalizing d with
  | zero => rfl
  | succ n ih =>
    have hfirst := builds_get d
    have hrest := ih d.get.2
    have hcount (a : Except TableError (Table α)) (as : List (Except TableError (Table α))) :
        (a :: as).countP (fun answer => !answer.isOk) =
          as.countP (fun answer => !answer.isOk) + (!a.isOk).toNat := by
      rw [List.countP_cons]
      cases a.isOk <;> rfl
    rw [race_succ]
    simp only [hcount]
    omega

/-- A deferred table is where its history says: the source is the last one, the cell has the
table that was returned, and every build but the last failed and was answered. -/
structure Tracks (s : Source α) (es : List (Event α)) (d : DeferredTable α) : Prop where
  source : d.source = sourceAfter s es
  cell : ∀ t, d.cell = some t ↔ .ok t ∈ answers es
  builds : d.builds = (answers es).countP (fun answer => !answer.isOk) + d.isInitialized.toNat

theorem tracks_ofSource (s : Source α) : Tracks s [] (ofSource s) :=
  ⟨rfl, fun t => by simp [ofSource, answers], rfl⟩

theorem sourceAfter_concat (s : Source α) (es : List (Event α)) (e : Event α) :
    sourceAfter s (es ++ [e]) = e.source (sourceAfter s es) := by
  rw [sourceAfter, List.foldl_append]
  rfl

theorem answers_append (before after : List (Event α)) :
    answers (before ++ after) = answers before ++ answers after := List.flatMap_append

theorem answers_concat (es : List (Event α)) (e : Event α) :
    answers (es ++ [e]) = answers es ++ e.answers := by
  rw [answers_append, answers, answers, List.flatMap_singleton]

theorem source_of_mem {a : Except TableError (Table α)} {e : Event α} (ha : a ∈ e.answers)
    (s : Source α) : e.source s = s := by
  cases e with
  | replaced s' => exact absurd ha List.not_mem_nil
  | got answer => rfl
  | contested answers => rfl
  | asked built => rfl

variable {s : Source α} {es : List (Event α)} {e : Event α} {d d' : DeferredTable α}

theorem Tracks.cell_eq_none (h : Tracks s es d) (hnone : ∀ t, .ok t ∉ answers es) :
    d.cell = none :=
  Option.eq_none_iff_forall_ne_some.2 fun t ht => hnone t ((h.cell t).1 ht)

theorem Tracks.isInitialized_iff (h : Tracks s es d) :
    d.isInitialized = true ↔ ∃ t, .ok t ∈ answers es := by
  rw [isInitialized, Option.isSome_iff_exists]
  exact exists_congr h.cell

theorem Tracks.answer_of_unbuilt (once : InitializesOnce step) (h : Tracks s es d)
    (he : Happens step d e d')
    (hnone : ∀ t, .ok t ∉ answers es) {a : Except TableError (Table α)} (ha : a ∈ e.answers) :
    a = result (sourceAfter s es) := by
  obtain ⟨n, hrace⟩ := he.race once
  rw [source_of_mem ha, h.source] at hrace
  have hmem : a ∈ (race n { d with source := sourceAfter s es }).1 := by rwa [hrace]
  exact mem_race_of_none (d := { d with source := sourceAfter s es }) (h.cell_eq_none hnone) hmem

theorem Tracks.answer_of_built (once : InitializesOnce step) (h : Tracks s es d)
    (he : Happens step d e d') {t : Table α}
    (ht : .ok t ∈ answers es) {a : Except TableError (Table α)} (ha : a ∈ e.answers) :
    a = .ok t := by
  obtain ⟨n, hrace⟩ := he.race once
  rw [race_of_cell (by exact (h.cell t).2 ht), Prod.mk.injEq] at hrace
  rw [← hrace.1] at ha
  exact List.eq_of_mem_replicate ha

/-- An event keeps what the history tells. -/
theorem Tracks.concat (once : InitializesOnce step) (h : Tracks s es d)
    (he : Happens step d e d') : Tracks s (es ++ [e]) d' := by
  obtain ⟨n, hrace⟩ := he.race once
  rw [h.source, ← sourceAfter_concat] at hrace
  have hsource := source_race n { d with source := sourceAfter s (es ++ [e]) }
  have hcell := cell_race_iff n { d with source := sourceAfter s (es ++ [e]) }
  have hbuilds := builds_race n { d with source := sourceAfter s (es ++ [e]) }
  rw [hrace] at hsource hcell hbuilds
  refine ⟨hsource, fun t => ?_, ?_⟩
  · rw [answers_concat, List.mem_append, ← h.cell]
    exact hcell t
  · have hbefore := h.builds
    simp only [isInitialized] at hbefore hbuilds ⊢
    rw [answers_concat, List.countP_append]
    omega

theorem Tracks.run (once : InitializesOnce step) {before : List (Event α)}
    (h : Tracks s before d) (hrun : Run step d es d') : Tracks s (before ++ es) d' := by
  induction hrun generalizing before with
  | nil => rwa [List.append_nil]
  | @cons _ _ _ e es he _ ih =>
    have := ih (h.concat once he)
    rwa [List.append_assoc] at this

/-- What a history shows of a deferred table, and where it leaves it. -/
structure Faithful (step : CellStep α) (s : Source α) (es : List (Event α))
    (d : DeferredTable α) : Prop where
  /-- The table is said to be built exactly if an access returned one. -/
  asked : ∀ before built after, es = before ++ .asked built :: after →
    (built = true ↔ ∃ t, .ok t ∈ answers before)
  /-- Until one succeeds, accesses are answered what the current source gives. -/
  first : ∀ before e after, es = before ++ e :: after → (∀ t, .ok t ∉ answers before) →
    ∀ answer ∈ e.answers, answer = result (sourceAfter s before)
  /-- From the first success on, accesses return its table. -/
  later : ∀ before e after t, es = before ++ e :: after → .ok t ∈ answers before →
    ∀ answer ∈ e.answers, answer = .ok t
  /-- Accesses that compete either all return one table or all fail. -/
  together : ∀ before as after, es = before ++ .contested as :: after →
    (∃ t, ∀ answer ∈ as, answer = .ok t) ∨ ∃ err, ∀ answer ∈ as, answer = .error err
  /-- An access that finds no table and a malformed source fails and leaves none. -/
  malformed : ∀ before e err, es = before ++ [e] → (∀ t, .ok t ∉ answers before) →
    result (sourceAfter s before) = .error err →
    (∀ answer ∈ e.answers, answer = .error err) ∧ d.cell = none
  /-- A table is left exactly if it was returned. -/
  cell : ∀ t, d.cell = some t ↔ .ok t ∈ answers es
  /-- Every build but the one that made the table was answered with a failure. -/
  builds : d.builds = (answers es).countP (fun answer => !answer.isOk) + d.isInitialized.toNat
  /-- While accesses compete, there is no table or the one that all of them return. -/
  during : ∀ n c, Steps step (ofCalls n d) c → c.table.cell = d.cell ∨
    d.cell = none ∧ ∃ t, result (sourceAfter s es) = .ok t ∧ c.table.cell = some t
  /-- Accesses that compete end as if they had come one after the other. -/
  inTurn : ∀ n d' answers, Steps step (ofCalls n d) (ofAnswers d' answers) →
    race n d = (answers, d')

/-- At every moment of a contest there is the table of before or the one that the source gives. -/
theorem cell_of_steps (once : InitializesOnce step) {n : Nat} {c : Contest α}
    (h : Steps step (ofCalls n d) c) :
    c.table.cell = d.cell ∨
      d.cell = none ∧ ∃ t, result d.source = .ok t ∧ c.table.cell = some t := by
  cases stands_of_steps once h with
  | unbuilt cell _ _ => exact .inl rfl
  | @built _ t get _ _ _ =>
    have hafter : d.get.2.cell = some t := cell_get (by rw [get])
    cases hcell : d.cell with
    | some u => rw [get_of_cell hcell]; exact .inl hcell
    | none =>
      cases hresult : result d.source with
      | ok u =>
        rw [get_of_ok hcell hresult] at get hafter ⊢
        exact .inr ⟨rfl, u, rfl, rfl⟩
      | error err =>
        rw [get_of_error hcell hresult] at get
        cases get

/-- A deferred table in a cell that is initialized once shows of its history at most one successful
build, whose table all accesses return from then on, and every list of operations has a history. -/
theorem history_faithful (once : InitializesOnce step) (s : Source α) :
    (∀ es d, Run step (ofSource s) es d → Faithful step s es d) ∧
      ∀ ops, ∃ es d, Run step (ofSource s) es d ∧ es.map Event.operation = ops := by
  refine ⟨fun es d hrun => ?_, exists_run once (ofSource s)⟩
  have htracks : Tracks s es d := (tracks_ofSource s).run once hrun
  have hsplit {before e after} (h : es = before ++ e :: after) :
      ∃ d₁ d₂, Tracks s before d₁ ∧ Happens step d₁ e d₂ := by
    rw [h, run_append] at hrun
    obtain ⟨d₁, hbefore, hafter⟩ := hrun
    cases hafter with
    | cons he _ => exact ⟨d₁, _, (tracks_ofSource s).run once hbefore, he⟩
  refine ⟨fun before built after h => ?_, fun before e after h hnone answer ha => ?_,
    fun before e after t h ht answer ha => ?_, fun before as after h => ?_,
    fun before e err h hnone hresult => ?_, htracks.cell, htracks.builds,
    fun n c hsteps => ?_, fun n d' answers hsteps => race_of_steps once hsteps⟩
  · obtain ⟨d₁, d₂, hbefore, he⟩ := hsplit h
    cases he
    exact hbefore.isInitialized_iff
  · obtain ⟨d₁, d₂, hbefore, he⟩ := hsplit h
    exact hbefore.answer_of_unbuilt once he hnone ha
  · obtain ⟨d₁, d₂, hbefore, he⟩ := hsplit h
    exact hbefore.answer_of_built once he ht ha
  · obtain ⟨d₁, d₂, hbefore, he⟩ := hsplit h
    by_cases hbuilt : ∃ t, .ok t ∈ answers before
    · obtain ⟨t, ht⟩ := hbuilt
      exact .inl ⟨t, fun answer ha => hbefore.answer_of_built once he ht ha⟩
    · rw [not_exists] at hbuilt
      cases hresult : result (sourceAfter s before) with
      | ok t =>
        exact .inl ⟨t, fun answer ha => (hbefore.answer_of_unbuilt once he hbuilt ha).trans hresult⟩
      | error err =>
        exact .inr ⟨err, fun answer ha => (hbefore.answer_of_unbuilt once he hbuilt ha).trans hresult⟩
  · obtain ⟨d₁, d₂, hbefore, he⟩ := hsplit h
    have hanswers : ∀ answer ∈ e.answers, answer = .error err := fun answer ha =>
      (hbefore.answer_of_unbuilt once he hnone ha).trans hresult
    refine ⟨hanswers, htracks.cell_eq_none fun t ht => ?_⟩
    rw [h, answers_concat, List.mem_append] at ht
    rcases ht with ht | ht
    · exact hnone t ht
    · cases hanswers _ ht
  · rw [← htracks.source]
    exact cell_of_steps once hsteps

/-- Two accesses compete for a malformed source, and both fail. The source is mended, two more
compete, and the second of them finds what the first one builds. The table stays when the source
is malformed again. -/
theorem history_faithful_mended :
    let malformed : Source Int := ⟨"A, = 3".toList, [0, 3]⟩
    let err : TableError := .nameless 1 " = 3".toList
    let mended : Source Int := ⟨"RED".toList, [7]⟩
    let t : Table Int := ⟨"RED".toList, [⟨7, "RED".toList, "RED".toList, 0⟩]⟩
    let es := [.contested [.error err, .error err], .replaced mended, .contested [.ok t, .ok t],
      .replaced malformed, .got (.ok t), .asked true]
    InitializesOnce (@Move Int) ∧ Run Move (ofSource malformed) es ⟨malformed, some t, 3⟩ ∧
      Faithful Move malformed es ⟨malformed, some t, 3⟩ := by
  intro malformed err mended t es
  have herr : result malformed = .error err := by decide +kernel
  have hok : result mended = .ok t := by decide +kernel
  have hfailed : Steps Move (ofCalls 2 (ofSource malformed))
      (ofAnswers ⟨malformed, none, 2⟩ [.error err, .error err]) := by
    refine .head (Step.access (l := []) (Move.miss rfl)) ?_
    refine .head (Step.access (l := [.waiting]) (Move.miss rfl)) ?_
    refine .head (Step.access (l := [.waiting]) (Move.start rfl (.inr rfl) (by simp))) ?_
    refine .head (Step.access (l := [.waiting]) (Move.fail herr)) ?_
    refine .head (Step.access (l := []) (Move.start rfl (.inr rfl) (by simp))) ?_
    exact .single (Step.access (l := []) (Move.fail herr))
  have hbuilt : Steps Move (ofCalls 2 ⟨mended, none, 2⟩)
      (ofAnswers ⟨mended, some t, 3⟩ [.ok t, .ok t]) := by
    refine .head (Step.access (l := []) (Move.miss rfl)) ?_
    refine .head (Step.access (l := [.waiting]) (Move.miss rfl)) ?_
    refine .head (Step.access (l := []) (Move.start rfl (.inr rfl) (by simp))) ?_
    refine .head (Step.access (l := []) (Move.finish hok)) ?_
    exact .single (Step.access (l := [_]) (Move.find rfl (.inr rfl)))
  have hrun : Run Move (ofSource malformed) es ⟨malformed, some t, 3⟩ :=
    .cons (.contested hfailed) (.cons (.replaced _ mended) (.cons (.contested hbuilt)
      (.cons (.replaced _ malformed) (.cons (.got _) (.cons (.asked _) (.nil _))))))
  exact ⟨initializesOnce_move, hrun,
    (history_faithful initializesOnce_move malformed).1 es _ hrun⟩

end EnumReflection.DeferredTable
