import TaskNet.Proofs.Macro.Trace

/-!
What macro expansion preserves. Every identity stays in one place: bodies and arguments are copied,
and a call that was expanded is set aside. When nothing is reported, expressions stay expressions
whose names are not resolved, and a case keeps its parts.
-/

namespace TaskNet

open Expander List MacroTable Tree

/-- Renaming changes names of variables only. -/
theorem Tree.renameVariables_moves {C : Prop} (f : String → String) (t : Tree) (p : Pool) :
    Moves C [t] p [t.renameVariables f] p := by
  induction t with
  | mk n cs ih =>
    rw [renameVariables_mk]
    refine .under rfl (·) ?_
    induction cs with
    | nil => exact .refl [] p
    | cons c cs later => exact (ih c (by simp)).cons (later (forall_mem_cons.mp ih).2)

namespace Expansion

variable {table : MacroTable} {x : Expansion}

theorem Steps.raw_copy (steps : x.Steps table) (bodied : table.Bodied) : x.copy.IsRaw := by
  rw [← isRaw_anonymous, steps.isInstance.renamed, isRaw_anonymous]
  exact (bodied _ steps.declared _ steps.isBody).1.renameVariables _

theorem Steps.raw_result (steps : x.Steps table) (expanded : x.expanded.IsRaw)
    (arguments : ∀ c ∈ x.call.children, c.IsRaw) : x.result.IsRaw := by
  obtain ⟨s, run, _⟩ := steps.filled
  have filled := (x.expanded.substitute_run
    (argumentOf x.template x.call.children) x.inner).2 rfl
  rw [run] at filled
  exact filled.raw expanded fun _ a found => arguments a (argumentOf_mem found)

section Moves

variable (steps : x.Steps table)

include steps

/-- The instance of a body is drawn from the pool. -/
theorem Steps.copy_moves (bodied : table.Bodied) :
    Moves True [] x.start.pool [x.copy] x.named.pool := by
  obtain ⟨raw, known⟩ := bodied _ steps.declared _ steps.isBody
  obtain ⟨pairs, supply, _, run⟩ := instantiate_eq table x.template raw
    { x.start with expansions := x.start.expansions + 1 }
  rw [steps.copied] at run
  obtain ⟨copy, named⟩ := Prod.mk.inj run
  rw [copy, named]
  exact ((MovesWith.copy x.body x.start.pool).weaken fun _ _ => known).trans
    (renameVariables_moves _ _ _)

/-- So are the copies of arguments, and then the call is set aside. -/
theorem Steps.result_moves : ∃ p, x.finish.pool = p.discard x.call ∧
    Moves (AllKnown x.call) [x.expanded] x.inner.pool [x.result] p := by
  obtain ⟨s, run, finish⟩ := steps.filled
  have filled := (x.expanded.substitute_run
    (argumentOf x.template x.call.children) x.inner).2 rfl
  rw [run] at filled
  exact ⟨s.pool, by rw [finish], filled.moves.weaken fun known _ name arg found =>
    AllOf.below known (argumentOf_mem found)⟩

theorem Steps.next_le (bodied : table.Bodied) : x.start.pool.next ≤ x.named.pool.next ∧
    x.inner.pool.next ≤ x.finish.pool.next := by
  obtain ⟨p, finish, filled⟩ := steps.result_moves
  rw [finish]
  exact ⟨(steps.copy_moves bodied).next_le, filled.next_le⟩

variable (bodied : table.Bodied)
  (within : Moves True [x.copy] x.named.pool [x.expanded] x.inner.pool)

include bodied within

/-- What an expansion leaves is drawn from the pool, beside the call. -/
theorem Steps.made : ∃ p, x.finish.pool = p.discard x.call ∧
    Moves (AllKnown x.call) [] x.start.pool [x.result] p := by
  obtain ⟨p, finish, filled⟩ := steps.result_moves
  exact ⟨p, finish, (((steps.copy_moves bodied).trans within).weaken fun _ _ => trivial).trans
    filled⟩

/-- The call stands beside what it turns into until it is set aside. -/
theorem Steps.moves : Moves True [x.call] x.start.pool [x.result] x.finish.pool := by
  obtain ⟨p, finish, made⟩ := steps.made bodied within
  have beside : Moves True [x.call] x.start.pool [x.call, x.result] p :=
    (MovesWith.append (.refl [x.call] _) made).weaken fun _ known => (eachOf_cons.mp known).1
  rw [finish]
  exact beside.trans (.discard _ _ _)

/-- An expansion leaves nodes that are new in it, each in one place. -/
theorem Steps.result_new (i : NodeId) :
    tallies i [x.result] ≤ span x.start.pool.next x.finish.pool.next i := by
  obtain ⟨p, finish, made⟩ := steps.made bodied within
  rw [finish]
  exact made.tallies_le i

end Moves

end Expansion

namespace MacroTable

variable {table : MacroTable} {marked : List NodeId} {scope : Option NodeId} {ts us : List Tree}
  {s s' : Expander} {xs : List Expansion}

theorem Traces.moves (bodied : table.Bodied) (traces : Traces table marked scope ts s us s' xs) :
    Moves True ts s.pool us s'.pool := by
  induction traces with
  | nil => exact .refl _ _
  | error _ _ ih => exact MovesWith.append (.refl [_] _) ih
  | node _ _ _ here _ below rest =>
    refine .cons ((below.under rfl (·)).trans ?_) rest
    obtain ⟨left, frame, _⟩ := expandNode_left here
    rw [frame]
    rcases left with rfl | ⟨problem, rfl⟩
    · exact .refl _ _
    · exact .markError _ _
  | call _ _ isCall _ steps _ _ below within rest =>
    have called := steps.moves bodied within
    rw [isCall] at called
    exact .cons ((below.under rfl (·)).trans called) rest

theorem Traces.length_eq (traces : Traces table marked scope ts s us s' xs) :
    us.length = ts.length := by
  induction traces with
  | nil => rfl
  | error _ _ ih => simp [ih]
  | node _ _ _ _ _ _ ih => simp [ih]
  | call _ _ _ _ _ _ _ _ _ ih => simp [ih]

/-- Where macros have bodies and none is marked, a node that is left without a report means no
macro. -/
theorem expandNode_silent (complete : ∀ m ∈ table.declared, m.body.isSome = true) {t u : Tree}
    (none : table.expansion? [] scope t = none)
    (here : (expandNode table [] (fun _ t => pure t) scope t).run s = (u, s'))
    (silent : s'.diagnostics.size ≤ s.diagnostics.size) :
    u = t ∧ table.refer? scope t.content = .none := by
  rw [expandNode] at here
  rw [expansion?] at none
  cases means : table.refer? scope t.content with
  | none =>
    rw [means] at here
    cases here
    exact ⟨rfl, rfl⟩
  | some m =>
    obtain ⟨body, isBody⟩ := Option.isSome_iff_exists.mp (complete m (mem_of_refer? means))
    rw [means] at here none
    cases misfits : t.kind == .call && t.children.length != m.formals.length with
    | true =>
      simp only [misfits, if_true] at here
      cases here
      exact absurd silent (by simp)
    | false => simp [misfits, isBody] at none

/-- Expressions stay expressions when nothing is reported. -/
theorem Traces.raw (bodied : table.Bodied) (complete : ∀ m ∈ table.declared, m.body.isSome = true)
    (traces : Traces table [] scope ts s us s' xs)
    (silent : s'.diagnostics.size ≤ s.diagnostics.size) (raw : ∀ t ∈ ts, t.IsRaw) :
    ∀ u ∈ us, u.IsRaw := by
  induction traces with
  | nil => simp
  | error _ _ ih =>
    rw [forall_mem_cons] at raw ⊢
    exact ⟨raw.1, ih silent raw.2⟩
  | node _ below none here rest ihBelow ihRest =>
    have le₁ := below.reports.size_le
    have le₂ := (expandNode_left here).2.2.size_le
    have le₃ := rest.reports.size_le
    rw [forall_mem_cons] at raw ⊢
    obtain ⟨rfl, _⟩ := expandNode_silent complete none here (by omega)
    obtain ⟨takes, unresolved, inside⟩ := isRaw_mk.mp raw.1
    refine ⟨isRaw_mk.mpr ⟨below.length_eq ▸ takes, unresolved, ?_⟩, ihRest (by omega) raw.2⟩
    exact ihBelow (by omega) inside
  | @call _ _ _ _ _ _ _ _ x _ _ _ _ below isCall means steps within rest ihBelow ihWithin ihRest =>
    have le₁ := below.reports.size_le
    have le₂ := within.reports.size_le
    have le₃ := rest.reports.size_le
    have named : x.named.diagnostics = x.start.diagnostics := by rw [steps.isInstance.frame]
    have finish := steps.result_eq.2.2.2
    rw [named] at le₂ ihWithin
    rw [finish] at le₃ ihRest
    rw [forall_mem_cons] at raw ⊢
    have expanded := ihWithin (by omega) (by simpa using steps.raw_copy bodied)
    refine ⟨steps.raw_result (by simpa using expanded) ?_, ihRest (by omega) raw.2⟩
    rw [isCall]
    exact ihBelow (by omega) (isRaw_mk.mp raw.1).2.2

end MacroTable

namespace Session

variable {domain : Tree}

/-- Expressions stay expressions where nothing is reported. -/
theorem traces_raw {s : Session} {t u : Tree} {r r' : Expander} {scope : Option NodeId}
    {xs : List Expansion} (sound : s.program.Sound RawCase)
    (found : s.program.root.findChild? .domain = some domain)
    (traces : Traces (s.macros domain) [] scope [t] r [u] r' xs)
    (quiet : r'.diagnostics.size ≤ r.diagnostics.size) (raw : t.IsRaw) : u.IsRaw := by
  simpa [raw] using traces.raw (bodied_ofTree sound found)
    (fun m declared => (named_ofTree sound.form found declared).1) quiet

/-- What becomes of the expressions of a program in an expansion that reports nothing. -/
theorem expandMacros_silent (s : Session) (sound : s.program.Sound RawCase)
    (silent : s.expandMacros.2.diagnostics.size = s.diagnostics.size)
    {E : Tree → Tree → Tree → Prop}
    (each : ∀ domain, s.program.root.findChild? .domain = some domain →
    ∀ task t r u r' xs, t.IsRaw →
      r.Supplied (s.program.root.visited.map Tree.name) →
      Traces (s.macros domain) [] (some task.id) [t] r [u] r' xs →
      r'.diagnostics.size ≤ r.diagnostics.size → E task t u) :
    Updates (fun task => CaseBy (E task)) s.program.root s.expandMacros.2.program.root := by
  cases found : s.program.root.findChild? .domain with
  | none =>
    rw [expandMacros, found]
    refine ⟨rfl, .absent fun c member => ?_⟩
    simpa using find?_eq_none.mp found c member
  | some domain =>
    obtain ⟨root, e, steps, whole, program, redefined, diagnostics, _⟩ :=
      s.expandMacros_steps sound (fun _ isCase => isCase) found
    have grown := whole.size_le
    have before : (s.expander (s.recursiveMacros domain)).diagnostics.size =
        s.diagnostics.size + (s.recursiveMacros domain).length := by
      simp [expander, Collector.size_append]
    rw [diagnostics, Collector.size_append] at silent
    have none : s.recursiveMacros domain = [] := length_eq_zero_iff.mp (by omega)
    rw [program]
    let I : Expander → Prop := fun r => r.Supplied (s.program.root.visited.map Tree.name)
    refine (steps.keeps (I := I) (fun task branch member _ _ _ step held =>
      step.keeps (I := I) (fun t raw r u r' inner held => ?_) (sound.form.branch member) held)
      (s.supplied_expander _)).2
    obtain ⟨⟨xs, traces⟩, earlier, later⟩ := inner
    have le₁ := earlier.size_le
    have le₂ := later.size_le
    rw [none] at traces
    exact ⟨held.mono traces.grows.1, each domain found task t r u r' xs raw held traces (by omega)⟩

/-- Expansion keeps every node of a program in one place. A program in order is in order after an
expansion that reports nothing. -/
theorem expandMacros_sound (s : Session) (sound : s.program.Sound RawCase) :
    s.diagnostics.size ≤ s.expandMacros.2.diagnostics.size ∧ s.expandMacros.2.program.Accounted ∧
      (s.expandMacros.2.diagnostics.size = s.diagnostics.size →
        s.expandMacros.1 = true ∧ s.expandMacros.2.program.Sound RawCase) := by
  cases found : s.program.root.findChild? .domain with
  | none =>
    rw [expandMacros, found]
    exact ⟨Nat.le_refl _, sound.accounted, fun _ => ⟨rfl, sound⟩⟩
  | some domain =>
    have bodied : (s.macros domain).Bodied := bodied_ofTree sound found
    obtain ⟨root, e, steps, whole, program, redefined, diagnostics, _⟩ :=
      s.expandMacros_steps sound (fun _ isCase => isCase) found
    have moves := steps.carries (MovesWith.carries (C := True) Expander.pool) fun _ _ _ _ _ step =>
      step.moves fun _ _ _ _ inner => by
        obtain ⟨⟨_, traces⟩, _⟩ := inner
        exact traces.moves bodied
    refine ⟨?_, program ▸ .of_moves moves sound.accounted, fun silent => ⟨?_, ?_⟩⟩
    · have grown := whole.size_le
      rw [expander, Collector.size_append] at grown
      rw [diagnostics, Collector.size_append]
      omega
    · have answer : s.expandMacros.1 =
          (s.expandMacros.2.diagnostics.size - s.diagnostics.size == 0) := by
        rw [expandMacros, found]
        rfl
      simp [answer, silent]
    · have updates := s.expandMacros_silent sound silent (E := fun _ _ u => u.IsRaw)
        fun _ found _ _ _ _ _ _ raw _ traces quiet => traces_raw sound found traces quiet raw
      have form := updates.isProgram sound.form fun _ _ _ _ caseBy =>
        ⟨caseBy.rawCase.kind, caseBy.rawCase⟩
      rw [program] at form ⊢
      exact .of_moves moves sound form

end Session

end TaskNet
