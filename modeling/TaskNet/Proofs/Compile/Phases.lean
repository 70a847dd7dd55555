import TaskNet.Proofs.Clause.Precondition
import TaskNet.Proofs.Macro.Preservation
import TaskNet.Proofs.Typing.Soundness

/-!
The phases of a compilation. A phase that reports nothing lets the next one run, and hands on a
program in the form that the next one relies on.
-/

namespace TaskNet

open List Program Session Tree

variable {T : Prop} {s : Session} {P : Program → Prop} {result : Except Fault Bool × Session}

/-- A phase gives a result under a condition. When it does, no report is taken back, and when there
is no new one, the next phase runs on a program with a given property. -/
def Completes (T : Prop) (s : Session) (P : Program → Prop) : Except Fault Bool × Session → Prop
  | (.error _, _) => ¬ T
  | (.ok ok, s') => s.diagnostics.size ≤ s'.diagnostics.size ∧
    (s'.diagnostics.size = s.diagnostics.size → ok = true ∧ P s'.program)

theorem Completes.intro {ok : Bool} (ran : result.1 = .ok ok)
    (grows : s.diagnostics.size ≤ result.2.diagnostics.size)
    (holds : result.2.diagnostics.size = s.diagnostics.size → ok = true ∧ P result.2.program) :
    Completes T s P result := by
  obtain ⟨r, s'⟩ := result
  cases ran
  exact ⟨grows, holds⟩

theorem Completes.imp {Q : Program → Prop} (weaker : ∀ p, P p → Q p)
    (completes : Completes T s P result) : Completes T s Q result := by
  obtain ⟨_ | ok, s'⟩ := result
  · exact completes
  · exact ⟨completes.1, fun same => (completes.2 same).imp_right (weaker _)⟩

/-- What completed phases come to. -/
def Ends (T : Prop) (s : Session) (P : Program → Prop) : Except Fault (Phase × Session) → Prop
  | .error _ => ¬ T
  | .ok (_, s') => s.diagnostics.size ≤ s'.diagnostics.size ∧
    (s'.diagnostics.size = s.diagnostics.size → P s'.program)

theorem Ends.of_same {s' : Session} {result : Except Fault (Phase × Session)}
    (ends : Ends T s' P result) (same : s'.diagnostics.size = s.diagnostics.size) :
    Ends T s P result := by
  cases result with
  | error _ => exact ends
  | ok r => exact ⟨same ▸ ends.1, fun silent => ends.2 (silent.trans same.symm)⟩

theorem Ends.ok {result : Except Fault (Phase × Session)} (ends : Ends True s P result) :
    ∃ reached s', result = .ok (reached, s') := by
  cases result with
  | error _ => exact absurd trivial ends
  | ok r => exact ⟨r.1, r.2, rfl⟩

/-- A program with the types that were inferred for a resolved one. -/
def Inferable (functions : OverloadTable) (T : Prop) (p' : Program) : Prop :=
  ∃ p s, p.Resolved T ∧ Infer.Inferred functions p s ∧ p'.root = p.root.mapNodes s.applyTo

/-- The state that inference of a program starts with. -/
def Session.typingStart (s : Session) : Typing :=
  ⟨s.program.types, Array.replicate s.program.next none, s.scratch.tags, s.diagnostics, []⟩

theorem Session.typesKnown_typingStart (resolved : s.program.Resolved T) :
    s.typingStart.TypesKnown :=
  types_known resolved.sound.known

theorem Session.types_size_typingStart (s : Session) : s.typingStart.types.size = s.program.next :=
  types_size s.program

theorem Session.signatures_size_typingStart (s : Session) :
    s.typingStart.signatures.size = s.program.next :=
  Array.size_replicate

theorem Session.inferTypes_infers {functions : OverloadTable} (concrete : functions.Concrete)
    (s : Session) (resolved : s.program.Resolved T) :
    Completes T s (fun p' => ∃ t, Infer.Inferred functions s.program t ∧
      p'.root = s.program.root.mapNodes t.applyTo) (s.inferTypes functions) := by
  have run := Infer.inferAll_yields resolved concrete s.typingStart (Nat.zero_le _)
  rw [inferTypes]
  dsimp only
  rw [← typingStart]
  generalize (Infer.inferAll (.ofProgram functions s.program) s.program.root).run s.typingStart =
    result at run
  obtain ⟨_ | sweeps, t⟩ := result
  · exact run
  · obtain ⟨_, grows, inferred⟩ := run
    have before : s.typingStart.problems = s.diagnostics.size := rfl
    have after : t.problems = t.diagnostics.size := rfl
    refine .intro rfl ?_ fun same => ?_
    · cases sweeps <;> exact before ▸ grows
    · have same : t.diagnostics.size = s.diagnostics.size := by
        cases sweeps <;> exact same
      refine ⟨by simp [same], t, ?_, ?_⟩
      · exact inferred (by omega) (typesKnown_typingStart resolved) s.types_size_typingStart
          s.signatures_size_typingStart rfl
      · cases sweeps <;> rfl

theorem Session.inferTypes_completes {functions : OverloadTable} (concrete : functions.Concrete)
    (s : Session) (resolved : s.program.Resolved T) :
    Completes T s (Inferable functions T) (s.inferTypes functions) :=
  (s.inferTypes_infers concrete resolved).imp fun _ ⟨t, inferred, root⟩ =>
    ⟨s.program, t, resolved, inferred, root⟩

section Run

variable {T : Prop} {functions : OverloadTable} {limit : Int} {src : Source} {reached : Phase}
variable {P Q : Program → Prop}
variable {s : Session}

theorem runPhases_nil (holds : P s.program) :
    Ends T s P (runPhases functions limit src s reached []) :=
  ⟨Nat.le_refl _, fun _ => holds⟩

/-- One phase and those after it. -/
theorem runPhases_cons {phase : Phase} {rest : List Phase}
    (step : Completes T s P (phase.run functions limit src s))
    (later : ∀ s' : Session,
    P s'.program → Ends T s' Q (runPhases functions limit src s' phase rest)) :
    Ends T s Q (runPhases functions limit src s reached (phase :: rest)) := by
  rw [runPhases]
  generalize phase.run functions limit src s = result at step
  obtain ⟨_ | ok, s'⟩ := result
  · exact step
  · obtain ⟨grows, holds⟩ := step
    dsimp only
    split
    · next stops =>
      refine ⟨grows, fun same => ?_⟩
      have same : s'.diagnostics.size = s.diagnostics.size := same
      simp [(holds same).1, same] at stops
    · next goes =>
      have same : s'.diagnostics.size = s.diagnostics.size := by
        simp only [Bool.or_eq_true, decide_eq_true_eq, not_or] at goes
        omega
      exact Ends.of_same (later (s'.record _) (holds same).2) same

def Source.root (src : Source) : Tree :=
  (Grammar.parse empty.root empty.next src.file src.text).root

theorem parse_reads (log : List LogRecord) :
    Completes T { start with log := log } (fun p => p.Sound ReadCase ∧ p.root = src.root)
      (Phase.run functions limit src { start with log := log } .parse) := by
  rw [Phase.run, Session.parsePhase, Session.read]
  dsimp only
  rw [show ({ start with log := log } : Session).program = empty from rfl]
  cases error : (Grammar.parse empty.root empty.next src.file src.text).error with
  | none => exact ⟨Nat.le_refl _, fun _ => ⟨rfl, Grammar.parse_read error, rfl⟩⟩
  | some e => exact ⟨by simp, fun same => by simp at same⟩

theorem parse_completes (log : List LogRecord) :
    Completes T { start with log := log } (fun p => p.Sound RawCase)
      (Phase.run functions limit src { start with log := log } .parse) :=
  (parse_reads log).imp fun _ read => read.1.strengthen fun _ _ _ => And.left

theorem Session.answer_of_nodes {s' : Session} (same : s'.scratch.nodes = s.scratch.nodes)
    (ok : Bool) : s.answer s' ok = .ok ok := by
  rw [answer, same]
  cases s.scratch.nodes.fault <;> rfl

theorem expand_completes (sound : s.program.Sound RawCase) :
    Completes T s (fun p => p.Sound RawCase) (Phase.run functions limit src s .expand) := by
  obtain ⟨grows, _, holds⟩ := s.expandMacros_sound sound
  exact .intro (s.answer_of_nodes (congrArg Scratch.nodes s.expandMacros_scratch) _) grows holds

theorem normalize_completes (sound : s.program.Sound (IsCase IsRaw fun t =>
      t.IsRaw ∧ t.Throughout fun u => T → TargetsVariable u)) :
    Completes T s (fun p => p.Sound (NormalCase T) ∧ EntriesFrom (fun _ => Eq) s.program.root
      p.root) (Phase.run functions limit src s .normalize) := by
  obtain ⟨ok, ran, grows, _, holds⟩ := s.normalizePhase_sound limit (normalizable_targets T) sound
  exact .intro ran grows holds

theorem resolve_completes (sound : s.program.Sound (NormalCase T)) :
    Completes T s (fun p => p.Resolved T ∧
      EntriesFrom (fun _ => Relabels Keeps) s.program.root p.root)
      (Phase.run functions limit src s .resolve) := by
  obtain ⟨grows, holds⟩ := s.resolveNames_resolved T sound
  exact .intro (s.answer_of_nodes (s.resolveNames_nodes sound) _) grows holds

/-- The phases after macro expansion. -/
theorem runPhases_normalize (concrete : functions.Concrete)
    (sound : s.program.Sound (IsCase IsRaw fun t =>
      t.IsRaw ∧ t.Throughout fun u => T → TargetsVariable u)) :
    Ends T s (Inferable functions T)
      (runPhases functions limit src s reached [.normalize, .resolve, .infer]) :=
  runPhases_cons (normalize_completes sound) fun _ normal =>
    runPhases_cons (resolve_completes normal.1) fun s resolved =>
      runPhases_cons (s.inferTypes_completes concrete resolved.1) fun _ inferred =>
      runPhases_nil inferred

/-- A program with nothing said on the targets of assignments. -/
theorem Program.Sound.anyTargets {p : Program} (sound : p.Sound RawCase) :
    p.Sound (IsCase IsRaw fun t => t.IsRaw ∧ t.Throughout fun u => False → TargetsVariable u) :=
  sound.strengthen fun _ _ _ raw =>
    IsCase.imp (fun _ raw => raw) (fun _ raw => ⟨raw, fun _ _ never => never.elim⟩) raw

/-- All phases, with nothing said on whether they give a result. -/
theorem runPhases_all (concrete : functions.Concrete) (log : List LogRecord) :
    Ends False { start with log := log } (Inferable functions False)
      (runPhases functions limit src { start with log := log } reached Phase.all) :=
  runPhases_cons (parse_completes log) fun _ sound =>
    runPhases_cons (expand_completes sound) fun _ sound =>
      runPhases_normalize concrete sound.anyTargets

/-- The phases before inference, with nothing said on whether they give a result. -/
theorem runPhases_resolve (log : List LogRecord) :
    Ends False { start with log := log } (fun p => p.Resolved False)
      (runPhases functions limit src { start with log := log } reached
        [.parse, .expand, .normalize, .resolve]) :=
  runPhases_cons (parse_completes log) fun _ sound =>
    runPhases_cons (expand_completes sound) fun _ sound =>
      runPhases_cons (normalize_completes sound.anyTargets) fun _ normal =>
        runPhases_cons (resolve_completes normal.1) fun _ resolved => runPhases_nil resolved.1

end Run

def Options.functions (opts : Options) : OverloadTable :=
  (disableIntrinsics .intrinsics [] opts.disabled).1

def Options.session (opts : Options) : Session :=
  { start with log := (disableIntrinsics .intrinsics [] opts.disabled).2 }

theorem Options.functions_concrete (opts : Options) : opts.functions.Concrete :=
  OverloadTable.intrinsics_concrete.disable [] opts.disabled

/-- The session of a source whose names are resolved without problems. -/
def Resolves (opts : Options) (src : Source) (s : Session) : Prop :=
  runPhases opts.functions opts.maxClauses src opts.session .parse [.parse, .expand, .normalize,
    .resolve] = .ok (.resolve, s) ∧ s.diagnostics.size = 0

theorem Resolves.resolved {opts : Options} {src : Source} (resolves : Resolves opts src s) :
    s.program.Resolved False := by
  have ends : Ends False opts.session (fun p => p.Resolved False)
    (runPhases opts.functions opts.maxClauses src
      opts.session .parse [.parse, .expand, .normalize, .resolve]) := runPhases_resolve _
  rw [resolves.1] at ends
  exact ends.2 resolves.2

section Checks

variable {opts : Options} {src : Source}

theorem exists_of_toOption_any {ε α : Type} {r : Except ε α} {check : α → Bool}
    (passes : r.toOption.any check = true) : ∃ a, r = .ok a ∧ check a = true := by
  cases r with
  | error _ => cases passes
  | ok a => exact ⟨a, rfl, passes⟩

/-- Whether a source is compiled without problems, and what comes out passes a check. -/
def compilesTo (opts : Options) (src : Source) (check : Outcome → Bool) : Bool :=
  (compile opts src).toOption.any fun o => o.ok && check o

theorem exists_of_compilesTo {P : Outcome → Prop} [DecidablePred P]
    (passes : compilesTo opts src (fun o => decide (P o)) = true) :
    ∃ o, compile opts src = .ok o ∧ o.ok = true ∧ P o := by
  obtain ⟨o, compiled, passes⟩ := exists_of_toOption_any passes
  obtain ⟨ok, checked⟩ := Bool.and_eq_true_iff.mp passes
  exact ⟨o, compiled, ok, of_decide_eq_true checked⟩

/-- What comes out has the properties of a compiled source, beside one that is checked. -/
theorem exists_of_compilesTo_and {P Q : Outcome → Prop} [DecidablePred P]
    (passes : compilesTo opts src (fun o => decide (P o)) = true)
    (each : ∀ o, compile opts src = .ok o → o.ok = true → Q o) :
    ∃ o, compile opts src = .ok o ∧ o.ok = true ∧ P o ∧ Q o := by
  obtain ⟨o, compiled, ok, checked⟩ := exists_of_compilesTo passes
  exact ⟨o, compiled, ok, checked, each o compiled ok⟩

/-- Whether names of a source are resolved without problems, and the session passes a check then. -/
def resolvesTo (opts : Options) (src : Source) (check : Session → Bool) : Bool :=
  (runPhases opts.functions opts.maxClauses src opts.session .parse
    [.parse, .expand, .normalize, .resolve]).toOption.any fun r =>
      r.1 == .resolve && r.2.diagnostics.size == 0 && check r.2

theorem exists_of_resolvesTo {check : Session → Bool} (passes : resolvesTo opts src check = true) :
    ∃ s, Resolves opts src s ∧ check s = true := by
  obtain ⟨⟨phase, s⟩, ran, passes⟩ := exists_of_toOption_any passes
  simp only [Bool.and_eq_true, beq_iff_eq] at passes
  obtain ⟨⟨rfl, silent⟩, passes⟩ := passes
  exact ⟨s, ⟨ran, silent⟩, passes⟩

end Checks

/-- Diagnostics that are read are all those that were recorded, but for duplicates. -/
theorem Collector.size_of_sorted {c : Collector} (none : c.sorted = []) : c.size = 0 := by
  have kept : ∀ ds : List Diagnostic, Collector.compact ds = [] → ds = [] := by
    intro ds
    induction ds with
    | nil => exact fun _ => rfl
    | cons d ds ih =>
      cases ds with
      | nil => exact fun empty => by cases empty
      | cons e rest =>
        intro empty
        rw [Collector.compact] at empty
        split at empty
        · cases ih empty
        · cases empty
  have length : (c.recorded.mergeSort Collector.precedes).length = c.recorded.length :=
    length_mergeSort _
  rw [kept _ none] at length
  exact length.symm

section Compile

variable {opts : Options} {src : Source}

theorem compile_of_error {e : Fault}
    (failed : runPhases opts.functions opts.maxClauses src opts.session .parse Phase.all =
    .error e) : compile opts src = .error e := by
  rw [compile]
  exact congrArg (fun r => r >>= _) failed

/-- A compilation gives what its phases come to. -/
theorem compile_of_ok {reached : Phase} {s : Session}
    (ran : runPhases opts.functions opts.maxClauses src opts.session .parse Phase.all =
      .ok (reached, s)) :
    ∃ o, compile opts src = .ok o ∧ o.tree = s.program.root ∧
      o.diagnostics = s.diagnostics.sorted := by
  rw [compile]
  refine ⟨_, congrArg (fun r => r >>= _) ran, ?_, rfl⟩
  dsimp only [Outcome.tree]
  split <;> rfl

/-- What the phases come to holds of a program that was compiled without problems. -/
theorem compile_ok_ends {P : Program → Prop}
    (ends : Ends False opts.session P
      (runPhases opts.functions opts.maxClauses src opts.session .parse Phase.all)) {o : Outcome}
    (compiled : compile opts src = .ok o) (ok : o.ok = true) : ∃ p, P p ∧ o.tree = p.root := by
  cases ran : runPhases opts.functions opts.maxClauses src opts.session .parse Phase.all with
  | error e =>
    rw [compile_of_error ran] at compiled
    cases compiled
  | ok r =>
    obtain ⟨o', compiled', tree, diagnostics⟩ := compile_of_ok ran
    obtain rfl : o' = o := Except.ok.inj (compiled'.symm.trans compiled)
    rw [ran] at ends
    have silent : r.2.diagnostics.size = 0 :=
      Collector.size_of_sorted (diagnostics.symm.trans (isEmpty_iff.mp ok))
    exact ⟨r.2.program, ends.2 silent, tree⟩

end Compile

end TaskNet
