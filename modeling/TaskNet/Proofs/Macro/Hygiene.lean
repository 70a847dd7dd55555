import TaskNet.Proofs.Macro.Lexical

/-!
Macro expansion of whole programs. Where no parameter of a macro clashes with another meaning of its
name, an expansion that reports nothing replaces every expression of every case by what lexical
scoping says, and changes nothing else. Without the condition it does not: an argument can take the
place of a parameter of the task, or a macro the place of an argument.
-/

namespace TaskNet

open Expander List MacroTable Session Tree

variable {src : Source} {s : Session} {depth : Nat}

namespace MacroTable

variable {table : MacroTable} {names : List String}

theorem Exposes.scopeParams {m : Template} {x : String} (exposes : table.Exposes m x) :
    x ∈ table.scopeParams m.scope := by
  induction exposes with
  | own _ param _ _ => exact param
  | @through m c x calls _ ih =>
    rw [Calls, callees] at calls
    split at calls
    · cases calls
    · obtain ⟨_, _, means⟩ := mem_filterMap.mp calls
      rcases (refer?_spec means).2.1 with same | none
      · exact same ▸ ih
      · rw [none] at ih
        cases ih

/-- Parameters that mean no macro clash with nothing if, in a macro that calls others, they are no
parameters of the task. -/
theorem hygienic_of_apart (apart : ∀ m ∈ table.declared, ∀ x ∈ m.formals,
    ((table.callees m).isEmpty ∨ x ∉ table.scopeParams m.scope) ∧
      (table.refer? m.scope (.use x)).isNone) : table.Hygienic := by
  refine ⟨fun m declared c x calls exposes formal => ?_, fun m declared x formal _ => ?_⟩
  · rcases (apart m declared x formal).1 with empty | other
    · rw [Calls, isEmpty_iff.mp empty] at calls
      cases calls
    · exact other (Exposes.through calls exposes).scopeParams
  · exact Option.isNone_iff_eq_none.mp (apart m declared x formal).2

end MacroTable

/-- What an expression of a task of a program stands for, when macros are read where they are
declared. -/
def LexicallyExpands (root task t u : Tree) : Prop :=
  ∃ domain, root.findChild? .domain = some domain ∧
    Expands (.ofTree root domain) (root.visited.map Tree.name) (some task.id)
      (fun _ => none) t.anonymous u.anonymous

/-- No parameter of a macro of the program clashes with another meaning of its name. -/
def HygienicMacros (root : Tree) : Prop :=
  ∀ domain, root.findChild? .domain = some domain → (ofTree root domain).Hygienic

/-- An expansion that reports nothing is the lexical one, if no parameter clashes. -/
theorem Session.expandMacros_reflects (s : Session) (sound : s.program.Sound RawCase)
    (hygienic : HygienicMacros s.program.root)
    (silent : s.expandMacros.2.diagnostics.size = s.diagnostics.size) :
    Updates (fun task => CaseBy (LexicallyExpands s.program.root task)) s.program.root
      s.expandMacros.2.program.root := by
  refine s.expandMacros_silent sound silent fun domain found task t r u r' xs raw held
    traces quiet => ?_
  have named := fun m declared => named_ofTree (m := m) sound.form found declared
  have inOrder : (s.macros domain).InOrder (s.program.root.visited.map Tree.name) :=
    ⟨bodied_ofTree sound found, fun m declared => (named m declared).1,
      fun m declared => (named m declared).2.1, fun m declared => (named m declared).2.2⟩
  have reflects := (forall₂_cons.mp (traces.reflects inOrder (hygienic domain found) quiet
    (by simpa using raw) held)).1
  have lexical := reflects.lexical (fun _ => none) ⟨by simp, fun u _ v _ given => by simp at given⟩
  rw [subst_none] at lexical
  exact ⟨domain, found, lexical⟩

theorem Session.parsePhase_sound
    (parsed : start.parsePhase src.file src.text = (true, s)) :
    s.program.Sound RawCase := by
  have read : s = (start.read src.file src.text).2 := by
    grind [parsePhase]
  rw [read]
  exact (Program.FromSources.more .empty _ _).sound.strengthen fun _ _ _ => And.left

/-- Macro expansion is capture-avoiding in a program where no parameter of a macro clashes with
another meaning of its name: when it reports nothing, exactly the parameters of the called macros
are replaced by their arguments, and the variables that other macros bring along are left alone. -/
theorem expandMacros_lexical
    (parsed : start.parsePhase src.file src.text = (true, s))
    (hygienic : HygienicMacros s.program.root)
    (silent : s.expandMacros.2.diagnostics.size = s.diagnostics.size) :
    Updates (fun task => CaseBy (LexicallyExpands s.program.root task)) s.program.root
      s.expandMacros.2.program.root :=
  s.expandMacros_reflects (parsePhase_sound parsed) hygienic silent

/-- Macros that pass their parameters on to other macros and mention a parameter of the task, one of
which has a local variable and one the name of a parameter of the task for a parameter of its own.
-/
def passingMacros : Source :=
  ⟨"passing", Text.bytesOf "fact \x7b p(id32) r(id32, id32) \x7d
    domain d \x7b macro both(a) = p(a) & r(a, l)
      task t(x) \x7b macro here() = p(x) macro leaf(x) = p(x)
        macro m(y) = here() & both(y) & leaf(y) & r(y, x) case p(x) & p(v) & m(v) -> [] \x7d \x7d"⟩

theorem expandMacros_lexical_nested :
    ∃ s, start.parsePhase passingMacros.file passingMacros.text = (true, s) ∧
      HygienicMacros s.program.root ∧
      s.expandMacros.2.diagnostics.size = s.diagnostics.size ∧ s.program.root.branches.length = 1 ∧
      Updates (fun task => CaseBy (LexicallyExpands s.program.root task)) s.program.root
        s.expandMacros.2.program.root := by
  have facts : (match start.parsePhase passingMacros.file passingMacros.text with
    | (true, s) => s.expandMacros.2.diagnostics.size == s.diagnostics.size &&
      s.program.root.branches.length == 1 &&
      (s.program.root.findChild? .domain).all fun domain =>
        let table := ofTree s.program.root domain
        decide (∀ m ∈ table.declared, ∀ x ∈ m.formals,
          ((table.callees m).isEmpty ∨ x ∉ table.scopeParams m.scope) ∧
            (table.refer? m.scope (.use x)).isNone)
    | (false, _) => false) = true := by decide +kernel
  split at facts
  · next s parsed =>
    simp only [Bool.and_eq_true, beq_iff_eq, Option.all_eq_true, decide_eq_true_eq] at facts
    obtain ⟨⟨silent, single⟩, apart⟩ := facts
    have hygienic : HygienicMacros s.program.root := fun domain found =>
      hygienic_of_apart (apart domain found)
    exact ⟨s, parsed, hygienic, silent, single, expandMacros_lexical parsed hygienic silent⟩
  · cases facts

namespace MacroTable

/-- What a tree stands for, read off the rules of lexical scoping, for macros without local
variables. -/
def lexicalValue? (table : MacroTable) :
    Nat → Option NodeId → (String → Option Tree) → Tree → Option Tree
  | 0, _, _, _ => none
  | depth + 1, scope, env, .mk n cs =>
    match n.content.place? env with
    | some a => some a
    | none => do
      let ds ← cs.mapM (lexicalValue? table depth scope env)
      match table.refer? scope n.content with
      | none => some (.mk n ds)
      | some m => m.body.bind fun body =>
        lexicalValue? table depth m.scope (argumentOf m ds) body.anonymous

/-- Every variable in the body of a macro is a parameter, a parameter of its task or a macro. -/
def Closed (table : MacroTable) : Prop :=
  ∀ m ∈ table.declared,
    ∀ body, m.body = some body → body.VariablesIn fun x => table.isKept m x = true

variable {table : MacroTable} {names : List String}

theorem renameVariables_kept {rename : String → String} {t : Tree} (raw : t.IsRaw)
    (kept : t.VariablesIn fun x => rename x = x) : t.renameVariables rename = t := by
  induction t with
  | mk n cs ih =>
    obtain ⟨takes, _, below⟩ := isRaw_mk.mp raw
    obtain ⟨here, inside⟩ := (variablesIn_mk (takes_sound takes)).mp kept
    have content : n.content.renameVariable rename = n.content := by
      by_cases isVar : ∃ v, n.content = .var v
      · obtain ⟨v, isVar⟩ := isVar
        rw [isVar, Content.renameVariable, here v isVar]
      · exact Content.renameVariable_other isVar
    rw [renameVariables_mk, content, map_congr_left fun c member =>
      ih c member (below c member) (inside c member), map_id']

/-- A tree stands for one tree only, if there are no local variables to rename. -/
theorem Expands.eq_lexicalValue (bodied : table.Bodied) (closed : table.Closed)
    {scope : Option NodeId} {env : String → Option Tree} {t u v : Tree}
    (expands : Expands table names scope env t u)
    (value : table.lexicalValue? depth scope env t = some v) : u = v := by
  induction depth generalizing scope env t u v with
  | zero => cases value
  | succ depth ih =>
    have each : ∀ {cs ds vs : List Tree}, ExpandsAll table names scope env cs ds →
        cs.mapM (lexicalValue? table depth scope env) = some vs → ds = vs := by
      intro cs
      induction cs with
      | nil =>
        intro ds vs all values
        cases all
        simpa using values
      | cons c cs rest =>
        intro ds vs all values
        cases all with
        | cons head tail =>
          simp only [mapM_cons, Option.bind_eq_bind, Option.bind_eq_some_iff, Option.pure_def,
            Option.some.injEq] at values
          obtain ⟨w, first, ws, others, rfl⟩ := values
          rw [ih head first, rest tail others]
    cases expands with
    | argument given =>
      rw [lexicalValue?, given] at value
      exact Option.some.inj value
    | node free means children =>
      simp only [lexicalValue?, free, means, Option.bind_eq_bind, Option.bind_eq_some_iff,
        Option.some.injEq] at value
      obtain ⟨vs, values, rfl⟩ := value
      rw [each children values]
    | @call _ _ n cs ds m body u rename free means isBody _ args refreshes inner =>
      simp only [lexicalValue?, free, means, isBody, Option.bind_eq_bind, Option.bind_eq_some_iff,
        Option.bind_some] at value
      obtain ⟨vs, values, value⟩ := value
      have declared := mem_of_refer? means
      rw [renameVariables_kept (bodied m declared body isBody).1
        ((closed m declared body isBody).imp refreshes.kept), each args values] at inner
      exact ih inner value

def isPrecondition (branch part : Tree) : Bool :=
  match branch.content with
  | .branch info => info.precond == some part.id
  | _ => false

theorem isPrecondition_of_parts {branch pre list : Tree} {info : Guarded} {attrs : List Tree}
    (parts : HasParts branch info attrs pre list) :
    pre ∈ branch.children ∧ isPrecondition branch pre = true := by
  refine ⟨by simp [parts.children], ?_⟩
  rw [isPrecondition, parts.content]
  simpa using parts.precond

/-- Whether the preconditions of a program have other names in them than what they stand for. -/
def misread (table : MacroTable) (depth : Nat) (root root' : Tree) : Bool :=
  !root'.branches.isEmpty && root.branches.all fun (task, b) => root'.branches.all fun (_, b') =>
    b.children.all fun pre => b'.children.all fun pre' =>
      !isPrecondition b pre || !isPrecondition b' pre' ||
        (table.lexicalValue? depth (some task.id) (fun _ => none) pre.anonymous).any fun v =>
          v.visited.map Tree.name != pre'.visited.map Tree.name

theorem not_updates_of_misread {root root' domain : Tree}
    (found : root.findChild? .domain = some domain) (bodied : (ofTree root domain).Bodied)
    (closed : (ofTree root domain).Closed)
    (misread : (ofTree root domain).misread depth root root' = true) :
    ¬ Updates (fun task => CaseBy (LexicallyExpands root task)) root root' := by
  intro updates
  rw [MacroTable.misread, Bool.and_eq_true, all_eq_true] at misread
  obtain ⟨nonempty, differs⟩ := misread
  obtain ⟨⟨task', b'⟩, member'⟩ := exists_mem_of_ne_nil root'.branches (by simpa using nonempty)
  obtain ⟨task, b, member, caseBy, _⟩ := updates.branches member'
  obtain ⟨_, _, _, _, pre, pre', _, _, parts, parts', _, ⟨_, found', expands⟩, _⟩ := caseBy
  obtain rfl := Option.some.inj (found.symm.trans found')
  obtain ⟨inside, isPre⟩ := isPrecondition_of_parts parts
  obtain ⟨inside', isPre'⟩ := isPrecondition_of_parts parts'
  have differs := differs (task, b) member
  simp only [all_eq_true] at differs
  have differs := differs (task', b') member' pre inside pre' inside'
  simp only [isPre, isPre', Bool.not_true, Bool.false_or, Option.any_eq_true] at differs
  obtain ⟨v, value, other⟩ := differs
  have same := expands.eq_lexicalValue bodied closed value
  simp [← same, visited_anonymous, Tree.name] at other

end MacroTable

/-- An argument takes the place of a parameter of the task: `g` brings the parameter `x` of the task
into the body of `m`, where the parameter `x` of `m` is replaced. -/
def capturingMacro : Source :=
  ⟨"capture", Text.bytesOf "fact \x7b p(id32) q(id32) \x7d domain d \x7b task t(x) \x7b
    macro g() = p(x) macro m(x) = g() & q(x) case p(x) & q(y) & m(y) -> [] \x7d \x7d"⟩

theorem expandMacros_captures_task_parameter :
    ∃ s, start.parsePhase capturingMacro.file capturingMacro.text = (true, s) ∧
      s.expandMacros.2.diagnostics.size = s.diagnostics.size ∧
      ¬ Updates (fun task => CaseBy (LexicallyExpands s.program.root task)) s.program.root
        s.expandMacros.2.program.root := by
  let parsed := start.parsePhase capturingMacro.file capturingMacro.text
  have facts : (parsed.1 && parsed.2.expandMacros.2.diagnostics.size == parsed.2.diagnostics.size &&
      (parsed.2.program.root.findChild? .domain).any fun domain =>
        let table := ofTree parsed.2.program.root domain
        table.misread 8 parsed.2.program.root parsed.2.expandMacros.2.program.root &&
          table.declared.all fun m => m.body.all fun body => body.visited.all fun u =>
            u.kind != .var || table.isKept m u.name) = true := by decide +kernel
  simp only [Bool.and_eq_true, beq_iff_eq, Option.any_eq_true] at facts
  obtain ⟨⟨read, silent⟩, domain, found, misread, closed⟩ := facts
  have phase : parsed = (true, parsed.2) := Prod.ext read rfl
  have bodied := bodied_ofTree (Session.parsePhase_sound phase) found
  refine ⟨parsed.2, phase, silent, not_updates_of_misread found bodied ?_ misread⟩
  intro m declared body isBody u visits v content
  simp only [all_eq_true, Option.all_eq_true] at closed
  have kept := closed m declared body isBody u visits
  have kind : u.kind = .var := congrArg Content.kind content
  have name : u.name = v.name := congrArg Content.name content
  simpa [kind, name] using kept

end TaskNet
