import TaskNet.Proofs.Compile.Widening

/-!
Task lists of compiled programs. A task list is read as a list of calls. An entry that calls a macro
becomes what the macro stands for, which need not be a call; every other entry stays a call through
all phases, and every call in the task list of a compiled program is a call of a task or a primitive
with an argument for each parameter.
-/

namespace TaskNet

open Expander List Tree

variable {T : Prop}

namespace MacroTable

/-- A node that means no macro stays when what is below it is expanded. -/
theorem Traces.stays {table : MacroTable} {scope : Option NodeId} {t u : Tree} {s s' : Expander}
    {xs : List Expansion} (complete : ∀ m ∈ table.declared, m.body.isSome = true)
    (traces : Traces table [] scope [t] s [u] s' xs)
    (quiet : s'.diagnostics.size ≤ s.diagnostics.size)
    (means : table.refer? scope t.content = none) : u.node = t.node := by
  cases traces with
  | error _ _ => rfl
  | node _ below none here rest =>
    have le₁ := below.reports.size_le
    have le₂ := rest.reports.size_le
    obtain ⟨rfl, _⟩ := expandNode_silent complete none here (by omega)
    rfl
  | call _ _ _ reads =>
    rw [content_mk] at means
    rw [expansion?, content_mk, means] at reads
    cases reads

/-- What becomes of the entries of a task list. -/
theorem CaseBy.entries {P : Tree → Tree → Prop} {branch b : Tree}
    (caseBy : CaseBy (fun t u => u.IsRaw ∧ P t u) branch b) (isCase : RawCase branch) :
    List.Forall₂ P branch.entries b.entries := by
  obtain ⟨_, _, _, _, sameParts, _, rawPre, _⟩ := isCase
  obtain ⟨_, _, _, _, _, _, _, _, parts, parts', _, keptPre, _, kept⟩ := caseBy
  obtain ⟨rfl, rfl, rfl, rfl⟩ := sameParts.unique parts
  rw [parts.entries rawPre.isTerm.isExpression, parts'.entries keptPre.1.isTerm.isExpression]
  exact kept.imp fun _ _ => And.right

end MacroTable

def Tree.CallsMacro (root task e : Tree) : Prop :=
  ∃ domain m, root.findChild? .domain = some domain ∧
    (MacroTable.ofTree root domain).refer? (some task.id) e.content = some m

/-- After an expansion that reports nothing, an entry of a task list is the node that it was, unless
it was a call of a macro. -/
theorem Session.expandMacros_entries (s : Session) (sound : s.program.Sound RawCase)
    (silent : s.expandMacros.2.diagnostics.size = s.diagnostics.size) :
    EntriesFrom (fun task e e' => s.program.root.CallsMacro task e ∨ e'.node = e.node)
      s.program.root s.expandMacros.2.program.root := by
  have updates := s.expandMacros_silent sound silent (E := fun task t u => u.IsRaw ∧
      (s.program.root.CallsMacro task t ∨ u.node = t.node))
    fun domain found task t r u r' xs raw _ traces quiet => by
      refine ⟨traces_raw sound found traces quiet raw, ?_⟩
      cases means : (s.macros domain).refer? (some task.id) t.content with
      | none =>
        exact .inr (traces.stays
          (fun m declared => (MacroTable.named_ofTree sound.form found declared).1) quiet means)
      | some m => exact .inl ⟨domain, m, found, means⟩
  exact updates.entriesFrom fun task b b' member caseBy => caseBy.entries (sound.form.branch member)

section Applied

variable {f : Node → Node} (kinds : ∀ n, (f n).kind = n.kind)
include kinds

theorem Tree.entries_mapNodes (b : Tree) : (b.mapNodes f).entries = b.entries.map (mapNodes f) := by
  rw [entries, entries, childrenOf_mapNodes kinds, map_flatMap, flatMap_map]
  exact flatMap_congr fun l _ => mapNodes_children l

end Applied

/-- An entry of a task list calls a task or a primitive of the program, with an argument for each of
its parameters. -/
def Tree.Invokes (root e : Tree) : Prop :=
  ∃ c callee, e.content = .call c ∧ c.decl = some callee.id ∧
    (callee ∈ root.tasks ∨ callee ∈ root.childrenOfFirst .primitives) ∧
    e.children.length = (callee.childrenOf .param).length

theorem invokes_of_call {p : Program} {s : Typing} (resolved : p.Resolved T)
    {task branch e : Tree} (member : (task, branch) ∈ p.root.branches) (entry : e ∈ branch.entries)
    (isCall : e.kind = .call) : (p.root.mapNodes s.applyTo).Invokes (e.mapNodes s.applyTo) := by
  have kinds := s.applyTo_kind
  obtain ⟨info, attrs, pre, list, resolution⟩ := resolved.branches task branch member
  rw [resolution.entries resolution.precondTerm.isExpression] at entry
  obtain ⟨c', content'⟩ := content_of_call ((mapNodes_kind kinds e).trans isCall)
  obtain ⟨c, content, decl, _⟩ := Typing.applyTo_call ((mapNodes_content e).symm.trans content')
  obtain ⟨callee, declared, _, arity, group⟩ := callee_of_entry resolved resolution entry content
  refine ⟨c', callee.mapNodes s.applyTo, content', ?_,
    group.imp (fun isTask => ?_) fun inside => ?_, ?_⟩
  · rw [decl, declared, s.id_mapNodes]
  · exact (mem_tasks_mapNodes kinds).mpr ⟨callee, isTask, rfl⟩
  · rw [childrenOfFirst_mapNodes kinds]
    exact mem_map_of_mem inside
  · rw [mapNodes_children, childrenOf_mapNodes kinds, length_map, length_map, arity]

section Run

variable {functions : OverloadTable} {limit : Int} {src : Source} {reached : Phase}

/-- An entry of a task list stays a call unless it calls a macro. -/
def Source.KeepsCall (src : Source) (task e e' : Tree) : Prop :=
  src.root.CallsMacro task e ∨ e'.kind = e.kind

theorem expand_keepsCalls {s : Session} (sound : s.program.Sound RawCase)
    (read : s.program.root = src.root) :
    Completes T s (fun p => p.Sound RawCase ∧ EntriesFrom src.KeepsCall src.root p.root)
      (Phase.run functions limit src s .expand) := by
  obtain ⟨grows, _, holds⟩ := s.expandMacros_sound sound
  refine .intro (s.answer_of_nodes (congrArg Scratch.nodes s.expandMacros_scratch) _) grows
    fun silent => ?_
  refine (holds silent).imp_right fun sound' => ⟨sound', ?_⟩
  have entries := s.expandMacros_entries sound silent
  rw [read] at entries
  exact entries.trans (S := fun _ => Eq) (.refl (fun _ _ => rfl) _) fun _ _ _ _ _ _ stays same =>
    same ▸ stays.imp_right fun node => congrArg Node.kind node

/-- Through all phases. -/
theorem runPhases_keepsCalls (concrete : functions.Concrete) (log : List LogRecord) :
    Ends False { Session.start with log := log }
      (fun p' => ∃ (p : Program) (t : Typing), p.Resolved False ∧
      p'.root = p.root.mapNodes t.applyTo ∧ EntriesFrom src.KeepsCall src.root p.root ∧
      ∀ task b, (task, b) ∈ src.root.branches → ∀ e ∈ b.entries, e.kind = .call)
      (runPhases functions limit src { Session.start with log := log } reached Phase.all) := by
  refine runPhases_cons (parse_reads log) fun s ⟨sound, read⟩ => ?_
  have calls : ∀ task b, (task, b) ∈ src.root.branches → ∀ e ∈ b.entries, e.kind = .call :=
    fun task b member => (sound.form.branch (read ▸ member)).2
  refine runPhases_cons (expand_keepsCalls (sound.strengthen fun _ _ _ => And.left) read)
    fun s₁ ⟨raw, expanded⟩ => ?_
  refine runPhases_cons (normalize_completes raw.anyTargets) fun s₂ ⟨normal, normalized⟩ => ?_
  refine runPhases_cons (resolve_completes normal) fun s₃ ⟨resolved, linked⟩ => ?_
  refine runPhases_cons (s₃.inferTypes_infers concrete resolved) fun s₄ ⟨t, _, root⟩ => ?_
  have kept : EntriesFrom src.KeepsCall src.root s₂.program.root :=
    expanded.trans normalized fun _ _ _ _ _ _ keeps same => same ▸ keeps
  have kept : EntriesFrom src.KeepsCall src.root s₃.program.root :=
    kept.trans linked fun _ _ _ _ _ _ keeps related =>
      keeps.imp_right fun same => related.node.kind.trans same
  exact runPhases_nil ⟨s₃.program, t, resolved, root, kept, calls⟩

end Run

/-- In a program that is compiled without problems, every entry of a task list comes from a call in
the source, and it calls a task or a primitive with an argument for each parameter, unless the call
in the source is a call of a macro that stands for something else than a call. -/
theorem compile_ok_entries_invoke {opts : Options} {src : Source} {o : Outcome}
    (compiled : compile opts src = .ok o) (ok : o.ok = true) :
    EntriesFrom (fun task e e' => e.kind = .call ∧
      (o.tree.Invokes e' ∨ e'.kind ≠ .call ∧ src.root.CallsMacro task e)) src.root o.tree := by
  obtain ⟨_, ⟨p, s, resolved, root, kept, calls⟩, tree⟩ :=
    compile_ok_ends (runPhases_keepsCalls opts.functions_concrete _) compiled ok
  rw [tree, root]
  intro task' b' member'
  obtain ⟨task, b, member, rfl, rfl⟩ := exists_of_mem_branches_mapNodes s.applyTo_kind member'
  obtain ⟨task₀, b₀, read, same, entries⟩ := kept task b member
  refine ⟨task₀, b₀, read, ?_, ?_⟩
  · rw [← same, s.id_mapNodes]
  · rw [entries_mapNodes s.applyTo_kind, forall₂_map_right_iff]
    refine forall₂_iff_zip.mpr ⟨entries.length_eq, fun {e e'} zipped => ?_⟩
    obtain ⟨entry, entry'⟩ := of_mem_zip zipped
    have isCall := calls task₀ b₀ read e entry
    refine ⟨isCall, ?_⟩
    by_cases call : e'.kind = .call
    · exact .inl (invokes_of_call resolved member entry' call)
    · refine .inr ⟨fun call' => call ((mapNodes_kind s.applyTo_kind e').symm.trans call'), ?_⟩
      rcases (forall₂_iff_zip.mp entries).2 zipped with callsMacro | stays
      · exact callsMacro
      · exact absurd (stays.trans isCall) call

/-- A task list with a task, a primitive, a macro for a call and a macro for a number. -/
def mixedEntries : Source :=
  ⟨"mixed", Text.bytesOf "prim \x7b go(id32) \x7d fact \x7b at(id32) \x7d domain d \x7b
    macro move(x) = go(x) macro five() = 5
    task t(p) \x7b case at(p) -> [t(p), go(p), move(p), five()] \x7d \x7d"⟩

theorem compile_ok_entries_invoke_mixed :
    ∃ o, compile ⟨0, []⟩ mixedEntries = .ok o ∧ o.ok = true ∧
      (o.tree.branches.flatMap fun b => b.2.entries.map Tree.kind) = [.call, .call, .call,
      .literal] ∧ EntriesFrom (fun task e e' => e.kind = .call ∧
        (o.tree.Invokes e' ∨ e'.kind ≠ .call ∧ mixedEntries.root.CallsMacro task e))
        mixedEntries.root o.tree := by
  refine exists_of_compilesTo_and (by decide +kernel) fun o compiled ok => ?_
  exact compile_ok_entries_invoke compiled ok

/-- A macro for a number makes a task list of a number, which no phase reports. -/
def numberEntry : Source :=
  ⟨"number", Text.bytesOf "domain d \x7b macro m() = 5 task t() \x7b case -> [m()] \x7d \x7d"⟩

theorem compile_ok_entry_number :
    ∃ o, compile ⟨0, []⟩ numberEntry = .ok o ∧ o.ok = true ∧
      ∃ b ∈ o.tree.branches, ∃ e ∈ b.2.entries, ¬ o.tree.Invokes e := by
  have passes : compilesTo ⟨0, []⟩ numberEntry (fun o =>
        decide (∃ b ∈ o.tree.branches, ∃ e ∈ b.2.entries, e.kind = .literal)) =
        true := by decide +kernel
  obtain ⟨o, compiled, ok, b, member, e, entry, literal⟩ := exists_of_compilesTo passes
  refine ⟨o, compiled, ok, b, member, e, entry, ?_⟩
  rintro ⟨c, _, content, _⟩
  cases literal.symm.trans (congrArg Content.kind content)

end TaskNet
