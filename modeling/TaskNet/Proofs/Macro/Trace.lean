import TaskNet.Proofs.Macro.Termination

/-!
The expansions of a run of macro expansion, in the order in which they start. Each one is recorded
with its macro, its call, the names that its local variables were given, what it leaves in the place
of the call, and the states at its start and at its end. An expansion inside of another one stands
after it.
-/

namespace TaskNet

open Expander List MacroTable Tree

variable {domain : Tree}

namespace Expander

/-- What is reported from one state to another comes last and is about no recursive macro. -/
def ReportsOthers (s s' : Expander) : Prop :=
  ∃ others, s'.diagnostics.recorded = s.diagnostics.recorded ++ others ∧
    ∀ d ∈ others, d.problem ≠ .recursiveMacro

variable {s s' s'' : Expander}

theorem ReportsOthers.of_eq (same : s'.diagnostics = s.diagnostics) : s.ReportsOthers s' :=
  ⟨[], by simp [same], by simp⟩

theorem ReportsOthers.size_le (reports : s.ReportsOthers s') :
    s.diagnostics.size ≤ s'.diagnostics.size := by
  obtain ⟨others, recorded, _⟩ := reports
  simp [Collector.size, recorded]

theorem ReportsOthers.trans (first : s.ReportsOthers s') (second : s'.ReportsOthers s'') :
    s.ReportsOthers s'' := by
  obtain ⟨others, recorded, none⟩ := first
  obtain ⟨others', recorded', none'⟩ := second
  refine ⟨others ++ others', by rw [recorded', recorded, append_assoc], fun d member => ?_⟩
  exact (mem_append.mp member).elim (none d) (none' d)

end Expander

/-- One expansion of a macro call. -/
structure Expansion where
  template : Template
  body : Tree
  /-- The call after the calls in its arguments were expanded. -/
  call : Tree
  start : Expander
  /-- The local variables of the body with the names that they were given. -/
  pairs : List (String × String)
  /-- The instance of the body. -/
  copy : Tree
  named : Expander
  /-- The instance after the calls in it were expanded. -/
  expanded : Tree
  inner : Expander
  result : Tree
  finish : Expander

namespace Expansion

def names (x : Expansion) : List String :=
  x.pairs.map Prod.snd

/-- What an expansion does besides the expansion of the calls in the body: it makes an instance of
the body, and puts the arguments in the places of the parameters. -/
structure Steps (table : MacroTable) (x : Expansion) : Prop where
  isBody : x.template.body = some x.body
  declared : x.template ∈ table.declared
  copied : (instantiate table x.template x.body).run
    { x.start with expansions := x.start.expansions + 1 } = (x.copy, x.named)
  isInstance : table.Instance x.template x.body
    { x.start with expansions := x.start.expansions + 1 } x.pairs x.copy x.named
  filled : ∃ s, (x.expanded.substitute (argumentOf x.template x.call.children)).run x.inner =
    (x.result, s) ∧ x.finish =
      { s with
        pool := s.pool.discard x.call
        log := s.log ++ [.debug "expanded macro"
          [("macro", x.template.name), ("at", x.call.loc.text)]] }

/-- The arguments are put in the places of the parameters, and that takes no name. -/
theorem Steps.result_eq {table : MacroTable} {x : Expansion} (steps : x.Steps table) :
    x.result.anonymous = x.expanded.anonymous.subst
        (fun name => (argumentOf x.template x.call.children name).map anonymous) ∧
      x.finish.supply = x.inner.supply ∧ x.finish.expansions = x.inner.expansions ∧
      x.finish.diagnostics = x.inner.diagnostics := by
  obtain ⟨s, run, finish⟩ := steps.filled
  have filled := (x.expanded.substitute_run
    (argumentOf x.template x.call.children) x.inner).2 rfl
  rw [run] at filled
  have frame : s = { x.inner with pool := s.pool } := filled.frame
  rw [finish, frame]
  exact ⟨filled.result, rfl, rfl, rfl⟩

end Expansion

namespace MacroTable

variable {ts us : List Tree} {s s' : Expander} {xs : List Expansion}

/-- The macro whose body takes the place of a node, if one does, with the body. Calls of recursive
macros and calls with another number of arguments are not expanded. -/
def expansion? (table : MacroTable) (marked : List NodeId) (scope : Option NodeId) (t : Tree) :
    Option (Template × Tree) :=
  match table.refer? scope t.content with
  | none => none
  | some m =>
    if marked.contains m.id || (t.kind == .call && t.children.length != m.formals.length) then none
    else m.body.map fun body => (m, body)

/-- The calls in trees of a scope are expanded from left to right and from the bottom up, by the
expansions listed. -/
inductive Traces (table : MacroTable) (marked : List NodeId) :
    Option NodeId → List Tree → Expander → List Tree → Expander → List Expansion → Prop
  | nil {scope : Option NodeId} {s : Expander} : Traces table marked scope [] s [] s []
  | error {scope : Option NodeId} {n : Node} {cs ts us : List Tree} {s s' : Expander}
      {xs : List Expansion} (error : n.kind = .error)
      (rest : Traces table marked scope ts s us s' xs) :
      Traces table marked scope (.mk n cs :: ts) s (.mk n cs :: us) s' xs
  | node {scope : Option NodeId} {n : Node} {cs ds ts us : List Tree} {u : Tree}
      {s s₁ s₂ s' : Expander} {xs ys : List Expansion} (sound : n.kind ≠ .error)
      (below : Traces table marked scope cs s ds s₁ xs)
      (none : table.expansion? marked scope (.mk n ds) = none)
      (here : (expandNode table marked (fun _ t => pure t) scope (.mk n ds)).run s₁ = (u, s₂))
      (rest : Traces table marked scope ts s₂ us s' ys) :
      Traces table marked scope (.mk n cs :: ts) s (u :: us) s' (xs ++ ys)
  | call {scope : Option NodeId} {n : Node} {cs ds ts us : List Tree} {s s' : Expander}
      {x : Expansion} {xs ys zs : List Expansion} (sound : n.kind ≠ .error)
      (below : Traces table marked scope cs s ds x.start xs) (isCall : x.call = .mk n ds)
      (means : table.expansion? marked scope (.mk n ds) = some (x.template, x.body))
      (steps : x.Steps table)
      (within : Traces table marked x.template.scope [x.copy] x.named [x.expanded] x.inner ys)
      (rest : Traces table marked scope ts x.finish us s' zs) :
      Traces table marked scope (.mk n cs :: ts) s (x.result :: us) s' (xs ++ x :: (ys ++ zs))

variable {table : MacroTable} {marked : List NodeId} {scope : Option NodeId}

theorem Traces.append {ts' us' : List Tree} {s'' : Expander} {ys : List Expansion}
    (first : Traces table marked scope ts s us s' xs)
    (second : Traces table marked scope ts' s' us' s'' ys) :
    Traces table marked scope (ts ++ ts') s (us ++ us') s'' (xs ++ ys) := by
  induction first with
  | nil => exact second
  | error error _ ih => exact .error error (ih second)
  | node sound below none here _ _ ih =>
    have whole := Traces.node sound below none here (ih second)
    simpa only [append_assoc, cons_append] using whole
  | call sound below isCall means steps within _ _ _ ih =>
    have whole := Traces.call sound below isCall means steps within (ih second)
    simpa only [append_assoc, cons_append] using whole

/-- A node that is not expanded is left, or reported and marked as an error. -/
theorem expandNode_left {t u : Tree}
    (here : (expandNode table marked (fun _ t => pure t) scope t).run s = (u, s')) :
    (u = t ∨ ∃ problem, u = t.markError problem) ∧
      s' = { s with diagnostics := s'.diagnostics } ∧ s.ReportsOthers s' := by
  rw [expandNode] at here
  split at here
  · cases here
    exact ⟨.inl rfl, rfl, .of_eq rfl⟩
  · next m _ =>
    split at here
    · cases here
      exact ⟨.inr ⟨_, rfl⟩, rfl, .of_eq rfl⟩
    · split at here
      · cases here
        exact ⟨.inr ⟨_, rfl⟩, rfl,
          [.make .mismatchingNumberOfArgs t.loc [.name m.name, .group "macro"]], rfl, by
            simp [Diagnostic.make]⟩
      · split at here
        · cases here
          exact ⟨.inl rfl, rfl, .of_eq rfl⟩
        · cases here
          exact ⟨.inl rfl, rfl, .of_eq rfl⟩

theorem supply_left {t u : Tree}
    (here : (expandNode table marked (fun _ t => pure t) scope t).run s = (u, s')) :
    s'.supply = s.supply := by
  rw [(expandNode_left here).2.1]

/-- The names that the supply gave in a run are those of its expansions, in order, and there are as
many expansions as were counted. -/
theorem Traces.grows (traces : Traces table marked scope ts s us s' xs) :
    s.supply.Grows (xs.flatMap Expansion.names) s'.supply ∧
      s'.expansions = s.expansions + xs.length := by
  induction traces with
  | nil => exact ⟨.refl _, rfl⟩
  | error _ _ ih => exact ih
  | node _ _ _ here _ below rest =>
    have count := congrArg Expander.expansions (expandNode_left here).2.1
    rw [supply_left here] at rest
    rw [flatMap_append, length_append]
    exact ⟨below.1.trans rest.1, by dsimp only at count; omega⟩
  | @call _ _ _ _ _ _ _ _ x _ _ _ _ _ _ _ steps _ _ below within rest =>
    obtain ⟨_, supply, count, _⟩ := steps.result_eq
    have named := congrArg Expander.expansions steps.isInstance.frame
    have given : x.start.supply.Grows x.names x.named.supply := steps.isInstance.gives.grows
    rw [supply] at rest
    simp only [flatMap_append, flatMap_cons, length_append, length_cons]
    exact ⟨below.1.trans (given.trans (within.1.trans rest.1)), by dsimp only at named; omega⟩

/-- Expanding calls reports no recursive macro. -/
theorem Traces.reports (traces : Traces table marked scope ts s us s' xs) : s.ReportsOthers s' := by
  induction traces with
  | nil => exact .of_eq rfl
  | error _ _ ih => exact ih
  | node _ _ _ here _ below rest => exact (below.trans (expandNode_left here).2.2).trans rest
  | @call _ _ _ _ _ _ _ _ x _ _ _ _ _ _ _ steps _ _ below within rest =>
    have named : x.named.diagnostics = x.start.diagnostics := by rw [steps.isInstance.frame]
    have filled : x.start.ReportsOthers x.finish :=
      ((ReportsOthers.of_eq named).trans within).trans (.of_eq steps.result_eq.2.2.2)
    exact (below.trans filled).trans rest

section Ends

def NodeTraces (table : MacroTable) (marked : List NodeId) (scope : Option NodeId) (t : Tree)
    (s : Expander) (u : Tree) (s' : Expander) : Prop :=
  ∀ (n : Node) (cs ds : List Tree) (s₀ : Expander) (xs : List Expansion), t = .mk n ds →
    n.kind ≠ .error → Traces table marked scope cs s₀ ds s xs →
    ∃ ys, Traces table marked scope [.mk n cs] s₀ [u] s' ys

def CallTraces (table : MacroTable) (marked : List NodeId) (m : Template) (call : Tree)
    (s : Expander) (u : Tree) (s' : Expander) : Prop :=
  m ∈ table.declared → ∃ (x : Expansion) (ys : List Expansion), x.template = m ∧ x.call = call ∧
    x.start = s ∧ x.result = u ∧ x.finish = s' ∧ x.Steps table ∧
    Traces table marked x.template.scope [x.copy] x.named [x.expanded] x.inner ys

theorem nodeTraces_left {t u : Tree} {s s' : Expander}
    (none : table.expansion? marked scope t = none)
    (here : (expandNode table marked (fun _ t => pure t) scope t).run s = (u, s')) :
    table.NodeTraces marked scope t s u s' := by
  rintro n cs ds s₀ xs rfl sound below
  exact ⟨_, .node sound below none here .nil⟩

theorem TreeEnds.traces (bodied : table.Bodied) {within : Option Template} {t u : Tree}
    {s s' : Expander} (ends : TreeEnds table marked within scope t s u s') :
    ∃ xs, Traces table marked scope [t] s [u] s' xs := by
  refine @TreeEnds.rec table marked
    (fun _ scope t s u s' _ => ∃ xs, Traces table marked scope [t] s [u] s' xs)
    (fun _ scope ts s us s' _ => ∃ xs, Traces table marked scope ts s us s' xs)
    (fun _ scope t s u s' _ => table.NodeTraces marked scope t s u s')
    (fun m call s u s' _ => table.CallTraces marked m call s u s')
    ?error ?node ?nil ?cons ?plain ?recursive ?misfit ?bodiless ?call ?intro
    within scope t s u s' ends
  case error =>
    intro within scope n cs s error
    exact ⟨[], .error error .nil⟩
  case node =>
    intro within scope n cs ds u s s' s'' sound _ _ below here
    obtain ⟨xs, below⟩ := below
    exact here n cs ds s xs rfl sound below
  case nil =>
    intro within scope s
    exact ⟨[], .nil⟩
  case cons =>
    intro within scope t u ts us s s' s'' _ _ head tail
    obtain ⟨xs, head⟩ := head
    obtain ⟨ys, tail⟩ := tail
    exact ⟨xs ++ ys, head.append tail⟩
  case plain =>
    intro within scope t s means
    exact nodeTraces_left (by rw [expansion?, means]) (by rw [expandNode, means]; rfl)
  case recursive =>
    intro within scope t s m means isMarked
    refine nodeTraces_left ?_ ?_
    · rw [expansion?, means]
      simp [isMarked]
    · rw [expandNode, means]
      simp only [contains_iff_mem.mpr isMarked, if_true]
      rfl
  case misfit =>
    intro within scope t s m means free misfits
    have differs : (t.kind == .call && t.children.length != m.formals.length) = true := by
      simpa [Misfits] using misfits
    refine nodeTraces_left ?_ ?_
    · rw [expansion?, means]
      simp [differs]
    · rw [expandNode, means]
      simp only [differs, if_true, contains_iff_mem, free, if_false]
      rfl
  case bodiless =>
    intro within scope t s m means free fits none
    have same : (t.kind == .call && t.children.length != m.formals.length) = false := by
      simpa [Misfits] using fits
    refine nodeTraces_left ?_ ?_
    · rw [expansion?, means]
      simp [none]
    · rw [expandNode, means]
      simp only [same, contains_iff_mem, free, if_false, none, Bool.false_eq_true]
      rfl
  case call =>
    intro within scope t u s s' m means free fits _ _ expands n cs ds s₀ xs isNode sound below
    have same : (t.kind == .call && t.children.length != m.formals.length) = false := by
      simpa [Misfits] using fits
    obtain ⟨x, ys, rfl, isCall, rfl, rfl, rfl, steps, inner⟩ := expands (mem_of_refer? means)
    have reads : table.expansion? marked scope t = some (x.template, x.body) := by
      rw [expansion?, means]
      simp [same, free, steps.isBody]
    rw [isNode] at isCall reads
    exact ⟨_, .call sound below isCall reads steps inner .nil⟩
  case intro =>
    intro m call body copy expanded new s s₁ s₂ s₃ isBody copied _ filled inner declared
    obtain ⟨ys, inner⟩ := inner
    obtain ⟨pairs, _, isInstance, _⟩ := instantiate_eq table m (bodied m declared body isBody).1
      { s with expansions := s.expansions + 1 }
    rw [copied] at isInstance
    exact ⟨⟨m, body, call, s, pairs, copy, s₁, expanded, s₂, new, _⟩, ys, rfl, rfl, rfl, rfl, rfl,
      ⟨isBody, declared, copied, isInstance, s₃, filled, rfl⟩, inner⟩

end Ends

end MacroTable

/-- What a tree hands on to its children holds of the expressions of a case. -/
theorem Tree.HasParts.forall_expressions {P : Tree → Prop} {branch pre list : Tree} {info : Guarded}
    {attrs : List Tree} (parts : HasParts branch info attrs pre list)
    (descends : ∀ t c, P t → c ∈ t.children → P c) (holds : P branch) :
    ∀ t ∈ attrs.flatMap Tree.children ++ pre :: list.children, P t := by
  have inParts : ∀ t ∈ attrs ++ [pre, list], P t := fun t member =>
    descends branch t holds (parts.children ▸ member)
  intro t member
  simp only [mem_append, mem_flatMap, mem_cons] at member
  rcases member with ⟨a, inside, below⟩ | rfl | below
  · exact descends a t (inParts a (by simp [inside])) below
  · exact inParts t (by simp)
  · exact descends list t (inParts list (by simp)) below

namespace MacroTable

variable {table : MacroTable} {marked : List NodeId} {scope : Option NodeId}
variable {s s' : Expander} {branch b task : Tree}

/-- The calls in a case are expanded, in its attributes, its precondition and its task list, by the
expansions listed. -/
def CaseTraces (table : MacroTable) (marked : List NodeId) (task branch : Tree) (s : Expander)
    (b : Tree) (s' : Expander) (xs : List Expansion) : Prop :=
  ∃ info info' attrs attrs' pre pre' list list', HasParts branch info attrs pre list ∧
    HasParts b info' attrs' pre' list' ∧ attrs'.map Tree.node = attrs.map Tree.node ∧
    list'.node = list.node ∧ Traces table marked (some task.id)
      (attrs.flatMap children ++ pre :: list.children) s
      (attrs'.flatMap children ++ pre' :: list'.children) s' xs

theorem Traces.of_chain (bodied : table.Bodied) {ts us : List Tree}
    (chain : Chain (TreeEnds table marked none scope) ts s us s') :
    ∃ xs, Traces table marked scope ts s us s' xs := by
  induction chain with
  | nil s => exact ⟨[], .nil⟩
  | cons head _ ih =>
    obtain ⟨xs, first⟩ := head.traces bodied
    obtain ⟨ys, rest⟩ := ih
    exact ⟨xs ++ ys, first.append rest⟩

theorem OnCase.kind {R : Tree → Expander → Tree → Expander → Prop} (step : OnCase R branch s b s') :
    b.kind = branch.kind := by
  rcases step with ⟨_, _, _, content, _, _, _, rfl⟩ | ⟨_, rfl, _⟩
  · exact (congrArg Content.kind content).symm
  · rfl

theorem CaseSteps.traces (bodied : table.Bodied)
    (steps : CaseSteps (TreeEnds table marked none (some task.id)) branch s b s') :
    ∃ xs, table.CaseTraces marked task branch s b s' xs := by
  obtain ⟨info, info', attrs, attrs', pre, pre', list, list', _, _, parts, parts', _, onAttrs,
    onPre, node, onList⟩ := steps
  have nodes : attrs'.map Tree.node = attrs.map Tree.node :=
    (map_eq_of_forall₂ (onAttrs.forall₂ fun _ _ _ _ step => step.1.symm)).symm
  have inAttrs := (onAttrs.imp fun _ _ _ _ _ step => step.2).flatMap
  obtain ⟨xs, traces⟩ := Traces.of_chain bodied (inAttrs.append (.cons onPre onList))
  exact ⟨xs, info, info', attrs, attrs', pre, pre', list, list', parts, parts', nodes, node, traces⟩

theorem CaseTraces.grows {xs : List Expansion}
    (traces : table.CaseTraces marked task branch s b s' xs) :
    s.supply.Grows (xs.flatMap Expansion.names) s'.supply ∧
      s'.expansions = s.expansions + xs.length := by
  obtain ⟨_, _, _, _, _, _, _, _, _, _, _, _, traces⟩ := traces
  exact traces.grows

end MacroTable

namespace Session

/-- A pass over a program in order, with a domain: the expressions of all cases are expanded, and
what each of them adds to the reports is among what the pass reports. -/
theorem expandMacros_steps (s : Session) {B : Tree → Prop} (sound : s.program.Sound B)
    (isCase : ∀ b, B b → RawCase b)
    (found : s.program.root.findChild? .domain = some domain) :
    let start := s.expander (s.recursiveMacros domain)
    ∃ root e, OnBranches (fun task => CaseSteps fun t r u r' =>
          (∃ xs, Traces (s.macros domain) ((s.recursiveMacros domain).map Template.id)
            (some task.id) [t] r [u] r' xs) ∧ start.ReportsOthers r ∧ r'.ReportsOthers e)
        s.program.root start root e ∧ start.ReportsOthers e ∧
      s.expandMacros.2.program = ⟨root, e.pool.loose, e.pool.next, s.program.declarations⟩ ∧
      ∃ redefined, s.expandMacros.2.diagnostics = e.diagnostics.append redefined ∧
        ∀ d ∈ redefined, d.problem = .redefinition := by
  intro start
  obtain ⟨root, e, _, steps, program, redefined, _⟩ := s.expandMacros_run sound found
  have reports : ∀ (task t : Tree) (r : Expander) (u : Tree) (r' : Expander),
      (s.macros domain).TreeEnds ((s.recursiveMacros domain).map Template.id) none (some task.id)
        t r u r' → (∃ xs, Traces (s.macros domain)
          ((s.recursiveMacros domain).map Template.id) (some task.id) [t] r [u] r' xs) ∧
        r.ReportsOthers r' := by
    intro task t r u r' ends
    obtain ⟨xs, traces⟩ := ends.traces (bodied_ofTree sound found)
    exact ⟨⟨xs, traces⟩, traces.reports⟩
  have refl : ∀ r : Expander, r.ReportsOthers r := fun _ => .of_eq rfl
  have steps := steps.imp fun task branch member _ _ _ step =>
    step.steps (isCase branch (sound.form.branch member)) (sound.accounted.branch_distinct member)
  obtain ⟨whole, steps⟩ := steps.between refl .trans fun task _ _ _ _ step =>
    (step.between refl .trans (fun t r u r' ends => (reports task t r u r' ends).2)
      (S := fun _ _ _ _ => True) fun _ _ _ _ _ _ _ => trivial).1
  refine ⟨root, e, steps.imp fun task _ _ _ _ _ step => ?_, whole, program, redefined⟩
  exact (step.1.between refl .trans (fun t r u r' ends => (reports task t r u r' ends).2)
    fun t r u r' ends before after => ⟨(reports task t r u r' ends).1, step.2.1.trans before,
      after.trans step.2.2⟩).2

/-- The expansions of a pass over a program with a domain, case by case: the cases of the new
program are those of the old one, in order, with the calls in them expanded, and nothing else is
different. -/
structure Traced (s : Session) (domain : Tree) (cases : List (Tree × List Expansion))
    (e : Expander) : Prop where
  run : (s.program.root.mapBranchesM ((s.macros domain).expandBranch
      ((s.recursiveMacros domain).map Template.id))).run (s.expander (s.recursiveMacros domain)) =
    (s.expandMacros.2.program.root, e)
  steps : Chain (fun pair s' made s'' => (s.macros domain).CaseTraces
      ((s.recursiveMacros domain).map Template.id) pair.1 pair.2 s' made.1 s'' made.2)
    s.program.root.branches (s.expander (s.recursiveMacros domain)) cases e
  results : s.expandMacros.2.program.root.branches.map Prod.snd = cases.map Prod.fst
  updates : Updates (fun _ _ b => b.kind = .branch) s.program.root s.expandMacros.2.program.root

/-- For every program that comes from sources, the pass has a list of expansions. -/
theorem expandMacros_traced {s : Session} (sources : s.program.FromSources)
    (found : s.program.root.findChild? .domain = some domain) :
    ∃ cases e, s.Traced domain cases e := by
  have sound := sources.sound
  have bodied : (s.macros domain).Bodied := bodied_ofTree sound found
  obtain ⟨root, e, run, steps, program, _⟩ := s.expandMacros_run sound found
  have isRoot : s.expandMacros.2.program.root = root := by rw [program]
  rw [← isRoot] at run steps
  have updates := (steps.keeps (I := fun _ => True) (Q := fun _ _ b => b.kind = .branch)
    (fun task branch member _ _ _ step _ => by
      obtain ⟨_, _, _, below⟩ := mem_branches.mp member
      exact ⟨trivial, step.kind.trans (mem_childrenOf.mp below).2⟩) trivial).2
  have chain := steps.chain fun _ _ _ _ _ step isBranch => step.kind.trans isBranch
  obtain ⟨cases, results, chain⟩ := Chain.collect (T := fun pair s' b s'' xs =>
    (s.macros domain).CaseTraces ((s.recursiveMacros domain).map Template.id) pair.1 pair.2 s' b s''
    xs) (chain.imp fun pair member s b s' step => (step.steps (sound.form.branch member).1
      (sound.accounted.branch_distinct member)).traces bodied)
  exact ⟨cases, e, run, chain, results.symm, updates⟩

end Session

end TaskNet
