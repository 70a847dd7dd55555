import TaskNet.Proofs.Compile.Typedness

/-!
How arguments are passed in a compiled program. When a compilation reports nothing, an argument of a
task call converts to the type of the parameter by widening, and so does an argument of a function
to the parameter of the overload that was chosen. For tasks this is what the last sweep over their
calls leaves behind: the types that it looked at are those that are stored on the nodes afterwards.
-/

namespace TaskNet

open Infer List Program Tree Typing

variable {above : Option Node}

section Inferred

variable {T : Prop} {functions : OverloadTable} {p : Program} {s : Typing} {task branch : Tree}

variable {info : Guarded} {attrs : List Tree} {pre list e callee : Tree} {c : Invocation}

/-- A call in a task list is linked to a task or a primitive, with an argument for each parameter.
-/
theorem callee_of_entry (resolved : p.Resolved T)
    (resolution : Resolution T (.ofTask p.declarations task) branch info attrs pre list)
    (entry : e ∈ list.children) (content : e.content = .call c) :
    ∃ callee, c.decl = some callee.id ∧ (∃ above, ⟨callee, above⟩ ∈ p.siteList) ∧
      e.children.length = (callee.childrenOf .param).length ∧
      (callee ∈ p.root.tasks ∨ callee ∈ p.root.childrenOfFirst .primitives) := by
  rcases resolution.entryLinked e entry with ⟨c', d, content', declared, callable, _⟩ | ⟨other, _⟩
  · obtain rfl : c' = c := by simpa [content] using content'.symm
    obtain ⟨k, block, t, found, below, same, arity, group⟩ := resolved.callable d callable.1
    refine ⟨t, by rw [same, declared], ⟨_, mem_siteList_block found below⟩,
      by rw [arity]; exact callable.2, ?_⟩
    rcases group with ⟨rfl, isTask⟩ | rfl
    · exact .inl (mem_tasks.mpr ⟨block, found, mem_childrenOf.mpr ⟨below, isTask⟩⟩)
    · exact .inr (mem_childrenOfFirst.mpr ⟨block, found, below⟩)
  · exact absurd (congrArg Content.kind content) other

theorem declaration?_of_site (resolved : p.Resolved T) (content : e.content = .call c)
    (site : ⟨callee, above⟩ ∈ p.siteList) (declared : c.decl = some callee.id) :
    (TypingContext.ofProgram functions p).declaration? e.content = some ⟨callee, above⟩ := by
  rw [content, TypingContext.declaration?, declared, Option.bind_some]
  exact resolved.sound.accounted.site?_eq site

theorem length_of_entry (resolved : p.Resolved T)
    (resolution : Resolution T (.ofTask p.declarations task) branch info attrs pre list)
    (entry : e ∈ list.children) (content : e.content = .call c)
    (site : ⟨callee, above⟩ ∈ p.siteList) (declared : c.decl = some callee.id) :
    e.children.length = (callee.childrenOf .param).length := by
  obtain ⟨t, same, ⟨_, other⟩, fits, _⟩ := callee_of_entry resolved resolution entry content
  cases resolved.sound.accounted.unique other site (Option.some.inj (same.symm.trans declared))
  exact fits

/-- The types of the arguments of a task call join into those of its parameters without changing
them. -/
theorem fits_of_taskCall (resolved : p.Resolved T) (inferred : Inferred functions p s)
    (member : (task, branch) ∈ p.root.branches)
    (resolution : Resolution T (.ofTask p.declarations task) branch info attrs pre list)
    (entry : e ∈ list.children) (content : e.content = .call c) (isTask : callee ∈ p.root.tasks)
    (declared : c.decl = some callee.id) :
    List.Forall₂ (fun a q => (s.typeAt a.id).wideningCost (s.typeAt q.id) ≠ none ∧
      (s.typeAt q.id).unify (s.typeAt a.id) = s.typeAt q.id) e.children
      (callee.childrenOf .param) := by
  obtain ⟨above, atTask⟩ := mem_siteList_task isTask
  have taskKind : callee.kind = .task := by
    obtain ⟨d, _, inside⟩ := mem_tasks.mp isTask
    exact (mem_childrenOf.mp inside).2
  refine forall₂_iff_zip.mpr
    ⟨length_of_entry resolved resolution entry content atTask declared, fun {a q} zipped => ?_⟩
  obtain ⟨arg, param⟩ := of_mem_zip zipped
  have settled : a.Throughout (Settled (.ofProgram functions p) s) :=
    inferred.argument resolved member resolution entry arg
  have joins : (s.typeAt q.id).unify (s.typeAt a.id) = s.typeAt q.id := by
    rw [typeAt_of_settled settled]
    refine (inferred.fits _ member e ?_ _ (declaration?_of_site resolved content atTask declared)
      taskKind (a, q) zipped).joins
    rw [callsOf_eq resolution resolved.sound.accounted member]
    exact entry
  refine ⟨TypeTag.wideningCost_of_unify (inferred.params q ?_) ?_ joins, joins⟩
  · obtain ⟨d, domain, inside⟩ := mem_tasks.mp isTask
    rw [taskParams, domain]
    exact mem_flatMap.mpr ⟨callee, inside, param⟩
  · exact TypeTag.isConcrete_ne_any (Throughout.here settled).concrete

/-- The arguments of a function convert to the parameters of the overload that was chosen. -/
theorem converts_of_functionCall (resolved : p.Resolved T) (inferred : Inferred functions p s)
    (member : (task, branch) ∈ p.root.branches) {t u : Tree} (inside : t ∈ branch.expressions)
    (visits : u ∈ t.visited) (content : u.content = .call c) (undeclared : c.decl = none) :
    ∃ sig, s.overloadAt u.id = some sig ∧
      List.Forall₂ (fun a p => a.wideningCost p ≠ none) (s.operandTypes u) sig.params := by
  rcases settled_or_taskCall resolved inferred member inside visits with
    settled | ⟨_, d, isCall, declared⟩
  · obtain ⟨sig, chosen, found⟩ := settled.overload c content undeclared
    exact ⟨sig, chosen, OverloadTable.resolve_converts found⟩
  · obtain rfl : d = c := by simpa [content] using isCall.symm
    exact absurd undeclared declared

end Inferred

/-- How the arguments of a case are passed. A call in a task list is linked to a task or a
primitive, and to a task each argument converts; to a function each argument converts by the
overload of the call. -/
structure Tree.PassesByWidening (root branch : Tree) : Prop where
  linked : ∀ list ∈ branch.children, list.kind = .taskList → ∀ e ∈ list.children, ∀ c,
    e.content = .call c → ∃ callee, c.decl = some callee.id ∧
      (callee ∈ root.tasks ∨ callee ∈ root.childrenOfFirst .primitives)
  tasks : ∀ list ∈ branch.children, list.kind = .taskList → ∀ e ∈ list.children, ∀ c,
    e.content = .call c → ∀ callee ∈ root.tasks, c.decl = some callee.id →
      List.Forall₂ (fun a q => a.node.type.wideningCost q.node.type ≠ none ∧
        q.node.type.unify a.node.type = q.node.type) e.children (callee.childrenOf .param)
  functions : ∀ u ∈ branch.visited, ∀ c, u.content = .call c → c.decl = none →
    ∃ sig, c.signature = some sig ∧
      List.Forall₂ (fun a type => a.node.type.wideningCost type ≠ none) u.children sig.params

section Applied

variable {T : Prop} {functions : OverloadTable} {p : Program} {s : Typing} {task branch : Tree}
variable {f : Node → Node}

theorem tasks_mapNodes (kinds : ∀ n, (f n).kind = n.kind) (root : Tree) :
    (root.mapNodes f).tasks = root.tasks.map (mapNodes f) := by
  rw [tasks, tasks, findChild?_mapNodes kinds]
  cases root.findChild? .domain with
  | none => rfl
  | some d => simp [childrenOf_mapNodes kinds]

theorem mem_tasks_mapNodes (kinds : ∀ n, (f n).kind = n.kind) {root callee' : Tree} :
    callee' ∈ (root.mapNodes f).tasks ↔ ∃ callee ∈ root.tasks, callee' = callee.mapNodes f := by
  simp [tasks_mapNodes kinds, eq_comm]

theorem childrenOfFirst_mapNodes (kinds : ∀ n, (f n).kind = n.kind) (root : Tree) (k : Kind) :
    (root.mapNodes f).childrenOfFirst k = (root.childrenOfFirst k).map (mapNodes f) := by
  rw [childrenOfFirst, childrenOfFirst, findChild?_mapNodes kinds]
  cases root.findChild? k with
  | none => rfl
  | some d => simp

section Parts

variable {scope : NameScope} {info : Guarded} {attrs : List Tree} {pre list part' : Tree}
variable (resolution : Resolution T scope branch info attrs pre list)
variable (part : part' ∈ (branch.mapNodes s.applyTo).children)
include resolution part

/-- The parts of a typed case are its attributes, its precondition and its task list. -/
theorem part_of_applied :
    part'.kind = .attr ∨ part' = pre.mapNodes s.applyTo ∨ part' = list.mapNodes s.applyTo := by
  rw [mapNodes_children] at part
  obtain ⟨t, inside, rfl⟩ := mem_map.mp part
  rw [resolution.children] at inside
  simp only [mem_append, mem_cons, not_mem_nil, or_false] at inside
  rcases inside with attr | rfl | rfl
  · exact .inl ((mapNodes_kind s.applyTo_kind t).trans (resolution.attrKinds t attr))
  · exact .inr (.inl rfl)
  · exact .inr (.inr rfl)

theorem precond_of_applied (isExpression : part'.kind.isExpression = true) :
    part' = pre.mapNodes s.applyTo := by
  rcases part_of_applied resolution part with attr | same | rfl
  · simp [attr, Kind.isExpression] at isExpression
  · exact same
  · have kind : list.kind = .taskList := congrArg Content.kind resolution.listContent
    rw [mapNodes_kind s.applyTo_kind, kind] at isExpression
    cases isExpression

theorem list_of_applied (isList : part'.kind = .taskList) : part' = list.mapNodes s.applyTo := by
  rcases part_of_applied resolution part with attr | rfl | same
  · simp [attr] at isList
  · have expression := resolution.precondTerm.isExpression
    rw [← mapNodes_kind s.applyTo_kind, isList] at expression
    cases expression
  · exact same

end Parts

/-- The entries of the task list of a typed case are those of the case before. -/
theorem entry_of_applied (resolved : p.Resolved T) (member : (task, branch) ∈ p.root.branches)
    {list' e' : Tree} (part : list' ∈ (branch.mapNodes s.applyTo).children)
    (isList : list'.kind = .taskList) (entry' : e' ∈ list'.children) :
    ∃ info attrs pre list e, Resolution T (.ofTask p.declarations task) branch info attrs pre list ∧
      e ∈ list.children ∧ e' = e.mapNodes s.applyTo := by
  obtain ⟨info, attrs, pre, list, resolution⟩ := resolved.branches task branch member
  rw [list_of_applied resolution part isList, mapNodes_children] at entry'
  obtain ⟨e, entry, rfl⟩ := mem_map.mp entry'
  exact ⟨info, attrs, pre, list, e, resolution, entry, rfl⟩

/-- What is known of the types of arguments and parameters holds of those that are stored. -/
theorem passed_mapNodes {R : TypeTag → TypeTag → Prop} (resolved : p.Resolved T)
    (inferred : Inferred functions p s) {u callee : Tree} {beside : Option Node}
    (site : ⟨u, above⟩ ∈ p.siteList) (declared : ⟨callee, beside⟩ ∈ p.siteList)
    (passed : List.Forall₂ (fun a q => R (s.typeAt a.id) (s.typeAt q.id)) u.children
      (callee.childrenOf .param)) :
    List.Forall₂ (fun a q => R a.node.type q.node.type) (u.mapNodes s.applyTo).children
      ((callee.mapNodes s.applyTo).childrenOf .param) := by
  rw [mapNodes_children, childrenOf_mapNodes s.applyTo_kind, forall₂_map_left_iff,
    forall₂_map_right_iff]
  obtain ⟨length, each⟩ := forall₂_iff_zip.mp passed
  refine forall₂_iff_zip.mpr ⟨length, fun {a q} zipped => ?_⟩
  obtain ⟨arg, param⟩ := of_mem_zip zipped
  rw [type_mapNodes resolved inferred (child_mem_siteList site arg),
    type_mapNodes resolved inferred (child_mem_siteList declared (mem_childrenOf.mp param).1)]
  exact each zipped

/-- In the typed program arguments are passed by widening. -/
theorem passesByWidening_of_inferred (resolved : p.Resolved T) (inferred : Inferred functions p s)
    (member : (task, branch) ∈ p.root.branches) :
    (p.root.mapNodes s.applyTo).PassesByWidening (branch.mapNodes s.applyTo) := by
  have kinds := s.applyTo_kind
  have sites := (mem_siteList_branch member).2
  refine ⟨fun list' part isList e' entry' c' content' => ?_,
    fun list' part isList e' entry' c' content' callee' isTask' declared' => ?_,
    fun u' visits' c' content' undeclared => ?_⟩
  · obtain ⟨_, _, _, list, e, resolution, entry, rfl⟩ :=
      entry_of_applied resolved member part isList entry'
    obtain ⟨c, content, decl, _⟩ := applyTo_call ((mapNodes_content e).symm.trans content')
    obtain ⟨callee, declared, _, _, group⟩ := callee_of_entry resolved resolution entry content
    refine ⟨callee.mapNodes s.applyTo, by rw [decl, declared, s.id_mapNodes],
      group.imp (fun isTask => ?_) fun inside => ?_⟩
    · exact (mem_tasks_mapNodes kinds).mpr ⟨callee, isTask, rfl⟩
    · rw [childrenOfFirst_mapNodes kinds]
      exact mem_map_of_mem inside
  · obtain ⟨_, _, _, list, e, resolution, entry, rfl⟩ :=
      entry_of_applied resolved member part isList entry'
    obtain ⟨c, content, decl, _⟩ := applyTo_call ((mapNodes_content e).symm.trans content')
    obtain ⟨callee, isTask, rfl⟩ := (mem_tasks_mapNodes kinds).mp isTask'
    have fits := fits_of_taskCall resolved inferred member resolution entry content isTask
      (by rw [← decl, declared', s.id_mapNodes])
    obtain ⟨_, atTask⟩ := mem_siteList_task isTask
    exact passed_mapNodes (R := fun a q => a.wideningCost q ≠ none ∧ q.unify a = q)
      resolved inferred
      (sites _ (mem_siteList_below resolution.list_mem (mem_siteList_child entry))) atTask fits
  · have isExpression : u'.kind.isExpression = true := congrArg (·.kind.isExpression) content'
    obtain ⟨t, inside, u, below, rfl, above, site⟩ :=
      mem_visited_of_applied resolved member visits' isExpression
    obtain ⟨c, content, decl, chosen⟩ := applyTo_call ((mapNodes_content u).symm.trans content')
    obtain ⟨sig, overload, converts⟩ := converts_of_functionCall resolved inferred member inside
      below content (decl.symm.trans undeclared)
    refine ⟨sig, chosen sig overload, ?_⟩
    rw [mapNodes_children, forall₂_map_left_iff]
    refine forall₂_imp_mem (forall₂_map_left_iff.mp converts) fun a arg type fits => ?_
    rw [type_mapNodes resolved inferred (child_mem_siteList site arg)]
    exact fits

end Applied

/-- In a program that is compiled without problems, arguments of tasks and functions are passed by
widening only. -/
theorem compile_ok_passesByWidening {opts : Options} {src : Source} {o : Outcome}
    (compiled : compile opts src = .ok o) (ok : o.ok = true) :
    ∀ task branch, (task, branch) ∈ o.tree.branches → o.tree.PassesByWidening branch := by
  obtain ⟨p, s, resolved, inferred, tree⟩ := compile_ok_inferred compiled ok
  rw [tree]
  intro task' branch' member'
  obtain ⟨task, branch, member, rfl⟩ := mem_branches_mapNodes s.applyTo_kind member'
  exact passesByWidening_of_inferred resolved inferred member

/-- A task that is called with a narrower argument, by a case with a function in its precondition.
-/
theorem compile_ok_passesByWidening_narrow_argument :
    ∃ o, compile ⟨0, []⟩ ⟨"relay", Text.bytesOf
        "fact { p(int8) q(float) } domain d { task t(x) { case q(x) -> [] } task u() { case p(n) & abs(n) > 1 -> [t(n)] } }"⟩ =
          .ok o ∧ o.ok = true ∧ o.tree.branches.length = 2 ∧
        ∀ task branch, (task, branch) ∈ o.tree.branches → o.tree.PassesByWidening branch := by
  refine exists_of_compilesTo_and (by decide +kernel) fun o compiled ok => ?_
  exact compile_ok_passesByWidening compiled ok

end TaskNet
