import TaskNet.Proofs.Compile.DeclaredArguments

/-!
Assignments of a compiled program. An assigned variable takes the type of the right side while its
case is looked at alone. What the right side reads can be widened after that: a parameter by the
calls of its task, and a variable of the case by a primitive that it is passed to. So when a
compilation reports nothing, the types of both sides join, and the right side widens to the left one
if all it reads are variables of the case that no primitive is passed.
-/

namespace TaskNet

open Infer List NameScope Tree Typing

variable {σ : String → TypeTag} {v : Variable} {u : Tree}

section Inferred

variable {T : Prop} {functions : OverloadTable} {p : Program} {s : Typing} {task branch : Tree}
variable {info : Guarded} {attrs : List Tree} {pre list a target value : Tree}
variable (inferred : Inferred functions p s) (member : (task, branch) ∈ p.root.branches)
variable (resolution : Resolution T (.ofTask p.declarations task) branch info attrs pre list)
include resolution

/-- A variable that a case binds has the type of its name. -/
theorem typeAt_of_bound (typed : NamesTyped (.ofProgram functions p) task pre list σ s)
    (visits : u ∈ pre.visited) (content : u.content = .var v)
    (free : (NameScope.ofTask p.declarations task).param? v.name = none) :
    s.typeAt (v.definition.getD u.id) = σ v.name := by
  have expression : pre ∈ branch.expressions := resolution.mem_expressions.mpr (.inr (.inl rfl))
  rcases resolution.defined expression visits content with
    param | ⟨_, b, announced, same, w, isVar, name, _, none⟩
  · rw [free] at param
    cases param
  · have same : b.id = v.definition.getD u.id := same
    have name : w.name = v.name := name
    rw [← same, ← name]
    exact typed.bound b announced w isVar none

theorem primitive_of_passes (resolved : p.Resolved T) {name : String}
    (passes : PassesToPrimitive (.ofProgram functions p) list name) :
    ∃ e ∈ list.children, ∃ primitive ∈ p.root.childrenOfFirst .primitives,
      (∃ c, e.content = .call c ∧ c.decl = some primitive.id) ∧
      ∃ a ∈ e.children, ∃ v, a.content = .var v ∧ v.name = name := by
  obtain ⟨e, entry, d, declared, isPrimitive, passed⟩ := passes
  obtain ⟨c, content⟩ := content_of_call (kind_of_declaration? declared)
  obtain ⟨callee, same, ⟨above, site⟩, _, group⟩ :=
    callee_of_entry resolved resolution entry content
  rw [declaration?_of_site resolved content site same] at declared
  cases declared
  refine ⟨e, entry, callee, group.resolve_left fun isTask => ?_, ⟨c, content, same⟩, passed⟩
  obtain ⟨domain, _, inside⟩ := mem_tasks.mp isTask
  have kind := (mem_childrenOf.mp inside).2
  simp [Site.isPrimitive, Site.isFactOf, kind] at isPrimitive

include inferred member

/-- A variable of a precondition has at least the type of its name. -/
theorem below_typeAt (typed : NamesTyped (.ofProgram functions p) task pre list σ s)
    (visits : u ∈ pre.visited) (content : u.content = .var v) :
    (σ v.name).Below (s.typeAt u.id) := by
  rw [(precond_settled inferred member resolution u visits).var v content]
  cases found : (NameScope.ofTask p.declarations task).param? v.name with
  | none =>
    rw [typeAt_of_bound resolution typed visits content found]
    exact .refl _
  | some x =>
    have expression : pre ∈ branch.expressions := resolution.mem_expressions.mpr (.inr (.inl rfl))
    rcases resolution.defined expression visits content with param | ⟨free, _⟩
    · obtain ⟨q, isParam, name, same⟩ := mem_of_param? param
      rw [← same, ← name]
      exact typed.params q isParam
    · rw [found] at free
      cases free

/-- The right side of an assignment widens to the left one, if what it reads is bound by the case
and not passed to a primitive. -/
theorem value_below_target (assignment : a ∈ pre.assignments)
    (children : a.children = [target, value]) (own : ∀ u ∈ value.visited, ∀ w, u.content = .var w →
      (NameScope.ofTask p.declarations task).param? w.name = none ∧
        ¬ PassesToPrimitive (.ofProgram functions p) list w.name) :
    (s.typeAt value.id).Below (s.typeAt target.id) := by
  obtain ⟨_, _, _, _, parts, σ, typed⟩ := inferred.typed _ member
  obtain ⟨rfl, rfl, rfl, rfl⟩ := resolution.toHasParts.unique parts
  obtain ⟨visits, content⟩ := mem_assignments assignment
  have inside : ∀ c ∈ a.children, ∀ u ∈ c.visited, u ∈ pre.visited := fun c part u below =>
    visited_trans visits (mem_visited_child
      (takes_sound (Throughout.inside resolution.precondTerm visits).here) part below)
  have ofValue := inside value (by simp [children])
  have settled : value.Throughout (Settled (.ofProgram functions p) s) := fun u below =>
    precond_settled inferred member resolution u (ofValue u below)
  obtain ⟨v, isVar, widens⟩ := typed.fits a assignment target value children
  have below := widens (fun u below w isVar => (own u below w isVar).2) s.typeAt
    fun u below w isVar => (typeAt_of_bound resolution typed (ofValue u below) isVar
      (own u below w isVar).1).symm
  rw [← typeAt_of_settled settled] at below
  refine (below.resolve_left (TypeTag.isConcrete_ne_any settled.here.concrete)).trans ?_
  exact below_typeAt inferred member resolution typed
    (inside target (by simp [children]) target (mem_visited_self target)) isVar

theorem sides_join (visits : a ∈ pre.visited) (content : a.content = .op .assign) :
    ∃ target value, a.children = [target, value] ∧
      (s.typeAt target.id).unify (s.typeAt value.id) ≠ .notAType := by
  have takes := (Throughout.inside resolution.precondTerm visits).here
  rw [content] at takes
  obtain ⟨target, value, children⟩ := length_eq_two.mp takes
  have done := inferred.settled _ member pre (resolution.mem_expressions.mpr (.inr (.inl rfl)))
  exact ⟨target, value, children, (done.checked a visits).sides content target value children⟩

end Inferred

/-- All that an expression reads are variables of its case: no parameters of the task, and none that
the task list passes to a primitive. -/
def Tree.ReadsOwn (root task list value : Tree) : Prop :=
  ∀ u ∈ value.visited, ∀ v, u.content = .var v →
    (∀ q ∈ task.childrenOf .param, q.name ≠ v.name) ∧
    ∀ e ∈ list.children, ∀ primitive ∈ root.childrenOfFirst .primitives,
      e.declared? = some primitive.id → ∀ a ∈ e.children, ∀ w, a.content = .var w → w.name ≠ v.name

/-- How the variables of a case are assigned: both sides join, and what reads only variables of the
case widens to the left side, unless the assignment is inside of another one. -/
structure Tree.AssignsByWidening (root task branch : Tree) : Prop where
  joins : ∀ pre ∈ branch.children, pre.kind.isExpression = true → ∀ a ∈ pre.visited,
    a.content = .op .assign → ∃ target value, a.children = [target, value] ∧
      target.node.type.unify value.node.type ≠ .notAType
  widens : ∀ pre ∈ branch.children, pre.kind.isExpression = true → ∀ list ∈ branch.children,
    list.kind = .taskList → ∀ a ∈ pre.assignments, ∀ target value, a.children = [target, value] →
      root.ReadsOwn task list value →
        target.node.type.unify value.node.type = target.node.type

section Applied

variable {T : Prop} {functions : OverloadTable} {p : Program} {s : Typing} {task branch : Tree}
variable {info : Guarded} {attrs : List Tree} {pre list value : Tree}

/-- What an expression of the typed program reads, it reads before. -/
theorem readsOwn_of_applied (resolved : p.Resolved T)
    (resolution : Resolution T (.ofTask p.declarations task) branch info attrs pre list)
    (own : (p.root.mapNodes s.applyTo).ReadsOwn (task.mapNodes s.applyTo) (list.mapNodes s.applyTo)
      (value.mapNodes s.applyTo)) :
    ∀ u ∈ value.visited, ∀ w, u.content = .var w →
      (NameScope.ofTask p.declarations task).param? w.name = none ∧
        ¬ PassesToPrimitive (.ofProgram functions p) list w.name := by
  have kinds := s.applyTo_kind
  intro u visits w content
  obtain ⟨noParam, noPrimitive⟩ := own (u.mapNodes s.applyTo)
    (by rw [visited_mapNodes kinds]; exact mem_map_of_mem visits) w
    ((mapNodes_content u).trans (s.applyTo_of_var content))
  constructor
  · refine Option.eq_none_iff_forall_ne_some.mpr fun x found => ?_
    obtain ⟨q, isParam, name, _⟩ := mem_of_param? found
    refine noParam (q.mapNodes s.applyTo) ?_ ?_
    · rw [childrenOf_mapNodes kinds]
      exact mem_map_of_mem isParam
    · rw [← name, s.name_mapNodes (by rw [(mem_childrenOf.mp isParam).2]; rfl)]
  · intro passes
    obtain ⟨e, entry, primitive, inside, ⟨c, isCall, declared⟩, a, arg, v, isVar, name⟩ :=
      primitive_of_passes resolution resolved passes
    obtain ⟨c', isCall', decl⟩ := s.applyTo_of_call isCall
    refine noPrimitive (e.mapNodes s.applyTo) ?_ (primitive.mapNodes s.applyTo) ?_ ?_
      (a.mapNodes s.applyTo) ?_ v ?_ name
    · rw [mapNodes_children]
      exact mem_map_of_mem entry
    · rw [childrenOfFirst_mapNodes kinds]
      exact mem_map_of_mem inside
    · exact declared?_eq_some.mpr ⟨c',
        (mapNodes_content e).trans isCall', by rw [decl, declared, s.id_mapNodes]⟩
    · rw [mapNodes_children]
      exact mem_map_of_mem arg
    · exact (mapNodes_content a).trans (s.applyTo_of_var isVar)

theorem assignsByWidening_of_inferred (resolved : p.Resolved T) (inferred : Inferred functions p s)
    (member : (task, branch) ∈ p.root.branches) :
    (p.root.mapNodes s.applyTo).AssignsByWidening (task.mapNodes s.applyTo)
      (branch.mapNodes s.applyTo) := by
  have kinds := s.applyTo_kind
  obtain ⟨info, attrs, pre, list, resolution⟩ := resolved.branches task branch member
  have type : ∀ a ∈ pre.visited, ∀ c ∈ a.children,
      (c.mapNodes s.applyTo).node.type = s.typeAt c.id := fun a visits c part => by
    obtain ⟨above, site⟩ : ∃ above, ⟨a, above⟩ ∈ Tree.siteList (some task.node) branch :=
      mem_siteList_expression (resolution.mem_expressions.mpr (.inr (.inl rfl))) visits
    exact type_mapNodes resolved inferred
      (Program.child_mem_siteList ((Program.mem_siteList_branch member).2 _ site) part)
  refine ⟨fun pre' part isExpression a' visits' assigns => ?_,
    fun pre' part isExpression list' listPart isList a' assignment' target' value' both own => ?_⟩
  · rw [precond_of_applied resolution part isExpression, visited_mapNodes kinds] at visits'
    obtain ⟨a, visits, rfl⟩ := mem_map.mp visits'
    have kind : a.kind = .op .assign :=
      (mapNodes_kind kinds a).symm.trans (congrArg Content.kind assigns)
    obtain ⟨target, value, children, joins⟩ :=
      sides_join inferred member resolution visits (content_of_op kind)
    refine ⟨target.mapNodes s.applyTo,
      value.mapNodes s.applyTo, by rw [mapNodes_children, children]; rfl, ?_⟩
    rw [type a visits target (by simp [children]), type a visits value (by simp [children])]
    exact joins
  · rw [precond_of_applied resolution part isExpression, assignments_mapNodes kinds] at assignment'
    rw [list_of_applied resolution listPart isList] at own
    obtain ⟨a, assignment, rfl⟩ := mem_map.mp assignment'
    obtain ⟨visits, content⟩ := mem_assignments assignment
    have takes := (Throughout.inside resolution.precondTerm visits).here
    rw [content] at takes
    obtain ⟨target, value, children⟩ := length_eq_two.mp takes
    rw [mapNodes_children, children] at both
    cases both
    rw [type a visits target (by simp [children]), type a visits value (by simp [children])]
    exact value_below_target inferred member resolution assignment children
      (readsOwn_of_applied resolved resolution own)

end Applied

/-- In a program that is compiled without problems, the sides of every assignment join, and a right
side that reads only variables of the case widens to the left side. -/
theorem compile_ok_assignsByWidening {opts : Options} {src : Source} {o : Outcome}
    (compiled : compile opts src = .ok o) (ok : o.ok = true) :
    ∀ task branch, (task, branch) ∈ o.tree.branches → o.tree.AssignsByWidening task branch := by
  obtain ⟨p, s, resolved, inferred, tree⟩ := compile_ok_inferred compiled ok
  rw [tree]
  intro task' branch' member'
  obtain ⟨task, branch, member, rfl, rfl⟩ := exists_of_mem_branches_mapNodes s.applyTo_kind member'
  exact assignsByWidening_of_inferred resolved inferred member

/-- A variable that is assigned from one which is assigned after it, and that is passed to a
primitive. -/
theorem compile_ok_assignsByWidening_chain :
    ∃ o, compile ⟨0, []⟩ ⟨"chain", Text.bytesOf
        "prim { go(float) } fact { f(int8) g(int64) } domain d { task t() { case f(a) & g(b) & y = x + b & x = a + 1 -> [go(y)] } }"⟩ =
          .ok o ∧ o.ok = true ∧
        (o.tree.branches.flatMap fun b => b.2.children.map fun c => c.assignments.length) = [2, 0] ∧
        ∀ task branch, (task, branch) ∈ o.tree.branches → o.tree.AssignsByWidening task branch := by
  refine exists_of_compilesTo_and (by decide +kernel) fun o compiled ok => ?_
  exact compile_ok_assignsByWidening compiled ok

/-- Fractions are assigned to small integers: by a sum with a variable that a primitive widens, by a
sum with a parameter that a call widens, and inside of another assignment. -/
theorem compile_ok_assigned_fraction :
    ∃ o, compile ⟨0, []⟩ ⟨"fraction", Text.bytesOf
        "prim { go(float) } fact { f(int8) } domain d { task t(p) { case f(a) & x = a + 1 & y = p + 1 & z = (y = 2.5) -> [go(a)] } task c() { case -> [t(2.5)] } }"⟩ =
          .ok o ∧ o.ok = true ∧ TypeTag.unify .int8 .float ≠ .int8 ∧
        ∃ b ∈ o.tree.branches, ((b.2.visited.filter fun a => a.kind = .op .assign).map fun a =>
          a.children.map fun c => c.node.type) =
            [[.int8, .float], [.int8, .float], [.int8, .int8], [.int8, .float]] := by
  exact exists_of_compilesTo (by decide +kernel)

end TaskNet
