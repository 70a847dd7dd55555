import TaskNet.Proofs.Compile.Assignments
import TaskNet.Proofs.Compile.VariableLinks

/-!
What assignments bind in a compiled program. Names are bound by the literals of a conjunct: an
assignment that is a literal binds a name which is no parameter and which nothing else in the
conjunct binds. An assignment further down, under a negation, in an argument or on the right of
another assignment, is never asked for its left side. It binds nothing, and a variable on its left
is one that is bound elsewhere.
-/

namespace TaskNet

open Infer List NameScope Tree Typing

/-- How the assignments of a conjunct bind. -/
structure Tree.AssignsInPlace (task conjunct : Tree) : Prop where
  /-- A literal binds a new name, and is the only one to bind it. -/
  literals : ∀ a ∈ conjunct.children, a.content = .op .assign → ∃ target value v,
    a.children = [target, value] ∧ target.content = .var v ∧ v.binding = true ∧
      v.definition = none ∧ ¬ task.HasParam v.name ∧
      conjunct.visited.filter (binds v.name) = [target]
  /-- An assignment further down binds nothing. -/
  nested : ∀ a ∈ conjunct.visited, a ∉ conjunct.children → a.content = .op .assign →
    ∃ target value, a.children = [target, value] ∧ ∀ v, target.content = .var v →
      v.binding = false ∧ task.RefersTo (some conjunct) v

section Linked

variable {scope : NameScope} {root task conjunct pre : Tree}

theorem Tree.bindings_of_visited {t u : Tree} (none : t.bindings = []) (visits : u ∈ t.visited) :
    u.bindings = [] := by
  refine eq_nil_iff_forall_not_mem.mpr fun r member => ?_
  obtain ⟨b, below, found⟩ := mem_bindings.mp member
  have above : r ∈ t.bindings := mem_bindings.mpr ⟨b, visited_trans visits below, found⟩
  rw [none] at above
  cases above

/-- A part of a literal is a variable, or nothing binds in it. -/
theorem NameScope.BindsInPlace.part {l c : Tree} (place : scope.BindsInPlace l) (term : l.IsTerm)
    (member : c ∈ l.children) : c.kind = .var ∨ c.bindings = [] := by
  cases place with
  | nothing none =>
    right
    exact bindings_of_visited none
      (mem_visited_child (takes_sound term.here) member (mem_visited_self c))
  | arguments _ _ _ each => exact each c member
  | target _ children here others =>
    rw [children] at member
    rcases mem_cons.mp member with rfl | later
    · exact here
    · exact .inr (others c later)

/-- An assignment inside of a literal binds nothing. -/
theorem NameScope.BindsInPlace.bindings_nested {l a : Tree} (place : scope.BindsInPlace l)
    (term : l.IsTerm) (visits : a ∈ l.visited) (inside : a ≠ l)
    (content : a.content = .op .assign) : a.bindings = [] := by
  rcases mem_visited_cases visits with here | ⟨c, member, below⟩
  · exact absurd here inside
  · rcases place.part term member with isVar | none
    · obtain rfl := visited_of_var (term.below member) isVar below
      cases (congrArg Content.kind content).symm.trans isVar
    · exact bindings_of_visited none below

/-- An assignment that is a literal is one of those of the precondition. -/
theorem Tree.mem_assignments_of_literal {a : Tree} (disjunction : pre.content = .op .or)
    (conjunction : conjunct.content = .op .and) (above : conjunct ∈ pre.children)
    (member : a ∈ conjunct.children) (content : a.content = .op .assign) : a ∈ pre.assignments := by
  have down : ∀ {t u : Tree} {o : Operator}, t.content = .op o → o ≠ .assign → u ∈ t.children →
      a ∈ u.assignments → a ∈ t.assignments := by
    intro t u o isOp other part inside
    cases t with
    | mk n cs =>
      have kind : n.kind = .op o := congrArg Content.kind isOp
      rw [assignments_mk, if_neg (by simp [kind]), if_neg (by simpa [kind] using other)]
      exact mem_flatMap.mpr ⟨u, part, inside⟩
  have self : a ∈ a.assignments := by
    cases a with
    | mk n cs =>
      have kind : n.kind = .op .assign := congrArg Content.kind content
      rw [assignments_mk, if_neg (by simp [kind]), if_pos kind]
      exact mem_singleton_self _
  exact down disjunction (by decide) above (down conjunction (by decide) member self)

/-- A conjunct whose names are resolved assigns in place, if its literals assign to variables. -/
theorem NameScope.ConjunctLinked.assignsInPlace (linked : scope.ConjunctLinked conjunct)
    (steps : LinksInOneStep root task conjunct) (term : conjunct.IsTerm)
    (conjunction : conjunct.content = .op .and)
    (assigned : ∀ a ∈ conjunct.children, a.content = .op .assign →
      ∃ target value v, a.children = [target, value] ∧ target.content = .var v) :
    task.AssignsInPlace conjunct := by
  have sound : ∀ {u : Tree}, u ∈ conjunct.visited → u.kind ≠ .error := fun visits =>
    takes_sound (Throughout.inside term visits).here
  refine ⟨fun a member content => ?_, fun a visits inner content => ?_⟩
  · obtain ⟨target, value, v, children, isVar⟩ := assigned a member content
    have binding := linked.targets a member target [value] v content children isVar
    have visitsA : a ∈ conjunct.visited :=
      mem_visited_child (sound (mem_visited_self conjunct)) member (mem_visited_self a)
    have visits : target ∈ conjunct.visited := visited_trans visitsA
      (mem_visited_child (sound visitsA) (by simp [children]) (mem_visited_self target))
    have noParam : ¬ task.HasParam v.name := fun isParam => by
      rw [steps.params target visits v isVar isParam] at binding
      cases binding
    obtain ⟨b, w, only, _, isVar', free⟩ := steps.once target visits v isVar noParam
    have here : target ∈ conjunct.visited.filter (binds v.name) :=
      mem_filter.mpr ⟨visits, binds_iff.mpr ⟨v, isVar, binding, rfl⟩⟩
    rw [only, mem_singleton] at here
    subst here
    obtain rfl : v = w := by simpa [isVar] using isVar'
    exact ⟨target, value, v, children, isVar, binding, free, noParam, only⟩
  · have takes := (Throughout.inside term visits).here
    rw [content] at takes
    obtain ⟨target, value, children⟩ := length_eq_two.mp takes
    refine ⟨target, value, children, fun v isVar => ?_⟩
    have below : target ∈ a.visited :=
      mem_visited_child (sound visits) (by simp [children]) (mem_visited_self target)
    have other : v.binding = false := by
      rcases mem_visited_cases visits with rfl | ⟨l, member, inside⟩
      · cases content.symm.trans conjunction
      · have none := (linked.places l member).bindings_nested (term.below member) inside
          (fun same => inner (same ▸ member)) content
        refine Bool.eq_false_iff.mpr fun binding => ?_
        have found := mem_bindings.mpr ⟨target, below, v, isVar, binding, rfl⟩
        rw [none] at found
        cases found
    exact ⟨other, steps.refers target (visited_trans visits below) v isVar other⟩

end Linked

section Applied

variable {s : Typing} {task conjunct : Tree}

theorem binds_applied (name : String) (t : Tree) :
    (t.mapNodes s.applyTo).binds name = t.binds name := by
  rw [Bool.eq_iff_iff, binds_iff, binds_iff]
  constructor
  · rintro ⟨v, content, found⟩
    exact ⟨v, applyTo_var ((mapNodes_content t).symm.trans content), found⟩
  · rintro ⟨v, content, found⟩
    exact ⟨v, (mapNodes_content t).trans (s.applyTo_of_var content), found⟩

theorem filter_binds_applied (name : String) (t : Tree) :
    (t.mapNodes s.applyTo).visited.filter (binds name) =
      (t.visited.filter (binds name)).map (mapNodes s.applyTo) := by
  rw [visited_mapNodes s.applyTo_kind, filter_map]
  congr 1
  exact filter_congr fun u _ => binds_applied name u

theorem hasParam_applied {name : String} :
    (task.mapNodes s.applyTo).HasParam name ↔ task.HasParam name := by
  have named : ∀ q ∈ task.childrenOf .param, (q.mapNodes s.applyTo).name = q.name :=
    fun q isParam =>
    s.name_mapNodes (by rw [(mem_childrenOf.mp isParam).2]; rfl)
  rw [HasParam, childrenOf_mapNodes s.applyTo_kind, HasParam]
  constructor
  · rintro ⟨_, isParam', rfl⟩
    obtain ⟨q, isParam, rfl⟩ := mem_map.mp isParam'
    exact ⟨q, isParam, (named q isParam).symm⟩
  · rintro ⟨q, isParam, rfl⟩
    exact ⟨q.mapNodes s.applyTo, mem_map_of_mem isParam, named q isParam⟩

theorem refersTo_applied {v : Variable} (refers : task.RefersTo (some conjunct) v) :
    (task.mapNodes s.applyTo).RefersTo (some (conjunct.mapNodes s.applyTo)) v := by
  rcases refers with ⟨q, isParam, name, definition⟩ | ⟨_, same, b, visits, binds, definition⟩
  · left
    refine ⟨q.mapNodes s.applyTo, ?_, ?_, by rw [definition, s.id_mapNodes]⟩
    · rw [childrenOf_mapNodes s.applyTo_kind]
      exact mem_map_of_mem isParam
    · rw [s.name_mapNodes (by rw [(mem_childrenOf.mp isParam).2]; rfl), name]
  · obtain rfl := Option.some.inj same
    right
    refine ⟨_, rfl, b.mapNodes s.applyTo, ?_, by rw [binds_applied, binds],
      by rw [definition, s.id_mapNodes]⟩
    rw [visited_mapNodes s.applyTo_kind]
    exact mem_map_of_mem visits

/-- Types do not change what assignments bind. -/
theorem assignsInPlace_applied (assigns : task.AssignsInPlace conjunct) :
    (task.mapNodes s.applyTo).AssignsInPlace (conjunct.mapNodes s.applyTo) := by
  have kinds := s.applyTo_kind
  have before : ∀ {a : Tree}, (a.mapNodes s.applyTo).content = .op .assign →
    a.content = .op .assign :=
    fun content => content_of_op
    ((mapNodes_kind kinds _).symm.trans (congrArg Content.kind content))
  refine ⟨fun a' member' content' => ?_, fun a' visits' inner' content' => ?_⟩
  · rw [mapNodes_children] at member'
    obtain ⟨a, member, rfl⟩ := mem_map.mp member'
    obtain ⟨target, value, v, children, isVar, binding, free, noParam, only⟩ :=
      assigns.literals a member (before content')
    refine ⟨target.mapNodes s.applyTo, value.mapNodes s.applyTo, v, ?_,
      (mapNodes_content target).trans (s.applyTo_of_var isVar), binding, free,
      fun isParam => noParam (hasParam_applied.mp isParam), ?_⟩
    · rw [mapNodes_children, children]
      rfl
    · rw [filter_binds_applied, only]
      rfl
  · rw [visited_mapNodes kinds] at visits'
    obtain ⟨a, visits, rfl⟩ := mem_map.mp visits'
    rw [mapNodes_children] at inner'
    obtain ⟨target, value, children, nothing⟩ := assigns.nested a visits
      (fun member => inner' (mem_map_of_mem member)) (before content')
    refine ⟨target.mapNodes s.applyTo, value.mapNodes s.applyTo, ?_, fun v isVar => ?_⟩
    · rw [mapNodes_children, children]
      rfl
    · obtain ⟨other, refers⟩ :=
        nothing v (applyTo_var ((mapNodes_content target).symm.trans isVar))
      exact ⟨other, refersTo_applied refers⟩

end Applied

/-- In a program whose names are resolved and typed, every conjunct assigns in place. -/
theorem assignsInPlace_of_inferred {T : Prop} {functions : OverloadTable} {p : Program} {s : Typing}
    {task branch pre list conjunct : Tree} {info : Guarded} {attrs : List Tree}
    (resolved : p.Resolved T) (inferred : Inferred functions p s)
    (member : (task, branch) ∈ p.root.branches)
    (resolution : Resolution T (.ofTask p.declarations task) branch info attrs pre list)
    (part : conjunct ∈ pre.children) : task.AssignsInPlace conjunct := by
  have term := resolution.precondTerm.below part
  have conjunction := resolution.normal.conjunctions conjunct part
  have linked := resolution.conjuncts conjunct part
  have steps : LinksInOneStep p.root task conjunct := by
    refine linked.linksInOneStep term conjunction fun d declared => ?_
    obtain ⟨world, fact, found, inside, rfl⟩ := resolved.facts d declared
    exact ⟨fact, mem_childrenOfFirst.mpr ⟨world, found, inside⟩, rfl⟩
  refine linked.assignsInPlace steps term conjunction fun a literal content => ?_
  obtain ⟨_, _, _, _, parts, σ, typed⟩ := inferred.typed _ member
  obtain ⟨rfl, rfl, rfl, rfl⟩ := resolution.toHasParts.unique parts
  have takes := (term.below literal).here
  rw [content] at takes
  obtain ⟨target, value, children⟩ := length_eq_two.mp takes
  have assignment := mem_assignments_of_literal resolution.normal.disjunction conjunction part
    literal content
  obtain ⟨v, isVar, _⟩ := typed.fits a assignment target value children
  exact ⟨target, value, v, children, isVar⟩

/-- In a program that is compiled without problems, an assignment that is a literal of a conjunct
binds a new name, and any other assignment of the conjunct binds nothing. -/
theorem compile_ok_assignsInPlace {opts : Options} {src : Source} {o : Outcome}
    (compiled : compile opts src = .ok o) (ok : o.ok = true) :
    ∀ task branch, (task, branch) ∈ o.tree.branches → ∀ pre ∈ branch.children,
      pre.kind.isExpression = true → pre.content = .op .or ∧ ∀ conjunct ∈ pre.children,
        conjunct.content = .op .and ∧ task.AssignsInPlace conjunct := by
  obtain ⟨p, s, resolved, inferred, tree⟩ := compile_ok_inferred compiled ok
  rw [tree]
  intro task' branch' member' pre' part isExpression
  have kinds := s.applyTo_kind
  obtain ⟨task, branch, member, rfl, rfl⟩ := exists_of_mem_branches_mapNodes kinds member'
  obtain ⟨info, attrs, pre, list, resolution⟩ := resolved.branches task branch member
  obtain rfl := precond_of_applied resolution part isExpression
  have op : ∀ {t : Tree} {o : Operator},
    t.content = .op o → (t.mapNodes s.applyTo).content = .op o :=
    fun content => content_of_op ((mapNodes_kind kinds _).trans (congrArg Content.kind content))
  refine ⟨op resolution.normal.disjunction, fun conjunct' inside' => ?_⟩
  rw [mapNodes_children] at inside'
  obtain ⟨conjunct, inside, rfl⟩ := mem_map.mp inside'
  exact ⟨op (resolution.normal.conjunctions conjunct inside),
    assignsInPlace_applied (assignsInPlace_of_inferred resolved inferred member resolution inside)⟩

/-- Two conjuncts that bind the same name, with an assignment on the right of another one, and one
under a negation. -/
theorem compile_ok_assignsInPlace_nested :
    ∃ o, compile ⟨0, []⟩ ⟨"targets", Text.bytesOf
        "fact { f(int8) } domain d { task t(p) { case f(p) & y = x + 1 & x = p & z = (y = 2) | ~(p = 3) & y = 1 -> [] } }"⟩ =
          .ok o ∧ o.ok = true ∧
        (∃ b ∈ o.tree.branches, ∃ pre ∈ b.2.children, pre.kind.isExpression = true ∧
          (pre.children.map fun c => c.children.length) = [4, 2]) ∧
        ∀ task branch, (task, branch) ∈ o.tree.branches → ∀ pre ∈ branch.children,
          pre.kind.isExpression = true → pre.content = .op .or ∧ ∀ conjunct ∈ pre.children,
            conjunct.content = .op .and ∧ task.AssignsInPlace conjunct := by
  refine exists_of_compilesTo_and (by decide +kernel) fun o compiled ok => ?_
  exact compile_ok_assignsInPlace compiled ok

/-- Assignments that bind nothing: to a parameter on the right of another assignment, and under a
negation to a name that a fact binds. -/
theorem compile_ok_assigned_parameter :
    ∃ o, compile ⟨0, []⟩ ⟨"parameter", Text.bytesOf
        "fact { f(int8) } domain d { task t(p) { case f(p) & f(x) & y = (p = 2) & ~(x = 3) -> [] } }"⟩ =
          .ok o ∧ o.ok = true ∧
        ∃ b ∈ o.tree.branches, (b.1.childrenOf .param).map Tree.name = ["p"] ∧
          ((b.2.visited.filter fun a => a.kind = .op .assign).map fun a =>
            a.children.head?.map fun c => (c.kind, c.name, c.binds c.name)) =
              [some (.var, "y", true), some (.var, "p", false), some (.var, "x", false)] := by
  exact exists_of_compilesTo (by decide +kernel)

end TaskNet
