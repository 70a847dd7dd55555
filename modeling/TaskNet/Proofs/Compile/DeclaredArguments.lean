import TaskNet.Proofs.Compile.Widening

/-!
Arguments of facts and primitives in a compiled program. Their types are checked against those of
the declared parameters by a join, which does not say which of the two types is the wider one. So
when a compilation reports nothing, an argument converts to the declared type or it is a number that
is wider than the declared one; where the declared type is no number, the argument has that very
type.
-/

namespace TaskNet

open Infer List Tree Typing

variable {d : NodeId}

/-- How a value of one type is taken where another type is declared: it converts, or both types are
numbers and the declared one is the narrower. -/
def TypeTag.TakenAs (source target : TypeTag) : Prop :=
  source.wideningCost target ≠ none ∨
    (source.isNumeric = true ∧ target.isNumeric = true ∧ target.width < source.width)

theorem TypeTag.takenAs_of_unify {source target : TypeTag} (typed : source.isConcrete = true)
    (joins : target ≠ .any → source.unify target ≠ .notAType) : source.TakenAs target := by
  have given := isConcrete_ne_notAType typed
  by_cases unknown : target = .any
  · left
    simp [wideningCost, unknown, given, isConcrete_ne_any typed]
  · have joins := joins unknown
    rw [unify] at joins
    split at joins
    · exact absurd rfl joins
    next types =>
    rw [if_neg (isConcrete_ne_any typed)] at joins
    rw [TakenAs, wideningCost, if_neg types]
    split at joins
    · next same =>
      left
      simp [same]
    next apart =>
    rw [if_neg apart, if_neg (by simp [unknown, isConcrete_ne_any typed]), wideningSteps]
    split at joins
    · next numeric =>
      obtain ⟨left, right⟩ := Bool.and_eq_true_iff.mp numeric
      rcases Nat.lt_or_ge target.width source.width with narrower | wider
      · exact .inr ⟨left, right, narrower⟩
      · simp [left, right, wider]
    · exact absurd rfl joins

section Inferred

variable {T : Prop} {functions : OverloadTable} {p : Program} {s : Typing} {task branch : Tree}
variable {info : Guarded} {attrs : List Tree} {pre list u : Tree} {c : Invocation}

/-- The arguments of a checked call are taken as the parameters of what it calls. -/
theorem takenAs_of_checked {env : TypingContext} {site : Site} (checked : Checked env s u)
    (declared : env.declaration? u.content = some site)
    (arity : u.children.length = site.params.length)
    (typed : ∀ a ∈ u.children, (s.typeAt a.id).isConcrete = true) :
    List.Forall₂ (fun a q => (s.typeAt a.id).TakenAs (s.typeAt q.id)) u.children site.params := by
  refine forall₂_iff_zip.mpr ⟨arity, fun {a q} zipped => ?_⟩
  obtain ⟨arg, _⟩ := of_mem_zip zipped
  exact TypeTag.takenAs_of_unify (typed a arg) (checked.arguments site declared (a, q) zipped)

/-- A call in a precondition that is linked is a call of a fact, with an argument for each
parameter. -/
theorem fact_of_call (resolved : p.Resolved T)
    (resolution : Resolution T (.ofTask p.declarations task) branch info attrs pre list)
    (visits : u ∈ pre.visited) (content : u.content = .call c)
    (declared : c.decl = some d) :
    ∃ world fact, p.root.findChild? .world = some world ∧ fact ∈ world.children ∧ d = fact.id ∧
      u.children.length = (fact.childrenOf .param).length := by
  rcases mem_visited_cases visits with rfl | ⟨conjunct, member, below⟩
  · rw [resolution.normal.disjunction] at content
    cases content
  · obtain ⟨f, isFact, rfl, arity⟩ := (resolution.conjuncts conjunct member).fits u below c d
      content declared
    obtain ⟨world, fact, found, inside, rfl⟩ := resolved.facts f isFact
    exact ⟨world, fact, found, inside, rfl, arity⟩

variable (resolved : p.Resolved T) (inferred : Inferred functions p s)
variable (member : (task, branch) ∈ p.root.branches)
variable (resolution : Resolution T (.ofTask p.declarations task) branch info attrs pre list)
include inferred member resolution

theorem precond_settled : pre.Throughout (Settled (.ofProgram functions p) s) := by
  refine (inferred.settled _ member pre (resolution.mem_expressions.mpr (.inr (.inl rfl)))).all ?_
  intro c d isCall
  rw [resolution.normal.disjunction] at isCall
  cases isCall

include resolved

/-- The arguments of a fact in a precondition. -/
theorem takenAs_of_fact (visits : u ∈ pre.visited) (content : u.content = .call c)
    (declared : c.decl = some d) :
    ∃ fact ∈ p.root.childrenOfFirst .world, d = fact.id ∧
      (∃ above, ⟨fact, above⟩ ∈ p.siteList) ∧
      List.Forall₂ (fun a q => (s.typeAt a.id).TakenAs (s.typeAt q.id)) u.children
        (fact.childrenOf .param) := by
  obtain ⟨world, fact, found, inside, rfl, arity⟩ :=
    fact_of_call resolved resolution visits content declared
  have site : ⟨fact, some world.node⟩ ∈ p.siteList := Program.mem_siteList_block found inside
  have expression : pre ∈ branch.expressions := resolution.mem_expressions.mpr (.inr (.inl rfl))
  refine ⟨fact, mem_childrenOfFirst.mpr ⟨world, found, inside⟩, rfl, ⟨_, site⟩,
    takenAs_of_checked ((inferred.settled _ member pre expression).checked u visits)
      (declaration?_of_site resolved content site declared) arity fun a arg => ?_⟩
  have isCall : u.kind = .call := congrArg Content.kind content
  have below := visited_trans visits
    (mem_visited_child (by simp [isCall]) arg (mem_visited_self a))
  exact (precond_settled inferred member resolution a below).concrete

theorem takenAs_of_primitive (entry : u ∈ list.children) (content : u.content = .call c)
    {primitive : Tree}
    {above : Option Node} (site : ⟨primitive, above⟩ ∈ p.siteList)
    (declared : c.decl = some primitive.id) :
    List.Forall₂ (fun a q => (s.typeAt a.id).TakenAs (s.typeAt q.id)) u.children
      (primitive.childrenOf .param) := by
  have expression : u ∈ branch.expressions := resolution.mem_expressions.mpr (.inr (.inr entry))
  refine takenAs_of_checked ((inferred.settled _ member u expression).checked u
    (mem_visited_self u)) (declaration?_of_site resolved content site declared)
    (length_of_entry resolved resolution entry content site declared) fun a arg => ?_
  exact (inferred.argument resolved member resolution entry arg).here.concrete

end Inferred

/-- What a node is declared as, if it is a call. -/
def Tree.declared? (u : Tree) : Option NodeId :=
  match u.content with
  | .call c => c.decl
  | _ => none

theorem Tree.declared?_eq_some {u : Tree} :
    u.declared? = some d ↔ ∃ c, u.content = .call c ∧ c.decl = some d := by
  rw [declared?]
  split
  · next c content => simp [content]
  · next other => simpa using fun c content => absurd content (other c)

/-- How the arguments of the facts and the primitives of a case are passed. -/
structure Tree.PassesDeclared (root branch : Tree) : Prop where
  facts : ∀ pre ∈ branch.children, pre.kind.isExpression = true → ∀ u ∈ pre.visited, ∀ d,
    u.declared? = some d → ∃ fact ∈ root.childrenOfFirst .world, d = fact.id ∧
      List.Forall₂ (fun a q => a.node.type.TakenAs q.node.type) u.children (fact.childrenOf .param)
  primitives : ∀ list ∈ branch.children, list.kind = .taskList → ∀ e ∈ list.children,
    ∀ primitive ∈ root.childrenOfFirst .primitives, e.declared? = some primitive.id →
      List.Forall₂ (fun a q => a.node.type.TakenAs q.node.type) e.children
      (primitive.childrenOf .param)

section Applied

variable {T : Prop} {functions : OverloadTable} {p : Program} {s : Typing} {task branch : Tree}

theorem passesDeclared_of_inferred (resolved : p.Resolved T) (inferred : Inferred functions p s)
    (member : (task, branch) ∈ p.root.branches) :
    (p.root.mapNodes s.applyTo).PassesDeclared (branch.mapNodes s.applyTo) := by
  have kinds := s.applyTo_kind
  have sites := (Program.mem_siteList_branch member).2
  refine ⟨fun pre' part isExpression u' visits' d calls => ?_,
    fun list' part isList e' entry' primitive' inside' calls => ?_⟩
  · obtain ⟨_, _, pre, _, resolution⟩ := resolved.branches task branch member
    rw [precond_of_applied resolution part isExpression, visited_mapNodes kinds] at visits'
    obtain ⟨u, visits, rfl⟩ := mem_map.mp visits'
    obtain ⟨c', content', declared'⟩ := declared?_eq_some.mp calls
    obtain ⟨c, content, decl, _⟩ := applyTo_call ((mapNodes_content u).symm.trans content')
    obtain ⟨fact, isFact, rfl, ⟨_, site⟩, taken⟩ :=
      takenAs_of_fact resolved inferred member resolution visits content (decl.symm.trans declared')
    obtain ⟨above, atCall⟩ : ∃ above, ⟨u, above⟩ ∈ Tree.siteList (some task.node) branch :=
      mem_siteList_expression (resolution.mem_expressions.mpr (.inr (.inl rfl))) visits
    refine ⟨fact.mapNodes s.applyTo, ?_, (s.id_mapNodes fact).symm,
      passed_mapNodes resolved inferred (sites _ atCall) site taken⟩
    rw [childrenOfFirst_mapNodes kinds]
    exact mem_map_of_mem isFact
  · obtain ⟨_, _, _, list, e, resolution, entry, rfl⟩ :=
      entry_of_applied resolved member part isList entry'
    obtain ⟨c', content', declared'⟩ := declared?_eq_some.mp calls
    obtain ⟨c, content, decl, _⟩ := applyTo_call ((mapNodes_content e).symm.trans content')
    rw [childrenOfFirst_mapNodes kinds] at inside'
    obtain ⟨primitive, inside, rfl⟩ := mem_map.mp inside'
    obtain ⟨block, found, below⟩ := mem_childrenOfFirst.mp inside
    have site := Program.mem_siteList_block found below
    refine passed_mapNodes resolved inferred
      (sites _ (mem_siteList_below resolution.list_mem (mem_siteList_child entry))) site ?_
    exact takenAs_of_primitive resolved inferred member resolution entry content site
      (by rw [← decl, declared', s.id_mapNodes])

end Applied

/-- In a program that is compiled without problems, an argument of a fact or of a primitive converts
to the declared type, unless both are numbers and the argument is the wider one. -/
theorem compile_ok_passesDeclared {opts : Options} {src : Source} {o : Outcome}
    (compiled : compile opts src = .ok o) (ok : o.ok = true) :
    ∀ task branch, (task, branch) ∈ o.tree.branches → o.tree.PassesDeclared branch := by
  obtain ⟨p, s, resolved, inferred, tree⟩ := compile_ok_inferred compiled ok
  rw [tree]
  intro task' branch' member'
  obtain ⟨task, branch, member, rfl⟩ := mem_branches_mapNodes s.applyTo_kind member'
  exact passesDeclared_of_inferred resolved inferred member

/-- A fact under a negation and a primitive, with arguments that are narrower and wider than
declared. -/
theorem compile_ok_passesDeclared_negated :
    ∃ o, compile ⟨0, []⟩ ⟨"negated", Text.bytesOf
        "prim { go(int64, id32) } fact { at(id32, float) near(int8) } domain d { task t(p) { case at(p, n) & ~near(n) -> [go(3, p), go(n, p)] } }"⟩ =
          .ok o ∧ o.ok = true ∧ o.tree.branches.length = 1 ∧
        ∀ task branch, (task, branch) ∈ o.tree.branches → o.tree.PassesDeclared branch := by
  refine exists_of_compilesTo_and (by decide +kernel) fun o compiled ok => ?_
  exact compile_ok_passesDeclared compiled ok

/-- A fraction is passed to a fact and to a primitive that are declared for small integers. -/
theorem compile_ok_fraction_as_integer :
    ∃ o, compile ⟨0, []⟩ ⟨"fraction", Text.bytesOf
        "prim { say(int8) } fact { f(int8) } domain d { task t() { case f(2.5) -> [say(2.5)] } }"⟩ =
          .ok o ∧ o.ok = true ∧
        (∃ b ∈ o.tree.branches, ∃ u ∈ b.2.visited, ∃ fact ∈ o.tree.childrenOfFirst .world,
          u.declared? = some fact.id ∧ ∃ pair ∈ u.children.zip (fact.childrenOf .param),
            pair.1.node.type.wideningCost pair.2.node.type = none) ∧
        ∃ b ∈ o.tree.branches, ∃ e ∈ b.2.entries, ∃ primitive ∈ o.tree.childrenOfFirst .primitives,
          e.declared? = some primitive.id ∧ ∃ pair ∈ e.children.zip (primitive.childrenOf .param),
            pair.1.node.type.wideningCost pair.2.node.type = none := by
  exact exists_of_compilesTo (by decide +kernel)

end TaskNet
