import TaskNet.Proofs.Macro.CallGraph
import TaskNet.Proofs.Tree.Lookup

/-!
The macros that a program declares. Each of them stands for a declaration of the program in order:
it has a body, an expression whose names are not resolved; the names that it knows are names of the
program; and no two of them have the same identity.
-/

namespace TaskNet

open List Tree

variable {B : Tree → Prop} {p : Program} {root domain : Tree} {m : Template}

theorem Template.body_ofTree {t b : Tree} {scope : Option NodeId} (isTemplate : IsTemplate t)
    (body : (Template.ofTree scope t).body = some b) : b ∈ t.children ∧ b.IsRaw := by
  obtain ⟨_, params, last, children, _, raw⟩ := isTemplate
  have same : t.children.getLast? = some b := Option.eq_some_of_filter_eq_some body
  rw [children, getLast?_concat] at same
  cases same
  exact ⟨by simp [children], raw⟩

namespace MacroTable

/-- The macros have bodies without resolved names, all of whose types are known. -/
def Bodied (table : MacroTable) : Prop :=
  ∀ m ∈ table.declared, ∀ b, m.body = some b → b.IsRaw ∧ AllKnown b

theorem mem_declared_ofTree (isDomain : IsDomain B domain)
    (declared : m ∈ (ofTree root domain).declared) :
    (∃ t ∈ domain.children, IsTemplate t ∧ m = .ofTree none t) ∨
      ∃ task ∈ domain.children, IsTask B task ∧
        ∃ t ∈ task.children, IsTemplate t ∧ m = .ofTree (some task.id) t := by
  obtain ⟨c, inside, declares⟩ := mem_flatMap.mp declared
  rw [declaredBy] at declares
  rcases isDomain.2 c inside with template | task
  · rw [template.1] at declares
    exact .inl ⟨c, inside, template, mem_singleton.mp declares⟩
  · rw [task.1] at declares
    obtain ⟨t, member, rfl⟩ := mem_map.mp declares
    obtain ⟨below, isTemplate⟩ := mem_childrenOf.mp member
    refine .inr ⟨c, inside, task, t, below, ?_, rfl⟩
    rcases task.2 t below with param | template | branch
    · rw [param.1] at isTemplate
      cases isTemplate
    · exact template
    · rw [branch.1] at isTemplate
      cases isTemplate

/-- The macros of a program in order have bodies. -/
theorem bodied_ofTree (sound : p.Sound B)
    (found : p.root.findChild? .domain = some domain) : Bodied (.ofTree p.root domain) := by
  have knownDomain : AllKnown domain :=
    AllOf.below (eachOf_cons.mp sound.known).1 (mem_of_findChild? found).1
  intro m declared b body
  rcases mem_declared_ofTree (sound.form.domain domain found) declared with
    ⟨t, inside, template, rfl⟩ | ⟨task, inside, _, t, below, template, rfl⟩
  all_goals obtain ⟨member, raw⟩ := Template.body_ofTree template body
  · exact ⟨raw, (knownDomain.below inside).below member⟩
  · exact ⟨raw, ((knownDomain.below inside).below below).below member⟩

/-- The declaration of a macro is a node of the program. -/
theorem declared_visited (form : IsProgram B p.root)
    (found : p.root.findChild? .domain = some domain)
    (declared : m ∈ (ofTree p.root domain).declared) :
    ∃ t ∈ p.root.visited, IsTemplate t ∧ ∃ scope, m = .ofTree scope t := by
  have isDomain := form.domain domain found
  have inRoot : ∀ {u}, u ∈ domain.visited → u ∈ p.root.visited := fun visits =>
    mem_visited_child (by rw [form.kind]; decide) (mem_of_findChild? found).1 visits
  have inDomain : ∀ {c u}, c ∈ domain.children → u ∈ c.visited → u ∈ domain.visited :=
    fun member visits => mem_visited_child (by rw [isDomain.1]; decide) member visits
  rcases mem_declared_ofTree isDomain declared with
    ⟨t, inside, template, rfl⟩ | ⟨task, inside, isTask, t, below, template, rfl⟩
  · exact ⟨t, inRoot (inDomain inside (mem_visited_self t)), template, _, rfl⟩
  · have inTask : t ∈ task.visited :=
      mem_visited_child (by rw [isTask.1]; decide) below (mem_visited_self t)
    exact ⟨t, inRoot (inDomain inside inTask), template, _, rfl⟩

/-- A macro has a body, and its name and the names of its parameters are names of the program. -/
theorem named_ofTree (form : IsProgram B p.root) (found : p.root.findChild? .domain = some domain)
    (declared : m ∈ (ofTree p.root domain).declared) :
    m.body.isSome = true ∧ m.name ∈ p.root.visited.map Tree.name ∧
      ∀ x ∈ m.formals, x ∈ p.root.visited.map Tree.name := by
  obtain ⟨t, visits, template, scope, rfl⟩ := declared_visited form found declared
  refine ⟨?_, mem_map_of_mem visits, fun x formal => ?_⟩
  · obtain ⟨_, params, body, children, _, raw⟩ := template
    have expression := raw.isTerm.isExpression
    have notParam : (body.kind != .param) = true := by
      by_contra isParam
      rw [show body.kind = .param by simpa using isParam] at expression
      cases expression
    simp [Template.ofTree, Template.bodyOf, children, Option.filter, notParam]
  · obtain ⟨param, member, rfl⟩ := mem_map.mp formal
    have inside : param ∈ t.visited := mem_visited_child (by rw [template.1]; decide)
      (mem_childrenOf.mp member).1 (mem_visited_self param)
    exact mem_map_of_mem (visited_trans visits inside)

/-- The declarations of macros have different identities. -/
theorem declared_nodup (distinct : root.Distinct)
    (found : root.findChild? .domain = some domain) :
    ((ofTree root domain).declared.map Template.id).Nodup := by
  have inDomain := distinct.child (mem_of_findChild? found).1
  have own : ∀ c : Tree, c.Distinct → ((declaredBy c).map Template.id).Nodup ∧
      ∀ x ∈ (declaredBy c).map Template.id, ∃ n ∈ c.nodes, n.id = x := by
    intro c distinct
    have top : ∀ d : Tree, d.node ∈ d.nodes := fun d => node_mem_nodes (mem_visited_self d)
    rw [declaredBy]
    split
    · refine ⟨by simp, fun x member => ⟨c.node, top c, ?_⟩⟩
      exact (mem_singleton.mp member).symm
    · rw [map_map]
      refine ⟨distinct.children.sublist (filter_sublist.map Tree.id), fun x member => ?_⟩
      obtain ⟨d, inside, rfl⟩ := mem_map.mp member
      exact ⟨d.node, nodes_child_subset (mem_childrenOf.mp inside).1 (top d), rfl⟩
    · simp
  show ((domain.children.flatMap declaredBy).map Template.id).Nodup
  rw [map_flatMap, nodup_flatMap]
  refine ⟨fun c member => (own c (inDomain.child member)).1, ?_⟩
  refine inDomain.apart.imp_of_mem fun {c d} inC inD apart x memberC memberD => ?_
  obtain ⟨n, inNodes, rfl⟩ := (own c (inDomain.child inC)).2 x memberC
  obtain ⟨k, inNodes', same⟩ := (own d (inDomain.child inD)).2 _ memberD
  exact apart n inNodes k inNodes' same.symm

theorem identified_ofTree (distinct : root.Distinct)
    (found : root.findChild? .domain = some domain) :
    (ofTree root domain).Identified := fun _ declared _ declared' same =>
  inj_on_of_nodup_map (declared_nodup distinct found) declared declared' same

end MacroTable

end TaskNet
