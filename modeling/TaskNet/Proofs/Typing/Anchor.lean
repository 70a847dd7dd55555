import TaskNet.Proofs.Typing.Case

/-!
The anchors of a program are its parameters and the variables that nothing else defines. In a
program whose names are resolved every variable of a case goes back to an anchor, and every
expression can be settled.
-/

namespace TaskNet

open Infer List NameScope Tree Typing

variable {t u : Tree} {v : Variable}

namespace Program

variable {p : Program} {functions : OverloadTable}

/-- A parameter, or a variable that defines itself. -/
def Anchor (p : Program) (x : NodeId) : Prop :=
  ∃ s ∈ p.siteList, s.tree.id = x ∧
    (s.tree.kind = .param ∨ ∃ v, s.tree.content = .var v ∧ v.definition = none)

/-- A node of an expression is an anchor only as a variable that defines itself. -/
theorem Accounted.grounded (accounted : p.Accounted) {above : Option Node}
    (site : ⟨u, above⟩ ∈ p.siteList) (isExpression : u.kind.isExpression = true)
    (defined : ∀ v, u.content = .var v → p.Anchor (v.definition.getD u.id)) :
    Grounded (.ofProgram functions p) p.Anchor u := by
  refine ⟨defined, fun d declared q isParam => ?_, fun ⟨s, inside, same, anchor⟩ => ?_⟩
  · obtain ⟨below, kind⟩ := mem_childrenOf.mp isParam
    exact ⟨_, child_mem_siteList (mem_of_declaration? declared) below, rfl, .inl kind⟩
  · obtain rfl := accounted.unique inside site same
    refine anchor.resolve_left fun param => ?_
    rw [show u.kind = .param from param] at isExpression
    cases isExpression

end Program

/-- What traversals of the expressions of a case visit is among the sites of the program. -/
theorem Tree.mem_siteList_expression {parent : Option Node}
    (member : t ∈ branch.expressions) (visits : u ∈ t.visited) :
    ∃ above, ⟨u, above⟩ ∈ siteList parent branch := by
  obtain ⟨c, part, inside⟩ := mem_flatMap.mp member
  split at inside
  · obtain rfl := mem_singleton.mp inside
    obtain ⟨above, site⟩ : ∃ above, ⟨u, above⟩ ∈ siteList (some branch.node) t :=
      mem_siteList_visited visits
    exact ⟨above, mem_siteList_below part site⟩
  · obtain ⟨above, site⟩ : ∃ above, ⟨u, above⟩ ∈ siteList (some c.node) t :=
      mem_siteList_visited visits
    exact ⟨above, mem_siteList_below part (mem_siteList_below inside site)⟩

theorem Tree.Distinct.expression {branch : Tree} (distinct : branch.Distinct)
    (member : t ∈ branch.expressions) : t.Distinct := by
  obtain ⟨c, part, inside⟩ := mem_flatMap.mp member
  split at inside
  · obtain rfl := mem_singleton.mp inside
    exact distinct.child part
  · exact (distinct.child part).child inside

namespace Resolution

variable {T : Prop} {p : Program} {functions : OverloadTable} {scope : NameScope}
variable {branch pre list : Tree} {info : Guarded} {attrs : List Tree}
variable (resolution : Resolution T scope branch info attrs pre list)
include resolution

/-- An expression of a case is an argument of an attribute, the precondition or an entry. -/
theorem mem_expressions :
    t ∈ branch.expressions ↔ (∃ a ∈ attrs, t ∈ a.children) ∨ t = pre ∨ t ∈ list.children := by
  rw [expressions_of_parts resolution.toHasParts resolution.precondTerm]
  simp

theorem term (member : t ∈ branch.expressions) : t.IsTerm := by
  rcases resolution.mem_expressions.mp member with ⟨a, inside, below⟩ | rfl | entry
  · exact resolution.attrTerms a inside t below
  · exact resolution.precondTerm
  · exact resolution.entryTerms t entry

/-- What a node of a case is linked to: all of it, or for an entry that is a call, nothing. -/
theorem linked (member : t ∈ branch.expressions) (visits : u ∈ t.visited) :
    Linked scope (fun name x => pre.Announces ⟨x, name⟩) u.node ∨
      (u = t ∧ t ∈ list.children ∧ ∃ c, t.content = .call c ∧ c.decl ≠ none) := by
  rcases resolution.mem_expressions.mp member with ⟨a, inside, below⟩ | rfl | entry
  · exact .inl (resolution.attrLinked a inside t below u visits).toLinked
  · exact .inl (resolution.precondLinked u visits)
  · rcases resolution.entryLinked t entry with ⟨c, d, content, declared, _, args⟩ | ⟨_, outside⟩
    · rcases mem_visited_cases visits with rfl | ⟨a, arg, below⟩
      · exact .inr ⟨rfl, entry, c, content, by simp [declared]⟩
      · exact .inl (args a arg u below).toLinked
    · exact .inl (outside u visits).toLinked

/-- The variables of a case go back to the parameters of its task and to the binding occurrences of
its precondition. -/
theorem defined (member : t ∈ branch.expressions) (visits : u ∈ t.visited)
    (content : u.content = .var v) :
    scope.param? v.name = some (v.definition.getD u.id) ∨
      (scope.param? v.name = none ∧ pre.Announces ⟨v.definition.getD u.id, v.name⟩) := by
  rcases resolution.linked member visits with linked | ⟨rfl, _, c, isCall, _⟩
  · exact linked.var v content
  · rw [content] at isCall
    cases isCall

end Resolution

theorem mem_of_param? {ds : Declarations} {name : String} {x : NodeId}
    (found : (NameScope.ofTask ds task).param? name = some x) :
    ∃ q ∈ task.childrenOf .param, q.name = name ∧ q.id = x := by
  obtain ⟨q, member, same⟩ := mem_map.mp (mem_of_lookup found)
  cases same
  exact ⟨q, member, rfl, rfl⟩

variable {T : Prop} {p : Program} {functions : OverloadTable} {task branch pre list : Tree}
variable {info : Guarded} {attrs : List Tree}

/-- What defines a variable of a case is an anchor. -/
theorem Resolution.anchor
    (resolution : Resolution T (.ofTask p.declarations task) branch info attrs pre list)
    (member : (task, branch) ∈ p.root.branches) (inside : t ∈ branch.expressions)
    (visits : u ∈ t.visited) (content : u.content = .var v) :
    p.Anchor (v.definition.getD u.id) := by
  obtain ⟨⟨parent, atTask⟩, sites⟩ := Program.mem_siteList_branch member
  rcases resolution.defined inside visits content with param | ⟨_, b, announced, same, w,
    isVar, _, _, none⟩
  · obtain ⟨q, isParam, _, same⟩ := mem_of_param? param
    obtain ⟨below, kind⟩ := mem_childrenOf.mp isParam
    exact ⟨_, Program.child_mem_siteList atTask below, same, .inl kind⟩
  · obtain ⟨above, site⟩ : ∃ above, ⟨b, above⟩ ∈ Tree.siteList (some task.node) branch :=
      mem_siteList_expression (resolution.mem_expressions.mpr (.inr (.inl rfl))) announced
    exact ⟨_, sites _ site, same, .inr ⟨w, isVar, none⟩⟩

namespace Program.Resolved

/-- A declared fact is found by its identity, in the block of facts. -/
theorem fact (resolved : p.Resolved T) {f : Declaration} (declared : f ∈ p.declarations.facts) :
    ∃ s, (TypingContext.ofProgram functions p).site? f.id = some s ∧ s.isWorldFact = true := by
  obtain ⟨world, c, found, below, rfl⟩ := resolved.facts f declared
  obtain ⟨atRoot, kind⟩ := mem_of_findChild? found
  have block := resolved.sound.form.block (.inl rfl) found
  have top : ∀ s ∈ Tree.siteList none p.root, s ∈ p.siteList :=
    fun s site => mem_siteLists (by simp) site
  have site := top _ (mem_siteList_below atRoot (mem_siteList_child below))
  refine ⟨⟨c, some world.node⟩, ?_, ?_⟩
  · exact resolved.sound.accounted.site?_eq site
  · have isFact := (block.2 c below).1
    have isWorld : world.node.kind = .world := kind
    simp [Site.isWorldFact, Site.isFactOf, isFact, isWorld]

/-- Every expression of a case can be settled. -/
theorem ready (resolved : p.Resolved T) (member : (task, branch) ∈ p.root.branches)
    (resolution : Resolution T (.ofTask p.declarations task) branch info attrs pre list)
    (inside : t ∈ branch.expressions) :
    Ready (.ofProgram functions p) p.Anchor p.next t := by
  have accounted := resolved.sound.accounted
  have distinct := accounted.branch_distinct member
  have term := resolution.term inside
  have site : ∀ u ∈ t.visited, ∃ above, ⟨u, above⟩ ∈ p.siteList := fun u visits => by
    obtain ⟨above, site⟩ : ∃ above, ⟨u, above⟩ ∈ Tree.siteList (some task.node) branch :=
      mem_siteList_expression inside visits
    exact ⟨above, (mem_siteList_branch member).2 _ site⟩
  refine ⟨term, fun u visits => ?_, fun c arg u below => ?_, distinct.expression inside,
    fun u visits => ?_⟩
  · obtain ⟨above, site⟩ := site u visits
    exact accounted.grounded site (IsTerm.isExpression (Throughout.inside term visits))
      fun v content => resolution.anchor member inside visits content
  · intro c' d content declared
    have visits := mem_visited_child (takes_sound term.here) arg below
    rcases resolution.linked inside visits with linked | ⟨rfl, _⟩
    · obtain ⟨f, isFact, rfl⟩ := linked.call c' d content declared
      exact resolved.fact isFact
    · exact absurd rfl (Distinct.own (distinct.expression inside) arg below)
  · obtain ⟨above, site⟩ := site u visits
    exact accounted.lt_next (mem_nodes_of_mem_siteList site)

theorem ready_of_mem (resolved : p.Resolved T) {b : Tree × Tree} (member : b ∈ p.root.branches)
    (inside : t ∈ b.2.expressions) :
    Ready (.ofProgram functions p) p.Anchor p.next t := by
  obtain ⟨_, _, _, _, resolution⟩ := resolved.branches b.1 b.2 member
  exact resolved.ready member resolution inside

end Program.Resolved

/-- The children of trees that share no identity share none. -/
theorem Tree.Apart.flatMap {f : Tree → List Tree} (below : ∀ t, (f t).Sublist t.children)
    {ts : List Tree} (apart : ts.Pairwise Apart) (distinct : ∀ t ∈ ts, t.Distinct) :
    (ts.flatMap f).Pairwise Apart := by
  refine pairwise_flatMap.mpr ⟨fun t member => ?_, apart.imp fun apart a inT b inU => ?_⟩
  · exact (distinct t member).apart.sublist (below t)
  · exact apart.within (nodes_child_subset ((below _).subset inT))
      (nodes_child_subset ((below _).subset inU))

theorem Tree.childrenOf_sublist (k : Kind) (t : Tree) : (t.childrenOf k).Sublist t.children :=
  filter_sublist

namespace Program

variable {B : Tree → Prop}

/-- The cases of a program share no identity. -/
theorem Accounted.branches_apart (accounted : p.Accounted) :
    (p.root.branches.map Prod.snd).Pairwise Apart := by
  rw [branches]
  cases found : p.root.findChild? .domain with
  | none => exact .nil
  | some d =>
    have distinct := accounted.root_distinct.child (mem_of_findChild? found).1
    have tasks := distinct.apart.sublist (childrenOf_sublist .task d)
    have cases := Apart.flatMap (childrenOf_sublist .branch) tasks fun t member =>
      distinct.child (mem_childrenOf.mp member).1
    simpa [map_flatMap, Function.comp_def] using cases

/-- An expression whose names are not resolved can be settled: its variables define themselves. -/
theorem Accounted.ready_raw (accounted : p.Accounted) (raw : t.IsRaw)
    (distinct : t.Distinct) (sites : ∀ u ∈ t.visited, ∃ above, ⟨u, above⟩ ∈ p.siteList) :
    Ready (.ofProgram functions p) p.Anchor p.next t := by
  refine ⟨raw.isTerm, fun u visits => ?_, fun c arg u below d x content declared => ?_, distinct,
    fun u visits => ?_⟩
  · obtain ⟨above, site⟩ := sites u visits
    refine accounted.grounded site (IsTerm.isExpression (Throughout.inside raw.isTerm visits))
      fun v content => ?_
    have unresolved := (raw u visits).2
    rw [content] at unresolved
    exact ⟨_, site, by rw [unresolved.1]; rfl, .inr ⟨v, content, unresolved.1⟩⟩
  · have unresolved := (raw.below arg u below).2
    rw [content] at unresolved
    exact absurd (unresolved.1.symm.trans declared) (by simp)
  · obtain ⟨above, site⟩ := sites u visits
    exact accounted.lt_next (mem_nodes_of_mem_siteList site)

/-- The arguments of the attributes of facts can be settled. -/
theorem Sound.ready_world (sound : p.Sound B) :
    (∀ t ∈ (worldAttributes p.root).flatMap Tree.children,
      Ready (.ofProgram functions p) p.Anchor p.next t) ∧
    ((worldAttributes p.root).flatMap Tree.children).Pairwise Apart := by
  rw [worldAttributes]
  cases found : p.root.findChild? .world with
  | none => simp
  | some w =>
    have atRoot := (mem_of_findChild? found).1
    have block := sound.form.block (.inl rfl) found
    have distinct := sound.accounted.root_distinct.child atRoot
    refine ⟨fun t member => ?_, ?_⟩
    · obtain ⟨a, listed, arg⟩ := mem_flatMap.mp member
      obtain ⟨f, isFact, inFact⟩ := mem_flatMap.mp listed
      obtain ⟨below, kind⟩ := mem_childrenOf.mp inFact
      have attr : IsAttr IsRaw a := ((block.2 f isFact).2 a below).resolve_right fun param => by
        have other := kind.symm.trans param.1
        cases other
      refine sound.accounted.ready_raw (attr.2 t arg)
        (((distinct.child isFact).child below).child arg) fun u visits => ?_
      obtain ⟨above, site⟩ : ∃ above, ⟨u, above⟩ ∈ Tree.siteList (some a.node) t :=
        mem_siteList_visited visits
      exact ⟨above, mem_siteLists (by simp) (mem_siteList_below atRoot (mem_siteList_below isFact
        (mem_siteList_below below (mem_siteList_below arg site))))⟩
    · refine Apart.flatMap (fun t => List.Sublist.refl _) (Apart.flatMap (childrenOf_sublist .attr)
        distinct.apart fun f isFact => distinct.child isFact) fun a listed => ?_
      obtain ⟨f, isFact, inFact⟩ := mem_flatMap.mp listed
      exact (distinct.child isFact).child (mem_childrenOf.mp inFact).1

end Program

end TaskNet
