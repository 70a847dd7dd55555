import TaskNet.Proofs.Compile.Typedness

/-!
What a compiled program hands over to the stages that generate code from it. When a compilation
reports nothing, no node of the program is erroneous and identities are unique; every case ends in
its precondition and its task list, knows both by identity, and its precondition is a disjunction of
conjunctions of literals. A traversal of a program meets its cases only as the cases of its tasks,
so what holds of those holds of every case in the tree.
-/

namespace TaskNet

open List Tree

namespace Tree

section Everywhere

variable {P : Tree → Prop} (elsewhere : ∀ t : Tree, t.kind ≠ .error → t.kind ≠ .branch → P t)
include elsewhere
variable {t : Tree} {B : Tree → Prop}

/-- Inside of an expression there is neither an erroneous node nor a case. -/
theorem IsTerm.everywhere (term : t.IsTerm) : t.Throughout P := by
  intro u visits
  have takes : u.content.Takes u.children.length := term u visits
  refine elsewhere u (takes_sound takes) fun branch => ?_
  have expression : u.kind.isExpression = true :=
    IsTerm.isExpression (Throughout.inside term visits)
  rw [branch] at expression
  cases expression

theorem IsAttr.everywhere {Q : Tree → Prop} (terms : ∀ c, Q c → c.IsTerm) {a : Tree}
    (attr : IsAttr Q a) : a.Throughout P := by
  refine throughout_iff.mpr ⟨elsewhere a (by simp [attr.1]) (by simp [attr.1]),
    fun _ c member => ?_⟩
  exact (terms c (attr.2 c member)).everywhere elsewhere

theorem IsParam.everywhere (param : IsParam t) : t.Throughout P := by
  refine throughout_iff.mpr ⟨elsewhere t (by simp [param.1]) (by simp [param.1]),
    fun _ c member => ?_⟩
  rw [param.2] at member
  cases member

theorem IsTemplate.everywhere (template : IsTemplate t) : t.Throughout P := by
  obtain ⟨kind, params, body, children, isParam, raw⟩ := template
  refine throughout_iff.mpr ⟨elsewhere t (by simp [kind]) (by simp [kind]), fun _ c member => ?_⟩
  rw [children] at member
  rcases mem_append.mp member with inside | last
  · exact (isParam c inside).everywhere elsewhere
  · obtain rfl := mem_singleton.mp last
    exact raw.isTerm.everywhere elsewhere

theorem IsBlock.everywhere (block : IsBlock t) : t.Throughout P := by
  obtain ⟨kind, facts⟩ := block
  have plain : t.kind ≠ .error ∧ t.kind ≠ .branch := by
    rcases kind with same | same <;> simp [same]
  refine throughout_iff.mpr ⟨elsewhere t plain.1 plain.2, fun _ f member => ?_⟩
  obtain ⟨isFact, parts⟩ := facts f member
  refine throughout_iff.mpr ⟨elsewhere f (by simp [isFact]) (by simp [isFact]),
    fun _ c inside => ?_⟩
  rcases parts c inside with attr | param
  · exact attr.everywhere elsewhere fun _ => IsRaw.isTerm
  · exact param.everywhere elsewhere

/-- The parts of a case are expressions, so there is no other case inside of it. -/
theorem IsCase.everywhere {branch : Tree} (isCase : IsCase IsTerm IsTerm branch) (here : P branch) :
    branch.Throughout P := by
  obtain ⟨info, attrs, pre, list, parts, attrTerms, preTerm, entryTerms⟩ := isCase
  refine throughout_iff.mpr ⟨here, fun _ c member => ?_⟩
  have listKind : list.kind = .taskList := congrArg Content.kind parts.listContent
  rw [parts.children] at member
  simp only [mem_append, mem_cons, not_mem_nil, or_false] at member
  rcases member with attr | rfl | rfl
  · exact IsAttr.everywhere (Q := IsTerm) elsewhere (fun _ term => term)
      ⟨parts.attrKinds c attr, attrTerms c attr⟩
  · exact preTerm.everywhere elsewhere
  · refine throughout_iff.mpr ⟨elsewhere c (by simp [listKind]) (by simp [listKind]),
      fun _ e inside => ?_⟩
    exact (entryTerms e inside).everywhere elsewhere

theorem IsTask.everywhere {task : Tree} (isTask : IsTask B task)
    (cases : ∀ branch ∈ task.childrenOf .branch, branch.Throughout P) : task.Throughout P := by
  obtain ⟨kind, items⟩ := isTask
  refine throughout_iff.mpr ⟨elsewhere task (by simp [kind]) (by simp [kind]), fun _ c member => ?_⟩
  rcases items c member with param | template | ⟨branch, _⟩
  · exact param.everywhere elsewhere
  · exact template.everywhere elsewhere
  · exact cases c (mem_childrenOf.mpr ⟨member, branch⟩)

/-- What holds throughout the cases of the tasks holds throughout a program, if it holds of all
nodes that are neither cases nor erroneous. -/
theorem IsProgram.everywhere {root : Tree} (program : IsProgram B root)
    (cases : ∀ task branch, (task, branch) ∈ root.branches → branch.Throughout P) :
    root.Throughout P := by
  have kind := program.kind
  refine throughout_iff.mpr ⟨elsewhere root (by simp [kind]) (by simp [kind]), fun _ d member => ?_⟩
  rcases program.blocks d member with block | isDomain
  · exact block.everywhere elsewhere
  have found : root.findChild? .domain = some d := program.domain_of_kind member isDomain
  obtain ⟨_, items⟩ := program.domain d found
  refine throughout_iff.mpr ⟨elsewhere d (by simp [isDomain]) (by simp [isDomain]),
    fun _ c inside => ?_⟩
  rcases items c inside with template | isTask
  · exact template.everywhere elsewhere
  · refine isTask.everywhere elsewhere fun branch below => cases c branch ?_
    exact mem_branches.mpr ⟨d, found, mem_childrenOf.mpr ⟨inside, isTask.1⟩, below⟩

end Everywhere

/-- A traversal leaves nodes out only below an erroneous one. -/
theorem nodes_sound {t : Tree} (sound : t.Throughout fun u => u.kind ≠ .error) :
    ∀ n ∈ t.nodes, n.kind ≠ .error := by
  induction t with
  | mk n cs ih =>
    obtain ⟨here, below⟩ := throughout_mk.mp sound
    intro m member
    rw [nodes_mk, nodesList_eq] at member
    rcases mem_cons.mp member with rfl | deeper
    · exact here
    · obtain ⟨ms, inside, among⟩ := mem_flatten.mp deeper
      obtain ⟨c, child, rfl⟩ := mem_map.mp inside
      exact ih c child (below here c child) m among

section Mapped

variable {f : Node → Node}

theorem nodes_mapNodes (t : Tree) : (t.mapNodes f).nodes = t.nodes.map f := by
  induction t with
  | mk n cs ih =>
    rw [mapNodes_mk, nodes_mk, nodes_mk, nodesList_eq, nodesList_eq, flatMap_map, map_cons,
      map_flatMap]
    exact congrArg _ (flatMap_congr ih)

theorem Distinct.mapNodes {t : Tree} (ids : ∀ n, (f n).id = n.id) (distinct : t.Distinct) :
    (t.mapNodes f).Distinct := by
  rw [Distinct, nodes_mapNodes, map_map]
  exact (map_congr_left fun n _ => ids n) ▸ distinct

/-- The parts of a case with other nodes of the same kinds, identities and links to the parts. -/
theorem HasParts.mapNodes {branch pre list : Tree} {info : Guarded} {attrs : List Tree}
    (parts : HasParts branch info attrs pre list) (kinds : ∀ n, (f n).kind = n.kind)
    (ids : ∀ n, (f n).id = n.id)
    (contents : ∀ n, n.kind.isExpression = false → (f n).content = n.content) :
    HasParts (branch.mapNodes f) info (attrs.map (mapNodes f)) (pre.mapNodes f)
      (list.mapNodes f) := by
  have same (t : Tree) : t.id = (t.mapNodes f).id := by
    rw [Tree.id, Tree.id, mapNodes_node, ids]
  have branchKind := parts.kind
  have listKind : list.kind = .taskList := congrArg Content.kind parts.listContent
  refine ⟨?_, ?_, fun a' member => ?_, ?_, ?_, ?_⟩
  · rw [mapNodes_content, contents branch.node (by rw [← Tree.kind, branchKind]; rfl)]
    exact parts.content
  · rw [mapNodes_children, parts.children]
    simp
  · obtain ⟨a, inside, rfl⟩ := mem_map.mp member
    rw [mapNodes_kind kinds, parts.attrKinds a inside]
  · exact same pre ▸ parts.precond
  · rw [mapNodes_content, contents list.node (by rw [← Tree.kind, listKind]; rfl)]
    exact parts.listContent
  · exact same list ▸ parts.tasks

end Mapped

end Tree

/-- The parts of a case, with the precondition in disjunctive normal form. -/
theorem Program.Resolved.parts {T : Prop} {p : Program} (resolved : p.Resolved T) :
    p.root.Throughout fun u => u.kind ≠ .error ∧ (u.kind = .branch →
      ∃ info attrs pre list, HasParts u info attrs pre list ∧ pre.IsDisjunctiveNormal) := by
  refine resolved.sound.form.everywhere
    (fun t sound other => ⟨sound, fun branch => absurd branch other⟩) fun task branch member => ?_
  obtain ⟨info, attrs, pre, list, resolution⟩ := resolved.branches task branch member
  have parts := resolution.toHasParts
  refine IsCase.everywhere (fun t sound other => ⟨sound, fun branch => absurd branch other⟩)
    ⟨info, attrs, pre, list, parts, resolution.attrTerms, resolution.precondTerm,
    resolution.entryTerms⟩ ⟨?_, fun _ => ⟨info, attrs, pre, list, parts, resolution.normal⟩⟩
  rw [parts.kind]
  simp

/-- A compilation without problems hands over a program without erroneous nodes and with unique
identities, in which every case ends in its precondition, a disjunction of conjunctions of literals,
and its task list. -/
theorem compile_ok_handover {opts : Options} {src : Source} {o : Outcome}
    (compiled : compile opts src = .ok o) (ok : o.ok = true) :
    (∀ n ∈ o.tree.nodes, n.kind ≠ .error) ∧ o.tree.Distinct ∧
      ∀ c ∈ o.tree.visited, c.kind = .branch →
        ∃ info attrs pre list, HasParts c info attrs pre list ∧ pre.IsDisjunctiveNormal := by
  obtain ⟨p, s, resolved, _, tree⟩ := compile_ok_inferred compiled ok
  have kinds := s.applyTo_kind
  have parts := resolved.parts
  rw [tree]
  refine ⟨fun n member => ?_, resolved.sound.accounted.root_distinct.mapNodes s.applyTo_id,
    fun c' visits' isBranch => ?_⟩
  · rw [nodes_mapNodes] at member
    obtain ⟨m, inside, rfl⟩ := mem_map.mp member
    rw [kinds]
    exact nodes_sound (parts.imp fun _ holds => holds.1) m inside
  · rw [visited_mapNodes kinds] at visits'
    obtain ⟨c, visits, rfl⟩ := mem_map.mp visits'
    rw [mapNodes_kind kinds] at isBranch
    obtain ⟨info, attrs, pre, list, hasParts, normal⟩ := (parts c visits).2 isBranch
    refine ⟨info, _, _, _, hasParts.mapNodes kinds s.applyTo_id fun _ => s.applyTo_content, ?_⟩
    exact (relabels_mapNodes s.applyTo pre).isDisjunctiveNormal
      (fun n m same => by rw [same, kinds]) normal

/-- A case with an attribute, whose precondition is a negated disjunction from a macro. -/
theorem compile_ok_handover_macro :
    ∃ o, compile ⟨0, []⟩ ⟨"watch", Text.bytesOf
        "fact \x7b p(int8) q() \x7d domain d \x7b macro m(a) = ~(q() | a > 1) task t() \x7b @w(1) case p(n) & m(n) -> [t()] case -> [] \x7d \x7d"⟩ =
          .ok o ∧ o.ok = true ∧ (o.tree.visited.filter fun c => c.kind = .branch).length = 2 ∧
        (∀ n ∈ o.tree.nodes, n.kind ≠ .error) ∧ o.tree.Distinct ∧
        ∀ c ∈ o.tree.visited, c.kind = .branch →
          ∃ info attrs pre list, HasParts c info attrs pre list ∧ pre.IsDisjunctiveNormal := by
  refine exists_of_compilesTo_and (by decide +kernel) fun o compiled ok => ?_
  exact compile_ok_handover compiled ok

end TaskNet
