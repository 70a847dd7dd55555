import TaskNet.Proofs.Compile.Phases

/-!
The types of a compiled program. When a compilation reports nothing, the parameters of tasks and the
expressions of cases have concrete types, calls have a declaration or an overload that returns their
type, and the variables of a case that have one name have one type.
-/

namespace TaskNet

open Infer List Tree Typing

variable {s : Typing} {n n : Node} {c : Invocation} {opts : Options} {v : Variable} {src : Source}
  {o : Outcome}

namespace Tree

section Mapped

variable {f : Node → Node} (kinds : ∀ n, (f n).kind = n.kind)
include kinds
variable {root task' branch' : Tree}

theorem childrenOf_mapNodes (t : Tree) (k : Kind) :
    (t.mapNodes f).childrenOf k = (t.childrenOf k).map (mapNodes f) := by
  rw [childrenOf, mapNodes_children, filter_map, childrenOf]
  congr 1
  exact filter_congr fun c _ => by simp [mapNodes_kind kinds]

theorem findChild?_mapNodes (t : Tree) (k : Kind) :
    (t.mapNodes f).findChild? k = (t.findChild? k).map (mapNodes f) := by
  rw [findChild?, mapNodes_children, find?_map, findChild?]
  congr 2
  exact funext fun c => by simp [mapNodes_kind kinds]

/-- The tasks and cases of a program with other nodes of the same kinds. -/
theorem exists_of_mem_branches_mapNodes (member : (task', branch') ∈ (root.mapNodes f).branches) :
    ∃ task branch, (task, branch) ∈ root.branches ∧ task' = task.mapNodes f ∧
      branch' = branch.mapNodes f := by
  obtain ⟨d', found', inside', below'⟩ := mem_branches.mp member
  rw [findChild?_mapNodes kinds] at found'
  obtain ⟨d, found, rfl⟩ := Option.map_eq_some_iff.mp found'
  rw [childrenOf_mapNodes kinds] at inside'
  obtain ⟨task, inside, rfl⟩ := mem_map.mp inside'
  rw [childrenOf_mapNodes kinds] at below'
  obtain ⟨branch, below, rfl⟩ := mem_map.mp below'
  exact ⟨task, branch, mem_branches.mpr ⟨d, found, inside, below⟩, rfl, rfl⟩

theorem mem_branches_mapNodes (member : (task', branch') ∈ (root.mapNodes f).branches) :
    ∃ task branch, (task, branch) ∈ root.branches ∧ branch' = branch.mapNodes f := by
  obtain ⟨task, branch, before, _, same⟩ := exists_of_mem_branches_mapNodes kinds member
  exact ⟨task, branch, before, same⟩

theorem mem_taskParams_mapNodes {q' : Tree} (member : q' ∈ taskParams (root.mapNodes f)) :
    ∃ q ∈ taskParams root, q' = q.mapNodes f := by
  rw [taskParams, findChild?_mapNodes kinds] at member
  rw [taskParams]
  cases found : root.findChild? .domain with
  | none =>
    rw [found] at member
    cases member
  | some d =>
    rw [found] at member
    obtain ⟨task', inside', below'⟩ := mem_flatMap.mp
      (show q' ∈ ((d.mapNodes f).childrenOf .task).flatMap fun t => t.childrenOf .param from member)
    rw [childrenOf_mapNodes kinds] at inside'
    obtain ⟨task, inside, rfl⟩ := mem_map.mp inside'
    rw [childrenOf_mapNodes kinds] at below'
    obtain ⟨q, below, rfl⟩ := mem_map.mp below'
    exact ⟨q, mem_flatMap.mpr ⟨task, inside, below⟩, rfl⟩

end Mapped

end Tree

theorem Typing.applyTo_kind (s : Typing) (n : Node) : (s.applyTo n).kind = n.kind := by
  rw [Typing.applyTo]
  split
  · next content _ => simp [Node.kind, content, Content.kind]
  · rfl

theorem Typing.applyTo_id (s : Typing) (n : Node) : (s.applyTo n).id = n.id := by
  rw [Typing.applyTo]
  split <;> rfl

theorem Typing.id_mapNodes (s : Typing) (t : Tree) : (t.mapNodes s.applyTo).id = t.id := by
  rw [Tree.id, mapNodes_node, applyTo_id, Tree.id]

theorem Typing.applyTo_type (inside : n.id < s.types.size) :
    (s.applyTo n).type = s.typeAt n.id := by
  have type : (s.applyTo n).type = (s.types[n.id]?).getD n.type := by
    rw [Typing.applyTo]
    split <;> rfl
  rw [type, typeAt, Array.getElem?_eq_getElem inside]
  rfl

theorem Typing.applyTo_content (s : Typing) (plain : n.kind.isExpression = false) :
    (s.applyTo n).content = n.content := by
  rw [Typing.applyTo]
  split
  · next content _ => simp [Node.kind, content, Content.kind, Kind.isExpression] at plain
  · rfl

theorem Typing.name_mapNodes (s : Typing) {t : Tree} (plain : t.kind.isExpression = false) :
    (t.mapNodes s.applyTo).name = t.name := by
  rw [Tree.name, Tree.name, mapNodes_content, s.applyTo_content plain]
  rfl

theorem Typing.applyTo_of_var (s : Typing) (content : n.content = .var v) :
    (s.applyTo n).content = .var v := by
  rw [Typing.applyTo]
  split
  · next isCall _ => cases content.symm.trans isCall
  · exact content

theorem Typing.applyTo_of_call (s : Typing) (content : n.content = .call c) :
    ∃ d, (s.applyTo n).content = .call d ∧ d.decl = c.decl := by
  rw [Typing.applyTo]
  split
  · next d sig isCall _ =>
    obtain rfl := Content.call.inj (content.symm.trans isCall)
    exact ⟨_, rfl, rfl⟩
  · exact ⟨c, content, rfl⟩

theorem Typing.applyTo_var (content : (s.applyTo n).content = .var v) :
    n.content = .var v := by
  rw [Typing.applyTo] at content
  split at content
  · cases content
  · exact content

theorem Typing.applyTo_call (content : (s.applyTo n).content = .call c) :
    ∃ d, n.content = .call d ∧ c.decl = d.decl ∧
      ∀ sig, s.overloadAt n.id = some sig → c.signature = some sig := by
  rw [Typing.applyTo] at content
  split at content
  · next d sig before chosen =>
    cases content
    exact ⟨d, before, rfl, fun sig' found => chosen.symm.trans found⟩
  · next unchosen =>
    exact ⟨c, content, rfl, fun sig found => absurd found (unchosen c sig content)⟩

/-- A node of a case that is part of an expression is visited by a traversal of one. -/
theorem Tree.mem_expressions_of_visited {branch u : Tree} (kind : branch.kind = .branch)
    (visits : u ∈ branch.visited) (isExpression : u.kind.isExpression = true) :
    ∃ t ∈ branch.expressions, u ∈ t.visited := by
  rcases mem_visited_cases visits with rfl | ⟨c, part, below⟩
  · rw [kind] at isExpression
    cases isExpression
  by_cases whole : c.kind.isExpression = true
  · exact ⟨c, mem_flatMap.mpr ⟨c, part, by simp [whole]⟩, below⟩
  · rcases mem_visited_cases below with rfl | ⟨d, inside, deeper⟩
    · exact absurd isExpression whole
    · exact ⟨d, mem_flatMap.mpr ⟨c, part, by simpa [whole] using inside⟩, deeper⟩

/-- A call that is an entry of the task list of a case. -/
def Tree.IsTaskCall (branch u : Tree) : Prop :=
  u.kind = .call ∧ ∃ list ∈ branch.children, list.kind = .taskList ∧ u ∈ list.children

/-- The types of a case are complete: expressions have concrete types, but for the calls of the task
list; calls have a declaration or an overload; and names have types. -/
structure Tree.IsTyped (branch : Tree) : Prop where
  expressions : ∀ u ∈ branch.visited, u.kind.isExpression = true → ¬ branch.IsTaskCall u →
    u.node.type.isConcrete = true
  calls : ∀ u ∈ branch.visited, ∀ c, u.content = .call c → c.decl ≠ none ∨
    ∃ sig, c.signature = some sig ∧ sig.result = u.node.type
  names : ∀ u ∈ branch.visited, ∀ w ∈ branch.visited, ∀ v v', u.content = .var v →
    w.content = .var v' → v.name = v'.name → u.node.type = w.node.type

section Inferred

variable {T : Prop} {functions : OverloadTable} {p : Program} {s : Typing} {task branch : Tree}

/-- An expression node of a case is settled, unless it is a call of the task list with a
declaration. -/
theorem settled_or_taskCall (resolved : p.Resolved T) (inferred : Inferred functions p s)
    (member : (task, branch) ∈ p.root.branches) {t u : Tree} (inside : t ∈ branch.expressions)
    (visits : u ∈ t.visited) : Settled (.ofProgram functions p) s u ∨
      (branch.IsTaskCall u ∧ ∃ c, u.content = .call c ∧ c.decl ≠ none) := by
  obtain ⟨info, attrs, pre, list, resolution⟩ := resolved.branches task branch member
  rcases resolution.linked inside visits with linked | ⟨rfl, entry, c, content, declared⟩
  · refine .inl ((inferred.settled _ member t inside).settled u visits
      fun same c d content declared => ?_)
    obtain ⟨f, isFact, rfl⟩ := linked.call c d (by rw [same]; exact content) declared
    exact resolved.fact isFact
  · exact .inr ⟨⟨congrArg Content.kind content, list, resolution.list_mem,
      congrArg Content.kind resolution.listContent, entry⟩, c, content, declared⟩

/-- The inferred type of a node that is part of the program is stored on it. -/
theorem type_mapNodes (resolved : p.Resolved T) (inferred : Inferred functions p s) {u : Tree}
    {above : Option Node} (site : ⟨u, above⟩ ∈ p.siteList) :
    (u.mapNodes s.applyTo).node.type = s.typeAt u.id := by
  rw [mapNodes_node]
  refine applyTo_type ?_
  rw [inferred.typeSize]
  exact resolved.sound.accounted.lt_next (Program.mem_nodes_of_mem_siteList site)

/-- Every expression node of a typed case is one of the case before. -/
theorem mem_visited_of_applied (resolved : p.Resolved T) (member : (task, branch) ∈ p.root.branches)
    {u' : Tree} (visits' : u' ∈ (branch.mapNodes s.applyTo).visited)
    (isExpression : u'.kind.isExpression = true) : ∃ t ∈ branch.expressions, ∃ u ∈ t.visited,
      u' = u.mapNodes s.applyTo ∧ ∃ above, ⟨u, above⟩ ∈ p.siteList := by
  have kinds := s.applyTo_kind
  obtain ⟨_, _, _, _, resolution⟩ := resolved.branches task branch member
  rw [visited_mapNodes kinds] at visits'
  obtain ⟨u, visits, rfl⟩ := mem_map.mp visits'
  rw [mapNodes_kind kinds] at isExpression
  obtain ⟨t, inside, below⟩ := mem_expressions_of_visited resolution.kind visits isExpression
  obtain ⟨above, site⟩ : ∃ above, ⟨u, above⟩ ∈ Tree.siteList (some task.node) branch :=
    mem_siteList_expression inside below
  exact ⟨t, inside, u, below, rfl, above, (Program.mem_siteList_branch member).2 _ site⟩

/-- What inference leaves behind is typed. -/
theorem isTyped_of_inferred (resolved : p.Resolved T) (inferred : Inferred functions p s)
    (member : (task, branch) ∈ p.root.branches) : (branch.mapNodes s.applyTo).IsTyped := by
  have kinds := s.applyTo_kind
  have origin : ∀ u' ∈ (branch.mapNodes s.applyTo).visited, u'.kind.isExpression = true →
      ∃ t ∈ branch.expressions, ∃ u ∈ t.visited, u' = u.mapNodes s.applyTo ∧
        u'.node.type = s.typeAt u.id := by
    intro u' visits' isExpression
    obtain ⟨t, inside, u, below, rfl, _, site⟩ :=
      mem_visited_of_applied resolved member visits' isExpression
    exact ⟨t, inside, u, below, rfl, type_mapNodes resolved inferred site⟩
  refine ⟨fun u' visits' isExpression other => ?_, fun u' visits' c content => ?_,
    fun u' visitsU w' visitsW v v' contentU contentW same => ?_⟩
  · obtain ⟨t, inside, u, below, rfl, type⟩ := origin u' visits' isExpression
    rw [type]
    rcases settled_or_taskCall resolved inferred member inside below with settled | ⟨taskCall, _⟩
    · exact settled.concrete
    · obtain ⟨isCall, list, part, isList, entry⟩ := taskCall
      refine absurd ⟨(mapNodes_kind kinds u).trans isCall, list.mapNodes s.applyTo, ?_,
        (mapNodes_kind kinds list).trans isList, ?_⟩ other
      · rw [mapNodes_children]
        exact mem_map_of_mem part
      · rw [mapNodes_children]
        exact mem_map_of_mem entry
  · have isExpression : u'.kind.isExpression = true := congrArg (·.kind.isExpression) content
    obtain ⟨t, inside, u, below, rfl, type⟩ := origin u' visits' isExpression
    obtain ⟨d, before, decl, chosen⟩ := applyTo_call ((mapNodes_content u).symm.trans content)
    rw [decl, type]
    rcases settled_or_taskCall resolved inferred member inside below with settled | ⟨_, e,
      isCall, declared⟩
    · refine (settled.call d before).imp_right fun ⟨sig, overload, result⟩ => ?_
      exact ⟨sig, chosen sig overload, result⟩
    · left
      rw [show u.content = .call d from before] at isCall
      cases isCall
      exact declared
  · have isVar : ∀ {r : Tree} {v : Variable}, r.content = .var v → r.kind.isExpression = true :=
      fun content => congrArg (·.kind.isExpression) content
    obtain ⟨t, inT, u, belowU, rfl, typeU⟩ := origin u' visitsU (isVar contentU)
    obtain ⟨r, inR, w, belowW, rfl, typeW⟩ := origin w' visitsW (isVar contentW)
    obtain ⟨τ, types⟩ := inferred.names _ member
    have beforeU : u.content = .var v := applyTo_var ((mapNodes_content u).symm.trans contentU)
    have beforeW : w.content = .var v' := applyTo_var ((mapNodes_content w).symm.trans contentW)
    rw [typeU, typeW, types t inT u belowU v beforeU, types r inR w belowW v' beforeW, same]

end Inferred

/-- A compilation without problems leaves a resolved program with the types that are inferred for
it. -/
theorem compile_ok_inferred
    (compiled : compile opts src = .ok o) (ok : o.ok = true) :
    ∃ p s, p.Resolved False ∧ Inferred opts.functions p s ∧ o.tree = p.root.mapNodes s.applyTo := by
  have ends : Ends False opts.session (Inferable opts.functions False)
      (runPhases opts.functions opts.maxClauses src opts.session .parse Phase.all) :=
    runPhases_all opts.functions_concrete _
  obtain ⟨_, ⟨p, s, resolved, inferred, root⟩, tree⟩ := compile_ok_ends ends compiled ok
  exact ⟨p, s, resolved, inferred, tree.trans root⟩

/-- A compilation without problems leaves a program with concrete types: the parameters of tasks,
and in every case the expressions, the overloads of calls and the names. -/
theorem compile_ok_isTyped
    (compiled : compile opts src = .ok o) (ok : o.ok = true) :
    (∀ q ∈ taskParams o.tree, q.node.type.isConcrete = true) ∧
      ∀ task branch, (task, branch) ∈ o.tree.branches → branch.IsTyped := by
  obtain ⟨p, s, resolved, inferred, tree⟩ := compile_ok_inferred compiled ok
  rw [tree]
  refine ⟨fun q' member' => ?_, fun task' branch' member' => ?_⟩
  · obtain ⟨q, member, rfl⟩ := mem_taskParams_mapNodes s.applyTo_kind member'
    obtain ⟨site, inside, same, _⟩ := anchor_of_taskParam member
    have bound : q.node.id < s.types.size := by
      rw [inferred.typeSize]
      exact Nat.lt_of_le_of_lt (Nat.le_of_eq same.symm)
        (resolved.sound.accounted.lt_next (Program.mem_nodes_of_mem_siteList inside))
    rw [mapNodes_node, applyTo_type bound]
    exact inferred.params q member
  · obtain ⟨task, branch, member, rfl⟩ := mem_branches_mapNodes s.applyTo_kind member'
    exact isTyped_of_inferred resolved inferred member

/-- A task that calls itself, with a fact, an intrinsic and an assignment in its precondition. -/
theorem compile_ok_isTyped_recursive_task :
    ∃ o, compile ⟨0, []⟩ ⟨"chase", Text.bytesOf
        "fact { p(id32, int8) } domain d { task t(x) { case p(x, n) & abs(n) > 1 & m = n + 1 -> [t(x)] } }"⟩ =
          .ok o ∧ o.ok = true ∧ o.tree.branches ≠ [] ∧
        (∀ q ∈ taskParams o.tree, q.node.type.isConcrete = true) ∧
        ∀ task branch, (task, branch) ∈ o.tree.branches → branch.IsTyped := by
  refine exists_of_compilesTo_and (by decide +kernel) fun o compiled ok => ?_
  exact compile_ok_isTyped compiled ok

end TaskNet
