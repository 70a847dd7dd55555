import TaskNet.Proofs.Typing.Local

/-!
What inference reads of a program. In a program whose names are resolved, every part of a case is
found by its identity, and so are the first occurrences that the tables of its variables list.
-/

namespace TaskNet

open Infer List Tree

variable {s : Site}

namespace Tree

variable {t u : Tree} {table : List VarEntry} {ts : List Tree} {e : VarEntry}

theorem assignmentsList_eq (ts : List Tree) : assignmentsList ts = ts.flatMap assignments := by
  induction ts with
  | nil => rfl
  | cons t ts ih => rw [assignmentsList, ih, flatMap_cons]

theorem assignments_mk (n : Node) (cs : List Tree) : assignments (mk n cs) =
    if n.kind = .error then [] else if n.kind = .op .assign then [mk n cs]
      else cs.flatMap assignments := by
  rw [assignments, assignmentsList_eq]
  split
  · next content => simp [Node.kind, content, Content.kind]
  · next content => simp [Node.kind, content, Content.kind]
  · next notError notAssign =>
    have plain : n.kind ≠ .error ∧ n.kind ≠ .op .assign := by
      cases content : n.content <;> simp_all [Node.kind, Content.kind]
    rw [if_neg plain.1, if_neg plain.2]

/-- Assignments are met by a traversal. -/
theorem mem_assignments (member : u ∈ t.assignments) : u ∈ t.visited ∧ u.content = .op .assign := by
  induction t with
  | mk n cs ih =>
    rw [assignments_mk] at member
    split at member
    · cases member
    next sound =>
    split at member
    · next kind =>
      rw [mem_singleton.mp member]
      exact ⟨mem_visited_self _, content_of_op kind⟩
    · obtain ⟨c, inside, below⟩ := mem_flatMap.mp member
      obtain ⟨visits, content⟩ := ih c inside below
      exact ⟨mem_visited_child (t := mk n cs) sound inside visits, content⟩

/-- Other nodes of the same kinds have the same assignments. -/
theorem assignments_mapNodes {f : Node → Node} (kinds : ∀ n, (f n).kind = n.kind) (t : Tree) :
    (t.mapNodes f).assignments = t.assignments.map (mapNodes f) := by
  induction t with
  | mk n cs ih =>
    rw [mapNodes_mk, assignments_mk, assignments_mk, kinds]
    split
    · rfl
    split
    · rw [map_singleton, mapNodes_mk]
    · rw [flatMap_map, map_flatMap]
      exact flatMap_congr ih

theorem mem_addVariables (member : e ∈ addVariables table ts) :
    e ∈ table ∨ ∃ t ∈ ts, t.id = e.node ∧ ∃ v, t.content = .var v ∧ v.name = e.name := by
  induction ts generalizing table with
  | nil => exact .inl member
  | cons t ts ih =>
    rw [addVariables] at member
    split at member
    · next v content =>
      split at member
      · rcases ih member with before | ⟨u, inside, rest⟩
        · exact .inl before
        · exact .inr ⟨u, by simp [inside], rest⟩
      · rcases ih member with before | ⟨u, inside, rest⟩
        · rcases mem_append.mp before with old | new
          · exact .inl old
          · rw [mem_singleton.mp new]
            exact .inr ⟨t, by simp, rfl, v, content, rfl⟩
        · exact .inr ⟨u, by simp [inside], rest⟩
    · rcases ih member with before | ⟨u, inside, rest⟩
      · exact .inl before
      · exact .inr ⟨u, by simp [inside], rest⟩

/-- A table of variables lists variables of its tree. -/
theorem mem_variableTable (member : e ∈ t.variableTable) :
    ∃ u ∈ t.visited, u.id = e.node ∧ ∃ v, u.content = .var v ∧ v.name = e.name :=
  (mem_addVariables member).resolve_left (by simp)

/-- Adding variables to a table keeps its names and adds those of the variables. -/
theorem name_mem_addVariables {name : String}
    (named : name ∈ table.map VarEntry.name ∨ ∃ t ∈ ts, ∃ v, t.content = .var v ∧ v.name = name) :
    name ∈ (addVariables table ts).map VarEntry.name := by
  induction ts generalizing table with
  | nil => simpa [addVariables] using named
  | cons t ts ih =>
    have later : ∀ {table' : List VarEntry}, table.map VarEntry.name ⊆ table'.map VarEntry.name →
        (∀ v, t.content = .var v → v.name ∈ table'.map VarEntry.name) →
        name ∈ (addVariables table' ts).map VarEntry.name := by
      intro table' wider own
      apply ih
      rcases named with before | ⟨u, member, v, content, rfl⟩
      · exact .inl (wider before)
      · rcases mem_cons.mp member with rfl | inside
        · exact .inl (own v content)
        · exact .inr ⟨u, inside, v, content, rfl⟩
    rw [addVariables]
    split
    · next v content =>
      have only : ∀ w, t.content = .var w → w = v :=
        fun w same => by simpa [content] using same.symm
      split
      · next seen =>
        refine later (List.Subset.refl _) fun w same => ?_
        obtain ⟨e, member, equal⟩ := any_eq_true.mp seen
        rw [only w same, ← beq_iff_eq.mp equal]
        exact mem_map_of_mem member
      · refine later (by simp) fun w same => ?_
        simp [only w same]
    · next other => exact later (List.Subset.refl _) fun w same => absurd same (other w)

theorem name_mem_variableTable {v : Variable} (visits : u ∈ t.visited)
    (content : u.content = .var v) : v.name ∈ t.variableTable.map VarEntry.name :=
  name_mem_addVariables (.inr ⟨u, visits, v, content, rfl⟩)

end Tree

variable {p : Program} {functions : OverloadTable} {T : Prop}

theorem Program.Accounted.site?_eq (accounted : p.Accounted) (inside : s ∈ p.siteList) :
    (TypingContext.ofProgram functions p).site? s.tree.id = some s :=
  accounted.find?_eq inside

theorem Program.Accounted.tree?_eq (accounted : p.Accounted) (inside : s ∈ p.siteList) :
    (TypingContext.ofProgram functions p).tree? (some s.tree.id) = some s.tree := by
  rw [TypingContext.tree?, Option.bind_some, accounted.site?_eq inside]
  rfl

namespace Resolution

variable {scope : NameScope} {branch pre list : Tree} {info : Guarded} {attrs : List Tree}
variable (resolution : Resolution T scope branch info attrs pre list)
include resolution

theorem precond_mem : pre ∈ branch.children := by
  simp [resolution.children]

theorem list_mem : list ∈ branch.children := by
  simp [resolution.children]

theorem precond_apart_list (distinct : branch.Distinct) : pre.Apart list := by
  have apart := distinct.apart
  rw [resolution.children, pairwise_append] at apart
  simpa using apart.2.1

/-- A case whose names are resolved can be worked on. -/
theorem workable {task : Tree} (accounted : p.Accounted)
    (member : (task, branch) ∈ p.root.branches) :
    Workable T (.ofProgram functions p) info pre list := by
  have sites := (Program.mem_siteList_branch member).2
  have distinct := accounted.branch_distinct member
  have atPre := sites _ (mem_siteList_child resolution.precond_mem)
  have atList := sites _ (mem_siteList_child resolution.list_mem)
  refine ⟨?_, ?_, fun t inside => ?_, fun t visits v content => ?_, fun e inside => ?_,
    fun t visits v content => ?_, ?_, ?_, ?_, fun t inPre u inList => ?_⟩
  · rw [resolution.precond]
    exact accounted.tree?_eq atPre
  · rw [resolution.tasks]
    exact accounted.tree?_eq atList
  · obtain ⟨visits, content⟩ := mem_assignments inside
    exact ⟨content, Throughout.inside resolution.precondTerm visits, resolution.targets t visits⟩
  · rw [resolution.precondVars]
    exact name_mem_variableTable visits content
  · rw [resolution.taskVars] at inside
    obtain ⟨u, visits, same, v, content, name⟩ := mem_variableTable inside
    obtain ⟨above, site⟩ : ∃ above, ⟨u, above⟩ ∈ siteList (some branch.node) list :=
      mem_siteList_visited visits
    refine ⟨⟨u, above⟩, v, ?_, content, name⟩
    rw [← same]
    exact accounted.site?_eq (sites _ (mem_siteList_below resolution.list_mem site))
  · rw [resolution.taskVars]
    exact name_mem_variableTable visits content
  · exact (distinct.child resolution.precond_mem).visited
  · rw [show list.kind = .taskList from congrArg Content.kind resolution.listContent]
    simp
  · exact (distinct.child resolution.list_mem).visited
  · exact (resolution.precond_apart_list distinct).visited inPre inList

end Resolution

end TaskNet
