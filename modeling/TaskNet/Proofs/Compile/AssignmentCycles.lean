import TaskNet.Proofs.Compile.AssignmentTargets

/-!
Assignments that depend on each other. An assignment may read a name that the conjunct assigns after
it, and nothing looks for an order in which the assignments can be made. A cycle of them is only
noticed when its names get no type. So when a compilation reports nothing, a type reaches every name
that is assigned: from a fact, from a primitive, or from the right side of an assignment of the
case, where one atom of an arithmetic expression is enough. In particular a cycle has a name that a
type reaches from outside of the cycle.
-/

namespace TaskNet

open Infer List NameScope Relation Tree Typing

variable {name : String} {v : Variable} {conjunct value t : Tree} {as : List Tree}

namespace Tree

def valueFor? (name : String) (a : Tree) : Option Tree :=
  match a.content, a.children with
  | .op .assign, [target, value] =>
    if target.kind = .var ∧ target.name = name then some value else none
  | _, _ => none

def valuesFor (as : List Tree) (name : String) : List Tree :=
  as.filterMap (valueFor? name)

def Mentions (t : Tree) (name : String) : Prop :=
  ∃ u ∈ t.visited, u.kind = .var ∧ u.name = name

/-- The right side of an assignment of a conjunct to a name mentions another name that the conjunct
assigns. -/
def DependsOn (conjunct : Tree) (x y : String) : Prop :=
  (∃ value ∈ valuesFor conjunct.children x, value.Mentions y) ∧ valuesFor conjunct.children y ≠ []

instance (t : Tree) (name : String) : Decidable (t.Mentions name) :=
  inferInstanceAs (Decidable (∃ u ∈ t.visited, u.kind = .var ∧ u.name = name))

instance (conjunct : Tree) (x y : String) : Decidable (conjunct.DependsOn x y) :=
  inferInstanceAs (Decidable (_ ∧ ¬ _))

/-- Two names that depend on each other, or one name. -/
def OnCycle (conjunct : Tree) (x y : String) : Prop :=
  ReflTransGen conjunct.DependsOn x y ∧ ReflTransGen conjunct.DependsOn y x

def PassesTo (root : Tree) (block : Kind) (calls : List Tree) (name : String) : Prop :=
  ∃ u ∈ calls, ∃ d ∈ root.childrenOfFirst block, u.declared? = some d.id ∧
    ∃ a ∈ u.children, a.kind = .var ∧ a.name = name

/-- A type reaches a name of a case. -/
inductive TypeReaches (root pre list : Tree) : String → Prop
  | fact {name : String} (passes : root.PassesTo .world pre.visited name) :
      TypeReaches root pre list name
  | primitive {name : String} (passes : root.PassesTo .primitives list.children name) :
      TypeReaches root pre list name
  | assigned {name : String} {value w : Tree} (assigns : value ∈ valuesFor pre.assignments name)
      (atom : w ∈ value.atoms) (source : w.kind = .var → TypeReaches root pre list w.name) :
      TypeReaches root pre list name

/-- A type reaches a name of a case otherwise than from the names of a set: from a fact, from a
primitive, or from an atom that is no variable of the set. -/
def ReachedFromOutside (root pre list : Tree) (S : String → Prop) (name : String) : Prop :=
  root.PassesTo .world pre.visited name ∨ root.PassesTo .primitives list.children name ∨
    ∃ value ∈ valuesFor pre.assignments name, ∃ w ∈ value.atoms, w.kind = .var → ¬ S w.name

theorem TypeReaches.exists_outside {root pre list : Tree} {S : String → Prop}
    (reaches : TypeReaches root pre list name) (inside : S name) :
    ∃ y, S y ∧ ReachedFromOutside root pre list S y := by
  induction reaches with
  | @fact name passes => exact ⟨name, inside, .inl passes⟩
  | @primitive name passes => exact ⟨name, inside, .inr (.inl passes)⟩
  | @assigned name value w assigns atom _ ih =>
    by_cases back : w.kind = .var ∧ S w.name
    · exact ih back.1 back.2
    · exact ⟨name, inside,
        .inr (.inr ⟨value, assigns, w, atom, fun isVar inS => back ⟨isVar, inS⟩⟩)⟩

theorem name_of_var (content : t.content = .var v) : t.name = v.name := by
  rw [Tree.name, content]
  rfl

theorem valueFor?_eq_some {a : Tree} : a.valueFor? name = some value ↔
    a.content = .op .assign ∧ ∃ target v, a.children = [target, value] ∧ target.content = .var v ∧
      v.name = name := by
  rw [valueFor?]
  constructor
  · intro found
    split at found
    · next target other content children =>
      split at found
      · next named =>
        cases found
        obtain ⟨v, isVar⟩ := content_of_var named.1
        exact ⟨content, target, v, children, isVar, (name_of_var isVar).symm.trans named.2⟩
      · cases found
    · cases found
  · rintro ⟨content, target, v, children, isVar, rfl⟩
    rw [content, children]
    dsimp only
    rw [if_pos ⟨congrArg Content.kind isVar, name_of_var isVar⟩]

theorem mem_valuesFor :
    value ∈ valuesFor as name ↔ ∃ a ∈ as, a.content = .op .assign ∧ ∃ target v,
      a.children = [target, value] ∧ target.content = .var v ∧ v.name = name := by
  rw [valuesFor, mem_filterMap]
  exact exists_congr fun a => and_congr_right fun _ => valueFor?_eq_some

/-- A name on a cycle is assigned. -/
theorem valuesFor_of_cycle {x : String}
    (cycle : TransGen conjunct.DependsOn x x) : valuesFor conjunct.children x ≠ [] := by
  obtain ⟨y, _, last⟩ := TransGen.tail'_iff.mp cycle
  exact last.2

theorem atoms_mapNodes {f : Node → Node} (kinds : ∀ n, (f n).kind = n.kind) (t : Tree) :
    (t.mapNodes f).atoms = t.atoms.map (mapNodes f) := by
  induction t with
  | mk n cs ih =>
    rw [mapNodes_mk, atoms_mk, atoms_mk, kinds]
    split
    · rw [flatMap_map, map_flatMap]
      exact flatMap_congr ih
    · rw [map_singleton, mapNodes_mk]

end Tree

section Applied

variable {T : Prop} {functions : OverloadTable} {p : Program} {s : Typing} {task branch : Tree}
variable {info : Guarded} {attrs : List Tree} {pre list : Tree} {name : String}

/-- Types do not change the name of a variable. -/
theorem var_applied (isVar : (t.mapNodes s.applyTo).kind = .var) :
    ∃ v, t.content = .var v ∧ (t.mapNodes s.applyTo).name = v.name := by
  obtain ⟨v, content⟩ := content_of_var isVar
  exact ⟨v, applyTo_var ((mapNodes_content t).symm.trans content), name_of_var content⟩

/-- Types do not change what is passed. -/
theorem passesTo_applied {root : Tree} {block : Kind} {calls : List Tree} {u d a : Tree}
    {c : Invocation} (call : u ∈ calls) (declares : d ∈ root.childrenOfFirst block)
    (isCall : u.content = .call c) (declared : c.decl = some d.id) (passed : a ∈ u.children)
    (content : a.content = .var v) :
    (root.mapNodes s.applyTo).PassesTo block (calls.map (mapNodes s.applyTo)) v.name := by
  have isVar : (a.mapNodes s.applyTo).content = .var v :=
    (mapNodes_content a).trans (s.applyTo_of_var content)
  obtain ⟨c', isCall', decl⟩ := s.applyTo_of_call isCall
  refine ⟨u.mapNodes s.applyTo, mem_map_of_mem call, d.mapNodes s.applyTo, ?_, ?_,
    a.mapNodes s.applyTo, ?_, congrArg Content.kind isVar, name_of_var isVar⟩
  · rw [childrenOfFirst_mapNodes s.applyTo_kind]
    exact mem_map_of_mem declares
  · rw [declared?_eq_some, s.id_mapNodes]
    exact ⟨c', (mapNodes_content u).trans isCall', decl.trans declared⟩
  · rw [mapNodes_children]
    exact mem_map_of_mem passed

/-- Types do not change what is assigned. -/
theorem mem_valuesFor_applied {a target : Tree} (member : a ∈ as)
    (content : a.content = .op .assign) (children : a.children = [target, value])
    (isVar : target.content = .var v) :
    value.mapNodes s.applyTo ∈ valuesFor (as.map (mapNodes s.applyTo)) v.name := by
  refine mem_valuesFor.mpr ⟨a.mapNodes s.applyTo, mem_map_of_mem member, ?_,
    target.mapNodes s.applyTo, v, ?_, (mapNodes_content target).trans (s.applyTo_of_var isVar), rfl⟩
  · exact content_of_op ((mapNodes_kind s.applyTo_kind a).trans (congrArg Content.kind content))
  · rw [mapNodes_children, children]
    rfl

/-- A name that gets a type when a case is looked at is reached by one in the typed program. -/
theorem typeReaches_of_getsType (resolved : p.Resolved T)
    (resolution : Resolution T (.ofTask p.declarations task) branch info attrs pre list)
    (gets : GetsType (.ofProgram functions p) pre list name) :
    TypeReaches (p.root.mapNodes s.applyTo) (pre.mapNodes s.applyTo) (list.mapNodes s.applyTo)
      name := by
  have kinds := s.applyTo_kind
  induction gets with
  | @fact u a d v visits declared isFact passed content =>
    obtain ⟨c, isCall⟩ := content_of_call (kind_of_declaration? declared)
    rw [isCall, TypingContext.declaration?] at declared
    obtain ⟨x, linked, _⟩ := Option.bind_eq_some_iff.mp declared
    obtain ⟨world, fact, found, inside, rfl, _⟩ :=
      fact_of_call resolved resolution visits isCall linked
    apply TypeReaches.fact
    rw [visited_mapNodes kinds]
    exact passesTo_applied visits (mem_childrenOfFirst.mpr ⟨world, found, inside⟩) isCall linked
      passed content
  | primitive passes =>
    obtain ⟨e, entry, primitive, inside, ⟨c, isCall, linked⟩, a, passed, v, content, rfl⟩ :=
      primitive_of_passes resolution resolved passes
    apply TypeReaches.primitive
    rw [mapNodes_children]
    exact passesTo_applied entry inside isCall linked passed content
  | @assigned t target value w v assignment children content atom _ ih =>
    obtain ⟨_, assigns⟩ := mem_assignments assignment
    have assigned : value.mapNodes s.applyTo ∈
      valuesFor (pre.mapNodes s.applyTo).assignments v.name := by
      rw [assignments_mapNodes kinds]
      exact mem_valuesFor_applied assignment assigns children content
    have inside : w.mapNodes s.applyTo ∈ (value.mapNodes s.applyTo).atoms := by
      rw [atoms_mapNodes kinds]
      exact mem_map_of_mem atom
    refine .assigned assigned inside fun isVar => ?_
    obtain ⟨x, before, named⟩ := var_applied isVar
    rw [named]
    exact ih x before

/-- What a conjunct of a typed program assigns to is bound there, so a type reaches it. -/
theorem typeReaches_of_assigned (resolved : p.Resolved T) (inferred : Inferred functions p s)
    (member : (task, branch) ∈ p.root.branches)
    (resolution : Resolution T (.ofTask p.declarations task) branch info attrs pre list)
    (part : conjunct ∈ pre.children)
    (assigned : valuesFor (conjunct.mapNodes s.applyTo).children name ≠ []) :
    TypeReaches (p.root.mapNodes s.applyTo) (pre.mapNodes s.applyTo) (list.mapNodes s.applyTo)
      name := by
  obtain ⟨value', found⟩ := exists_mem_of_ne_nil _ assigned
  obtain ⟨a', literal', content', target', v, children', isVar', rfl⟩ := mem_valuesFor.mp found
  rw [mapNodes_children] at literal'
  obtain ⟨a, literal, rfl⟩ := mem_map.mp literal'
  have content : a.content = .op .assign :=
    content_of_op ((mapNodes_kind s.applyTo_kind a).symm.trans (congrArg Content.kind content'))
  obtain ⟨target, value, w, children, isVar, binding, _⟩ :=
    (assignsInPlace_of_inferred resolved inferred member resolution part).literals a literal content
  obtain rfl : v = w := by
    rw [mapNodes_children, children] at children'
    obtain ⟨rfl, _⟩ := List.cons.inj children'
    rw [mapNodes_content, s.applyTo_of_var isVar] at isVar'
    exact (Content.var.inj isVar').symm
  obtain ⟨_, _, _, _, parts, σ, typed⟩ := inferred.typed _ member
  obtain ⟨rfl, rfl, rfl, rfl⟩ := resolution.toHasParts.unique parts
  have assignment := mem_assignments_of_literal resolution.normal.disjunction
    (resolution.normal.conjunctions conjunct part) part literal content
  have visits : target ∈ pre.visited := visited_trans (mem_assignments assignment).1
    (mem_visited_child (by rw [show a.kind = .op .assign from congrArg Content.kind content]; simp)
      (by simp [children]) (mem_visited_self target))
  exact typeReaches_of_getsType resolved resolution (typed.sources target visits v isVar binding)

end Applied

/-- In a program that is compiled without problems, a type reaches every name that a conjunct
assigns. If the assignments of the conjunct depend on each other in a cycle, a type reaches the
cycle from outside. -/
theorem compile_ok_cycles_reached {opts : Options} {src : Source} {o : Outcome}
    (compiled : compile opts src = .ok o) (ok : o.ok = true) :
    ∀ task branch, (task, branch) ∈ o.tree.branches → ∀ pre ∈ branch.children,
      pre.kind.isExpression = true → ∀ list ∈ branch.children, list.kind = .taskList →
        ∀ conjunct ∈ pre.children,
          (∀ x, valuesFor conjunct.children x ≠ [] → TypeReaches o.tree pre list x) ∧
          ∀ x, TransGen conjunct.DependsOn x x → ∃ y, conjunct.OnCycle x y ∧
            ReachedFromOutside o.tree pre list (conjunct.OnCycle x) y := by
  obtain ⟨p, s, resolved, inferred, tree⟩ := compile_ok_inferred compiled ok
  rw [tree]
  intro task' branch' member' pre' part isExpression list' listPart isList conjunct' inside'
  obtain ⟨task, branch, member, rfl, rfl⟩ := exists_of_mem_branches_mapNodes s.applyTo_kind member'
  obtain ⟨info, attrs, pre, list, resolution⟩ := resolved.branches task branch member
  obtain rfl := precond_of_applied resolution part isExpression
  obtain rfl := list_of_applied resolution listPart isList
  rw [mapNodes_children] at inside'
  obtain ⟨conjunct, inside, rfl⟩ := mem_map.mp inside'
  have reaches : ∀ x, valuesFor (conjunct.mapNodes s.applyTo).children x ≠ [] →
      TypeReaches (p.root.mapNodes s.applyTo) (pre.mapNodes s.applyTo)
      (list.mapNodes s.applyTo) x :=
    fun x assigned => typeReaches_of_assigned resolved inferred member resolution inside assigned
  refine ⟨reaches, fun x cycle => (reaches x (valuesFor_of_cycle cycle)).exists_outside ?_⟩
  exact ⟨.refl, .refl⟩

/-- Three names that depend on each other with a number among them, and two that a primitive gives
their type. -/
def dependentNames : Source :=
  ⟨"cycles", Text.bytesOf "prim { go(int8) } domain d { task t() {
    case x = y + 1 & y = -z & z = x -> [] case x = y & y = x -> [go(x), go(y)] } }"⟩

theorem compile_ok_cycles_reached_primitive :
    ∃ o, compile ⟨0, []⟩ dependentNames = .ok o ∧ o.ok = true ∧
        (o.tree.branches.flatMap fun b => b.2.children.flatMap fun pre => pre.children.map fun c =>
          decide (c.DependsOn "x" "y" ∧
          (c.DependsOn "y" "x" ∨ c.DependsOn "y" "z" ∧ c.DependsOn "z" "x"))) =
            [true, true, false, false] ∧
        ∀ task branch, (task, branch) ∈ o.tree.branches → ∀ pre ∈ branch.children,
          pre.kind.isExpression = true → ∀ list ∈ branch.children, list.kind = .taskList →
            ∀ conjunct ∈ pre.children,
              (∀ x, valuesFor conjunct.children x ≠ [] → TypeReaches o.tree pre list x) ∧
              ∀ x, TransGen conjunct.DependsOn x x → ∃ y, conjunct.OnCycle x y ∧
                ReachedFromOutside o.tree pre list (conjunct.OnCycle x) y := by
  refine exists_of_compilesTo_and (by decide +kernel) fun o compiled ok => ?_
  exact compile_ok_cycles_reached compiled ok

def selfAssigned : Source :=
  ⟨"cycle", Text.bytesOf "domain d { task t() { case x = x + 1 -> [] } }"⟩

theorem compile_ok_assigned_cycle :
    ∃ o, compile ⟨0, []⟩ selfAssigned = .ok o ∧
      o.ok = true ∧ ∃ b ∈ o.tree.branches, ∃ pre ∈ b.2.children, pre.kind.isExpression = true ∧
        ∃ conjunct ∈ pre.children, TransGen conjunct.DependsOn "x" "x" := by
  have passes : compilesTo ⟨0, []⟩ selfAssigned
      (fun o => decide (∃ b ∈ o.tree.branches, ∃ pre ∈ b.2.children, pre.kind.isExpression = true ∧
        ∃ conjunct ∈ pre.children, conjunct.DependsOn "x" "x")) = true := by decide +kernel
  obtain ⟨o, compiled, ok, b, branch, pre, part, isExpression, conjunct, inside, depends⟩ :=
    exists_of_compilesTo passes
  exact ⟨o, compiled, ok, b, branch, pre, part, isExpression, conjunct, inside, .single depends⟩

end TaskNet
