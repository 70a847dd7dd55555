import TaskNet.Proofs.Compile.Phases

/-!
Links of variables. After names are resolved without problems, every variable of a case is a binding
occurrence, which refers to nothing, or refers in one step to a parameter of its task or to a
binding occurrence: inside the precondition to the only one of its name in its conjunct, and outside
to the one in the first conjunct. A conjunct binds names among the arguments of its positive fact
literals and on the left of its assignments, and nowhere else.
-/

namespace TaskNet

open List NameScope Tree

variable {v : Variable} {name : String}

namespace Tree

def binds (name : String) (t : Tree) : Bool :=
  match t.content with
  | .var v => v.binding && v.name == name
  | _ => false

def HasParam (task : Tree) (name : String) : Prop :=
  ∃ q ∈ task.childrenOf .param, q.name = name

/-- A node stands where a conjunct binds: it is an argument of a positive fact literal, or the left
side of an assignment that is a literal. -/
def StandsToBind (root conjunct b : Tree) : Prop :=
  ∃ l ∈ conjunct.children,
    (∃ c, l.content = .call c ∧ (∃ fact ∈ root.childrenOfFirst .world, c.decl = some fact.id) ∧
      b ∈ l.children) ∨
    (l.content = .op .assign ∧ l.children.head? = some b)

/-- A variable refers to the parameter of its name, or to an occurrence in a conjunct that binds its
name. -/
def RefersTo (task : Tree) (conjunct : Option Tree) (v : Variable) : Prop :=
  (∃ q ∈ task.childrenOf .param, q.name = v.name ∧ v.definition = some q.id) ∨
    ∃ c, conjunct = some c ∧ ∃ b ∈ c.visited, b.binds v.name = true ∧ v.definition = some b.id

/-- No variable of a part of a case outside of the precondition binds, and each refers to a
parameter or to the first conjunct. -/
def ReadsFirst (task pre t : Tree) : Prop :=
  t.Throughout fun u => ∀ v, u.content = .var v →
    v.binding = false ∧ task.RefersTo pre.children.head? v

/-- The variables of a conjunct are linked in one step. -/
structure LinksInOneStep (root task conjunct : Tree) : Prop where
  /-- A name that is no parameter has one binding occurrence. It stands where a conjunct binds, and
  refers to nothing. -/
  once : ∀ u ∈ conjunct.visited, ∀ v, u.content = .var v → ¬ task.HasParam v.name →
    ∃ b w, conjunct.visited.filter (binds v.name) = [b] ∧ root.StandsToBind conjunct b ∧
      b.content = .var w ∧ w.definition = none
  params : ∀ u ∈ conjunct.visited,
    ∀ v, u.content = .var v → task.HasParam v.name → v.binding = false
  refers : ∀ u ∈ conjunct.visited, ∀ v, u.content = .var v → v.binding = false →
    task.RefersTo (some conjunct) v

theorem binds_iff {t : Tree} : t.binds name = true ↔
    ∃ v, t.content = .var v ∧ v.binding = true ∧ v.name = name := by
  rw [binds]
  split
  · next v content => simp [content]
  · next notVar => simpa using fun v content => absurd content (notVar v)

/-- A tree has as many binding occurrences of a name as its list of them says. -/
theorem length_filter_binds (name : String) (t : Tree) :
    (t.visited.filter (binds name)).length = (t.bindings.map NodeRef.name).count name := by
  rw [bindings]
  induction t.visited with
  | nil => rfl
  | cons u us ih =>
    rw [filter_cons, filterMap_cons]
    cases ref : u.bindingRef? with
    | none =>
      have other : u.binds name ≠ true := by
        intro binds
        obtain ⟨v, content, binding, _⟩ := binds_iff.mp binds
        cases ref.symm.trans (bindingRef?_eq_some.mpr ⟨v, content, binding, rfl⟩)
      rw [if_neg other, ih]
    | some r =>
      obtain ⟨v, content, binding, rfl⟩ := bindingRef?_eq_some.mp ref
      have same : u.binds name = (v.name == name) := by simp [binds, content, binding]
      rw [same, map_cons, count_cons]
      split <;> simp [ih]

end Tree

theorem param?_eq_none {ds : Declarations} {task : Tree} :
    (ofTask ds task).param? name = none ↔ ¬ task.HasParam name := by
  rw [param?, ofTask, lookup_eq_none_iff, forall_mem_map, HasParam, not_exists]
  refine forall_congr' fun q => ?_
  rw [not_and, ← ne_eq, ne_comm]
  simp

/-- A binding occurrence of a literal stands where the conjunct binds. -/
theorem NameScope.BindsInPlace.stands {scope : NameScope} {root conjunct l b : Tree}
    (place : scope.BindsInPlace l) (term : l.IsTerm) (member : l ∈ conjunct.children)
    (facts : ∀ d ∈ scope.declarations.facts, ∃ fact ∈ root.childrenOfFirst .world, fact.id = d.id)
    (visits : b ∈ l.visited) (content : b.content = .var v) (binding : v.binding = true) :
    root.StandsToBind conjunct b := by
  have listed : ∀ {a : Tree}, b ∈ a.visited → a.bindings ≠ [] := fun inside none => by
    have found := mem_bindings.mpr ⟨b, inside, v, content, binding, rfl⟩
    rw [none] at found
    cases found
  have direct : ∀ {a : Tree}, a ∈ l.children → b ∈ a.visited → a.kind = .var ∨ a.bindings = [] →
      b = a := fun below inside place =>
    visited_of_var (term.below below) (place.resolve_right (listed inside)) inside
  refine ⟨l, member, ?_⟩
  cases place with
  | nothing none => exact absurd none (listed visits)
  | @arguments c d isCall fact linked each =>
    rcases mem_visited_cases visits with rfl | ⟨a, below, inside⟩
    · cases content.symm.trans isCall
    · obtain ⟨tree, declared, same⟩ := facts d fact
      refine .inl ⟨c, isCall, ⟨tree, declared, linked.trans (congrArg some same.symm)⟩, ?_⟩
      exact direct below inside (each a below) ▸ below
  | @target target rest assigns children here others =>
    rcases mem_visited_cases visits with rfl | ⟨a, below, inside⟩
    · cases content.symm.trans assigns
    · refine .inr ⟨assigns, ?_⟩
      rw [children] at below ⊢
      rcases mem_cons.mp below with rfl | later
      · rw [direct (by simp [children]) inside here, head?_cons]
      · exact absurd (others a later) (listed inside)

section Case

variable {root task conjunct : Tree} {ds : Declarations}

theorem refersTo_of_bindings {b : NodeId} (member : ⟨b, v.name⟩ ∈ conjunct.bindings)
    (definition : v.definition = some b) : task.RefersTo (some conjunct) v := by
  obtain ⟨t, visits, w, content, binding, same⟩ := mem_bindings.mp member
  obtain ⟨rfl, name⟩ := NodeRef.mk.inj same
  exact .inr ⟨conjunct, rfl, t, visits, binds_iff.mpr ⟨w, content, binding, name.symm⟩, definition⟩

theorem refersTo_of_param? {x : NodeId} {c : Option Tree}
    (found : (ofTask ds task).param? v.name = some x) (definition : v.definition = some x) :
    task.RefersTo c v := by
  obtain ⟨q, member, name, same⟩ := mem_of_param? found
  exact .inl ⟨q, member, name, definition.trans (congrArg some same.symm)⟩

/-- A conjunct whose names are resolved is linked in one step. -/
theorem NameScope.ConjunctLinked.linksInOneStep
    (linked : (ofTask ds task).ConjunctLinked conjunct) (term : conjunct.IsTerm)
    (conjunction : conjunct.content = .op .and)
    (facts : ∀ d ∈ ds.facts, ∃ fact ∈ root.childrenOfFirst .world, fact.id = d.id) :
    LinksInOneStep root task conjunct := by
  have stands : ∀ {b : Tree} {v : Variable}, b ∈ conjunct.visited → b.content = .var v →
      v.binding = true → root.StandsToBind conjunct b := by
    intro b v visits content binding
    rcases mem_visited_cases visits with rfl | ⟨l, below, inside⟩
    · cases content.symm.trans conjunction
    · exact (linked.places l below).stands (term.below below) below facts inside content binding
  refine ⟨fun u visits v content noParam => ?_, fun u visits v content isParam => ?_,
    fun u visits v content other => ?_⟩
  · -- the name is bound: by this occurrence, or by the one that it refers to
    have bound : v.name ∈ conjunct.bindings.map NodeRef.name := by
      cases binding : v.binding with
      | true => exact mem_map.mpr ⟨_, mem_bindings.mpr ⟨u, visits, v, content, binding, rfl⟩, rfl⟩
      | false =>
        rcases (linked.linked u visits).other v content binding with ⟨p, found, _⟩ | ⟨_,
          b, _, member⟩
        · rw [param?_eq_none.mpr noParam] at found
          cases found
        · exact mem_map.mpr ⟨_, member, rfl⟩
    have single : (conjunct.visited.filter (binds v.name)).length = 1 := by
      rw [length_filter_binds, count_eq_one_of_mem linked.nodup bound]
    obtain ⟨b, alone⟩ := length_eq_one_iff.mp single
    obtain ⟨inside, here⟩ := mem_filter.mp (alone ▸ mem_singleton_self b)
    obtain ⟨w, isVar, binding, _⟩ := binds_iff.mp here
    exact ⟨b, w, alone, stands inside isVar binding, isVar,
      (linked.linked b inside).binding w isVar binding⟩
  · cases binding : v.binding with
    | false => rfl
    | true =>
      have free := linked.free _ (mem_bindings.mpr ⟨u, visits, v, content, binding, rfl⟩)
      exact absurd isParam (param?_eq_none.mp free)
  · rcases (linked.linked u visits).other v content other with ⟨p, found, same⟩ | ⟨_,
      b, same, member⟩
    · exact refersTo_of_param? found same
    · exact refersTo_of_bindings member same

/-- A variable outside of the precondition refers to a parameter, or to the first conjunct. -/
theorem NameScope.LinkedOutside.refersTo {pre u : Tree}
    (linked : LinkedOutside (.ofTask ds task) pre.BindsFirst u.node)
    (content : u.content = .var v) : v.binding = false ∧ task.RefersTo pre.children.head? v := by
  refine ⟨linked.unbound v content, ?_⟩
  obtain ⟨x, definition⟩ := Option.ne_none_iff_exists'.mp (linked.defined v content)
  have goes := linked.var v content
  rw [definition, Option.getD_some] at goes
  rcases goes with found | ⟨_, c, first, member⟩
  · exact refersTo_of_param? found definition
  · rw [first]
    exact refersTo_of_bindings member definition

end Case

/-- In every case of a program whose names are resolved without problems, variables are linked in
one step: those of a conjunct within the conjunct, and those of the attributes and the task list to
the first conjunct, parameters of the task apart. -/
theorem resolves_linksInOneStep {opts : Options} {src : Source} {s : Session}
    (resolves : Resolves opts src s) {task branch : Tree}
    (member : (task, branch) ∈ s.program.root.branches) :
    ∃ info attrs pre list, HasParts branch info attrs pre list ∧
      (∀ conjunct ∈ pre.children, LinksInOneStep s.program.root task conjunct) ∧
      (∀ a ∈ attrs, task.ReadsFirst pre a) ∧ task.ReadsFirst pre list := by
  have resolved := resolves.resolved
  obtain ⟨info, attrs, pre, list, resolution⟩ := resolved.branches task branch member
  refine ⟨info, attrs, pre, list, resolution.toHasParts, fun c conjunct => ?_,
    fun a attr u visits v content => ?_, fun u visits v content => ?_⟩
  · refine (resolution.conjuncts c conjunct).linksInOneStep (resolution.precondTerm.below conjunct)
      (resolution.normal.conjunctions c conjunct) fun d declared => ?_
    obtain ⟨world, fact, found, inside, rfl⟩ := resolved.facts d declared
    exact ⟨fact, mem_childrenOfFirst.mpr ⟨world, found, inside⟩, rfl⟩
  · rcases mem_visited_cases visits with rfl | ⟨c, below, inside⟩
    · have kind := resolution.attrKinds u attr
      cases (congrArg Content.kind content).symm.trans kind
    · exact (resolution.attrFirst a attr c below u inside).refersTo content
  · rcases mem_visited_cases visits with rfl | ⟨e, below, inside⟩
    · cases content.symm.trans resolution.listContent
    · rcases resolution.entryFirst e below with ⟨c, d, isCall, _, _, args⟩ | ⟨_, linked⟩
      · rcases mem_visited_cases inside with rfl | ⟨a, arg, within⟩
        · cases content.symm.trans isCall
        · exact (args a arg u within).refersTo content
      · exact (linked u inside).refersTo content

/-- Two conjuncts that bind the same name, by a fact and by an assignment, with a parameter, an
attribute and a task list that read them. -/
def boundTwice : Source :=
  ⟨"links", Text.bytesOf "fact { at(id32, int8) near(id32) } prim { go(id32, int8) }
    domain d { task t(p) {
      @cost(q) case at(p, q) & ~near(p) & q < 9 | near(p) & q = 3 -> [go(p, q)] } }"⟩

theorem resolves_linksInOneStep_two_conjuncts :
    ∃ s task branch, Resolves ⟨0, []⟩ boundTwice s ∧ (task, branch) ∈ s.program.root.branches ∧
      ∃ info attrs pre list, HasParts branch info attrs pre list ∧
        (∀ conjunct ∈ pre.children, LinksInOneStep s.program.root task conjunct) ∧
        (∀ a ∈ attrs, task.ReadsFirst pre a) ∧ task.ReadsFirst pre list := by
  have passes : resolvesTo ⟨0, []⟩ boundTwice
      (fun s => s.program.root.branches.length == 1) = true := by decide +kernel
  obtain ⟨s, resolves, one⟩ := exists_of_resolvesTo passes
  obtain ⟨⟨task, branch⟩, only⟩ := length_eq_one_iff.mp (beq_iff_eq.mp one)
  have member : (task, branch) ∈ s.program.root.branches := by simp [only]
  exact ⟨s, task, branch, resolves, member, resolves_linksInOneStep resolves member⟩

end TaskNet
