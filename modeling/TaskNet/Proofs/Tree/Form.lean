import TaskNet.Program
import TaskNet.Proofs.Tree.Structure

/-!
The form of a program. Expressions have the operands that their operators take; a case has its
attributes, its precondition and its task list in this order and knows the last two by identity;
declarations stand where they can be declared. Passes change expressions and cases only, so the form
of a program is stated for any condition on cases.
-/

namespace TaskNet

open List

variable {b d : Tree}

def Operator.Takes : Operator → Nat → Prop
  | .and, _ | .or, _ => True
  | .not, k | .neg, k => k = 1
  | _, k => k = 2

/-- The numbers of children that a node of an expression can have; other nodes can have none. -/
def Content.Takes : Content → Nat → Prop
  | .var _, k | .literal _, k => k = 0
  | .call _, _ => True
  | .op o, k => o.Takes k
  | _, _ => False

/-- Nothing is known yet of what a name stands for. -/
def Content.Unresolved : Content → Prop
  | .var v => v.definition = none ∧ v.binding = false
  | .call c => c.decl = none ∧ c.signature = none
  | _ => True

def Content.varName? : Content → Option String
  | .var v => some v.name
  | _ => none

namespace Tree

variable {P Q : Tree → Prop} {t c pre list : Tree} {n : Node} {cs attrs : List Tree}
  {info : Guarded}

/-- An expression: every node has as many operands as it takes. -/
def IsTerm (t : Tree) : Prop :=
  t.Throughout fun s => s.content.Takes s.children.length

/-- An expression whose names are not resolved. -/
def IsRaw (t : Tree) : Prop :=
  t.Throughout fun s => s.content.Takes s.children.length ∧ s.content.Unresolved

theorem Throughout.imp (weaker : ∀ s, P s → Q s) {t : Tree} (holds : t.Throughout P) :
    t.Throughout Q :=
  fun s member => weaker s (holds s member)

theorem IsRaw.isTerm (raw : t.IsRaw) : t.IsTerm :=
  raw.imp fun _ both => both.1

theorem takes_sound {k : Nat} (takes : n.content.Takes k) : n.kind ≠ .error := by
  cases content : n.content <;> simp_all [Content.Takes, Node.kind, Content.kind]

section Kind

variable {t : Tree}

theorem content_of_var (kind : t.kind = .var) : ∃ v, t.content = .var v := by
  have kind : t.content.kind = .var := kind
  cases content : t.content <;> simp_all [Content.kind]

theorem content_of_call (kind : t.kind = .call) : ∃ c, t.content = .call c := by
  have kind : t.content.kind = .call := kind
  cases content : t.content <;> simp_all [Content.kind]

theorem content_of_op {o : Operator} (kind : t.kind = .op o) : t.content = .op o := by
  have kind : t.content.kind = .op o := kind
  cases content : t.content <;> simp_all [Content.kind]

end Kind

theorem isTerm_mk : IsTerm (mk n cs) ↔ n.content.Takes cs.length ∧ ∀ c ∈ cs, IsTerm c := by
  rw [IsTerm, throughout_mk]
  constructor
  · rintro ⟨takes, below⟩
    exact ⟨takes, below (takes_sound takes)⟩
  · rintro ⟨takes, below⟩
    exact ⟨takes, fun _ => below⟩

theorem isRaw_mk :
    IsRaw (mk n cs) ↔
      n.content.Takes cs.length ∧ n.content.Unresolved ∧ ∀ c ∈ cs, IsRaw c := by
  rw [IsRaw, throughout_mk]
  constructor
  · rintro ⟨⟨takes, unresolved⟩, below⟩
    exact ⟨takes, unresolved, below (takes_sound takes)⟩
  · rintro ⟨takes, unresolved, below⟩
    exact ⟨⟨takes, unresolved⟩, fun _ => below⟩

theorem IsRaw.below (raw : t.IsRaw) (member : c ∈ t.children) : c.IsRaw := by
  cases t with
  | mk n cs => exact (isRaw_mk.mp raw).2.2 c member

theorem isRaw_anonymous : t.anonymous.IsRaw ↔ t.IsRaw :=
  throughout_anonymous fun s => by simp

/-- A copy of an expression is an expression. -/
theorem IsRaw.copy (raw : t.IsRaw) (next : NodeId) : (Tree.copy next t).1.IsRaw := by
  rw [← isRaw_anonymous, copy_anonymous]
  exact isRaw_anonymous.mpr raw

theorem IsTerm.here (term : t.IsTerm) : t.content.Takes t.children.length :=
  Throughout.here term

theorem IsTerm.below (term : t.IsTerm) (member : c ∈ t.children) : c.IsTerm := by
  cases t with
  | mk n cs => exact (isTerm_mk.mp term).2 c member

theorem IsTerm.isExpression (term : t.IsTerm) : t.kind.isExpression = true := by
  cases t with
  | mk n cs =>
    have takes := (isTerm_mk.mp term).1
    rw [kind_mk]
    cases content : n.content <;> simp_all [Content.Takes, Content.kind, Kind.isExpression]

/-- An attribute whose arguments satisfy a condition. -/
def IsAttr (P : Tree → Prop) (t : Tree) : Prop :=
  t.kind = .attr ∧ ∀ c ∈ t.children, P c

def IsParam (t : Tree) : Prop :=
  t.kind = .param ∧ t.children = []

/-- A fact or primitive with its attributes and parameters. -/
def IsFact (t : Tree) : Prop :=
  t.kind = .fact ∧ ∀ c ∈ t.children, IsAttr IsRaw c ∨ IsParam c

def IsBlock (t : Tree) : Prop :=
  (t.kind = .world ∨ t.kind = .primitives) ∧ ∀ c ∈ t.children, IsFact c

/-- A macro: its parameters, then its body. -/
def IsTemplate (t : Tree) : Prop :=
  t.kind = .template ∧ ∃ params body, t.children = params ++ [body] ∧
    (∀ p ∈ params, IsParam p) ∧ IsRaw body

structure HasParts (branch : Tree) (info : Guarded) (attrs : List Tree) (pre list : Tree) :
    Prop where
  content : branch.content = .branch info
  children : branch.children = attrs ++ [pre, list]
  attrKinds : ∀ a ∈ attrs, a.kind = .attr
  precond : info.precond = some pre.id
  listContent : list.content = .taskList
  tasks : info.tasks = some list.id

/-- A case of expressions that satisfy a condition, and whose precondition satisfies another. -/
def IsCase (P Q : Tree → Prop) (branch : Tree) : Prop :=
  ∃ info attrs pre list, HasParts branch info attrs pre list ∧
    (∀ a ∈ attrs, ∀ c ∈ a.children, P c) ∧ Q pre ∧ ∀ c ∈ list.children, P c

/-- A case of expressions whose names are not resolved. -/
def RawCase : Tree → Prop :=
  IsCase IsRaw IsRaw

def entries (branch : Tree) : List Tree :=
  (branch.childrenOf .taskList).flatMap children

/-- A case as it is read: the entries of its task list are calls. -/
def ReadCase (branch : Tree) : Prop :=
  RawCase branch ∧ ∀ e ∈ branch.entries, e.kind = .call

/-- A task whose cases satisfy a condition. -/
def IsTask (B : Tree → Prop) (t : Tree) : Prop :=
  t.kind = .task ∧ ∀ c ∈ t.children, IsParam c ∨ IsTemplate c ∨ (c.kind = .branch ∧ B c)

/-- A domain whose cases satisfy a condition. -/
def IsDomain (B : Tree → Prop) (t : Tree) : Prop :=
  t.kind = .domain ∧ ∀ c ∈ t.children, IsTemplate c ∨ IsTask B c

/-- A program whose cases satisfy a condition: blocks, and at most one domain. -/
structure IsProgram (B : Tree → Prop) (root : Tree) : Prop where
  kind : root.kind = .root
  blocks : ∀ c ∈ root.children, IsBlock c ∨ c.kind = .domain
  single : (root.children.map Tree.kind).count .domain ≤ 1
  domain : ∀ d, root.findChild? .domain = some d → IsDomain B d

theorem HasParts.kind {branch : Tree} (parts : HasParts branch info attrs pre list) :
    branch.kind = .branch := by
  have content := parts.content
  cases branch with
  | mk n cs =>
    rw [content_mk] at content
    rw [kind_mk, content]
    rfl

/-- The task list of a case is the only part of its kind. -/
theorem HasParts.entries {branch : Tree} (parts : HasParts branch info attrs pre list)
    (expression : pre.kind.isExpression = true) : branch.entries = list.children := by
  have none : attrs.filter (fun c => c.kind == .taskList) = [] := by
    refine filter_eq_nil_iff.mpr fun a member => ?_
    rw [parts.attrKinds a member]
    decide
  have other : (pre.kind == .taskList) = false := by
    refine beq_false_of_ne fun isList => ?_
    rw [isList] at expression
    cases expression
  have here : (list.kind == .taskList) = true := by
    simp [show list.kind = .taskList from congrArg Content.kind parts.listContent]
  simp [Tree.entries, childrenOf, parts.children, none, other, here]

theorem HasParts.unique {branch pre' list' : Tree} {info' : Guarded} {attrs' : List Tree}
    (parts : HasParts branch info attrs pre list)
    (parts' : HasParts branch info' attrs' pre' list') :
    info = info' ∧ attrs = attrs' ∧ pre = pre' ∧ list = list' := by
  obtain ⟨sameAttrs, sameRest⟩ := append_inj' (parts.children.symm.trans parts'.children) rfl
  have content := parts.content.symm.trans parts'.content
  simp_all

theorem IsCase.kind {branch : Tree} (isCase : IsCase P Q branch) : branch.kind = .branch := by
  obtain ⟨_, _, _, _, parts, _⟩ := isCase
  exact parts.kind

theorem IsCase.imp {P' Q' : Tree → Prop} (weakerP : ∀ t, P t → P' t) (weakerQ : ∀ t, Q t → Q' t)
    (isCase : IsCase P Q b) : IsCase P' Q' b := by
  obtain ⟨info, attrs, pre, list, parts, inAttrs, atPre, inList⟩ := isCase
  exact ⟨info, attrs, pre, list, parts,
    fun a member c below => weakerP c (inAttrs a member c below),
    weakerQ pre atPre, fun c below => weakerP c (inList c below)⟩

section Access

variable {B : Tree → Prop} {root : Tree}
variable {k : Kind} {c t : Tree}

theorem mem_of_findChild? (found : root.findChild? k = some c) :
    c ∈ root.children ∧ c.kind = k :=
  ⟨mem_of_find?_eq_some found, by simpa using find?_some found⟩

theorem mem_childrenOf : c ∈ t.childrenOf k ↔ c ∈ t.children ∧ c.kind = k := by
  simp [childrenOf]

theorem IsProgram.block (program : IsProgram B root) {k : Kind}
    (block : k = .world ∨ k = .primitives) (found : root.findChild? k = some b) : IsBlock b := by
  obtain ⟨member, kind⟩ := mem_of_findChild? found
  rcases program.blocks b member with isBlock | isDomain
  · exact isBlock
  · rw [kind] at isDomain
    subst isDomain
    simp at block

/-- The domain of a program is the only one. -/
theorem IsProgram.domain_of_kind (program : IsProgram B root) (member : d ∈ root.children)
    (kind : d.kind = .domain) : root.findChild? .domain = some d := by
  obtain ⟨before, after, children⟩ := append_of_mem member
  have single := program.single
  rw [children, map_append, map_cons, count_append, kind, count_cons_self] at single
  have none : before.find? (fun c => c.kind == .domain) = none := by
    refine find?_eq_none.mpr fun c inside => ?_
    have absent : Kind.domain ∉ before.map Tree.kind := count_eq_zero.mp (by omega)
    intro same
    exact absent (mem_map.mpr ⟨c, inside, by simpa using same⟩)
  rw [findChild?, children, find?_append, none]
  simp [kind]

theorem IsDomain.task (domain : IsDomain B d) (member : t ∈ d.childrenOf .task) :
    IsTask B t := by
  obtain ⟨inside, kind⟩ := mem_childrenOf.mp member
  rcases domain.2 t inside with ⟨isTemplate, _⟩ | isTask
  · rw [kind] at isTemplate
    cases isTemplate
  · exact isTask

/-- A case of a program is a case of one of its tasks. -/
theorem mem_branches {task branch : Tree} :
    (task, branch) ∈ root.branches ↔ ∃ d, root.findChild? .domain = some d ∧
      task ∈ d.childrenOf .task ∧ branch ∈ task.childrenOf .branch := by
  rw [branches]
  cases root.findChild? .domain with
  | none => simp
  | some d =>
    simp only [mem_flatMap, mem_map, Prod.mk.injEq, Option.some.injEq]
    constructor
    · rintro ⟨t, inside, b, below, rfl, rfl⟩
      exact ⟨d, rfl, inside, below⟩
    · rintro ⟨_, rfl, inside, below⟩
      exact ⟨task, inside, branch, below, rfl, rfl⟩

def tasks (root : Tree) : List Tree :=
  match root.findChild? .domain with
  | some d => d.childrenOf .task
  | none => []

theorem mem_tasks {task : Tree} :
    task ∈ root.tasks ↔ ∃ d, root.findChild? .domain = some d ∧ task ∈ d.childrenOf .task := by
  rw [tasks]
  cases root.findChild? .domain with
  | none => simp
  | some d => simp

theorem IsTask.branch (isTask : IsTask B t) (member : b ∈ t.childrenOf .branch) :
    B b := by
  obtain ⟨inside, kind⟩ := mem_childrenOf.mp member
  rcases isTask.2 b inside with ⟨isParam, _⟩ | ⟨isTemplate, _⟩ | ⟨_, holds⟩
  · rw [kind] at isParam
    cases isParam
  · rw [kind] at isTemplate
    cases isTemplate
  · exact holds

theorem IsProgram.branch (program : IsProgram B root) {task branch : Tree}
    (member : (task, branch) ∈ root.branches) : B branch := by
  obtain ⟨d, found, inside, below⟩ := mem_branches.mp member
  exact ((program.domain d found).task inside).branch below

/-- What follows for the cases of a program follows for the program. -/
theorem IsProgram.strengthen {B' : Tree → Prop} (program : IsProgram B root)
    (each : ∀ task branch, (task, branch) ∈ root.branches → B branch → B' branch) :
    IsProgram B' root := by
  refine ⟨program.kind, program.blocks, program.single, fun d found => ?_⟩
  obtain ⟨kind, items⟩ := program.domain d found
  refine ⟨kind, fun task member =>
    (items task member).imp_right fun isTask => ⟨isTask.1, fun c below =>
    (isTask.2 c below).imp_right (Or.imp_right fun branch => ⟨branch.1, each task c ?_ branch.2⟩)⟩⟩
  exact mem_branches.mpr ⟨d, found, mem_childrenOf.mpr ⟨member, isTask.1⟩,
    mem_childrenOf.mpr ⟨below, branch.1⟩⟩

end Access

end Tree

end TaskNet
