import TaskNet.Proofs.Compile.DeclaredArguments

/-!
Signatures of tasks and the order of their declarations. A task that hands one of its parameters on
to another task takes the type that the parameter there has at that moment, if nothing else has
given it a type. The other parameter may be widened later, so its type depends on which task is
declared first.

Only the width of a number depends on it. The parameters that one variable of a case stands at are
of one sort, so a parameter that variables connect with a declared type is of its sort in whatever
order the tasks are declared.
-/

namespace TaskNet

open Infer List Tree Typing

namespace TypeTag

/-- The sort of a type: all numbers are of one sort, and any other type is of its own. -/
def sort (t : TypeTag) : TypeTag :=
  if t.isNumeric then .float else t

variable {a b : TypeTag}

/-- Types that join are of one sort. -/
theorem sort_eq_of_unify (given : a ≠ .any) (declared : b ≠ .any) (joins : a.unify b ≠ .notAType) :
    a.sort = b.sort := by
  rw [unify] at joins
  split at joins
  · exact absurd rfl joins
  split at joins
  · next same => rw [same]
  split at joins
  · next numeric =>
    obtain ⟨left, right⟩ := Bool.and_eq_true_iff.mp numeric
    rw [sort, sort, if_pos left, if_pos right]
  · exact absurd rfl joins

theorem eq_of_sort_eq (same : a.sort = b.sort) (plain : a.isNumeric = false) : a = b := by
  rw [sort, if_neg (by simp [plain]), sort] at same
  split at same
  · rw [same] at plain
    cases plain
  · exact same

end TypeTag

namespace Tree

def definition? (a : Tree) : Option NodeId :=
  match a.content with
  | .var v => some (v.definition.getD a.id)
  | _ => none

/-- A variable of a case, given by the node that defines it, stands at a parameter: the parameter is
the task's own and defines it, or the variable is passed there and the type of the parameter is
known. -/
def StandsAt (root task branch : Tree) (x : NodeId) (q : Node) : Prop :=
  (x = q.id ∧ q ∈ (task.childrenOf .param).map node) ∨
    (q.type ≠ .any ∧ ∃ u ∈ branch.visited, ∃ callee ∈ root.visited, u.declared? = some callee.id ∧
      ∃ pair ∈ u.children.zip (callee.childrenOf .param), pair.1.definition? = some x ∧
      pair.2.node = q)

instance {root task branch : Tree} {x : NodeId} {q : Node} :
    Decidable (root.StandsAt task branch x q) :=
  inferInstanceAs (Decidable (_ ∨ _))

/-- Two parameters meet in a case: a variable that a node of the task defines stands at both. -/
def Meets (root : Tree) (q r : Node) : Prop :=
  ∃ b ∈ root.branches, ∃ d ∈ b.1.visited, root.StandsAt b.1 b.2 d.id q ∧
    root.StandsAt b.1 b.2 d.id r

instance {root : Tree} {q r : Node} : Decidable (root.Meets q r) :=
  inferInstanceAs (Decidable (∃ b ∈ root.branches, _))

/-- The parameters of facts and primitives, whose types are declared. -/
def declaredParams (root : Tree) : List Node :=
  ((root.childrenOfFirst .world ++ root.childrenOfFirst .primitives).flatMap
    (childrenOf · .param)).map node

/-- Tasks of two programs with the same declarations behind them: they have one name, and their
parameters are connected with parameters that are declared with the same types. -/
def DeclaredAlike (root root' task task' : Tree) : Prop :=
  task.name = task'.name ∧
    Forall₂ (fun q q' => ∃ r ∈ root.declaredParams, ∃ r' ∈ root'.declaredParams,
    Relation.ReflTransGen root.Meets q.node r ∧ Relation.ReflTransGen root'.Meets q'.node r' ∧
    r.type = r'.type) (task.childrenOf .param) (task'.childrenOf .param)

theorem taskSignatures_eq (root : Tree) :
    root.taskSignatures = (root.tasks.map signatureText).mergeSort fun a b => decide (a ≤ b) := by
  rw [taskSignatures, tasks]
  cases root.findChild? .domain with
  | none => simp
  | some d => rfl

/-- Signatures are listed in order, so they are the same if each is there as often. -/
theorem taskSignatures_perm {root root' : Tree}
    (perm : (root'.tasks.map signatureText).Perm (root.tasks.map signatureText)) :
    root'.taskSignatures = root.taskSignatures := by
  have sorted := @List.pairwise_mergeSort String (fun a b => decide (a ≤ b))
    (fun a b c first second => by
      simpa using String.le_trans (by simpa using first) (by simpa using second))
    (fun a b => by simpa using String.le_total a b)
  rw [taskSignatures_eq, taskSignatures_eq]
  refine Perm.eq_of_pairwise (fun a b _ _ first second => ?_) (sorted _) (sorted _) ?_
  · exact String.le_antisymm (by simpa using first) (by simpa using second)
  · exact (mergeSort_perm _ _).trans (perm.trans (mergeSort_perm _ _).symm)

/-- The same tree with other declarations in its domain. -/
def declaring (root : Tree) (items : List Tree) : Tree :=
  root.withChildren (root.children.map
    fun c => if c.kind = .domain then c.withChildren items else c)

end Tree

section Inferred

variable {T : Prop} {functions : OverloadTable} {p : Program} {s : Typing} {task branch : Tree}
variable (resolved : p.Resolved T) (inferred : Inferred functions p s)
variable (member : (task, branch) ∈ p.root.branches)
include resolved inferred member

/-- A variable that is passed is of one sort with the parameter, if the type of that is known. -/
theorem sort_of_argument {t u callee a q : Tree} {above : Option Node} {c : Invocation}
    {v : Variable}
    (inside : t ∈ branch.expressions) (below : u ∈ t.visited) (content : u.content = .call c)
    (site : ⟨callee, above⟩ ∈ p.siteList) (declared : c.decl = some callee.id)
    (zipped : (a, q) ∈ u.children.zip (callee.childrenOf .param)) (isVar : a.content = .var v)
    (typed : s.typeAt q.id ≠ .any) :
    (s.typeAt q.id).sort = (s.typeAt (v.definition.getD a.id)).sort := by
  have sound : u.kind ≠ .error := by simp [show u.kind = .call from congrArg Content.kind content]
  have visits : a ∈ t.visited :=
    visited_trans below (mem_visited_child sound (of_mem_zip zipped).1 (mem_visited_self a))
  -- only calls of tasks are left without a type of their own, and a variable is none
  rcases settled_or_taskCall resolved inferred member inside visits with settled | ⟨_, d, isCall, _⟩
  · have joins := ((inferred.settled _ member t inside).checked u below).arguments _
      (declaration?_of_site resolved content site declared) (a, q) zipped typed
    rw [← settled.var v isVar]
    exact (TypeTag.sort_eq_of_unify (TypeTag.isConcrete_ne_any settled.concrete) typed joins).symm
  · cases isVar.symm.trans isCall

/-- The type of a variable is of one sort with the types of the parameters that it stands at. -/
theorem sort_of_standsAt {x : NodeId} {r : Node} (stands : (p.root.mapNodes s.applyTo).StandsAt
    (task.mapNodes s.applyTo) (branch.mapNodes s.applyTo) x r) :
    r.type.sort = (s.typeAt x).sort := by
  have kinds := s.applyTo_kind
  rcases stands with ⟨rfl, own'⟩ | ⟨typed, u', visits', callee', inside', calls, ⟨a', q'⟩, zipped',
    defined, rfl⟩
  · rw [childrenOf_mapNodes kinds, map_map] at own'
    obtain ⟨q, own, rfl⟩ := mem_map.mp own'
    obtain ⟨⟨_, atTask⟩, _⟩ := Program.mem_siteList_branch member
    rw [Function.comp_apply, type_mapNodes resolved inferred
      (Program.child_mem_siteList atTask (mem_childrenOf.mp own).1)]
    exact congrArg (fun x => (s.typeAt x).sort) (s.id_mapNodes q).symm
  · obtain ⟨c', content', decl'⟩ := declared?_eq_some.mp calls
    have isExpression : u'.kind.isExpression = true := congrArg (·.kind.isExpression) content'
    obtain ⟨t, inside, u, below, rfl, _⟩ :=
      mem_visited_of_applied resolved member visits' isExpression
    obtain ⟨c, content, decl, _⟩ := applyTo_call ((mapNodes_content u).symm.trans content')
    rw [visited_mapNodes kinds] at inside'
    obtain ⟨callee, among, rfl⟩ := mem_map.mp inside'
    obtain ⟨above, site⟩ : ∃ above, ⟨callee, above⟩ ∈ Tree.siteList none p.root :=
      mem_siteList_visited among
    have site : ⟨callee, above⟩ ∈ p.siteList := mem_siteLists (by simp) site
    rw [mapNodes_children, childrenOf_mapNodes kinds, zip_map] at zipped'
    obtain ⟨⟨a, q⟩, zipped, same⟩ := mem_map.mp zipped'
    cases same
    have param := Program.child_mem_siteList site (mem_childrenOf.mp (of_mem_zip zipped).2).1
    rw [type_mapNodes resolved inferred param] at typed ⊢
    rw [definition?] at defined
    split at defined
    · next v isVar =>
      cases defined
      rw [s.id_mapNodes]
      exact sort_of_argument resolved inferred member inside below content site
        (by rw [← decl, decl', s.id_mapNodes]) zipped
        (applyTo_var ((mapNodes_content a).symm.trans isVar)) typed
    · cases defined

end Inferred

/-- In a program that is compiled without problems, connected parameters are of one sort. -/
theorem compile_ok_sort {opts : Options} {src : Source} {o : Outcome}
    (compiled : compile opts src = .ok o)
    (ok : o.ok = true) {q r : Node} (connected : Relation.ReflTransGen o.tree.Meets q r) :
    q.type.sort = r.type.sort := by
  obtain ⟨p, s, resolved, inferred, tree⟩ := compile_ok_inferred compiled ok
  rw [tree] at connected
  -- along the connection: where two parameters meet, both are of the sort of one variable
  induction connected with
  | refl => rfl
  | tail _ meets ih =>
    obtain ⟨⟨task', branch'⟩, member', d, _, first, second⟩ := meets
    obtain ⟨task, branch, member, rfl, rfl⟩ :=
      exists_of_mem_branches_mapNodes s.applyTo_kind member'
    rw [ih, sort_of_standsAt resolved inferred member first,
      sort_of_standsAt resolved inferred member second]

/-- Two programs that are compiled without problems and have the same declarations behind their
tasks, in whatever order these are declared, give them parameters of the same sorts, so that their
signatures differ in the widths of numbers at most. If no parameter is a number, the signatures are
the same. -/
theorem taskSignatures_declaredAlike {opts opts' : Options} {src src' : Source} {o o' : Outcome}
    (compiled : compile opts src = .ok o) (ok : o.ok = true)
    (compiled' : compile opts' src' = .ok o')
    (ok' : o'.ok = true) {tasks : List Tree} (order : tasks.Perm o'.tree.tasks)
    (alike : Forall₂ (o.tree.DeclaredAlike o'.tree) o.tree.tasks tasks) :
    Forall₂ (fun t t' => Forall₂ (fun q q' => q.node.type.sort = q'.node.type.sort)
        (t.childrenOf .param) (t'.childrenOf .param)) o.tree.tasks tasks ∧
      ((∀ t ∈ o.tree.tasks, ∀ q ∈ t.childrenOf .param, q.node.type.isNumeric = false) →
        o'.tree.taskSignatures = o.tree.taskSignatures) := by
  have sorts : ∀ t t', o.tree.DeclaredAlike o'.tree t t' → Forall₂ (fun q q' =>
      q.node.type.sort = q'.node.type.sort) (t.childrenOf .param) (t'.childrenOf .param) := by
    rintro t t' ⟨_, params⟩
    refine params.imp ?_
    rintro q q' ⟨r, _, r', _, connected, connected', same⟩
    rw [compile_ok_sort compiled ok connected, compile_ok_sort compiled' ok' connected', same]
  refine ⟨alike.imp sorts,
    fun plain => taskSignatures_perm ((order.map _).symm.trans (.of_eq (.symm ?_)))⟩
  refine map_eq_of_forall₂ (forall₂_imp_mem alike fun t isTask t' same => ?_)
  rw [signatureText, signatureText, same.1, map_eq_of_forall₂ (forall₂_imp_mem (sorts t t' same)
    fun q own q' sort => TypeTag.eq_of_sort_eq sort (plain t isTask q own))]

def callersFirst : Source :=
  ⟨"callers first", Text.bytesOf "fact { at(id32) } domain d {
    task c(x) { case -> [a(x)] } task b() { case at(v) -> [a(v)] } task a(y) { case at(y) -> [] } }"⟩

def callersLast : Source :=
  ⟨"callers last", Text.bytesOf "fact { at(id32) } domain d {
    task a(y) { case at(y) -> [] } task b() { case at(v) -> [a(v)] } task c(x) { case -> [a(x)] } }"⟩

/-- A parameter that a task hands on to another one, which looks it up, in two orders of the tasks.
-/
theorem taskSignatures_declaredAlike_handed_on :
    ∃ o o', compile ⟨0, []⟩ callersFirst = .ok o ∧
      o.ok = true ∧ compile ⟨0, []⟩ callersLast = .ok o' ∧
      o'.ok = true ∧ o.tree.tasks.length = 3 ∧ o'.tree.taskSignatures = o.tree.taskSignatures := by
  have passes : compilesTo ⟨0, []⟩ callersFirst
    (fun o => decide (compilesTo ⟨0, []⟩ callersLast (fun o' =>
      decide (o.tree.tasks.length = 3 ∧
        (∀ t ∈ o.tree.tasks, ∀ q ∈ t.childrenOf .param, q.node.type.isNumeric = false) ∧
      Forall₂ (fun t t' => t.name = t'.name ∧ Forall₂ (fun q q' =>
        (∃ r ∈ o.tree.declaredParams, r.type = .id32 ∧
          ∃ m ∈ taskParams o.tree, o.tree.Meets q.node m.node ∧ o.tree.Meets m.node r) ∧
        ∃ r ∈ o'.tree.declaredParams, r.type = .id32 ∧
          ∃ m ∈ taskParams o'.tree, o'.tree.Meets q'.node m.node ∧ o'.tree.Meets m.node r)
        (t.childrenOf .param) (t'.childrenOf .param)) o.tree.tasks o'.tree.tasks.reverse)) =
        true)) = true := by
    decide +kernel
  obtain ⟨o, compiled, ok, passes⟩ := exists_of_compilesTo passes
  obtain ⟨o', compiled', ok', three, plain, alike⟩ := exists_of_compilesTo passes
  refine ⟨o, o', compiled, ok, compiled', ok', three,
    (taskSignatures_declaredAlike compiled ok compiled' ok' (reverse_perm _) (alike.imp ?_)).2
    plain⟩
  rintro t t' ⟨name, params⟩
  refine ⟨name, params.imp ?_⟩
  rintro q q' ⟨⟨r, known, type, _, _, first, second⟩, r', known', type', _, _, first', second'⟩
  exact ⟨r, known, r', known', .tail (.single first) second, .tail (.single first') second',
    type.trans type'.symm⟩

def Session.declaring (s : Session) (items : List Tree) : Session :=
  { s with program := { s.program with root := s.program.root.declaring items } }

/-- A task that hands on a parameter to a task whose own parameter is widened after that: in the
order of the declarations it takes the narrow type, and in the opposite order the wide one. -/
def widenedLater : Source :=
  ⟨"handover", Text.bytesOf "fact { f(int8) g(float) } domain d {
    task c(x) { case -> [a(x)] } task b() { case g(v) -> [a(v)] } task a(y) { case f(y) -> [] } }"⟩

theorem taskSignatures_depend_on_order :
    ∃ s domain, Resolves ⟨0, []⟩ widenedLater s ∧
      s.program.root.findChild? .domain = some domain ∧
      (s.inferTypes (Options.functions ⟨0, []⟩)).1 = .ok true ∧
      ((s.declaring domain.children.reverse).inferTypes (Options.functions ⟨0, []⟩)).1 = .ok true ∧
      ((s.declaring domain.children.reverse).inferTypes
          (Options.functions ⟨0, []⟩)).2.program.root.taskSignatures ≠
        (s.inferTypes (Options.functions ⟨0, []⟩)).2.program.root.taskSignatures := by
  have passes : resolvesTo ⟨0, []⟩ widenedLater
      (fun s => (s.program.root.findChild? .domain).any fun domain =>
        let reversed := s.declaring domain.children.reverse
        (s.inferTypes (Options.functions ⟨0, []⟩)).1.toOption.any id &&
          (reversed.inferTypes (Options.functions ⟨0, []⟩)).1.toOption.any id &&
          decide ("c(int8)" ∈
              (s.inferTypes (Options.functions ⟨0, []⟩)).2.program.root.tasks.map signatureText ∧
            "c(int8)" ∉
              (reversed.inferTypes (Options.functions ⟨0, []⟩)).2.program.root.tasks.map
              signatureText)) =
      true := by decide +kernel
  obtain ⟨s, resolves, passes⟩ := exists_of_resolvesTo passes
  obtain ⟨domain, found, passes⟩ := (Option.any_eq_true _ _).mp passes
  simp only [Bool.and_eq_true, decide_eq_true_eq] at passes
  obtain ⟨⟨ok, ok'⟩, narrow, wide⟩ := passes
  obtain ⟨_, ended, rfl⟩ := exists_of_toOption_any ok
  obtain ⟨_, ended', rfl⟩ := exists_of_toOption_any ok'
  refine ⟨s, domain, resolves, found, ended, ended', fun same => wide ?_⟩
  rw [taskSignatures_eq, taskSignatures_eq] at same
  have sorted := (mergeSort_perm _ fun a b => decide (a ≤ b)).mem_iff.mpr narrow
  exact (mergeSort_perm _ _).mem_iff.mp (same ▸ sorted)

end TaskNet
