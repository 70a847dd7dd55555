import TaskNet.Proofs.Binding.Conjunct

/-!
Resolution of a case and of a program. The reports on a case are those on its conjuncts, on its
attributes and on its task list. When nothing is reported, a case keeps its parts and its shape, its
names are linked, and its tables list the variables of its precondition and task list.
-/

namespace TaskNet

open Binder List NameScope Tree

variable {attrs : List Tree} {branch root t : Tree} {conjuncts : List Conjunct} {m : Node}
  {T : Prop} {k : Nat}

/-- A part of a case is worked on in its place. -/
theorem onPart_run {α γ : Type} {before after : List Tree} {absent : α}
    {f : Tree → Bind γ} {u : γ → Tree × α} {x : γ} {s : Binder} {new : List NodeRef}
    {reports : List Diagnostic} (children : branch.children = before ++ t :: after)
    (distinct : (branch.children.map Tree.id).Nodup)
    (ran : (f t).run s = (x, s.after new reports)) : (onPart branch (some t.id) absent fun t => do
      let x ← f t
      pure (u x)).run s = ((branch.withChildren (before ++ (u x).1 :: after), (u x).2),
      s.after new reports) := by
  have found := part?_of_distinct distinct (show t ∈ branch.children by simp [children]) s.loose
  have put := putPart_of_distinct children distinct s.loose (u x).1
  have steps : (onPart branch (some t.id) absent fun t => do
      let x ← f t
      pure (u x)).run s =
      let r := (f t).run s
      let p := branch.putPart r.2.loose t.id (u r.1).1
      ((p.1, (u r.1).2), { r.2 with loose := p.2 }) := by
    simp [onPart, found]
    rfl
  rw [steps, ran]
  dsimp only
  rw [show (s.after new reports).loose = s.loose from rfl, put]
  rfl

namespace NameScope

variable {scope : NameScope} {n m : Node} {t t' : Tree} {bound bound' : String → NodeId → Prop}
variable {ws : List (List NodeRef)}

theorem Linked.mono (weaker : ∀ name x, bound name x → bound' name x)
    (linked : Linked scope bound m) : Linked scope bound' m :=
  ⟨fun v content => (linked.var v content).imp_right fun holds => ⟨holds.1, weaker _ _ holds.2⟩,
    linked.call⟩

/-- The names of a node outside of the precondition are linked, and no variable binds there. -/
structure LinkedOutside (scope : NameScope) (bound : String → NodeId → Prop) (m : Node) : Prop
    extends Linked scope bound m where
  defined : ∀ v, m.content = .var v → v.definition ≠ none
  unbound : ∀ v, m.content = .var v → v.binding = false

theorem linkedOutside_of_rewrites (raw : n.content.Unresolved)
    (rewrites : Rewrites (LinksOutside scope ws) n m)
    (listed : ∀ w, ws.head? = some w → ∀ name b, bindingOf w name = some b → bound name b) :
    LinkedOutside scope bound m := by
  rw [Rewrites] at rewrites
  split at rewrites
  · next v content =>
    obtain ⟨w, links, rfl⟩ := rewrites
    rw [content] at raw
    refine ⟨⟨fun w' same => ?_, fun _ _ same => by cases same⟩, fun w' same => ?_,
      fun w' same => ?_⟩
    · cases same
      cases links with
      | param found => exact .inl found
      | bound free first found => exact .inr ⟨free, listed _ first _ _ found⟩
    · cases same
      cases links <;> simp
    · cases same
      cases links <;> exact raw.2
  · next notVar =>
    subst rewrites
    refine ⟨⟨fun v content => absurd content (notVar v), fun c d content decl => ?_⟩,
      fun v content => absurd content (notVar v), fun v content => absurd content (notVar v)⟩
    rw [content] at raw
    exact absurd (raw.1.symm.trans decl) (by simp)

/-- An expression outside of the precondition. -/
theorem throughout_linkedOutside (raw : t.IsRaw)
    (rewritten : Relabels (Rewrites (LinksOutside scope ws)) t t')
    (listed : ∀ w, ws.head? = some w → ∀ name b, bindingOf w name = some b → bound name b) :
    t'.Throughout fun u => LinkedOutside scope bound u.node :=
  rewritten.throughout (A := fun n => n.content.Unresolved) (fun _ _ => rewrites_keeps)
    (fun _ _ rewrites unresolved => linkedOutside_of_rewrites unresolved rewrites listed)
    (raw.imp fun _ both => both.2)

variable (scope) in
/-- What a call in a task list links to: a task or a primitive with as many parameters as the call
has arguments. -/
def Callable (d : Declaration) (arguments : List Tree) : Prop :=
  (d ∈ scope.declarations.tasks ∨ d ∈ scope.declarations.primitives) ∧ arguments.length = d.arity

variable (scope) in
/-- An entry of a task list: a call that is linked, with linked arguments, or any other expression
with its names linked. -/
def IsEntry (bound : String → NodeId → Prop) (e : Tree) : Prop :=
  (∃ c d, e.content = .call c ∧ c.decl = some d.id ∧ Callable scope d e.children ∧
    ∀ a ∈ e.children, a.Throughout fun u => LinkedOutside scope bound u.node) ∨
  (e.kind ≠ .call ∧ e.Throughout fun u => LinkedOutside scope bound u.node)

theorem LinkedOutside.mono (weaker : ∀ name x, bound name x → bound' name x)
    (linked : LinkedOutside scope bound m) : LinkedOutside scope bound' m :=
  ⟨linked.toLinked.mono weaker, linked.defined, linked.unbound⟩

theorem IsEntry.mono (weaker : ∀ name x, bound name x → bound' name x) {e : Tree}
    (entry : IsEntry scope bound e) : IsEntry scope bound' e := by
  rcases entry with ⟨c, d, content, declared, callable, args⟩ | ⟨notCall, linked⟩
  · exact .inl ⟨c, d, content, declared, callable, fun a member =>
      (args a member).imp fun _ => .mono weaker⟩
  · exact .inr ⟨notCall, linked.imp fun _ => .mono weaker⟩

variable (scope) in
/-- An entry of a task list is linked if it is a call, and stays as it is if it is not. -/
def LinksTask (t t' : Tree) : Prop :=
  (∃ c d, t.content = .call c ∧ Callable scope d t.children ∧
    t' = t.withContent (.call { c with decl := some d.id })) ∨ (t.kind ≠ .call ∧ t' = t)

theorem LinksTask.relabels (links : LinksTask scope t t') : Relabels Keeps t t' := by
  rcases links with ⟨c, d, content, _, rfl⟩ | ⟨_, rfl⟩
  · refine relabels_iff.mpr ⟨⟨rfl, rfl, ?_⟩, forall₂_same.mpr fun t _ => .keeps_refl t⟩
    simp [withContent, Node.kind, show t.node.content = _ from content, Content.kind]
  · exact .keeps_refl _

theorem linkTask_extends (t : Tree) :
    Extends 0 (scope.linkTask t) fun _ t' new reports => new = [] ∧
    reports.filter Diagnostic.isScoping = [] ∧ t'.occurrences = t.occurrences ∧
      (reports = [] → LinksTask scope t t') := by
  have linked : ∀ {group : String} {c : Invocation} {d : Declaration}, t.content = .call c →
      (d ∈ scope.declarations.tasks ∨ d ∈ scope.declarations.primitives) →
      Extends 0 (linkCall group d c t) fun _ t' new reports => new = [] ∧
        reports.filter Diagnostic.isScoping = [] ∧ t'.occurrences = t.occurrences ∧
          (reports = [] → LinksTask scope t t') := by
    intro group c d content declared
    refine (linkCall_extends group d c t).imp ?_
    rintro _ _ new reports ⟨rfl, rfl, fits, quiet⟩
    refine ⟨rfl, quiet, ?_, fun none => .inl ⟨c, d, content, ⟨declared, fits none⟩, rfl⟩⟩
    obtain ⟨n, cs⟩ := t
    have content : n.content = .call c := content
    rw [withContent, occurrences_above (by simp) (by simp), occurrences_above (by simp [content])
      (by simp [content])]
    rfl
  rw [linkTask]
  split
  · next c content =>
    split
    · next d found => exact linked content (.inl (mem_of_find?_eq_some found))
    · next d _ found => exact linked content (.inr (mem_of_find?_eq_some found))
    · refine (Extends.report _ _ _).seq fun _ => .pure ?_
      rintro _ _ _ _ rfl ⟨rfl, rfl⟩
      exact ⟨rfl, rfl, rfl, fun none => by cases none⟩
  · next notCall =>
    refine .pure fun w => ⟨rfl, rfl, rfl, fun _ => .inr ⟨fun kind => ?_, rfl⟩⟩
    obtain ⟨c, content⟩ := content_of_call kind
    exact notCall c content

end NameScope

/-- A case whose names are resolved: its parts, its tables of variables, and what its names are
linked to. The condition on assignments is there for the inference of types. -/
structure Resolution (T : Prop) (scope : NameScope) (branch : Tree) (info : Guarded)
    (attrs : List Tree) (pre list : Tree) : Prop extends HasParts branch info attrs pre list where
  precondTerm : pre.IsTerm
  normal : pre.IsDisjunctiveNormal
  attrTerms : ∀ a ∈ attrs, ∀ c ∈ a.children, c.IsTerm
  entryTerms : ∀ e ∈ list.children, e.IsTerm
  precondVars : info.precondVars = pre.variableTable
  taskVars : info.taskVars = list.variableTable
  precondLinked : pre.Throughout fun u =>
    Linked scope (fun name x => pre.Announces ⟨x, name⟩) u.node
  conjuncts : ∀ c ∈ pre.children, scope.ConjunctLinked c
  attrFirst : ∀ a ∈ attrs, ∀ c ∈ a.children, c.Throughout fun u =>
    LinkedOutside scope pre.BindsFirst u.node
  entryFirst : ∀ e ∈ list.children, IsEntry scope pre.BindsFirst e
  targets : pre.Throughout fun u => T → TargetsVariable u

def IsResolved (T : Prop) (scope : NameScope) (branch : Tree) : Prop :=
  ∃ info attrs pre list, Resolution T scope branch info attrs pre list

namespace Resolution

variable {T : Prop} {scope : NameScope} {branch pre list : Tree} {info : Guarded}
  {attrs : List Tree}
variable (resolution : Resolution T scope branch info attrs pre list)
include resolution

theorem announces (name : String) (x : NodeId) (binds : pre.BindsFirst name x) :
    pre.Announces ⟨x, name⟩ := by
  obtain ⟨c, first, listed⟩ := binds
  have member := mem_of_head? first
  exact (resolution.conjuncts c member).announces member (takes_sound resolution.precondTerm.here)
    listed

theorem attrLinked (a : Tree) (attr : a ∈ attrs) (c : Tree) (member : c ∈ a.children) :
    c.Throughout fun u => LinkedOutside scope (fun name x => pre.Announces ⟨x, name⟩) u.node :=
  (resolution.attrFirst a attr c member).imp fun _ => .mono resolution.announces

theorem entryLinked (e : Tree) (entry : e ∈ list.children) :
    IsEntry scope (fun name x => pre.Announces ⟨x, name⟩) e :=
  (resolution.entryFirst e entry).mono resolution.announces

end Resolution

variable {scope : NameScope}

section Outside

variable {ws : List (List NodeRef)} {bound : String → NodeId → Prop}

/-- An attribute keeps its node, and its arguments are linked. -/
theorem attribute_linked {a a' : Tree} (kind : a.kind = .attr) (raw : ∀ c ∈ a.children, c.IsRaw)
    (rewritten : Relabels (Rewrites (LinksOutside scope ws)) a a')
    (listed : ∀ w, ws.head? = some w → ∀ name b, bindingOf w name = some b → bound name b) :
    a'.node = a.node ∧ (∀ c ∈ a'.children, c.IsTerm) ∧
      ∀ c ∈ a'.children, c.Throughout fun u => LinkedOutside scope bound u.node := by
  have here := rewritten.node
  refine ⟨?_, fun c member => ?_, fun c member => ?_⟩
  · rw [Rewrites] at here
    split at here
    · next content => simp [Tree.kind, Node.kind, content, Content.kind] at kind
    · exact here
  · obtain ⟨d, inside, related⟩ := exists_of_forall₂ rewritten.children member
    exact related.isTerm (fun _ _ => rewrites_keeps) (raw d inside).isTerm
  · obtain ⟨d, inside, related⟩ := exists_of_forall₂ rewritten.children member
    exact throughout_linkedOutside (raw d inside) related listed

/-- An entry of a task list after its call and its variables are linked. -/
theorem entry_linked {e e' e'' : Tree} (raw : e.IsRaw) (linked : LinksTask scope e e')
    (rewritten : Relabels (Rewrites (LinksOutside scope ws)) e' e'')
    (listed : ∀ w, ws.head? = some w → ∀ name b, bindingOf w name = some b → bound name b) :
    IsEntry scope bound e'' := by
  rcases linked with ⟨c, d, content, callable, rfl⟩ | ⟨notCall, rfl⟩
  · have here : e''.node = (e.withContent (.call { c with decl := some d.id })).node :=
      rewritten.node
    have arguments : e''.children.length = e.children.length := rewritten.children.length_eq.symm
    refine .inl ⟨_, d, congrArg Node.content here, rfl, ⟨callable.1, arguments.trans callable.2⟩,
      fun a member => ?_⟩
    obtain ⟨b, inside, related⟩ := exists_of_forall₂ rewritten.children member
    exact throughout_linkedOutside (raw.below inside) related listed
  · refine .inr ⟨fun isCall => ?_, throughout_linkedOutside raw rewritten listed⟩
    exact notCall ((rewrites_keeps rewritten.node).kind.symm.trans isCall)

theorem filter_reportsOutside (ws : List (List NodeRef)) (t : Tree) :
    (scope.reportsOutside ws t).filter Diagnostic.isScoping = scope.reportsOutside ws t := by
  refine filter_eq_self.mpr fun d member => ?_
  obtain ⟨o, _, inside⟩ := mem_flatMap.mp member
  rw [reportOutside] at inside
  split at inside
  · cases inside
  split at inside
  · rw [mem_singleton.mp inside]
    rfl
  split at inside
  · rw [mem_singleton.mp inside]
    rfl
  · cases inside

variable (scope ws) in
def TasksResolved (t t' : Tree) (reports : List Diagnostic) : Prop :=
  reports.filter Diagnostic.isScoping = scope.reportsOutside ws t ∧
    (reports = [] → (∀ c ∈ t.children, c.IsRaw) → t'.node = t.node ∧ Relabels Keeps t t' ∧
      ∀ bound, (∀ w, ws.head? = some w → ∀ name b, bindingOf w name = some b → bound name b) →
        ∀ e ∈ t'.children, IsEntry scope bound e)

variable (scope) in
theorem resolveTasks_extends (fits : ∀ c ∈ conjuncts, c.Fits k)
    (content : t.content = .taskList) :
    Extends 0 (scope.resolveTasks conjuncts t) (fun refs t' new reports => new = [] ∧
      TasksResolved scope (conjuncts.map (·.window refs)) t t' reports) k := by
  have here : t.node.content = .taskList := content
  refine (Extends.mapM fun c _ => (linkTask_extends c).more).seq fun cs =>
    (mapVariablesM_extends (linkOutside_extends fits) _).imp ?_
  rintro _ t' _ _ ⟨rfl, rfl, _, rewritten⟩ refs new found rfl threads
  obtain rfl : new = [] := (threads.new_eq (h := fun _ => []) fun _ _ _ _ _ _ step => step.1).trans
    (flatMap_eq_nil_iff.mpr fun _ _ => rfl)
  have quiet : found.filter Diagnostic.isScoping = [] := (threads.filter_reports (h := fun _ => [])
    fun _ _ _ _ _ _ step => step.2.1).trans (flatMap_eq_nil_iff.mpr fun _ _ => rfl)
  have same : (t.withChildren cs).occurrences = t.occurrences := by
    rw [← t.eta, withChildren, occurrences_above (by simp [here]) (by simp [here]),
      occurrences_above (by simp [here]) (by simp [here])]
    rw [flatMap_def, flatMap_def, map_eq_of_forall₂ (threads.each.imp ?_)]
    rintro c d ⟨_, _, _, _, step, _⟩
    exact step.2.2.1.symm
  simp only [append_nil] at rewritten ⊢
  refine ⟨trivial, ?_, fun none raw => ?_⟩
  · rw [same, filter_append, quiet, nil_append]
    exact filter_reportsOutside _ t
  · obtain ⟨silent, unreported⟩ := append_eq_nil_iff.mp none
    have linked : List.Forall₂ (LinksTask scope) t.children cs := by
      refine (threads.silent silent).each.imp ?_
      rintro c d ⟨_, _, _, _, ⟨step, none⟩, _⟩
      exact step.2.2.2 none
    have relabels : Relabels Keeps t (t.withChildren cs) :=
      relabels_iff.mpr ⟨⟨rfl, rfl, rfl⟩, linked.imp fun _ _ => LinksTask.relabels⟩
    have clear : (t.withChildren cs).IsClear := by
      refine throughout_mk.mpr ⟨⟨by simp [here, Content.kind], by simp [here, Content.kind]⟩,
        fun _ d member => ?_⟩
      obtain ⟨c, inside, related⟩ := exists_of_forall₂ linked member
      exact (related.relabels.isTerm (fun _ _ same => same) (raw c inside).isTerm).isClear
    have rewritten := rewritten clear unreported
    have node : t'.node = t.node := by
      have top := rewritten.node
      rwa [Rewrites, show (t.withChildren cs).node.content = .taskList from content] at top
    refine ⟨node, (relabels.comp rewritten).imp ?_, fun bound listed e member => ?_⟩
    · rintro n m ⟨k, first, second⟩
      exact first.trans (rewrites_keeps second)
    · obtain ⟨d, inside, rewrittenEntry⟩ := exists_of_forall₂ rewritten.children member
      obtain ⟨c, original, linkedEntry⟩ := exists_of_forall₂ linked inside
      exact entry_linked (raw c original) linkedEntry rewrittenEntry listed

variable (scope ws) in
/-- The attributes of a case before and after their names are resolved. -/
def AttributesResolved (attrs attrs' : List Tree) : Prop :=
  attrs'.map Tree.id = attrs.map Tree.id ∧
    (attrs.flatMap (scope.reportsOutside ws) = [] → (∀ a ∈ attrs, ∀ c ∈ a.children, c.IsRaw) →
      List.Forall₂ (Relabels (Rewrites (LinksOutside scope ws))) attrs attrs')

variable (scope) in
/-- The attributes of a case are rewritten and the other parts stay. -/
theorem resolveAttributes_extends (fits : ∀ c ∈ conjuncts, c.Fits k)
    {pre list : Tree} (children : branch.children = attrs ++ [pre, list])
    (attrKinds : ∀ a ∈ attrs, a.kind = .attr)
    (notPre : pre.kind ≠ .attr) (notList : list.kind ≠ .attr) :
    Extends 0 (branch.mapKindM .attr fun attr => attr.mapVariablesM (scope.linkOutside conjuncts))
      (fun refs b new reports => new = [] ∧
        reports = attrs.flatMap (scope.reportsOutside (conjuncts.map (·.window refs))) ∧
        ∃ attrs', b = branch.withChildren (attrs' ++ [pre, list]) ∧
          AttributesResolved scope (conjuncts.map (·.window refs)) attrs attrs') k := by
  have kept : ∀ {c : Tree}, c.kind ≠ .attr → (if c.kind == .attr then
      c.mapVariablesM (scope.linkOutside conjuncts) else pure c) = (pure c : Bind Tree) :=
    fun other => if_neg (by simpa using other)
  rw [mapKindM, children, mapM_append]
  simp only [mapM_cons, mapM_nil, kept notPre, kept notList, bind_assoc, pure_bind]
  refine (Extends.mapM (P := fun w a a' new reports => new = [] ∧
    reports = scope.reportsOutside (conjuncts.map (·.window w)) a ∧ a'.id = a.id ∧ (a.IsClear →
      reports = [] → Relabels (Rewrites (LinksOutside scope (conjuncts.map (·.window w)))) a a'))
    fun a member => ?_).seq fun attrs' => .pure ?_
  · rw [if_pos (by simp [attrKinds a member])]
    exact mapVariablesM_extends (linkOutside_extends fits) a
  · rintro _ refs _ _ rfl threads
    obtain ⟨rfl, rfl, each⟩ :=
      threads.still fun a _ a' _ _ step => ⟨step.1, step.2.1, step.2.1 ▸ step.2.2⟩
    refine ⟨rfl, append_nil _, attrs', rfl, ?_, fun none raw => ?_⟩
    · exact (map_eq_of_forall₂ (each.imp fun _ _ step => step.1.symm)).symm
    · refine forall₂_imp_mem each fun a member a' step =>
        step.2 ?_ (flatMap_eq_nil_iff.mp none a member)
      have kind := attrKinds a member
      exact .of_children ⟨by simp [kind], by simp [kind]⟩
        fun c inside => (raw a member c inside).isTerm.isClear

end Outside

variable (scope) in
/-- The run on a case: the reports on its conjuncts, attributes and task list in this order, with
its parts resolved and the stack as before. -/
theorem resolveBranch_run {pre list : Tree} {info : Guarded}
    (parts : HasParts branch info attrs pre list) (distinct : (branch.children.map Tree.id).Nodup)
    (notAttr : pre.kind ≠ .attr) (s : Binder) : ∃ xs new guard ws attrs' list' tasks,
    Threads (ResolvesConjunct scope) s.refs pre.children xs new guard ∧
    ws = xs.map (fun x => x.2.window (s.refs ++ new)) ∧ AttributesResolved scope ws attrs attrs' ∧
    TasksResolved scope ws list list' tasks ∧ (scope.resolveBranch branch).run s =
      let pre' := pre.withChildren (xs.map Prod.fst)
      ((branch.withChildren (attrs' ++ [pre', list'])).withContent (.branch
        { info with precondVars := pre'.variableTable, taskVars := list'.variableTable }),
      s.after [] (guard ++ attrs.flatMap (scope.reportsOutside ws) ++ tasks)) := by
  have listKind : list.kind = .taskList := congrArg Content.kind parts.listContent
  obtain ⟨_, new, guard, ranGuard, xs, rfl, threads⟩ :=
    resolvePrecond_extends scope pre s (Nat.zero_le _)
  have fits : ∀ c ∈ xs.map Prod.snd, c.Fits (s.refs ++ new).length := by
    rw [forall_mem_map]
    intro x member
    obtain ⟨_, _, before, n, later, _, ⟨place, _⟩, split, _⟩ :=
      exists_of_forall₂ threads.each member
    rw [place, split, Conjunct.Fits]
    simp only [drop_zero, length_append]
    omega
  obtain ⟨_, _, _, ranAttrs, rfl, rfl, attrs', rfl, attributes⟩ :=
    resolveAttributes_extends scope fits
    (show (branch.withChildren (attrs ++ [pre.withChildren (xs.map Prod.fst), list])).children =
    _ from rfl) parts.attrKinds notAttr (by simp [listKind]) (s.after new guard) (by simp)
  rw [drop_zero, refs_after, map_map] at attributes ranAttrs
  obtain ⟨list', _, tasks, ranTasks, rfl, resolved⟩ := resolveTasks_extends
    scope fits parts.listContent ((s.after new guard).after [] _) (by simp)
  rw [drop_zero, refs_after, refs_after, append_nil, map_map] at resolved
  refine ⟨xs, new, guard, _, attrs', list', tasks, threads, rfl, attributes, resolved, ?_⟩
  have sameIds : (attrs' ++ [pre.withChildren (xs.map Prod.fst), list]).map Tree.id =
      branch.children.map Tree.id := by
    rw [parts.children, map_append, map_append, attributes.1]
    rfl
  have steps : (scope.resolveBranch branch).run s =
      let x := (onPart branch info.precond ([], []) fun t => do
        let x ← scope.resolvePrecond t
        pure (x.1, x.2, x.1.variableTable)).run s
      let y := (x.1.1.mapKindM .attr fun attr =>
        attr.mapVariablesM (scope.linkOutside x.1.2.1)).run x.2
      let z := (onPart y.1 info.tasks [] fun t => do
        let t ← scope.resolveTasks x.1.2.1 t
        pure (t, t.variableTable)).run y.2
      (z.1.1.withContent (.branch { info with precondVars := x.1.2.2, taskVars := z.1.2 }),
        { z.2 with stack := z.2.stack.settle (z.2.stack.release s.stack.size) }) := by
    rw [resolveBranch, parts.content]
    rfl
  rw [steps, parts.precond, parts.tasks, onPart_run parts.children distinct ranGuard]
  dsimp only
  rw [ranAttrs]
  dsimp only
  rw [onPart_run (show _ = (attrs' ++ [pre.withChildren (xs.map Prod.fst)]) ++
    list :: [] by simp [withChildren]) (sameIds ▸ distinct) ranTasks]
  dsimp only
  rw [after_after, after_after, release_after, append_assoc, append_assoc]
  rfl

/-- A case in disjunctive normal form with the condition on assignments. -/
def NormalCase (T : Prop) : Tree → Prop :=
  IsCase IsRaw fun t =>
    t.IsRaw ∧ t.IsDisjunctiveNormal ∧ t.Throughout fun u => T → TargetsVariable u

theorem resolveBranch_clean (distinct : (branch.children.map Tree.id).Nodup)
    (case : NormalCase T branch) : Clean problems (scope.resolveBranch branch) fun s b s' =>
      s'.loose = s.loose ∧ Relabels Keeps branch b ∧ IsResolved T scope b := by
  obtain ⟨info, attrs, pre, list, parts, rawAttrs, ⟨rawPre, normal, targets⟩, rawList⟩ := case
  have preKind : pre.kind = .op .or := congrArg Content.kind normal.disjunction
  intro s
  obtain ⟨xs, new, guard, ws, attrs', list', tasks, threads, windows, attributes, resolved, ran⟩ :=
    resolveBranch_run scope parts distinct (by simp [preKind]) s
  rw [ran]
  dsimp only
  rw [problems_after]
  refine ⟨Nat.le_add_right _ _, fun silent => ⟨rfl, ?_⟩⟩
  obtain ⟨⟨rfl, noAttrs⟩, rfl⟩ : (guard = [] ∧ attrs.flatMap (scope.reportsOutside ws) = []) ∧
    tasks = [] := by
    rwa [Nat.add_eq_left, length_eq_zero_iff, append_eq_nil_iff, append_eq_nil_iff] at silent
  have each := conjuncts_resolved threads (fun c member => rawPre.below member) normal.conjunctions
  generalize preAt : pre.withChildren (xs.map Prod.fst) = pre'
  have inside : pre'.children = xs.map Prod.fst := congrArg Tree.children preAt.symm
  have relabels : Relabels Keeps pre pre' := preAt ▸ relabels_iff.mpr ⟨⟨rfl, rfl, rfl⟩,
    forall₂_map_right_iff.mpr (each.imp fun _ _ => And.left)⟩
  have conjuncts : ∀ c ∈ pre'.children, scope.ConjunctLinked c := by
    rw [inside, forall_mem_map]
    intro x member
    obtain ⟨_, _, linked⟩ := exists_of_forall₂ each member
    exact linked.2.2
  have sound : pre'.kind ≠ .error :=
    takes_sound (relabels.isTerm (fun _ _ same => same) rawPre.isTerm).here
  have listed : ∀ w, ws.head? = some w →
    ∀ name b, bindingOf w name = some b → pre'.BindsFirst name b := by
    intro w head name b found
    rw [windows, head?_map, Option.map_eq_some_iff] at head
    obtain ⟨x, first, rfl⟩ := head
    obtain ⟨_, _, linked⟩ := exists_of_forall₂ each (mem_of_head? first)
    refine ⟨x.1, by rw [inside, head?_map, first]; rfl, ?_⟩
    rw [linked.2.1]
    exact mem_of_bindingOf found
  have precondLinked : pre'.Throughout fun u =>
      Linked scope (fun name x => pre'.Announces ⟨x, name⟩) u.node := by
    have content : pre'.node.content = .op .or := preAt ▸ normal.disjunction
    refine .of_children ⟨by simp [content], by simp [content]⟩ fun c member u visits => ?_
    exact ((conjuncts c member).node visits).mono
      fun _ _ => (conjuncts c member).announces member sound
  have rewritten := attributes.2 noAttrs rawAttrs
  have keptAttrs : List.Forall₂ (Relabels Keeps) attrs attrs' :=
    rewritten.imp fun _ _ => .imp fun _ _ => rewrites_keeps
  obtain ⟨listNode, listRelabels, entries⟩ := resolved.2 rfl rawList
  have linkedAttrs : ∀ a ∈ attrs', ∃ a₀ ∈ attrs, a.node = a₀.node ∧ (∀ c ∈ a.children, c.IsTerm) ∧
      ∀ c ∈ a.children, c.Throughout fun u => LinkedOutside scope pre'.BindsFirst u.node := by
    intro a member
    obtain ⟨a₀, inside, step⟩ := exists_of_forall₂ rewritten member
    exact ⟨a₀, inside, attribute_linked (parts.attrKinds a₀ inside) (rawAttrs a₀ inside)
      step listed⟩
  refine ⟨relabels_iff.mpr ⟨⟨rfl, rfl, parts.kind.symm⟩, ?_⟩, _, attrs', pre', list',
    ⟨⟨rfl, rfl, ?_, ?_, ?_, ?_⟩, relabels.isTerm (fun _ _ same => same) rawPre.isTerm,
    relabels.isDisjunctiveNormal (fun _ _ same => same.kind) normal, ?_, ?_, rfl, rfl,
    precondLinked,
    conjuncts, ?_, entries _ listed, relabels.targets (fun _ _ same => same) targets⟩⟩
  · rw [parts.children]
    exact rel_append keptAttrs (.cons relabels (.cons listRelabels .nil))
  · intro a member
    obtain ⟨a₀, inside, same, _⟩ := linkedAttrs a member
    exact (congrArg Node.kind same).trans (parts.attrKinds a₀ inside)
  · exact parts.precond.trans (congrArg some relabels.node.id.symm)
  · exact (congrArg Node.content listNode).trans parts.listContent
  · exact parts.tasks.trans (congrArg some listRelabels.node.id.symm)
  · intro a member
    obtain ⟨_, _, _, terms, _⟩ := linkedAttrs a member
    exact terms
  · intro e member
    obtain ⟨e₀, inside, step⟩ := exists_of_forall₂ listRelabels.children member
    exact step.isTerm (fun _ _ same => same) (rawList e₀ inside).isTerm
  · intro a member
    obtain ⟨_, _, _, _, linkedArgs⟩ := linkedAttrs a member
    exact linkedArgs

theorem resolveBranch_restores (distinct : (branch.children.map Tree.id).Nodup)
    (case : NormalCase T branch) : Clean (fun _ => 0) (scope.resolveBranch branch) fun s _ s' =>
      s'.stack = s.stack := by
  obtain ⟨info, attrs, pre, list, parts, _, ⟨_, normal, _⟩, _⟩ := case
  have preKind : pre.kind = .op .or := congrArg Content.kind normal.disjunction
  intro s
  obtain ⟨_, _, _, _, _, _, _, _, _, _, _, ran⟩ :=
    resolveBranch_run scope parts distinct (by simp [preKind]) s
  rw [ran]
  exact ⟨Nat.le_refl _, fun _ => by simp [Binder.after]⟩

theorem IsResolved.kind (resolved : IsResolved T scope branch) : branch.kind = .branch := by
  obtain ⟨_, _, _, _, resolution⟩ := resolved
  exact resolution.kind

/-- A program whose names are resolved. -/
structure Program.Resolved (T : Prop) (p : Program) : Prop where
  sound : p.Sound fun _ => True
  branches : ∀ task branch, (task, branch) ∈ p.root.branches →
    IsResolved T (.ofTask p.declarations task) branch
  facts : ∀ f ∈ p.declarations.facts, ∃ world c, p.root.findChild? .world = some world ∧
    c ∈ world.children ∧ f = .ofTree c
  callable : ∀ d, d ∈ p.declarations.tasks ∨ d ∈ p.declarations.primitives →
    ∃ k block c, p.root.findChild? k = some block ∧ c ∈ block.children ∧ c.id = d.id ∧
      (c.childrenOf .param).length = d.arity ∧ (k = .domain ∧ c.kind = .task ∨ k = .primitives)

theorem byFirstName_subset (seen : List String) (ts : List Tree) :
    (byFirstName seen ts).1 ⊆ ts := by
  induction ts generalizing seen with
  | nil => simp [byFirstName]
  | cons t ts ih =>
    rw [byFirstName]
    split
    · exact fun u member => mem_cons_of_mem _ (ih seen member)
    · intro u member
      rcases mem_cons.mp member with rfl | later
      · simp
      · exact mem_cons_of_mem _ (ih _ later)

theorem mem_childrenOfFirst {c : Tree} {k : Kind} :
    c ∈ t.childrenOfFirst k ↔ ∃ block, t.findChild? k = some block ∧ c ∈ block.children := by
  rw [childrenOfFirst]
  split
  · next block found => simp [found]
  · next missing => simp [missing]

/-- The facts that a program declares are in its block of facts. -/
theorem declarationsOf_facts {f : Declaration}
    (declared : f ∈ (declarationsOf root).1.facts) :
    ∃ world c, root.findChild? .world = some world ∧ c ∈ world.children ∧ f = .ofTree c := by
  obtain ⟨c, first, rfl⟩ := mem_map.mp
    (show f ∈ ((byFirstName [] (root.childrenOfFirst .world)).1.map
    Declaration.ofTree) from declared)
  obtain ⟨world, found, member⟩ := mem_childrenOfFirst.mp (byFirstName_subset _ _ first)
  exact ⟨world, c, found, member, rfl⟩

theorem mem_declare {group : String} {ts : List Tree} {d : Declaration}
    (declared : d ∈ (declare group ts).1) : ∃ c ∈ ts, d = .ofTree c := by
  obtain ⟨c, first, rfl⟩ := mem_map.mp
    (show d ∈ (byFirstName [] ts).1.map Declaration.ofTree from declared)
  exact ⟨c, byFirstName_subset _ _ first, rfl⟩

/-- The tasks and primitives that a program declares are in its domain and in its block of
primitives. -/
theorem declarationsOf_callable {d : Declaration}
    (declared : d ∈ (declarationsOf root).1.tasks ∨ d ∈ (declarationsOf root).1.primitives) :
    ∃ k block c, root.findChild? k = some block ∧ c ∈ block.children ∧ d = .ofTree c ∧
      (k = .domain ∧ c.kind = .task ∨ k = .primitives) := by
  rcases declared with task | primitive
  · obtain ⟨c, member, same⟩ := @mem_declare "task" _ _ task
    obtain ⟨inside, kind⟩ := mem_filter.mp member
    obtain ⟨block, found, below⟩ := mem_childrenOfFirst.mp inside
    exact ⟨.domain, block, c, found, below, same, .inl ⟨rfl, by simpa using kind⟩⟩
  · obtain ⟨c, member, same⟩ := @mem_declare "primitive" _ _ primitive
    obtain ⟨block, found, below⟩ := mem_childrenOfFirst.mp member
    exact ⟨.primitives, block, c, found, below, same, .inr rfl⟩

/-- The scratch stack is left as it was. -/
theorem Session.resolveNames_nodes (s : Session) (sound : s.program.Sound (NormalCase T)) :
    s.resolveNames.2.scratch.nodes = s.scratch.nodes := by
  have run := mapBranchesM_clean s.program.root
    (f := fun task branch => (NameScope.ofTask (declarationsOf s.program.root).1 task).resolveBranch
    branch)
    (fun task branch member =>
    resolveBranch_restores (sound.accounted.branch_distinct member).children
      (sound.form.branch member))
    ⟨s.scratch.nodes, s.diagnostics.append (declarationsOf s.program.root).2, s.program.loose⟩
  exact ((run.2 rfl).keeps (I := fun b => b.stack = s.scratch.nodes) (Q := fun _ _ _ => True)
    (fun _ _ _ _ _ _ step same => ⟨step.trans same, trivial⟩) rfl).1

/-- Names of a program in order are resolved when nothing is reported, and the entries of task lists
stay in their places. -/
theorem Session.resolveNames_resolved (T : Prop) (s : Session)
    (sound : s.program.Sound (NormalCase T)) :
    s.diagnostics.size ≤ s.resolveNames.2.diagnostics.size ∧
      (s.resolveNames.2.diagnostics.size = s.diagnostics.size →
        s.resolveNames.1 = true ∧ s.resolveNames.2.program.Resolved T ∧
        EntriesFrom (fun _ => Relabels Keeps) s.program.root s.resolveNames.2.program.root) := by
  rw [resolveNames]
  dsimp only [Session.record]
  have facts : ∀ f ∈ (declarationsOf s.program.root).1.facts, _ := fun f => declarationsOf_facts
  have callable : ∀ d, d ∈ (declarationsOf s.program.root).1.tasks ∨
      d ∈ (declarationsOf s.program.root).1.primitives → _ := fun d => declarationsOf_callable
  generalize declarationsOf s.program.root = declared at facts callable
  obtain ⟨declarations, reports⟩ := declared
  dsimp only at facts callable
  generalize startAt : (⟨s.scratch.nodes, s.diagnostics.append reports, s.program.loose⟩ : Binder) =
    start
  have run := mapBranchesM_clean s.program.root
    (f := fun task branch => (NameScope.ofTask declarations task).resolveBranch branch)
    (fun task branch member => resolveBranch_clean (sound.accounted.branch_distinct member).children
      (sound.form.branch member)) start
  generalize (s.program.root.mapBranchesM fun task branch =>
    (NameScope.ofTask declarations task).resolveBranch branch).run start = result at run
  obtain ⟨root, e⟩ := result
  obtain ⟨grows, clean⟩ := run
  have grows : start.problems ≤ e.problems := grows
  have final : e.problems = e.diagnostics.size := rfl
  have before : start.problems = s.diagnostics.size + reports.length := by
    simp [← startAt, Binder.problems]
  dsimp only
  refine ⟨by omega, fun same => ⟨by simp only [beq_iff_eq]; omega, ?_⟩⟩
  have steps := clean (show e.problems = start.problems by omega)
  obtain ⟨_, updates⟩ := steps.keeps (I := fun _ => True)
    (Q := fun task branch b => Relabels Keeps branch b ∧ IsResolved T (.ofTask declarations task) b)
    (fun _ _ _ _ _ _ step _ => ⟨trivial, step.2⟩) trivial
  have moves : Moves True [s.program.root] ⟨s.program.next, start.loose, none⟩ [root]
      ⟨s.program.next, e.loose, none⟩ :=
    steps.carries (MovesWith.carries fun b : Binder => ⟨s.program.next, b.loose, none⟩)
      fun _ _ _ _ _ step => by
        rw [step.1]
        exact Relabels.moves (fun _ _ => id) step.2.1 _
  rw [← startAt] at moves
  refine ⟨⟨.of_moves moves sound (updates.isProgram sound.form fun task b b' _ resolved =>
    ⟨resolved.2.kind, trivial⟩), fun task' branch member => ?_, fun f declared => ?_,
    fun d declared => ?_⟩,
    updates.entriesFrom fun _ _ _ _ done => done.1.entries fun _ _ => Keeps.kind⟩
  · obtain ⟨task, _, _, ⟨_, resolved⟩, kept⟩ := updates.branches member
    have params : task'.childrenOf .param = task.childrenOf .param :=
      kept.childrenOf (fun _ _ done => done.2.kind) (by decide)
    rw [NameScope.ofTask, params]
    exact resolved
  · obtain ⟨world, c, found, inside, same⟩ := facts f declared
    exact ⟨world, c, (updates.other (by decide)).trans found, inside, same⟩
  · obtain ⟨k, block, c, found, inside, rfl, ⟨rfl, isTask⟩ | rfl⟩ := callable d declared
    · -- a task keeps its node and its parameters
      rcases updates.domain with ⟨none, _⟩ | ⟨domain, domain', before, after, step⟩
      · rw [none] at found
        cases found
      · obtain rfl := Option.some.inj (before.symm.trans found)
        obtain ⟨c', inside', related⟩ := step.forward inside isTask
        refine ⟨.domain, domain', c', after, inside', congrArg Node.id related.1, ?_,
          .inl ⟨rfl, related.kind.trans isTask⟩⟩
        rw [related.childrenOf (fun _ _ done => done.2.kind) (by decide)]
        rfl
    · exact ⟨.primitives, block, c, (updates.other (by decide)).trans found, inside, rfl,
        rfl, .inr rfl⟩

end TaskNet
