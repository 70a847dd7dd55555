import TaskNet.Proofs.Binding.Resolution

/-!
Which occurrences of names are reported as not bound. The names that a conjunct binds can be read
off its literals: those of the variables that are direct arguments of a positive literal of a
declared fact or the left side of an assignment. An occurrence in the conjunct is reported if its
name is neither bound there nor a parameter, and an occurrence in an attribute or a task list by how
many of the conjuncts bind its name. So the order of conjuncts and of literals plays no part.
-/

namespace TaskNet

open Binder NameScope Tree

variable {found : List Diagnostic} {ls : List Tree}

namespace NameScope

variable (scope : NameScope)

def boundNames (literals : List Tree) : List String :=
  ((literals.flatMap scope.places).filter fun t => t.kind == .var).map Tree.name

def clauseReports (clause : Tree) : List Diagnostic :=
  clause.occurrences.flatMap fun o =>
    if (scope.param? o.2.name).isSome ∨ o.2.name ∈ scope.boundNames clause.children then []
    else [.make .unboundVar o.1.loc [.name o.2.name]]

def outsideReports (clauses : List (List Tree)) (t : Tree) : List Diagnostic :=
  t.occurrences.flatMap fun o =>
    if (scope.param? o.2.name).isSome then []
    else if ∀ c ∈ clauses, o.2.name ∉ scope.boundNames c then
      [.make .unboundVar o.1.loc [.name o.2.name]]
    else if ∃ c ∈ clauses, o.2.name ∉ scope.boundNames c then
      [.make .notBoundInAllConjuncts o.1.loc [.name o.2.name]]
    else []

def partReports (branch : Tree) (k : Kind) : List Diagnostic :=
  (branch.childrenOf k).flatMap
    (scope.outsideReports ((branch.childrenOf (.op .or)).flatMap clauses))

/-- The reports on a case: on its conjuncts, on its attributes and on its task list. -/
def caseReports (branch : Tree) : List Diagnostic :=
  ((branch.childrenOf (.op .or)).flatMap children).flatMap scope.clauseReports ++
    scope.partReports branch .attr ++ scope.partReports branch .taskList

variable {scope} {w new window : List NodeRef} {name : String} {t t' l l' : Tree}

theorem mem_boundNames {literals : List Tree} : name ∈ scope.boundNames literals ↔
    ∃ l ∈ literals, ∃ a ∈ scope.places l, a.kind = .var ∧ a.name = name := by
  simp [boundNames]
  grind

theorem taken_append (isTaken : scope.taken w name = true) (more : List NodeRef) :
    scope.taken (w ++ more) name = true := by
  rw [taken, Bool.or_eq_true, isSome_bindingOf] at isTaken ⊢
  exact isTaken.imp_right fun member => by simp [member]

end NameScope

/-- What is gained in a row of steps is what each of them gains. -/
theorem Threads.gains
    {α β : Type} {P : List NodeRef → α → β → List NodeRef → List Diagnostic → Prop}
    {Q : List NodeRef → Prop} {N : α → Prop} {w new : List NodeRef} {as : List α} {bs : List β}
    {reports : List Diagnostic} (threads : Threads P w as bs new reports)
    (each : ∀ w a b n r, P w a b n r → (Q (w ++ n) ↔ Q w ∨ N a)) :
    Q (w ++ new) ↔ Q w ∨ ∃ a ∈ as, N a := by
  induction threads with
  | nil => simp
  | cons head _ ih =>
    rw [← List.append_assoc, ih, each _ _ _ _ _ head]
    simp [or_assoc]

namespace NameScope

variable {scope : NameScope} {w new window : List NodeRef} {name : String} {t t' l l' : Tree}
variable {reports : List Diagnostic}

theorem BindsAt.gains (binds : BindsAt scope w t t' new) :
    scope.taken (w ++ new) name = true ↔ scope.taken w name = true ∨
      (t.kind = .var ∧ t.name = name) := by
  cases binds with
  | stays isTaken =>
    rw [List.append_nil]
    refine ⟨.inl, fun either => either.elim id fun ⟨kind, named⟩ => ?_⟩
    obtain ⟨v, content⟩ := content_of_var kind
    rw [← named, Tree.name, content]
    exact isTaken v content
  | @binds v content free =>
    have kind : t.kind = .var := congrArg Content.kind content
    have named : t.name = v.name := congrArg Content.name content
    simp only [taken, Bool.or_eq_true, isSome_bindingOf, kind, named]
    simp only [List.map_append, List.mem_append, List.map_cons, List.map_nil, List.mem_singleton,
      or_assoc, true_and, @eq_comm _ name]

/-- A literal binds the names of the variables in its places, if they are not bound already. -/
theorem Marked.gains (marked : Marked scope w l l' new reports) :
    scope.taken (w ++ new) name = true ↔
      scope.taken w name = true ∨ ∃ a ∈ scope.places l, a.kind = .var ∧ a.name = name := by
  cases marked with
  | stays nothing => simp [nothing]
  | arguments content found each _ =>
    rw [places, content]
    simp only [found, Option.isSome_some, if_true]
    exact each.gains (Q := fun w => scope.taken w name = true)
      (N := fun a => a.kind = .var ∧ a.name = name) fun _ _ _ _ _ step => step.gains
  | @target target _ rest _ content children here _ =>
    rw [places, content, children]
    simpa using here.gains
  | @refused target rest v _ content children isVar isTaken =>
    rw [places, content, children, List.append_nil]
    have named : target.name = v.name := congrArg Content.name isVar
    simp only [List.take_succ_cons, List.take_zero, List.mem_singleton, exists_eq_left, named]
    exact ⟨.inl, fun either => either.elim id fun same => same.2 ▸ isTaken⟩
  | negated content _ _ _ _ =>
    rw [places, content]
    simp

theorem reportsInside_above (notVar : t.kind ≠ .var) (sound : t.kind ≠ .error) :
    scope.reportsInside window t = t.children.flatMap (scope.reportsInside window) := by
  have content : ∀ {k : Content}, t.node.content = k → t.kind = k.kind := congrArg Content.kind
  rw [← t.eta, reportsInside, occurrences_above (fun v same => notVar (content same))
    (fun was problem same => sound (content same)), List.flatMap_assoc]
  rfl

theorem reportsInside_congr (kind : t'.kind = t.kind) (notVar : t.kind ≠ .var)
    (sound : t.kind ≠ .error) (same : t'.children.flatMap (scope.reportsInside window) =
      t.children.flatMap (scope.reportsInside window)) :
    scope.reportsInside window t' = scope.reportsInside window t := by
  rw [reportsInside_above notVar sound, reportsInside_above (kind ▸ notVar) (kind ▸ sound), same]

theorem reportsInside_taken {v : Variable} (content : t.content = .var v)
    (isTaken : scope.taken window v.name = true) : scope.reportsInside window t = [] := by
  rw [← t.eta, reportsInside, occurrences_var content]
  simp [reportInside, isTaken]

/-- An occurrence that binds its name is not reported, nor would it be if it did not bind. -/
theorem BindsAt.reportsInside (binds : BindsAt scope w t t' new)
    (later : ∀ name, scope.taken (w ++ new) name = true → scope.taken window name = true) :
    scope.reportsInside window t' = scope.reportsInside window t := by
  cases binds with
  | stays => rfl
  | @binds v content free =>
    have isTaken : scope.taken window v.name = true :=
      later _ (by simp [taken, isSome_bindingOf])
    rw [reportsInside_taken content isTaken]
    exact reportsInside_taken (v := { v with binding := true, definition := none }) rfl isTaken

/-- Finding what a literal binds does not change the reports on its occurrences. -/
theorem Marked.reportsInside (marked : Marked scope w l l' new reports)
    (later : ∀ name, scope.taken (w ++ new) name = true → scope.taken window name = true) :
    scope.reportsInside window l' = scope.reportsInside window l := by
  cases marked with
  | stays => rfl
  | arguments content found each _ =>
    have kind : l.kind = .call := congrArg Content.kind content
    refine reportsInside_congr kind.symm (by simp [kind]) (by simp [kind]) ?_
    rw [List.flatMap_def, List.flatMap_def]
    refine congrArg _ (map_eq_of_forall₂
      (each.each.imp fun a b ⟨before, n, more, _, step, split, _⟩ => ?_)).symm
    refine (step.reportsInside fun name isTaken => later name ?_).symm
    rw [split, ← List.append_assoc, ← List.append_assoc]
    exact taken_append isTaken more
  | target content children here _ =>
    have kind : l.kind = .op .assign := congrArg Content.kind content
    refine reportsInside_congr rfl (by simp [kind]) (by simp [kind]) ?_
    rw [children, List.flatMap_cons, ← here.reportsInside later]
    rfl
  | @refused target rest v _ content children isVar isTaken =>
    have kind : l.kind = .op .assign := congrArg Content.kind content
    refine reportsInside_congr rfl (by simp [kind]) (by simp [kind]) ?_
    rw [children, List.flatMap_cons, reportsInside_taken isVar (later _ (taken_append isTaken []))]
    rfl
  | @negated t rest c d _ content children isCall _ _ =>
    have kind : l.kind = .op .not := congrArg Content.kind content
    have call : t.kind = .call := congrArg Content.kind isCall
    refine reportsInside_congr rfl (by simp [kind]) (by simp [kind]) ?_
    rw [children, List.flatMap_cons]
    refine congrArg (· ++ rest.flatMap (scope.reportsInside window)) ?_
    exact reportsInside_congr (t := t) call.symm (by simp [call]) (by simp [call]) rfl

/-- The names that an unresolved conjunct takes are the parameters and those that its literals bind.
-/
theorem Conjoined.taken_iff
    (conjoined : Conjoined scope t t' new reports ls found) : scope.taken new name = true ↔
      (scope.param? name).isSome = true ∨ name ∈ scope.boundNames t.children := by
  have gains := conjoined.marked.gains (Q := fun w => scope.taken w name = true)
    (N := fun l => ∃ a ∈ scope.places l, a.kind = .var ∧ a.name = name)
    fun _ _ _ _ _ step => step.1.gains
  rw [List.nil_append] at gains
  rw [gains, mem_boundNames]
  simp [taken, bindingOf]

theorem filter_reportsInside (t : Tree) :
    (scope.reportsInside window t).filter Diagnostic.isScoping = scope.reportsInside window t := by
  refine List.filter_eq_self.mpr fun d member => ?_
  obtain ⟨o, _, inside⟩ := List.mem_flatMap.mp member
  rw [reportInside] at inside
  split at inside
  · cases inside
  · rw [List.mem_singleton.mp inside]
    rfl

theorem Conjoined.reports_scoping
    (conjoined : Conjoined scope t t' new reports ls found) (content : t.content = .op .and)
    (unbound : ∀ o ∈ t.occurrences, o.2.binding = false) :
    reports.filter Diagnostic.isScoping = scope.clauseReports t := by
  have kind : t.kind = .op .and := congrArg Content.kind content
  have quiet : found.filter Diagnostic.isScoping = [] := (conjoined.marked.filter_reports
    (h := fun _ => []) fun _ _ _ _ _ _ step => step.2).trans
    (List.flatMap_eq_nil_iff.mpr fun _ _ => rfl)
  have same : scope.reportsInside new (t.withChildren ls) = scope.reportsInside new t := by
    refine reportsInside_congr rfl (by simp [kind]) (by simp [kind]) ?_
    rw [List.flatMap_def, List.flatMap_def]
    refine congrArg _ (map_eq_of_forall₂ (conjoined.marked.each.imp
      fun a b ⟨before, n, more, _, ⟨step, _⟩, split, _⟩ => ?_)).symm
    refine (step.reportsInside fun name isTaken => ?_).symm
    rw [split]
    exact taken_append isTaken more
  rw [conjoined.reports_eq, List.filter_append, quiet, List.nil_append, filter_reportsInside, same]
  refine List.flatMap_congr fun o member => ?_
  rw [reportInside, unbound o member, Bool.false_or]
  exact if_congr conjoined.taken_iff rfl rfl

/-- What is reported on an occurrence outside of the precondition depends on the names that are not
parameters and are bound in the conjuncts. -/
theorem reportsOutside_eq {ws : List (List NodeRef)} {clauses : List (List Tree)}
    (same : List.Forall₂ (fun w c => ∀ name, scope.taken w name = true ↔
      (scope.param? name).isSome = true ∨ name ∈ scope.boundNames c) ws clauses) (t : Tree) :
    scope.reportsOutside ws t = scope.outsideReports clauses t := by
  refine List.flatMap_congr fun o _ => ?_
  rw [reportOutside]
  by_cases isParam : (scope.param? o.2.name).isSome = true
  · rw [if_pos isParam, if_pos isParam]
  have missing : List.Forall₂ (fun w c => (bindingOf w o.2.name).isNone = true ↔
      o.2.name ∉ scope.boundNames c) ws clauses := by
    refine same.imp fun w c here => ?_
    have here := here o.2.name
    rw [taken, Bool.or_eq_true, or_iff_right isParam, or_iff_right isParam] at here
    rw [← here, Option.isNone_iff_eq_none, Option.not_isSome_iff_eq_none]
  have counts : ((ws.all fun w => (bindingOf w o.2.name).isNone) = true ↔
        ∀ c ∈ clauses, o.2.name ∉ scope.boundNames c) ∧
      ((ws.any fun w => (bindingOf w o.2.name).isNone) = true ↔
        ∃ c ∈ clauses, o.2.name ∉ scope.boundNames c) := by
    clear same
    induction missing with
    | nil => simp
    | cons head _ ih =>
      rw [List.all_cons, List.any_cons, Bool.and_eq_true, Bool.or_eq_true, head, ih.1, ih.2]
      simp
  rw [if_neg isParam, if_neg isParam]
  exact if_congr counts.1 rfl (if_congr counts.2 rfl rfl)

theorem boundNames_perm {c c' : List Tree} (permuted : c.Perm c') :
    name ∈ scope.boundNames c ↔ name ∈ scope.boundNames c' :=
  (((permuted.flatMap_right _).filter _).map _).mem_iff

/-- Conjuncts in another order, and their literals in other orders. -/
def Rearranged (clauses clauses' : List (List Tree)) : Prop :=
  ∃ sorted, clauses.Perm sorted ∧ List.Forall₂ List.Perm sorted clauses'

/-- The reports outside of the precondition do not depend on the order of conjuncts and of their
literals. -/
theorem outsideReports_rearranged {clauses clauses' : List (List Tree)}
    (rearranged : Rearranged clauses clauses') (t : Tree) :
    scope.outsideReports clauses' t = scope.outsideReports clauses t := by
  obtain ⟨sorted, conjuncts, literals⟩ := rearranged
  refine List.flatMap_congr fun o _ => ?_
  have counts : ((∀ c ∈ clauses', o.2.name ∉ scope.boundNames c) ↔
        ∀ c ∈ clauses, o.2.name ∉ scope.boundNames c) ∧
      ((∃ c ∈ clauses', o.2.name ∉ scope.boundNames c) ↔
        ∃ c ∈ clauses, o.2.name ∉ scope.boundNames c) := by
    simp only [conjuncts.mem_iff]
    clear conjuncts
    induction literals with
    | nil => simp
    | cons head _ ih =>
      simp only [List.forall_mem_cons, List.exists_mem_cons_iff, ih.1, ih.2, boundNames_perm head,
        and_self]
  exact if_congr Iff.rfl rfl (if_congr counts.1 rfl (if_congr counts.2 rfl rfl))

/-- A case whose precondition is in disjunctive normal form and binds nothing yet. -/
def UnboundCase : Tree → Prop :=
  IsCase (fun _ => True) fun pre => pre.IsDisjunctiveNormal ∧ ∀ o ∈ pre.occurrences,
    o.2.binding = false

variable (scope) in
theorem resolveBranch_scoping {branch : Tree} (distinct : (branch.children.map Tree.id).Nodup)
    (case : UnboundCase branch) (s : Binder) : ∃ b reports,
    (scope.resolveBranch branch).run s = (b, s.after [] reports) ∧ b.kind = .branch ∧
      reports.filter Diagnostic.isScoping = scope.caseReports branch := by
  obtain ⟨info, attrs, pre, list, parts, _, ⟨normal, unbound⟩, _⟩ := case
  have preKind : pre.kind = .op .or := congrArg Content.kind normal.disjunction
  have listKind : list.kind = .taskList := congrArg Content.kind parts.listContent
  obtain ⟨xs, new, guard, ws, attrs', list', tasks, threads, windows, _, resolved, ran⟩ :=
    resolveBranch_run scope parts distinct (by simp [preKind]) s
  refine ⟨_, _, ran, rfl, ?_⟩
  have parted : ∀ k, branch.childrenOf k =
      (attrs.filter fun c => c.kind == k) ++ [pre, list].filter fun c => c.kind == k := by
    intro k
    rw [childrenOf, parts.children, List.filter_append]
  have others : ∀ k, k ≠ .attr → (attrs.filter fun c => c.kind == k) = [] := fun k other =>
    List.filter_eq_nil_iff.mpr fun a member => by simpa [parts.attrKinds a member] using other.symm
  have preAt : branch.childrenOf (.op .or) = [pre] := by simp [parted, others, preKind, listKind]
  have listAt : branch.childrenOf .taskList = [list] := by simp [parted, others, preKind, listKind]
  have attrsAt : branch.childrenOf .attr = attrs := by
    rw [parted, List.filter_eq_self.mpr fun a member => by simp [parts.attrKinds a member]]
    simp [preKind, listKind]
  have inside : ∀ c ∈ pre.children, ∀ o ∈ c.occurrences, o ∈ pre.occurrences := by
    intro c member o occurs
    have content : pre.node.content = .op .or := normal.disjunction
    rw [← pre.eta, occurrences_above (by simp [content]) (by simp [content])]
    exact List.mem_flatMap.mpr ⟨c, member, occurs⟩
  have guarded : guard.filter Diagnostic.isScoping = pre.children.flatMap scope.clauseReports :=
    threads.filter_reports fun c member _ _ _ _ step => by
      obtain ⟨_, ls, found, conjoined⟩ := step
      exact conjoined.reports_scoping (normal.conjunctions c member) fun o occurs =>
        unbound o (inside c member o occurs)
  have same : List.Forall₂ (fun w c => ∀ name, scope.taken w name = true ↔
      (scope.param? name).isSome = true ∨ name ∈ scope.boundNames c) ws pre.clauses := by
    rw [windows, clauses, List.forall₂_map_left_iff, List.forall₂_map_right_iff]
    refine (conjoined_windows threads).flip.imp ?_
    rintro x c ⟨_, _, _, conjoined, _⟩ name
    exact conjoined.taken_iff
  rw [caseReports, partReports, partReports, preAt, attrsAt, listAt, List.filter_append,
    List.filter_append, guarded, resolved.1, List.filter_flatMap]
  simp only [filter_reportsOutside, List.flatMap_singleton]
  simp only [reportsOutside_eq same]

theorem filter_checkAttributes (t : Tree) :
    (checkAttributes t).filter Diagnostic.isScoping = [] := by
  rw [checkAttributes, List.filter_append, List.append_eq_nil_iff, List.filter_flatMap,
    List.flatMap_eq_nil_iff, List.filter_map, List.map_eq_nil_iff]
  refine ⟨fun a _ => ?_, List.filter_eq_nil_iff.mpr fun _ _ => Bool.false_ne_true⟩
  rw [checkAttribute]
  split
  · rw [List.filter_map, List.map_eq_nil_iff]
    exact List.filter_eq_nil_iff.mpr fun _ _ => Bool.false_ne_true
  · rfl

theorem filter_redefinitions (group : String) (ts : List Tree) :
    (ts.map (redefinition group)).filter Diagnostic.isScoping = [] := by
  rw [List.filter_map, List.map_eq_nil_iff]
  exact List.filter_eq_nil_iff.mpr fun _ _ => Bool.false_ne_true

/-- The problems of declarations are none of names that are not bound. -/
theorem filter_declarationsOf (root : Tree) :
    (declarationsOf root).2.filter Diagnostic.isScoping = [] := by
  have child : ∀ t, (checkDomainChild t).filter Diagnostic.isScoping = [] := by
    intro t
    rw [checkDomainChild]
    split
    · rw [List.filter_append, checkParams, filter_redefinitions, List.nil_append,
        List.filter_flatMap, List.flatMap_eq_nil_iff]
      intro c _
      rw [checkTaskChild]
      split
      · exact filter_checkAttributes c
      · exact filter_redefinitions _ _
      · rfl
    · exact filter_redefinitions _ _
    · rfl
  simp only [declarationsOf, declare, List.filter_append, filter_redefinitions, List.filter_flatMap,
    filter_checkAttributes, child, List.nil_append]
  simp

end NameScope

theorem Chain.appended {α β σ γ : Type} {R : α → σ → β → σ → Prop} {as : List α} {bs : List β}
    {s s' : σ} {r : σ → List γ} {h : α → List γ} (chain : Chain R as s bs s')
    (each : ∀ a s b s', R a s b s' → r s' = r s ++ h a) : r s' = r s ++ as.flatMap h := by
  induction chain with
  | nil => simp
  | cons head _ ih => rw [ih, each _ _ _ _ head, List.flatMap_cons, List.append_assoc]

/-- Resolving names reports exactly the occurrences that are not bound: in a conjunct those of names
that are neither parameters nor bound there, and outside of the precondition those of names that are
no parameters and are not bound in all conjuncts. The order of conjuncts and of literals plays no
part in the reports on attributes and task lists. -/
theorem Session.resolveNames_scoping (s : Session)
    (cases : ∀ task branch, (task, branch) ∈ s.program.root.branches →
      (branch.children.map Tree.id).Nodup ∧ UnboundCase branch) :
    s.resolveNames.2.diagnostics.recorded.filter Diagnostic.isScoping =
        s.diagnostics.recorded.filter Diagnostic.isScoping ++
          s.program.root.branches.flatMap (fun (task, branch) =>
            (ofTask (declarationsOf s.program.root).1 task).caseReports branch) ∧
      ∀ (scope : NameScope) (branch branch' : Tree) (k : Kind),
      branch'.childrenOf k = branch.childrenOf k →
        Rearranged ((branch.childrenOf (.op .or)).flatMap clauses)
          ((branch'.childrenOf (.op .or)).flatMap clauses) →
        scope.partReports branch' k = scope.partReports branch k := by
  refine ⟨?_, fun scope branch branch' k same rearranged => ?_⟩
  · rw [resolveNames]
    dsimp only [Session.record]
    have quiet := filter_declarationsOf s.program.root
    generalize declarationsOf s.program.root = declared at quiet ⊢
    obtain ⟨declarations, reports⟩ := declared
    have run := @mapBranchesM_clean _ (fun _ => 0) s.program.root
      (fun task branch => (ofTask declarations task).resolveBranch branch)
      (fun task branch s b s' => b.kind = .branch ∧
        s'.diagnostics.recorded.filter Diagnostic.isScoping =
          s.diagnostics.recorded.filter Diagnostic.isScoping ++
            (ofTask declarations task).caseReports branch)
      (fun task branch member s => ⟨Nat.le_refl _, fun _ => by
        obtain ⟨distinct, unbound⟩ := cases task branch member
        obtain ⟨b, reports, ran, kind, scoping⟩ := resolveBranch_scoping
          (.ofTask declarations task) distinct unbound s
        rw [ran]
        exact ⟨kind, by simp [after, Collector.append, scoping]⟩⟩)
      ⟨s.scratch.nodes, s.diagnostics.append reports, s.program.loose⟩
    have chain := (run.2 rfl).chain fun _ _ _ _ _ step _ => step.1
    have total := chain.appended (r := fun s => s.diagnostics.recorded.filter Diagnostic.isScoping)
      (h := fun pair => (ofTask declarations pair.1).caseReports pair.2) fun _ _ _ _ step => step.2
    rw [Collector.append, List.filter_append, quiet, List.append_nil] at total
    exact total
  · rw [partReports, same, partReports]
    exact List.flatMap_congr fun t _ => outsideReports_rearranged rearranged t

/-- A name that is bound in one of two conjuncts, a left side that is bound already, and a name that
is bound nowhere. -/
theorem Session.resolveNames_scoping_two_conjuncts :
    let node (i : NodeId) (content : Content) :
      List Tree → Tree := .mk ⟨i, .any, ⟨"f", 1, i⟩, content⟩
    let var (i : NodeId) (name : String) : Tree := node i (.var ⟨name, name, none, false⟩) []
    let call (i : NodeId) (name : String) : List Tree → Tree := node i (.call ⟨name, none, none⟩)
    let facts := node 1 .world
      [node 2 (.fact "near") [node 3 (.param "a") [], node 4 (.param "b") []]]
    let cost := node 6 (.attr "cost") [var 7 "q"]
    let pre := node 8 (.op .or)
      [node 9 (.op .and) [call 10 "near" [var 11 "p", var 12 "q"],
      node 13 (.op .assign) [var 14 "q", var 15 "r"]],
        node 16 (.op .and) [node 17 (.op .not) [call 18 "near" [var 19 "p", var 21 "r"]]]]
    let list := node 20 .taskList [call 22 "go" [var 23 "p", var 24 "q", var 25 "r"]]
    let branch := node 5 (.branch ⟨some 8, some 20, [], []⟩) [cost, pre, list]
    let root := node 30 .root
      [facts, node 31 (.domain "d") [node 32 (.task "t") [node 33 (.param "p") [], branch]]]
    let s : Session := { Session.start with program := ⟨root, [], 40, .none⟩ }
    s.resolveNames.2.diagnostics.recorded.filter Diagnostic.isScoping =
      [.make .unboundVar ⟨"f", 1, 15⟩ [.name "r"], .make .unboundVar ⟨"f", 1, 21⟩ [.name "r"],
        .make .notBoundInAllConjuncts ⟨"f", 1, 7⟩ [.name "q"],
        .make .notBoundInAllConjuncts ⟨"f", 1, 24⟩ [.name "q"],
        .make .unboundVar ⟨"f", 1, 25⟩ [.name "r"]] := by
  intro node var call facts cost pre list branch root s
  refine (Session.resolveNames_scoping s fun task b member => ?_).1.trans (by decide +kernel)
  obtain ⟨rfl, rfl⟩ := Prod.mk.inj (List.mem_singleton.mp member)
  have normal : IsDisjunctiveNormal pre := ⟨rfl, by decide, by decide⟩
  have parts : HasParts branch ⟨some 8, some 20, [], []⟩ [cost] pre list :=
    ⟨rfl, rfl, by decide, rfl, rfl, rfl⟩
  exact ⟨by decide, _, _, _, _, parts, fun _ _ _ _ => trivial, ⟨normal, by decide⟩,
    fun _ _ => trivial⟩

end TaskNet
