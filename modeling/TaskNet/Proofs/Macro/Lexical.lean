import TaskNet.Proofs.Macro.Preservation

/-!
Macro expansion against lexical scoping. `Expands` says what a tree in the scope of a declaration
stands for: a parameter stands for its argument, a call stands for the body of the macro that its
name means there, and the body is read where the macro is declared. Expansion works by names
instead: it expands a body first and puts the arguments in afterwards, wherever a variable has the
name of a parameter. The two agree when no parameter of a macro is mentioned where its name means
another macro, or has the name of a parameter of the task that the macros it calls bring into its
body.
-/

namespace TaskNet

open Content List

variable {m : Template}

namespace Tree

variable {env : String → Option Tree} {n : Node} {cs : List Tree} {P : String → Prop} {t : Tree}

theorem variablesIn_mk (sound : n.kind ≠ .error) :
    VariablesIn P (mk n cs) ↔
      (∀ v, n.content = .var v → P v.name) ∧ ∀ c ∈ cs, VariablesIn P c := by
  rw [VariablesIn, throughout_mk]
  exact and_congr_right fun _ => ⟨fun below => below sound, fun below _ => below⟩

theorem variablesIn_anonymous : t.anonymous.VariablesIn P ↔ t.VariablesIn P :=
  throughout_anonymous fun s => by simp

theorem VariablesIn.imp {Q : String → Prop} (holds : t.VariablesIn P) (weaker : ∀ x, P x → Q x) :
    t.VariablesIn Q :=
  Throughout.imp (fun _ here v isVar => weaker _ (here v isVar)) holds

/-- Two rounds of putting trees in places are one, if the second has nothing for what the first
leaves. -/
theorem subst_subst {first second both : String → Option Tree}
    (covers : t.VariablesIn fun x => both x = (first x).map (subst second) ∧
      (first x = none → second x = none)) : (t.subst first).subst second = t.subst both := by
  induction t with
  | mk n cs ih =>
    by_cases error : n.kind = .error
    · rw [subst_error error, subst_error error, subst_error error]
    obtain ⟨here, below⟩ := (variablesIn_mk error).mp covers
    have children : (cs.map (subst first)).map (subst second) = cs.map (subst both) := by
      rw [map_map]
      exact map_congr_left fun c member => ih c member (below c member)
    rw [subst_mk error, subst_mk error]
    by_cases isVar : ∃ v, n.content = .var v
    · obtain ⟨v, content⟩ := isVar
      obtain ⟨same, later⟩ := here v content
      rw [content, place?, place?, same]
      cases found : first v.name with
      | some a => rfl
      | none =>
        rw [Option.map_none, Option.getD_none, Option.getD_none, subst_mk error, content,
          place?, later found, Option.getD_none, children]
    · rw [place?_other isVar, place?_other isVar, Option.getD_none, Option.getD_none,
        subst_mk error, place?_other isVar, Option.getD_none, children]

theorem subst_none (t : Tree) : t.subst (fun _ => none) = t := by
  induction t with
  | mk n cs ih =>
    by_cases error : n.kind = .error
    · exact subst_error error
    · have absent : n.content.place? (fun _ => none) = none := by cases n.content <;> rfl
      rw [subst_mk error, absent, Option.getD_none, map_congr_left ih, map_id']

/-- The variables of a tree after trees were put in places. -/
theorem variablesIn_subst
    (covers : t.VariablesIn fun x => (∀ a, env x = some a → a.VariablesIn P) ∧
    (env x = none → P x)) : (t.subst env).VariablesIn P := by
  refine throughout_subst (Q := fun c _ => ∀ v, c = .var v → P v.name)
    (Throughout.imp (fun s here =>
    ⟨fun a found => ?_, fun absent v isVar => ?_⟩) covers)
  · obtain ⟨v, isVar, found⟩ := place?_eq_some.mp found
    exact (here v isVar).1 a found
  · rw [isVar, place?] at absent
    exact (here v isVar).2 absent

end Tree

open Tree Expander

namespace MacroTable

variable {env : String → Option Tree} {cs ds : List Tree} {n : Node} {c : Tree}

/-- A renaming of the variables of a macro body: parameters, parameters of the task and names of
macros keep their names, and the others get different names that are not in use. -/
structure Refreshes (table : MacroTable) (names : List String) (m : Template) (body : Tree)
    (rename : String → String) : Prop where
  kept : ∀ x, table.isKept m x = true → rename x = x
  fresh : body.VariablesIn fun x => table.isKept m x = false → rename x ∉ names
  apart : body.VariablesIn fun x => body.VariablesIn fun y =>
    table.isKept m x = false → table.isKept m y = false → rename x = rename y → x = y

mutual

/-- What a tree in a scope stands for, where variables may stand for trees. Trees are compared
without their identities. -/
inductive Expands (table : MacroTable) (names : List String) :
    Option NodeId → (String → Option Tree) → Tree → Tree → Prop
  | argument {scope : Option NodeId} {env : String → Option Tree} {n : Node} {cs : List Tree}
    {a : Tree}
      (given : n.content.place? env = some a) : Expands table names scope env (.mk n cs) a
  | call {scope : Option NodeId} {env : String → Option Tree} {n : Node} {cs ds : List Tree}
      {m : Template} {body u : Tree} {rename : String → String} (free : n.content.place? env = none)
      (means : table.refer? scope n.content = some m) (isBody : m.body = some body)
      (fits : n.kind = .call → cs.length = m.formals.length)
      (args : ExpandsAll table names scope env cs ds)
      (refreshes : table.Refreshes names m body rename)
      (inner : Expands table names m.scope (argumentOf m ds) (body.renameVariables rename).anonymous
      u) : Expands table names scope env (.mk n cs) u
  | node {scope : Option NodeId} {env : String → Option Tree} {n : Node} {cs ds : List Tree}
      (free : n.content.place? env = none) (means : table.refer? scope n.content = none)
      (children : ExpandsAll table names scope env cs ds) :
      Expands table names scope env (.mk n cs) (.mk n ds)

inductive ExpandsAll (table : MacroTable) (names : List String) :
    Option NodeId → (String → Option Tree) → List Tree → List Tree → Prop
  | nil {scope : Option NodeId} {env : String → Option Tree} :
    ExpandsAll table names scope env [] []
  | cons {scope : Option NodeId} {env : String → Option Tree} {t u : Tree} {ts us : List Tree}
      (head : Expands table names scope env t u) (tail : ExpandsAll table names scope env ts us) :
      ExpandsAll table names scope env (t :: ts) (u :: us)

end

variable {table : MacroTable} {names : List String} {scope : Option NodeId}

theorem ExpandsAll.of_forall₂ {ds : List Tree}
    (each : List.Forall₂ (Expands table names scope env) cs ds) :
    ExpandsAll table names scope env cs ds := by
  induction each with
  | nil => exact .nil
  | cons head _ ih => exact .cons head ih

/-- A variable of the name stands in the body of a macro. -/
def Mentions (m : Template) (x : String) : Prop :=
  ∃ body, m.body = some body ∧ ∃ s ∈ body.visited, ∃ v, s.content = .var v ∧ v.name = x

/-- The expansion of a macro brings a parameter of the task along: its body mentions it, or the body
of a macro that it calls. -/
inductive Exposes (table : MacroTable) : Template → String → Prop
  | own {m : Template} {x : String} (mentions : Mentions m x)
    (param : x ∈ table.scopeParams m.scope)
      (plain : table.refer? m.scope (.use x) = none) (free : x ∉ m.formals) : Exposes table m x
  | through {m c : Template} {x : String} (calls : table.Calls m c) (exposes : Exposes table c x) :
      Exposes table m x

/-- The expansion of a tree in a scope brings a parameter of a task along. -/
def Brings (table : MacroTable) (scope : Option NodeId) (t : Tree) (x : String) : Prop :=
  ∃ s ∈ t.visited, ∃ m, table.refer? scope s.content = some m ∧ table.Exposes m x

/-- What the variables of a tree in a scope may stand for something: those in use that the expansion
does not bring along, and that mean no macro. -/
structure Admits (table : MacroTable) (names : List String) (scope : Option NodeId)
    (env : String → Option Tree) (t : Tree) : Prop where
  used : ∀ x, (env x).isSome → x ∈ names ∧ ¬ table.Brings scope t x
  plain : t.VariablesIn fun x => (env x).isSome → table.refer? scope (.use x) = none

/-- A tree is expanded to another: whatever the variables stand for, both come to the same, and the
expansion brings in new names and parameters of the task only. -/
structure Reflects (table : MacroTable) (names : List String) (scope : Option NodeId) (t u : Tree) :
    Prop where
  lexical : ∀ env, table.Admits names scope env t →
    Expands table names scope env t.anonymous (u.anonymous.subst env)
  contained : ∀ P : String → Prop, (∀ x, x ∉ names → P x) → (∀ x, table.Brings scope t x → P x) →
    t.VariablesIn (fun x => P x ∨ (table.refer? scope (.use x)).isSome) → u.VariablesIn P

structure CallReflects (table : MacroTable) (names : List String) (m : Template) (args : List Tree)
    (u : Tree) : Prop where
  lexical : ∃ body rename, m.body = some body ∧ table.Refreshes names m body rename ∧
    ∀ env, (∀ x, (env x).isSome → x ∈ names ∧ ¬ table.Exposes m x) →
      Expands table names m.scope (argumentOf m (args.map fun a => a.anonymous.subst env))
        (body.renameVariables rename).anonymous (u.anonymous.subst env)
  contained : ∀ P : String → Prop, (∀ x, x ∉ names → P x) → (∀ x, table.Exposes m x → P x) →
    (∀ a ∈ args, a.VariablesIn P) → u.VariablesIn P

/-- No parameter of a macro clashes with what its body means otherwise: the macros that it calls
bring no parameter of the task with the name of one along, and no variable of the name means a
macro. -/
structure Hygienic (table : MacroTable) : Prop where
  params : ∀ m ∈ table.declared, ∀ c x, table.Calls m c → table.Exposes c x → x ∉ m.formals
  macros : ∀ m ∈ table.declared,
    ∀ x ∈ m.formals, Mentions m x → table.refer? m.scope (.use x) = none

/-- The macros of a program whose names are in use. -/
structure InOrder (table : MacroTable) (names : List String) : Prop where
  bodied : table.Bodied
  complete : ∀ m ∈ table.declared, m.body.isSome = true
  named : ∀ m ∈ table.declared, m.name ∈ names
  formals : ∀ m ∈ table.declared, ∀ x ∈ m.formals, x ∈ names

theorem Brings.child {x : String} (sound : n.kind ≠ .error) (member : c ∈ cs)
    (brings : table.Brings scope c x) : table.Brings scope (.mk n cs) x := by
  obtain ⟨s, visits, m, means, exposes⟩ := brings
  exact ⟨s, mem_visited_child sound member visits, m, means, exposes⟩

theorem Admits.child (admits : table.Admits names scope env (.mk n cs)) (sound : n.kind ≠ .error)
    (member : c ∈ cs) : table.Admits names scope env c :=
  ⟨fun x given => ⟨(admits.used x given).1,
    fun brings => (admits.used x given).2 (brings.child sound member)⟩,
    ((variablesIn_mk sound).mp admits.plain).2 c member⟩

/-- What the children of a node stand for. -/
theorem Reflects.all (sound : n.kind ≠ .error)
    (each : List.Forall₂ (table.Reflects names scope) cs ds)
    (admits : table.Admits names scope env (.mk n cs)) :
    ExpandsAll table names scope env (cs.map anonymous)
      (ds.map fun d => d.anonymous.subst env) := by
  refine .of_forall₂ (forall₂_map_left_iff.mpr (forall₂_map_right_iff.mpr ?_))
  refine ((forall₂_and_left cs ds).mpr ⟨fun c member => admits.child sound member, each⟩).imp ?_
  exact fun c d both => both.2.lexical env both.1

/-- The variables of the children of a node. -/
theorem Reflects.contained_all (sound : n.kind ≠ .error)
    (each : List.Forall₂ (table.Reflects names scope) cs ds) {P : String → Prop}
    (new : ∀ x, x ∉ names → P x) (brings : ∀ x, table.Brings scope (.mk n cs) x → P x)
    (inside : ∀ c ∈ cs, c.VariablesIn fun x => P x ∨ (table.refer? scope (.use x)).isSome) :
    ∀ d ∈ ds, d.VariablesIn P := by
  intro d member
  obtain ⟨c, within, reflects⟩ := exists_of_forall₂ each member
  exact reflects.contained P new (fun x brought => brings x (brought.child sound within))
    (inside c within)

/-- A node that means no macro stands for itself. -/
theorem reflects_node (sound : n.kind ≠ .error) (means : table.refer? scope n.content = none)
    (each : List.Forall₂ (table.Reflects names scope) cs ds) :
    table.Reflects names scope (.mk n cs) (.mk n ds) := by
  refine ⟨fun env admits => ?_, fun P new brings inside => ?_⟩
  · rw [anonymous_mk, anonymous_mk,
      subst_mk (show Node.kind { n with id := 0 } ≠ .error from sound), map_map]
    cases given : n.content.place? env with
    | some a => exact .argument given
    | none => exact .node given means (Reflects.all sound each admits)
  · obtain ⟨here, below⟩ := (variablesIn_mk sound).mp inside
    refine (variablesIn_mk sound).mpr ⟨fun v content => ?_,
      Reflects.contained_all sound each new brings below⟩
    refine (here v content).resolve_right ?_
    rw [← refer?_var, ← content, means]
    simp

/-- A call stands for what the body of the macro stands for. -/
theorem reflects_call {u : Tree} (sound : n.kind ≠ .error)
    (means : table.refer? scope n.content = some m)
    (fits : n.kind = .call → ds.length = m.formals.length)
    (each : List.Forall₂ (table.Reflects names scope) cs ds)
    (reflects : table.CallReflects names m ds u) : table.Reflects names scope (.mk n cs) u := by
  have here : ∀ x, table.Exposes m x → table.Brings scope (.mk n cs) x :=
    fun x exposes => ⟨.mk n cs, mem_visited_self _, m, means, exposes⟩
  refine ⟨fun env admits => ?_, fun P new brings inside => ?_⟩
  · have free : n.content.place? env = none := by
      by_contra given
      obtain ⟨a, given⟩ := Option.ne_none_iff_exists'.mp given
      obtain ⟨v, content, found⟩ := place?_eq_some.mp given
      have none := ((variablesIn_mk sound).mp admits.plain).1 v content (by simp [found])
      rw [← refer?_var, ← content, means] at none
      cases none
    obtain ⟨body, rename, isBody, refreshes, inner⟩ := reflects.lexical
    have lengths : (cs.map anonymous).length = ds.length := by simp [each.length_eq]
    rw [anonymous_mk]
    refine .call free means isBody (fun isCall => lengths.trans (fits isCall))
      (Reflects.all sound each admits) refreshes (inner env fun x isGiven => ?_)
    obtain ⟨used, apart⟩ := admits.used x isGiven
    exact ⟨used, fun exposes => apart (here x exposes)⟩
  · exact reflects.contained P new (fun x exposes => brings x (here x exposes))
      (Reflects.contained_all sound each new brings ((variablesIn_mk sound).mp inside).2)

section Instance

variable {m : Template} {body copy : Tree} {s s' : Expander} {pairs : List (String × String)}
  {rename : String → String}

theorem Instance.refreshes (inst : table.Instance m body s pairs copy s')
    (supplied : s.Supplied names) : table.Refreshes names m body (renameBy pairs) := by
  have paired : body.VariablesIn
    fun x => table.isKept m x = false → (x, renameBy pairs x) ∈ pairs := by
    intro u visits v content isLocal
    refine mem_renameBy inst.distinct ?_
    rw [inst.locals, mem_locals]
    exact ⟨mem_variableNames visits content, isLocal⟩
  refine ⟨fun x => inst.kept,
    paired.imp fun x member isLocal => inst.outside supplied (member isLocal), ?_⟩
  refine paired.imp fun x first => paired.imp fun y second xLocal yLocal same => ?_
  exact inst.apart (first xLocal) (same ▸ second yLocal)

/-- The variables of an instance of a body are parameters, names of macros, or new; what is old is
mentioned in the body. -/
theorem variablesIn_instance (isBody : m.body = some body)
    (refreshes : table.Refreshes names m body rename)
    (isCopy : copy.anonymous = (body.renameVariables rename).anonymous) :
    copy.VariablesIn fun x => x ∉ names ∨ Mentions m x ∧ table.isKept m x = true := by
  refine throughout_instance isCopy (Q := fun content => ∀ v, content = .var v →
    v.name ∉ names ∨ Mentions m v.name ∧ table.isKept m v.name = true) ?_
  intro s inside w renamed
  by_cases isVar : ∃ v, s.content = .var v
  · obtain ⟨v, content⟩ := isVar
    rw [content, renameVariable] at renamed
    cases renamed
    cases kept : table.isKept m v.name with
    | true =>
      rw [refreshes.kept _ kept]
      exact .inr ⟨⟨body, isBody, s, inside, v, content, rfl⟩, kept⟩
    | false => exact .inl (refreshes.fresh s inside v content kept)
  · rw [renameVariable_other isVar] at renamed
    exact absurd ⟨w, renamed⟩ isVar

end Instance

end MacroTable

open MacroTable in
/-- What the expansion of a macro leaves stands for what its body stands for where the macro is
declared, when its parameters stand for the arguments. -/
theorem Expansion.Steps.reflects {table : MacroTable} {names : List String} {x : Expansion}
    (steps : x.Steps table)
    (inOrder : table.InOrder names) (hygienic : table.Hygienic) (supplied : x.start.Supplied names)
    (covers : x.template.formals.length ≤ x.call.children.length)
    (inner : table.Reflects names x.template.scope x.copy x.expanded) :
    table.CallReflects names x.template x.call.children x.result := by
  have inst := steps.isInstance
  have refreshes : table.Refreshes names x.template x.body (renameBy x.pairs) :=
    inst.refreshes supplied
  have old := variablesIn_instance steps.isBody refreshes inst.renamed
  have calls := inst.calls supplied inOrder.named steps.isBody
  have brought : ∀ a, table.Brings x.template.scope x.copy a →
      ∃ c, table.Calls x.template c ∧ table.Exposes c a := by
    rintro a ⟨u, visits, c, means, exposes⟩
    exact ⟨c, calls u visits c means, exposes⟩
  have inside : x.expanded.VariablesIn fun a =>
      a ∈ x.template.formals ∨ table.Exposes x.template a ∨ a ∉ names := by
    refine inner.contained _ (fun a new => .inr (.inr new)) (fun a brings => ?_) (old.imp ?_)
    · obtain ⟨c, callee, exposes⟩ := brought a brings
      exact .inr (.inl (.through callee exposes))
    · rintro a (new | ⟨mentions, kept⟩)
      · exact .inl (.inr (.inr new))
      · by_cases isFormal : a ∈ x.template.formals
        · exact .inl (.inl isFormal)
        cases means : table.refer? x.template.scope (.use a) with
        | some c => exact .inr rfl
        | none =>
          have isParam : a ∈ table.scopeParams x.template.scope := by
            simpa [isKept, isFormal, means] using kept
          exact .inl (.inr (.inl (.own mentions isParam means isFormal)))
  have first : ∀ a, ((argumentOf x.template x.call.children a).map anonymous).isSome ↔
      a ∈ x.template.formals := fun a => by
    rw [Option.isSome_map]
    exact argumentOf_isSome covers
  refine ⟨⟨x.body, _, steps.isBody, refreshes, fun env admits => ?_⟩, fun P new brings args => ?_⟩
  · have both : ∀ a, argumentOf x.template (x.call.children.map fun c => c.anonymous.subst env) a =
        ((argumentOf x.template x.call.children a).map anonymous).map (subst env) := fun a => by
      rw [Option.map_map, argumentOf_map]
      rfl
    have given : ∀ a, (argumentOf x.template
        (x.call.children.map fun c => c.anonymous.subst env) a).isSome ↔ a ∈ x.template.formals :=
      fun a => by rw [both, Option.isSome_map, first]
    have bound : table.Admits names x.template.scope
        (argumentOf x.template (x.call.children.map fun c => c.anonymous.subst env)) x.copy := by
      refine ⟨fun a isGiven => ⟨inOrder.formals _ steps.declared a ((given a).mp isGiven),
        fun brings => ?_⟩, old.imp fun a held isGiven => ?_⟩
      · obtain ⟨c, callee, exposes⟩ := brought a brings
        exact hygienic.params _ steps.declared c a callee exposes ((given a).mp isGiven)
      · have isFormal := (given a).mp isGiven
        rcases held with new | ⟨mentions, _⟩
        · exact absurd (inOrder.formals _ steps.declared a isFormal) new
        · exact hygienic.macros _ steps.declared a isFormal mentions
    have lexical := inner.lexical _ bound
    rw [inst.renamed] at lexical
    have merged : x.result.anonymous.subst env = x.expanded.anonymous.subst
        (argumentOf x.template (x.call.children.map fun c => c.anonymous.subst env)) := by
      rw [steps.result_eq.1]
      refine subst_subst ((variablesIn_anonymous.mpr inside).imp
        fun a held => ⟨both a, fun absent => ?_⟩)
      by_contra isGiven
      obtain ⟨used, apart⟩ := admits a (Option.isSome_iff_ne_none.mpr isGiven)
      rcases held with isFormal | exposes | new
      · simpa [absent] using (first a).mpr isFormal
      · exact apart exposes
      · exact new used
    rw [merged]
    exact lexical
  · rw [← variablesIn_anonymous, steps.result_eq.1]
    refine variablesIn_subst ((variablesIn_anonymous.mpr inside).imp fun a held =>
      ⟨fun c isGiven => ?_, fun absent => ?_⟩)
    · obtain ⟨arg, found, rfl⟩ := Option.map_eq_some_iff.mp isGiven
      exact variablesIn_anonymous.mpr (args arg (argumentOf_mem found))
    · rcases held with isFormal | exposes | isNew
      · simpa [absent] using (first a).mpr isFormal
      · exact brings a exposes
      · exact new a isNew

namespace MacroTable

variable {table : MacroTable} {names : List String} {scope : Option NodeId}

/-- A node whose place the body of a macro takes refers to the macro, and a call has an argument for
each parameter. -/
theorem expansion?_eq_some {marked : List NodeId} {t body : Tree}
    (reads : table.expansion? marked scope t = some (m, body)) :
    table.refer? scope t.content = some m ∧
      (t.kind = .call → t.children.length = m.formals.length) := by
  rw [expansion?] at reads
  split at reads
  · cases reads
  · next d means =>
    split at reads
    · cases reads
    · next fits =>
      obtain ⟨_, _, same⟩ := Option.map_eq_some_iff.mp reads
      obtain rfl := (Prod.mk.inj same).1
      refine ⟨means, fun isCall => by_contra fun differs => fits ?_⟩
      simp [isCall, differs]

/-- Expressions that are expanded without a report stand for what they are expanded to. -/
theorem Traces.reflects (inOrder : table.InOrder names) (hygienic : table.Hygienic)
    {ts us : List Tree}
    {s s' : Expander} {xs : List Expansion} (traces : Traces table [] scope ts s us s' xs)
    (quiet : s'.diagnostics.size ≤ s.diagnostics.size) (raw : ∀ t ∈ ts, t.IsRaw)
    (supplied : s.Supplied names) : List.Forall₂ (table.Reflects names scope) ts us := by
  induction traces with
  | nil => exact .nil
  | error error _ _ => exact absurd error (takes_sound (isRaw_mk.mp (raw _ mem_cons_self)).1)
  | node sound below none here rest ihBelow ihRest =>
    have le₁ := below.reports.size_le
    have le₂ := (expandNode_left here).2.2.size_le
    have le₃ := rest.reports.size_le
    rw [forall_mem_cons] at raw
    obtain ⟨rfl, means⟩ := expandNode_silent inOrder.complete none here (by omega)
    have each := ihBelow (by omega) (isRaw_mk.mp raw.1).2.2 supplied
    have grows := below.grows.1
    rw [← supply_left here] at grows
    exact .cons (reflects_node sound means each) (ihRest (by omega) raw.2 (supplied.mono grows))
  | @call _ n _ ds _ _ _ _ x _ _ _ sound below isCall means steps within rest ihBelow
    ihWithin ihRest =>
    have le₁ := below.reports.size_le
    have le₂ := within.reports.size_le
    have le₃ := rest.reports.size_le
    have named : x.named.diagnostics = x.start.diagnostics := by rw [steps.isInstance.frame]
    obtain ⟨_, supply, _, finish⟩ := steps.result_eq
    rw [named] at le₂ ihWithin
    rw [finish] at le₃ ihRest
    rw [forall_mem_cons] at raw
    have each := ihBelow (by omega) (isRaw_mk.mp raw.1).2.2 supplied
    have started := supplied.mono below.grows.1
    have copied := started.mono steps.isInstance.gives.grows
    obtain ⟨refers, fits⟩ := expansion?_eq_some means
    have covers : x.template.formals.length ≤ x.call.children.length := by
      rw [isCall]
      rcases refer?_eq_some.mp refers with ⟨f, content, _⟩ | ⟨_, _, _, empty⟩
      · exact Nat.le_of_eq (fits (congrArg Content.kind content)).symm
      · simp [empty]
    have expanded := ihWithin (by omega) (by simpa using steps.raw_copy inOrder.bodied) copied
    have reflects := steps.reflects inOrder hygienic started covers (forall₂_cons.mp expanded).1
    rw [isCall] at reflects
    have finished := copied.mono within.grows.1
    rw [Supplied, ← supply] at finished
    exact .cons (reflects_call sound refers fits each reflects) (ihRest (by omega) raw.2 finished)

end MacroTable

end TaskNet
