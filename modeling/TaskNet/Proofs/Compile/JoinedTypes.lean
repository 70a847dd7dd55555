import TaskNet.Proofs.Compile.Phases

/-!
Types of variables from their uses. The cases of a domain are worked on one after the other, and
none of them changes the types that facts and primitives declare. So the types of the variables of a
case without assignments are the joins of what its own uses declare, and a join that does not exist
is reported, whatever the other cases are and in whatever order the uses come.
-/

namespace TaskNet

open Infer List Program Tree Typing

variable {T : Prop} {p : Program} {functions : OverloadTable} {s s' : Typing} {session : Session}
variable {task branch pre list : Tree} {info : Guarded} {attrs : List Tree}

theorem Session.typeAt_typingStart (accounted : session.program.Accounted) {site : Site}
    (inside : site ∈ session.program.siteList) :
    session.typingStart.typeAt site.tree.id = site.tree.node.type := by
  have member := mem_nodes_of_mem_siteList inside
  have distinct : ((nodesList (session.program.root :: session.program.loose)).map Node.id).Nodup :=
    session.program.siteList_ids ▸ accounted.distinct
  have room : site.tree.id < (Array.replicate session.program.next TypeTag.any).size := by
    rw [Array.size_replicate]
    exact accounted.lt_next member
  exact congrArg (Option.getD · .any) (fillTable_present Node.id Node.type distinct member room)

/-- Parameters of facts and primitives have the types that are declared for them. -/
def Program.Declares (p : Program) (s : Typing) : Prop :=
  ∀ d ∈ p.siteList, d.isWorldFact = true ∨ d.isPrimitive = true → ∀ q ∈ d.params,
    s.typeAt q.id = q.node.type

namespace Infer

theorem declared_of_uses (declares : p.Declares s) {use : Tree × Tree}
    (member : use ∈ uses (.ofProgram functions p) pre list) :
    s.typeAt use.2.id = use.2.node.type := by
  rcases mem_append.mp member with isFact | isPrimitive
  · obtain ⟨t, _, passed⟩ := mem_flatMap.mp isFact
    obtain ⟨d, declared, accepted, zipped⟩ := mem_argumentsOf.mp passed
    exact declares d (mem_of_declaration? declared) (.inl accepted) _ (of_mem_zip zipped).2
  · obtain ⟨t, _, passed⟩ := mem_flatMap.mp isPrimitive
    obtain ⟨d, declared, accepted, zipped⟩ := mem_argumentsOf.mp passed
    exact declares d (mem_of_declaration? declared) (.inr accepted) _ (of_mem_zip zipped).2

/-- The work on a case leaves declared types alone. -/
theorem declares_of_others (accounted : p.Accounted) (member : (task, branch) ∈ p.root.branches)
    (parts : HasParts branch info attrs pre list) (declares : p.Declares s)
    (others : ∀ x, ¬ Touches task pre list x → s'.typeAt x = s.typeAt x) : p.Declares s' := by
  intro d inside group q isParam
  have atParam := child_mem_siteList inside (mem_childrenOf.mp isParam).1
  have param : p.OfParams q.id := ofParams_of_site inside isParam
  rw [others q.id, declares d inside group q isParam]
  rintro (⟨r, ofTask, same⟩ | ⟨t, visits, isVar, same⟩ | ⟨t, visits, isVar, same⟩)
  · -- a parameter has one node above it, which is a task here and a fact there
    obtain ⟨⟨above, atTask⟩, _⟩ := mem_siteList_branch member
    have site := child_mem_siteList atTask (mem_childrenOf.mp ofTask).1
    have one : task.node = d.tree.node :=
      Option.some.inj (congrArg Site.parent (accounted.unique site atParam same))
    have isTask : task.kind = .task := by
      obtain ⟨domain, _, below, _⟩ := mem_branches.mp member
      exact (mem_childrenOf.mp below).2
    have isFact : d.tree.kind = .fact := by
      rcases group with fact | fact <;> exact beq_iff_eq.mp (Bool.and_eq_true_iff.mp fact).1
    exact absurd (isTask.symm.trans ((congrArg Node.kind one).trans isFact)) (by decide)
  · exact not_ofParams accounted member pre (by simp [parts.children]) t visits isVar (same ▸ param)
  · exact not_ofParams accounted member list (by simp [parts.children]) t visits isVar
      (same ▸ param)

/-- A case without assignments in which the uses of a name have no join. -/
def LacksJoin (env : TypingContext) (branch : Tree) : Prop :=
  ∃ info attrs pre list, HasParts branch info attrs pre list ∧ pre.assignments = [] ∧
    ∃ name, joinedType env pre list name = .notAType

/-- A case whose variables have the joins of their uses as types, if it has no assignments. -/
def HasJoins (env : TypingContext) (s : Typing) (branch : Tree) : Prop :=
  ∀ info attrs pre list, HasParts branch info attrs pre list → pre.assignments = [] →
    ∀ t ∈ pre.visited ++ list.visited, ∀ v, t.content = .var v →
      s.typeAt t.id = joinedType env pre list v.name

theorem problems_of_recorded {added : List Diagnostic} (none : added = [])
    (recorded : s'.diagnostics.recorded = s.diagnostics.recorded ++ added) :
    s'.problems = s.problems := by
  rw [Typing.problems, Typing.problems, Collector.size, Collector.size, recorded, none, append_nil]

/-- A join that does not exist is reported, and without a report the variables of all cases without
assignments have the joins of their uses as types. -/
theorem inferBranches_joins (resolved : p.Resolved T) (concrete : functions.Concrete)
    {bs : List (Tree × Tree)} (listed : bs ⊆ p.root.branches)
    (apart : (bs.map Prod.snd).Pairwise Apart) :
    Runs T 0 (inferBranches (.ofProgram functions p) bs) fun s _ s' => p.Declares s →
      ∃ added, s'.diagnostics.recorded = s.diagnostics.recorded ++ added ∧
        ((∃ b ∈ bs, LacksJoin (.ofProgram functions p) b.2) →
          ∃ d ∈ added, d.problem = .failedToUnifyType) ∧
        (added = [] → s.types.size = p.next →
        ∀ b ∈ bs, HasJoins (.ofProgram functions p) s' b.2) := by
  have accounted := resolved.sound.accounted
  induction bs with
  | nil => exact .pure fun s _ => ⟨[], by simp, by simp, by simp⟩
  | cons b rest ih =>
    obtain ⟨task, branch⟩ := b
    have member : (task, branch) ∈ p.root.branches := listed (by simp)
    have fewer : rest ⊆ p.root.branches := fun c later => listed (by simp [later])
    obtain ⟨info, attrs, pre, list, resolution⟩ := resolved.branches task branch member
    have parts := resolution.toHasParts
    rw [map_cons, pairwise_cons] at apart
    have keeps : Yields T (inferBranches (.ofProgram functions p) rest) _ :=
      inferBranches_yields resolved concrete fewer apart.2
    rw [inferBranches]
    refine .seq (inferBranch_works concrete parts.content (resolution.workable accounted member))
      fun _ => Runs.imp (ih fewer apart.2) ?_
    rintro s' _ s'' ended later s first declares
    have others : ∀ x, ¬ Touches task pre list x → s'.typeAt x = s.typeAt x := fun x outside =>
      first.elim (fun refused => refused.others x fun own => outside (.inl own))
        fun works => works.others x outside
    obtain ⟨added', recorded', reports, joined⟩ :=
      later (declares_of_others accounted member parts declares others)
    rcases first with refused | works
    · obtain ⟨d, problem, recorded⟩ := refused.report
      refine ⟨[d] ++ added', ?_, fun _ => ⟨d, by simp, problem⟩, fun none => by simp at none⟩
      rw [recorded', recorded, append_assoc]
    · obtain ⟨added, recorded⟩ := works.grows
      have own := fun plain => works.joined plain fun use inside => declared_of_uses declares inside
      refine ⟨added ++ added', by rw [recorded', ← recorded, append_assoc], ?_, fun none size => ?_⟩
      · rintro ⟨c, inside, lacks⟩
        rcases mem_cons.mp inside with rfl | further
        · obtain ⟨_, _, _, _, parts', plain, name, lost⟩ := lacks
          obtain ⟨rfl, rfl, rfl, rfl⟩ := parts.unique parts'
          exact absurd lost ((own plain).exist name)
        · obtain ⟨d, reported, problem⟩ := reports ⟨c, further, lacks⟩
          exact ⟨d, mem_append_right _ reported, problem⟩
      · obtain ⟨here, there⟩ := append_eq_nil_iff.mp none
        have silent := problems_of_recorded here recorded.symm
        have run := (Runs.of_eq keeps (Nat.zero_le _) ended).2
          (problems_of_recorded there recorded')
        refine forall_mem_cons.mpr
          ⟨?_, joined there ((works.infers silent).advances.size.trans size)⟩
        intro _ _ _ _ parts' plain t visits v content
        obtain ⟨rfl, rfl, rfl, rfl⟩ := parts.unique parts'
        -- the cases after it have no node of this one
        have part : ∃ c ∈ branch.children, t ∈ c.visited :=
          (mem_append.mp visits).elim (fun inPre => ⟨pre, resolution.precond_mem, inPre⟩)
            fun inList => ⟨list, resolution.list_mem, inList⟩
        obtain ⟨c, child, below⟩ := part
        rw [run.1.others t.id (not_ofCases accounted member apart.1 c child t below
          (kind_of_var content))]
        refine (own plain).stored (fun u inside => ?_) t visits v content
        rw [size]
        exact (mem_append.mp inside).elim
          (lt_next_of_visited accounted member resolution.precond_mem)
          (lt_next_of_visited accounted member resolution.list_mem)

end Infer

theorem Program.Resolved.with_targets {T' : Prop} (resolved : p.Resolved T)
    (targets : T' → ∀ b ∈ p.root.branches, ∀ t ∈ b.2.visited, TargetsVariable t) :
    p.Resolved T' := by
  refine ⟨resolved.sound, fun task branch member => ?_, resolved.facts, resolved.callable⟩
  obtain ⟨info, attrs, pre, list, resolution⟩ := resolved.branches task branch member
  refine ⟨info, attrs, pre, list, { resolution with targets := fun u visits holds => ?_ }⟩
  have sound : branch.kind ≠ .error := by simp [resolution.kind]
  exact targets holds _ member u (mem_visited_child sound resolution.precond_mem visits)

/-- The local phase of inference, which gives types to the variables of every case. -/
def Session.localPhase (functions : OverloadTable) (session : Session) :
    Except Fault Unit × Typing :=
  (inferBranches (.ofProgram functions session.program) session.program.root.branches).run
    session.typingStart

/-- What the local phase does for a case without assignments in a domain whose names are resolved.
It runs to its end when the targets of all assignments of the domain are variables. When it does, it
reports a failed join if the uses of a variable of the case have no join, and if it reports nothing
at all, every occurrence of a variable in the precondition and in the task list has the join of the
uses of its name as its type. That join is the same for every order of the uses. -/
theorem local_types_joined {opts : Options} {src : Source}
    (resolves : Resolves opts src session) (member : (task, branch) ∈ session.program.root.branches)
    (parts : HasParts branch info attrs pre list)
    (plain : ∀ u ∈ pre.visited, u.content ≠ .op .assign) :
    let env := TypingContext.ofProgram opts.functions session.program
    let phase := session.localPhase opts.functions
    ((∀ b ∈ session.program.root.branches, ∀ t ∈ b.2.visited, TargetsVariable t) →
    phase.1 = .ok ()) ∧ (phase.1 = .ok () → ((∃ name, joinedType env pre list name = .notAType) →
        ∃ d ∈ phase.2.diagnostics.recorded, d.problem = .failedToUnifyType) ∧
      (phase.2.diagnostics.recorded = [] → ∀ u ∈ pre.visited ++ list.visited,
      ∀ v, u.content = .var v →
        phase.2.typeAt u.id = joinedType env pre list v.name)) ∧
    ∀ name (types : List TypeTag), types.Perm (usedTypes env pre list name) →
      types.foldl TypeTag.unify .any = joinedType env pre list name := by
  have resolved : session.program.Resolved (∀ b ∈ session.program.root.branches,
    ∀ t ∈ b.2.visited, TargetsVariable t) := resolves.resolved.with_targets id
  have accounted := resolved.sound.accounted
  have none : pre.assignments = [] := eq_nil_iff_forall_not_mem.mpr fun u inside =>
    plain u (mem_assignments inside).1 (mem_assignments inside).2
  have declares : session.program.Declares session.typingStart := fun d inside _ q isParam =>
    Session.typeAt_typingStart accounted (child_mem_siteList inside (mem_childrenOf.mp isParam).1)
  have start : session.typingStart.diagnostics.recorded = [] := length_eq_zero_iff.mp resolves.2
  have runs := inferBranches_joins resolved opts.functions_concrete (List.Subset.refl _)
    accounted.branches_apart
  refine ⟨fun targets => ?_, fun ended => ?_, fun name types => joinedType_of_perm⟩
  · obtain ⟨_, _, ran, _⟩ := runs.exists_ok targets session.typingStart (Nat.zero_le _)
    exact congrArg Prod.fst ran
  · obtain ⟨added, recorded, reports, joined⟩ :=
      Runs.of_eq runs (Nat.zero_le _) (Prod.ext ended rfl) declares
    rw [start, nil_append] at recorded
    refine ⟨fun lost => ?_, fun quiet => ?_⟩
    · exact recorded ▸ reports ⟨_, member, info, attrs, pre, list, parts, none, lost⟩
    · exact joined (recorded.symm.trans quiet) session.types_size_typingStart _ member info attrs
        pre list parts none

/-- Whether a domain has a case without assignments whose uses of `x` have a certain join. -/
def joinsTo (type : TypeTag) (session : Session) : Bool :=
  session.program.root.branches.any fun b => match b.2.children with
    | [pre, list] => pre.visited.all (fun u => u.kind != .op .assign) &&
        joinedType (.ofProgram .intrinsics session.program) pre list "x" == type
    | _ => false

theorem exists_of_joinsTo {type : TypeTag} (resolved : session.program.Resolved T)
    (passes : joinsTo type session = true) :
    ∃ task branch info attrs pre list, (task, branch) ∈ session.program.root.branches ∧
      HasParts branch info attrs pre list ∧ (∀ u ∈ pre.visited, u.content ≠ .op .assign) ∧
      joinedType (.ofProgram .intrinsics session.program) pre list "x" = type := by
  obtain ⟨⟨task, branch⟩, member, passes⟩ := any_eq_true.mp passes
  obtain ⟨info, attrs, pre, list, resolution⟩ := resolved.branches task branch member
  dsimp only at passes
  split at passes
  · next pre' list' children =>
    have same : attrs ++ [pre, list] = [] ++ [pre', list'] :=
      resolution.children.symm.trans children
    cases (append_inj' same rfl).2
    simp only [Bool.and_eq_true, all_eq_true, beq_iff_eq, bne_iff_ne] at passes
    refine ⟨task, branch, info, attrs, pre, list, member, resolution.toHasParts,
      fun u inside content => ?_, passes.2⟩
    exact passes.1 u inside (congrArg Content.kind content)
  · cases passes

/-- A variable that is passed to facts and to a primitive of different numeric types. -/
def widenedVariable : Source :=
  ⟨"join", Text.bytesOf "fact { f(int8) g(float) } prim { p(int32) }
    domain d { task t() { case f(x) & ~g(x) -> [p(x)] } }"⟩

theorem local_types_joined_widened :
    ∃ session task branch info attrs pre list, Resolves ⟨0, []⟩ widenedVariable session ∧
      (task, branch) ∈ session.program.root.branches ∧ HasParts branch info attrs pre list ∧
      ∀ u ∈ pre.visited ++ list.visited, ∀ v, u.content = .var v → v.name = "x" →
        (session.localPhase .intrinsics).2.typeAt u.id = .float := by
  have passes : resolvesTo ⟨0, []⟩ widenedVariable
      (fun s => joinsTo .float s && (s.localPhase .intrinsics).1.toOption.any (fun _ => true) &&
        (s.localPhase .intrinsics).2.diagnostics.recorded.isEmpty) = true := by decide +kernel
  obtain ⟨session, resolves, passes⟩ := exists_of_resolvesTo passes
  simp only [Bool.and_eq_true, List.isEmpty_iff] at passes
  obtain ⟨⟨passes, ended⟩, quiet⟩ := passes
  obtain ⟨_, ended, _⟩ := exists_of_toOption_any ended
  obtain ⟨task, branch, info, attrs, pre, list, member, parts, plain, float⟩ :=
    exists_of_joinsTo resolves.resolved passes
  refine ⟨session, task, branch, info, attrs, pre, list, resolves, member, parts,
    fun u inside v content named => ?_⟩
  have known : Options.functions ⟨0, []⟩ =
    .intrinsics := by rw [Options.functions, disableIntrinsics]
  have types := (local_types_joined resolves member parts plain).2.1
  rw [known] at types
  rw [← float, ← named]
  exact (types ended).2 quiet u inside v content

/-- A target of an assignment that is no variable ends the phase before it gets to the other case.
-/
def numberAssigned : Source :=
  ⟨"stop", Text.bytesOf "fact \x7b f(int8) g(vec3) \x7d domain d \x7b
    macro k() = 5 task t() \x7b case ~(k = 3) -> [] case f(x) & g(x) -> [] \x7d \x7d"⟩

theorem local_types_stopped :
    ∃ session, Resolves ⟨0, []⟩ numberAssigned session ∧
      (∃ task branch info attrs pre list, (task, branch) ∈ session.program.root.branches ∧
        HasParts branch info attrs pre list ∧ (∀ u ∈ pre.visited, u.content ≠ .op .assign) ∧
        joinedType (.ofProgram .intrinsics session.program) pre list "x" = .notAType) ∧
      (session.localPhase .intrinsics).1 ≠ .ok () ∧
      (session.localPhase .intrinsics).2.diagnostics.recorded = [] := by
  have passes : resolvesTo ⟨0, []⟩ numberAssigned
      (fun s => joinsTo .notAType s && (s.localPhase .intrinsics).1.toOption.isNone &&
        (s.localPhase .intrinsics).2.diagnostics.recorded.isEmpty) = true := by decide +kernel
  obtain ⟨session, resolves, passes⟩ := exists_of_resolvesTo passes
  simp only [Bool.and_eq_true, List.isEmpty_iff] at passes
  obtain ⟨⟨passes, stopped⟩, quiet⟩ := passes
  refine ⟨session, resolves, exists_of_joinsTo resolves.resolved passes, fun ended => ?_, quiet⟩
  rw [ended] at stopped
  cases stopped

end TaskNet
