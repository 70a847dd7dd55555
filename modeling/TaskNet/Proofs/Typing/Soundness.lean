import TaskNet.Proofs.Typing.Anchor
import TaskNet.Proofs.Typing.Assignment

/-!
Inference on a whole program. It gives a result when the targets of assignments are variables, and
when it reports nothing, all parameters of tasks and all expressions of cases have concrete types,
the variables of a case have the types of their names, and assignments and the arguments of task
calls fit.
-/

namespace TaskNet

open Infer List NameScope Program Tree Typing

variable {bs : List (Tree × Tree)} {b : Tree × Tree}

namespace Infer

variable {T : Prop} {p : Program} {functions : OverloadTable}
variable {s s' : Typing} {branch task pre list q : Tree} {info : Guarded} {attrs : List Tree}

/-- The variables of the precondition of a case have the types of their names. -/
def CaseHolds (s : Typing) (branch : Tree) : Prop :=
  ∃ info attrs pre list, HasParts branch info attrs pre list ∧
    ∃ σ : String → TypeTag, (∀ name, (σ name).Known) ∧ Holds σ pre.visited s

def OfCases (p : Program) (branches : List (Tree × Tree)) (x : NodeId) : Prop :=
  p.OfParams x ∨ ∃ b ∈ branches, ∃ n ∈ b.2.nodes, n.id = x

/-- Types of variables stay when other types change. -/
theorem CaseHolds.keep {I : Typing → Prop} {S : NodeId → Prop} (holds : CaseHolds s branch)
    (advances : Advances I S s s')
    (outside : ∀ c ∈ branch.children, ∀ t ∈ c.visited, t.kind = .var → ¬ S t.id) :
    CaseHolds s' branch := by
  obtain ⟨info, attrs, pre, list, parts, σ, known, holds⟩ := holds
  refine ⟨info, attrs, pre, list, parts, σ, known, fun t member v content => ?_⟩
  rw [advances.others t.id (outside pre (by simp [parts.children]) t member (kind_of_var content))]
  exact holds t member v content

/-- A variable of a case is not a parameter. -/
theorem not_ofParams (accounted : p.Accounted)
    (member : (task, branch) ∈ p.root.branches) :
    ∀ c ∈ branch.children, ∀ t ∈ c.visited, t.kind = .var → ¬ p.OfParams t.id := by
  rintro c part t visits isVar ⟨s, inside, kind, same⟩
  obtain ⟨above, site⟩ : ∃ above, ⟨t, above⟩ ∈ Tree.siteList (some branch.node) c :=
    mem_siteList_visited visits
  have site := (mem_siteList_branch member).2 _ (mem_siteList_below part site)
  obtain rfl := accounted.unique inside site same
  exact absurd (kind.symm.trans isVar) (by decide)

theorem lt_next_of_visited (accounted : p.Accounted)
    (member : (task, branch) ∈ p.root.branches) {c t : Tree} (part : c ∈ branch.children)
    (visits : t ∈ c.visited) : t.id < p.next := by
  obtain ⟨above, site⟩ : ∃ above, ⟨t, above⟩ ∈ Tree.siteList (some branch.node) c :=
    mem_siteList_visited visits
  exact accounted.lt_next (mem_nodes_of_mem_siteList
    ((mem_siteList_branch member).2 _ (mem_siteList_below part site)))

theorem touches_ofCases (member : (task, branch) ∈ p.root.branches)
    (parts : HasParts branch info attrs pre list)
    (listed : (task, branch) ∈ bs) {x : NodeId} (touches : Touches task pre list x) :
    OfCases p bs x := by
  obtain ⟨⟨parent, atTask⟩, _⟩ := mem_siteList_branch member
  rcases touches with ⟨q, isParam, rfl⟩ | ⟨t, visits, _, rfl⟩ | ⟨t, visits, _, rfl⟩
  · exact .inl (ofParams_of_site atTask isParam)
  · exact .inr ⟨_, listed, t.node, nodes_child_subset (by simp [parts.children])
      (node_mem_nodes visits), rfl⟩
  · exact .inr ⟨_, listed, t.node, nodes_child_subset (by simp [parts.children])
      (node_mem_nodes visits), rfl⟩

/-- Other cases have no node of a case, and a variable is not a parameter. -/
theorem not_ofCases (accounted : p.Accounted)
    (member : (task, branch) ∈ p.root.branches) {rest : List (Tree × Tree)}
    (apart : ∀ b ∈ rest.map Prod.snd, branch.Apart b) :
    ∀ c ∈ branch.children, ∀ t ∈ c.visited, t.kind = .var → ¬ OfCases p rest t.id := by
  rintro c part t visits isVar (param | ⟨d, further, n, below, same⟩)
  · exact not_ofParams accounted member c part t visits isVar param
  · exact apart d.2 (mem_map_of_mem further) t.node
      (nodes_child_subset part (node_mem_nodes visits)) n below same.symm

/-- The names of a case have types, and its assignments fit. -/
def CaseTyped (env : TypingContext) (s : Typing) (b : Tree × Tree) : Prop :=
  ∃ info attrs pre list, HasParts b.2 info attrs pre list ∧ ∃ σ, NamesTyped env b.1 pre list σ s

/-- When nothing is reported, the variables of every case get the types of their names, the types of
parameters rise and the assignments of every case fit. -/
theorem inferBranches_yields (resolved : p.Resolved T) (concrete : functions.Concrete)
    (listed : bs ⊆ p.root.branches)
    (apart : (bs.map Prod.snd).Pairwise Apart) :
    Yields T (inferBranches (.ofProgram functions p) bs) fun s _ s' =>
      Advances TypesKnown (OfCases p bs) s s' ∧
      (∀ x, p.OfParams x → (s.typeAt x).Below (s'.typeAt x)) ∧
        (s.types.size = p.next → ∀ b ∈ bs, (s.TypesKnown → CaseHolds s' b.2) ∧
          CaseTyped (.ofProgram functions p) s' b) := by
  have accounted := resolved.sound.accounted
  induction bs with
  | nil => exact .pure fun s => ⟨.refl s, fun _ _ => .refl _, by simp⟩
  | cons b rest ih =>
    obtain ⟨task, branch⟩ := b
    have member : (task, branch) ∈ p.root.branches := listed (by simp)
    obtain ⟨⟨parent, atTask⟩, _⟩ := mem_siteList_branch member
    obtain ⟨info, attrs, pre, list, resolution⟩ := resolved.branches task branch member
    have parts := resolution.toHasParts
    have notVar : ∀ {x}, p.OfParams x → ∀ c ∈ branch.children, ¬ OfVariables c.visited x := by
      rintro x param c part ⟨t, visits, isVar, rfl⟩
      exact not_ofParams accounted member c part t visits isVar param
    rw [map_cons, pairwise_cons] at apart
    rw [inferBranches]
    refine .seq (inferBranch_infers concrete parts.content (resolution.workable accounted member))
      fun _ => (ih (fun c later => listed (by simp [later])) apart.2).imp ?_
    rintro s' _ s'' ⟨later, risesOn, others⟩ s ⟨first, holds, rises, names⟩
    have tail : Advances TypesKnown (OfCases p ((task, branch) :: rest)) s' s'' :=
      later.mono fun x inside =>
      inside.imp_right fun ⟨c, further, below⟩ => ⟨c, by simp [further], below⟩
    refine ⟨(first.mono fun x => touches_ofCases member parts (by simp)).trans tail,
      fun x param => ?_, fun size c inside => ?_⟩
    · exact (rises x (notVar param pre resolution.precond_mem)
        (notVar param list resolution.list_mem)).trans (risesOn x param)
    rcases mem_cons.mp inside with rfl | further
    · have room : ∀ t ∈ pre.visited, t.id < s.types.size := fun t visits =>
        size ▸ lt_next_of_visited accounted member resolution.precond_mem visits
      have kept := not_ofCases accounted member apart.1
      refine ⟨fun known => ?_, ?_⟩
      · have here : CaseHolds s' branch := ⟨info, attrs, pre, list, parts, holds known room⟩
        exact here.keep later kept
      · obtain ⟨σ, typed⟩ := names room fun q isParam => by
          have param := ofParams_of_site atTask isParam
          refine ⟨?_, notVar param pre resolution.precond_mem,
            notVar param list resolution.list_mem⟩
          rw [size]
          exact accounted.lt_next (mem_nodes_of_mem_siteList
            (child_mem_siteList atTask (mem_childrenOf.mp isParam).1))
        exact ⟨info, attrs, pre, list, parts, σ, typed.keep (fun t visits v content _ =>
          later.others t.id (kept pre resolution.precond_mem t visits (kind_of_var content)))
          fun q isParam =>
            risesOn q.id (ofParams_of_site atTask isParam)⟩
    · obtain ⟨caseHolds, caseTyped⟩ := others (first.size.trans size) c further
      exact ⟨fun known => caseHolds (first.keeps known), caseTyped⟩

/-- A program whose types are inferred. -/
structure Inferred (functions : OverloadTable) (p : Program) (s : Typing) : Prop where
  typeSize : s.types.size = p.next
  params : ∀ q ∈ taskParams p.root, (s.typeAt q.id).isConcrete = true
  settled : ∀ b ∈ p.root.branches, ∀ t ∈ b.2.expressions, Done (.ofProgram functions p) s t
  names : ∀ b ∈ p.root.branches, ∃ τ : String → TypeTag, ∀ t ∈ b.2.expressions, ∀ u ∈ t.visited,
    ∀ v, u.content = .var v → s.typeAt u.id = τ v.name
  fits : AllFit (.ofProgram functions p) p.root.branches s.typeAt
  typed : ∀ b ∈ p.root.branches, CaseTyped (.ofProgram functions p) s b

theorem settleBranches_settles (resolved : p.Resolved T) (concrete : functions.Concrete)
    (listed : bs ⊆ p.root.branches)
    (apart : (bs.map Prod.snd).Pairwise Apart) :
    Yields T (settleBranches (.ofProgram functions p) bs)
      (SettlesList (.ofProgram functions p) p.Anchor p.next
        (bs.flatMap fun b => b.2.expressions)) := by
  have accounted := resolved.sound.accounted
  induction bs with
  | nil => exact .pure fun s => ⟨[], .refl s, fun _ => ⟨rfl, by simp⟩⟩
  | cons b rest ih =>
    obtain ⟨task, branch⟩ := b
    have member : (task, branch) ∈ p.root.branches := listed (by simp)
    obtain ⟨info, attrs, pre, list, resolution⟩ := resolved.branches task branch member
    have work : Workable T (.ofProgram functions p) info pre list :=
      resolution.workable accounted member
    rw [map_cons, pairwise_cons] at apart
    rw [settleBranches, flatMap_cons]
    refine .seq (settleBranch_settles concrete resolution.toHasParts work.precond work.tasks
      resolution.precondTerm (fun t inside => resolved.ready member resolution inside)
      (accounted.branch_distinct member)) fun _ =>
        (ih (fun c later => listed (by simp [later])) apart.2).imp ?_
    rintro s' _ s'' ⟨qs, later⟩ s ⟨rs, first⟩
    refine ⟨_, first.append later (fun t inside => ?_) fun t inside u below => ?_⟩
    · have ready : Ready (.ofProgram functions p) p.Anchor p.next t := by
        rcases mem_append.mp inside with here | below
        · exact resolved.ready member resolution here
        · obtain ⟨c, further, expression⟩ := mem_flatMap.mp below
          exact resolved.ready_of_mem (listed (by simp [further])) expression
      exact ready.grounded
    · obtain ⟨c, further, expression⟩ := mem_flatMap.mp below
      exact (apart.1 c.2 (mem_map_of_mem further)).within (nodes_subset_of_expression inside)
        (nodes_subset_of_expression expression)

theorem problems_yields : Yields T problems fun s k s' => s' = s ∧ k = s.problems :=
  .look fun _ => rfl

/-- What holds before types are settled. -/
structure Anchored (functions : OverloadTable) (p : Program) (s : Typing) : Prop where
  known : s.TypesKnown
  typeSize : s.types.size = p.next
  overloadSize : s.signatures.size = p.next
  params : ∀ q ∈ taskParams p.root, s.typeAt q.id ≠ .any
  cases : ∀ b ∈ p.root.branches, CaseHolds s b.2
  fits : AllFit (.ofProgram functions p) p.root.branches s.typeAt
  typed : ∀ b ∈ p.root.branches, CaseTyped (.ofProgram functions p) s b

theorem mem_taskParams (member : (task, branch) ∈ p.root.branches)
    (isParam : q ∈ task.childrenOf .param) : q ∈ taskParams p.root := by
  obtain ⟨d, found, isTask, _⟩ := mem_branches.mp member
  rw [taskParams, found]
  exact mem_flatMap.mpr ⟨task, isTask, isParam⟩

theorem ofParams_of_taskParam (isParam : q ∈ taskParams p.root) : p.OfParams q.id := by
  rw [taskParams] at isParam
  split at isParam
  · next d found =>
    obtain ⟨task, isTask, member⟩ := mem_flatMap.mp isParam
    exact ofParams_of_site
      (mem_siteList_block found (mem_childrenOf.mp isTask).1) member
  · cases isParam

theorem anchor_of_taskParam (isParam : q ∈ taskParams p.root) : p.Anchor q.id := by
  obtain ⟨s, inside, kind, same⟩ := ofParams_of_taskParam isParam
  exact ⟨s, inside, same, .inl kind⟩

/-- In each case the definitions of variables of one name have one type, and it is concrete. -/
theorem Anchored.definitions (anchored : Anchored functions p s) (resolved : p.Resolved T)
    (member : b ∈ p.root.branches) :
    ∃ τ : String → TypeTag, ∀ t ∈ b.2.expressions, ∀ u ∈ t.visited, ∀ v, u.content = .var v →
      s.typeAt (v.definition.getD u.id) = τ v.name ∧ (τ v.name).isConcrete = true := by
  obtain ⟨task, branch⟩ := b
  obtain ⟨info, attrs, pre, list, resolution⟩ := resolved.branches task branch member
  obtain ⟨_, _, _, _, parts, σ, known, holds⟩ := anchored.cases _ member
  obtain ⟨rfl, rfl, rfl, rfl⟩ := parts.unique resolution.toHasParts
  refine ⟨fun name => ((NameScope.ofTask p.declarations task).param? name).elim (σ name) s.typeAt,
    fun t inside u visits v content => ?_⟩
  rcases resolution.defined inside visits content with
    param | ⟨free, b, announced, same, w, isVar, name, binds, _⟩
  · obtain ⟨q, isParam, _, same⟩ := mem_of_param? param
    dsimp only
    rw [param, Option.elim_some]
    refine ⟨rfl, (anchored.known _).concrete ?_⟩
    rw [← same]
    exact anchored.params q (mem_taskParams member isParam)
  · obtain ⟨type, given⟩ := holds b announced w isVar
    have name : w.name = v.name := name
    have same : b.id = v.definition.getD u.id := same
    dsimp only
    rw [free, Option.elim_none, ← same, type, name]
    exact ⟨rfl, (known _).concrete (name ▸ given binds)⟩

/-- The task calls of a case are the entries of its task list. -/
theorem callsOf_eq
    (resolution : Resolution T (.ofTask p.declarations task) branch info attrs pre list)
    (accounted : p.Accounted) (member : (task, branch) ∈ p.root.branches) :
    callsOf (.ofProgram functions p) branch = list.children := by
  rw [callsOf, taskListOf, resolution.content]
  dsimp only
  rw [(resolution.workable accounted member).tasks]

/-- Arguments fit by the types of anchors only. -/
theorem AllFit.keep (resolved : p.Resolved T) (anchors : ∀ x, p.Anchor x → s'.typeAt x = s.typeAt x)
    (fits : AllFit (.ofProgram functions p) p.root.branches s.typeAt) :
    AllFit (.ofProgram functions p) p.root.branches s'.typeAt := by
  rintro ⟨task, branch⟩ member call entry d declared isTask pair zipped
  obtain ⟨info, attrs, pre, list, resolution⟩ := resolved.branches task branch member
  obtain ⟨arg, param⟩ := of_mem_zip zipped
  have expression : call ∈ branch.expressions := by
    rw [callsOf_eq resolution resolved.sound.accounted member] at entry
    exact resolution.mem_expressions.mpr (.inr (.inr entry))
  have ready : Ready (.ofProgram functions p) p.Anchor p.next call :=
    resolved.ready member resolution expression
  have isAnchor : p.Anchor pair.2.id := by
    obtain ⟨below, kind⟩ := mem_childrenOf.mp param
    exact ⟨_, child_mem_siteList (mem_of_declaration? declared) below, rfl, .inl kind⟩
  have type : typeFrom (.ofProgram functions p) s'.typeAt pair.1 =
      typeFrom (.ofProgram functions p) s.typeAt pair.1 := by
    refine typeFrom_congr (ready.term.below arg) fun u visits v content => anchors _ ?_
    have inside := mem_visited_child (takes_sound ready.term.here) arg visits
    exact (ready.grounded u inside).defined v content
  have before := fits _ member call entry d declared isTask pair zipped
  refine ⟨?_, fun v c content found kind => ?_⟩
  · rw [type, anchors _ isAnchor]
    exact before.joins
  · obtain ⟨x, _, site⟩ := Option.bind_eq_some_iff.mp found
    rw [anchors _ isAnchor, anchors _ ⟨c, (mem_of_find? site).1, rfl, .inl kind⟩]
    exact before.caller v c content found kind

/-- The types of the names of a case are those of anchors. -/
theorem CaseTyped.keep (member : b ∈ p.root.branches)
    (anchors : ∀ x, p.Anchor x → s'.typeAt x = s.typeAt x)
    (typed : CaseTyped (.ofProgram functions p) s b) : CaseTyped (.ofProgram functions p) s' b := by
  obtain ⟨info, attrs, pre, list, parts, σ, typed⟩ := typed
  obtain ⟨⟨parent, atTask⟩, sites⟩ := mem_siteList_branch member
  refine ⟨info, attrs, pre, list, parts, σ, typed.keep (fun t visits v content free => ?_)
    fun q isParam => ?_⟩
  · obtain ⟨above, site⟩ : ∃ above, ⟨t, above⟩ ∈ Tree.siteList (some b.2.node) pre :=
      mem_siteList_visited visits
    exact anchors t.id ⟨_, sites _ (mem_siteList_below (by simp [parts.children]) site), rfl,
      .inr ⟨v, content, free⟩⟩
  · obtain ⟨below, kind⟩ := mem_childrenOf.mp isParam
    rw [anchors q.id ⟨_, child_mem_siteList atTask below, rfl, .inl kind⟩]
    exact .refl _

theorem Anchored.settle {s₁ : Typing} (anchored : Anchored functions p s) (resolved : p.Resolved T)
    {world : List Tree} (first : SettlesList (.ofProgram functions p) p.Anchor p.next world s () s₁)
    (second : SettlesList (.ofProgram functions p) p.Anchor p.next
      (p.root.branches.flatMap fun b => b.2.expressions) s₁ () s') : Inferred functions p s' := by
  obtain ⟨_, before, _⟩ := first
  obtain ⟨rs, after, done⟩ := second
  have anchors : ∀ x, p.Anchor x → s'.typeAt x = s.typeAt x := fun x anchor =>
    (after.types x (.inl anchor)).trans (before.types x (.inl anchor))
  have anchor : ∀ b ∈ p.root.branches, ∀ t ∈ b.2.expressions, ∀ u ∈ t.visited, ∀ v,
      u.content = .var v → p.Anchor (v.definition.getD u.id) := fun b member t inside u visits =>
    have ready : Ready (.ofProgram functions p) p.Anchor p.next t :=
      resolved.ready_of_mem member inside
    (ready.grounded u visits).defined
  have firm : Firm p.next (p.root.branches.flatMap fun b => b.2.expressions) s₁ := by
    refine ⟨fun t inside u visits v content => ?_, before.typeSize.trans anchored.typeSize,
      before.overloadSize.trans anchored.overloadSize⟩
    obtain ⟨b, member, expression⟩ := mem_flatMap.mp inside
    obtain ⟨τ, types⟩ := anchored.definitions resolved member
    obtain ⟨type, concrete⟩ := types t expression u visits v content
    rw [before.types _ (.inl (anchor b member t expression u visits v content)), type]
    exact concrete
  have settled : ∀ b ∈ p.root.branches, ∀ t ∈ b.2.expressions, Done (.ofProgram functions p) s' t :=
    fun b member t inside => (done firm).2 t (mem_flatMap.mpr ⟨b, member, inside⟩)
  refine ⟨after.typeSize.trans firm.typeSize, fun q isParam => ?_, settled, fun b member => ?_,
    anchored.fits.keep resolved anchors,
    fun b member => (anchored.typed b member).keep member anchors⟩
  · rw [anchors q.id (anchor_of_taskParam isParam)]
    exact (anchored.known _).concrete (anchored.params q isParam)
  · obtain ⟨τ, types⟩ := anchored.definitions resolved member
    refine ⟨τ, fun t inside u visits v content => ?_⟩
    have here : Settled (.ofProgram functions p) s' u :=
        (settled b member t inside).settled u visits fun same c d isCall => by
      rw [← same, content] at isCall
      cases isCall
    rw [here.var v content, anchors _ (anchor b member t inside u visits v content)]
    exact (types t inside u visits v content).1

/-- The stages of an inference that reports nothing: cases one by one, types passed between tasks,
types taken from task lists, types passed on again, and types settled. -/
structure Stages (env : TypingContext) (root : Tree) (s s₁ s₂ s₃ s₄ s₅ s₆ : Typing) : Prop where
  cases : Ran (inferBranches env root.branches) s () s₁
  first : ∃ k, Ran (propagate env root.branches) s₁ k s₂
  seeds : Ran (seed env root.branches) s₂ () s₃
  second : ∃ k, Ran (propagate env root.branches) s₃ k s₄
  params : Ran (reportUntyped (taskParams root)) s₄ () s₄
  world : Ran (settleAttributes env (worldAttributes root)) s₄ () s₅
  settles : Ran (settleBranches env root.branches) s₅ () s₆

theorem listed_of_resolved (resolved : p.Resolved T) :
    Listed (.ofProgram functions p) p.root.branches := by
  rintro ⟨task, branch⟩ member t entry
  obtain ⟨info, attrs, pre, list, resolution⟩ := resolved.branches task branch member
  rw [callsOf_eq resolution resolved.sound.accounted member] at entry
  exact resolution.entryTerms t entry

theorem inferAll_stages (resolved : p.Resolved T) (concrete : functions.Concrete) :
    Yields T (inferAll (.ofProgram functions p) p.root) fun s _ s₆ => ∃ s₁ s₂ s₃ s₄ s₅,
      Stages (.ofProgram functions p) p.root s s₁ s₂ s₃ s₄ s₅ s₆ := by
  have accounted := resolved.sound.accounted
  have apart := accounted.branches_apart
  have listed : Listed (.ofProgram functions p) p.root.branches := listed_of_resolved resolved
  have world : (∀ t ∈ (worldAttributes p.root).flatMap Tree.children,
      Ready (.ofProgram functions p) p.Anchor p.next t) ∧ _ := resolved.sound.ready_world
  rw [inferAll]
  refine .seq problems_yields fun start => ?_
  refine .seq (inferBranches_yields resolved concrete (List.Subset.refl _) apart).ran fun _ => ?_
  refine .seq problems_yields fun found => ?_
  split
  · next more =>
    refine .pure ?_
    rintro s₂ _ ⟨rfl, rfl⟩ s₁ ⟨_, same⟩ s ⟨rfl, rfl⟩
    omega
  · refine .seq (propagate_yields accounted concrete listed).ran fun first => ?_
    refine .seq (seed_yields p.root.branches).ran fun _ => ?_
    refine .seq (propagate_yields accounted concrete listed).ran fun second => ?_
    refine .seq (R := fun s a s' => s' = s ∧ Ran (reportUntyped (taskParams p.root)) s a s')
      (((reportUntyped_yields (taskParams p.root)).imp fun _ _ _ run => run.1).both
        (reportUntyped_yields (taskParams p.root)).ran) fun _ => ?_
    refine .seq problems_yields fun reported => ?_
    split
    · next more =>
      refine .pure ?_
      rintro _ _ ⟨rfl, rfl⟩ _ ⟨rfl, _⟩ _ ⟨_, same₃⟩ _ ⟨_, same₂⟩ _ ⟨_, same₁⟩ _ ⟨rfl, rfl⟩ _
        ⟨_, same⟩ _ ⟨rfl, rfl⟩
      omega
    · refine .seq (settleAttributes_settles concrete world.1 world.2).ran fun _ =>
        .seq (settleBranches_settles resolved concrete (List.Subset.refl _) apart).ran
        fun _ => .pure ?_
      rintro s₆ s₅ settles _ world _ ⟨rfl, _⟩ s₄ ⟨rfl, params⟩ s₃ second s₂ seeds s₁ first _
        ⟨rfl, _⟩ s cases _ ⟨rfl, _⟩
      exact ⟨_, _, _, _, _, cases, ⟨_, first⟩, seeds, ⟨_, second⟩, params, world, settles⟩

section Stages

variable {s s₁ s₂ s₃ s₄ s₅ s₆ : Typing}

/-- What settling the types of a whole program comes to. -/
theorem Stages.settled (stages : Stages (.ofProgram functions p) p.root s s₁ s₂ s₃ s₄ s₅ s₆)
    (resolved : p.Resolved T) (concrete : functions.Concrete) :
    SettlesList (.ofProgram functions p) p.Anchor p.next
      ((worldAttributes p.root).flatMap Tree.children)
        s₄ () s₅ ∧
      SettlesList (.ofProgram functions p) p.Anchor p.next
        (p.root.branches.flatMap fun b => b.2.expressions) s₅ () s₆ := by
  have apart := resolved.sound.accounted.branches_apart
  have world : (∀ t ∈ (worldAttributes p.root).flatMap Tree.children,
      Ready (.ofProgram functions p) p.Anchor p.next t) ∧ _ := resolved.sound.ready_world
  exact ⟨(settleAttributes_settles (T := T) concrete world.1 world.2).of_ran stages.world,
    (settleBranches_settles resolved concrete (List.Subset.refl _) apart).of_ran stages.settles⟩

theorem Stages.inferred (stages : Stages (.ofProgram functions p) p.root s s₁ s₂ s₃ s₄ s₅ s₆)
    (resolved : p.Resolved T) (concrete : functions.Concrete) (known : s.TypesKnown)
    (size : s.types.size = p.next) (room : s.signatures.size = p.next) (none : s.reported = []) :
    Inferred functions p s₆ := by
  have accounted := resolved.sound.accounted
  have apart := accounted.branches_apart
  have listed : Listed (.ofProgram functions p) p.root.branches := listed_of_resolved resolved
  obtain ⟨started, _, cases⟩ :=
    (inferBranches_yields resolved concrete (List.Subset.refl _) apart).of_ran stages.cases
  obtain ⟨_, firstRan⟩ := stages.first
  obtain ⟨_, secondRan⟩ := stages.second
  obtain ⟨first, rises₁, _⟩ := (propagate_yields (T := T) accounted concrete listed).of_ran firstRan
  obtain ⟨second, rises₂⟩ := (seed_yields (T := T) (p := p) p.root.branches).of_ran stages.seeds
  obtain ⟨third, rises₃, fits⟩ := (propagate_yields (T := T) accounted concrete listed).of_ran
    secondRan
  obtain ⟨_, params⟩ := (reportUntyped_yields (T := T) (taskParams p.root)).of_ran stages.params
  have passed := (first.trans second).trans third
  have before := started.trans (S := OfCases p p.root.branches)
    ((first.trans second).mono fun x param => .inl param)
  refine Anchored.settle ⟨passed.keeps (started.keeps known), ?_, ?_, params, fun b member => ?_,
    fits (before.size.trans size) (before.reported.trans none), fun b member => ?_⟩ resolved
    (stages.settled resolved concrete).1 (stages.settled resolved concrete).2
  · exact passed.size.trans (started.size.trans size)
  · rw [passed.signatures, started.signatures]
    exact room
  · exact ((cases size b member).1 known).keep passed (not_ofParams accounted member)
  · obtain ⟨info, attrs, pre, list, parts, σ, typed⟩ := (cases size b member).2
    refine ⟨info, attrs, pre, list, parts, σ,
      typed.keep (fun t visits v content _ => ?_) fun q _ => ?_⟩
    · exact passed.others t.id (not_ofParams accounted member pre (by simp [parts.children]) t
        visits (congrArg Content.kind content))
    · exact ((rises₁ q.id).trans (rises₂ q.id)).trans (rises₃ q.id)

end Stages

theorem inferAll_yields (resolved : p.Resolved T) (concrete : functions.Concrete) :
    Yields T (inferAll (.ofProgram functions p) p.root) fun s _ s' =>
      s.TypesKnown → s.types.size = p.next → s.signatures.size = p.next → s.reported = [] →
        Inferred functions p s' := by
  refine (inferAll_stages resolved concrete).imp ?_
  rintro s _ s₆ ⟨s₁, s₂, s₃, s₄, s₅, stages⟩ known size room none
  exact stages.inferred resolved concrete known size room none

/-- An argument of a task call is not the call itself, so all of it is settled. -/
theorem Inferred.argument (inferred : Inferred functions p s) (resolved : p.Resolved T)
    {pre list : Tree} {info : Guarded} {attrs : List Tree}
    (member : (task, branch) ∈ p.root.branches)
    (resolution : Resolution T (.ofTask p.declarations task) branch info attrs pre list)
    {e a : Tree} (entry : e ∈ list.children) (arg : a ∈ e.children) :
    a.Throughout (Settled (.ofProgram functions p) s) := by
  intro u visits
  have expression : e ∈ branch.expressions := resolution.mem_expressions.mpr (.inr (.inr entry))
  have ready : Ready (.ofProgram functions p) p.Anchor p.next e :=
    resolved.ready member resolution expression
  have inside := mem_visited_child (takes_sound ready.term.here) arg visits
  refine (inferred.settled _ member e expression).settled u inside fun same => ?_
  exact absurd (congrArg Tree.id same) (ready.distinct.own arg visits)

end Infer

end TaskNet
