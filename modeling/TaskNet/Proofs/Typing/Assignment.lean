import TaskNet.Proofs.Typing.Uses

/-!
Assignments of one case. The steps after the walks over assignments only widen slots, and among
those of the precondition they move the ones of variables that are passed to primitives. A parameter
takes at least the type of its slot. A slot that has got a type got it from a fact, from a primitive
or from an assignment, and there from an atom of the right side.
-/

namespace TaskNet

open List Slots Tree Typing

variable {info : Guarded} {name : String}

namespace Infer

variable {T : Prop} {env : TypingContext}
variable {σ : String → TypeTag} {s s' : Typing}

def PassesToPrimitive (env : TypingContext) (list : Tree) (name : String) : Prop :=
  ∃ e ∈ list.children, ∃ d, env.declaration? e.content = some d ∧ d.isPrimitive = true ∧
    ∃ a ∈ e.children, ∃ v, a.content = .var v ∧ v.name = name

/-- An assignment to a variable that has at least the type of the right side, unless that reads a
variable which is passed to a primitive. -/
def AssignmentFits (env : TypingContext) (list : Tree) (σ : String → TypeTag) (t : Tree) : Prop :=
  ∀ target value, t.children = [target, value] → ∃ v, target.content = .var v ∧
    ((∀ u ∈ value.visited, ∀ w, u.content = .var w → ¬ PassesToPrimitive env list w.name) →
      WidensTo env σ value v.name)

/-- A name of a case gets a type: from a fact of the precondition or from a primitive of the task
list that a variable of the name is passed to, or from an assignment, if an atom of the right side
is no variable or a variable of a name that gets a type. -/
inductive GetsType (env : TypingContext) (pre list : Tree) : String → Prop
  | fact {u a : Tree} {d : Site} {v : Variable} (visits : u ∈ pre.visited)
      (declared : env.declaration? u.content = some d) (isFact : d.isWorldFact = true)
      (passed : a ∈ u.children) (content : a.content = .var v) : GetsType env pre list v.name
  | primitive {name : String} (passes : PassesToPrimitive env list name) :
    GetsType env pre list name
  | assigned {t target value w : Tree} {v : Variable} (assignment : t ∈ pre.assignments)
      (children : t.children = [target, value]) (content : target.content = .var v)
      (atom : w ∈ value.atoms) (source : ∀ x, w.content = .var x → GetsType env pre list x.name) :
      GetsType env pre list v.name

/-- The types of the names of a case: those of the variables that the case binds, at most those of
the parameters of the task, and its assignments fit. A name that is bound gets its type from
somewhere. -/
structure NamesTyped (env : TypingContext) (task pre list : Tree) (σ : String → TypeTag)
    (s : Typing) : Prop where
  bound : ∀ t ∈ pre.visited,
    ∀ v, t.content = .var v → v.definition = none → s.typeAt t.id = σ v.name
  params : ∀ q ∈ task.childrenOf .param, (σ q.name).Below (s.typeAt q.id)
  fits : ∀ t ∈ pre.assignments, AssignmentFits env list σ t
  sources : ∀ t ∈ pre.visited,
    ∀ v, t.content = .var v → v.binding = true → GetsType env pre list v.name

theorem NamesTyped.keep {task pre list : Tree} (typed : NamesTyped env task pre list σ s)
    (same : ∀ t ∈ pre.visited, ∀ v, t.content = .var v → v.definition = none →
      s'.typeAt t.id = s.typeAt t.id)
    (rises : ∀ q ∈ task.childrenOf .param, (s.typeAt q.id).Below (s'.typeAt q.id)) :
    NamesTyped env task pre list σ s' :=
  ⟨fun t member v content free =>
    (same t member v content free).trans (typed.bound t member v content free),
    fun q isParam => (typed.params q isParam).trans (rises q isParam), typed.fits, typed.sources⟩

/-- The slots of a case stand for the variables of its tables, first those of the precondition and
then those of the task list. -/
structure SlotsOf (info : Guarded) (before after : Slots) : Prop where
  named : before.names = info.precondVars.map VarEntry.name
  namedAfter : after.names = info.taskVars.map VarEntry.name
  apart : before.base + before.names.length ≤ after.base

/-- The states between the steps of the work on the slots of a case: uses in facts, assignments,
uses in primitives, what both halves of the case share, and parameters. -/
structure SlotSteps (env : TypingContext) (info : Guarded) (pre list : Tree) (before after : Slots)
    (s s₁ s₂ s₃ s₄ s₅ : Typing) : Prop where
  facts : Gathers before.base before (pre.visited.flatMap (argumentsOf env Site.isWorldFact)) s s₁
  walks : SlotsSettle env before.base before pre.assignments (4 * before.names.length + 1) s₁ s₂
  primitives : Gathers before.base after (list.children.flatMap (argumentsOf env Site.isPrimitive))
    s₂ s₃
  shares : Shares before.base before after.base info.taskVars s₃ s₄
  tags : s₅.tags = s₄.tags
  rises : ∀ x, (s₄.typeAt x).Below (s₅.typeAt x)

namespace SlotSteps

variable {info : Guarded} {pre list : Tree} {before after : Slots} {s s₁ s₂ s₃ s₄ s₅ : Typing}
variable (steps : SlotSteps env info pre list before after s s₁ s₂ s₃ s₄ s₅)
include steps

theorem joins : Joins before.base (fun _ => True) s s₄ :=
  (((steps.facts.mono fun _ _ => trivial).trans (steps.walks.mono fun _ _ => trivial)).trans
    (steps.primitives.mono fun _ _ => trivial)).trans (steps.shares.mono fun _ _ => trivial)

theorem lifts : Lifts (fun _ => True) s s₄ :=
  steps.joins.lifts

theorem typeAt_below (x : NodeId) : (s.typeAt x).Below (s₅.typeAt x) := by
  have same : s₄.typeAt x = s.typeAt x := by rw [typeAt, typeAt, steps.lifts.types]
  exact same ▸ steps.rises x

theorem typeIn_eq (slots : Slots) (name : String) :
    slots.typeIn s₅ name = slots.typeIn s₄ name := by
  rw [Slots.typeIn, Slots.typeIn]
  split
  · rw [slotAt, slotAt, steps.tags]
  · rfl

variable (slots : SlotsOf info before after)
include slots

/-- The slot of a variable in a task list is unknown unless the variable is passed to a primitive.
-/
theorem unknown (fresh : ∀ i, after.base ≤ i → s.slotAt i = .any)
    (free : ¬ PassesToPrimitive env list name) {k : Nat} {e : VarEntry}
    (entry : info.taskVars[k]? = some e)
    (same : e.name = name) : s₃.slotAt (after.base + k) = .any := by
  have apart := slots.apart
  rw [steps.primitives.lifts.others, steps.walks.lifts.others, steps.facts.lifts.others]
  · exact fresh _ (by omega)
  · rintro ⟨use, _, v, _, found⟩
    have := (find?_lt found).2
    omega
  · rintro ⟨other, found⟩
    have := (find?_lt found).2
    omega
  · rintro ⟨use, member, v, content, found⟩
    obtain ⟨t, child, passed⟩ := mem_flatMap.mp member
    obtain ⟨d, declared, primitive, zipped⟩ := mem_argumentsOf.mp passed
    refine free ⟨t, child, d, declared, primitive, use.1, (of_mem_zip zipped).1, v, content, ?_⟩
    obtain ⟨k', place, named⟩ := find?_eq_some found
    obtain rfl : k' = k := by omega
    rw [slots.namedAfter, getElem?_map, entry] at named
    exact (Option.some.inj named).symm.trans same

/-- After the assignments are settled, the slot of a variable stays unless the variable is passed to
a primitive. -/
theorem stays (fresh : ∀ i, after.base ≤ i → s.slotAt i = .any)
    (free : ¬ PassesToPrimitive env list name) : before.typeIn s₅ name = before.typeIn s₂ name := by
  have apart := slots.apart
  rw [steps.typeIn_eq, Slots.typeIn, Slots.typeIn]
  split
  · next j found =>
    rw [steps.shares.stays name j found fun k e => steps.unknown slots fresh free,
      steps.primitives.lifts.others]
    rintro ⟨use, _, v, _, other⟩
    have low := (find?_lt other).1
    have high := (find?_lt found).2
    omega
  · rfl

/-- The assignments fit in the end. -/
theorem fits (work : Workable T env info pre list)
    (fresh : ∀ i, after.base ≤ i → s.slotAt i = .any) :
    ∀ t ∈ pre.assignments, AssignmentFits env list (before.typeIn s₅) t := by
  have apart := slots.apart
  intro t member target value children
  obtain ⟨v, isVar, widens⟩ := steps.walks.fits (by omega) t member
    target value children
  refine ⟨v, isVar, fun free => (widens ?_).mono ?_ fun u visits w content => ?_⟩
  · obtain ⟨visits, content⟩ := mem_assignments member
    have sound : t.kind ≠ .error := by
      rw [show t.kind = .op .assign from congrArg Content.kind content]
      simp
    rw [slots.named]
    exact work.listed target (visited_trans visits
      (mem_visited_child sound (by simp [children]) (mem_visited_self target))) v isVar
  · rw [steps.typeIn_eq]
    exact (steps.primitives.lifts.typeIn before v.name).trans
      (steps.shares.lifts.typeIn before v.name)
  · exact steps.stays slots fresh (free u visits w content)

/-- A slot of known type got it from a fact, an assignment or a primitive. -/
theorem getsType (fresh : ∀ i, before.base ≤ i → s.slotAt i = .any) :
    KnownOnly before (GetsType env pre list) s₅ := by
  have apart := slots.apart
  intro name known
  by_cases passes : PassesToPrimitive env list name
  · exact .primitive passes
  · rw [steps.stays slots (fun i high => fresh i (by omega)) passes] at known
    refine steps.walks.known _ (fun t member target value v children content ⟨w, atom, source⟩ =>
      .assigned member children content atom source) (fun other given => ?_) name known
    -- the slots of names that no fact is passed are as they were at the start
    rw [Slots.typeIn] at given
    split at given
    · next i found =>
      refine Classical.byContradiction fun nothing => given ?_
      rw [steps.facts.lifts.others, fresh i (find?_lt found).1]
      rintro ⟨use, member, v, content, place⟩
      obtain ⟨t, visits, passed⟩ := mem_flatMap.mp member
      obtain ⟨d, declared, isFact, zipped⟩ := mem_argumentsOf.mp passed
      rw [← find?_inj place found] at nothing
      exact nothing (.fact visits declared isFact (of_mem_zip zipped).1 content)
    · exact absurd rfl given

/-- Without assignments, the slots take part in the joins of uses only. -/
theorem slotJoins (work : Workable T env info pre list)
    (fresh : ∀ i, before.base ≤ i → s.slotAt i = .any) (none : pre.assignments = [])
    (declared : ∀ use ∈ uses env pre list, s.typeAt use.2.id = use.2.node.type) :
    SlotJoins env pre list before.base before after info.taskVars s s₁ s₃ s₄ := by
  obtain rfl := steps.walks.plain none
  refine ⟨steps.facts, steps.primitives, steps.shares, slots.namedAfter, slots.apart, fresh,
    declared, fun use member v content => ?_, fun use member v content => ?_⟩
  · obtain ⟨t, visits, passed⟩ := mem_flatMap.mp member
    rw [slots.named]
    exact work.listed _ (visited_trans visits (visited_of_argumentsOf passed)) v content
  · obtain ⟨t, child, passed⟩ := mem_flatMap.mp member
    rw [slots.namedAfter]
    exact work.listedAfter _ (mem_visited_child work.sound child (visited_of_argumentsOf passed))
      v content

end SlotSteps

/-- What the work on a case leaves behind: types of other nodes than its variables only rise, and
its names have types. -/
def TypesNames (env : TypingContext) (task pre list : Tree) (s s' : Typing) : Prop :=
  (∀ x, ¬ OfVariables pre.visited x → ¬ OfVariables list.visited x →
    (s.typeAt x).Below (s'.typeAt x)) ∧
  ((∀ t ∈ pre.visited, t.id < s.types.size) →
    (∀ q ∈ task.childrenOf .param, q.id < s.types.size ∧ ¬ OfVariables pre.visited q.id ∧
      ¬ OfVariables list.visited q.id) →
    ∃ σ, NamesTyped env task pre list σ s')

/-- What the work on a case comes to when nothing is reported. -/
structure Infers (env : TypingContext) (I : Typing → Prop) (task pre list : Tree) (s s' : Typing) :
    Prop where
  advances : Advances I (Touches task pre list) s s'
  holds : I s → (∀ t ∈ pre.visited, t.id < s.types.size) →
    ∃ σ, (∀ name, (σ name).Known) ∧ Holds σ pre.visited s'
  names : TypesNames env task pre list s s'

/-- The uses of a case without assignments have joins, and these are the types of its variables. -/
structure CaseJoined (env : TypingContext) (pre list : Tree) (s s' : Typing) : Prop where
  exist : ∀ name, joinedType env pre list name ≠ .notAType
  stored : (∀ t ∈ pre.visited ++ list.visited, t.id < s.types.size) →
    ∀ t ∈ pre.visited ++ list.visited,
    ∀ v, t.content = .var v → s'.typeAt t.id = joinedType env pre list v.name

/-- What the work on a case comes to when all joins exist. -/
structure Works (env : TypingContext) (I : Typing → Prop) (task pre list : Tree) (s s' : Typing) :
    Prop where
  grows : s.diagnostics.recorded <+: s'.diagnostics.recorded
  others : ∀ x, ¬ Touches task pre list x → s'.typeAt x = s.typeAt x
  infers : s'.problems = s.problems → Infers env I task pre list s s'
  joined : pre.assignments = [] → (∀ use ∈ uses env pre list, s.typeAt use.2.id = use.2.node.type) →
    CaseJoined env pre list s s'

/-- The identities of the parameters of a task. -/
def OfTask (task : Tree) (x : NodeId) : Prop :=
  ∃ q ∈ task.childrenOf .param, q.id = x

/-- The work on the slots of a case. -/
theorem inferSlots_works (concrete : env.functions.Concrete) {task pre list : Tree}
    (work : Workable T env info pre list) {before after : Slots}
    (slots : SlotsOf info before after) :
    Concludes T (after.base + after.names.length) (OfTask task)
        (inferSlots env task info before after)
        fun s s' => (∀ i, before.base ≤ i → s.slotAt i = .any) →
      Works env (Sane before.base) task pre list s s' := by
  have apart := slots.apart
  have above : before.base ≤ before.base := Nat.le_refl _
  have higher : before.base ≤ after.base := by omega
  have first : before.base + before.names.length ≤ after.base + after.names.length := by omega
  have all : after.base + after.names.length ≤ after.base + after.names.length := Nat.le_refl _
  rw [inferSlots, work.precond, work.tasks]
  refine (joinCalls_gathers Site.isWorldFact above first _).andThen <|
    (settleAssignments_settles concrete above first work.assignments _).andThen <|
    (joinCalls_gathers Site.isPrimitive higher all _).andThen <|
    (joinShared_shares above work.shared apart (by simp [slots.namedAfter])).andThen <|
    (joinParams_joins above first fun q member => ⟨q, member, rfl⟩).andThen ?_
  refine .seq (storePrecond_stores above first work.distinct) fun _ =>
    (storeTasks_stores higher all work.distinctAfter).imp ?_
  rintro s₆ _ s₇ _ ⟨tasks, silentTasks⟩ s₅ ⟨pres, given⟩
  refine .inr ?_
  rintro s₄ proceeds₅ ⟨typed, tags, rises, params⟩ s₃ proceeds₄ shares s₂ proceeds₃ primitives s₁
    proceeds₂ walks s proceeds₁ facts fresh
  have steps : SlotSteps env info pre list before after s s₁ s₂ s₃ s₄ s₅ :=
    ⟨facts, walks, primitives, shares, tags, rises⟩
  have silent : s₅.diagnostics = s.diagnostics :=
    ((((proceeds₁.trans proceeds₂).trans proceeds₃).trans proceeds₄).trans proceeds₅).silent
  have lifted : Advances (Sane before.base) (Touches task pre list) s s₅ :=
    .trans (steps.lifts.advances steps.joins.keeps) (typed.mono fun _ inside => .inl inside)
  have done : Advances (Sane before.base) (Touches task pre list) s s₇ :=
    (lifted.trans (pres.advances.mono fun _ inside => .inr (.inl inside))).trans
      (tasks.advances.mono fun _ inside => .inr (.inr inside))
  have stored : (∀ t ∈ pre.visited, t.id < s.types.size) →
    ∀ t ∈ pre.visited, ∀ v, t.content = .var v →
      s₇.typeAt t.id = before.typeIn s₅ v.name := by
    intro bounds t member v content
    -- the task list has no node of the precondition
    have outside : ¬ OfVariables list.visited t.id := by
      rintro ⟨u, inside, _, same⟩
      exact work.apart t member u inside same.symm
    rw [tasks.advances.others t.id outside]
    exact pres.stored (fun r inside => by rw [lifted.size]; exact bounds r inside) t
      member v content
  have kept : ∀ x, ¬ OfVariables pre.visited x → ¬ OfVariables list.visited x →
      s₇.typeAt x = s₅.typeAt x := fun x notPre notList =>
    (tasks.advances.others x notList).trans (pres.advances.others x notPre)
  refine ⟨silent ▸ pres.grows.trans tasks.grows, done.others, fun quiet => ?_,
    fun none declared => ?_⟩
  · -- without a report, the binding occurrences of the precondition have got types
    have bound := given (by
      rw [Typing.problems, Typing.problems, ← silentTasks, silent]
      exact quiet)
    refine ⟨done, fun sane bounds => ⟨before.typeIn s₅, typeIn_known above (lifted.keeps sane),
        fun t member v content => ⟨stored bounds t member v content, bound t member v content⟩⟩,
      fun x notPre notList => ?_, fun bounds apartParams => ⟨before.typeIn s₅,
        fun t member v content _ => stored bounds t member v content, fun q isParam => ?_,
        steps.fits slots work fun i high => fresh i (by omega),
        fun t member v content binding => ?_⟩⟩
    · rw [kept x notPre notList]
      exact steps.typeAt_below x
    · obtain ⟨inside, notPre, notList⟩ := apartParams q isParam
      rw [kept q.id notPre notList, steps.typeIn_eq]
      exact params q isParam (by rw [steps.lifts.types]; exact inside)
    · exact steps.getsType slots fresh v.name (bound t member v content binding)
  · have joins := steps.slotJoins slots work fresh none declared
    refine ⟨joins.joinedType_ne, fun bounds t member v content => ?_⟩
    rcases mem_append.mp member with inPre | inList
    · rw [stored (fun u inside => bounds u (mem_append_left _ inside)) t inPre v content,
        steps.typeIn_eq]
      obtain ⟨j, found⟩ := exists_find? (slots.named ▸ work.listed t inPre v content)
      rw [typeIn_of_find? found, joins.slotAt_eq found]
    · have bounds : ∀ u ∈ list.visited, u.id < s₆.types.size := fun u inside => by
        rw [pres.advances.size, lifted.size]
        exact bounds u (mem_append_right _ inside)
      obtain ⟨m, found⟩ := exists_find? (slots.namedAfter ▸ work.listedAfter t inList v content)
      rw [tasks.stored bounds t inList v content, typeIn_of_find? found, slotAt, pres.tags, tags]
      exact joins.slotAt_eq_after found

/-- Work in slots that are new to it. -/
theorem withSlots_runs {work : Nat → Infer Unit} {room : Nat} {k : Nat → Nat}
    {R : Nat → Typing → Typing → Prop}
    (works : ∀ mark, Runs T (k mark) (work mark) fun s _ s' => R mark s s')
    (fits : ∀ mark, k mark ≤ mark + room) :
    Runs T 0 (withSlots room work) fun s _ s' => ∃ s₁,
      R s.tags.size { s with tags := s.tags.pushMany room .any } s₁ ∧
        s' = { s₁ with tags := s₁.tags.shrinkTo s.tags.size } := by
  intro s _
  have pushed : (s.tags.pushMany room .any).size = s.tags.size + room := by
    simp [Stack.size, Stack.pushMany]
  have run := works s.tags.size { s with tags := s.tags.pushMany room .any }
    (pushed ▸ fits s.tags.size)
  have unfolded : (withSlots room work).run s =
      ((work s.tags.size >>= fun _ => releaseSlots s.tags.size) : Infer Unit).run
        { s with tags := s.tags.pushMany room .any } := rfl
  rw [unfolded, run_bind]
  rcases ran : (work s.tags.size).run { s with tags := s.tags.pushMany room .any } with ⟨e | a, s₁⟩
  · rw [ran] at run
    exact run
  · rw [ran] at run
    have many : s₁.tags.size = s.tags.size + room := run.1.trans pushed
    dsimp only
    rw [releaseSlots_run (by omega)]
    refine ⟨?_, s₁, run.2, rfl⟩
    simp only [Stack.size, Stack.shrinkTo, Array.size_extract] at many ⊢
    omega

theorem inferBranch_works (concrete : env.functions.Concrete) {task branch pre list : Tree}
    (content : branch.content = .branch info) (work : Workable T env info pre list) :
    Concludes T 0 (OfTask task) (inferBranch env task branch)
      (Works env TypesKnown task pre list) := by
  rw [inferBranch, content]
  refine Runs.imp (withSlots_runs (fun mark => inferSlots_works concrete work ⟨rfl, rfl, ?_⟩)
    fun mark => ?_) ?_
  · exact Nat.le_refl _
  · exact Nat.le_of_eq (Nat.add_assoc ..)
  rintro s _ _ _ ⟨s₁, run, rfl⟩
  refine run.imp (fun refused => ⟨refused.report, refused.others⟩) fun run => ?_
  obtain ⟨grows, others, infers, joined⟩ := run fun i high => slotAt_pushMany _ high
  refine ⟨grows, others, fun quiet => ?_, fun none declared => ?_⟩
  · obtain ⟨run, holds, rises, names⟩ := infers quiet
    refine ⟨⟨run.size, run.signatures, run.reported, run.others, fun known => ?_⟩,
      fun known bounds => holds (sane_pushMany known _) bounds, rises,
      fun bounds apart => (names bounds apart).imp fun σ typed =>
        ⟨typed.bound, typed.params, typed.fits, typed.sources⟩⟩
    exact (run.keeps (sane_pushMany known _)).1
  · obtain ⟨exist, stored⟩ := joined none declared
    exact ⟨exist, stored⟩

/-- When nothing is reported, the variables of a case get the types of their names. -/
theorem inferBranch_infers (concrete : env.functions.Concrete) {task branch pre list : Tree}
    (content : branch.content = .branch info) (work : Workable T env info pre list) :
    Yields T (inferBranch env task branch)
      fun s _ s' => Infers env TypesKnown task pre list s s' := by
  refine Runs.imp (inferBranch_works concrete content work) fun s _ s' _ run => ?_
  rcases run with refused | works
  · have more := refused.problems_lt
    exact ⟨by omega, fun quiet => by omega⟩
  · exact ⟨works.grows.length_le, works.infers⟩

end Infer

end TaskNet
