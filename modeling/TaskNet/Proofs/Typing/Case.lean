import TaskNet.Proofs.Typing.Settle

/-!
Settling the cases of a program.
-/

namespace TaskNet

open Infer List Tree Typing

/-- The expressions of a case: the arguments of its attributes, its precondition and the entries of
its task list. -/
def Tree.expressions (branch : Tree) : List Tree :=
  branch.children.flatMap fun c => if c.kind.isExpression then [c] else c.children

theorem Tree.nodes_subset_of_part {c t : Tree}
    (member : t ∈ if c.kind.isExpression then [c] else c.children) : t.nodes ⊆ c.nodes := by
  split at member
  · rw [mem_singleton.mp member]
    exact fun _ inside => inside
  · exact nodes_child_subset member

theorem Tree.nodes_subset_of_expression {branch t : Tree} (member : t ∈ branch.expressions) :
    t.nodes ⊆ branch.nodes := by
  obtain ⟨c, part, inside⟩ := mem_flatMap.mp member
  exact fun n below => nodes_child_subset part (nodes_subset_of_part inside below)

/-- The expressions of a case share no identity. -/
theorem Tree.Distinct.expressions {branch : Tree} (distinct : branch.Distinct) :
    branch.expressions.Pairwise Apart := by
  refine pairwise_flatMap.mpr ⟨fun c part => ?_, ?_⟩
  · split
    · exact pairwise_singleton _ _
    · exact (distinct.child part).apart
  · refine distinct.apart.imp fun apart t inT u inU => ?_
    exact apart.within (nodes_subset_of_part inT) (nodes_subset_of_part inU)

namespace Infer

variable {A : NodeId → Prop} {bound : Nat} {env : TypingContext} {T : Prop}

/-- An expression that can be settled. -/
structure Ready (env : TypingContext) (A : NodeId → Prop) (bound : Nat) (t : Tree) : Prop where
  term : t.IsTerm
  grounded : t.Throughout (Grounded env A)
  facts : ∀ c ∈ t.children, c.Throughout (CallsFact env)
  distinct : t.Distinct
  bounds : ∀ u ∈ t.visited, u.id < bound

/-- Some types were found when a list of expressions was settled. -/
def SettlesList (env : TypingContext) (A : NodeId → Prop) (bound : Nat) (ts : List Tree)
    (s : Typing) (_ : Unit) (s' : Typing) : Prop :=
  ∃ rs, SettlesAll env A bound ts s rs s'

theorem exprType_ready (concrete : env.functions.Concrete) {t : Tree}
    (ready : Ready env A bound t) :
    Yields T (exprType env .resolved .settle t) (Settles env A bound t) :=
  exprType_settles concrete ready.term ready.grounded ready.facts ready.distinct ready.bounds

theorem exprTypes_ready (concrete : env.functions.Concrete) {ts : List Tree}
    (ready : ∀ t ∈ ts, Ready env A bound t) (apart : ts.Pairwise Apart) :
    Yields T (exprTypes env .resolved .settle ts) (SettlesAll env A bound ts) :=
  exprTypes_settles (fun t member => exprType_ready concrete (ready t member))
    (fun t member => (ready t member).grounded) apart

theorem settleAttributes_settles (concrete : env.functions.Concrete) {attrs : List Tree}
    (ready : ∀ t ∈ attrs.flatMap Tree.children, Ready env A bound t)
    (apart : (attrs.flatMap Tree.children).Pairwise Apart) :
    Yields T (settleAttributes env attrs)
      (SettlesList env A bound (attrs.flatMap Tree.children)) := by
  induction attrs with
  | nil => exact .pure fun s => ⟨[], .refl s, fun _ => ⟨rfl, by simp⟩⟩
  | cons attr attrs ih =>
    rw [flatMap_cons] at ready apart ⊢
    rw [pairwise_append] at apart
    rw [settleAttributes]
    refine .seq (exprTypes_ready concrete (fun t member => ready t (by simp [member])) apart.1)
      fun rs =>
      (ih (fun t member => ready t (mem_append_right _ member)) apart.2.1).imp ?_
    rintro s' _ s'' ⟨qs, rest⟩ s first
    exact ⟨rs ++ qs, first.append rest (fun t member => (ready t member).grounded) apart.2.2⟩

variable {branch pre list : Tree} {info : Guarded} {attrs : List Tree}

theorem expressions_of_parts (parts : HasParts branch info attrs pre list) (term : pre.IsTerm) :
    branch.expressions = attrs.flatMap Tree.children ++ ([pre] ++ list.children) := by
  have inAttrs : attrs.flatMap (fun c => if c.kind.isExpression then [c] else c.children) =
      attrs.flatMap Tree.children := by
    refine flatMap_congr fun a member => ?_
    rw [parts.attrKinds a member]
    rfl
  have inList : list.kind.isExpression = false := by
    rw [show list.kind = .taskList from congrArg Content.kind parts.listContent]
    rfl
  rw [expressions, parts.children, flatMap_append, inAttrs]
  simp [term.isExpression, inList]

theorem attributes_of_parts (parts : HasParts branch info attrs pre list) (term : pre.IsTerm) :
    branch.childrenOf .attr = attrs := by
  have listKind : list.kind = .taskList := congrArg Content.kind parts.listContent
  have preKind : pre.kind ≠ .attr := fun same => by
    have isExpression := term.isExpression
    rw [same] at isExpression
    cases isExpression
  rw [childrenOf, parts.children, filter_append, filter_eq_self.mpr fun a member => by
    simp [parts.attrKinds a member]]
  simp [preKind, listKind]

/-- A case of expressions has no error. -/
theorem hasError_of_expressions (kind : branch.kind ≠ .error)
    (terms : ∀ t ∈ branch.expressions, t.IsTerm) : branch.hasError = false := by
  have clear : branch.Throughout fun u => u.kind ≠ .error := by
    refine throughout_iff.mpr ⟨kind, fun _ c part => ?_⟩
    by_cases isExpression : c.kind.isExpression = true
    · exact (terms c (mem_flatMap.mpr ⟨c, part, by simp [isExpression]⟩)).imp
        fun _ takes => takes_sound takes
    · refine throughout_iff.mpr ⟨fun error => ?_, fun _ d below => ?_⟩
      · rw [error] at isExpression
        exact isExpression rfl
      · exact (terms d (mem_flatMap.mpr ⟨c, part, by simpa [isExpression] using below⟩)).imp
          fun _ takes => takes_sound takes
  rw [hasError, any_eq_false]
  exact fun u visits => by simpa using clear u visits

/-- When nothing is reported, a case is settled. -/
theorem settleBranch_settles (concrete : env.functions.Concrete)
    (parts : HasParts branch info attrs pre list)
    (precond : env.tree? info.precond = some pre) (tasks : env.tree? info.tasks = some list)
    (term : pre.IsTerm) (ready : ∀ t ∈ branch.expressions, Ready env A bound t)
    (distinct : branch.Distinct) :
    Yields T (settleBranch env branch) (SettlesList env A bound branch.expressions) := by
  have apart := distinct.expressions
  have sound : branch.kind ≠ .error := by
    rw [parts.kind]
    decide
  have clear := hasError_of_expressions sound fun t member => (ready t member).term
  rw [expressions_of_parts parts term] at ready apart ⊢
  rw [pairwise_append, pairwise_append] at apart
  obtain ⟨inAttrs, ⟨_, inList, preList⟩, across⟩ := apart
  have grounded := fun t member => (ready t member).grounded
  rw [settleBranch, parts.content]
  dsimp only
  rw [clear, attributes_of_parts parts term, precond, callsOf, taskListOf, parts.content]
  dsimp only
  rw [tasks]
  refine .seq (settleAttributes_settles concrete
    (fun t member => ready t (mem_append_left _ member)) inAttrs) fun _ =>
    .seq (exprType_ready concrete (ready pre (by simp))) fun r =>
    .seq (exprTypes_ready concrete
      (fun t member => ready t (mem_append_right _ (mem_append_right _ member))) inList)
    fun qs => .pure ?_
  rintro s₃ s₂ last s₁ middle s ⟨rs, first⟩
  exact ⟨_, first.append (middle.one.append last
    (fun t member => grounded t (mem_append_right _ member)) preList) grounded across⟩

end Infer

end TaskNet
