import TaskNet.Macro.Expansion
import TaskNet.Proofs.Tree.Update

/-!
Macro expansion of a case. The expressions in its attributes, its precondition and the entries of
its task list are expanded in this order, and the case is put together again; so what becomes of a
case follows from what becomes of its expressions.
-/

namespace TaskNet.MacroTable

open List Tree

variable {E : Tree → Tree → Prop} {b branch : Tree} {R S : Tree → Expander → Tree → Expander → Prop}
  {I : Expander → Prop} {s s' : Expander} {size : Expander → Nat}
variable {table : MacroTable} {recursive : List NodeId}

theorem expandList_eq (table : MacroTable) (recursive : List NodeId)
    (onCall : Template → Tree → Expand Tree) (scope : Option NodeId) (ts : List Tree) :
    expandList table recursive onCall scope ts =
      ts.mapM (expandTree table recursive onCall scope) := by
  induction ts with
  | nil => rfl
  | cons t ts ih => rw [expandList, ih, mapM_cons]

/-- A step on a part of a case: on the children of an attribute and of the task list, and on the
precondition. -/
def OnPart (R : Tree → Expander → Tree → Expander → Prop) (info : Guarded) (c : Tree) (s : Expander)
    (d : Tree) (s' : Expander) : Prop :=
  if c.kind = .attr ∨ info.tasks = some c.id then
    d.node = c.node ∧ Chain R c.children s d.children s'
  else if info.precond = some c.id then R c s d s'
  else d = c ∧ s' = s

theorem expandPart_clean {expand : Tree → Expand Tree} (each : ∀ t, Clean size (expand t) (R t))
    (info : Guarded) (c : Tree) :
    Clean size (do
      if c.kind == .attr || info.tasks == some c.id then
        let ds ← c.children.mapM expand
        pure (c, c.withChildren ds)
      else if info.precond == some c.id then
        let d ← expand c
        pure (c, d)
      else
        pure (c, c))
      (fun s x s' => x.1 = c ∧ OnPart R info c s x.2 s') := by
  by_cases holder : c.kind = .attr ∨ info.tasks = some c.id
  · rw [if_pos (by simpa using holder)]
    refine .seq (.mapM fun t _ => each t) fun ds => .pure fun s' s chain => ⟨rfl, ?_⟩
    rw [OnPart, if_pos holder]
    exact ⟨rfl, chain⟩
  · rw [if_neg (by simpa using holder)]
    split
    · next isPre =>
      refine .seq (each c) fun d => .pure fun s' s step => ⟨rfl, ?_⟩
      rw [OnPart, if_neg holder, if_pos (by simpa using isPre)]
      exact step
    · next neither =>
      refine .pure fun s => ⟨rfl, ?_⟩
      rw [OnPart, if_neg holder, if_neg (by simpa using neither)]
      exact ⟨rfl, rfl⟩

/-- The steps on the parts of a case, and what the case is put together of. -/
def OnCase (R : Tree → Expander → Tree → Expander → Prop) (branch : Tree) (s : Expander) (b : Tree)
    (s' : Expander) : Prop :=
  (∃ (info : Guarded) (xs : List (Tree × Tree)) (precond : Option NodeId),
    branch.content = .branch info ∧ xs.map Prod.fst = branch.children ∧
    Chain (OnPart R info) branch.children s (xs.map Prod.snd) s' ∧
    (precond = match xs.find? fun c => c.1.kind != .attr && info.tasks != some c.1.id &&
        info.precond == some c.1.id with
      | some c => some c.2.id
      | none => info.precond) ∧
    b = .mk { branch.node with content := .branch { info with precond := precond } }
      (xs.map Prod.snd)) ∨ ((∀ info, branch.content ≠ .branch info) ∧ b = branch ∧ s' = s)

theorem expandBranch_clean (task branch : Tree)
    (expand : ∀ t, Clean size (expandTree table recursive
      (expandCall table recursive table.declared.length) (some task.id) t) (R t)) :
    Clean size (table.expandBranch recursive task branch) (OnCase R branch) := by
  rw [expandBranch]
  split
  · next info content =>
    refine .seq (.mapM fun c _ => expandPart_clean expand info c) fun xs => .pure ?_
    intro s' s chain
    have same : xs.map Prod.fst = branch.children := by
      have each := chain.forall₂ fun _ _ _ _ step => step.1
      clear chain
      generalize branch.children = cs at each
      induction each with
      | nil => rfl
      | cons head _ ih => rw [map_cons, head, ih]
    exact .inl ⟨info, xs, _, content, same, Chain.mapped (chain.imp fun _ _ _ _ _ step => step.2),
      rfl, rfl⟩
  · next other => exact .pure fun s => .inr ⟨other, rfl, rfl⟩

/-- What the steps on the expressions of a case do under a condition on states that they keep is
what they do. -/
theorem OnCase.along (step : OnCase R branch s b s')
    (each : ∀ t s u s', R t s u s' → I s → I s' ∧ S t s u s') (start : I s) :
    I s' ∧ OnCase S branch s b s' := by
  rcases step with ⟨info, xs, precond, content, same, chain, located⟩ | ⟨other, rfl, rfl⟩
  · have part : ∀ c ∈ branch.children, ∀ s d s', OnPart R info c s d s' → I s →
        I s' ∧ OnPart S info c s d s' := by
      intro c _ s d s' step holds
      unfold OnPart at step ⊢
      split at step
      · next holder =>
        obtain ⟨finish, below⟩ := step.2.along (fun t _ => each t) holds
        rw [if_pos holder]
        exact ⟨finish, step.1, below⟩
      · next other =>
        rw [if_neg other]
        split at step
        · next isPre =>
          rw [if_pos isPre]
          exact each c s d s' step holds
        · next neither =>
          obtain ⟨rfl, rfl⟩ := step
          rw [if_neg neither]
          exact ⟨holds, rfl, rfl⟩
    obtain ⟨finish, parts⟩ := chain.along part start
    exact ⟨finish, .inl ⟨info, xs, precond, content, same, parts, located⟩⟩
  · exact ⟨start, .inr ⟨other, rfl, rfl⟩⟩

/-- Steps on the expressions of a case, one after the other, and what they leave. -/
def CaseSteps (R : Tree → Expander → Tree → Expander → Prop) (branch : Tree) (s : Expander)
    (b : Tree) (s' : Expander) : Prop :=
  ∃ info info' attrs attrs' pre pre' list list' s₁ s₂, HasParts branch info attrs pre list ∧
    HasParts b info' attrs' pre' list' ∧ b.node = { branch.node with content := .branch info' } ∧
    Chain (fun a s a' s' => a'.node = a.node ∧ Chain R a.children s a'.children s') attrs s attrs'
    s₁ ∧ R pre s₁ pre' s₂ ∧ list'.node = list.node ∧ Chain R list.children s₂ list'.children s'

/-- The parts of a case are known again after its expressions were expanded. -/
theorem OnCase.steps (step : OnCase R branch s b s') (isCase : RawCase branch)
    (distinct : branch.Distinct) : CaseSteps R branch s b s' := by
  obtain ⟨info, attrs, pre, list, parts, _, rawPre, _⟩ := isCase
  rcases step with ⟨info', xs, precond, content, same, chain, located, rfl⟩ | ⟨other, _⟩
  · obtain rfl : info' = info := by simpa using content.symm.trans parts.content
    have preKind : pre.kind ≠ .attr := fun attr => by
      have expression := rawPre.isTerm.isExpression
      rw [attr] at expression
      cases expression
    have notTasks : info'.tasks ≠ some pre.id := fun tasks => by
      have ids := distinct.children
      rw [parts.children, map_append] at ids
      have apart : pre.id ≠ list.id := by simpa using ids.of_append_right
      exact apart (Option.some.inj (tasks.symm.trans parts.tasks))
    rw [parts.children] at same chain
    obtain ⟨as, bs, rfl, rfl, samePre⟩ := map_eq_append_iff.mp same
    obtain ⟨x, cs, rfl, rfl, sameList⟩ := map_eq_cons_iff.mp samePre
    obtain ⟨y, ds, rfl, rfl, sameRest⟩ := map_eq_cons_iff.mp sameList
    obtain rfl := map_eq_nil_iff.mp sameRest
    rw [map_append] at chain
    obtain ⟨s₁, onAttrs, rest⟩ := chain.split (by simp)
    cases rest with
    | cons onPre rest =>
      cases rest with
      | cons onList rest =>
        cases rest
        rw [OnPart, if_neg (by simp [preKind, notTasks]), if_pos parts.precond] at onPre
        rw [OnPart, if_pos (.inr parts.tasks)] at onList
        have onAttrs : Chain
          (fun a s a' s' => a'.node = a.node ∧ Chain R a.children s a'.children s')
            (as.map Prod.fst) s (as.map Prod.snd) s₁ := onAttrs.imp fun a member s a' s' part => by
          rwa [OnPart, if_pos (.inl (parts.attrKinds a member))] at part
        have foundPre : (as ++ [x, y]).find? (fun c => c.1.kind != .attr &&
            info'.tasks != some c.1.id && info'.precond == some c.1.id) = some x := by
          rw [find?_append, find?_eq_none.mpr fun a member => by
            simp [parts.attrKinds _ (mem_map_of_mem member)], Option.none_or,
            find?_cons_of_pos]
          simp [preKind, notTasks, parts.precond]
        rw [foundPre] at located
        subst located
        refine ⟨info', _, as.map Prod.fst, as.map Prod.snd, x.1, x.2, y.1, y.2, _, _, parts,
          ⟨rfl, by simp, fun a' member => ?_, rfl, ?_, ?_⟩, rfl, onAttrs, onPre, onList⟩
        · obtain ⟨a, inside, node⟩ :=
            exists_of_forall₂ (onAttrs.forall₂ fun _ _ _ _ step => step.1) member
          exact (congrArg Node.kind node).trans (parts.attrKinds a inside)
        · exact (congrArg Node.content onList.1).trans parts.listContent
        · exact parts.tasks.trans (congrArg (some ∘ Node.id) onList.1).symm
  · exact absurd parts.content (other info)

/-- Where every step on an expression goes up in an order, each one lies between the start and the
end. -/
theorem CaseSteps.between {T : Expander → Expander → Prop}
    (refl : ∀ s, T s s) (trans : ∀ {s s' s''}, T s s' → T s' s'' → T s s'')
    (steps : CaseSteps R branch s b s') (each : ∀ t r u r', R t r u r' → T r r')
    (within : ∀ t r u r', R t r u r' → T s r → T r' s' → S t r u r') :
    T s s' ∧ CaseSteps S branch s b s' := by
  obtain ⟨info, info', attrs, attrs', pre, pre', list, list', s₁, s₂, parts, parts', top, onAttrs,
    onPre, node, onList⟩ := steps
  have inside : ∀ {cs ds r r'}, Chain R cs r ds r' →
      T r r' ∧ Chain (fun t q u q' => R t q u q' ∧ T r q ∧ T q' r') cs r ds r' :=
    fun chain => chain.between refl trans fun t _ => each t
  obtain ⟨first, onAttrs⟩ := onAttrs.between refl trans fun a _ _ _ _ step => (inside step.2).1
  have second := each _ _ _ _ onPre
  obtain ⟨third, onList⟩ := inside onList
  refine ⟨trans first (trans second third), info, info', attrs, attrs', pre, pre', list, list', s₁,
    s₂, parts, parts', top, onAttrs.imp fun a _ r a' r' step => ⟨step.1.1, ?_⟩,
    within _ _ _ _ onPre first third, node, onList.imp fun t _ r u r' step => ?_⟩
  · exact (inside step.1.2).2.imp fun t _ q u q' inner => within t q u q' inner.1
      (trans step.2.1 inner.2.1) (trans inner.2.2 (trans step.2.2 (trans second third)))
  · exact within t r u r' step.1 (trans (trans first second) step.2.1) step.2.2

/-- What becomes of a case when something becomes of its expressions. -/
def CaseBy (E : Tree → Tree → Prop) (b b' : Tree) : Prop :=
  ∃ info info' attrs attrs' pre pre' list list', HasParts b info attrs pre list ∧
    HasParts b' info' attrs' pre' list' ∧
    List.Forall₂ (fun a a' => a'.node = a.node ∧ List.Forall₂ E a.children a'.children) attrs
    attrs' ∧ E pre pre' ∧ list'.node = list.node ∧ List.Forall₂ E list.children list'.children

theorem CaseSteps.keeps (steps : CaseSteps R branch s b s')
    (each : ∀ t, t.IsRaw → ∀ s u s', R t s u s' → I s → I s' ∧ E t u) (isCase : RawCase branch)
    (start : I s) : I s' ∧ CaseBy E branch b := by
  obtain ⟨info, info', attrs, attrs', pre, pre', list, list', s₁, s₂, parts, parts', _, onAttrs,
    onPre, node, onList⟩ := steps
  obtain ⟨_, _, _, _, same, rawAttrs, rawPre, rawList⟩ := isCase
  obtain ⟨rfl, rfl, rfl, rfl⟩ := same.unique parts
  obtain ⟨start, keptAttrs⟩ := onAttrs.keeps (I := I)
    (P := fun a a' => a'.node = a.node ∧ List.Forall₂ E a.children a'.children)
    (fun a member _ _ _ step held =>
    (step.2.keeps (fun t below => each t (rawAttrs a member t below))
      held).imp_right fun kept => ⟨step.1, kept⟩) start
  obtain ⟨start, keptPre⟩ := each _ rawPre _ _ _ onPre start
  obtain ⟨last, keptList⟩ := onList.keeps (fun t below => each t (rawList t below)) start
  exact ⟨last, _, info', _, attrs', _, pre', _, list', parts, parts', keptAttrs, keptPre,
    node, keptList⟩

theorem CaseSteps.moves {C : Prop} (steps : CaseSteps R branch s b s')
    (each : ∀ t s u s', R t s u s' → Moves C [t] s.pool [u] s'.pool) :
    Moves C [branch] s.pool [b] s'.pool := by
  obtain ⟨_, _, _, _, _, _, _, _, _, _, parts, parts', top, onAttrs, onPre, node, onList⟩ := steps
  have carries := MovesWith.carries (C := C) Expander.pool
  have under : ∀ {a a' : Tree} {s s' : Expander}, a'.node = a.node →
      Chain R a.children s a'.children s' → Moves C [a] s.pool [a'] s'.pool := by
    intro a a' s s' node chain
    rw [← a.eta, ← a'.eta, node]
    exact (carries.chain (chain.imp fun t _ => each t)).under rfl (·)
  have inAttrs := carries.chain (onAttrs.imp fun _ _ _ _ _ step => under step.1 step.2)
  rw [← branch.eta, ← b.eta, parts.children, parts'.children, top]
  exact (inAttrs.append ((each _ _ _ _ onPre).cons (under node onList))).under rfl (·)

theorem CaseBy.rawCase (caseBy : CaseBy (fun _ u => u.IsRaw) branch b) : RawCase b := by
  obtain ⟨_, info', _, attrs', _, pre', _, list', _, parts', keptAttrs, rawPre, _, keptList⟩ :=
    caseBy
  have each : ∀ {cs ds : List Tree}, List.Forall₂ (fun _ d => d.IsRaw) cs ds →
    ∀ d ∈ ds, d.IsRaw := by
    intro cs ds kept d member
    obtain ⟨_, _, raw⟩ := exists_of_forall₂ kept member
    exact raw
  refine ⟨info', attrs', pre', list', parts', fun a' member => ?_, rawPre, each keptList⟩
  obtain ⟨_, _, _, kept⟩ := exists_of_forall₂ keptAttrs member
  exact each kept

end TaskNet.MacroTable
