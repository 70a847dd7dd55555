import TaskNet.Proofs.Clause.Distribution
import TaskNet.Proofs.Tree.Form

/-!
What normalization preserves of the nodes of an expression. New nodes are conjunctions, disjunctions
and negations over one operand; every other node keeps its content over the normal forms of its
operands. A condition on nodes that holds of the new ones and allows for the change of operands
holds throughout the result when it holds throughout the expression.
-/

namespace TaskNet.Tree

open List

variable {t : Tree} {cs : List Tree}

/-- A condition on nodes that is kept when negations are pushed down. -/
structure Polarizable (P : Tree → Prop) : Prop where
  negation : ∀ n c, n.content = .op .not → P (mk n [c])
  dual : ∀ n m cs f, m.content = .op .and ∨ m.content = .op .or →
    n.content = .op .and ∨ n.content = .op .or → P (mk m cs) → P (mk n (cs.map f))
  operands : ∀ n cs f, (∀ c : Tree, isPlain c.content = true → (f c).content = c.content) →
    P (mk n cs) → P (mk n (cs.map f))

/-- A condition on nodes that normalization keeps. -/
structure Normalizable (P : Tree → Prop) : Prop where
  blind : ∀ s, P s.anonymous ↔ P s
  connective : ∀ n cs, n.content = .op .and ∨ n.content = .op .or → P (mk n cs)
  negation : ∀ n c, n.content = .op .not → P (mk n [c])
  operands : ∀ n cs f, (∀ c : Tree, isPlain c.content = true → (f c).content = c.content) →
    P (mk n cs) → P (mk n (cs.map f))

theorem Normalizable.polarizable {P : Tree → Prop} (normalizable : Normalizable P) :
    Polarizable P where
  negation := normalizable.negation
  dual n _ _ _ _ connective _ := normalizable.connective n _ connective
  operands := normalizable.operands

section Passes

variable {P : Tree → Prop}

theorem nnf_content (plain : isPlain t.content = true) : (nnf t).content = t.content := by
  cases t with
  | mk n cs =>
    obtain ⟨notNegation, _, _, sound⟩ := isPlain_iff.mp plain
    rw [nnf_descends (show n.content ≠ _ from notNegation) sound]
    rfl

theorem throughout_mapped {n : Node} {f : Tree → Tree} (here : P (mk n (cs.map f)))
    (below : ∀ c ∈ cs, Throughout P (f c)) : Throughout P (mk n (cs.map f)) := by
  refine throughout_mk.mpr ⟨here, fun _ d member => ?_⟩
  obtain ⟨c, inside, rfl⟩ := mem_map.mp member
  exact below c inside

/-- Pushing negations down, also under a pending one. -/
theorem throughout_polar (polarizable : Polarizable P) (t : Tree) (unary : t.NegationsUnary) :
    Throughout P t → Throughout P (nnf t) ∧
      ∀ pending, pending.content = .op .not → Throughout P (polar (some pending) t) := by
  refine NegationsUnary.induction (motive := fun t => Throughout P t → Throughout P (nnf t) ∧
    ∀ pending, pending.content = .op .not → Throughout P (polar (some pending) t))
    ?error ?negation ?connective ?plain t unary
  case error =>
    intro n cs error holds
    rw [nnf_error error]
    refine ⟨holds, fun pending negation => ?_⟩
    rw [polar_error error]
    exact throughout_mk.mpr ⟨polarizable.negation _ _ negation, fun _ c member => by
      simpa [mem_singleton.mp member] using holds⟩
  case negation =>
    intro n c negation ih holds
    have sound : n.kind ≠ .error := by simp [Node.kind, negation, Content.kind]
    obtain ⟨normal, pendingNormal⟩ := ih (Throughout.below holds sound (by simp))
    rw [nnf_negation negation]
    refine ⟨pendingNormal n negation, fun pending _ => ?_⟩
    rw [polar_negation negation]
    exact normal
  case connective =>
    intro n cs connective ih holds
    obtain ⟨notNegation, sound⟩ := connective_descends connective
    have below := fun c member => ih c member (Throughout.below holds sound member)
    rw [nnf_descends notNegation sound]
    refine ⟨throughout_mapped (polarizable.dual _ _ _ _ connective connective holds.here)
      fun c member => (below c member).1, fun pending _ => ?_⟩
    rw [polar_connective connective, polarNegated_eq, operator]
    refine throughout_mapped (polarizable.dual _ _ _ _ connective ?_ holds.here)
      fun c member => (below c member).2 _ rfl
    rcases connective with content | content <;> simp [content, dual]
  case plain =>
    intro n cs plain ih holds
    obtain ⟨notNegation, notAnd, notOr, sound⟩ := isPlain_iff.mp plain
    have below := fun c member => ih c member (Throughout.below holds sound member)
    have normal : Throughout P (mk n (cs.map nnf)) := throughout_mapped
      (polarizable.operands n cs nnf (fun _ => nnf_content) holds.here)
      fun c member => (below c member).1
    rw [nnf_descends notNegation sound]
    refine ⟨normal, fun pending negation => ?_⟩
    rw [polar_plain plain]
    exact throughout_mk.mpr ⟨polarizable.negation _ _ negation, fun _ c member => by
      simpa [mem_singleton.mp member] using normal⟩

theorem throughout_flat (normalizable : Normalizable P) (holds : Throughout P t) :
    Throughout P (flat t) := by
  induction t with
  | mk n cs ih =>
    by_cases error : n.kind = .error
    · rwa [flat_error error]
    · have below : ∀ c ∈ cs.map flat, Throughout P c := by
        intro d member
        obtain ⟨c, inside, rfl⟩ := mem_map.mp member
        exact ih c inside (holds.below error inside)
      rw [flat_sound error]
      by_cases connective : n.content = .op .and ∨ n.content = .op .or
      · refine throughout_mk.mpr ⟨normalizable.connective _ _ connective, fun _ =>
          forall_absorb below fun c member same _ d inside => ?_⟩
        refine (below c member).below ?_ inside
        rcases connective with content | content <;>
          simp [Tree.kind, Node.kind, show c.node.content = n.content from same, content,
          Content.kind]
      · rw [absorb_other connective]
        exact throughout_mk.mpr ⟨normalizable.operands n cs flat (fun _ _ => flat_content _)
          holds.here, fun _ => below⟩

theorem throughout_dnfAll
    (each : ∀ c ∈ cs, ∀ clause ∈ dnf c, ∀ l ∈ clause, Throughout P l) :
    ∀ clause ∈ dnfAll cs, ∀ l ∈ clause, Throughout P l := by
  induction cs with
  | nil => simp [dnfAll]
  | cons c cs ih =>
    intro clause member l inside
    rw [dnfAll] at member
    obtain ⟨first, fromHead, paired⟩ := mem_flatMap.mp member
    obtain ⟨second, fromTail, rfl⟩ := mem_map.mp paired
    rcases mem_append.mp inside with inFirst | inSecond
    · exact each c (by simp) first fromHead l inFirst
    · exact ih (fun d later => each d (by simp [later])) second fromTail l inSecond

theorem throughout_dnf (normalizable : Normalizable P) (holds : Throughout P t) :
    ∀ clause ∈ dnf t, ∀ l ∈ clause, Throughout P l := by
  induction t with
  | mk n cs ih =>
    have descend : ∀ o : Operator, n.content = .op o → ∀ c ∈ cs, ∀ clause ∈ dnf c, ∀ l ∈ clause,
        Throughout P l := fun o content c member =>
      ih c member (holds.below (by simp [content, Content.kind]) member)
    by_cases isOr : n.content = .op .or
    · rw [dnf_or (t := mk n cs) isOr]
      intro clause member
      obtain ⟨c, inside, fromChild⟩ := mem_flatMap.mp member
      exact descend .or isOr c inside clause fromChild
    · by_cases isAnd : n.content = .op .and
      · rw [dnf_and (t := mk n cs) isAnd]
        exact throughout_dnfAll (descend .and isAnd)
      · rw [dnf_literal (t := mk n cs) isAnd isOr]
        simpa using throughout_flat normalizable holds

/-- A condition that normalization keeps holds of all clauses when the pass does not stop. -/
theorem throughout_toClauses (normalizable : Normalizable P) (limit : Int)
    (unary : t.NegationsUnary) {p : Pool} (running : p.stop = none)
    (finished : (t.toClauses limit p).2.stop = none) (holds : Throughout P t) :
    Throughout P (t.toClauses limit p).1 := by
  rcases toClauses_spec limit unary running with ⟨_, stopped⟩ | ⟨_, normal, clauses⟩
  · rw [stopped] at finished
    cases finished
  · have literals := throughout_dnf normalizable
      (throughout_polar normalizable.polarizable t unary holds).1
    generalize (t.toClauses limit p).1 = result at normal clauses
    obtain ⟨disjunction, conjunctions, _⟩ := normal
    cases result with
    | mk n cs =>
      refine throughout_mk.mpr ⟨normalizable.connective _ _ (.inr disjunction),
        fun _ c member => ?_⟩
      have conjunction := conjunctions c member
      cases c with
      | mk m ls =>
        refine throughout_mk.mpr ⟨normalizable.connective _ _ (.inl conjunction),
          fun _ l inside => ?_⟩
        have among : ls.map anonymous ∈ (dnf (nnf t)).map (List.map anonymous) := by
          rw [← clauses]
          exact mem_map_of_mem (mem_map.mpr ⟨mk m ls, member, rfl⟩)
        obtain ⟨clause, reference, same⟩ := mem_map.mp among
        obtain ⟨k, fromReference, alike⟩ := mem_map.mp (same ▸ mem_map_of_mem inside)
        rw [← throughout_anonymous normalizable.blind, ← alike,
          throughout_anonymous normalizable.blind]
        exact literals clause reference k fromReference

end Passes

theorem normalizable_unary :
    Normalizable fun s => s.content = .op .not → s.children.length = 1 where
  blind s := by simp
  connective n cs content := by rcases content with content | content <;> simp [content]
  negation n c _ := by simp
  operands n cs f _ holds := by simpa using holds

/-- Having as many operands as it takes, and no resolved name, is kept. -/
theorem normalizable_raw :
    Normalizable fun s => s.content.Takes s.children.length ∧ s.content.Unresolved where
  blind s := by simp
  connective n cs content := by
    rcases content with content | content <;>
      simp [content, Content.Takes, Operator.Takes, Content.Unresolved]
  negation n c content := by simp [content, Content.Takes, Operator.Takes, Content.Unresolved]
  operands n cs f _ holds := by simpa using holds

def TargetsVariable (t : Tree) : Prop :=
  t.content = .op .assign → ∃ c, t.children.head? = some c ∧ c.kind = .var

theorem normalizable_targets (T : Prop) : Normalizable fun s => T → TargetsVariable s where
  blind s := by simp [TargetsVariable]
  connective n cs content := by
    rcases content with content | content <;> simp [TargetsVariable, content]
  negation n c content := by simp [TargetsVariable, content]
  operands n cs f kept holds := by
    intro condition assigns
    obtain ⟨c, first, isVar⟩ := holds condition assigns
    have plain : isPlain c.content = true := by
      rw [isPlain, show c.content.kind = .var from isVar]
      rfl
    refine ⟨f c, by simpa using ⟨c, first, rfl⟩, ?_⟩
    exact (congrArg Content.kind (kept c plain)).trans isVar

end TaskNet.Tree
