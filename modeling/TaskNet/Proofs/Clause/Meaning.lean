import TaskNet.Proofs.Clause.Conservation
import TaskNet.Proofs.Clause.Preservation

/-!
What a tree of logical operators says. A valuation gives a truth value to everything that is not
logical, by its form: identities aside, and with the arguments in the same normal form as the tree
around them. Disjunctive normal form says the same as the tree it comes from, also where a
conjunction or disjunction is empty.
-/

namespace TaskNet.Tree

open List

variable {cs : List Tree} {t : Tree}

/-- The form by which a valuation knows something that is not logical. -/
def atom (t : Tree) : Tree :=
  (flat (nnf t)).anonymous

mutual

/-- Whether a tree is true under a valuation. -/
def Holds (v : Tree → Prop) : Tree → Prop
  | mk n cs =>
    match n.content with
    | .op .not => ¬ HoldsEach v cs
    | .op .and => HoldsEach v cs
    | .op .or => HoldsSome v cs
    | _ => v (atom (mk n cs))

def HoldsEach (v : Tree → Prop) : List Tree → Prop
  | [] => True
  | c :: cs => Holds v c ∧ HoldsEach v cs

def HoldsSome (v : Tree → Prop) : List Tree → Prop
  | [] => False
  | c :: cs => Holds v c ∨ HoldsSome v cs

end

variable {v : Tree → Prop}

theorem holdsEach_iff : HoldsEach v cs ↔ ∀ c ∈ cs, Holds v c := by
  induction cs with
  | nil => simp [HoldsEach]
  | cons c cs ih => rw [HoldsEach, ih, forall_mem_cons]

theorem holdsSome_iff : HoldsSome v cs ↔ ∃ c ∈ cs, Holds v c := by
  induction cs with
  | nil => simp [HoldsSome]
  | cons c cs ih => rw [HoldsSome, ih, exists_mem_cons_iff]

theorem holds_and (content : t.content = .op .and) : Holds v t ↔ ∀ c ∈ t.children, Holds v c := by
  cases t with
  | mk n cs => rw [Holds, show n.content = .op .and from content, holdsEach_iff, children_mk]

theorem holds_or (content : t.content = .op .or) : Holds v t ↔ ∃ c ∈ t.children, Holds v c := by
  cases t with
  | mk n cs => rw [Holds, show n.content = .op .or from content, holdsSome_iff, children_mk]

theorem holds_not {n : Node} {c : Tree} (content : n.content = .op .not) :
    Holds v (mk n [c]) ↔ ¬ Holds v c := by
  rw [Holds, content, holdsEach_iff]
  simp

theorem holds_atom (other : t.kind.isLogical = false) : Holds v t ↔ v (atom t) := by
  cases t with
  | mk n cs =>
    change n.content.kind.isLogical = false at other
    rw [Holds]
    split
    · next content => simp [content, Content.kind, Kind.isLogical, Operator.isLogical] at other
    · next content => simp [content, Content.kind, Kind.isLogical, Operator.isLogical] at other
    · next content => simp [content, Content.kind, Kind.isLogical, Operator.isLogical] at other
    · rfl

theorem isLogical_iff : t.kind.isLogical = true ↔
    t.content = .op .not ∨ t.content = .op .and ∨ t.content = .op .or := by
  cases t with
  | mk n cs =>
    change n.content.kind.isLogical = true ↔ _
    rw [content_mk]
    cases n.content with
    | op o => cases o <;> simp [Content.kind, Kind.isLogical, Operator.isLogical]
    | _ => simp [Content.kind, Kind.isLogical]

theorem atom_anonymous (t : Tree) : atom t.anonymous = atom t := by
  rw [atom, atom, ← flat_anonymous, ← flat_anonymous, nnf_anonymous]

/-- Identities do not matter to what a tree says. -/
theorem holds_anonymous (t : Tree) : Holds v t.anonymous ↔ Holds v t := by
  induction t with
  | mk n cs ih =>
    have each : HoldsEach v (cs.map anonymous) ↔ HoldsEach v cs := by
      rw [holdsEach_iff, holdsEach_iff, forall_mem_map]
      exact forall₂_congr ih
    have some : HoldsSome v (cs.map anonymous) ↔ HoldsSome v cs := by
      rw [holdsSome_iff, holdsSome_iff]
      simp only [mem_map, exists_exists_and_eq_and]
      exact exists_congr fun c => and_congr_right (ih c)
    have form := atom_anonymous (mk n cs)
    rw [anonymous_mk] at form ⊢
    rw [Holds, Holds]
    dsimp only
    split
    · rw [each]
    · exact each
    · exact some
    · rw [form]

/-- The form of something in negation normal form is its flat form. -/
theorem atom_of_isNegationNormal (normal : t.IsNegationNormal) : atom t = (flat t).anonymous := by
  rw [atom, nnf_of_isNegationNormal normal]

theorem atom_nnf (unary : t.NegationsUnary) : atom (nnf t) = atom t := by
  rw [atom_of_isNegationNormal (nnf_isNegationNormal unary), atom]

theorem atom_flat (normal : t.IsNegationNormal) : atom (flat t) = atom t := by
  rw [atom_of_isNegationNormal (flat_isNegationNormal normal), atom_of_isNegationNormal normal,
    flat_flat]

/-- Flattening a literal does not change what it says. -/
theorem holds_flat (normal : t.IsNegationNormal) (notAnd : t.content ≠ .op .and)
    (notOr : t.content ≠ .op .or) : Holds v (flat t) ↔ Holds v t := by
  by_cases negation : t.content = .op .not
  · cases t with
    | mk n cs =>
      obtain ⟨c, rfl, other⟩ : ∃ c, cs = [c] ∧ c.kind.isLogical = false := normal.here negation
      have operand : c.IsNegationNormal := normal.children negation (by simp)
      have sound : n.kind ≠ .error := by
        rw [content_mk] at negation
        simp [Node.kind, negation, Content.kind]
      have flatOther : (flat c).kind.isLogical = false := by
        rw [show (flat c).kind = (flat c).content.kind from rfl, flat_content]
        exact other
      rw [content_mk] at negation
      rw [flat_sound sound, absorb_other (by simpa using ⟨notAnd, notOr⟩), map_singleton,
        holds_not negation, holds_not negation, holds_atom flatOther, holds_atom other,
        atom_flat operand]
  · have other : t.kind.isLogical = false := by
      rw [Bool.eq_false_iff, ne_eq, isLogical_iff]
      simp [negation, notAnd, notOr]
    have flatOther : (flat t).kind.isLogical = false := by
      rw [show (flat t).kind = (flat t).content.kind from rfl, flat_content]
      exact other
    rw [holds_atom flatOther, holds_atom other, atom_flat normal]

/-- A conjunction is true when one of its reference clauses is, since a choice of a true clause of
each operand is one of them. -/
theorem holds_dnfAll (each : ∀ c ∈ cs, ((∃ clause ∈ dnf c, ∀ l ∈ clause, Holds v l) ↔ Holds v c)) :
    (∃ clause ∈ dnfAll cs, ∀ l ∈ clause, Holds v l) ↔ ∀ c ∈ cs, Holds v c := by
  induction cs with
  | nil => simp [dnfAll]
  | cons c cs ih =>
    rw [forall_mem_cons, ← each c (by simp), ← ih (forall_mem_cons.mp each).2,
      dnfAll]
    constructor
    · rintro ⟨clause, member, holds⟩
      obtain ⟨first, inFirst, paired⟩ := mem_flatMap.mp member
      obtain ⟨rest, inRest, rfl⟩ := mem_map.mp paired
      exact ⟨⟨first, inFirst, fun l below => holds l (by simp [below])⟩,
        rest, inRest, fun l below => holds l (by simp [below])⟩
    · rintro ⟨⟨first, inFirst, holdsFirst⟩, rest, inRest, holdsRest⟩
      refine ⟨first ++ rest, mem_flatMap.mpr ⟨first, inFirst, mem_map_of_mem inRest⟩, ?_⟩
      rintro l below
      rcases mem_append.mp below with inFirst | inRest
      · exact holdsFirst l inFirst
      · exact holdsRest l inRest

/-- A tree in negation normal form is true when all literals of one of its clauses are. -/
theorem holds_dnf (normal : t.IsNegationNormal) :
    (∃ clause ∈ dnf t, ∀ l ∈ clause, Holds v l) ↔ Holds v t := by
  induction t with
  | mk n cs ih =>
    have each {o : Operator} (content : n.content = .op o) : ∀ c ∈ cs,
        ((∃ clause ∈ dnf c, ∀ l ∈ clause, Holds v l) ↔ Holds v c) := fun c member =>
      ih c member (normal.children content member)
    by_cases isOr : n.content = .op .or
    · rw [dnf_or (t := mk n cs) isOr, holds_or (t := mk n cs) isOr, children_mk]
      constructor
      · rintro ⟨clause, member, holds⟩
        obtain ⟨c, inside, among⟩ := mem_flatMap.mp member
        exact ⟨c, inside, (each isOr c inside).mp ⟨clause, among, holds⟩⟩
      · rintro ⟨c, inside, holds⟩
        obtain ⟨clause, among, literals⟩ := (each isOr c inside).mpr holds
        exact ⟨clause, mem_flatMap.mpr ⟨c, inside, among⟩, literals⟩
    · by_cases isAnd : n.content = .op .and
      · rw [dnf_and (t := mk n cs) isAnd, holds_and (t := mk n cs) isAnd, children_mk,
          holds_dnfAll (each isAnd)]
      · rw [dnf_literal (t := mk n cs) isAnd isOr, ← holds_flat normal isAnd isOr]
        simp

/-- De Morgan's laws for a list of negated operands. -/
theorem holds_polarNegated
    (each : ∀ c ∈ cs, ∀ n :
    Node, n.content = .op .not → (Holds v (polar (some n) c) ↔ ¬ Holds v c)) :
    ((∀ d ∈ polarNegated cs, Holds v d) ↔ ∀ c ∈ cs, ¬ Holds v c) ∧
      ((∃ d ∈ polarNegated cs, Holds v d) ↔ ∃ c ∈ cs, ¬ Holds v c) := by
  rw [polarNegated_eq]
  constructor
  · rw [forall_mem_map]
    exact forall₂_congr fun c member => each c member _ rfl
  · simp only [mem_map, exists_exists_and_eq_and]
    exact exists_congr fun c => and_congr_right fun member => each c member _ rfl

/-- Pushing negations down does not change what a tree says, and under a pending negation the normal
form says the opposite. -/
theorem holds_polar (t : Tree) (unary : t.NegationsUnary) :
    (Holds v (nnf t) ↔ Holds v t) ∧
      ∀ n : Node, n.content = .op .not → (Holds v (polar (some n) t) ↔ ¬ Holds v t) := by
  refine NegationsUnary.induction (motive := fun t => t.NegationsUnary →
    (Holds v (nnf t) ↔ Holds v t) ∧
      ∀ n : Node, n.content = .op .not → (Holds v (polar (some n) t) ↔ ¬ Holds v t))
    ?error ?negation ?connective ?plain t unary unary
  case error =>
    intro m cs error _
    refine ⟨by rw [nnf_error error], fun n negation => ?_⟩
    rw [polar_error error, holds_not negation]
  case negation =>
    intro m c negation ih unary
    have sound : m.kind ≠ .error := by simp [Node.kind, negation, Content.kind]
    obtain ⟨positive, negative⟩ := ih (unary.below sound (by simp))
    refine ⟨?_, fun n _ => ?_⟩
    · rw [nnf_negation negation, negative m negation, holds_not negation]
    · rw [polar_negation negation, positive, holds_not negation, not_not]
  case connective =>
    intro m cs connective ih unary
    obtain ⟨notNegation, sound⟩ := connective_descends connective
    have forms : ∀ c ∈ cs, (Holds v (nnf c) ↔ Holds v c) := fun c member =>
      (ih c member (unary.below sound member)).1
    obtain ⟨every, some⟩ := holds_polarNegated fun c member =>
      (ih c member (unary.below sound member)).2
    refine ⟨?_, fun n _ => ?_⟩
    · rw [nnf_descends notNegation sound]
      rcases connective with content | content
      · rw [holds_and (t := mk m _) content, holds_and (t := mk m cs) content, children_mk,
          children_mk, forall_mem_map]
        exact forall₂_congr forms
      · rw [holds_or (t := mk m _) content, holds_or (t := mk m cs) content, children_mk,
          children_mk]
        simp only [mem_map, exists_exists_and_eq_and]
        exact exists_congr fun c => and_congr_right (forms c)
    · rw [polar_connective connective]
      rcases connective with content | content
      · rw [show dual m.content = .or by rw [content]; rfl, holds_or (t := operator 0 _ _ _) rfl,
          holds_and (t := mk m cs) content, operator, children_mk, children_mk, some, not_forall₂]
        simp only [exists_prop]
      · rw [show dual m.content = .and by rw [content]; rfl, holds_and (t := operator 0 _ _ _) rfl,
          holds_or (t := mk m cs) content, operator, children_mk, children_mk, every]
        simp only [not_exists, not_and]
  case plain =>
    intro m cs plain ih unary
    obtain ⟨notNegation, _, _, sound⟩ := isPlain_iff.mp plain
    have other : m.content.kind.isLogical = false := by
      simp only [isPlain, Bool.and_eq_true, Bool.not_eq_true'] at plain
      exact plain.1
    have form := atom_nnf unary
    rw [nnf_descends notNegation sound] at form
    have same : Holds v (mk m (cs.map nnf)) ↔ Holds v (mk m cs) := by
      rw [holds_atom (t := mk m _) other, holds_atom (t := mk m cs) other, form]
    refine ⟨?_, fun n negation => ?_⟩
    · rw [nnf_descends notNegation sound, same]
    · rw [polar_plain plain, holds_not negation, same]

/-- A disjunction of conjunctions is true when all literals of one of its clauses are. -/
theorem IsDisjunctiveNormal.holds_iff (normal : t.IsDisjunctiveNormal) :
    Holds v t ↔ ∃ clause ∈ t.clauses, ∀ l ∈ clause, Holds v l := by
  rw [holds_or normal.disjunction, clauses]
  simp only [mem_map, exists_exists_and_eq_and]
  exact exists_congr fun c => and_congr_right fun member =>
    holds_and (normal.conjunctions c member)

/-- Identities do not matter to which clauses are true. -/
theorem holds_clauses_anonymous (clauses : List (List Tree)) :
    (∃ clause ∈ clauses.map (List.map anonymous), ∀ l ∈ clause, Holds v l) ↔
      ∃ clause ∈ clauses, ∀ l ∈ clause, Holds v l := by
  simp only [mem_map, exists_exists_and_eq_and, forall_exists_index, and_imp,
    forall_apply_eq_imp_iff₂, holds_anonymous]

/-- Without a bound on the clauses, a tree whose negations have one operand is brought into a
disjunction of conjunctions of literals, with the reference clauses in order, that says the same.
Where no node stood in two places, none does in the result, nor in it and among what was set aside.
-/
theorem toClauses_eq_dnf_and_holds_iff (t : Tree) (unary : t.NegationsUnary) (p : Pool)
    (running : p.stop = none) :
    (t.toClauses 0 p).2.stop = none ∧ (t.toClauses 0 p).1.IsDisjunctiveNormal ∧
      (t.toClauses 0 p).1.clauses.map (List.map anonymous) =
        (dnf (nnf t)).map (List.map anonymous) ∧
      (t.WellFormed p → (t.toClauses 0 p).1.WellFormed (t.toClauses 0 p).2) ∧
      ∀ v : Tree → Prop, Holds v (t.toClauses 0 p).1 ↔ Holds v t := by
  obtain ⟨runs, normal, same⟩ := (toClauses_spec 0 unary running).resolve_left (by simp)
  refine ⟨runs, normal, same, fun wellFormed => ?_, fun v => ?_⟩
  · exact (toClauses_moves 0 t p).wellFormed wellFormed
      (throughout_toClauses normalizable_unary 0 unary running runs unary)
  calc Holds v (t.toClauses 0 p).1
    _ ↔ ∃ clause ∈ (t.toClauses 0 p).1.clauses, ∀ l ∈ clause, Holds v l := normal.holds_iff
    _ ↔ ∃ clause ∈ dnf (nnf t), ∀ l ∈ clause, Holds v l := by
      rw [← holds_clauses_anonymous, same, holds_clauses_anonymous]
    _ ↔ Holds v (nnf t) := holds_dnf (nnf_isNegationNormal unary)
    _ ↔ Holds v t := (holds_polar t unary).1

/-- A fact beside a negated conjunction, which has a negation, a fact and an empty conjunction below
it: each of the two clauses has a copy of the first fact. -/
theorem toClauses_copied_fact :
    let atom (x : NodeId) (name : String) : Tree := mk ⟨x, .any, default, .fact name⟩ []
    let t := operator 0 .and default [atom 1 "p", operator 2 .not default [operator 3 .and default [
      operator 4 .not default [atom 5 "q"], atom 6 "r", operator 7 .and default []]]]
    let result := t.toClauses 0 (.start 8)
    t.WellFormed (.start 8) ∧ result.2.stop = none ∧ result.1.IsDisjunctiveNormal ∧
      result.1.clauses.map (List.map anonymous) = (dnf (nnf t)).map (List.map anonymous) ∧
      (result.1.clauses.map (List.map id) = [[15, 5], [17, 11]]) ∧ result.1.WellFormed result.2 ∧
      ∀ v : Tree → Prop, Holds v result.1 ↔ Holds v t := by
  intro atom t result
  have unary : t.NegationsUnary := by
    unfold NegationsUnary Throughout
    decide
  have wellFormed : t.WellFormed (.start 8) := ⟨unary, by decide, by decide⟩
  obtain ⟨runs, normal, same, kept, holds⟩ := toClauses_eq_dnf_and_holds_iff t unary (.start 8) rfl
  exact ⟨wellFormed, runs, normal, same, by decide, kept wellFormed, holds⟩

end TaskNet.Tree
