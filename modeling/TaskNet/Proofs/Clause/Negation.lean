import TaskNet.Clause.Negation
import TaskNet.Proofs.Tree.Structure

/-!
Negation normal form against a reference by polarity. The reference carries down whether an odd
number of negations stands above: an even number cancels, an odd one exchanges conjunction and
disjunction and ends as a single negation over something that is not logical. It is applied anew
inside the arguments of what is not logical, and error nodes are leaves.
-/

namespace TaskNet.Tree

open List

variable {n : Node} {cs cs : List Tree} {t c : Tree}

/-- Every negation that a traversal reaches has exactly one operand. -/
def NegationsUnary (t : Tree) : Prop :=
  t.Throughout fun s => s.content = .op .not → s.children.length = 1

/-- Every negation that a traversal reaches stands over one operand that is not logical. -/
def IsNegationNormal (t : Tree) : Prop :=
  t.Throughout fun s => s.content = .op .not → ∃ c, s.children = [c] ∧ c.kind.isLogical = false

/-- A negation at the place of its operand. -/
def negationOf (t : Tree) : Node :=
  ⟨0, .any, t.loc, .op .not⟩

mutual

/-- Negation normal form of a tree under a pending negation, if there is one. -/
def polar : Option Node → Tree → Tree
  | none, mk n cs =>
    match n.content with
    | .op .not =>
      match cs with
      | [] => mk n []
      | c :: _ => polar (some n) c
    | .error _ _ => mk n cs
    | _ => mk n (polarEach cs)
  | some pending, mk n cs =>
    match n.content with
    | .op .not =>
      match cs with
      | [] => mk pending [mk n []]
      | c :: _ => polar none c
    | .op .and => operator 0 .or n.loc (polarNegated cs)
    | .op .or => operator 0 .and n.loc (polarNegated cs)
    | .error _ _ => mk pending [mk n cs]
    | _ => mk pending [mk n (polarEach cs)]

def polarEach : List Tree → List Tree
  | [] => []
  | c :: cs => polar none c :: polarEach cs

def polarNegated : List Tree → List Tree
  | [] => []
  | c :: cs => polar (some (negationOf c)) c :: polarNegated cs

end

def nnf (t : Tree) : Tree :=
  polar none t

theorem polarEach_eq (cs : List Tree) : polarEach cs = cs.map nnf := by
  induction cs with
  | nil => rfl
  | cons c cs ih => rw [polarEach, ih, map_cons, nnf]

theorem polarNegated_eq (cs : List Tree) :
    polarNegated cs = cs.map fun c => polar (some (negationOf c)) c := by
  induction cs with
  | nil => rfl
  | cons c cs ih => rw [polarNegated, ih, map_cons]

/-- Without a pending negation. -/
theorem polar_none (n : Node) (cs : List Tree) : polar none (mk n cs) =
    match n.content with
    | .op .not =>
      match cs with
      | [] => mk n []
      | c :: _ => polar (some n) c
    | .error _ _ => mk n cs
    | _ => mk n (cs.map nnf) := by
  rw [polar.eq_def, ← polarEach_eq]

/-- Under a pending negation. -/
theorem polar_some (pending n : Node) (cs : List Tree) : polar (some pending) (mk n cs) =
    match n.content with
    | .op .not =>
      match cs with
      | [] => mk pending [mk n []]
      | c :: _ => nnf c
    | .op .and => operator 0 .or n.loc (polarNegated cs)
    | .op .or => operator 0 .and n.loc (polarNegated cs)
    | .error _ _ => mk pending [mk n cs]
    | _ => mk pending [mk n (cs.map nnf)] := by
  rw [polar.eq_def, ← polarEach_eq]
  rfl

/-- Whether a content is neither a logical operator nor an error. -/
def isPlain (c : Content) : Bool :=
  !c.kind.isLogical && c.kind != .error

theorem isPlain_iff {c : Content} :
    isPlain c = true ↔
      c ≠ .op .not ∧ c ≠ .op .and ∧ c ≠ .op .or ∧ c.kind ≠ .error := by
  cases c with
  | op o => cases o <;> simp [isPlain, Content.kind, Kind.isLogical, Operator.isLogical]
  | _ => simp [isPlain, Content.kind, Kind.isLogical]

theorem nnf_descends (notNegation : n.content ≠ .op .not) (sound : n.kind ≠ .error)
    (cs : List Tree) : nnf (mk n cs) = mk n (cs.map nnf) := by
  rw [nnf, polar_none]
  split
  · contradiction
  · next error => simp [Node.kind, error, Content.kind] at sound
  · rfl

theorem nnf_error (error : n.kind = .error) (cs : List Tree) : nnf (mk n cs) = mk n cs := by
  obtain ⟨was, problem, content⟩ := content_of_error error
  rw [nnf, polar_none, content]

theorem nnf_negation (negation : n.content = .op .not) (c : Tree) (rest : List Tree) :
    nnf (mk n (c :: rest)) = polar (some n) c := by
  rw [nnf, polar_none, negation]

theorem polar_negation (negation : n.content = .op .not) (pending : Node) (c : Tree)
    (rest : List Tree) : polar (some pending) (mk n (c :: rest)) = nnf c := by
  rw [polar_some, negation]

theorem polar_connective (connective : n.content = .op .and ∨ n.content = .op .or) (pending : Node)
    (cs : List Tree) :
    polar (some pending) (mk n cs) = operator 0 (dual n.content) n.loc (polarNegated cs) := by
  rw [polar_some]
  rcases connective with content | content <;> rw [content] <;> rfl

theorem polar_error (error : n.kind = .error) (pending : Node) (cs : List Tree) :
    polar (some pending) (mk n cs) = mk pending [mk n cs] := by
  obtain ⟨was, problem, content⟩ := content_of_error error
  rw [polar_some, content]

theorem polar_plain (plain : isPlain n.content = true) (pending : Node) (cs : List Tree) :
    polar (some pending) (mk n cs) = mk pending [mk n (cs.map nnf)] := by
  obtain ⟨notNegation, notAnd, notOr, sound⟩ := isPlain_iff.mp plain
  rw [polar_some]
  split
  · contradiction
  · contradiction
  · contradiction
  · next error => simp [error, Content.kind] at sound
  · rfl

theorem NegationsUnary.below (unary : NegationsUnary (mk n cs)) (sound : n.kind ≠ .error)
    (member : c ∈ cs) : NegationsUnary c :=
  Throughout.below unary sound member

/-- Induction over trees whose negations have one operand, by what a node is: an error, a negation,
a conjunction or disjunction, or something that is not logical. -/
theorem NegationsUnary.induction {motive : Tree → Prop}
    (error : ∀ n cs, n.kind = .error → motive (mk n cs))
    (negation : ∀ n c, n.content = .op .not → motive c → motive (mk n [c]))
    (connective : ∀ n cs, n.content = .op .and ∨ n.content = .op .or →
      (∀ c ∈ cs, motive c) → motive (mk n cs))
    (plain : ∀ n cs, isPlain n.content = true → (∀ c ∈ cs, motive c) → motive (mk n cs))
    (t : Tree) (unary : t.NegationsUnary) : motive t := by
  induction t with
  | mk n cs ih =>
    by_cases isError : n.kind = .error
    · exact error n cs isError
    · have operands : ∀ c ∈ cs, motive c := fun c member => ih c member (unary.below isError member)
      by_cases isNegation : n.content = .op .not
      · obtain ⟨c, rfl⟩ := length_eq_one_iff.mp (unary.here isNegation)
        exact negation n c isNegation (operands c (by simp))
      · by_cases isConnective : n.content = .op .and ∨ n.content = .op .or
        · exact connective n cs isConnective operands
        · obtain ⟨notAnd, notOr⟩ := not_or.mp isConnective
          exact plain n cs (isPlain_iff.mpr ⟨isNegation, notAnd, notOr, isError⟩) operands

/-- A connective is neither a negation nor an error, so both passes descend through it. -/
theorem connective_descends (connective : n.content = .op .and ∨ n.content = .op .or) :
    n.content ≠ .op .not ∧ n.kind ≠ .error := by
  rcases connective with content | content <;> simp [Node.kind, content, Content.kind]

/-- Under a negation the identity of the negation is all that can be lost. -/
theorem polar_pending_anonymous {a b : Node} (same : { a with id := 0 } = { b with id := 0 })
    (t : Tree) : (polar (some a) t).anonymous = (polar (some b) t).anonymous := by
  cases t with
  | mk n cs =>
    rw [polar_some, polar_some]
    split
    · split
      · simp only [anonymous_mk, same]
      · rfl
    all_goals first | rfl | simp only [anonymous_mk, same]

/-- The normal form of a tree without identities is that of the tree, without identities. -/
theorem polar_anonymous (t : Tree) (pending : Option Node) :
    (polar pending t.anonymous).anonymous = (polar pending t).anonymous := by
  induction t generalizing pending with
  | mk n cs ih =>
    have forms : ((cs.map anonymous).map nnf).map anonymous = (cs.map nnf).map anonymous := by
      simp only [map_map]
      exact map_congr_left fun c member => ih c member none
    have negated : (polarNegated (cs.map anonymous)).map anonymous =
        (polarNegated cs).map anonymous := by
      simp only [polarNegated_eq, map_map]
      refine map_congr_left fun c member => ?_
      simp only [Function.comp_apply, negationOf, anonymous_loc]
      exact ih c member _
    have bare : (cs.map anonymous).map anonymous = cs.map anonymous := by simp
    rw [anonymous_mk]
    cases pending with
    | none =>
      rw [polar_none, polar_none]
      dsimp only
      split
      · cases cs with
        | nil => rfl
        | cons c rest =>
          exact (ih c (by simp) _).trans
            (polar_pending_anonymous (a := { n with id := 0 }) (b := n) rfl c)
      · simp only [anonymous_mk, bare]
      · simp only [anonymous_mk, forms]
    | some pending =>
      rw [polar_some, polar_some]
      dsimp only
      split
      · cases cs with
        | nil => rfl
        | cons c rest => exact ih c (by simp) none
      · simp only [operator, anonymous_mk, negated]
      · simp only [operator, anonymous_mk, negated]
      · simp only [anonymous_mk, map_cons, bare]
      · simp only [anonymous_mk, map_cons, forms]

theorem nnf_anonymous (t : Tree) : (nnf t.anonymous).anonymous = (nnf t).anonymous :=
  polar_anonymous t none

/-- A negation whose operand is not logical, or something else than a negation. -/
def Settled (n : Node) (cs : List Tree) : Prop :=
  n.content = .op .not → ∃ c, cs = [c] ∧ c.kind.isLogical = false

def negations (x : NodeId) : List Tree → List Tree
  | [] => []
  | d :: ds => operator x .not d.loc [d] :: negations (x + 1) ds

theorem mem_negations {ds : List Tree} {x : NodeId} (member : t ∈ negations x ds) :
    ∃ n d, n.content = .op .not ∧ d ∈ ds ∧ t = mk n [d] := by
  induction ds generalizing x with
  | nil => cases member
  | cons d ds ih =>
    rcases mem_cons.1 member with rfl | later
    · exact ⟨_, d, rfl, mem_cons_self, rfl⟩
    · obtain ⟨n, e, content, inside, rfl⟩ := ih later
      exact ⟨n, e, content, mem_cons_of_mem d inside, rfl⟩

theorem nnf_negations (x : NodeId) (ds : List Tree) :
    ((negations x ds).map nnf).map anonymous = (polarNegated ds).map anonymous := by
  induction ds generalizing x with
  | nil => rfl
  | cons d ds ih =>
    have unmarked := polar_pending_anonymous (a := ⟨x, .any, d.loc, .op .not⟩)
      (b := negationOf d) rfl d
    rw [negations, polarNegated, map_cons, map_cons, map_cons, ih, operator,
      nnf_negation rfl, unmarked]

/-- The new negations of De Morgan's laws are resolved like any others. -/
theorem negateEach_eq (x : NodeId) (p : Pool) (ds : List Tree) :
    negateEach x p ds = pushNegationsList p (negations x ds) := by
  induction ds generalizing x p with
  | nil => rfl
  | cons d ds ih =>
    rw [negateEach, negations, pushNegationsList, operator, pushNegations]
    by_cases stopped : p.stopped = true
    · simp only [if_pos stopped, ih]
    · simp only [if_neg stopped, ih]
      split <;> rfl

theorem isPlain_of_operand (plain : (mk n cs).kind.isLogical = false) (sound : n.kind ≠ .error) :
    isPlain n.content = true := by
  rw [isPlain, show n.content.kind.isLogical = false from plain]
  simpa [Node.kind] using sound

section Steps

variable {n m : Node} {cs : List Tree} {p : Pool}

theorem pushNegations_error (error : n.kind = .error) (cs : List Tree) :
    pushNegations p (mk n cs) = (mk n cs, p) := by
  obtain ⟨was, problem, content⟩ := content_of_error error
  rw [pushNegations.eq_def]
  simp only [content, ite_self]

theorem pushNegations_descends (notNegation : n.content ≠ .op .not) (sound : n.kind ≠ .error)
    (cs : List Tree) (running : p.stop = none) :
    pushNegations p (mk n cs) =
      (mk n (pushNegationsList p cs).1, (pushNegationsList p cs).2) := by
  rw [pushNegations.eq_def]
  dsimp only
  rw [if_neg (by simp [Pool.stopped, running])]
  split
  · contradiction
  · next error => simp [Node.kind, error, Content.kind] at sound
  · rfl

theorem negate_plain (plain : isPlain m.content = true) (cs : List Tree) :
    negate p n [] (mk m cs) =
      (.kept (mk m (pushNegationsList p cs).1), (pushNegationsList p cs).2) := by
  obtain ⟨notNegation, notAnd, notOr, sound⟩ := isPlain_iff.mp plain
  rw [negate.eq_def]
  dsimp only
  split
  · contradiction
  · contradiction
  · contradiction
  · next error => simp [error, Content.kind] at sound
  · rfl

theorem negate_connective (connective : m.content = .op .and ∨ m.content = .op .or)
    (cs : List Tree) : negate p n [] (mk m cs) =
      let taken := (p.take (1 + cs.length)).discard (mk n [mk m []])
      (.replaced (operator p.next (dual m.content) m.loc (negateEach (p.next + 1) taken cs).1),
        (negateEach (p.next + 1) taken cs).2) := by
  rw [negate.eq_def]
  dsimp only
  rcases connective with content | content <;> rw [content]

/-- Nothing is resolved at a negation whose operand is not logical. -/
theorem pushNegations_settled (settled : Settled n cs) (sound : n.kind ≠ .error)
    (running : p.stop = none) :
    pushNegations p (mk n cs) =
      (mk n (pushNegationsList p cs).1, (pushNegationsList p cs).2) := by
  by_cases negation : n.content = .op .not
  · obtain ⟨⟨m, ds⟩, rfl, plain⟩ := settled negation
    rw [pushNegations, if_neg (by simp [Pool.stopped, running]), negation]
    simp only [pushNegationsList]
    by_cases error : m.kind = .error
    · obtain ⟨was, problem, content⟩ := content_of_error error
      rw [pushNegations_error error, negate.eq_def]
      simp only [content]
    · have operand := isPlain_of_operand plain error
      rw [pushNegations_descends (isPlain_iff.mp operand).1 error ds running, negate_plain operand]
  · exact pushNegations_descends negation sound cs running

theorem pushNegations_double (outer : n.content = .op .not) (inner : m.content = .op .not)
    (e : Tree) (running : p.stop = none) :
    pushNegations p (mk n [mk m [e]]) = pushNegations (p.discard (mk n [mk m []])) e := by
  rw [pushNegations, if_neg (by simp [Pool.stopped, running]), outer]
  simp only [negate, inner]

theorem dual_ne_not (c : Content) : Content.op (dual c) ≠ .op .not := by
  rw [dual.eq_def]
  split <;> simp

/-- By De Morgan's laws, the negation of a conjunction or disjunction is treated as the dual
operator over the negations of the operands. -/
theorem pushNegations_dual (negation : n.content = .op .not)
    (connective : m.content = .op .and ∨ m.content = .op .or) (ds : List Tree)
    (running : p.stop = none) :
    pushNegations p (mk n [mk m ds]) =
      pushNegations ((p.take (1 + ds.length)).discard (mk n [mk m []]))
        (operator p.next (dual m.content) m.loc (negations (p.next + 1) ds)) := by
  have resolved := pushNegations_descends (n := ⟨p.next, .any, m.loc, .op (dual m.content)⟩)
    (p := (p.take (1 + ds.length)).discard (mk n [mk m []])) (dual_ne_not _)
    (by simp [Node.kind, Content.kind]) (negations (p.next + 1) ds) running
  rw [operator, resolved, ← negateEach_eq, pushNegations, if_neg (by simp [Pool.stopped, running]),
    negation]
  simp only [negate_connective connective, operator]

theorem nnf_settled (settled : Settled n cs) (sound : n.kind ≠ .error) :
    nnf (mk n cs) = mk n (cs.map nnf) := by
  by_cases negation : n.content = .op .not
  · obtain ⟨⟨m, ds⟩, rfl, plain⟩ := settled negation
    rw [nnf_negation negation, map_singleton]
    by_cases error : m.kind = .error
    · rw [polar_error error, nnf_error error]
    · have operand := isPlain_of_operand plain error
      rw [polar_plain operand, nnf_descends (isPlain_iff.mp operand).1 error]
  · exact nnf_descends negation sound cs

end Steps

/-- The pass turns a tree into its reference form and does not stop. -/
def Reaches (t : Tree) : Prop :=
  ∀ p : Pool, p.stop = none →
    (pushNegations p t).2.stop = none ∧ (pushNegations p t).1.Alike (nnf t)

def ReachesNegated (t : Tree) : Prop :=
  ∀ n : Node, n.content = .op .not → Reaches (mk n [t])

theorem pushNegationsList_reaches (each : ∀ c ∈ cs, Reaches c) {p : Pool}
    (running : p.stop = none) : (pushNegationsList p cs).2.stop = none ∧
      (pushNegationsList p cs).1.map anonymous = (cs.map nnf).map anonymous := by
  induction cs generalizing p with
  | nil => exact ⟨running, rfl⟩
  | cons c cs ih =>
    obtain ⟨headRuns, headAlike⟩ := each c (by simp) p running
    obtain ⟨tailRuns, tailAlike⟩ := ih (forall_mem_cons.mp each).2 headRuns
    rw [pushNegationsList]
    refine ⟨tailRuns, ?_⟩
    rw [map_cons, map_cons, map_cons, tailAlike, headAlike]

theorem reaches_settled (settled : Settled n cs) (sound : n.kind ≠ .error)
    (each : ∀ c ∈ cs, Reaches c) : Reaches (mk n cs) := by
  intro p running
  obtain ⟨runs, alike⟩ := pushNegationsList_reaches each running
  rw [pushNegations_settled settled sound running, nnf_settled settled sound, Alike, anonymous_mk,
    anonymous_mk, alike]
  exact ⟨runs, rfl⟩

theorem reaches_error (error : n.kind = .error) (cs : List Tree) : Reaches (mk n cs) := by
  intro p running
  rw [pushNegations_error error, nnf_error error]
  exact ⟨running, rfl⟩

/-- The negation of something that is not logical stays. -/
theorem reachesNegated_operand (plain : t.kind.isLogical = false) (reaches : Reaches t) :
    ReachesNegated t := by
  intro m negation
  refine reaches_settled (fun _ => ⟨t, rfl, plain⟩) (by simp [Node.kind, negation, Content.kind])
    fun c member => ?_
  rwa [mem_singleton.mp member]

theorem reachesNegated_negation (negation : n.content = .op .not) (operand : Reaches c) :
    ReachesNegated (mk n [c]) := by
  intro m outer p running
  rw [pushNegations_double outer negation c running, nnf_negation outer, polar_negation negation]
  exact operand (p.discard (mk m [mk n []])) running

theorem reachesNegated_connective (connective : n.content = .op .and ∨ n.content = .op .or)
    (operands : ∀ c ∈ cs, ReachesNegated c) : ReachesNegated (mk n cs) := by
  intro m negation p running
  have settled (x : NodeId) (ds : List Tree) : Settled ⟨x, .any, n.loc, .op (dual n.content)⟩ ds :=
    fun again => absurd again (dual_ne_not _)
  have sound : (Content.op (dual n.content)).kind ≠ .error := by simp [Content.kind]
  have pushed : Reaches (mk ⟨p.next, .any, n.loc, .op (dual n.content)⟩
    (negations (p.next + 1) cs)) := by
    refine reaches_settled (settled p.next _) sound fun t member => ?_
    obtain ⟨k, d, content, inside, rfl⟩ := mem_negations member
    exact operands d inside k content
  obtain ⟨runs, alike⟩ := pushed ((p.take (1 + cs.length)).discard (mk m [mk n []])) running
  rw [pushNegations_dual negation connective cs running, nnf_negation negation,
    polar_connective connective]
  rw [nnf_settled (settled p.next _) sound, Alike, anonymous_mk, nnf_negations] at alike
  refine ⟨runs, ?_⟩
  rw [Alike, operator, operator, anonymous_mk]
  exact alike

/-- On trees whose negations have one operand the pass agrees with the reference, under a negation
as well as without. -/
theorem pushNegations_reaches (t : Tree) (unary : t.NegationsUnary) :
    Reaches t ∧ ReachesNegated t := by
  refine NegationsUnary.induction (motive := fun t => Reaches t ∧ ReachesNegated t)
    ?error ?negation ?connective ?plain t unary
  case error =>
    intro n cs error
    have reaches := reaches_error error cs
    refine ⟨reaches, reachesNegated_operand ?_ reaches⟩
    rw [show (mk n cs).kind = .error from error]
    rfl
  case negation =>
    exact fun n c negation ih => ⟨ih.2 n negation, reachesNegated_negation negation ih.1⟩
  case connective =>
    intro n cs connective ih
    obtain ⟨notNegation, sound⟩ := connective_descends connective
    exact ⟨reaches_settled (fun negation => absurd negation notNegation) sound fun c member =>
      (ih c member).1, reachesNegated_connective connective fun c member => (ih c member).2⟩
  case plain =>
    intro n cs plain ih
    obtain ⟨notNegation, _, _, sound⟩ := isPlain_iff.mp plain
    have reaches := reaches_settled (fun negation => absurd negation notNegation) sound
      fun c member => (ih c member).1
    refine ⟨reaches, reachesNegated_operand ?_ reaches⟩
    simp only [isPlain, Bool.and_eq_true, Bool.not_eq_true'] at plain
    exact plain.1

theorem isNegationNormal_anonymous : IsNegationNormal t.anonymous ↔ IsNegationNormal t := by
  apply throughout_anonymous
  intro s
  rw [anonymous_content, anonymous_children]
  constructor
  · intro holds negation
    obtain ⟨c, single, plain⟩ := holds negation
    obtain ⟨d, children, rfl⟩ := map_eq_singleton_iff.mp single
    exact ⟨d, children, by simpa using plain⟩
  · intro holds negation
    obtain ⟨c, single, plain⟩ := holds negation
    exact ⟨c.anonymous, by simp [single], by simpa using plain⟩

theorem isNegationNormal_descends (notNegation : n.content ≠ .op .not)
    (below : ∀ c ∈ cs, IsNegationNormal c) : IsNegationNormal (mk n cs) :=
  throughout_mk.mpr ⟨fun negation => absurd negation notNegation, fun _ => below⟩

theorem isNegationNormal_error (error : n.kind = .error) (cs : List Tree) :
    IsNegationNormal (mk n cs) := by
  refine throughout_mk.mpr ⟨fun negation => ?_, fun sound => absurd error sound⟩
  simp [Node.kind, show n.content = .op .not from negation, Content.kind] at error

/-- A negation of something that is not logical is in normal form when its operand is. -/
theorem isNegationNormal_negation (plain : c.kind.isLogical = false)
    (operand : IsNegationNormal c) : IsNegationNormal (mk n [c]) := by
  refine throughout_mk.mpr ⟨fun _ => ⟨c, rfl, plain⟩, fun _ d member => ?_⟩
  rw [mem_singleton.mp member]
  exact operand

/-- The reference form is a normal form, under a pending negation as well as without. -/
theorem polar_isNegationNormal (t : Tree) (unary : t.NegationsUnary) :
    IsNegationNormal (nnf t) ∧
      ∀ pending : Node, IsNegationNormal (polar (some pending) t) := by
  refine NegationsUnary.induction (motive := fun t => IsNegationNormal (nnf t) ∧
    ∀ pending : Node, IsNegationNormal (polar (some pending) t))
    ?error ?negation ?connective ?plain t unary
  case error =>
    intro n cs error
    have plain : (mk n cs).kind.isLogical = false := by
      rw [show (mk n cs).kind = .error from error]
      rfl
    refine ⟨?_, fun pending => ?_⟩
    · rw [nnf_error error]
      exact isNegationNormal_error error cs
    · rw [polar_error error]
      exact isNegationNormal_negation plain (isNegationNormal_error error cs)
  case negation =>
    intro n c negation ih
    refine ⟨?_, fun pending => ?_⟩
    · rw [nnf_negation negation]
      exact ih.2 n
    · rw [polar_negation negation]
      exact ih.1
  case connective =>
    intro n cs connective ih
    obtain ⟨notNegation, sound⟩ := connective_descends connective
    refine ⟨?_, fun pending => ?_⟩
    · rw [nnf_descends notNegation sound]
      exact isNegationNormal_descends notNegation
        (forall_mem_map.mpr fun c member => (ih c member).1)
    · rw [polar_connective connective, polarNegated_eq]
      refine isNegationNormal_descends ?_
        (forall_mem_map.mpr fun c member => (ih c member).2 _)
      rcases connective with content | content <;> simp [content, dual]
  case plain =>
    intro n cs plain ih
    obtain ⟨notNegation, _, _, sound⟩ := isPlain_iff.mp plain
    have arguments := isNegationNormal_descends notNegation
      (forall_mem_map.mpr fun c member => (ih c member).1)
    refine ⟨?_, fun pending => ?_⟩
    · rw [nnf_descends notNegation sound]
      exact arguments
    · rw [polar_plain plain]
      refine isNegationNormal_negation ?_ arguments
      simp only [isPlain, Bool.and_eq_true, Bool.not_eq_true'] at plain
      exact plain.1

theorem nnf_isNegationNormal (unary : t.NegationsUnary) : IsNegationNormal (nnf t) :=
  (polar_isNegationNormal t unary).1

/-- A tree in normal form is its own reference form. -/
theorem nnf_of_isNegationNormal (normal : t.IsNegationNormal) : nnf t = t := by
  induction t with
  | mk n cs ih =>
    by_cases error : n.kind = .error
    · exact nnf_error error cs
    · have settled : Settled n cs := normal.here
      rw [nnf_settled settled error,
        map_congr_left fun c member => ih c member (Throughout.below normal error member)]
      exact congrArg (mk n) (map_id cs)

end TaskNet.Tree
