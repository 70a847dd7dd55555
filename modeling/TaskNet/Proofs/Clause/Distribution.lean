import Mathlib.Algebra.GroupWithZero.Nat
import Mathlib.Algebra.Order.BigOperators.Group.List
import Mathlib.Algebra.Order.Group.Nat
import TaskNet.Clause.Distribution
import TaskNet.Proofs.Clause.Flatten
import TaskNet.Proofs.Clause.Negation

/-!
Disjunctive normal form against a reference list of clauses. A disjunction has the clauses of its
operands one after the other; a conjunction has one clause for each choice of a clause of every
operand, in lexicographic order. Distribution, which splits the leftmost disjunction of a clause and
copies the rest, arrives at that list in that order. `Spreads` says how a distribution goes, step by
step, and what holds of distributions is shown along it.
-/

namespace TaskNet.Tree

open List

variable {t or c arg : Tree} {cs before after : List Tree} {f : Spread → Tree → List Tree × Spread}
  {limit : Int} {depth : Tree → Nat} {p : Pool} {o : Operator}

mutual

/-- The clauses of a tree in negation normal form, each the list of its literals. -/
def dnf : Tree → List (List Tree)
  | mk n cs =>
    match n.content with
    | .op .or => dnfAny cs
    | .op .and => dnfAll cs
    | _ => [[flat (mk n cs)]]

def dnfAny : List Tree → List (List Tree)
  | [] => []
  | c :: cs => dnf c ++ dnfAny cs

def dnfAll : List Tree → List (List Tree)
  | [] => [[]]
  | c :: cs => (dnf c).flatMap fun clause => (dnfAll cs).map (clause ++ ·)

end

theorem dnfAny_eq (cs : List Tree) : dnfAny cs = cs.flatMap dnf := by
  induction cs with
  | nil => rfl
  | cons c cs ih => rw [dnfAny, ih, flatMap_cons]

theorem dnf_or (content : t.content = .op .or) : dnf t = t.children.flatMap dnf := by
  cases t with
  | mk n cs => rw [dnf, show n.content = .op .or from content, dnfAny_eq, children_mk]

theorem dnf_and (content : t.content = .op .and) : dnf t = dnfAll t.children := by
  cases t with
  | mk n cs => rw [dnf, show n.content = .op .and from content, children_mk]

theorem dnf_literal (notAnd : t.content ≠ .op .and) (notOr : t.content ≠ .op .or) :
    dnf t = [[flat t]] := by
  cases t with
  | mk n cs =>
    rw [dnf]
    split
    · contradiction
    · contradiction
    · rfl

/-- The clauses of a conjunction of two groups of operands pair the clauses of the groups. -/
theorem dnfAll_append (xs ys : List Tree) :
    dnfAll (xs ++ ys) = (dnfAll xs).flatMap fun clause => (dnfAll ys).map (clause ++ ·) := by
  induction xs with
  | nil => simp [dnfAll]
  | cons x xs ih =>
    rw [cons_append, dnfAll, ih, dnfAll, flatMap_assoc]
    apply flatMap_congr
    intro first _
    rw [map_flatMap, flatMap_map]
    apply flatMap_congr
    intro second _
    simp

theorem dnfAny_operands (c : Tree) : (operands (.op .or) c).flatMap dnf = dnf c := by
  rw [operands]
  split
  · next same => rw [dnf_or same]
  · simp

theorem dnfAll_operands (c : Tree) : dnfAll (operands (.op .and) c) = dnf c := by
  rw [operands]
  split
  · next same => rw [dnf_and same]
  · simp [dnfAll]

theorem dnfAll_absorb (cs : List Tree) :
    dnfAll (cs.flatMap (operands (.op .and))) = dnfAll cs := by
  induction cs with
  | nil => rfl
  | cons c cs ih => rw [flatMap_cons, dnfAll_append, ih, dnfAll_operands, dnfAll]

theorem dnfAll_congr {xs ys : List Tree} (same : xs.map dnf = ys.map dnf) :
    dnfAll xs = dnfAll ys := by
  induction xs generalizing ys with
  | nil =>
    cases ys with
    | nil => rfl
    | cons y ys => simp at same
  | cons x xs ih =>
    cases ys with
    | nil => simp at same
    | cons y ys =>
      obtain ⟨head, tail⟩ := cons.inj same
      rw [dnfAll, dnfAll, head, ih tail]

/-- Flattening does not change the clauses. -/
theorem dnf_flat (t : Tree) : dnf (flat t) = dnf t := by
  induction t with
  | mk n cs ih =>
    have children : (cs.map flat).map dnf = cs.map dnf := by
      rw [map_map]
      exact map_congr_left ih
    by_cases isOr : n.content = .op .or
    · have sound : n.kind ≠ .error := by simp [Node.kind, isOr, Content.kind]
      rw [dnf_or (by simpa using isOr), dnf_or (t := mk n cs) isOr, flat_sound sound, children_mk,
        absorb_connective (.inr isOr), isOr, flatMap_assoc,
        flatMap_congr fun c _ => dnfAny_operands c, flatMap_def, children,
        flatMap_def, children_mk]
    · by_cases isAnd : n.content = .op .and
      · have sound : n.kind ≠ .error := by simp [Node.kind, isAnd, Content.kind]
        rw [dnf_and (by simpa using isAnd), dnf_and (t := mk n cs) isAnd, flat_sound sound,
          children_mk, absorb_connective (.inl isAnd), isAnd, dnfAll_absorb,
          dnfAll_congr children, children_mk]
      · rw [dnf_literal (by simpa using isAnd) (by simpa using isOr),
          dnf_literal (t := mk n cs) isAnd isOr, flat_flat]

theorem dnfAll_anonymous (each : ∀ c ∈ cs, dnf c.anonymous = (dnf c).map (map anonymous)) :
    dnfAll (cs.map anonymous) = (dnfAll cs).map (map anonymous) := by
  induction cs with
  | nil => rfl
  | cons c cs ih =>
    rw [map_cons, dnfAll, each c (by simp), ih (forall_mem_cons.mp each).2,
      dnfAll, flatMap_map, map_flatMap]
    apply flatMap_congr
    intro clause _
    simp

/-- The clauses of a tree without identities are the clauses of the tree, without identities. -/
theorem dnf_anonymous (t : Tree) : dnf t.anonymous = (dnf t).map (map anonymous) := by
  induction t with
  | mk n cs ih =>
    by_cases isOr : n.content = .op .or
    · rw [dnf_or (by simpa using isOr), dnf_or (t := mk n cs) isOr, anonymous_children,
        children_mk, flatMap_map, map_flatMap]
      exact flatMap_congr ih
    · by_cases isAnd : n.content = .op .and
      · rw [dnf_and (by simpa using isAnd), dnf_and (t := mk n cs) isAnd, anonymous_children,
          children_mk, dnfAll_anonymous ih]
      · rw [dnf_literal (by simpa using isAnd) (by simpa using isOr),
          dnf_literal (t := mk n cs) isAnd isOr, flat_anonymous]
        rfl

/-- A clause before or after distribution: no disjunction, flat, with its negations pushed down. -/
structure IsClause (t : Tree) : Prop where
  normal : t.IsNegationNormal
  flatness : t.IsFlat
  notOr : t.content ≠ .op .or

theorem isClause_anonymous : IsClause t.anonymous ↔ IsClause t := by
  constructor
  · rintro ⟨normal, flatness, notOr⟩
    exact ⟨isNegationNormal_anonymous.mp normal, isFlat_anonymous.mp flatness, by simpa using notOr⟩
  · rintro ⟨normal, flatness, notOr⟩
    exact ⟨isNegationNormal_anonymous.mpr normal,
      isFlat_anonymous.mpr flatness, by simpa using notOr⟩

/-- In negation normal form, whatever is no conjunction or disjunction is a literal. -/
theorem isClauseLiteral_of_normal (normal : t.IsNegationNormal) (notAnd : t.content ≠ .op .and)
    (notOr : t.content ≠ .op .or) : t.isClauseLiteral = true := by
  cases t with
  | mk n cs =>
    rw [isClauseLiteral.eq_def]
    dsimp only
    split
    · next negation =>
      obtain ⟨c, rfl, plain⟩ : ∃ c, cs = [c] ∧ c.kind.isLogical = false := normal.here negation
      simp [plain]
    · contradiction
    · contradiction
    · rfl

theorem content_of_isClauseLiteral (literal : t.isClauseLiteral = true) :
    t.content ≠ .op .and ∧ t.content ≠ .op .or := by
  cases t with
  | mk n cs =>
    constructor
    · intro content
      rw [content_mk] at content
      simp [isClauseLiteral, content] at literal
    · intro content
      rw [content_mk] at content
      simp [isClauseLiteral, content] at literal

/-- A flat literal is its own only clause. -/
theorem dnf_isClauseLiteral (literal : t.isClauseLiteral = true) (flatness : t.IsFlat) :
    dnf t = [[t]] := by
  obtain ⟨notAnd, notOr⟩ := content_of_isClauseLiteral literal
  rw [dnf_literal notAnd notOr, flat_of_isFlat flatness]

/-- A conjunction of literals has a single clause. -/
theorem dnfAll_literals (literals : ∀ c ∈ cs, c.isClauseLiteral = true)
    (flatness : ∀ c ∈ cs, c.IsFlat) : dnfAll cs = [cs] := by
  induction cs with
  | nil => rfl
  | cons c cs ih =>
    rw [dnfAll, dnf_isClauseLiteral (literals c (by simp)) (flatness c (by simp)),
      ih (forall_mem_cons.mp literals).2
        (forall_mem_cons.mp flatness).2]
    rfl

theorem IsFlat.children (flatness : t.IsFlat) (content : t.content = .op o)
    (member : c ∈ t.children) : c.IsFlat :=
  Throughout.below flatness (by rw [kind_eq_op.mpr content]; simp) member

theorem IsNegationNormal.children (normal : t.IsNegationNormal)
    (content : t.content = .op o) (member : c ∈ t.children) : c.IsNegationNormal :=
  Throughout.below normal (by rw [kind_eq_op.mpr content]; simp) member

/-- A clause that needs no distribution is the only clause of its reference list. -/
theorem dnf_isSimple (simple : t.isSimple = true) (flatness : t.IsFlat) :
    dnf t = [operands (.op .and) t] := by
  simp only [isSimple, Bool.or_eq_true, Bool.and_eq_true, beq_iff_eq, all_eq_true] at simple
  rcases simple with literal | ⟨conjunction, literals⟩
  · rw [dnf_isClauseLiteral literal flatness, operands,
      if_neg (content_of_isClauseLiteral literal).1]
  · have content := kind_eq_op.mp conjunction
    rw [dnf_and content, operands, if_pos content,
      dnfAll_literals literals fun c member => flatness.children content member]

theorem dnf_simple (simple : ∀ c ∈ cs, c.isSimple = true) (clauses : ∀ c ∈ cs, c.IsClause) :
    cs.flatMap dnf = cs.map (operands (.op .and)) := by
  rw [flatMap_congr fun c member => dnf_isSimple (simple c member) (clauses c member).flatness]
  exact flatMap_pure_eq_map _ cs

theorem splitAtOr_some (found : splitAtOr cs = some (before, or, after)) :
    cs = before ++ or :: after ∧ or.content = .op .or ∧ ∀ c ∈ before, c.content ≠ .op .or := by
  induction cs generalizing before with
  | nil => simp [splitAtOr] at found
  | cons c cs ih =>
    rw [splitAtOr] at found
    by_cases isOr : c.content = .op .or
    · simp only [kind_eq_op.mpr isOr, beq_self_eq_true, if_true, Option.some.injEq,
        Prod.mk.injEq] at found
      obtain ⟨rfl, rfl, rfl⟩ := found
      exact ⟨rfl, isOr, by simp⟩
    · rw [if_neg (by simpa [kind_eq_op] using isOr)] at found
      obtain ⟨⟨earlier, or', after'⟩, inside, equal⟩ := Option.map_eq_some_iff.mp found
      simp only [Prod.mk.injEq] at equal
      obtain ⟨rfl, rfl, rfl⟩ := equal
      obtain ⟨rfl, content, none⟩ := ih inside
      exact ⟨rfl, content, by simpa using ⟨isOr, none⟩⟩

theorem splitAtOr_none (absent : splitAtOr cs = none) : ∀ c ∈ cs, c.content ≠ .op .or := by
  induction cs with
  | nil => simp
  | cons c cs ih =>
    rw [splitAtOr] at absent
    by_cases isOr : c.content = .op .or
    · simp [kind_eq_op.mpr isOr] at absent
    · rw [if_neg (by simpa [kind_eq_op] using isOr)] at absent
      simpa using ⟨isOr, ih (by simpa using absent)⟩

/-- A clause that needs distribution is a conjunction with a disjunction among its operands; what
stands before the first one are literals. -/
theorem IsClause.split (clause : t.IsClause) (complex : t.isSimple = false) :
    t.content = .op .and ∧ ∃ before or after, splitAtOr t.children = some (before, or, after) ∧
      t.children = before ++ or :: after ∧ or.content = .op .or ∧
      ∀ c ∈ before, c.isClauseLiteral = true := by
  simp only [isSimple, Bool.or_eq_false_iff] at complex
  have content : t.content = .op .and := by
    by_contra notAnd
    simp [isClauseLiteral_of_normal clause.normal notAnd clause.notOr] at complex
  have notAnd : ∀ c ∈ t.children, c.content ≠ .op .and := fun c member =>
    content ▸ clause.flatness.here (.inl content) c member
  refine ⟨content, ?_⟩
  cases found : splitAtOr t.children with
  | none =>
    have literals : t.children.all isClauseLiteral = true := all_eq_true.mpr fun c member =>
      isClauseLiteral_of_normal (clause.normal.children content member) (notAnd c member)
        (splitAtOr_none found c member)
    simp [kind_eq_op.mpr content, literals] at complex
  | some parts =>
    obtain ⟨before, or, after⟩ := parts
    obtain ⟨children, isOr, none⟩ := splitAtOr_some found
    refine ⟨before, or, after, rfl, children, isOr, fun c member => ?_⟩
    have inside : c ∈ t.children := by simp [children, member]
    exact isClauseLiteral_of_normal (clause.normal.children content inside) (notAnd c inside)
      (none c member)

theorem disjunctionsList_eq (cs : List Tree) :
    disjunctionsList cs = (cs.map disjunctions).sum := by
  induction cs with
  | nil => rfl
  | cons c cs ih => rw [disjunctionsList, ih, map_cons, sum_cons]

theorem disjunctions_anonymous (t : Tree) : t.anonymous.disjunctions = t.disjunctions := by
  induction t with
  | mk n cs ih =>
    have children : (cs.map anonymous).map disjunctions = cs.map disjunctions := by
      rw [map_map]
      exact map_congr_left ih
    rw [anonymous_mk, disjunctions, disjunctions, disjunctionsList_eq, disjunctionsList_eq,
      children]

theorem disjunctions_operands (content : Content) (c : Tree) :
    ((operands content c).map disjunctions).sum ≤ c.disjunctions := by
  cases c with
  | mk n cs =>
    rw [operands]
    split
    · rw [children_mk, disjunctions, disjunctionsList_eq]
      omega
    · simp

theorem disjunctions_absorb (content : Content) (cs : List Tree) :
    ((absorb content cs).map disjunctions).sum ≤ (cs.map disjunctions).sum := by
  rw [absorb]
  split
  · induction cs with
    | nil => simp
    | cons c cs ih =>
      have head := disjunctions_operands content c
      simp only [flatMap_cons, map_append, sum_append, map_cons, sum_cons]
      omega
  · exact Nat.le_refl _

/-- Flattening adds no disjunction. -/
theorem disjunctions_flat (t : Tree) : (flat t).disjunctions ≤ t.disjunctions := by
  induction t with
  | mk n cs ih =>
    by_cases error : n.kind = .error
    · exact Nat.le_of_eq (by rw [flat_error error])
    · have children : ((cs.map flat).map disjunctions).sum ≤ (cs.map disjunctions).sum := by
        rw [map_map]
        exact sum_le_sum ih
      have absorbed := disjunctions_absorb n.content (cs.map flat)
      rw [flat_sound error, disjunctions, disjunctions, disjunctionsList_eq, disjunctionsList_eq]
      omega

/-- The clause of one alternative: the flat conjunction with the alternative in the place of the
disjunction it is taken from. -/
def alternative (loc : Location) (before after : List Tree) (arg : Tree) : Tree :=
  flat (operator 0 .and loc (before ++ arg :: after))

theorem alternatives_spec (loc : Location) (before after : List Tree) (args : List Tree)
    (p : Pool) :
    (alternatives loc before after p args).2.stop = p.stop ∧
      (alternatives loc before after p args).1.map anonymous =
        args.map fun arg => (alternative loc before after arg).anonymous := by
  induction args generalizing p with
  | nil => exact ⟨rfl, rfl⟩
  | cons arg args ih =>
    rw [alternatives]
    dsimp only
    obtain ⟨tree, next, stop⟩ := (flatten_flattens (operator p.next .and loc
      ((copyList (p.next + 1) before).1 ++ arg ::
        (copyList (copyList (p.next + 1) before).2 after).1))).1
      { p with next := (copyList (copyList (p.next + 1) before).2 after).2 }
    obtain ⟨laterStop, laterTrees⟩ := ih (flatten
      { p with next := (copyList (copyList (p.next + 1) before).2 after).2 }
      (operator p.next .and loc ((copyList (p.next + 1) before).1 ++ arg ::
        (copyList (copyList (p.next + 1) before).2 after).1))).2
    refine ⟨laterStop.trans stop, ?_⟩
    rw [map_cons, map_cons, laterTrees, tree, alternative, ← flat_anonymous,
      ← flat_anonymous, operator, operator, anonymous_mk, anonymous_mk, map_append,
      map_append, map_cons, map_cons, copyList_anonymous, copyList_anonymous]

/-- Distributing over the first disjunction gives, one after the other, the clauses of the
alternatives. -/
theorem dnf_alternatives (content : t.content = .op .and)
    (children : t.children = before ++ or :: after) (isOr : or.content = .op .or)
    (literals : ∀ c ∈ before, c.isClauseLiteral = true) (flatness : ∀ c ∈ before, c.IsFlat) :
    dnf t = or.children.flatMap fun arg => dnf (alternative t.loc before after arg) := by
  have each : ∀ arg, dnf (alternative t.loc before after arg) =
      (dnf arg).flatMap fun clause =>
      (dnfAll after).map fun rest => before ++ (clause ++ rest) := by
    intro arg
    have conjunction : (operator 0 .and t.loc (before ++ arg :: after)).content = .op .and := rfl
    rw [alternative, dnf_flat, dnf_and conjunction, operator, children_mk, dnfAll_append,
      dnfAll_literals literals flatness]
    simp [dnfAll, map_flatMap, Function.comp_def]
  rw [dnf_and content, children, dnfAll_append, dnfAll_literals literals flatness, dnfAll,
    dnf_or isOr, flatMap_congr fun arg _ => each arg]
  simp [map_flatMap, flatMap_assoc, Function.comp_def]

/-- Flattening keeps negation normal form. -/
theorem flat_isNegationNormal (normal : t.IsNegationNormal) : (flat t).IsNegationNormal := by
  induction t with
  | mk n cs ih =>
    by_cases error : n.kind = .error
    · rw [flat_error error]
      exact normal
    · have children : ∀ c ∈ cs.map flat, c.IsNegationNormal :=
        forall_mem_map.mpr fun c member => ih c member (Throughout.below normal error member)
      rw [flat_sound error]
      by_cases negation : n.content = .op .not
      · obtain ⟨c, rfl, plain⟩ : ∃ c, cs = [c] ∧ c.kind.isLogical = false := normal.here negation
        rw [negation, absorb_other (by simp)]
        refine isNegationNormal_negation ?_ (children (flat c) (by simp))
        rw [show (flat c).kind = (flat c).content.kind from rfl, flat_content]
        exact plain
      · refine isNegationNormal_descends negation ?_
        refine forall_absorb children fun c member _ connective d below => ?_
        refine Throughout.below (children c member) ?_ below
        rw [show c.kind = c.content.kind from rfl, ‹c.content = n.content›]
        exact error

theorem alternative_isClause (clause : t.IsClause) (content : t.content = .op .and)
    (children : t.children = before ++ or :: after) (isOr : or.content = .op .or)
    (member : arg ∈ or.children) : IsClause (alternative t.loc before after arg) := by
  have normal : ∀ c ∈ before ++ or :: after, c.IsNegationNormal := fun c inside =>
    clause.normal.children content (children ▸ inside)
  refine ⟨flat_isNegationNormal (isNegationNormal_descends (by simp) ?_),
    flat_isFlat _, by simp [alternative, operator]⟩
  rw [forall_mem_append, forall_mem_cons] at normal ⊢
  exact ⟨normal.1, normal.2.1.children isOr member, normal.2.2⟩

/-- The disjunctions of a conjunction, counted by what stands before, in and after one of them. -/
theorem disjunctions_split (content : t.content = .op .and)
    (children : t.children = before ++ or :: after) (isOr : or.content = .op .or) :
    t.disjunctions = (before.map disjunctions).sum + 1 + (or.children.map disjunctions).sum +
      (after.map disjunctions).sum := by
  cases t with
  | mk n cs =>
    cases or with
    | mk m ds =>
      rw [content_mk] at content isOr
      rw [children_mk] at children
      rw [disjunctions, disjunctionsList_eq, content, children, map_append, sum_append,
        map_cons, sum_cons, disjunctions, isOr, disjunctionsList_eq, children_mk]
      simp only [reduceCtorEq, Content.op.injEq, if_true, if_false]
      omega

theorem disjunctions_alternative (content : t.content = .op .and)
    (children : t.children = before ++ or :: after) (isOr : or.content = .op .or)
    (member : arg ∈ or.children) :
    (alternative t.loc before after arg).disjunctions < t.disjunctions := by
  have spread := disjunctions_flat (operator 0 .and t.loc (before ++ arg :: after))
  have whole := disjunctions_split content children isOr
  obtain ⟨earlier, later, args⟩ := append_of_mem member
  rw [operator, disjunctions, disjunctionsList_eq] at spread
  simp only [args, reduceCtorEq, Content.op.injEq, if_false, map_append, sum_append,
    map_cons, sum_cons] at spread whole
  rw [alternative, operator]
  omega

theorem dnf_map_anonymous (cs : List Tree) :
    (cs.flatMap dnf).map (map anonymous) = (cs.map anonymous).flatMap dnf := by
  rw [map_flatMap, flatMap_map]
  exact flatMap_congr fun c _ => (dnf_anonymous c).symm

/-- Each alternative comes from an operand of the disjunction. -/
theorem alternatives_origin {loc : Location} {args : List Tree}
    (member : c ∈ (alternatives loc before after p args).1) :
    ∃ arg ∈ args, (alternative loc before after arg).anonymous = c.anonymous :=
  mem_map.mp ((alternatives_spec loc before after args p).2 ▸ mem_map_of_mem member)

/-- A clause is split at its first disjunction: the clauses that take its place, and the state then.
-/
def splitUp (s : Spread) (t : Tree) (before : List Tree) (or : Tree) (after : List Tree) :
    List Tree × Spread :=
  let spent := t.withChildren (before ++ or.withChildren [] :: after)
  let next := alternatives t.loc before after (s.pool.discard spent) or.children
  (next.1, ⟨next.2, s.total - 1 + or.children.length⟩)

/-- The alternatives of a clause are clauses with fewer disjunctions, and together they have the
reference clauses of the clause. -/
theorem splitUp_refine (clause : t.IsClause) (complex : t.isSimple = false)
    (found : splitAtOr t.children = some (before, or, after)) (s : Spread) :
    let cs := (splitUp s t before or after).1
    (∀ c ∈ cs, c.IsClause ∧ c.disjunctions < t.disjunctions) ∧
    (cs.flatMap dnf).map (map anonymous) = (dnf t).map (map anonymous) := by
  obtain ⟨content, before', or', after', found', children, isOr, literals⟩ := clause.split complex
  obtain ⟨rfl, rfl, rfl⟩ : before = before' ∧ or = or' ∧ after = after' := by
    simpa [found] using found'
  refine ⟨fun c member => ?_, ?_⟩
  · obtain ⟨arg, inside, alike⟩ := alternatives_origin member
    rw [← isClause_anonymous, ← disjunctions_anonymous, ← alike, isClause_anonymous,
      disjunctions_anonymous]
    exact ⟨alternative_isClause clause content children isOr inside,
      disjunctions_alternative content children isOr inside⟩
  · have flatness : ∀ c ∈ before, c.IsFlat := fun c member =>
      clause.flatness.children content (by simp [children, member])
    rw [dnf_map_anonymous, splitUp, (alternatives_spec t.loc before after or.children _).2,
      flatMap_map, dnf_alternatives content children isOr literals flatness, map_flatMap]
    exact flatMap_congr fun arg _ => dnf_anonymous _

/-- Why a distribution stops at a clause that may take `n` nested steps: there is nothing to split
it at or no step left, or there would be more clauses than the bound. -/
inductive Halts (limit : Int) (n : Nat) (s : Spread) (t : Tree) : Stop → Prop
  | stuck (none : splitAtOr t.children = none ∨ n = 0) : Halts limit n s t (.fault .noDisjunction)
  | passed {or : Tree} {before after : List Tree}
      (found : splitAtOr t.children = some (before, or, after))
      (tooMany : passes limit (s.total - 1 + or.children.length) = true) : Halts limit n s t .limit

/-- The course of a distribution of clauses from left to right, where a function says how many
nested steps each may take. A clause stays if the distribution has stopped or if it is simple, it
may stop the distribution, or it gives way to what the clauses that it is split into lead to. -/
inductive Spreads (limit : Int) :
    (Tree → Nat) → List Tree → Spread → List Tree → Spread → Prop
  | nil {depth : Tree → Nat} (s : Spread) : Spreads limit depth [] s [] s
  | kept {depth : Tree → Nat} {t : Tree} {ts us : List Tree} {s s' : Spread}
      (done : s.pool.stop ≠ none ∨ t.isSimple = true) (rest : Spreads limit depth ts s us s') :
      Spreads limit depth (t :: ts) s (t :: us) s'
  | halted {depth : Tree → Nat} {t : Tree} {ts us : List Tree} {s s' : Spread} {reason : Stop}
      (running : s.pool.stop = none) (complex : t.isSimple = false)
      (why : Halts limit (depth t) s t reason)
      (rest : Spreads limit depth ts { s with pool := s.pool.halt reason } us s') :
      Spreads limit depth (t :: ts) s (t :: us) s'
  | split {depth : Tree → Nat} {n : Nat} {t or : Tree} {before after ts us vs : List Tree}
      {s r s' : Spread} (running : s.pool.stop = none) (complex : t.isSimple = false)
      (found : splitAtOr t.children = some (before, or, after)) (deep : depth t = n + 1)
      (few : passes limit (s.total - 1 + or.children.length) = false)
      (inner : Spreads limit (fun _ => n) (splitUp s t before or after).1
        (splitUp s t before or after).2 vs r)
      (rest : Spreads limit depth ts r us s') : Spreads limit depth (t :: ts) s (vs ++ us) s'

theorem expandEach_spreads
    (each : ∀ c ∈ cs, ∀ (s : Spread) ts us s', Spreads limit depth ts (f s c).2 us s' →
      Spreads limit depth (c :: ts) s ((f s c).1 ++ us) s') (s : Spread) :
    Spreads limit depth cs s (expandEach f s cs).1 (expandEach f s cs).2 := by
  induction cs generalizing s with
  | nil => exact .nil s
  | cons c cs ih =>
    rw [expandEach]
    exact each c (by simp) s _ _ _ (ih (forall_mem_cons.mp each).2 _)

theorem expandClause_spreads {n : Nat} {ts us : List Tree} {s s' : Spread}
    (deep : depth t = n) : Spreads limit depth ts (expandClause limit n s t).2 us s' →
      Spreads limit depth (t :: ts) s ((expandClause limit n s t).1 ++ us) s' := by
  induction n using Nat.strong_induction_on generalizing depth t ts us s s' with
  | _ n ih =>
    rw [expandClause.eq_def]
    dsimp only
    split
    · next done =>
      exact .kept (by simpa [Pool.stopped, Option.isSome_iff_ne_none] using done)
    · next undone =>
      have go : s.pool.stop = none ∧ t.isSimple = false := by simpa [Pool.stopped] using undone
      split
      · next before or after m found =>
        split
        · next tooMany => exact .halted go.1 go.2 (.passed found tooMany)
        · next few =>
          refine .split go.1 go.2 found deep (by simpa using few) (expandEach_spreads ?_ _)
          exact fun c _ s ts us s' => ih m (Nat.lt_succ_self m) rfl
      · next stuck =>
        refine .halted go.1 go.2 (.stuck ?_)
        rw [deep]
        cases found : splitAtOr t.children with
        | none => exact .inl rfl
        | some parts => exact .inr (Nat.eq_zero_of_not_pos fun more =>
            stuck _ _ _ _ found (Nat.succ_pred_eq_of_pos more).symm)

/-- The distribution of clauses, each with as many nested steps as it has disjunctions. -/
theorem spreads (limit : Int) (cs : List Tree) (s : Spread) :
    let run := expandEach (fun s c => expandClause limit c.disjunctions s c) s cs
    Spreads limit disjunctions cs s run.1 run.2 :=
  expandEach_spreads (fun _ _ _ _ _ _ => expandClause_spreads rfl) s

namespace Spreads

variable {depth : Tree → Nat} {ts us : List Tree} {s s' : Spread}
  (spreads : Spreads limit depth ts s us s')
include spreads

/-- A distribution that has stopped is not taken up again. -/
theorem stays {reason : Stop} (stopped : s.pool.stop = some reason) :
    s'.pool.stop = some reason := by
  induction spreads with
  | nil => exact stopped
  | kept _ _ ih => exact ih stopped
  | halted running => simp [running] at stopped
  | split running => simp [running] at stopped

theorem running (finished : s'.pool.stop = none) : s.pool.stop = none := by
  cases stop : s.pool.stop with
  | none => rfl
  | some reason => simp [spreads.stays stop] at finished

/-- A condition that splitting keeps holds of the clauses that are left. -/
theorem each {P : Tree → Prop}
    (splits : ∀ (s : Spread) t before or after, P t → t.isSimple = false →
      splitAtOr t.children = some (before, or, after) → ∀ c ∈ (splitUp s t before or after).1, P c)
    (before : ∀ c ∈ ts, P c) : ∀ c ∈ us, P c := by
  induction spreads with
  | nil => exact before
  | kept _ _ ih | halted _ _ _ _ ih =>
    rw [forall_mem_cons] at before ⊢
    exact ⟨before.1, ih before.2⟩
  | split _ complex found _ _ _ _ inner rest =>
    rw [forall_mem_cons] at before
    exact forall_mem_append.mpr
      ⟨inner (splits _ _ _ _ _ before.1 complex found), rest before.2⟩

/-- A distribution that does not stop leaves clauses that need no distribution. -/
theorem simple (finished : s'.pool.stop = none) : ∀ c ∈ us, c.isSimple = true := by
  induction spreads with
  | nil => simp
  | kept done rest ih =>
    exact forall_mem_cons.mpr
      ⟨done.resolve_left (by simp [rest.running finished]), ih finished⟩
  | halted _ _ _ rest => simpa [Pool.halt] using rest.running finished
  | split _ _ _ _ _ _ rest inner later =>
    exact forall_mem_append.mpr ⟨inner (rest.running finished), later finished⟩

/-- Clauses are left, and together they have the same reference clauses. -/
theorem refines (clauses : ∀ c ∈ ts, c.IsClause) :
    (∀ c ∈ us, c.IsClause) ∧ (us.flatMap dnf).map (map anonymous) =
      (ts.flatMap dnf).map (map anonymous) := by
  have splits : ∀ (s : Spread) t before or after, t.IsClause → t.isSimple = false →
      splitAtOr t.children = some (before, or, after) →
      ∀ c ∈ (splitUp s t before or after).1, c.IsClause :=
    fun s _ _ _ _ clause complex found c member =>
      ((splitUp_refine clause complex found s).1 c member).1
  refine ⟨spreads.each splits clauses, ?_⟩
  induction spreads with
  | nil => rfl
  | kept _ _ ih | halted _ _ _ _ ih =>
    simp only [flatMap_cons, map_append, ih (forall_mem_cons.mp clauses).2]
  | split _ complex found _ _ _ _ inner rest =>
    rw [forall_mem_cons] at clauses
    rw [flatMap_append, flatMap_cons, map_append, map_append, rest clauses.2,
      inner (splits _ _ _ _ _ clauses.1 complex found)]
    exact congrArg (· ++ _) (splitUp_refine clauses.1 complex found _).2

/-- With a step for each disjunction a distribution stops at nothing but its bound, since each step
removes a disjunction. -/
theorem stops (running : s.pool.stop = none)
    (clauses : ∀ c ∈ ts, c.IsClause ∧ c.disjunctions ≤ depth c) :
    s'.pool.stop = none ∨ 0 < limit ∧ s'.pool.stop = some .limit := by
  induction spreads with
  | nil => exact .inl running
  | kept _ _ ih => exact ih running (forall_mem_cons.mp clauses).2
  | halted _ complex why rest =>
    obtain ⟨⟨clause, few⟩, _⟩ := forall_mem_cons.mp clauses
    cases why with
    | passed _ tooMany =>
      rw [passes, Bool.and_eq_true, decide_eq_true_eq] at tooMany
      exact .inr ⟨tooMany.1, rest.stays rfl⟩
    | stuck stuck =>
      obtain ⟨content, before, or, after, found, children, isOr, _⟩ := clause.split complex
      have some := disjunctions_split content children isOr
      rcases stuck with none | zero
      · simp [found] at none
      · omega
  | split running complex found deep _ _ rest ihInner ihRest =>
    obtain ⟨⟨clause, few⟩, later⟩ := forall_mem_cons.mp clauses
    rw [deep] at few
    have fewer := fun s => (splitUp_refine clause complex found s).1
    rcases ihInner ((alternatives_spec _ _ _ _ _).1.trans running) fun c member =>
      ⟨(fewer _ c member).1,
      Nat.le_of_lt_succ ((fewer _ c member).2.trans_le few)⟩ with runs | ⟨bounded, stopped⟩
    · exact ihRest runs later
    · exact .inr ⟨bounded, rest.stays stopped⟩

end Spreads

/-- Wrapping keeps the literals of every clause and leaves conjunctions only. -/
theorem wrapClauses_spec (cs : List Tree) (p : Pool) :
    (wrapClauses p cs).2.stop = p.stop ∧ (∀ c ∈ (wrapClauses p cs).1, c.content = .op .and) ∧
      (wrapClauses p cs).1.map children = cs.map (operands (.op .and)) := by
  induction cs generalizing p with
  | nil => exact ⟨rfl, by simp [wrapClauses], rfl⟩
  | cons c cs ih =>
    rw [wrapClauses]
    by_cases conjunction : c.content = .op .and
    · obtain ⟨stop, contents, literals⟩ := ih p
      rw [if_pos (by simp [kind_eq_op.mpr conjunction])]
      refine ⟨stop, by simpa using ⟨conjunction, contents⟩, ?_⟩
      rw [map_cons, map_cons, literals, operands, if_pos conjunction]
    · obtain ⟨stop, contents, literals⟩ := ih (p.take 1)
      rw [if_neg (by simpa [kind_eq_op] using conjunction)]
      refine ⟨stop, by simpa using ⟨rfl, contents⟩, ?_⟩
      rw [map_cons, map_cons, literals, operands, if_neg conjunction, operator, children_mk]

/-- A disjunction of conjunctions of literals. -/
structure IsDisjunctiveNormal (t : Tree) : Prop where
  disjunction : t.content = .op .or
  conjunctions : ∀ c ∈ t.children, c.content = .op .and
  literals : ∀ c ∈ t.children, ∀ l ∈ c.children, l.isClauseLiteral = true

/-- The literals of each clause of a disjunction of conjunctions. -/
def clauses (t : Tree) : List (List Tree) :=
  t.children.map children

/-- What the top of a flat tree in negation normal form contributes to a disjunction are clauses. -/
theorem isClause_operands (normal : t.IsNegationNormal) (flatness : t.IsFlat) :
    ∀ c ∈ operands (.op .or) t, c.IsClause := by
  intro c member
  rcases mem_operands.mp member with ⟨isOr, below⟩ | ⟨notOr, rfl⟩
  · exact ⟨normal.children isOr below, flatness.children isOr below,
      isOr ▸ flatness.here (.inr isOr) c below⟩
  · exact ⟨normal, flatness, notOr⟩

theorem literals_of_isSimple {l : Tree} (simple : t.isSimple = true)
    (member : l ∈ operands (.op .and) t) : l.isClauseLiteral = true := by
  simp only [isSimple, Bool.or_eq_true, Bool.and_eq_true, beq_iff_eq, all_eq_true] at simple
  rcases mem_operands.mp member with ⟨isAnd, below⟩ | ⟨notAnd, rfl⟩
  · rcases simple with literal | ⟨_, literals⟩
    · exact absurd isAnd (content_of_isClauseLiteral literal).1
    · exact literals l below
  · rcases simple with literal | ⟨conjunction, _⟩
    · exact literal
    · exact absurd (kind_eq_op.mp conjunction) notAnd

/-- The clauses of a tree before any distribution: what its flat negation normal form contributes to
a disjunction. -/
def summands (p : Pool) (t : Tree) : List Tree :=
  operands (.op .or) (flat (pushNegations p t).1)

/-- The operands of the flat form are clauses, with the reference clauses of the tree. -/
theorem summands_clauses (unary : t.NegationsUnary) (running : p.stop = none) :
    (∀ c ∈ summands p t, c.IsClause) ∧
      ((summands p t).flatMap dnf).map (map anonymous) =
        (dnf (nnf t)).map (map anonymous) := by
  have alike := ((pushNegations_reaches t unary).1 p running).2
  have normal : (pushNegations p t).1.IsNegationNormal := by
    rw [← isNegationNormal_anonymous, alike, isNegationNormal_anonymous]
    exact nnf_isNegationNormal unary
  refine ⟨isClause_operands (flat_isNegationNormal normal) (flat_isFlat _), ?_⟩
  rw [summands, dnfAny_operands, dnf_flat, ← dnf_anonymous, ← dnf_anonymous, alike]

/-- The pass when its first part does not stop it: the operands of the flat form are distributed,
and what is no conjunction is wrapped unless that stops. -/
theorem toClauses_summands (t : Tree)
    (pushed : (pushNegations (p.take 1) t).2.stop = none) :
    ∃ q : Pool, q.stop = none ∧ ∀ limit,
      let cs := summands (p.take 1) t
      let run := expandEach (fun s c => expandClause limit c.disjunctions s c) ⟨q, cs.length⟩ cs
      t.toClauses limit p =
        if run.2.pool.stopped then (mk ⟨p.next, .any, t.loc, .op .or⟩ run.1, run.2.pool)
        else (mk ⟨p.next, .any, t.loc, .op .or⟩ (wrapClauses run.2.pool run.1).1,
          (wrapClauses run.2.pool run.1).2) := by
  obtain ⟨spliced, _, stop⟩ :=
    splices (.inr rfl) [(pushNegations (p.take 1) t).1] (pushNegations (p.take 1) t).2
  rw [map_singleton, flatMap_singleton] at spliced
  refine ⟨_, stop.trans pushed, fun limit => ?_⟩
  have one : pushNegationsList (p.take 1) [t] =
      ([(pushNegations (p.take 1) t).1], (pushNegations (p.take 1) t).2) := rfl
  rw [toClauses, one]
  dsimp only
  rw [if_neg (by simp [Pool.stopped, pushed]), spliced]
  rfl

/-- The pass stops at its bound, if it has one. Otherwise it does not stop, leaves disjunctive
normal form, and its clauses are the reference clauses in order. -/
theorem toClauses_spec (limit : Int) {t : Tree} (unary : t.NegationsUnary)
    (running : p.stop = none) :
    (0 < limit ∧ (t.toClauses limit p).2.stop = some .limit) ∨
      (t.toClauses limit p).2.stop = none ∧ (t.toClauses limit p).1.IsDisjunctiveNormal ∧
        (t.toClauses limit p).1.clauses.map (map anonymous) =
          (dnf (nnf t)).map (map anonymous) := by
  obtain ⟨pushRuns, _⟩ := (pushNegations_reaches t unary).1 (p.take 1) running
  obtain ⟨clauses, reference⟩ := summands_clauses unary (p := p.take 1) running
  obtain ⟨q, qRuns, step⟩ := toClauses_summands t pushRuns
  have course := spreads limit (summands (p.take 1) t) ⟨q, (summands (p.take 1) t).length⟩
  have result := step limit
  dsimp only at result course
  rw [result]
  obtain ⟨each, same⟩ := course.refines clauses
  rcases course.stops qRuns fun c member => ⟨clauses c member, Nat.le_refl _⟩ with runs | ⟨bounded,
    stops⟩
  · have simple := course.simple runs
    generalize expandEach _ _ _ = run at runs each same simple
    obtain ⟨wrappedStop, conjunctions, wrapped⟩ := wrapClauses_spec run.1 run.2.pool
    rw [if_neg (by simp [Pool.stopped, runs])]
    refine .inr ⟨wrappedStop.trans runs, ⟨rfl, conjunctions, fun c member l below => ?_⟩, ?_⟩
    · have among : c.children ∈ run.1.map (operands (.op .and)) :=
        wrapped ▸ mem_map_of_mem member
      obtain ⟨clause, inside, same⟩ := mem_map.mp among
      exact literals_of_isSimple (simple clause inside) (same ▸ below)
    · rw [Tree.clauses, children_mk, wrapped, ← reference, ← same, dnf_simple simple each]
  · rw [if_pos (by simp [Pool.stopped, stops])]
    exact .inl ⟨bounded, stops⟩

end TaskNet.Tree
