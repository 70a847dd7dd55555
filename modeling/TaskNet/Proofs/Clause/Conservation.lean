import TaskNet.Proofs.Clause.Distribution
import TaskNet.Proofs.Tree.Identity

/-!
Normalization keeps every identity in one place: pushing negations down, flattening, distribution
and wrapping are moves, and so is the whole pass.
-/

namespace TaskNet.Tree

open List

variable {ts cs ds : List Tree} {m : Node} {C : Prop}

/-- What stands in the place of a negation with further operands after its first one was resolved.
-/
def Negated.whole (n : Node) (rest : List Tree) : Negated → Tree
  | .kept c => mk n (c :: rest)
  | .replaced t => t

def PushMoves (t : Tree) : Prop :=
  ∀ p : Pool, Moves True [t] p [(pushNegations p t).1] (pushNegations p t).2

def NegateMoves (t : Tree) : Prop :=
  ∀ (p : Pool) (n : Node) (rest : List Tree),
    Moves True [mk n (t :: rest)] p [(negate p n rest t).1.whole n rest] (negate p n rest t).2

theorem pushNegationsList_moves (each : ∀ t ∈ ts, PushMoves t) (p : Pool) :
    Moves True ts p (pushNegationsList p ts).1 (pushNegationsList p ts).2 := by
  induction ts generalizing p with
  | nil => exact .refl [] p
  | cons t ts ih =>
    rw [pushNegationsList]
    exact (each t (by simp) p).cons (ih (forall_mem_cons.mp each).2 _)

theorem pushNegations_moves_of {n : Node} (each : ∀ c ∈ cs, PushMoves c)
    (first : ∀ c ∈ cs, NegateMoves c) : PushMoves (mk n cs) := by
  intro p
  rw [pushNegations.eq_def]
  dsimp only
  split
  · exact .refl _ p
  · split
    · cases cs with
      | nil => exact .refl _ p
      | cons c rest =>
        have resolved := first c (by simp) p n rest
        dsimp only
        cases outcome : negate p n rest c with
        | mk negated q =>
          rw [outcome] at resolved
          cases negated with
          | replaced t => exact resolved
          | kept d =>
            refine resolved.trans (.under rfl (·) (.cons (.refl _ q) ?_))
            exact pushNegationsList_moves (forall_mem_cons.mp each).2 q
    · exact .refl _ p
    · exact .under rfl (·) (pushNegationsList_moves each p)

theorem negations_moves (ds : List Tree) (p : Pool) :
    Moves True ds p (negations p.next ds) (p.take ds.length) := by
  induction ds generalizing p with
  | nil => exact .refl [] p
  | cons d ds ih =>
    have rest := ih (p.take 1)
    rw [Pool.take, Pool.take, Nat.add_assoc, Nat.add_comm 1] at rest
    exact (MovesWith.operator [d] p .not d.loc fun _ => .inl rfl).cons rest

/-- Resolving a negation over a conjunction or disjunction: the dual operator and the negations of
the operands are new, both old operators are set aside. -/
theorem negate_connective_moves (each : ∀ d ∈ ds, PushMoves d) (first : ∀ d ∈ ds, NegateMoves d)
    (o : Operator) (loc : Location) (p : Pool) (n : Node) (rest : List Tree) :
    let taken := (p.take (1 + ds.length)).discard (mk n (mk m [] :: rest))
    Moves True [mk n (mk m ds :: rest)] p
      [operator p.next o loc (negateEach (p.next + 1) taken ds).1]
      (negateEach (p.next + 1) taken ds).2 := by
  intro taken
  let old := mk n (mk m [] :: rest)
  have apart : Moves True [mk n (mk m ds :: rest)] p (old :: ds) p :=
    .rearrange rfl rfl fun _ => by simp +arith [old]
  have drawn := (MovesWith.operator (K := Node.Known) (C := True) [] p o loc
    fun _ => .inl rfl).append (negations_moves ds (p.take 1))
  rw [Pool.take, Pool.take, Nat.add_assoc] at drawn
  have pushed : Moves True (negations (p.next + 1) ds) taken (negateEach (p.next + 1) taken ds).1
      (negateEach (p.next + 1) taken ds).2 := by
    rw [negateEach_eq]
    refine pushNegationsList_moves (fun t member => ?_) taken
    obtain ⟨k, d, -, inside, rfl⟩ := mem_negations member
    exact pushNegations_moves_of (by simpa using each d inside) (by simpa using first d inside)
  refine apart.trans (((MovesWith.refl [old] p).cons drawn).trans ((MovesWith.discard old _ _).trans
    ((MovesWith.append (.refl _ taken) pushed).trans (.rearrange rfl rfl fun _ => ?_))))
  simp +arith [operator]

theorem negate_moves_of (each : ∀ d ∈ ds, PushMoves d) (first : ∀ d ∈ ds, NegateMoves d) :
    NegateMoves (mk m ds) := by
  intro p n rest
  rw [negate.eq_def]
  dsimp only
  split
  · cases ds with
    | nil => exact .rearrange rfl rfl fun _ => rfl
    | cons e more =>
      refine .trans ?_ ((MovesWith.discard (mk n (mk m more :: rest)) [e] p).trans
        (each e (by simp) _))
      exact .rearrange rfl rfl fun _ => by simp +arith
  · exact negate_connective_moves each first _ _ p n rest
  · exact negate_connective_moves each first _ _ p n rest
  · exact .refl _ p
  · exact .under rfl (·) ((MovesWith.under rfl (·) (pushNegationsList_moves each p)).cons
      (.refl rest _))

theorem negation_moves (t : Tree) : PushMoves t ∧ NegateMoves t := by
  induction t with
  | mk n cs ih =>
    have each : ∀ c ∈ cs, PushMoves c := fun c member => (ih c member).1
    have first : ∀ c ∈ cs, NegateMoves c := fun c member => (ih c member).2
    exact ⟨pushNegations_moves_of each first, negate_moves_of each first⟩

def FlattenMoves (t : Tree) : Prop :=
  ∀ p : Pool, Moves True [t] p [(flatten p t).1] (flatten p t).2

def SpliceMoves (o : Operator) (ts : List Tree) : Prop :=
  ∀ p : Pool, Moves True ts p (splice o p ts).1 (splice o p ts).2

theorem flattenList_moves (each : ∀ t ∈ ts, FlattenMoves t) (p : Pool) :
    Moves True ts p (flattenList p ts).1 (flattenList p ts).2 := by
  induction ts generalizing p with
  | nil => exact .refl [] p
  | cons t ts ih =>
    rw [flattenList]
    exact (each t (by simp) p).cons (ih (forall_mem_cons.mp each).2 _)

theorem splice_moves_of {o : Operator} (each : ∀ t ∈ ts, FlattenMoves t)
    (nested : ∀ t ∈ ts, SpliceMoves o t.children) : SpliceMoves o ts := by
  induction ts with
  | nil => exact fun p => .refl [] p
  | cons t ts ih =>
    have tail := ih (forall_mem_cons.mp each).2
      (forall_mem_cons.mp nested).2
    intro p
    cases t with
    | mk n cs =>
      rw [splice]
      split
      · have rearranged : Moves True (mk n cs :: ts) p (mk n [] :: (cs ++ ts)) p :=
          .rearrange rfl rfl fun _ => by simp +arith
        have inner : Moves True (mk n [] :: (cs ++ ts)) p
            (mk n [] :: ((splice o p cs).1 ++ ts)) (splice o p cs).2 :=
          .cons (.refl _ p) ((nested (mk n cs) (by simp) p).append (.refl ts _))
        exact rearranged.trans (inner.trans ((MovesWith.discard _ _ _).trans
          (.append (.refl _ _) (tail _))))
      · exact (each (mk n cs) (by simp) p).cons (tail _)

theorem flatten_moves (t : Tree) : FlattenMoves t ∧ ∀ o, SpliceMoves o t.children := by
  induction t with
  | mk n cs ih =>
    have each : ∀ c ∈ cs, FlattenMoves c := fun c member => (ih c member).1
    have spliced : ∀ o, SpliceMoves o cs := fun o =>
      splice_moves_of each fun c member => (ih c member).2 o
    refine ⟨fun p => ?_, spliced⟩
    rw [flatten.eq_def]
    dsimp only
    split
    · exact .refl _ p
    · exact .under rfl (·) (spliced .and p)
    · exact .under rfl (·) (spliced .or p)
    · exact .under rfl (·) (flattenList_moves each p)

theorem splice_moves (o : Operator) (ts : List Tree) : SpliceMoves o ts :=
  splice_moves_of (fun t _ => (flatten_moves t).1) fun t _ => (flatten_moves t).2 o

/-- One alternative is put between copies of the other operands, under a new conjunction. -/
theorem alternative_moves (loc : Location) (before after : List Tree) (arg : Tree) (p : Pool) :
    Moves (EachKnown before ∧ EachKnown after) [arg] p
      [operator p.next .and loc ((copyList (p.next + 1) before).1 ++ arg ::
        (copyList (copyList (p.next + 1) before).2 after).1)]
      { p with next := (copyList (copyList (p.next + 1) before).2 after).2 } := by
  have first := (MovesWith.copyList before (p.take 1)).weaken
    (C := EachKnown before ∧ EachKnown after) fun both _ => both.1
  have second := (MovesWith.copyList after
    { p with next := (copyList (p.next + 1) before).2 }).weaken
      (C := EachKnown before ∧ EachKnown after) fun both _ => both.2
  have whole := (MovesWith.operator [] p .and loc fun _ => .inl rfl).append
    (first.append (second.append (.refl [arg] _)))
  exact whole.trans (.rearrange rfl rfl fun _ => by simp +arith [Pool.take, operator])

theorem alternatives_moves (loc : Location) (before after args : List Tree) (p : Pool) :
    Moves (EachKnown before ∧ EachKnown after) args p (alternatives loc before after p args).1
      (alternatives loc before after p args).2 := by
  induction args generalizing p with
  | nil => exact .refl [] p
  | cons arg args ih =>
    rw [alternatives]
    refine .cons ((alternative_moves loc before after arg p).trans ?_) (ih _)
    exact ((flatten_moves _).1 _).weaken fun _ _ => trivial

/-- The clause that is distributed is set aside without the operands of its first disjunction. -/
theorem spent_moves {t or : Tree} {before after : List Tree}
    (children : t.children = before ++ or :: after) (p : Pool) :
    Moves C [t] p or.children
      (p.discard (t.withChildren (before ++ or.withChildren [] :: after))) := by
  cases t with
  | mk n cs =>
    cases or with
    | mk m ds =>
      rw [children_mk] at children
      subst children
      refine .trans ?_ (MovesWith.discard _ ds p)
      exact .rearrange rfl rfl fun _ => by simp +arith [withChildren]

/-- A distribution is a move, also when it stops. -/
theorem Spreads.moves {limit : Int} {depth : Tree → Nat} {us : List Tree} {s s' : Spread}
    (spreads : Spreads limit depth ts s us s') : Moves True ts s.pool us s'.pool := by
  induction spreads with
  | nil => exact .refl [] _
  | kept _ _ ih => exact .cons (.refl _ _) ih
  | halted _ _ _ _ ih =>
    refine .cons (.refl _ _) (.trans ?_ ih)
    exact .rearrange rfl rfl fun _ => rfl
  | @split _ _ t or before after _ _ _ s _ _ _ _ found _ _ _ _ inner rest =>
    obtain ⟨children, _, _⟩ := splitAtOr_some found
    have chosen := (spent_moves children s.pool).trans
      (alternatives_moves t.loc before after or.children _)
    refine ((chosen.weaken fun _ known => ?_).trans inner).append rest
    rw [← t.eta, children] at known
    simp only [eachOf_cons, allOf_mk, eachOf_append] at known
    exact ⟨known.1.2.1, known.1.2.2.2⟩

theorem wrapClauses_moves (cs : List Tree) (p : Pool) :
    Moves True cs p (wrapClauses p cs).1 (wrapClauses p cs).2 := by
  induction cs generalizing p with
  | nil => exact .refl [] p
  | cons c cs ih =>
    rw [wrapClauses]
    split
    · exact .cons (.refl _ p) (ih p)
    · exact .cons (.operator [c] p .and c.loc fun _ => .inl rfl) (ih _)

/-- The whole pass is a move. -/
theorem toClauses_moves (limit : Int) (t : Tree) (p : Pool) :
    Moves True [t] p [(t.toClauses limit p).1] (t.toClauses limit p).2 := by
  -- the new disjunction is drawn first and waits for the clauses
  have waiting {cs : List Tree} {q : Pool} (result : Moves True [t] (p.take 1) cs q) :
      Moves True [t] p [mk ⟨p.next, .any, t.loc, .op .or⟩ cs] q := by
    refine ((MovesWith.operator [] p .or t.loc fun _ => .inl rfl).append result).trans ?_
    refine .regroup rfl rfl (fun x => ?_) fun known => ?_
    · simp only [tallies_cons, tallies_append, tally_operator, tally_mk, tallies_nil]
      omega
    · simpa [Node.Known, TypeTag.Known] using known
  have pushed : Moves True [t] (p.take 1) (pushNegationsList (p.take 1) [t]).1
      (pushNegationsList (p.take 1) [t]).2 :=
    pushNegationsList_moves (fun s _ => (negation_moves s).1) _
  rw [toClauses]
  dsimp only
  split
  · exact waiting pushed
  · have distributed := fun total =>
      (pushed.trans (splice_moves .or _ _)).trans (spreads limit _ ⟨_, total⟩).moves
    split
    · exact waiting (distributed _)
    · exact waiting ((distributed _).trans (wrapClauses_moves _ _))

/-- A tree that is in order beside what its pool has set aside: every negation has one operand, no
identity is in two places, and all were handed out. -/
structure WellFormed (t : Tree) (p : Pool) : Prop where
  unary : t.NegationsUnary
  distinct : ((nodesList (t :: p.loose)).map Node.id).Nodup
  drawn : ∀ n ∈ nodesList (t :: p.loose), n.id < p.next

/-- A move keeps identities in one place. -/
theorem MovesWith.wellFormed {s t : Tree} {p q : Pool} (moves : Moves C [t] p [s] q)
    (wellFormed : t.WellFormed p) (unary : s.NegationsUnary) : s.WellFormed q := by
  have before := tallies_le_span_iff.mpr
    ⟨wellFormed.distinct, fun n member => ⟨Nat.zero_le _, wellFormed.drawn n member⟩⟩
  obtain ⟨distinct, drawn⟩ := (@tallies_le_span_iff (s :: q.loose) 0 q.next).mp fun x => by
    have kept := moves.kept x
    have accounted := before x
    rw [tallies_cons] at accounted ⊢
    rw [tallies_cons, tallies_cons, tallies_nil] at kept
    rw [span_add (Nat.zero_le _) moves.next_le x]
    omega
  exact ⟨unary, distinct, fun n member => (drawn n member).2⟩

end TaskNet.Tree
