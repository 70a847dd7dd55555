import TaskNet.Proofs.Clause.Meaning

/-!
The bound on the number of clauses. Distribution counts the clauses before each step. Where every
conjunction and disjunction has an operand, no step lowers that count, so what is refused would have
ended with more clauses than the bound; what is left behind then is a tree that still says the same.
What is not refused is done as it is without a bound. Clauses that need no distribution are not
counted against the bound: a disjunction may have more of them.
-/

namespace TaskNet.Tree

open List

variable {t : Tree} {p : Pool}

/-- Every conjunction and disjunction that a traversal reaches has an operand. -/
def Filled (t : Tree) : Prop :=
  t.Throughout fun s => s.content = .op .and ∨ s.content = .op .or → s.children ≠ []

section Filled

variable {cs : List Tree} {t : Tree}

theorem filled_descends {n : Node} (here : n.content = .op .and ∨ n.content = .op .or → cs ≠ [])
    (below : ∀ c ∈ cs, c.Filled) : Filled (mk n cs) :=
  throughout_mk.mpr ⟨here, fun _ => below⟩

theorem filled_anonymous : t.anonymous.Filled ↔ t.Filled :=
  throughout_anonymous fun s => by simp

theorem Filled.children (filled : t.Filled) {o : Operator} (content : t.content = .op o) {c : Tree}
    (member : c ∈ t.children) : c.Filled :=
  Throughout.below filled (by rw [kind_eq_op.mpr content]; simp) member

/-- Pushing negations down keeps the operands of connectives. -/
theorem polarizable_filled :
    Polarizable fun s => s.content = .op .and ∨ s.content = .op .or → s.children ≠ [] where
  negation _ _ _ := by simp
  dual _ _ _ _ connective _ some _ := by simpa using some connective
  operands _ _ _ _ some connective := by simpa using some connective

/-- Flattening keeps the operands of connectives: what gives way has operands of its own. -/
theorem flat_filled (filled : t.Filled) : (flat t).Filled := by
  induction t with
  | mk n cs ih =>
    by_cases error : n.kind = .error
    · rwa [flat_error error]
    have children : ∀ c ∈ cs.map flat, c.Filled :=
      forall_mem_map.mpr fun c member => ih c member (Throughout.below filled error member)
    rw [flat_sound error]
    refine filled_descends (fun connective => ?_) (forall_absorb children fun c member same _ =>
      fun d below => Throughout.below (children c member) (by
        rw [show c.kind = c.content.kind from rfl, same]
        exact error) below)
    obtain ⟨c, rest, some⟩ := exists_cons_of_ne_nil (filled.here connective)
    have first : operands n.content (flat c) ≠ [] := by
      rw [operands]
      split
      · next same =>
        exact (children (flat c) (by simp [show cs = c :: rest from some])).here (same ▸ connective)
      · simp
    rw [absorb_connective connective, show cs = c :: rest from some]
    simp [first]

/-- Where every connective has an operand there is a clause. -/
theorem dnf_ne_nil (filled : t.Filled) : dnf t ≠ [] := by
  induction t with
  | mk n cs ih =>
    by_cases isOr : n.content = .op .or
    · obtain ⟨c, rest, some⟩ := exists_cons_of_ne_nil (filled.here (.inr isOr))
      have member : c ∈ cs := by simp [show cs = c :: rest from some]
      rw [dnf_or (t := mk n cs) isOr, some]
      simp [ih c member (filled.children (t := mk n cs) isOr member)]
    · by_cases isAnd : n.content = .op .and
      · have each : ∀ c ∈ cs, dnf c ≠ [] := fun c member =>
          ih c member (filled.children (t := mk n cs) isAnd member)
        rw [dnf_and (t := mk n cs) isAnd, children_mk]
        clear * - each
        induction cs with
        | nil => simp [dnfAll]
        | cons c cs rest =>
          obtain ⟨first, others, some⟩ := exists_cons_of_ne_nil (each c (by simp))
          rw [dnfAll, some]
          simp [rest (forall_mem_cons.mp each).2]
      · simp [dnf_literal (t := mk n cs) isAnd isOr]

theorem length_le_dnf (some : ∀ c ∈ cs, dnf c ≠ []) : cs.length ≤ (cs.flatMap dnf).length := by
  induction cs with
  | nil => simp
  | cons c cs ih =>
    have first := length_pos_iff.mpr (some c (by simp))
    have later := ih (forall_mem_cons.mp some).2
    rw [flatMap_cons, length_append, length_cons]
    omega

theorem alternative_filled {or : Tree} {before after : List Tree} (filled : t.Filled)
    (content : t.content = .op .and) (children : t.children = before ++ or :: after)
    (isOr : or.content = .op .or) {arg : Tree} (member : arg ∈ or.children) :
    (alternative t.loc before after arg).Filled := by
  have each : ∀ c ∈ before ++ or :: after, c.Filled := fun c inside =>
    filled.children content (children ▸ inside)
  refine flat_filled (filled_descends (by simp) ?_)
  rw [forall_mem_append, forall_mem_cons] at each ⊢
  exact ⟨each.1, each.2.1.children isOr member, each.2.2⟩

end Filled

namespace Spreads

variable {limit : Int} {depth : Tree → Nat} {ts us : List Tree} {s s' : Spread}

theorem length_splitUp (s : Spread) (t : Tree) (before : List Tree) (or : Tree)
    (after : List Tree) : (splitUp s t before or after).1.length = or.children.length := by
  simpa [splitUp] using congrArg length (alternatives_spec t.loc before after or.children _).2

theorem filled_splitUp {t or : Tree} {before after : List Tree} (both : t.IsClause ∧ t.Filled)
    (complex : t.isSimple = false) (found : splitAtOr t.children = some (before, or, after))
    (s : Spread) : ∀ c ∈ (splitUp s t before or after).1, c.IsClause ∧ c.Filled := by
  intro c member
  obtain ⟨content, _⟩ := both.1.split complex
  obtain ⟨children, isOr, _⟩ := splitAtOr_some found
  obtain ⟨arg, inside, alike⟩ := alternatives_origin member
  refine ⟨((splitUp_refine both.1 complex found s).1 c member).1, ?_⟩
  rw [← filled_anonymous, ← alike, filled_anonymous]
  exact alternative_filled both.2 content children isOr inside

variable (spreads : Spreads limit depth ts s us s')
include spreads

/-- A distribution that does not stop is the one without a bound. -/
theorem free (finished : s'.pool.stop = none) :
    expandEach (fun s c => expandClause 0 (depth c) s c) s ts = (us, s') := by
  induction spreads with
  | nil => rfl
  | kept done rest ih =>
    have simple := done.resolve_left (by simp [rest.running finished])
    rw [expandEach, expandClause.eq_def]
    dsimp only
    rw [if_pos (by simp [simple]), ih finished]
    rfl
  | halted _ _ _ rest => simpa [Pool.halt] using rest.running finished
  | split running complex found deep _ _ rest ihInner ihRest =>
    have inner := ihInner (rest.running finished)
    rw [expandEach, expandClause.eq_def, deep]
    dsimp only
    rw [if_neg (by simp [Pool.stopped, running, complex]), found]
    dsimp only
    rw [if_neg (by simp [passes])]
    rw [splitUp] at inner
    rw [inner, ihRest finished]

/-- Clauses that need no distribution are left as they are. -/
theorem eq_of_simple (simple : ∀ c ∈ ts, c.isSimple = true) : us = ts ∧ s' = s := by
  induction spreads with
  | nil => exact ⟨rfl, rfl⟩
  | kept _ _ ih =>
    obtain ⟨rfl, rfl⟩ := ih (forall_mem_cons.mp simple).2
    exact ⟨rfl, rfl⟩
  | halted _ complex => simp [complex] at simple
  | split _ complex => simp [complex] at simple

/-- A distribution that does not stop counts the clauses. -/
theorem total (finished : s'.pool.stop = none) (counted : ts.length ≤ s.total) :
    s'.total + ts.length = s.total + us.length := by
  induction spreads with
  | nil => rfl
  | kept _ _ ih =>
    rw [length_cons] at counted ⊢
    have later := ih finished (by omega)
    rw [length_cons]
    omega
  | halted _ _ _ rest => simpa [Pool.halt] using rest.running finished
  | split _ _ _ _ _ _ rest ihInner ihRest =>
    have inner := ihInner (rest.running finished)
      (by rw [length_splitUp]; exact Nat.le_add_left _ _)
    rw [length_splitUp, splitUp] at inner
    rw [length_cons] at counted ⊢
    have later := ihRest finished (by dsimp only at inner; omega)
    rw [length_append]
    dsimp only at inner
    omega

/-- Where a clause was distributed, there are no more than the bound. -/
theorem within (finished : s'.pool.stop = none) :
    (∀ c ∈ ts, c.isSimple = true) ∨ passes limit s'.total = false := by
  induction spreads with
  | nil => simp
  | kept done rest ih =>
    refine (ih finished).imp_left fun simple => forall_mem_cons.mpr ⟨?_, simple⟩
    exact done.resolve_left (by simp [rest.running finished])
  | halted _ _ _ rest => simpa [Pool.halt] using rest.running finished
  | split _ _ _ _ few inner rest ihInner ihRest =>
    right
    rcases ihRest finished with simple | below
    · obtain ⟨_, rfl⟩ := rest.eq_of_simple simple
      rcases ihInner finished with simple | below
      · obtain ⟨_, rfl⟩ := inner.eq_of_simple simple
        exact few
      · exact below
    · exact below

/-- A distribution that does not stop leaves as many clauses as there are in the reference list. -/
theorem length_eq (finished : s'.pool.stop = none) (clauses : ∀ c ∈ ts, c.IsClause) :
    us.length = (ts.flatMap dnf).length := by
  obtain ⟨each, same⟩ := spreads.refines clauses
  rw [dnf_simple (spreads.simple finished) each] at same
  simpa using congrArg length same

/-- A distribution stops at the bound only if there are more reference clauses: a step counts one
clause for each alternative of the first disjunction, and there are at least as many in the
reference list. -/
theorem passed (running : s.pool.stop = none) (stopped : s'.pool.stop = some .limit)
    (counted : ts.length ≤ s.total) (clauses : ∀ c ∈ ts, c.IsClause ∧ c.Filled) :
    limit + ts.length < s.total + (ts.flatMap dnf).length := by
  have least : ∀ {ts : List Tree}, (∀ c ∈ ts, c.IsClause ∧ c.Filled) →
      ts.length ≤ (ts.flatMap dnf).length := fun clauses =>
    length_le_dnf fun c member => dnf_ne_nil (clauses c member).2
  induction spreads with
  | nil => simp [running] at stopped
  | kept done _ ih =>
    rw [forall_mem_cons] at clauses
    rw [length_cons] at counted
    have later := ih running stopped (by omega) clauses.2
    rw [flatMap_cons, length_append, length_cons,
      dnf_isSimple (done.resolve_left (by simp [running])) clauses.1.1.flatness, length_singleton]
    omega
  | @halted _ t _ _ s _ _ _ complex why rest =>
    rw [forall_mem_cons] at clauses
    cases why with
    | stuck => simp [rest.stays rfl] at stopped
    | @passed or before after found tooMany =>
      have above : 0 < limit ∧ limit < ↑(s.total - 1 + or.children.length) := by
        simpa [passes] using tooMany
      have first := least (filled_splitUp clauses.1 complex found s)
      have same := congrArg length (splitUp_refine clauses.1.1 complex found s).2
      have later := least clauses.2
      simp only [length_map, length_splitUp] at first same
      simp only [flatMap_cons, length_append, length_cons] at counted ⊢
      omega
  | @split _ _ t or before after ts _ vs s r _ _ complex found _ _ inner rest ihInner ihRest =>
    rw [forall_mem_cons] at clauses
    have each := filled_splitUp clauses.1 complex found s
    have same := congrArg length (splitUp_refine clauses.1.1 complex found s).2
    have all := length_splitUp s t before or after
    have later := least clauses.2
    have start : (splitUp s t before or after).2.total = s.total - 1 + or.children.length := rfl
    simp only [length_map] at same
    simp only [flatMap_cons, length_append, length_cons] at counted ⊢
    cases stop : r.pool.stop with
    | none =>
      have count := inner.total stop (by omega)
      have length := inner.length_eq stop fun c member => (each c member).1
      have below := ihRest stop stopped (by omega) clauses.2
      omega
    | some reason =>
      obtain rfl : reason = .limit := Option.some.inj ((rest.stays stop).symm.trans stopped)
      have below := ihInner ((alternatives_spec _ _ _ _ _).1.trans running) stop (by omega) each
      omega

end Spreads

/-- A pass that does not stop was not stopped while it pushed negations down. -/
theorem stop_of_toClauses {limit : Int} (finished : (t.toClauses limit p).2.stop = none) :
    (pushNegations (p.take 1) t).2.stop = none := by
  by_contra stops
  have one : pushNegationsList (p.take 1) [t] =
      ([(pushNegations (p.take 1) t).1], (pushNegations (p.take 1) t).2) := rfl
  rw [toClauses, one] at finished
  dsimp only at finished
  rw [if_pos (by simpa [Pool.stopped, Option.isSome_iff_ne_none] using stops)] at finished
  exact stops finished

/-- With a bound on the clauses, a pass that does not stop leaves no more than the bound where a
clause had to be distributed. Where none had to be, there are as many clauses as there were operands
of the disjunction, and these are not bounded. -/
theorem length_toClauses_le (t : Tree) (limit : Int) (positive : 0 < limit) (p : Pool)
    (finished : (t.toClauses limit p).2.stop = none) :
    ((∃ c ∈ summands (p.take 1) t, c.isSimple = false) →
      (t.toClauses limit p).1.children.length ≤ limit) ∧
    ((∀ c ∈ summands (p.take 1) t, c.isSimple = true) →
      (t.toClauses limit p).1.children.length = (summands (p.take 1) t).length) := by
  have pushed := stop_of_toClauses finished
  obtain ⟨q, qRuns, step⟩ := toClauses_summands t pushed
  have course := spreads limit (summands (p.take 1) t) ⟨q, (summands (p.take 1) t).length⟩
  have result := step limit
  dsimp only at result course
  generalize expandEach _ _ _ = run at result course
  have runs : run.2.pool.stop = none := by
    by_contra stops
    rw [result, if_pos (by simpa [Pool.stopped, Option.isSome_iff_ne_none] using stops)] at finished
    exact stops finished
  have length : (t.toClauses limit p).1.children.length = run.1.length := by
    rw [result, if_neg (by simp [Pool.stopped, runs]), children_mk]
    simpa using congrArg length (wrapClauses_spec run.1 run.2.pool).2.2
  rw [length]
  constructor
  · rintro ⟨c, member, complex⟩
    have count := course.total runs (Nat.le_refl _)
    rcases course.within runs with simple | below
    · simp [simple c member] at complex
    · have bound : ¬ limit < run.2.total := by simpa [passes, positive] using below
      dsimp only at count
      omega
  · intro simple
    rw [(course.eq_of_simple simple).1]

/-- A conjunction of a disjunction and a fact is distributed into two clauses. -/
theorem length_toClauses_distributed :
    let atom (x : NodeId) (name : String) : Tree := mk ⟨x, .any, default, .fact name⟩ []
    let t := operator 0 .and default [operator 1 .or default [atom 2 "p", atom 3 "q"], atom 4 "r"]
    (t.toClauses 2 (.start 5)).2.stop = none ∧
      (∃ c ∈ summands (Pool.take (.start 5) 1) t, c.isSimple = false) ∧
      (t.toClauses 2 (.start 5)).1.children.length ≤ (2 : Int) := by
  intro atom t
  have finished : (t.toClauses 2 (.start 5)).2.stop = none := by decide
  have complex : ∃ c ∈ summands (Pool.take (.start 5) 1) t, c.isSimple = false := by decide
  exact ⟨finished, complex,
    (length_toClauses_le t 2 (by decide) (.start 5) finished).1 complex⟩

/-- Under a bound of two, a disjunction of three facts has three clauses, and the pass does not
stop. -/
theorem toClauses_disjunction_unbounded :
    let atom (x : NodeId) (name : String) : Tree := mk ⟨x, .any, default, .fact name⟩ []
    let t := operator 0 .or default [atom 1 "p", atom 2 "q", atom 3 "r"]
    (t.toClauses 2 (.start 4)).2.stop = none ∧
      (t.toClauses 2 (.start 4)).1.clauses.length = 3 := by
  decide

/-- The operands of the flat form have an operand in every connective when the tree has; an empty
conjunction has nothing to distribute. -/
theorem summands_filled (unary : t.NegationsUnary)
    (filled : t.Filled ∨ t.content = .op .and ∧ t.children = []) {p : Pool}
    (running : p.stop = none) :
    (∀ c ∈ summands p t, c.Filled) ∨ ∀ c ∈ summands p t, c.isSimple = true := by
  rcases filled with filled | ⟨content, empty⟩
  · left
    have pushed : (pushNegations p t).1.Filled := by
      rw [← filled_anonymous, ((pushNegations_reaches t unary).1 p running).2, filled_anonymous]
      exact (throughout_polar polarizable_filled t unary filled).1
    intro c member
    rcases mem_operands.mp member with ⟨isOr, below⟩ | ⟨_, rfl⟩
    · exact (flat_filled pushed).children isOr below
    · exact flat_filled pushed
  · right
    obtain ⟨n, cs⟩ := t
    rw [content_mk] at content
    rw [children_mk] at empty
    subst empty
    have sound : n.kind ≠ .error := by simp [Node.kind, content, Content.kind]
    have same : summands p (mk n []) = [mk n []] := by
      rw [summands, pushNegations_descends (by simp [content]) sound [] running]
      simp [pushNegationsList, flat_sound sound, absorb, operands, content]
    rw [same]
    simp [isSimple, content, Content.kind]

/-- In negation normal form every negation has one operand. -/
theorem IsNegationNormal.negationsUnary (normal : t.IsNegationNormal) : t.NegationsUnary :=
  fun s visits negation => by
    obtain ⟨c, single, _⟩ := normal s visits negation
    rw [single, length_singleton]

section Summands

variable {t : Tree} {p : Pool}

/-- A disjunction of what a distribution left of the operands says what the tree says, and is in
negation normal form. -/
theorem holds_disjunction (top : Node) {result : List Tree} (unary : t.NegationsUnary)
    (running : p.stop = none) (each : ∀ c ∈ result, c.IsClause)
    (same : (result.flatMap dnf).map (map anonymous) =
      ((summands p t).flatMap dnf).map (map anonymous)) (isOr : top.content = .op .or) :
    (mk top result).IsNegationNormal ∧ ∀ v, Holds v (mk top result) ↔ Holds v t := by
  have normal : (mk top result).IsNegationNormal :=
    isNegationNormal_descends (by simp [isOr]) fun c member => (each c member).normal
  refine ⟨normal, fun v => ?_⟩
  have same := same.trans (summands_clauses unary running).2
  calc Holds v (mk top result)
    _ ↔ ∃ clause ∈ result.flatMap dnf, ∀ l ∈ clause, Holds v l := by
      rw [← holds_dnf normal, dnf_or (t := mk top result) isOr, children_mk]
    _ ↔ ∃ clause ∈ dnf (nnf t), ∀ l ∈ clause, Holds v l := by
      rw [← holds_clauses_anonymous, same, holds_clauses_anonymous]
    _ ↔ Holds v (nnf t) := holds_dnf (nnf_isNegationNormal unary)
    _ ↔ Holds v t := (holds_polar t unary).1

end Summands

/-- A bound changes nothing unless it stops the pass. It stops the pass only where there would be
more clauses than the bound, and leaves a tree in order that says what the tree said. -/
theorem toClauses_limit_exact (t : Tree) (limit : Int) (p : Pool) (running : p.stop = none)
    (wellFormed : t.WellFormed p) (filled : t.Filled ∨ t.content = .op .and ∧ t.children = []) :
    ((t.toClauses limit p).2.stop = none ∧ t.toClauses limit p = t.toClauses 0 p) ∨
    ((t.toClauses limit p).2.stop = some .limit ∧
      (t.toClauses 0 p).2.stop = none ∧ limit < (t.toClauses 0 p).1.clauses.length ∧
      (t.toClauses limit p).1.WellFormed (t.toClauses limit p).2 ∧
      (t.toClauses limit p).1.Filled ∧
      ∀ v, Holds v (t.toClauses limit p).1 ↔ Holds v t) := by
  have unary := wellFormed.unary
  have pushed := ((pushNegations_reaches t unary).1 (p.take 1) running).1
  obtain ⟨clauses, same⟩ := summands_clauses unary (p := p.take 1) running
  obtain ⟨unboundedRuns, _, unbounded⟩ := (toClauses_spec 0 unary running).resolve_left (by simp)
  obtain ⟨q, qRuns, step⟩ := toClauses_summands t pushed
  have course := spreads limit (summands (p.take 1) t) ⟨q, (summands (p.take 1) t).length⟩
  have bounded := step limit
  have free := step 0
  dsimp only at bounded free course
  generalize expandEach (fun s c => expandClause limit _ _ _) _ _ = run at bounded course
  rcases course.stops qRuns fun c member => ⟨clauses c member, Nat.le_refl _⟩ with runs | ⟨_,
    stopped⟩
  · left
    rw [course.free runs, ← bounded] at free
    exact ⟨by rw [← free]; exact unboundedRuns, free.symm⟩
  · right
    have each : ∀ c ∈ summands (p.take 1) t, c.IsClause ∧ c.Filled := by
      rcases summands_filled unary filled (p := p.take 1) running with each | simple
      · exact fun c member => ⟨clauses c member, each c member⟩
      · rw [(course.eq_of_simple simple).2, qRuns] at stopped
        cases stopped
    have passed := course.passed qRuns stopped (Nat.le_refl _) each
    rw [if_pos (by simp [Pool.stopped, stopped])] at bounded
    have reference := congrArg length (same.trans unbounded.symm)
    simp only [length_map] at reference
    obtain ⟨isClause, left⟩ := course.refines clauses
    obtain ⟨normal, holds⟩ := holds_disjunction
      ⟨p.next, .any, t.loc, .op .or⟩ unary (p := p.take 1) running isClause left rfl
    refine ⟨by rw [bounded]; exact stopped, unboundedRuns, by dsimp only at passed; omega,
      (toClauses_moves limit t p).wellFormed wellFormed ?_, ?_, ?_⟩
    · rw [bounded]
      exact normal.negationsUnary
    · rw [bounded]
      refine filled_descends (fun _ none => ?_) fun c member => (course.each
        (fun s _ _ _ _ both complex found => Spreads.filled_splitUp both complex found s)
        each c member).2
      -- there are clauses to begin with, and each of them has a reference clause
      have some := congrArg length left
      have least := length_le_dnf fun c member => dnf_ne_nil (each c member).2
      rw [none] at some
      simp only [flatMap_nil, map_nil, length_nil, length_map] at some
      have empty : summands (p.take 1) t = [] := length_eq_zero_iff.mp (by omega)
      rw [(course.eq_of_simple (by simp [empty])).2, qRuns] at stopped
      cases stopped
    · rw [bounded]
      exact holds

/-- The second of two distributions is refused, in the middle of the pass. -/
theorem toClauses_limit_three :
    let atom (x : NodeId) (name : String) : Tree := mk ⟨x, .any, default, .fact name⟩ []
    let t := operator 0 .and default [
      operator 1 .not default [operator 2 .and default [atom 3 "p", atom 4 "q"]],
      operator 5 .or default [atom 6 "r", atom 7 "s"]]
    let result := t.toClauses 3 (.start 8)
    t.WellFormed (.start 8) ∧ t.Filled ∧ result.2.stop = some .limit ∧
      3 < (t.toClauses 0 (.start 8)).1.clauses.length ∧ result.1.WellFormed result.2 ∧
      ∀ v : Tree → Prop, Holds v result.1 ↔ Holds v t := by
  intro atom t result
  have wellFormed : t.WellFormed (.start 8) := by
    refine ⟨?_, by decide, by decide⟩
    unfold NegationsUnary Throughout
    decide
  have filled : t.Filled := by
    unfold Filled Throughout
    decide
  have stops : result.2.stop = some .limit := by decide
  rcases toClauses_limit_exact t 3 (.start 8) rfl wellFormed (.inl filled) with
    ⟨runs, _⟩ | ⟨_, _, passed, kept, _, holds⟩
  · exact absurd (stops.symm.trans runs) (by simp)
  · exact ⟨wellFormed, filled, stops, by exact_mod_cast passed, kept, holds⟩

end TaskNet.Tree
