import TaskNet.Proofs.Grammar.Reader

/-!
A byte that starts no token is refused wherever it stands.
-/

namespace TaskNet.Grammar

variable {file : String} {t : Token} {n : NodeId} (illegal : t.kind = .illegal)
  {after : Progress × NodeId → Except SyntaxError Reader}
variable {progress : Progress} {m : NodeId}

include illegal

/-- A byte that starts no token can not go on with an expression. It may come behind a complete one.
-/
theorem afterOperand_illegal {frames : List Frame} {left : Tree}
    (reads : afterOperand file t n left frames = .ok (progress, m)) : ∃ e, progress = .ended e := by
  have none : operatorOf? t.kind = none := by
    rw [illegal]
    rfl
  induction frames generalizing n left with
  | nil =>
    unfold afterOperand at reads
    rw [none] at reads
    cases reads
    exact ⟨left, rfl⟩
  | cons frame frames ih =>
    unfold afterOperand at reads
    cases frame with
    | binary l o loc =>
      dsimp only at reads
      rw [none] at reads
      exact ih reads
    | unary o loc => exact ih reads
    | group => simp [illegal, operatorOf?, refuse] at reads
    | arguments head done => simp [illegal, operatorOf?, refuse] at reads
    | list head done => simp [illegal, operatorOf?, refuse] at reads

theorem beforeOperand_illegal (file : String) (n : NodeId) (frames : List Frame) :
    ∃ e, beforeOperand file t n frames = .error e := by
  unfold beforeOperand
  rw [illegal]
  exact ⟨_, rfl⟩

theorem pending_illegal {p : Pending} (reads : p.step file t n = .ok (progress, m)) :
    ∃ e, progress = .ended e := by
  have refused : ∀ frames, beforeOperand file t n frames ≠ .ok (progress, m) := by
    intro frames same
    obtain ⟨e, error⟩ := beforeOperand_illegal illegal file n frames
    rw [error] at same
    cases same
  unfold Pending.step at reads
  cases expected : p.expected with
  | operand =>
    rw [expected] at reads
    exact absurd reads (refused _)
  | firstArgument =>
    rw [expected] at reads
    unfold beforeArgument at reads
    rw [if_neg (by rw [illegal]; decide)] at reads
    exact absurd reads (refused _)
  | afterName name =>
    rw [expected] at reads
    dsimp only at reads
    rw [if_neg (by rw [illegal]; decide)] at reads
    exact afterOperand_illegal illegal reads
  | afterMinus minus =>
    rw [expected] at reads
    dsimp only at reads
    rw [if_neg (by rw [illegal]; decide)] at reads
    exact absurd reads (refused _)
  | operator left =>
    rw [expected] at reads
    exact afterOperand_illegal illegal reads

namespace Reader

variable {r s : Reader} {attrs : List Tree} {p : Pending}

theorem isWord_illegal (word : String) : isWord t word = false := by
  simp [isWord, illegal]

theorem need_illegal {wanted : TokenKind} (other : wanted ≠ .illegal) :
    r.need file t wanted ≠ .ok s := by
  unfold need
  rw [if_neg (by rw [illegal]; exact other.symm)]
  simp [refuse]

theorem stepBranches_illegal {task : Tree} : r.stepBranches file t task attrs ≠ .ok s := by
  simp [stepBranches, isWord_illegal illegal, illegal, refuse]

theorem stepItems_illegal : r.stepItems file t ≠ .ok s := by
  simp [stepItems, isWord_illegal illegal, illegal, refuse]

theorem stepFacts_illegal {kind : Kind} : r.stepFacts file t kind attrs ≠ .ok s := by
  simp [stepFacts, illegal, refuse]

/-- An illegal token inside of an expression is refused, unless it is read further behind it. -/
theorem expression_illegal
    (ended : ∀ e m, p.step file t n = .ok (.ended e, m) → after (.ended e, m) ≠ .ok s) :
    (p.step file t n >>= after) ≠ .ok s := by
  intro reads
  cases step : p.step file t n with
  | error e =>
    rw [step] at reads
    cases reads
  | ok result =>
    obtain ⟨progress, m⟩ := result
    obtain ⟨e, rfl⟩ := pending_illegal illegal step
    rw [step] at reads
    exact ended e m step reads

/-- A list of arguments does not end at an illegal token. -/
theorem list_illegal {head : Node → Prop} (sound : p.Sound (some head))
    : (p.step file t n >>= after) ≠ .ok s := by
  apply expression_illegal illegal
  intro e m ended
  obtain ⟨none, _⟩ := (step_reads file t n p _ _ ended sound).2
  cases none

/-- An illegal token is refused in every place. -/
theorem step_illegal (sound : r.Sound) : r.step file t ≠ .ok s := by
  obtain ⟨root, next, mode⟩ := r
  have mode_sound := sound.mode
  unfold step
  cases mode with
  | blocks =>
    simp [stepBlocks, isWord_illegal illegal, illegal, refuse]
  | blockOpen kind => exact need_illegal illegal (by decide)
  | facts kind attrs => exact stepFacts_illegal illegal
  | attrName place attrs loc => exact need_illegal illegal (by decide)
  | attrArgs place attrs attr =>
    dsimp only
    rw [if_neg (by rw [illegal]; decide)]
    cases place with
    | block kind => exact stepFacts_illegal illegal
    | task task => exact stepBranches_illegal illegal
  | attrList place attrs p => exact list_illegal illegal mode_sound.2.2
  | factOpen kind fact => exact need_illegal illegal (by decide)
  | factParams kind fact later => cases later <;> simp [need, addFactType, illegal, refuse]
  | factType kind fact => simp [addFactType, illegal, refuse]
  | domainName => exact need_illegal illegal (by decide)
  | domainOpen => exact need_illegal illegal (by decide)
  | items => exact stepItems_illegal illegal
  | templateName scope => exact need_illegal illegal (by decide)
  | taskName => exact need_illegal illegal (by decide)
  | paramsOpen owner => exact need_illegal illegal (by decide)
  | params owner later => cases later <;> simp [need, stepParamName, illegal, refuse]
  | paramName owner => simp [stepParamName, illegal, refuse]
  | templateAssign scope m => exact need_illegal illegal (by decide)
  | templateBody scope m p =>
    apply expression_illegal illegal
    intro e k _
    cases scope with
    | domain => exact stepItems_illegal illegal
    | task task => exact stepBranches_illegal illegal
  | taskOpen task => exact need_illegal illegal (by decide)
  | branches task attrs => exact stepBranches_illegal illegal
  | guardStart task branch =>
    dsimp only
    rw [if_neg (by rw [illegal]; decide)]
    apply expression_illegal illegal
    intro e k ended
    obtain ⟨error, refused⟩ := beforeOperand_illegal illegal file next []
    rw [Pending.start, Pending.step, refused] at ended
    cases ended
  | guard task branch p =>
    apply expression_illegal illegal
    intro e k _
    exact need_illegal illegal (by decide)
  | listOpen task branch => exact need_illegal illegal (by decide)
  | calls task branch list later => cases later <;> simp [need, stepCallName, illegal, refuse]
  | callName task branch list => simp [stepCallName, illegal, refuse]
  | callOpen task branch list head => exact need_illegal illegal (by decide)
  | callArgs task branch list p => exact list_illegal illegal mode_sound.2.2.2

end Reader

end TaskNet.Grammar
