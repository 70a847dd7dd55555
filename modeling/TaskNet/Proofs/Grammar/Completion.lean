import TaskNet.Proofs.Grammar.Reader
import TaskNet.Proofs.Grammar.RoundTrip

/-!
Whatever has been read can be completed. An open expression is closed by an operand and by brackets,
and every mode of the reader has lexemes that lead on towards the end of the domain or of the block.
So a token that is refused is the first one that cannot go on, and none before it was a mistake.
-/

namespace TaskNet

open List

variable {l : Lexeme}

def Lexeme.token (l : Lexeme) : Token :=
  ⟨l.kind, l.bytes, 0, 0⟩

namespace Grammar

open Text

def closing : Token :=
  (markLexeme .rightRound).token

section Expressions

variable {frames : List Frame} {p q r : Pending} {n m k : NodeId}

/-- An infix or prefix operator that waits for its operand. -/
def Frame.IsOperator : Frame → Prop
  | .binary _ _ _ | .unary _ _ => True
  | .group | .arguments _ _ | .list _ _ => False

theorem afterOperand_ends (operators : ∀ f ∈ frames, f.IsOperator) (t : Token)
    (none : operatorOf? t.kind = none) (n : NodeId) (left : Tree) :
    ∃ e m, afterOperand "" t n left frames = .ok (.ended e, m) := by
  induction frames generalizing n left with
  | nil =>
    unfold afterOperand
    rw [none]
    exact ⟨left, n, rfl⟩
  | cons frame frames ih =>
    obtain ⟨here, later⟩ := forall_mem_cons.mp operators
    unfold afterOperand
    cases frame with
    | binary l o loc =>
      dsimp only
      rw [none]
      exact ih later _ _
    | unary o loc => exact ih later _ _
    | group => exact here.elim
    | arguments head done => exact here.elim
    | list head done => exact here.elim

/-- A closing bracket behind an operand, where a bracket or a list is open: it ends the list that
the whole expression is, or it closes one frame and all operators above it. -/
theorem afterOperand_closes (some : ∃ f ∈ frames, ¬ f.IsOperator) (n : NodeId) (left : Tree) :
    (∃ e m, afterOperand "" closing n left frames = .ok (.closed e, m)) ∨
      ∃ fs e m, fs.length < frames.length ∧
        afterOperand "" closing n left frames = .ok (.reading ⟨fs, .operator e⟩, m) := by
  induction frames generalizing n left with
  | nil =>
    obtain ⟨_, inside, _⟩ := some
    cases inside
  | cons frame frames ih =>
    have below : frame.IsOperator → ∀ n left,
        (∃ e m, afterOperand "" closing n left frames = .ok (.closed e, m)) ∨
          ∃ fs e m, fs.length < (frame :: frames).length ∧
            afterOperand "" closing n left frames = .ok (.reading ⟨fs, .operator e⟩, m) := by
      intro isOperator n left
      have later : ∃ f ∈ frames, ¬ f.IsOperator := by
        obtain ⟨f, inside, other⟩ := some
        rcases mem_cons.mp inside with rfl | inside
        · exact absurd isOperator other
        · exact ⟨f, inside, other⟩
      rcases ih later n left with closed | ⟨fs, e, m, fewer, reading⟩
      · exact .inl closed
      · refine .inr ⟨fs, e, m, ?_, reading⟩
        rw [length_cons]
        omega
    unfold afterOperand
    cases frame with
    | binary l o loc => exact below trivial _ _
    | unary o loc => exact below trivial _ _
    | group => exact .inr ⟨frames, left, n, Nat.lt_succ_self _, rfl⟩
    | arguments head done =>
      exact .inr ⟨frames, .mk head (done ++ [left]), n, Nat.lt_succ_self _, rfl⟩
    | list head done => exact .inl ⟨.mk head (done ++ [left]), n, rfl⟩

/-- A closing bracket behind an operand ends the list that the whole expression is. -/
def Pending.ListEnds (p : Pending) (n : NodeId) : Prop :=
  ∃ e m, p.step "" closing n = .ok (.closed e, m)

/-- The brackets in an expression are closed: only operators wait, or one more bracket ends it. -/
def Pending.BracketsClosed (p : Pending) (n : NodeId) : Prop :=
  (∃ left, p.expected = .operator left) ∧ ((∀ f ∈ p.frames, f.IsOperator) ∨ p.ListEnds n)

/-- Lexemes lead from one state of an expression to another. -/
def Pending.Leads (p : Pending) (n : NodeId) (q : Pending) (m : NodeId) : Prop :=
  ∃ ls : List Lexeme, (∀ l ∈ ls, l.Valid) ∧ Feeds "" p n (ls.map Lexeme.token) q m

theorem Pending.Leads.refl (p : Pending) (n : NodeId) : p.Leads n p n :=
  ⟨[], by simp, .done⟩

theorem Pending.Leads.token (valid : l.Valid)
    (step : p.step "" l.token n = .ok (.reading q, m)) (leads : q.Leads m r k) : p.Leads n r k := by
  obtain ⟨ls, valids, feeds⟩ := leads
  exact ⟨l :: ls, forall_mem_cons.mpr ⟨valid, valids⟩, .token step feeds⟩

theorem Pending.Leads.trans (first : p.Leads n q m) (second : q.Leads m r k) : p.Leads n r k := by
  obtain ⟨ls, valids, feeds⟩ := first
  obtain ⟨ls', valids', feeds'⟩ := second
  refine ⟨ls ++ ls', ?_, ?_⟩
  · intro l inside
    rcases mem_append.mp inside with front | back
    · exact valids l front
    · exact valids' l back
  · rw [map_append]
    exact feeds.append feeds'

theorem valid_round : (markLexeme .rightRound).Valid :=
  valid_mark (by decide)

def zero : Lexeme :=
  ⟨.integer, [48]⟩

theorem valid_zero : zero.Valid :=
  .integer (cons_ne_nil _ _) (by simp [IsDigits, Scanner.isDigit])

theorem number_zero (n : NodeId) (negative : Bool) (loc : Location) :
    ∃ lit, number "" n negative loc zero.token = .ok (lit, n + 1) := by
  cases negative
  · exact ⟨_, rfl⟩
  · exact ⟨_, rfl⟩

/-- An operand can be given wherever one is missing. -/
theorem Pending.leads_operand (p : Pending) (n : NodeId) :
    ∃ left m, p.Leads n ⟨p.frames, .operator left⟩ m := by
  obtain ⟨frames, expected⟩ := p
  have start : ∃ lit, beforeOperand "" zero.token n frames =
      .ok (.reading ⟨frames, .operator lit⟩, n + 1) := by
    obtain ⟨lit, value⟩ := number_zero n false (locate "" zero.token)
    refine ⟨lit, ?_⟩
    unfold beforeOperand
    change (number "" n false _ zero.token >>= _) = _
    rw [value]
    rfl
  cases expected with
  | operand =>
    obtain ⟨lit, step⟩ := start
    exact ⟨lit, n + 1, .token valid_zero step (.refl _ _)⟩
  | firstArgument =>
    obtain ⟨lit, step⟩ := start
    exact ⟨lit, n + 1, .token valid_zero step (.refl _ _)⟩
  | afterName name =>
    -- A name becomes a call without arguments.
    refine ⟨.mk ⟨n, .any, locate "" name, .invocation name.word⟩ [], n + 1, ?_⟩
    apply Pending.Leads.token (valid_mark (k := .leftRound) (by decide)) rfl
    exact .token valid_round rfl (.refl _ _)
  | afterMinus minus =>
    obtain ⟨lit, value⟩ := number_zero n true (locate "" minus)
    refine ⟨lit, n + 1, .token valid_zero ?_ (.refl _ _)⟩
    change (number "" n true _ zero.token >>= _) = _
    rw [value]
    rfl
  | operator left => exact ⟨left, n, .refl _ _⟩

/-- All brackets that are open behind an operand can be closed. -/
theorem leads_closed (frames : List Frame) (left : Tree) (n : NodeId) :
    ∃ q m, Pending.Leads ⟨frames, .operator left⟩ n q m ∧ q.BracketsClosed m := by
  generalize size : frames.length = depth
  induction depth using Nat.strongRecOn generalizing frames left n with
  | ind depth ih =>
    by_cases operators : ∀ f ∈ frames, f.IsOperator
    · exact ⟨_, n, .refl _ _, ⟨left, rfl⟩, .inl operators⟩
    · have some : ∃ f ∈ frames, ¬ f.IsOperator := by simpa using operators
      rcases afterOperand_closes some n left with closed | ⟨fs, e, m, fewer, reading⟩
      · exact ⟨_, n, .refl _ _, ⟨left, rfl⟩, .inr closed⟩
      · obtain ⟨q, k, leads, isClosed⟩ := ih fs.length (size ▸ fewer) fs e m rfl
        exact ⟨q, k, .token valid_round reading leads, isClosed⟩

/-- An expression can be given its last operand and its brackets. -/
theorem Pending.leads_closed (p : Pending) (n : NodeId) :
    ∃ q m, p.Leads n q m ∧ q.BracketsClosed m := by
  obtain ⟨left, m, operand⟩ := p.leads_operand n
  obtain ⟨q, k, brackets, isClosed⟩ := Grammar.leads_closed p.frames left m
  exact ⟨q, k, operand.trans brackets, isClosed⟩

theorem Feeds.sound {file : String} {ts : List Token} {bottom : Bottom}
    (feeds : Feeds file p n ts q m) (sound : p.Sound bottom) : q.Sound bottom := by
  induction feeds with
  | done => exact sound
  | token step _ ih => exact ih (step_reads file _ _ _ _ _ step sound).2

/-- An expression that is no list of arguments ends at any token that is no operator. -/
theorem Pending.leads_ended (sound : p.Sound none) (n : NodeId) :
    ∃ q m, p.Leads n q m ∧ ∀ t : Token, operatorOf? t.kind = none →
      ∃ e k, q.step "" t m = .ok (.ended e, k) := by
  obtain ⟨q, m, leads, ⟨left, operand⟩, operators | ⟨e, k, closed⟩⟩ := p.leads_closed n
  · refine ⟨q, m, leads, fun t none => ?_⟩
    unfold Pending.step
    rw [operand]
    exact afterOperand_ends operators t none m left
  · obtain ⟨ls, _, feeds⟩ := leads
    obtain ⟨_, absurd, _⟩ := (step_reads "" closing m q _ _ closed (feeds.sound sound)).2
    cases absurd

/-- A closing bracket ends a list of arguments in which the inner brackets are closed. -/
theorem Pending.BracketsClosed.finishes (isClosed : p.BracketsClosed n) :
    ∃ e m, p.step "" closing n = .ok (.closed e, m) ∨ p.step "" closing n = .ok (.ended e, m) := by
  obtain ⟨⟨left, operand⟩, operators | ⟨e, m, closed⟩⟩ := isClosed
  · obtain ⟨e, m, ended⟩ := afterOperand_ends operators closing rfl n left
    refine ⟨e, m, .inr ?_⟩
    unfold Pending.step
    rw [operand]
    exact ended
  · exact ⟨e, m, .inl closed⟩

end Expressions

namespace Reader

variable {r s : Reader}

/-- There are lexemes that complete what is open. -/
def Completes (r : Reader) : Prop :=
  ∃ ls : List Lexeme, (∀ l ∈ ls, l.Valid) ∧
    ∃ r', r.run "" (ls.map Lexeme.token) = (r', none) ∧ r'.mode = .blocks

theorem Completes.token (valid : l.Valid) (step : r.step "" l.token = .ok s)
    (completes : s.Completes) : r.Completes := by
  obtain ⟨ls, valids, r', run, between⟩ := completes
  refine ⟨l :: ls, forall_mem_cons.mpr ⟨valid, valids⟩, r', ?_, between⟩
  rw [map_cons, run_token step, run]

theorem Completes.mark (k : TokenKind) (given : k.spelling ≠ [])
    (step : r.step "" (markLexeme k).token = .ok s) (completes : s.Completes) : r.Completes :=
  .token (valid_mark given) step completes

/-- Tokens inside of an expression lead on to the end of the expression. -/
theorem Completes.leads {root : Tree} {w : Pending → Mode}
    (inside : ∀ p q n m t, Pending.step "" t n p = .ok (.reading q, m) →
      step "" t ⟨root, n, w p⟩ = .ok ⟨root, m, w q⟩)
    {q : Pending} {n m : NodeId} (leads : p.Leads n q m)
    (completes : Completes ⟨root, m, w q⟩) : Completes ⟨root, n, w p⟩ := by
  obtain ⟨ls, valids, feeds⟩ := leads
  induction ls generalizing p n with
  | nil =>
    cases feeds
    exact completes
  | cons l ls ih =>
    obtain ⟨valid, valids⟩ := forall_mem_cons.mp valids
    cases feeds with
    | token reads rest => exact .token valid (inside _ _ _ _ _ reads) (ih valids rest)

section Modes

variable (root : Tree) (n : NodeId)

theorem completes_blocks : Completes ⟨root, n, .blocks⟩ :=
  ⟨[], by simp, _, rfl, rfl⟩

theorem completes_items : Completes ⟨root, n, .items⟩ :=
  .mark .rightCurly (by decide) rfl (completes_blocks root n)

/-- A task without an open attribute ends. -/
theorem completes_task (task : Tree) : Completes ⟨root, n, .branches task []⟩ :=
  .mark .rightCurly (by decide) rfl (completes_items _ n)

theorem completes_calls (task branch list : Tree) (later : Bool) :
    Completes ⟨root, n, .calls task branch list later⟩ :=
  .mark .rightSquare (by decide) rfl (completes_task root n _)

theorem completes_listOpen (task branch : Tree) : Completes ⟨root, n, .listOpen task branch⟩ :=
  .mark .leftSquare (by decide) rfl (completes_calls root (n + 1) task branch _ false)

theorem completes_guardStart (task branch : Tree) : Completes ⟨root, n, .guardStart task branch⟩ :=
  .mark .arrow (by decide) rfl (completes_listOpen root (n + 1) task _)

/-- Attributes get their case. -/
theorem completes_branches (task : Tree) (attrs : List Tree) :
    Completes ⟨root, n, .branches task attrs⟩ := by
  have isCase : isWord (wordLexeme "case").token "case" = true := by
    unfold isWord
    rw [show (wordLexeme "case").token.word = "case" from isName_case.word.2]
    decide
  have notMacro : isWord (wordLexeme "case").token "macro" = false := by
    unfold isWord
    rw [show (wordLexeme "case").token.word = "case" from isName_case.word.2]
    decide
  have reads : Reader.step "" (wordLexeme "case").token ⟨root, n, .branches task attrs⟩ =
      .ok ⟨root, n + 1, .guardStart task
        (.mk (newNode "" ⟨root, n, .branches task attrs⟩ (wordLexeme "case").token (.branch .unset))
          attrs)⟩ := by
    change stepBranches "" _ _ task attrs = _
    unfold stepBranches
    rw [isCase, notMacro, show (wordLexeme "case").token.kind = .identifier from rfl]
    simp
  exact .token isName_case.word.1 reads (completes_guardStart root (n + 1) task _)

theorem completes_callArgs (task branch list : Tree) (p : Pending) :
    Completes ⟨root, n, .callArgs task branch list p⟩ := by
  obtain ⟨q, m, leads, isClosed⟩ := p.leads_closed n
  obtain ⟨e, k, finishes⟩ := isClosed.finishes
  have reads : Reader.step "" closing ⟨root, m, .callArgs task branch list q⟩ =
      .ok ⟨root, k, .calls task branch (addChild list e) true⟩ := by
    unfold Reader.step
    rcases finishes with closed | ended
    · simp [closed, bind, Except.bind]
    · simp [ended, bind, Except.bind]
  apply Completes.leads (w := .callArgs task branch list) _ leads
  · exact .token valid_round reads (completes_calls root k task branch _ true)
  · intro p q n m t reads
    simp [Reader.step, reads, bind, Except.bind]

theorem completes_callOpen (task branch list : Tree) (head : Node) :
    Completes ⟨root, n, .callOpen task branch list head⟩ :=
  .mark .leftRound (by decide) rfl (completes_callArgs root n task branch list _)

theorem completes_guard (task branch : Tree) (sound : p.Sound none) :
    Completes ⟨root, n, .guard task branch p⟩ := by
  obtain ⟨q, m, leads, ends⟩ := Pending.leads_ended sound n
  obtain ⟨e, k, ended⟩ := ends (markLexeme .arrow).token rfl
  have reads : Reader.step "" (markLexeme .arrow).token ⟨root, m, .guard task branch q⟩ =
      .ok ⟨root, k, .listOpen task (addChild branch e)⟩ := by
    unfold Reader.step
    simp only [ended, bind, Except.bind]
    rfl
  apply Completes.leads (w := .guard task branch) _ leads
  · exact .mark .arrow (by decide) reads (completes_listOpen root k task _)
  · intro p q n m t reads
    simp [Reader.step, reads, bind, Except.bind]

/-- The body of a macro ends where the task or the domain does. -/
theorem completes_templateBody (scope : Scope) (template : Tree) (sound : p.Sound none) :
    Completes ⟨root, n, .templateBody scope template p⟩ := by
  obtain ⟨q, m, leads, ends⟩ := Pending.leads_ended sound n
  obtain ⟨e, k, ended⟩ := ends (markLexeme .rightCurly).token rfl
  apply Completes.leads (w := .templateBody scope template) _ leads
  · cases scope with
    | domain =>
      have reads : Reader.step "" (markLexeme .rightCurly).token
          ⟨root, m, .templateBody .domain template q⟩ =
            .ok ⟨addTo ⟨root, k, .items⟩ .domain (addChild template e), k, .blocks⟩ := by
        unfold Reader.step
        simp only [ended, bind, Except.bind]
        rfl
      exact .mark .rightCurly (by decide) reads (completes_blocks _ k)
    | task task =>
      have reads : Reader.step "" (markLexeme .rightCurly).token
          ⟨root, m, .templateBody (.task task) template q⟩ =
            .ok ⟨addTo ⟨root, k, .items⟩ .domain (addChild task (addChild template e)),
            k, .items⟩ := by
        unfold Reader.step
        simp only [ended, bind, Except.bind]
        rfl
      exact .mark .rightCurly (by decide) reads (completes_items _ k)
  · intro p q n m t reads
    simp [Reader.step, reads, bind, Except.bind]

theorem start_sound : Pending.start.Sound none :=
  ⟨rfl, trivial⟩

theorem completes_templateAssign (scope : Scope) (template : Tree) :
    Completes ⟨root, n, .templateAssign scope template⟩ :=
  .mark .assign (by decide) rfl (completes_templateBody root n scope template start_sound)

theorem completes_taskOpen (task : Tree) : Completes ⟨root, n, .taskOpen task⟩ :=
  .mark .leftCurly (by decide) rfl (completes_task root n task)

theorem completes_params (owner : Owner) (later : Bool) :
    Completes ⟨root, n, .params owner later⟩ := by
  cases owner with
  | template scope m =>
    exact .mark .rightRound (by decide) rfl (completes_templateAssign root n scope m)
  | task m => exact .mark .rightRound (by decide) rfl (completes_taskOpen root n m)

theorem completes_paramsOpen (owner : Owner) : Completes ⟨root, n, .paramsOpen owner⟩ :=
  .mark .leftRound (by decide) rfl (completes_params root n owner false)

theorem completes_facts_done (kind : Kind) : Completes ⟨root, n, .facts kind []⟩ :=
  .mark .rightCurly (by decide) rfl (completes_blocks root n)

theorem completes_factParams (kind : Kind) (fact : Tree) (later : Bool) :
    Completes ⟨root, n, .factParams kind fact later⟩ :=
  .mark .rightRound (by decide) rfl (completes_facts_done _ n kind)

theorem completes_factOpen (kind : Kind) (fact : Tree) : Completes ⟨root, n, .factOpen kind fact⟩ :=
  .mark .leftRound (by decide) rfl (completes_factParams root n kind fact false)

theorem isName_float : IsName "float" := .of_all rfl (by decide) (by decide)

/-- A type of parameters is known. -/
theorem completes_factType (kind : Kind) (fact : Tree) :
    Completes ⟨root, n, .factType kind fact⟩ := by
  have known : TypeTag.ofName? (wordLexeme "float").token.word = some .float := by
    rw [show (wordLexeme "float").token.word = "float" from isName_float.word.2]
    decide
  refine .token isName_float.word.1 ?_ (completes_factParams root (n + 1) kind
    (addChild fact (.mk ⟨n, .float, locate "" (wordLexeme "float").token, .param ""⟩ [])) true)
  change addFactType "" _ _ kind fact = _
  unfold addFactType
  rw [known]
  rfl

/-- Attributes get their fact. -/
theorem completes_facts (kind : Kind) (attrs : List Tree) :
    Completes ⟨root, n, .facts kind attrs⟩ := by
  have reads : Reader.step "" (wordLexeme "t").token ⟨root, n, .facts kind attrs⟩ =
      .ok ⟨root, n + 1, .factOpen kind (.mk (newNode "" ⟨root, n, .facts kind attrs⟩
        (wordLexeme "t").token (.fact (wordLexeme "t").token.word)) attrs)⟩ := by
    change stepFacts "" _ _ kind attrs = _
    unfold stepFacts
    rw [show (wordLexeme "t").token.kind = .identifier from rfl]
    simp
  exact .token isName_t.word.1 reads (completes_factOpen root (n + 1) kind _)

theorem completes_afterAttr (place : Place) (attrs : List Tree) :
    Completes ⟨root, n, afterAttr place attrs⟩ := by
  cases place with
  | block kind => exact completes_facts root n kind attrs
  | task task => exact completes_branches root n task attrs

theorem completes_attrList (place : Place) (attrs : List Tree) (p : Pending) :
    Completes ⟨root, n, .attrList place attrs p⟩ := by
  obtain ⟨q, m, leads, isClosed⟩ := p.leads_closed n
  obtain ⟨e, k, finishes⟩ := isClosed.finishes
  have reads : Reader.step "" closing ⟨root, m, .attrList place attrs q⟩ =
      .ok ⟨root, k, afterAttr place (attrs ++ [e])⟩ := by
    unfold Reader.step
    rcases finishes with closed | ended
    · simp [closed, bind, Except.bind]
    · simp [ended, bind, Except.bind]
  apply Completes.leads (w := .attrList place attrs) _ leads
  · exact .token valid_round reads (completes_afterAttr root k place _)
  · intro p q n m t reads
    simp [Reader.step, reads, bind, Except.bind]

theorem completes_attrArgs (place : Place) (attrs : List Tree) (attr : Node) :
    Completes ⟨root, n, .attrArgs place attrs attr⟩ :=
  .mark .leftRound (by decide) rfl (completes_attrList root n place attrs _)

end Modes

/-- What a reader has read so far can be completed. -/
theorem Sound.completes (sound : r.Sound) : r.Completes := by
  obtain ⟨root, n, mode⟩ := r
  have name := isName_t.word.1
  cases mode with
  | blocks => exact completes_blocks root n
  | blockOpen kind => exact .mark .leftCurly (by decide) rfl (completes_facts root n kind [])
  | facts kind attrs => exact completes_facts root n kind attrs
  | attrName place attrs loc =>
    exact .token name rfl (completes_attrArgs root (n + 1) place attrs _)
  | attrArgs place attrs attr => exact completes_attrArgs root n place attrs attr
  | attrList place attrs p => exact completes_attrList root n place attrs p
  | factOpen kind fact => exact completes_factOpen root n kind fact
  | factParams kind fact later => exact completes_factParams root n kind fact later
  | factType kind fact => exact completes_factType root n kind fact
  | domainName =>
    refine .token name rfl ?_
    exact .mark .leftCurly (by decide) rfl (completes_items _ (n + 1))
  | domainOpen => exact .mark .leftCurly (by decide) rfl (completes_items root n)
  | items => exact completes_items root n
  | templateName scope => exact .token name rfl (completes_paramsOpen root (n + 1) _)
  | taskName => exact .token name rfl (completes_paramsOpen root (n + 1) _)
  | paramsOpen owner => exact completes_paramsOpen root n owner
  | params owner later => exact completes_params root n owner later
  | paramName owner => exact .token name rfl (completes_params root (n + 1) _ true)
  | templateAssign scope m => exact completes_templateAssign root n scope m
  | templateBody scope m p => exact completes_templateBody root n scope m sound.mode.2.2
  | taskOpen task => exact completes_taskOpen root n task
  | branches task attrs => exact completes_branches root n task attrs
  | guardStart task branch => exact completes_guardStart root n task branch
  | guard task branch p => exact completes_guard root n task branch sound.mode.2.2
  | listOpen task branch => exact completes_listOpen root n task branch
  | calls task branch list later => exact completes_calls root n task branch list later
  | callName task branch list =>
    exact .token name rfl (completes_callOpen root (n + 1) task branch list _)
  | callOpen task branch list head => exact completes_callOpen root n task branch list head
  | callArgs task branch list p => exact completes_callArgs root n task branch list p

end Reader

end Grammar

end TaskNet
