import TaskNet.Grammar.Reader
import TaskNet.Proofs.Grammar.Printer
import TaskNet.Proofs.Tree.Relabel

/-!
Reading what was written. An expression is read over the frames that are open in front of it, and
`Read` says what the reader is left with: any token that ends the expression goes on as it does
after a complete operand. Every way of writing an expression keeps this, so a case whose
precondition is written by `lexemes` is read back, whatever white space stands between the lexemes.
-/

namespace TaskNet.Grammar

open List Reader Text Token Tree

/-- Two nodes differ in identity and location only. -/
def SameNode (n m : Node) : Prop :=
  m.content = n.content ∧ m.type = n.type

/-- Two trees differ in identities and locations only. -/
abbrev SameTree : Tree → Tree → Prop :=
  Relabels SameNode

/-- Tokens lead from one state of an expression to another. -/
inductive Feeds (file : String) : Pending → NodeId → List Token → Pending → NodeId → Prop
  | done {p : Pending} {n : NodeId} : Feeds file p n [] p n
  | token {p q r : Pending} {n m k : NodeId} {t : Token} {ts : List Token}
      (step : p.step file t n = .ok (.reading q, m)) (rest : Feeds file q m ts r k) :
      Feeds file p n (t :: ts) r k

/-- A token ends an expression that takes in what binds more tightly than `level`. -/
def Ends (level : Nat) (t : Token) : Prop :=
  t.kind ≠ .leftRound ∧ ∀ o, operatorOf? t.kind = some o → power o ≤ level

section Reading

variable {file : String} {frames : List Frame} {p q r : Pending} {n m k : NodeId} {t : Token}
  {ts us : List Token} {e : Tree} {level : Nat} {o : Operator} {spell : Node → FloatSpelling}
variable {read left right l operand : Tree} {level' : Nat} {node : Node}
  {done rest children : List Tree} {loc : Location} {start : Pending} {negative : Bool}
  {id : NodeId} {name : String}

theorem Feeds.append (first : Feeds file p n ts q m) (second : Feeds file q m us r k) :
    Feeds file p n (ts ++ us) r k := by
  induction first with
  | done => exact second
  | token step _ ih => exact .token step (ih second)

/-- Only the first token sees where the reading starts. -/
theorem Feeds.restart (same : q.step file t n = p.step file t n)
    (feeds : Feeds file p n (t :: ts) r k) : Feeds file q n (t :: ts) r k := by
  cases feeds with
  | token step rest => exact .token (same.trans step) rest

/-- The state after an expression: a token that ends it is read as one after a complete operand. -/
def Read (file : String) (frames : List Frame) (level : Nat) (e : Tree) (p : Pending) (n : NodeId) :
    Prop :=
  ∃ read fresh, SameTree e read ∧
    ∀ t, Ends level t → p.step file t n = afterOperand file t fresh read frames

def ReadsAs (file : String) (frames : List Frame) (level : Nat) (start : Pending) (n : NodeId)
    (ts : List Token) (e : Tree) : Prop :=
  ∃ p m, Feeds file start n ts p m ∧ Read file frames level e p m

/-- How tightly a further operator has to bind to be taken in by an expression on its left. -/
def looseness (e : Tree) : Nat :=
  match between? e with
  | some o => rightPower o
  | none => 60

def Opens (power : Nat) : List Frame → Prop
  | .binary _ o _ :: _ => rightPower o < power
  | .unary _ _ :: _ => False
  | _ => True

/-- The lexemes of an expression are read as it over any frames that let its operator open. -/
def Readable (file : String) (spell : Node → FloatSpelling) (e : Tree) : Prop :=
  ∀ frames n ts, ts.map toLexeme = lexemes spell e →
    (∀ o, between? e = some o → Opens (power o) frames) →
    ReadsAs file frames (looseness e) ⟨frames, .operand⟩ n ts e

theorem power_le (o : Operator) : power o ≤ 60 := by
  cases o <;> decide

theorem read_operand (same : SameTree e read) :
    Read file frames level e ⟨frames, .operator read⟩ n :=
  ⟨read, n, same, fun _ _ => rfl⟩

theorem Read.mono (read : Read file frames level e p n) (less : level' ≤ level) :
    Read file frames level' e p n := by
  obtain ⟨tree, fresh, same, steps⟩ := read
  exact ⟨tree, fresh, same, fun t ends =>
    steps t ⟨ends.1, fun o mark => (ends.2 o mark).trans less⟩⟩

theorem kind_of_mark {c : TokenKind} (mark : t.toLexeme = markLexeme c) : t.kind = c :=
  congrArg Lexeme.kind mark

theorem ends_of_none (round : t.kind ≠ .leftRound) (none : operatorOf? t.kind = none) :
    Ends level t :=
  ⟨round, fun o mark => by rw [none] at mark; cases mark⟩

/-- A bracketed expression is an operand. -/
theorem reads_enclosed {b : Bool} (readable : Readable file spell e) (frames : List Frame)
    (n : NodeId) (tokens : ts.map toLexeme = enclosed b (lexemes spell e))
    (admits : b = false → ∀ o, between? e = some o → Opens (power o) frames) :
    ReadsAs file frames (if b then 60 else looseness e) ⟨frames, .operand⟩ n ts e := by
  cases b with
  | false => exact readable frames n ts tokens (admits rfl)
  | true =>
    obtain ⟨left, later, rfl, opening, later_eq⟩ := map_eq_cons_iff.mp tokens
    obtain ⟨inner, last, rfl, within, last_eq⟩ := map_eq_append_iff.mp later_eq
    obtain ⟨right, rfl, closing⟩ := map_eq_singleton_iff.mp last_eq
    obtain ⟨p, m, feeds, read, fresh, same, steps⟩ :=
      readable (.group :: frames) n inner within fun _ _ => trivial
    have rightKind := kind_of_mark closing
    have close : p.step file right m = .ok (.reading ⟨frames, .operator read⟩, fresh) := by
      rw [steps right (ends_of_none (by rw [rightKind]; decide) (by rw [rightKind]; rfl)),
        afterOperand, rightKind]
      rfl
    have start : Pending.step file left n ⟨frames, .operand⟩ =
        .ok (.reading ⟨.group :: frames, .operand⟩, n) := by
      simp [Pending.step, beforeOperand, kind_of_mark opening]
    exact ⟨_, _, .token start (feeds.append (.token close .done)), read_operand same⟩

section Operators

theorem power_eq_precedence (o : Operator) : power o = precedence o := by
  cases o <;> rfl

theorem operatorOf_markOf (between : o ≠ .not ∧ o ≠ .neg) : operatorOf? (markOf o) = some o := by
  cases o <;> first | rfl | exact absurd rfl between.1 | exact absurd rfl between.2

theorem rightPower_of_ne (other : o ≠ .assign) : rightPower o = power o := by
  cases o <;> first | rfl | exact absurd rfl other

theorem eq_assign_of_precedence (same : precedence o = 25) : o = .assign := by
  cases o <;> first | rfl | cases same

/-- A left operand without brackets leaves the operator to what holds it. -/
theorem power_le_looseness {left : Tree} (bare : enclosesLeft o left = false) :
    power o ≤ looseness left := by
  cases between : between? left with
  | none =>
    rw [looseness, between]
    exact power_le o
  | some k =>
    simp only [enclosesLeft, between, Option.any_some, Bool.or_eq_false_iff, Bool.and_eq_false_iff,
      decide_eq_false_iff_not, not_lt, beq_eq_false_iff_ne, ne_eq, associatesRight] at bare
    obtain ⟨loose, apart⟩ := bare
    rw [looseness, between]
    by_cases right : k = .assign
    · subst right
      have below : precedence o ≤ 25 := loose
      have other : precedence o ≠ 25 := fun same => by
        rcases apart with different | notAssign
        · exact different same.symm
        · exact notAssign (eq_assign_of_precedence same)
      show power o ≤ 24
      rw [power_eq_precedence]
      omega
    · show power o ≤ rightPower k
      rw [rightPower_of_ne right, power_eq_precedence, power_eq_precedence]
      exact loose

/-- A right operand without brackets binds more tightly than the operator. -/
theorem rightPower_lt {right : Tree} {k : Operator} (bare : enclosesRight o right = false)
    (between : between? right = some k) : rightPower o < power k := by
  simp only [enclosesRight, between, Option.any_some, Bool.or_eq_false_iff, Bool.and_eq_false_iff,
    decide_eq_false_iff_not, not_lt, beq_eq_false_iff_ne, ne_eq, associatesRight,
    Bool.not_eq_false', beq_iff_eq] at bare
  obtain ⟨tight, apart⟩ := bare
  rw [power_eq_precedence]
  by_cases right : o = .assign
  · subst right
    exact tight
  · rw [rightPower_of_ne right, power_eq_precedence]
    have other : precedence k ≠ precedence o := apart.resolve_right right
    omega

end Operators

theorem SameTree.kind (same : SameTree left read) : read.kind = left.kind := by
  simp only [Tree.kind, Node.kind, same.node.1]

/-- Two operands under a new operator. -/
theorem sameTree_join {r : Tree} (content : node.content = .op o) (type : node.type = .any)
    (apart : o = .and ∨ o = .or → left.kind ≠ .op o) (sameLeft : SameTree left l)
    (sameRight : SameTree right r) (fresh : NodeId) (loc : Location) :
    SameTree (.mk node [left, right]) (join fresh l o loc r).1 := by
  have new : ((o == .and || o == .or) && l.kind == .op o) = false := by
    by_contra held
    simp only [Bool.not_eq_false, Bool.and_eq_true, Bool.or_eq_true, beq_iff_eq] at held
    exact apart held.1 (sameLeft.kind.symm.trans held.2)
  rw [join, if_neg (by simp [new])]
  exact .mk ⟨content.symm, type.symm⟩ (.cons sameLeft (.cons sameRight .nil))

/-- A further operand of a conjunction or disjunction. -/
theorem sameTree_join_more {r : Tree} (content : node.content = .op o)
    (isLogical : o = .and ∨ o = .or) (sameLeft : SameTree (.mk node done) l)
    (sameRight : SameTree right r) (fresh : NodeId) (loc : Location) :
    SameTree (.mk node (done ++ [right])) (join fresh l o loc r).1 := by
  have held : ((o == .and || o == .or) && l.kind == .op o) = true := by
    simp only [Bool.and_eq_true, Bool.or_eq_true, beq_iff_eq]
    refine ⟨isLogical, sameLeft.kind.trans ?_⟩
    simp [Tree.kind, Node.kind, Tree.node, content, Content.kind]
  rw [join, if_pos held]
  cases sameLeft with
  | mk here below => exact .mk here (rel_append below (.cons sameRight .nil))

theorem afterOperand_opens (mark : operatorOf? t.kind = some o) (opens : Opens (power o) frames)
    (target : o = .assign → left.kind = .var) :
    afterOperand file t n left frames =
      .ok (.reading ⟨.binary left o (locate file t) :: frames, .operand⟩, n) := by
  have opened : openOperator file n frames left o t =
      .ok (.reading ⟨.binary left o (locate file t) :: frames, .operand⟩, n) := by
    rw [openOperator, if_neg]
    intro refused
    simp only [Bool.and_eq_true, beq_iff_eq, bne_iff_ne, ne_eq] at refused
    exact refused.2 (target refused.1)
  rcases frames with _ | ⟨frame, frames⟩
  · rw [afterOperand, mark]
    exact opened
  cases frame with
  | binary l o' loc =>
    rw [afterOperand, mark]
    exact (if_pos opens).trans opened
  | unary o' loc => exact absurd opens id
  | group | arguments head done | list head done =>
    rw [afterOperand, mark]
    exact opened

/-- A token that does not bind more tightly completes an operator. -/
theorem afterOperand_joins (ends : Ends (rightPower o) t) :
    afterOperand file t n right (.binary l o loc :: frames) =
      afterOperand file t (join n l o loc right).2 (join n l o loc right).1 frames := by
  rw [afterOperand]
  split
  · next o' mark =>
    have less := ends.2 o' mark
    rw [if_neg (by omega)]
  · rfl

/-- An operator after an expression, with its right operand. -/
theorem ReadsAs.between {whole : Tree} (before : ReadsAs file frames level start n ts left)
    (mark : operatorOf? t.kind = some o) (binds : power o ≤ level) (opens : Opens (power o) frames)
    (target : o = .assign → left.kind = .var)
    (after : ∀ l loc m, ReadsAs file (.binary l o loc :: frames) level'
      ⟨.binary l o loc :: frames, .operand⟩ m us right) (less : rightPower o ≤ level')
    (joins : ∀ l r fresh loc, SameTree left l → SameTree right r →
      SameTree whole (join fresh l o loc r).1) :
    ReadsAs file frames (rightPower o) start n (ts ++ t :: us) whole := by
  obtain ⟨p, m, feeds, l, fresh, sameLeft, steps⟩ := before
  have ends : Ends level t := by
    refine ⟨fun round => ?_, fun o' same => ?_⟩
    · rw [round] at mark
      cases mark
    · cases mark.symm.trans same
      exact binds
  have step := (steps t ends).trans
    (afterOperand_opens mark opens fun isAssign => sameLeft.kind.trans (target isAssign))
  obtain ⟨q, k, later, read⟩ := after l (locate file t) fresh
  obtain ⟨r, last, sameRight, closing⟩ := read.mono less
  refine ⟨q, k, feeds.append (.token step later), (join last l o (locate file t) r).1,
    (join last l o (locate file t) r).2, joins l r last _ sameLeft sameRight, fun u finish => ?_⟩
  rw [closing u finish, afterOperand_joins finish]

theorem rightPower_le_power (o : Operator) : rightPower o ≤ power o := by
  cases o <;> decide

theorem Opens.mono {power power' : Nat} (opens : Opens power frames) (less : power ≤ power') :
    Opens power' frames := by
  rcases frames with _ | ⟨frame, frames⟩
  · trivial
  cases frame with
  | binary _ _ _ => exact Nat.lt_of_lt_of_le opens less
  | unary _ _ => exact opens
  | group | arguments _ _ | list _ _ => trivial

theorem looseness_enclosed : power o ≤ if enclosesLeft o left then 60 else looseness left := by
  split
  · exact power_le o
  · next bare => exact power_le_looseness (by simpa using bare)

theorem reads_right (readable : Readable file spell right)
    (tokens : ts.map toLexeme = enclosed (enclosesRight o right) (lexemes spell right)) :
    ReadsAs file (.binary l o loc :: frames) (if enclosesRight o right then 60 else looseness right)
      ⟨.binary l o loc :: frames, .operand⟩ n ts right :=
  reads_enclosed readable _ n tokens fun bare _ between => rightPower_lt bare between

theorem rightPower_le : rightPower o ≤ if enclosesRight o right then 60 else looseness right := by
  split
  · cases o <;> decide
  · next bare =>
    rw [looseness]
    split
    · next k between =>
      have tight : rightPower o < power k := rightPower_lt (by simpa using bare) between
      have near : power k ≤ rightPower k + 1 := by cases k <;> decide
      omega
    · cases o <;> decide

/-- Further operands of a conjunction or disjunction. -/
theorem ReadsAs.more (before : ReadsAs file frames (rightPower o) start n ts (.mk node done))
    (content : node.content = .op o) (isLogical : o = .and ∨ o = .or)
    (opens : Opens (power o) frames) (readable : ∀ c ∈ rest, Readable file spell c)
    (tokens : us.map toLexeme = rest.flatMap fun c =>
      markLexeme (markOf o) :: enclosed (enclosesRight o c) (lexemes spell c)) :
    ReadsAs file frames (rightPower o) start n (ts ++ us) (.mk node (done ++ rest)) := by
  induction rest generalizing ts us done with
  | nil =>
    obtain rfl := map_eq_nil_iff.mp tokens
    simpa using before
  | cons c rest ih =>
    rw [flatMap_cons, cons_append] at tokens
    obtain ⟨u, later, rfl, mark, later_eq⟩ := map_eq_cons_iff.mp tokens
    obtain ⟨first, others, rfl, first_eq, others_eq⟩ := map_eq_append_iff.mp later_eq
    have opener : operatorOf? u.kind = some o := by
      rw [kind_of_mark mark, operatorOf_markOf (between_of_logical isLogical)]
    have notAssign : o ≠ .assign := by rcases isLogical with rfl | rfl <;> decide
    have next : ReadsAs file frames (rightPower o) start n (ts ++ u :: first)
      (.mk node (done ++ [c])) :=
      before.between opener (rightPower_of_ne notAssign).ge opens
      (fun same => absurd same notAssign)
        (fun _ _ _ => reads_right (readable c (by simp)) first_eq) rightPower_le
        fun _ _ fresh loc sameLeft sameRight =>
          sameTree_join_more content isLogical sameLeft sameRight fresh loc
    have all := ih next (forall_mem_cons.mp readable).2 others_eq
    simpa using all

theorem between_op (content : node.content = .op o) (between : o ≠ .not ∧ o ≠ .neg) :
    between? (.mk node children) = some o := by
  simp only [between?, Tree.content, Tree.node, content]
  cases o <;> first | rfl | exact absurd rfl between.1 | exact absurd rfl between.2

/-- Operands with an operator between them are read back. -/
theorem readable_between {first second : Tree} (content : node.content = .op o)
    (type : node.type = .any) (between : o ≠ .not ∧ o ≠ .neg)
    (apart : o = .and ∨ o = .or → first.kind ≠ .op o) (target : o = .assign → first.kind = .var)
    (several : rest = [] ∨ o = .and ∨ o = .or) (left : Readable file spell first)
    (right : Readable file spell second) (others : ∀ c ∈ rest, Readable file spell c) :
    Readable file spell (.mk node (first :: second :: rest)) := by
  intro frames n ts tokens admits
  have isBetween : between? (.mk node (first :: second :: rest)) = some o :=
    between_op content between
  have opens : Opens (power o) frames := admits o isBetween
  rw [lexemes_between content between, flatMap_cons, cons_append] at tokens
  obtain ⟨front, later, rfl, front_eq, later_eq⟩ := map_eq_append_iff.mp tokens
  obtain ⟨u, later, rfl, mark, later_eq⟩ := map_eq_cons_iff.mp later_eq
  obtain ⟨middle, back, rfl, middle_eq, back_eq⟩ := map_eq_append_iff.mp later_eq
  have opener : operatorOf? u.kind = some o := by
    rw [kind_of_mark mark, operatorOf_markOf between]
  have start := reads_enclosed left frames n front_eq fun bare k isFirst => by
    have loose := power_le_looseness bare
    rw [looseness, isFirst] at loose
    exact opens.mono (loose.trans (rightPower_le_power k))
  have two : ReadsAs file frames (rightPower o) ⟨frames, .operand⟩ n (front ++ u :: middle)
      (.mk node [first, second]) :=
    start.between opener looseness_enclosed opens target (fun _ _ _ => reads_right right middle_eq)
      rightPower_le fun _ _ fresh loc sameLeft sameRight =>
        sameTree_join content type apart sameLeft sameRight fresh loc
  rw [looseness, isBetween]
  rcases several with rfl | isLogical
  · obtain rfl := map_eq_nil_iff.mp back_eq
    simpa using two
  · have all := two.more content isLogical opens others back_eq
    simpa using all

/-- The operand of a prefix operator. -/
theorem ReadsAs.unary (content : node.content = .op o) (type : node.type = .any)
    (reads : ReadsAs file (.unary o loc :: frames) 60 start n ts operand) :
    ReadsAs file frames 60 start n ts (.mk node [operand]) := by
  obtain ⟨p, m, feeds, read, fresh, same, steps⟩ := reads
  refine ⟨p, m, feeds, operator fresh o loc [read], fresh + 1, ?_, fun t ends => ?_⟩
  · exact .mk ⟨content.symm, type.symm⟩ (.cons same .nil)
  · rw [steps t ends, afterOperand]

theorem reads_only (readable : Readable file spell operand)
    (tokens : ts.map toLexeme = enclosed (enclosesOnly spell o operand) (lexemes spell operand)) :
    ReadsAs file (.unary o loc :: frames) 60 ⟨.unary o loc :: frames, .operand⟩ n ts operand := by
  have single : enclosesOnly spell o operand = false → between? operand = none := by
    intro bare
    simp only [enclosesOnly, Bool.or_eq_false_iff, Option.isSome_eq_false_iff,
      Option.isNone_iff_eq_none] at bare
    exact bare.1
  have reads := reads_enclosed readable (.unary o loc :: frames) n tokens fun bare k isBetween => by
    rw [single bare] at isBetween
    cases isBetween
  have level : (if enclosesOnly spell o operand then 60 else looseness operand) = 60 := by
    split
    · rfl
    · next bare => rw [looseness, single (by simpa using bare)]
  rwa [level] at reads

theorem looseness_unary (content : node.content = .op o) (isUnary : o = .not ∨ o = .neg) :
    looseness (.mk node children) = 60 := by
  rcases isUnary with rfl | rfl <;> simp [looseness, between?, Tree.content, Tree.node, content]

/-- A prefix operator with its operand is read back. -/
theorem readable_unary (content : node.content = .op o) (type : node.type = .any)
    (isUnary : o = .not ∨ o = .neg) (isExpression : IsExpression spell operand)
    (readable : Readable file spell operand) : Readable file spell (.mk node [operand]) := by
  intro frames n ts tokens _
  rw [lexemes_unary content isUnary] at tokens
  obtain ⟨u, later, rfl, mark, later_eq⟩ := map_eq_cons_iff.mp tokens
  have kind := kind_of_mark mark
  have inner : ReadsAs file (.unary o (locate file u) :: frames) 60
      ⟨.unary o (locate file u) :: frames, .operand⟩ n later operand := reads_only readable later_eq
  obtain ⟨p, m, feeds, read⟩ := inner.unary content type
  rw [looseness_unary content isUnary]
  rcases isUnary with rfl | rfl
  · have start : Pending.step file u n ⟨frames, .operand⟩ =
        .ok (.reading ⟨.unary .not (locate file u) :: frames, .operand⟩, n) := by
      simp [Pending.step, beforeOperand, kind, markOf]
    exact ⟨p, m, .token start feeds, read⟩
  · have start : Pending.step file u n ⟨frames, .operand⟩ =
        .ok (.reading ⟨frames, .afterMinus u⟩, n) := by
      simp [Pending.step, beforeOperand, kind, markOf]
    -- The token after the minus is no number, so the minus is read as an operator.
    obtain ⟨l, rest, lexemes_eq, _, notInteger, notFloat⟩ := isExpression.starts_negated
    rw [lexemes_eq] at later_eq
    obtain ⟨v, others, rfl, first, _⟩ := map_eq_cons_iff.mp later_eq
    have firstKind : v.kind = l.kind := congrArg Lexeme.kind first
    have same : Pending.step file v n ⟨frames, .afterMinus u⟩ =
        Pending.step file v n ⟨.unary .neg (locate file u) :: frames, .operand⟩ := by
      simp [Pending.step, firstKind, notInteger, notFloat]
    exact ⟨p, m, .token start (feeds.restart same), read⟩

theorem reads_signed {l : Lexeme} {v : Literal} {place : Location}
    (isNumber : l.kind = .integer ∨ l.kind = .float) (value : ∀ t n loc, t.toLexeme = l →
      number file n negative loc t = .ok (.mk ⟨n, .any, loc, .literal v⟩ [], n + 1))
    (tokens : ts.map toLexeme = signed negative l) :
    ReadsAs file frames level ⟨frames, .operand⟩ n ts (.mk ⟨id, .any, place, .literal v⟩ []) := by
  have same : ∀ m loc, SameTree (.mk ⟨id, .any, place, .literal v⟩ [])
      (.mk ⟨m, .any, loc, .literal v⟩ []) := fun m loc => .mk ⟨rfl, rfl⟩ .nil
  cases negative with
  | false =>
    obtain ⟨t, rfl, lexeme⟩ := map_eq_singleton_iff.mp tokens
    have kind : t.kind = l.kind := congrArg Lexeme.kind lexeme
    have step : Pending.step file t n ⟨frames, .operand⟩ =
        .ok (.reading ⟨frames, .operator (.mk ⟨n, .any, locate file t, .literal v⟩ [])⟩,
        n + 1) := by
      have constant := value t n (locate file t) lexeme
      rcases isNumber with isInteger | isFloat
      · simp [Pending.step, beforeOperand, kind, isInteger, constant, bind, Except.bind]
      · simp [Pending.step, beforeOperand, kind, isFloat, constant, bind, Except.bind]
    exact ⟨_, _, .token step .done, read_operand (same _ _)⟩
  | true =>
    obtain ⟨u, later, rfl, mark, later_eq⟩ := map_eq_cons_iff.mp tokens
    obtain ⟨t, rfl, lexeme⟩ := map_eq_singleton_iff.mp later_eq
    have kind : t.kind = l.kind := congrArg Lexeme.kind lexeme
    have start : Pending.step file u n ⟨frames, .operand⟩ =
        .ok (.reading ⟨frames, .afterMinus u⟩, n) := by
      simp [Pending.step, beforeOperand, kind_of_mark mark]
    have step : Pending.step file t n ⟨frames, .afterMinus u⟩ =
        .ok (.reading ⟨frames, .operator (.mk ⟨n, .any, locate file u, .literal v⟩ [])⟩,
        n + 1) := by
      simp [Pending.step, kind, isNumber, value t n (locate file u) lexeme, bind, Except.bind]
    exact ⟨_, _, .token start (.token step .done), read_operand (same _ _)⟩

theorem number_int {v : Int} (low : -(2 ^ 63) ≤ v) (high : v < 2 ^ 63)
    (lexeme : t.toLexeme = ⟨.integer, decimal v.natAbs⟩) :
    number file n (v < 0) loc t = .ok (.mk ⟨n, .any, loc, .literal (.int v)⟩ [], n + 1) := by
  obtain ⟨kind, bytes⟩ : t.kind = .integer ∧ t.lexeme = decimal v.natAbs := by
    simpa [toLexeme] using lexeme
  have value : integerValue? (v < 0) t.lexeme = some v := by
    rw [integerValue?, bytes, digitsValue_decimal, Number.integer64?]
    by_cases negative : v < 0
    · have fits : v.natAbs ≤ Number.integerBound := by
        rw [Number.integerBound]
        omega
      simp only [negative, decide_true, if_true, if_pos fits, Option.some.injEq]
      omega
    · have fits : v.natAbs < Number.integerBound := by
        rw [Number.integerBound]
        omega
      simp only [negative, decide_false, Bool.false_eq_true, if_false, if_pos fits,
        Option.some.injEq]
      omega
  rw [number, if_pos kind, value]

theorem number_float {v : Number.Binary64} {bs : Bytes} (value : floatValue? negative bs = some v)
    (lexeme : t.toLexeme = ⟨.float, bs⟩) :
    number file n negative loc t = .ok (.mk ⟨n, .any, loc, .literal (.float v)⟩ [], n + 1) := by
  obtain ⟨kind, bytes⟩ : t.kind = .float ∧ t.lexeme = bs := by
    simpa [toLexeme] using lexeme
  rw [number, if_neg (by rw [kind]; decide), bytes, value]

/-- The arguments after one that was just read, up to the closing bracket. -/
theorem feeds_arguments {head : Node} {doneRead : List Tree} {a : Tree}
    (before : Read file (.arguments head doneRead :: frames) level a p n)
    (sameDone : List.Forall₂ SameTree done doneRead) (readable : ∀ c ∈ rest, Readable file spell c)
    (tokens : us.map toLexeme =
      (rest.flatMap fun c => markLexeme .comma :: lexemes spell c) ++ [markLexeme .rightRound]) :
    ∃ allRead m, Feeds file p n us ⟨frames, .operator (.mk head allRead)⟩ m ∧
      List.Forall₂ SameTree (done ++ a :: rest) allRead := by
  obtain ⟨read, fresh, same, steps⟩ := before
  have sameNow : List.Forall₂ SameTree (done ++ [a]) (doneRead ++ [read]) :=
    rel_append sameDone (.cons same .nil)
  induction rest generalizing p n us done doneRead a read fresh level with
  | nil =>
    obtain ⟨u, rfl, mark⟩ := map_eq_singleton_iff.mp tokens
    have kind := kind_of_mark mark
    have step : p.step file u n =
        .ok (.reading ⟨frames, .operator (.mk head (doneRead ++ [read]))⟩, fresh) := by
      rw [steps u (ends_of_none (by rw [kind]; decide) (by rw [kind]; rfl)), afterOperand, kind]
      rfl
    exact ⟨_, _, .token step .done, sameNow⟩
  | cons c rest ih =>
    rw [flatMap_cons, cons_append, cons_append, append_assoc] at tokens
    obtain ⟨u, later, rfl, mark, later_eq⟩ := map_eq_cons_iff.mp tokens
    obtain ⟨first, others, rfl, first_eq, others_eq⟩ := map_eq_append_iff.mp later_eq
    have kind := kind_of_mark mark
    have step : p.step file u n =
        .ok (.reading ⟨.arguments head (doneRead ++ [read]) :: frames, .operand⟩, fresh) := by
      rw [steps u (ends_of_none (by rw [kind]; decide) (by rw [kind]; rfl)), afterOperand, kind]
      rfl
    obtain ⟨q, m, feeds, read', fresh', same', steps'⟩ :=
      readable c (by simp) (.arguments head (doneRead ++ [read]) :: frames) fresh first first_eq
        fun _ _ => trivial
    obtain ⟨allRead, k, more, all⟩ :=
      ih sameNow (forall_mem_cons.mp readable).2 others_eq read' fresh' same' steps'
        (rel_append sameNow (.cons same' .nil))
    exact ⟨allRead, k, .token step (feeds.append more), by simpa using all⟩

theorem word_of_lexeme (isName : IsName name) (lexeme : t.toLexeme = wordLexeme name) :
    t.kind = .identifier ∧ t.word = name := by
  refine ⟨congrArg Lexeme.kind lexeme, ?_⟩
  have bytes : t.lexeme = (wordLexeme name).bytes := congrArg Lexeme.bytes lexeme
  rw [word, bytes, isName.word.2]

/-- A call is read back. -/
theorem readable_call {args : List Tree} (isName : IsName name)
    (isExpression : ∀ a ∈ args, IsExpression spell a)
    (readable : ∀ a ∈ args, Readable file spell a) :
    Readable file spell (.mk ⟨id, .any, loc, .invocation name⟩ args) := by
  intro frames n ts tokens _
  rw [lexemes_call] at tokens
  obtain ⟨word, later, rfl, word_eq, later_eq⟩ := map_eq_cons_iff.mp tokens
  obtain ⟨bracket, inside, rfl, bracket_eq, inside_eq⟩ := map_eq_cons_iff.mp later_eq
  obtain ⟨wordKind, same⟩ := word_of_lexeme isName word_eq
  let head : Node := ⟨n, .any, locate file word, .invocation name⟩
  have first : Pending.step file word n ⟨frames, .operand⟩ =
      .ok (.reading ⟨frames, .afterName word⟩, n) := by
    simp [Pending.step, beforeOperand, wordKind]
  have second : Pending.step file bracket n ⟨frames, .afterName word⟩ =
      .ok (.reading ⟨.arguments head [] :: frames, .firstArgument⟩, n + 1) := by
    simp [Pending.step, kind_of_mark bracket_eq, same, head]
  have complete : ∀ allRead, List.Forall₂ SameTree args allRead →
      SameTree (.mk ⟨id, .any, loc, .invocation name⟩ args) (.mk head allRead) :=
    fun allRead all => .mk ⟨rfl, rfl⟩ all
  cases args with
  | nil =>
    obtain ⟨u, rfl, mark⟩ := map_eq_singleton_iff.mp inside_eq
    have third : Pending.step file u (n + 1) ⟨.arguments head [] :: frames, .firstArgument⟩ =
        .ok (.reading ⟨frames, .operator (.mk head [])⟩, n + 1) := by
      simp [Pending.step, beforeArgument, kind_of_mark mark]
    exact ⟨_, _, .token first (.token second (.token third .done)), read_operand (complete [] .nil)⟩
  | cons a args =>
    rw [map_cons, separated, append_assoc] at inside_eq
    obtain ⟨front, back, rfl, front_eq, back_eq⟩ := map_eq_append_iff.mp inside_eq
    obtain ⟨p, m, feeds, read⟩ := readable a (by simp) (.arguments head [] :: frames) (n + 1) front
      front_eq fun _ _ => trivial
    rw [flatMap_map] at back_eq
    obtain ⟨allRead, k, more, all⟩ :=
      feeds_arguments read .nil (forall_mem_cons.mp readable).2 back_eq
    -- The first argument does not start with the closing bracket, so it is read as any operand.
    obtain ⟨l, rest, lexemes_eq, starts⟩ := (isExpression a (by simp)).starts
    rw [lexemes_eq] at front_eq
    obtain ⟨v, others, rfl, start, _⟩ := map_eq_cons_iff.mp front_eq
    have startKind : v.kind = l.kind := congrArg Lexeme.kind start
    have notClosing : l.kind ≠ .rightRound := fun closing => by
      rw [closing] at starts
      cases starts
    have restarts : Pending.step file v (n + 1) ⟨.arguments head [] :: frames, .firstArgument⟩ =
        Pending.step file v (n + 1) ⟨.arguments head [] :: frames, .operand⟩ := by
      simp [Pending.step, beforeArgument, startKind, notClosing]
    exact ⟨_, _, .token first (.token second ((feeds.restart restarts).append more)),
      read_operand (complete allRead all)⟩

theorem readable_use (isName : IsName name) :
    Readable file spell (.mk ⟨id, .any, loc, .use name⟩ []) := by
  intro frames n ts tokens _
  obtain ⟨word, rfl, word_eq⟩ := map_eq_singleton_iff.mp tokens
  obtain ⟨kind, same⟩ := word_of_lexeme isName word_eq
  have step : Pending.step file word n ⟨frames, .operand⟩ =
      .ok (.reading ⟨frames, .afterName word⟩, n) := by
    simp [Pending.step, beforeOperand, kind]
  refine ⟨_, _, .token step .done, .mk ⟨n, .any, locate file word, .use name⟩ [], n + 1,
    .mk ⟨rfl, rfl⟩ .nil, fun t ends => ?_⟩
  simp [Pending.step, ends.1, same]

/-- The lexemes of an expression are read as it. -/
theorem IsExpression.readable (isExpression : IsExpression spell e) : Readable file spell e := by
  induction isExpression with
  | use isName => exact readable_use isName
  | call isName below ih => exact readable_call isName below ih
  | int low high =>
    intro frames n ts tokens _
    exact reads_signed (.inl rfl) (fun _ _ _ lexeme => number_int low high lexeme) tokens
  | float spells _ value =>
    intro frames n ts tokens _
    rw [lexemes, lexemesOf, spells] at tokens
    exact reads_signed (.inr rfl) (fun _ _ _ lexeme => number_float value lexeme) tokens
  | logical isLogical apart _ _ _ left right others =>
    refine readable_between rfl rfl (between_of_logical isLogical) (fun _ => apart) ?_
      (.inr isLogical) left right others
    rcases isLogical with rfl | rfl <;> exact fun same => by cases same
  | binary isBinary _ _ left right =>
    refine readable_between rfl rfl (between_of_binary isBinary) ?_ ?_ (.inl rfl)
      left right (by simp)
    · rintro (rfl | rfl) <;> simp [Operator.isComparison, Operator.isArithmetic] at isBinary
    · rintro rfl
      simp [Operator.isComparison, Operator.isArithmetic] at isBinary
  | assign target _ _ left right =>
    exact readable_between rfl rfl (by decide) (by simp) (fun _ => target) (.inl rfl)
      left right (by simp)
  | unary isUnary below ih => exact readable_unary rfl rfl isUnary below ih

end Reading

section Cases

variable {file : String} {n m : NodeId} {p q : Pending} {ts rest : List Token}
  {root task branch : Tree}
  {r s : Reader} {t : Token} {spell : Node → FloatSpelling} {e : Tree} {level : Nat}
variable {top domain : Node}

/-- The lexemes in front of the precondition of a case: a domain with a task, and the word of the
case. -/
def caseStart : List Lexeme :=
  [wordLexeme "domain", wordLexeme "d", markLexeme .leftCurly, wordLexeme "task", wordLexeme "t",
    markLexeme .leftRound, markLexeme .rightRound, markLexeme .leftCurly, wordLexeme "case"]

/-- The lexemes after the precondition: an empty task list, and the ends of task and domain. -/
def caseEnd : List Lexeme :=
  [markLexeme .arrow, markLexeme .leftSquare, markLexeme .rightSquare, markLexeme .rightCurly,
    markLexeme .rightCurly]

theorem run_token (step : r.step file t = .ok s) :
    run file r (t :: ts) = run file s ts := by
  rw [run, step]

theorem isName_domain : IsName "domain" := .of_all rfl (by decide) (by decide)

theorem isName_task : IsName "task" := .of_all rfl (by decide) (by decide)

theorem isName_case : IsName "case" := .of_all rfl (by decide) (by decide)

theorem isName_d : IsName "d" := .of_all rfl (by decide) (by decide)

theorem isName_t : IsName "t" := .of_all rfl (by decide) (by decide)

/-- The start of a case leaves the reader in front of the precondition. -/
theorem run_caseStart (tokens : ts.map toLexeme = caseStart) :
    ∃ top domain task branch, domain.kind = .domain ∧ task.kind = .task ∧
      run file ⟨.emptyRoot, 1, .blocks⟩ (ts ++ rest) =
        run file ⟨.mk top [.mk domain []], 4, .guardStart (.mk task []) (.mk branch [])⟩ rest := by
  simp only [caseStart, map_eq_cons_iff, map_eq_nil_iff] at tokens
  obtain ⟨a, _, rfl, domainWord, b, _, rfl, domainName, c, _, rfl, domainOpen, d, _, rfl, taskWord,
    e, _, rfl, taskName, f, _, rfl, paramsOpen, g, _, rfl, paramsClose, h, _, rfl, taskOpen,
    i, _, rfl, caseWord, rfl⟩ := tokens
  obtain ⟨aKind, aText⟩ := word_of_lexeme isName_domain domainWord
  obtain ⟨bKind, bText⟩ := word_of_lexeme isName_d domainName
  obtain ⟨dKind, dText⟩ := word_of_lexeme isName_task taskWord
  obtain ⟨eKind, eText⟩ := word_of_lexeme isName_t taskName
  obtain ⟨iKind, iText⟩ := word_of_lexeme isName_case caseWord
  have cKind := kind_of_mark domainOpen
  have fKind := kind_of_mark paramsOpen
  have gKind := kind_of_mark paramsClose
  have hKind := kind_of_mark taskOpen
  refine ⟨⟨0, .any, .nowhere, .root⟩, ⟨1, .any, locate file b, .domain "d"⟩,
    ⟨2, .any, locate file e, .task "t"⟩, ⟨3, .any, locate file i, .branch .unset⟩, rfl, rfl, ?_⟩
  simp [run, Reader.step, stepBlocks, isWord, need, stepItems,
    stepBranches, afterParams, newNode, addChild, aKind, aText, bKind, bText,
    cKind, dKind, dText, eKind, eText, fKind, gKind, hKind, iKind, iText, emptyRoot,
    findChild?, children, withChildren, Tree.node]

/-- Tokens of an expression are read as tokens of the precondition. -/
theorem run_guard (feeds : Feeds file p n ts q m) :
    run file ⟨root, n, .guard task branch p⟩ (ts ++ rest) =
      run file ⟨root, m, .guard task branch q⟩ rest := by
  induction feeds with
  | done => rfl
  | token step _ ih =>
    rw [cons_append, ← ih, run_token]
    simp [Reader.step, step, bind, Except.bind]

theorem run_guardStart (feeds : Feeds file .start n (t :: ts) q m) (notArrow : t.kind ≠ .arrow) :
    run file ⟨root, n, .guardStart task branch⟩ (t :: ts ++ rest) =
      run file ⟨root, m, .guard task branch q⟩ rest := by
  cases feeds with
  | token step later =>
    rw [cons_append, ← run_guard later, run_token]
    simp [Reader.step, notArrow, step, bind, Except.bind]

/-- The end of a case puts the precondition into it, and the case into its task and domain. -/
theorem run_caseEnd {line column : Nat} (isDomain : domain.kind = .domain)
    (read : Read file [] level e q n) (tokens : ts.map toLexeme = caseEnd) :
    ∃ (pre list : Tree) (k : NodeId), SameTree e pre ∧ list.content = .taskList ∧
      run file ⟨.mk top [.mk domain []], n, .guard task branch q⟩
          (ts ++ [⟨.endOfFile, [], line, column⟩]) =
        (⟨.mk top [.mk domain [closeBranch task (addChild branch pre) list]], k, .blocks⟩,
        none) := by
  simp only [caseEnd, map_eq_cons_iff, map_eq_nil_iff] at tokens
  obtain ⟨a, _, rfl, arrow, b, _, rfl, listOpen, c, _, rfl, listClose, d, _, rfl, taskClose, f, _,
    rfl, domainClose, rfl⟩ := tokens
  have aKind := kind_of_mark arrow
  have bKind := kind_of_mark listOpen
  have cKind := kind_of_mark listClose
  have dKind := kind_of_mark taskClose
  have fKind := kind_of_mark domainClose
  obtain ⟨pre, fresh, same, steps⟩ := read
  have ended : q.step file a n = .ok (.ended pre, fresh) := by
    rw [steps a (ends_of_none (by rw [aKind]; decide) (by rw [aKind]; rfl)), afterOperand, aKind]
    rfl
  refine ⟨pre, .mk ⟨fresh, .any, locate file b, .taskList⟩ [], fresh + 1, same, rfl, ?_⟩
  simp [run, Reader.step, ended, bind, Except.bind, need, afterGuard, aKind, bKind,
    cKind, dKind, fKind, stepBranches, stepItems, stepBlocks, newNode, addTo,
    addToFirst, addChild, Tree.kind, withChildren, children, Tree.node, isDomain]

theorem valid_caseStart : ∀ l ∈ caseStart, l.Valid := by
  simp only [caseStart, forall_mem_cons]
  refine ⟨isName_domain.word.1, isName_d.word.1, valid_mark (by decide), isName_task.word.1,
    isName_t.word.1, valid_mark (by decide), valid_mark (by decide), valid_mark (by decide),
    isName_case.word.1, by simp⟩

theorem valid_caseEnd : ∀ l ∈ caseEnd, l.Valid := by
  simp only [caseEnd, forall_mem_cons]
  refine ⟨valid_mark (by decide), valid_mark (by decide), valid_mark (by decide),
    valid_mark (by decide), valid_mark (by decide), by simp⟩

def caseLexemes (spell : Node → FloatSpelling) (e : Tree) : List Lexeme :=
  caseStart ++ (lexemes spell e ++ caseEnd)

theorem IsExpression.valid_case (isExpression : IsExpression spell e) :
    ∀ l ∈ caseLexemes spell e, l.Valid := by
  intro l member
  simp only [caseLexemes, mem_append] at member
  rcases member with front | middle | back
  · exact valid_caseStart l front
  · exact isExpression.valid l middle
  · exact valid_caseEnd l back

/-- The tokens of a case are read as one case with the expression as its precondition. -/
theorem run_case (isExpression : IsExpression spell e) {line column : Nat}
    (tokens : ts.map toLexeme = caseLexemes spell e) :
    ∃ top domain task branch pre list k, domain.kind = .domain ∧ task.kind = .task ∧
      SameTree e pre ∧ list.content = .taskList ∧
      run file ⟨.emptyRoot, 1, .blocks⟩ (ts ++ [⟨.endOfFile, [], line, column⟩]) =
        (⟨.mk top [.mk domain [closeBranch (.mk task []) (.mk branch [pre]) list]], k, .blocks⟩,
          none) := by
  obtain ⟨front, later, rfl, front_eq, later_eq⟩ := map_eq_append_iff.mp tokens
  obtain ⟨middle, back, rfl, middle_eq, back_eq⟩ := map_eq_append_iff.mp later_eq
  obtain ⟨q, m, feeds, read⟩ := isExpression.readable [] 4 middle middle_eq fun _ _ => trivial
  obtain ⟨l, rest, lexemes_eq, starts⟩ := isExpression.starts
  rw [lexemes_eq] at middle_eq
  obtain ⟨t, middle, rfl, first, _⟩ := map_eq_cons_iff.mp middle_eq
  have notArrow : t.kind ≠ .arrow := fun arrow => by
    have kind : t.kind = l.kind := congrArg Lexeme.kind first
    rw [← kind, arrow] at starts
    cases starts
  obtain ⟨top, domain, task, branch, isDomain, isTask, start⟩ :=
    run_caseStart front_eq
  obtain ⟨pre, list, k, same, isList, finish⟩ := run_caseEnd isDomain read back_eq
  refine ⟨top, domain, task, branch, pre, list, k, isDomain, isTask, same, isList, ?_⟩
  rw [append_assoc, append_assoc, start, run_guardStart feeds notArrow, finish]
  rfl

theorem branches_single {task : Node} (isDomain : domain.kind = .domain)
    (isTask : task.kind = .task) (isBranch : branch.kind = .branch) :
    (mk top [.mk domain [.mk task [branch]]]).branches = [(.mk task [branch], branch)] := by
  rw [Node.kind] at isDomain isTask
  simp [branches, findChild?, childrenOf, children, isDomain, isTask, isBranch]

/-- Whatever white space stands between its lexemes, an expression that is written as the
precondition of a case is read back, up to identities and locations. -/
theorem parse_case_precondition (isExpression : IsExpression spell e) (file : String) :
    LaidOut (caseLexemes spell e) (Lexeme.write (caseLexemes spell e)) ∧
    ∀ text, LaidOut (caseLexemes spell e) text →
      (parse .emptyRoot 1 file text).error = none ∧
      ∃ task branch info pre list, (parse .emptyRoot 1 file text).root.branches = [(task, branch)] ∧
        branch.HasParts info [] pre list ∧ SameTree e pre := by
  refine ⟨laidOut_write _, fun text laidOut => ?_⟩
  obtain ⟨ts, line, column, scanned, tokens⟩ :=
    Scanner.scanFrom_laidOut laidOut isExpression.valid_case ⟨1, 1⟩
  obtain ⟨top, domain, task, branch, pre, list, k, isDomain, isTask, same, isList, run⟩ :=
    run_case isExpression tokens
  have parsed : parse .emptyRoot 1 file text =
      ⟨.mk top [.mk domain [closeBranch (.mk task []) (.mk branch [pre]) list]], k, none⟩ := by
    rw [parse, scan, scanned, run]
  rw [parsed]
  refine ⟨rfl, closeBranch (.mk task []) (.mk branch [pre]) list,
    .mk { branch with content := .branch ⟨some pre.id, some list.id, [], []⟩ } [pre, list],
    ⟨some pre.id, some list.id, [], []⟩, pre, list, ?_, ?_, same⟩
  · exact branches_single isDomain isTask rfl
  · exact ⟨rfl, rfl, by simp, rfl, isList, rfl⟩

/-- An assignment, a call, a negated disjunction and a grouped conjunction, with numbers of both
signs. -/
def sampleExpression : Tree :=
  let name s : Tree := .mk ⟨0, .any, .nowhere, .use s⟩ []
  let int v : Tree := .mk ⟨0, .any, .nowhere, .literal (.int v)⟩ []
  let op o cs : Tree := .mk ⟨0, .any, .nowhere, .op o⟩ cs
  op .and [
    op .assign [name "x", op .add [op .neg [int 5], op .mul [name "y", int (-3)]]],
    .mk ⟨0, .any, .nowhere, .invocation "f"⟩
      [name "a", .mk ⟨0, .any, .nowhere, .literal (.float ⟨4612811918334230528⟩)⟩ []],
    op .not [op .or [name "b", op .sub [name "c", op .sub [int 1, int 2]]]],
    op .and [name "b", name "c"]]

/-- The only float of the sample. -/
def sampleSpelling : Node → FloatSpelling :=
  fun _ => ⟨false, [50, 46, 53]⟩

theorem isExpression_sample : IsExpression sampleSpelling sampleExpression := by
  have x : IsName "x" := .of_all rfl (by decide) (by decide)
  have y : IsName "y" := .of_all rfl (by decide) (by decide)
  have f : IsName "f" := .of_all rfl (by decide) (by decide)
  have a : IsName "a" := .of_all rfl (by decide) (by decide)
  have b : IsName "b" := .of_all rfl (by decide) (by decide)
  have c : IsName "c" := .of_all rfl (by decide) (by decide)
  have int : ∀ v : Int, -(2 ^ 63) ≤ v → v < 2 ^ 63 →
      IsExpression sampleSpelling (.mk ⟨0, .any, .nowhere, .literal (.int v)⟩ []) :=
    fun v low high => .int low high
  have digits : IsDigits [50] ∧ IsDigits [53] := by simp [IsDigits, Scanner.isDigit]
  have spelling : IsFloatSpelling [50, 46, 53] :=
    ⟨[50], [46, 53], [], rfl, by decide, digits.1, .point (by decide) digits.2, .absent, by decide⟩
  refine .logical (.inl rfl) (by decide) ?_ ?_ ?_
  · refine .assign rfl (.use x) (.binary (.inr (by decide)) ?_ ?_)
    · exact .unary (.inr rfl) (int 5 (by decide) (by decide))
    · exact .binary (.inr (by decide)) (.use y) (int (-3) (by decide) (by decide))
  · have float : floatValue? false [50, 46, 53] = some ⟨4612811918334230528⟩ := by decide +kernel
    exact .call f (by simpa using ⟨.use a, .float rfl spelling float⟩)
  · simp only [forall_mem_cons, not_mem_nil, false_imp_iff, implies_true, and_true]
    constructor
    · refine .unary (.inl rfl) (.logical (.inr rfl) (by decide) (.use b) ?_ (by simp))
      refine .binary (.inr (by decide)) (.use c) (.binary (.inr (by decide)) ?_ ?_)
      · exact int 1 (by decide) (by decide)
      · exact int 2 (by decide) (by decide)
    · exact .logical (.inl rfl) (by decide) (.use b) (.use c) (by simp)

theorem parse_case_precondition_sample :
    IsExpression sampleSpelling sampleExpression ∧
    ofAscii (Lexeme.write (lexemes sampleSpelling sampleExpression)) =
      " x = - ( 5 ) + y * - 3 & f ( a , 2.5 ) & ~ ( b | c - ( 1 - 2 ) ) & ( b & c )" ∧
    (LaidOut (caseLexemes sampleSpelling sampleExpression)
        (Lexeme.write (caseLexemes sampleSpelling sampleExpression)) ∧
      ∀ text, LaidOut (caseLexemes sampleSpelling sampleExpression) text →
        (parse .emptyRoot 1 "rules" text).error = none ∧
        ∃ task branch info pre list,
          (parse .emptyRoot 1 "rules" text).root.branches = [(task, branch)] ∧
          branch.HasParts info [] pre list ∧ SameTree sampleExpression pre) :=
  ⟨isExpression_sample, by decide +kernel, parse_case_precondition isExpression_sample "rules"⟩

end Cases

end TaskNet.Grammar
