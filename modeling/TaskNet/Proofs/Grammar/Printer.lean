import Mathlib.Algebra.Group.Int.Defs
import TaskNet.Grammar.Literal
import TaskNet.Proofs.Token.Layout
import TaskNet.Tree.Pool

/-!
Writing expressions. The trees that expressions are read as are described by `IsExpression`, and
`lexemes` writes such a tree with round brackets only where the precedence of the operators asks for
them, or where a minus in front of a number would be taken for its sign.
-/

namespace TaskNet.Grammar

open List Text

variable {rest : List Tree} {name : String} {first : Tree}

/-- The precedence of an operator; a higher one binds more tightly. -/
def precedence : Operator → Nat
  | .or => 10
  | .and => 20
  | .assign => 25
  | .eq | .ne | .lt | .le | .gt | .ge => 30
  | .add | .sub => 40
  | .mul | .div => 50
  | .not | .neg => 60

/-- Whether a run of equal operators groups to the right. -/
def associatesRight (o : Operator) : Bool :=
  o == .assign

def markOf : Operator → TokenKind
  | .or => .or
  | .and => .and
  | .assign => .assign
  | .eq => .equal
  | .ne => .notEqual
  | .lt => .less
  | .le => .lessEqual
  | .gt => .greater
  | .ge => .greaterEqual
  | .add => .plus
  | .sub | .neg => .minus
  | .mul => .times
  | .div => .divide
  | .not => .not

/-- The operator at the top of an expression, if it stands between operands. -/
def between? (t : Tree) : Option Operator :=
  match t.content with
  | .op .not | .op .neg => none
  | .op o => some o
  | _ => none

/-- How a float is written: its sign and its lexeme without the sign. -/
structure FloatSpelling where
  negative : Bool
  lexeme : Bytes

/-- A name: a letter, and letters and digits after it. An underscore counts as a letter. -/
def IsName (name : String) : Prop :=
  ∃ c cs, name.toList = c :: cs ∧ (c.isAlpha || c == '_') = true ∧
    ∀ d ∈ cs, (d.isAlphanum || d == '_') = true

theorem IsName.of_all {c : Char} {cs : List Char} (spelled : name.toList = c :: cs)
    (first : (c.isAlpha || c == '_') = true)
    (others : (cs.all fun d => d.isAlphanum || d == '_') = true) : IsName name :=
  ⟨c, cs, spelled, first, all_eq_true.mp others⟩

def wordLexeme (name : String) : Lexeme :=
  ⟨.identifier, name.toList.map byte⟩

/-- The lexeme of a class that has one spelling only. -/
def markLexeme (k : TokenKind) : Lexeme :=
  ⟨k, k.spelling⟩

def decimal (n : Nat) : Bytes :=
  (Nat.toDigits 10 n).map byte

def signed (negative : Bool) (l : Lexeme) : List Lexeme :=
  if negative then [markLexeme .minus, l] else [l]

def enclosed (needed : Bool) (ls : List Lexeme) : List Lexeme :=
  if needed then markLexeme .leftRound :: (ls ++ [markLexeme .rightRound]) else ls

def separated (k : TokenKind) : List (List Lexeme) → List Lexeme
  | [] => []
  | g :: gs => g ++ gs.flatMap (markLexeme k :: ·)

/-- Whether the left operand of an operator is put in brackets. -/
def enclosesLeft (o : Operator) (operand : Tree) : Bool :=
  (between? operand).any fun k =>
    precedence k < precedence o || (precedence k == precedence o && associatesRight o)

def enclosesRight (o : Operator) (operand : Tree) : Bool :=
  (between? operand).any fun k =>
    precedence k < precedence o || (precedence k == precedence o && !associatesRight o)

section

variable (spell : Node → FloatSpelling)

def isUnsigned (t : Tree) : Bool :=
  match t.content with
  | .literal (.int v) => 0 ≤ v
  | .literal (.float _) => !(spell t.node).negative
  | _ => false

/-- Whether the operand of a prefix operator is put in brackets. -/
def enclosesOnly (o : Operator) (operand : Tree) : Bool :=
  (between? operand).isSome || (o == .neg && isUnsigned spell operand)

def joinedLexemes (o : Operator) : List (Tree × List Lexeme) → List (List Lexeme)
  | [] => []
  | first :: rest =>
    enclosed (enclosesLeft o first.1) first.2 ::
      rest.map fun r => enclosed (enclosesRight o r.1) r.2

def lexemesOf (n : Node) (operands : List (Tree × List Lexeme)) : List Lexeme :=
  match n.content with
  | .var v => [wordLexeme v.name]
  | .call f =>
    wordLexeme f.name :: markLexeme .leftRound ::
      (separated .comma (operands.map Prod.snd) ++ [markLexeme .rightRound])
  | .literal (.int v) => signed (v < 0) ⟨.integer, decimal v.natAbs⟩
  | .literal (.float _) => signed (spell n).negative ⟨.float, (spell n).lexeme⟩
  | .op .not => markLexeme .not ::
    operands.flatMap fun r => enclosed (enclosesOnly spell .not r.1) r.2
  | .op .neg => markLexeme .minus ::
    operands.flatMap fun r => enclosed (enclosesOnly spell .neg r.1) r.2
  | .op o => separated (markOf o) (joinedLexemes o operands)
  | _ => []

mutual

def lexemes : Tree → List Lexeme
  | .mk n cs => lexemesOf spell n (lexemesList cs)

def lexemesList : List Tree → List (Tree × List Lexeme)
  | [] => []
  | t :: ts => (t, lexemes t) :: lexemesList ts

end

/-- The trees that expressions are read as. -/
inductive IsExpression : Tree → Prop
  | use {id : NodeId} {loc : Location} {name : String} (isName : IsName name) :
      IsExpression (.mk ⟨id, .any, loc, .use name⟩ [])
  | call {id : NodeId} {loc : Location} {name : String} {args : List Tree} (isName : IsName name)
      (below : ∀ a ∈ args, IsExpression a) :
      IsExpression (.mk ⟨id, .any, loc, .invocation name⟩ args)
  | int {id : NodeId} {loc : Location} {v : Int} (low : -(2 ^ 63) ≤ v) (high : v < 2 ^ 63) :
      IsExpression (.mk ⟨id, .any, loc, .literal (.int v)⟩ [])
  | float {id : NodeId} {loc : Location} {v : Number.Binary64} {negative : Bool} {lexeme : Bytes}
      (spells : spell ⟨id, .any, loc, .literal (.float v)⟩ = ⟨negative, lexeme⟩)
      (isSpelling : IsFloatSpelling lexeme) (value : floatValue? negative lexeme = some v) :
      IsExpression (.mk ⟨id, .any, loc, .literal (.float v)⟩ [])
  | logical {id : NodeId} {loc : Location} {o : Operator} {first second : Tree} {rest : List Tree}
      (isLogical : o = .and ∨ o = .or) (apart : first.kind ≠ .op o)
      (left : IsExpression first) (right : IsExpression second)
      (below : ∀ c ∈ rest, IsExpression c) :
      IsExpression (.mk ⟨id, .any, loc, .op o⟩ (first :: second :: rest))
  | binary {id : NodeId} {loc : Location} {o : Operator} {first second : Tree}
      (isBinary : o.isComparison = true ∨ (o.isArithmetic = true ∧ o ≠ .neg))
      (left : IsExpression first) (right : IsExpression second) :
      IsExpression (.mk ⟨id, .any, loc, .op o⟩ [first, second])
  | assign {id : NodeId} {loc : Location} {first second : Tree} (target : first.kind = .var)
      (left : IsExpression first) (right : IsExpression second) :
      IsExpression (.mk ⟨id, .any, loc, .op .assign⟩ [first, second])
  | unary {id : NodeId} {loc : Location} {o : Operator} {operand : Tree}
      (isUnary : o = .not ∨ o = .neg) (below : IsExpression operand) :
      IsExpression (.mk ⟨id, .any, loc, .op o⟩ [operand])

end

section Words

variable {c : Char} {cs : List Char}

theorem toNat_byte (small : c.toNat < 256) : (byte c).toNat = c.toNat := by
  rw [byte, Nat.toUInt8, UInt8.toNat_ofNat', Nat.mod_eq_of_lt small]

theorem ofNat_toNat_byte (small : c.toNat < 256) : Char.ofNat (byte c).toNat = c := by
  rw [toNat_byte small, Char.ofNat_toNat]

theorem letter_code (letter : (c.isAlpha || c == '_') = true) :
    (97 ≤ c.toNat ∧ c.toNat ≤ 122) ∨ (65 ≤ c.toNat ∧ c.toNat ≤ 90) ∨ c.toNat = 95 := by
  have ranges : ((decide (c.val ≥ 'A'.val ∧ c.val ≤ 'Z'.val) ||
    (c.val ≥ 'a'.val && c.val ≤ 'z'.val)) ||
      c == '_') = true := letter
  simp only [Bool.or_eq_true, Bool.and_eq_true, decide_eq_true_eq, beq_iff_eq, ge_iff_le,
    UInt32.le_iff_toNat_le] at ranges
  rcases ranges with (upper | lower) | rfl
  · exact .inr (.inl upper)
  · exact .inl lower
  · exact .inr (.inr rfl)

theorem digit_code (digit : c.isDigit = true) : 48 ≤ c.toNat ∧ c.toNat ≤ 57 := by
  simp only [Char.isDigit, Bool.and_eq_true, decide_eq_true_eq, ge_iff_le,
    UInt32.le_iff_toNat_le] at digit
  exact digit

theorem isDigit_byte (digit : c.isDigit = true) : Scanner.isDigit (byte c) = true := by
  have code := digit_code digit
  have same : (byte c).toNat = c.toNat := toNat_byte (by omega)
  simp only [Scanner.isDigit, Bool.and_eq_true, decide_eq_true_eq, UInt8.le_iff_toNat_le, same]
  exact code

theorem isLetter_byte (letter : (c.isAlpha || c == '_') = true) :
    Scanner.isLetter (byte c) = true := by
  have code := letter_code letter
  have same : (byte c).toNat = c.toNat := toNat_byte (by omega)
  simp only [Scanner.isLetter, Bool.or_eq_true, Bool.and_eq_true, decide_eq_true_eq, beq_iff_eq,
    UInt8.le_iff_toNat_le, ← UInt8.toNat_inj, same]
  exact or_assoc.mpr code

theorem word_cases (word : (c.isAlphanum || c == '_') = true) :
    (c.isAlpha || c == '_') = true ∨ c.isDigit = true := by
  simp only [Char.isAlphanum, Bool.or_eq_true] at word ⊢
  tauto

theorem word_small (word : (c.isAlphanum || c == '_') = true) : c.toNat < 256 := by
  rcases word_cases word with letter | digit
  · have code := letter_code letter
    omega
  · have code := digit_code digit
    omega

theorem isWordByte_byte (word : (c.isAlphanum || c == '_') = true) :
    Scanner.isWordByte (byte c) = true := by
  rw [Scanner.isWordByte, Bool.or_eq_true]
  exact (word_cases word).imp isLetter_byte isDigit_byte

theorem ofAscii_map_byte (small : ∀ c ∈ cs, c.toNat < 256) :
    ofAscii (cs.map byte) = String.ofList cs := by
  have each : ∀ c ∈ cs, Char.ofNat (byte c).toNat = c := fun c member =>
    ofNat_toNat_byte (small c member)
  rw [ofAscii, map_map]
  congr 1
  exact (map_congr_left each).trans (map_id cs)

theorem word_alphanum (letter : (c.isAlpha || c == '_') = true) :
    (c.isAlphanum || c == '_') = true := by
  simp only [Char.isAlphanum, Bool.or_eq_true] at letter ⊢
  tauto

/-- A name is read back. -/
theorem IsName.word (isName : IsName name) :
    (wordLexeme name).Valid ∧ ofAscii (wordLexeme name).bytes = name := by
  obtain ⟨c, cs, chars, letter, others⟩ := isName
  rw [wordLexeme, chars]
  refine ⟨.word (isLetter_byte letter) ?_, ?_⟩
  · intro b member
    obtain ⟨d, within, rfl⟩ := mem_map.mp member
    exact isWordByte_byte (others d within)
  · have small : ∀ d ∈ c :: cs, d.toNat < 256 :=
      forall_mem_cons.mpr ⟨word_small (word_alphanum letter), fun d within =>
        word_small (others d within)⟩
    rw [ofAscii_map_byte small, ← chars, String.ofList_toList]

theorem decimal_given (n : Nat) : decimal n ≠ [] := by
  simp [decimal, Nat.toDigits_ne_nil]

theorem decimal_digits (n : Nat) : IsDigits (decimal n) := by
  intro b member
  obtain ⟨c, within, rfl⟩ := mem_map.mp member
  exact isDigit_byte (Nat.isDigit_of_mem_toDigits (by decide) (by decide) within)

theorem digitsValue_map_byte (digits : ∀ c ∈ cs, c.isDigit = true) (n : Nat) :
    (cs.map byte).foldl (fun n b => 10 * n + (b.toNat - 48)) n = Nat.ofDigitChars 10 cs n := by
  rw [Nat.ofDigitChars, foldl_map]
  apply foldl_ext
  intro m c member
  have code := digit_code (digits c member)
  rw [toNat_byte (by omega)]
  rfl

theorem digitsValue_decimal (n : Nat) : digitsValue (decimal n) = n := by
  rw [digitsValue, decimal, digitsValue_map_byte, Nat.ofDigitChars_toDigits (by decide) (by decide)]
  exact fun c member => Nat.isDigit_of_mem_toDigits (by decide) (by decide) member
end Words

section Lexemes

variable {spell : Node → FloatSpelling} {t : Tree}
variable {o : Operator} {n : Node} {b negative : Bool} {ls : List Lexeme} {l number : Lexeme}
  {k : TokenKind} {P : TokenKind → Prop}

theorem between_of_logical (isLogical : o = .and ∨ o = .or) : o ≠ .not ∧ o ≠ .neg := by
  rcases isLogical with rfl | rfl <;> decide

theorem between_of_binary (isBinary : o.isComparison = true ∨ (o.isArithmetic = true ∧ o ≠ .neg)) :
    o ≠ .not ∧ o ≠ .neg := by
  cases o <;> simp_all [Operator.isComparison, Operator.isArithmetic]

theorem lexemesList_eq (cs : List Tree) :
    lexemesList spell cs = cs.map fun c => (c, lexemes spell c) := by
  induction cs with
  | nil => rfl
  | cons c cs ih => rw [lexemesList, ih, map_cons]

/-- Operands with an operator between them. -/
theorem lexemes_between (content : n.content = .op o) (between : o ≠ .not ∧ o ≠ .neg) (first : Tree)
    (rest : List Tree) :
    lexemes spell (.mk n (first :: rest)) =
      enclosed (enclosesLeft o first) (lexemes spell first) ++
        rest.flatMap fun c =>
          markLexeme (markOf o) :: enclosed (enclosesRight o c) (lexemes spell c) := by
  rw [lexemes, lexemesOf, content]
  cases o
  case not => exact absurd rfl between.1
  case neg => exact absurd rfl between.2
  all_goals
    simp only [lexemesList_eq, map_cons, joinedLexemes, separated, map_map,
      flatMap_map, Function.comp_apply]

theorem lexemes_unary (content : n.content = .op o) (isUnary : o = .not ∨ o = .neg)
    (operand : Tree) : lexemes spell (.mk n [operand]) =
      markLexeme (markOf o) :: enclosed (enclosesOnly spell o operand) (lexemes spell operand) := by
  rw [lexemes, lexemesOf, content]
  rcases isUnary with rfl | rfl <;> simp [lexemesList, markOf]

theorem lexemes_call (id : NodeId) (loc : Location) (name : String) (args : List Tree) :
    lexemes spell (.mk ⟨id, .any, loc, .invocation name⟩ args) =
      wordLexeme name :: markLexeme .leftRound ::
        (separated .comma (args.map (lexemes spell)) ++ [markLexeme .rightRound]) := by
  simp [lexemes, lexemesOf, Content.invocation, lexemesList_eq, Function.comp_def]

theorem mem_enclosed (member : l ∈ enclosed b ls) :
    l = markLexeme .leftRound ∨ l = markLexeme .rightRound ∨ l ∈ ls := by
  cases b with
  | false => exact .inr (.inr member)
  | true =>
    simp only [enclosed, if_true, mem_cons, mem_append, not_mem_nil, or_false] at member
    tauto

theorem mem_separated {gs : List (List Lexeme)} (member : l ∈ separated k gs) :
    l = markLexeme k ∨ ∃ g ∈ gs, l ∈ g := by
  cases gs with
  | nil => cases member
  | cons g gs =>
    simp only [separated, mem_append, mem_flatMap, mem_cons] at member
    rcases member with first | ⟨h, within, rfl | later⟩
    · exact .inr ⟨g, by simp, first⟩
    · exact .inl rfl
    · exact .inr ⟨h, by simp [within], later⟩

theorem valid_mark (given : k.spelling ≠ []) : (markLexeme k).Valid :=
  .fixed given

theorem valid_enclosed (valid : ∀ l ∈ ls, l.Valid) : ∀ l ∈ enclosed b ls, l.Valid := by
  intro l member
  rcases mem_enclosed member with rfl | rfl | within
  · exact valid_mark (by decide)
  · exact valid_mark (by decide)
  · exact valid l within

theorem valid_signed (valid : number.Valid) : ∀ l ∈ signed negative number, l.Valid := by
  have minus : (markLexeme .minus).Valid := valid_mark (by decide)
  cases negative <;> simp [signed, valid, minus]

theorem markOf_spelled (o : Operator) : (markOf o).spelling ≠ [] := by
  cases o <;> decide

theorem valid_between (content : n.content = .op o) (between : o ≠ .not ∧ o ≠ .neg)
    (left : ∀ l ∈ lexemes spell first, l.Valid)
    (right : ∀ c ∈ rest, ∀ l ∈ lexemes spell c, l.Valid) :
    ∀ l ∈ lexemes spell (.mk n (first :: rest)), l.Valid := by
  intro l member
  rw [lexemes_between content between, mem_append, mem_flatMap] at member
  rcases member with front | ⟨c, within, later⟩
  · exact valid_enclosed left l front
  · rcases mem_cons.mp later with rfl | inside
    · exact valid_mark (markOf_spelled o)
    · exact valid_enclosed (right c within) l inside

/-- An expression is written by lexemes of the language. -/
theorem IsExpression.valid (isExpression : IsExpression spell t) :
    ∀ l ∈ lexemes spell t, l.Valid := by
  induction isExpression with
  | use isName => simpa [lexemes, lexemesOf, Content.use] using isName.word.1
  | call isName _ ih =>
    intro l member
    rw [lexemes_call] at member
    simp only [mem_cons, mem_append, not_mem_nil, or_false] at member
    rcases member with rfl | rfl | within | rfl
    · exact isName.word.1
    · exact valid_mark (by decide)
    · rcases mem_separated within with rfl | ⟨g, isArgument, inside⟩
      · exact valid_mark (by decide)
      · obtain ⟨a, given, rfl⟩ := mem_map.mp isArgument
        exact ih a given l inside
    · exact valid_mark (by decide)
  | int _ _ => exact valid_signed (.integer (decimal_given _) (decimal_digits _))
  | float spells isSpelling _ =>
    rw [lexemes, lexemesOf, spells]
    exact valid_signed (.float isSpelling)
  | logical isLogical _ _ _ _ left right ih =>
    exact valid_between rfl (between_of_logical isLogical) left
      (forall_mem_cons.mpr ⟨right, ih⟩)
  | binary isBinary _ _ left right =>
    exact valid_between rfl (between_of_binary isBinary) left (forall_mem_singleton.mpr right)
  | assign _ _ _ left right =>
    exact valid_between rfl (by decide) left (forall_mem_singleton.mpr right)
  | unary isUnary _ ih =>
    intro l member
    rw [lexemes_unary rfl isUnary] at member
    rcases mem_cons.mp member with rfl | inside
    · exact valid_mark (markOf_spelled _)
    · exact valid_enclosed ih l inside

/-- Whether an expression can start with a token of a class. -/
def startsOperand : TokenKind → Bool
  | .identifier | .integer | .float | .leftRound | .not | .minus => true
  | _ => false

def Starts (P : TokenKind → Prop) (ls : List Lexeme) : Prop :=
  ∃ l rest, ls = l :: rest ∧ P l.kind

theorem Starts.append (starts : Starts P ls) (more : List Lexeme) : Starts P (ls ++ more) := by
  obtain ⟨l, rest, rfl, holds⟩ := starts
  exact ⟨l, rest ++ more, rfl, holds⟩

theorem starts_enclosed (bracket : P .leftRound) (starts : b = false → Starts P ls) :
    Starts P (enclosed b ls) := by
  cases b with
  | false => exact starts rfl
  | true => exact ⟨_, _, rfl, bracket⟩

theorem starts_signed (minus : negative = true → P .minus)
    (unsigned : negative = false → P number.kind) : Starts P (signed negative number) := by
  cases negative with
  | false => exact ⟨number, [], rfl, unsigned rfl⟩
  | true => exact ⟨_, _, rfl, minus rfl⟩

theorem starts_between (content : n.content = .op o) (between : o ≠ .not ∧ o ≠ .neg)
    (left : Starts (startsOperand · = true) (lexemes spell first)) :
    Starts (startsOperand · = true) (lexemes spell (.mk n (first :: rest))) := by
  rw [lexemes_between content between]
  have bracket : startsOperand .leftRound = true := rfl
  exact Starts.append (starts_enclosed bracket fun _ => left) _

theorem IsExpression.starts (isExpression : IsExpression spell t) :
    Starts (startsOperand · = true) (lexemes spell t) := by
  induction isExpression with
  | use _ => exact ⟨_, _, rfl, rfl⟩
  | call _ _ _ =>
    rw [lexemes_call]
    exact ⟨_, _, rfl, rfl⟩
  | int _ _ => exact starts_signed (fun _ => rfl) fun _ => rfl
  | float _ _ _ => exact starts_signed (fun _ => rfl) fun _ => rfl
  | logical isLogical _ _ _ _ left _ _ =>
    exact starts_between rfl (between_of_logical isLogical) left
  | binary isBinary _ _ left _ => exact starts_between rfl (between_of_binary isBinary) left
  | assign _ _ _ left _ => exact starts_between rfl (by decide) left
  | unary isUnary _ _ =>
    rw [lexemes_unary rfl isUnary]
    refine ⟨_, _, rfl, ?_⟩
    rcases isUnary with rfl | rfl <;> rfl

/-- After a minus that is no sign stands no number. -/
theorem IsExpression.starts_negated (isExpression : IsExpression spell t) :
    Starts (fun k => startsOperand k = true ∧ k ≠ .integer ∧ k ≠ .float)
      (enclosed (enclosesOnly spell .neg t) (lexemes spell t)) := by
  have name : startsOperand .identifier = true ∧ TokenKind.identifier ≠ .integer ∧
      TokenKind.identifier ≠ .float := by decide
  refine starts_enclosed (by decide) fun bare => ?_
  obtain ⟨single, notNumber⟩ : between? t = none ∧ isUnsigned spell t = false := by
    simpa [enclosesOnly] using bare
  cases isExpression with
  | use _ => exact ⟨_, _, rfl, name⟩
  | call _ _ =>
    rw [lexemes_call]
    exact ⟨_, _, rfl, name⟩
  | int _ _ =>
    refine starts_signed (fun _ => by decide) fun unsigned => ?_
    simp [isUnsigned, Tree.content, Tree.node] at notNumber unsigned
    omega
  | float spells _ _ =>
    refine starts_signed (fun _ => by decide) fun unsigned => ?_
    simp [isUnsigned, Tree.content, Tree.node, unsigned] at notNumber
  | logical isLogical _ _ _ _ => rcases isLogical with rfl | rfl <;> cases single
  | @binary _ _ o _ _ isBinary _ _ =>
    have between := between_of_binary isBinary
    cases o <;> simp_all [between?, Tree.content, Tree.node]
  | assign _ _ _ => cases single
  | unary isUnary _ =>
    rw [lexemes_unary rfl isUnary]
    refine ⟨_, _, rfl, ?_⟩
    rcases isUnary with rfl | rfl <;> decide

end Lexemes

end TaskNet.Grammar
