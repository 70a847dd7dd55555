import Mathlib.Data.List.Basic
import TaskNet.Token.Scanner

/-!
The layout of lexemes in a source. A source is laid out as lexemes with white space around them,
where two lexemes may touch if the first is not extended by the byte after it. Scanning a source
finds the lexemes of any such layout, and writing a blank in front of every lexeme is one.
-/

namespace TaskNet

open List Scanner Text

variable {p : UInt8 → Bool} {text : Bytes}

/-- A class of tokens with the bytes of a token of the class. -/
structure Lexeme where
  kind : TokenKind
  bytes : Bytes
  deriving DecidableEq, Repr

/-- The bytes of the classes that have one spelling only; none for the others. -/
def TokenKind.spelling : TokenKind → Bytes
  | .leftRound => [40]
  | .rightRound => [41]
  | .leftCurly => [123]
  | .rightCurly => [125]
  | .leftSquare => [91]
  | .rightSquare => [93]
  | .comma => [44]
  | .atSign => [64]
  | .arrow => [45, 62]
  | .not => [126]
  | .and => [38]
  | .or => [124]
  | .equal => [61, 61]
  | .notEqual => [33, 61]
  | .less => [60]
  | .lessEqual => [60, 61]
  | .greater => [62]
  | .greaterEqual => [62, 61]
  | .assign => [61]
  | .plus => [43]
  | .minus => [45]
  | .times => [42]
  | .divide => [47]
  | .endOfFile | .illegal | .identifier | .integer | .float => []

/-- Whether a byte right after a token of a class would be read as part of it, or make a comment of
it. -/
def TokenKind.extendedBy : TokenKind → UInt8 → Bool
  | .identifier, b => isWordByte b
  | .integer, b | .float, b => isDigit b || b == 46 || b == 101 || b == 69
  | .minus, b => b == 62
  | .assign, b | .less, b | .greater, b => b == 61
  | .divide, b => b == 47
  | _, _ => false

def IsDigits (bs : Bytes) : Prop :=
  ∀ b ∈ bs, isDigit b = true

/-- The fraction of a number: nothing, or a point with digits. -/
inductive IsFraction : Bytes → Prop
  | absent : IsFraction []
  | point {ds : Bytes} (given : ds ≠ []) (digits : IsDigits ds) : IsFraction (46 :: ds)

/-- The exponent of a number: nothing, or a mark with an optional sign and digits. -/
inductive IsExponent : Bytes → Prop
  | absent : IsExponent []
  | mark {m : UInt8} {sign ds : Bytes} (letter : m = 101 ∨ m = 69)
      (signed : sign = [] ∨ sign = [43] ∨ sign = [45]) (given : ds ≠ []) (digits : IsDigits ds) :
      IsExponent (m :: (sign ++ ds))

/-- The spelling of a float: digits with a fraction, an exponent or both. -/
def IsFloatSpelling (bs : Bytes) : Prop :=
  ∃ whole fraction exponent, bs = whole ++ (fraction ++ exponent) ∧ whole ≠ [] ∧ IsDigits whole ∧
    IsFraction fraction ∧ IsExponent exponent ∧ (fraction ≠ [] ∨ exponent ≠ [])

inductive Lexeme.Valid : Lexeme → Prop
  | word {b : UInt8} {bs : Bytes} (letter : isLetter b = true)
      (others : ∀ c ∈ bs, isWordByte c = true) : Valid ⟨.identifier, b :: bs⟩
  | integer {bs : Bytes} (given : bs ≠ []) (digits : IsDigits bs) : Valid ⟨.integer, bs⟩
  | float {bs : Bytes} (spelling : IsFloatSpelling bs) : Valid ⟨.float, bs⟩
  | fixed {k : TokenKind} (given : k.spelling ≠ []) : Valid ⟨k, k.spelling⟩

def IsBlank (bs : Bytes) : Prop :=
  ∀ b ∈ bs, isSpace b = true

/-- A text starts with no byte that satisfies a test. -/
def StartsOff (p : UInt8 → Bool) (text : Bytes) : Prop :=
  ∀ b, text.head? = some b → p b = false

/-- A text is a list of lexemes with white space around them. -/
inductive LaidOut : List Lexeme → Bytes → Prop
  | done {blank : Bytes} (isBlank : IsBlank blank) : LaidOut [] blank
  | lexeme {blank text : Bytes} {l : Lexeme} {ls : List Lexeme} (isBlank : IsBlank blank)
      (stops : StartsOff l.kind.extendedBy text) (rest : LaidOut ls text) :
      LaidOut (l :: ls) (blank ++ (l.bytes ++ text))

def Token.toLexeme (t : Token) : Lexeme :=
  ⟨t.kind, t.lexeme⟩

theorem StartsOff.mono {q : UInt8 → Bool} (stops : StartsOff p text)
    (weaker : ∀ b, p b = false → q b = false) : StartsOff q text :=
  fun b first => weaker b (stops b first)

theorem startsOff_append {bs : Bytes} (front : StartsOff p bs) (back : bs = [] → StartsOff p text) :
    StartsOff p (bs ++ text) := by
  cases bs with
  | nil => exact back rfl
  | cons b rest => exact front

theorem Lexeme.Valid.given {l : Lexeme} (valid : l.Valid) : l.bytes ≠ [] := by
  cases valid with
  | word _ _ => simp
  | integer given _ => exact given
  | float spelling =>
    obtain ⟨whole, frac, expo, rfl, given, _⟩ := spelling
    simp [given]
  | fixed given => exact given

namespace Scanner

variable {bs text frac expo blank : Bytes} {b : UInt8} {k : TokenKind} {p : Position}

theorem takeWhile_stops {p : UInt8 → Bool} (all : ∀ b ∈ bs, p b = true) (stops : StartsOff p text) :
    (bs ++ text).takeWhile p = bs := by
  have none : text.takeWhile p = [] := by
    cases text with
    | nil => rfl
    | cons b rest => rw [takeWhile_cons, stops b rfl, if_neg (by simp)]
  rw [takeWhile_append_of_pos all, none, append_nil]

/-- What may not follow a number. -/
theorem extends_number (other : TokenKind.extendedBy .integer b = false) :
    isDigit b = false ∧ (b == 46) = false ∧ (b == 101 || b == 69) = false := by
  simp only [TokenKind.extendedBy, Bool.or_eq_false_iff] at other
  simp [other]

theorem fraction_eq (isFraction : IsFraction frac)
    (stops : StartsOff (fun b => isDigit b || b == 46) text) : fraction (frac ++ text) = frac := by
  cases isFraction with
  | absent =>
    cases text with
    | nil => rfl
    | cons b rest =>
      have other := stops b rfl
      simp only [Bool.or_eq_false_iff] at other
      simp [fraction, other.2]
  | @point ds given digits =>
    have all : (ds ++ text).takeWhile isDigit = ds :=
      takeWhile_stops digits (stops.mono fun b other => (Bool.or_eq_false_iff.mp other).1)
    simp [fraction, all, given]

/-- The sign in front of a run of digits. -/
theorem sign_eq {sign ds : Bytes} (signed : sign = [] ∨ sign = [43] ∨ sign = [45]) (given : ds ≠ [])
    (digits : IsDigits ds) :
    ((sign ++ ds ++ text).takeWhile (fun b => b == 43 || b == 45)).take 1 = sign := by
  have none : (ds ++ text).takeWhile (fun b => b == 43 || b == 45) = [] := by
    obtain ⟨d, rest, rfl⟩ := exists_cons_of_ne_nil given
    have digit := digits d (by simp)
    rw [cons_append, takeWhile_cons, if_neg]
    intro same
    simp only [Bool.or_eq_true, beq_iff_eq] at same
    rcases same with rfl | rfl <;> cases digit
  rcases signed with rfl | rfl | rfl <;> simp [none]

theorem exponentPart_eq (isExponent : IsExponent expo)
    (stops : StartsOff (TokenKind.extendedBy .integer) text) :
    exponentPart (expo ++ text) = expo := by
  cases isExponent with
  | absent =>
    cases text with
    | nil => rfl
    | cons b rest =>
      have other := (extends_number (stops b rfl)).2.2
      rw [nil_append, exponentPart, if_neg (by simp [other])]
  | @mark m sign ds letter signed given digits =>
    have all : (ds ++ text).takeWhile isDigit = ds :=
      takeWhile_stops digits (stops.mono fun b other => (extends_number other).1)
    have front : ((sign ++ ds ++ text).takeWhile fun b => b == 43 || b == 45).take 1 = sign :=
      sign_eq signed given digits
    rw [cons_append, exponentPart, if_pos (by simpa using letter)]
    simp only [front]
    rw [append_assoc, drop_left, all]
    simp [given]

theorem startsOff_fraction (isFraction : IsFraction frac) (stops : StartsOff isDigit text) :
    StartsOff isDigit (frac ++ text) := by
  refine startsOff_append ?_ fun _ => stops
  cases isFraction with
  | absent => exact fun b first => by cases first
  | point _ _ =>
    rintro b ⟨⟩
    rfl

theorem startsOff_exponent (isExponent : IsExponent expo)
    (stops : StartsOff (TokenKind.extendedBy .integer) text) :
    StartsOff (fun b => isDigit b || b == 46) (expo ++ text) := by
  refine startsOff_append ?_ fun _ => stops.mono fun b other => ?_
  · cases isExponent with
    | absent => exact fun b first => by cases first
    | mark letter _ _ _ =>
      rintro b ⟨⟩
      rcases letter with rfl | rfl <;> rfl
  · simp [extends_number other]

/-- The digits, the fraction and the exponent of a number are read up to what can not belong to it.
-/
theorem numberTail_eq {digits : Bytes} (isDigits : IsDigits digits) (isFraction : IsFraction frac)
    (isExponent : IsExponent expo) (stops : StartsOff (TokenKind.extendedBy .integer) text) :
    numberTail (digits ++ (frac ++ (expo ++ text))) =
      (if frac.isEmpty && expo.isEmpty then .integer else .float, digits ++ (frac ++ expo)) := by
  have afterFraction := startsOff_exponent isExponent stops
  have whole : (digits ++ (frac ++ (expo ++ text))).takeWhile isDigit = digits :=
    takeWhile_stops isDigits (startsOff_fraction isFraction
      (afterFraction.mono fun b other => (Bool.or_eq_false_iff.mp other).1))
  have part := fraction_eq isFraction afterFraction
  have rest : (digits ++ (frac ++ (expo ++ text))).drop (digits.length + frac.length) =
    expo ++ text := by
    rw [← drop_drop, drop_left, drop_left]
  rw [numberTail]
  simp only [whole, drop_left, part, rest, exponentPart_eq isExponent stops, append_assoc]

theorem oneOrTwo_alone {second : UInt8} {both alone : TokenKind}
    (stops : StartsOff (fun b => b == second) text) :
    oneOrTwo second text both alone = (alone, []) := by
  rw [oneOrTwo, if_neg]
  intro follows
  have first := stops second (by simpa using follows)
  simp at first

theorem letter_not_digit (digit : isDigit b = true) : isLetter b = false := by
  simp only [isDigit, Bool.and_eq_true, decide_eq_true_eq, UInt8.le_iff_toNat_le] at digit
  simp only [isLetter, Bool.or_eq_false_iff, Bool.and_eq_false_iff, decide_eq_false_iff_not,
    UInt8.le_iff_toNat_le, beq_eq_false_iff_ne, ne_eq, ← UInt8.toNat_inj]
  have digits : (48 : UInt8).toNat = 48 ∧ (57 : UInt8).toNat = 57 ∧ (97 : UInt8).toNat = 97 ∧
      (65 : UInt8).toNat = 65 ∧ (95 : UInt8).toNat = 95 := by decide
  omega

/-- A valid lexeme is read up to what does not extend it. -/
theorem lexemeTail_eq (valid : Lexeme.Valid ⟨k, b :: bs⟩) (stops : StartsOff k.extendedBy text) :
    lexemeTail b (bs ++ text) = (k, bs) := by
  generalize same : b :: bs = bytes at valid
  cases valid with
  | @word c cs letter others =>
    cases same
    rw [lexemeTail, if_pos letter, takeWhile_stops others stops]
  | integer given digits =>
    subst same
    obtain ⟨digit, others⟩ := forall_mem_cons.mp digits
    have tail := numberTail_eq others .absent .absent stops
    rw [lexemeTail, if_neg (by simp [letter_not_digit digit]), if_pos digit]
    simpa using tail
  | float spelling =>
    obtain ⟨whole, frac, expo, bytes, given, digits, isFraction, isExponent, more⟩ := spelling
    subst same
    obtain ⟨d, ds, rfl⟩ := exists_cons_of_ne_nil given
    obtain ⟨rfl, rfl⟩ := cons_eq_cons.mp bytes
    obtain ⟨digit, others⟩ := forall_mem_cons.mp digits
    have tail := numberTail_eq others isFraction isExponent stops
    have float : (frac.isEmpty && expo.isEmpty) = false := by
      rcases more with some | some <;> simp [some]
    rw [lexemeTail, if_neg (by simp [letter_not_digit digit]), if_pos digit]
    simpa [float] using tail
  | fixed given =>
    -- Only the marks that start a longer one look at what follows.
    cases k <;> cases same
    case fixed.less.refl => exact oneOrTwo_alone stops
    case fixed.greater.refl => exact oneOrTwo_alone stops
    case fixed.assign.refl => exact oneOrTwo_alone stops
    case fixed.minus.refl => exact oneOrTwo_alone stops
    all_goals rfl

/-- A valid lexeme starts with no white space, and with a slash only where it is one. -/
theorem first_byte (valid : Lexeme.Valid ⟨k, b :: bs⟩) :
    isSpace b = false ∧ (b = 47 → k = .divide ∧ bs = []) := by
  have word : isWordByte b = true → isSpace b = false ∧ (b = 47 → k = .divide ∧ bs = []) := by
    intro isWord
    have apart : ∀ c, isWordByte c = false → b ≠ c := by
      rintro c other rfl
      simp [isWord] at other
    refine ⟨?_, fun slash => absurd slash (apart 47 rfl)⟩
    simp [isSpace, apart 32 rfl, apart 9 rfl, apart 13 rfl, apart 10 rfl]
  have digit : isDigit b = true → isSpace b = false ∧ (b = 47 → k = .divide ∧ bs = []) :=
    fun isDigit => word (by simp [isWordByte, isDigit])
  generalize same : b :: bs = bytes at valid
  cases valid with
  | word letter _ =>
    cases same
    exact word (by simp [isWordByte, letter])
  | integer given isDigits =>
    subst same
    exact digit (isDigits b (by simp))
  | float spelling =>
    obtain ⟨whole, frac, expo, bytes, given, isDigits, _⟩ := spelling
    subst same
    obtain ⟨d, ds, rfl⟩ := exists_cons_of_ne_nil given
    obtain ⟨rfl, _⟩ := cons_eq_cons.mp bytes
    exact digit (isDigits b (by simp))
  | fixed given => cases k <;> cases same <;> simp [isSpace]

theorem gap_blank (isBlank : IsBlank blank) (stops : gap false text = []) :
    gap false (blank ++ text) = blank := by
  induction blank with
  | nil => exact stops
  | cons b blank ih =>
    have space := isBlank b (by simp)
    rw [cons_append, gap, if_pos space, ih (forall_mem_cons.mp isBlank).2]

/-- A source is a gap, a token and the rest. -/
theorem scanFrom_token {src skipped : Bytes} (gaps : gap false src = skipped)
    (after : src.drop skipped.length = b :: (bs ++ text))
    (token : lexemeTail b (bs ++ text) = (k, bs)) :
    ∃ line column q, scanFrom p src = ⟨k, b :: bs, line, column⟩ :: scanFrom q text := by
  rw [scanFrom]
  split
  · next none =>
    rw [gaps, after] at none
    cases none
  · next c rest found =>
    rw [gaps, after] at found
    cases found
    simp only [token, drop_left]
    exact ⟨_, _, _, rfl⟩

theorem scanFrom_blank (isBlank : IsBlank blank) :
    ∃ line column, scanFrom p blank = [⟨.endOfFile, [], line, column⟩] := by
  have gaps : gap false blank = blank := by
    have all := gap_blank isBlank (show gap false [] = [] from rfl)
    rwa [append_nil] at all
  rw [scanFrom]
  split
  · exact ⟨_, _, rfl⟩
  · next found =>
    rw [gaps, drop_length] at found
    cases found

theorem scanFrom_laidOut {ls : List Lexeme} (laidOut : LaidOut ls text) (valid : ∀ l ∈ ls, l.Valid)
    (p : Position) :
    ∃ ts line column, scanFrom p text = ts ++ [⟨.endOfFile, [], line, column⟩] ∧
      ts.map Token.toLexeme = ls := by
  induction laidOut generalizing p with
  | done isBlank =>
    obtain ⟨line, column, tokens⟩ := scanFrom_blank (p := p) isBlank
    exact ⟨[], line, column, tokens, rfl⟩
  | @lexeme blank text l ls isBlank stops rest ih =>
    have here := valid l (by simp)
    obtain ⟨k, bytes⟩ := l
    obtain ⟨b, bs, rfl⟩ := exists_cons_of_ne_nil here.given
    obtain ⟨notSpace, slash⟩ := first_byte here
    have starts : gap false (b :: bs ++ text) = [] := by
      rw [cons_append, gap, if_neg (by simp [notSpace]), if_neg]
      intro comment
      simp only [Bool.and_eq_true, beq_iff_eq] at comment
      obtain ⟨rfl, rfl⟩ := slash comment.1
      cases stops _ comment.2
    obtain ⟨line, column, q, first⟩ := scanFrom_token (p := p) (gap_blank isBlank starts)
      drop_left (lexemeTail_eq here stops)
    obtain ⟨ts, endLine, endColumn, later, same⟩ := ih (forall_mem_cons.mp valid).2 q
    refine ⟨⟨k, b :: bs, line, column⟩ :: ts, endLine, endColumn, ?_, ?_⟩
    · rw [first, later]
      rfl
    · rw [map_cons, same]
      rfl

end Scanner

/-- Lexemes with a blank in front of each. -/
def Lexeme.write (ls : List Lexeme) : Bytes :=
  ls.flatMap fun l => 32 :: l.bytes

theorem laidOut_write (ls : List Lexeme) : LaidOut ls (Lexeme.write ls) := by
  induction ls with
  | nil => exact .done (by simp [IsBlank, Lexeme.write])
  | cons l ls ih =>
    have blank : IsBlank [32] := by simp [IsBlank, isSpace]
    refine LaidOut.lexeme blank ?_ ih
    cases ls with
    | nil => exact fun b first => by cases first
    | cons m ls =>
      rintro b ⟨⟩
      cases l.kind <;> rfl

end TaskNet
