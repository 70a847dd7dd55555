import Mathlib.Data.List.TakeWhile
import TaskNet.Proofs.Token.Layout

/-!
How far a token reaches. What is read after the first byte of a token is a lexeme of its class, and
it depends on the bytes that are taken only: the same are taken when a blank comes behind them, and
bytes that are read as one token are never cut short by what comes behind.
-/

namespace TaskNet

open List Text

/-- The text goes on with a blank, or is at its end. -/
def AtBlank (text : Bytes) : Prop :=
  text = [] ∨ text.head? = some 32

theorem AtBlank.startsOff {text : Bytes} {p : UInt8 → Bool} (blank : AtBlank text)
    (other : p 32 = false) : StartsOff p text := by
  rintro b first
  rcases blank with rfl | space
  · cases first
  · obtain rfl := Option.some.inj (space.symm.trans first)
    exact other

namespace Scanner

variable {frac expo : Bytes}

theorem fraction_spec (text : Bytes) : fraction text <+: text ∧ IsFraction (fraction text) := by
  cases text with
  | nil => exact ⟨prefix_rfl, .absent⟩
  | cons b rest =>
    unfold fraction
    dsimp only
    split
    · next point =>
      simp only [Bool.and_eq_true, beq_iff_eq, Bool.not_eq_true', isEmpty_eq_false_iff] at point
      obtain ⟨rfl, given⟩ := point
      constructor
      · exact cons_prefix_cons.mpr ⟨rfl, takeWhile_prefix _⟩
      · exact .point given fun c inside => mem_takeWhile_imp inside
    · exact ⟨ nil_prefix, .absent⟩

/-- At most one sign is taken. -/
theorem sign_spec (text : Bytes) {sign : Bytes}
    (taken : (text.takeWhile fun b => b == 43 || b == 45).take 1 = sign) :
    sign <+: text ∧ (sign = [] ∨ sign = [43] ∨ sign = [45]) := by
  subst taken
  constructor
  · exact ( take_prefix _ _).trans ( takeWhile_prefix _)
  · cases text with
    | nil => exact .inl rfl
    | cons b rest =>
      rw [takeWhile_cons]
      split
      · next isSign =>
        simp only [Bool.or_eq_true, beq_iff_eq] at isSign
        rcases isSign with rfl | rfl
        · exact .inr (.inl rfl)
        · exact .inr (.inr rfl)
      · exact .inl rfl

theorem exponentPart_spec (text : Bytes) :
    exponentPart text <+: text ∧ IsExponent (exponentPart text) := by
  cases text with
  | nil => exact ⟨prefix_rfl, .absent⟩
  | cons m rest =>
    rw [exponentPart]
    split
    · next mark =>
      generalize taken : (rest.takeWhile fun b => b == 43 || b == 45).take 1 = sign
      obtain ⟨front, signed⟩ := sign_spec rest taken
      dsimp only
      split
      · exact ⟨ nil_prefix, .absent⟩
      · next given =>
        have whole : sign ++ rest.drop sign.length = rest := prefix_iff_eq_append.mp front
        have digits := takeWhile_prefix (l := rest.drop sign.length) isDigit
        constructor
        · rw [cons_append]
          apply cons_prefix_cons.mpr
          refine ⟨rfl, ?_⟩
          conv => rhs; rw [← whole]
          exact (prefix_append_right_inj sign).mpr digits
        · apply IsExponent.mark (by simpa using mark) signed (by simpa using given)
          intro c inside
          exact mem_takeWhile_imp inside
    · exact ⟨ nil_prefix, .absent⟩

/-- What is read after the first digit of a number, in its three parts. -/
theorem numberTail_spec (rest : Bytes) :
    ∃ digits frac expo, numberTail rest =
        (if frac.isEmpty && expo.isEmpty then .integer else .float, digits ++ (frac ++ expo)) ∧
      digits ++ (frac ++ expo) <+: rest ∧ IsDigits digits ∧ IsFraction frac ∧ IsExponent expo := by
  let digits := rest.takeWhile isDigit
  let frac := fraction (rest.drop digits.length)
  let expo := exponentPart (rest.drop (digits.length + frac.length))
  obtain ⟨fracPrefix, isFraction⟩ := fraction_spec (rest.drop digits.length)
  obtain ⟨expoPrefix, isExponent⟩ := exponentPart_spec (rest.drop (digits.length + frac.length))
  have afterDigits : digits ++ rest.drop digits.length = rest :=
    prefix_iff_eq_append.mp ( takeWhile_prefix _)
  have afterFraction : frac ++ rest.drop (digits.length + frac.length) =
    rest.drop digits.length := by
    rw [← drop_drop]
    exact prefix_iff_eq_append.mp fracPrefix
  refine ⟨digits, frac, expo, ?_, ?_, fun c inside => mem_takeWhile_imp inside, isFraction,
    isExponent⟩
  · unfold numberTail
    dsimp only
    rw [append_assoc]
  · conv => rhs; rw [← afterDigits, ← afterFraction]
    apply (prefix_append_right_inj digits).mpr
    apply (prefix_append_right_inj frac).mpr
    exact expoPrefix

theorem fraction_append (isFraction : IsFraction frac) (text : Bytes) :
    frac <+: fraction (frac ++ text) := by
  cases isFraction with
  | absent => exact nil_prefix
  | @point ds given digits =>
    have more : (ds ++ text).takeWhile isDigit ≠ [] := by
      rw [takeWhile_append_of_pos digits]
      simp [given]
    rw [cons_append, fraction, if_pos (by simpa using more), takeWhile_append_of_pos digits]
    exact prefix_append _ _

theorem exponentPart_append (isExponent : IsExponent expo) (text : Bytes) :
    expo <+: exponentPart (expo ++ text) := by
  cases isExponent with
  | absent => exact nil_prefix
  | @mark m sign ds letter signed given digits =>
    rw [cons_append, exponentPart, if_pos (by simpa using letter)]
    simp only [sign_eq signed given digits]
    rw [append_assoc, drop_left, takeWhile_append_of_pos digits, if_neg (by simp [given]),
      cons_append, ← append_assoc sign]
    exact prefix_append _ _

/-- A number is not cut short by what comes behind it. -/
theorem numberTail_append {digits : Bytes} (isDigits : IsDigits digits)
    (isFraction : IsFraction frac) (isExponent : IsExponent expo) (text : Bytes) :
    digits ++ (frac ++ expo) <+: (numberTail (digits ++ (frac ++ (expo ++ text)))).2 := by
  unfold numberTail
  dsimp only
  by_cases plain : frac = [] ∧ expo = []
  · obtain ⟨rfl, rfl⟩ := plain
    simp only [nil_append, append_nil, append_assoc]
    rw [takeWhile_append_of_pos isDigits, append_assoc]
    exact prefix_append _ _
  · have exponent : expo ≠ [] → StartsOff (fun b => isDigit b || b == 46) (expo ++ text) := by
      intro given
      cases isExponent with
      | absent => exact absurd rfl given
      | mark letter _ _ _ =>
        rintro b ⟨⟩
        rcases letter with rfl | rfl <;> rfl
    have stops : StartsOff isDigit (frac ++ (expo ++ text)) := by
      cases isFraction with
      | absent => exact (exponent fun none => plain ⟨rfl, none⟩).mono fun b other =>
          (Bool.or_eq_false_iff.mp other).1
      | point _ _ =>
        rintro b ⟨⟩
        rfl
    rw [takeWhile_stops isDigits stops, drop_left, append_assoc, ← drop_drop,
      drop_left]
    refine (prefix_append_right_inj digits).mpr ?_
    by_cases none : expo = []
    · rw [none, append_nil]
      exact (fraction_append isFraction _).trans (prefix_append _ _)
    · rw [fraction_eq isFraction (exponent none), drop_left]
      exact (prefix_append_right_inj frac).mpr (exponentPart_append isExponent text)

/-- What is taken does not change when a blank comes behind it, and what is taken as a whole is
taken whatever comes behind it. -/
structure Munches (read : Bytes → TokenKind × Bytes) : Prop where
  stable : ∀ rest text, AtBlank text → read ((read rest).2 ++ text) = read rest
  greedy : ∀ bs text, (read bs).2 = bs → bs <+: (read (bs ++ text)).2

theorem Munches.mark (k : TokenKind) : Munches fun _ => (k, []) where
  stable _ _ _ := rfl
  greedy _ _ all := all ▸ nil_prefix

theorem Munches.ite {test : Bool} {yes no : Bytes → TokenKind × Bytes} (pos : Munches yes)
    (neg : Munches no) : Munches fun rest => if test then yes rest else no rest := by
  cases test
  · exact neg
  · exact pos

theorem Munches.word : Munches fun rest => (.identifier, rest.takeWhile isWordByte) where
  stable rest text blank := by
    rw [takeWhile_stops (fun c inside => mem_takeWhile_imp inside) (blank.startsOff rfl)]
  greedy bs text all := by
    have word : ∀ c ∈ bs, isWordByte c = true := takeWhile_eq_self_iff.mp all
    rw [takeWhile_append_of_pos word]
    exact prefix_append _ _

theorem Munches.number : Munches numberTail where
  stable rest text blank := by
    obtain ⟨digits, frac, expo, tail, -, isDigits, isFraction, isExponent⟩ := numberTail_spec rest
    rw [tail]
    dsimp only
    rw [append_assoc, append_assoc]
    exact numberTail_eq isDigits isFraction isExponent (blank.startsOff rfl)
  greedy bs text all := by
    obtain ⟨digits, frac, expo, tail, -, isDigits, isFraction, isExponent⟩ := numberTail_spec bs
    rw [tail] at all
    dsimp only at all
    subst all
    rw [append_assoc, append_assoc]
    exact numberTail_append isDigits isFraction isExponent text

theorem Munches.oneOrTwo {second : UInt8} (visible : second ≠ 32) (both alone : TokenKind) :
    Munches fun rest => oneOrTwo second rest both alone where
  stable rest text blank := by
    by_cases follows : rest.head? = some second
    · simp [Scanner.oneOrTwo, follows]
    · have single : Scanner.oneOrTwo second rest both alone = (alone, []) :=
        if_neg (by simpa using follows)
      rw [single]
      exact oneOrTwo_alone (blank.startsOff (beq_false_of_ne (Ne.symm visible)))
  greedy bs text all := by
    unfold Scanner.oneOrTwo at all ⊢
    split at all
    · subst all
      simp
    · subst all
      exact nil_prefix

/-- Tokens reach as far as they can, and not further when a blank comes behind them. -/
theorem munches_lexemeTail (b : UInt8) : Munches (lexemeTail b) := by
  unfold lexemeTail
  refine .ite .word (.ite .number ?_)
  iterate 14 refine .ite (.mark _) ?_
  iterate 5 refine .ite (.oneOrTwo (by decide) _ _) ?_
  exact .mark _

/-- No longer text than a token at the same place is a lexeme. -/
theorem lexemeTail_maximal {b : UInt8} {tail text more : Bytes} {k : TokenKind}
    (taken : (lexemeTail b (tail ++ text)).2 = tail) (inside : more <+: text)
    (valid : Lexeme.Valid ⟨k, b :: (tail ++ more)⟩) : more = [] := by
  have ends : StartsOff k.extendedBy [] := fun c first => by cases first
  have whole := lexemeTail_eq valid ends
  rw [append_nil] at whole
  obtain ⟨rest, rfl⟩ := inside
  have reaches := (munches_lexemeTail b).greedy (tail ++ more) rest (by rw [whole])
  rw [append_assoc, taken] at reaches
  have fits := reaches.length_le
  rw [length_append] at fits
  exact length_eq_zero_iff.mp (by omega)

end Scanner

end TaskNet
