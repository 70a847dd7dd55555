import Mathlib.Data.List.Induction
import TaskNet.Proofs.Token.Munch

/-!
Scanning loses nothing. Every byte of a source lies in one gap or in one lexeme, a gap is white
space and comments only, and a token is placed at the line and the column where its lexeme starts.
This is said of all byte strings: what is no lexeme of the language is an illegal token of one byte,
and so it is not lost either.
-/

namespace TaskNet

open Lexeme List Scanner Text

variable {b : UInt8} {ts : List Token} {rest before : Bytes} (src : Bytes)

/-- The text goes on with the end of a line, or is at its end. -/
def AtLineEnd (text : Bytes) : Prop :=
  text = [] ∨ text.head? = some 10

/-- White space and comments, in front of what comes `after`. A comment runs up to a line end, which
is white space itself, or up to the end of the source. -/
inductive IsGap (after : Bytes) : Bytes → Prop
  | empty : IsGap after []
  | blank {b : UInt8} {rest : Bytes} (blank : b = 32 ∨ b = 9 ∨ b = 13 ∨ b = 10)
      (later : IsGap after rest) : IsGap after (b :: rest)
  | comment {text rest : Bytes} (inLine : 10 ∉ text) (stops : AtLineEnd (rest ++ after))
      (later : IsGap after rest) : IsGap after (47 :: 47 :: (text ++ rest))

/-- The line that a text ends in: one more than it has line ends. -/
def lineAfter (text : Bytes) : Nat :=
  1 + text.count 10

/-- The column behind a text: one more than there are bytes since its last line end. -/
def columnAfter (text : Bytes) : Nat :=
  1 + (text.reverse.takeWhile fun b => b != 10).length

def Token.StartsAfter (t : Token) (text : Bytes) : Prop :=
  t.line = lineAfter text ∧ t.column = columnAfter text

/-- No lexeme is longer than a token and takes in a part of the text behind it. -/
def Token.LongestBefore (t : Token) (text : Bytes) : Prop :=
  ∀ k more, more <+: text → Valid ⟨k, t.lexeme ++ more⟩ → more = []

/-- Tokens cover a source that stands behind `before`, and the last of them is the end of the file.
-/
inductive Covers : Bytes → Bytes → List Token → Prop
  | done {before gap : Bytes} {t : Token} (isGap : IsGap [] gap) (kind : t.kind = .endOfFile)
      (lexeme : t.lexeme = []) (starts : t.StartsAfter (before ++ gap)) : Covers before gap [t]
  | token {before gap rest : Bytes} {t : Token} {ts : List Token}
      (isGap : IsGap (t.lexeme ++ rest) gap) (given : t.lexeme ≠ []) (notEnd : t.kind ≠ .endOfFile)
      (legal : t.kind ≠ .illegal → t.toLexeme.Valid) (longest : t.LongestBefore rest)
      (starts : t.StartsAfter (before ++ gap))
      (later : Covers (before ++ gap ++ t.lexeme) rest ts) :
      Covers before (gap ++ (t.lexeme ++ rest)) (t :: ts)

namespace Scanner

section Gaps

theorem isSpace_iff : isSpace b = true ↔ b = 32 ∨ b = 9 ∨ b = 13 ∨ b = 10 := by
  simp [isSpace, or_assoc]

def EndsComment (after gap : Bytes) : Prop :=
  ∃ text rest, gap = text ++ rest ∧ 10 ∉ text ∧ AtLineEnd (rest ++ after) ∧ IsGap after rest

theorem EndsComment.cons {after gap : Bytes} (other : b ≠ 10)
    (ends : EndsComment after gap) : EndsComment after (b :: gap) := by
  obtain ⟨text, rest, rfl, inLine, stops, isGap⟩ := ends
  refine ⟨b :: text, rest, rfl, ?_, stops, isGap⟩
  intro lineEnd
  rcases mem_cons.mp lineEnd with same | inside
  · exact other same.symm
  · exact inLine inside

/-- Two slashes open a comment. -/
theorem EndsComment.isGap {after gap : Bytes} (ends : EndsComment after (47 :: gap)) :
    IsGap after (47 :: 47 :: gap) := by
  obtain ⟨text, rest, same, inLine, stops, isGap⟩ := ends
  cases text with
  | nil =>
    -- The comment is not over yet, because a slash is no line end.
    obtain rfl : rest = 47 :: gap := same.symm
    rcases stops with none | lineEnd
    · cases none
    · cases lineEnd
  | cons b text =>
    obtain ⟨_, rfl⟩ := cons_eq_cons.mp same
    exact .comment (fun inside => inLine (mem_cons_of_mem b inside)) stops isGap

/-- What is skipped in front of a token, outside and inside of a comment. -/
theorem gap_spec :
    (∃ after, src = gap false src ++ after ∧ IsGap after (gap false src)) ∧
      ∃ after, src = gap true src ++ after ∧ EndsComment after (gap true src) := by
  induction src with
  | nil =>
    constructor
    · exact ⟨[], rfl, .empty⟩
    · exact ⟨[], rfl, [], [], rfl, by simp, .inl rfl, .empty⟩
  | cons b src ih =>
    obtain ⟨⟨after, outside, isGap⟩, comment⟩ := ih
    constructor
    · unfold gap
      split
      · next space =>
        refine ⟨after, ?_, .blank (isSpace_iff.mp space) isGap⟩
        rw [cons_append, ← outside]
      · split
        · next slashes =>
          simp only [Bool.and_eq_true, beq_iff_eq] at slashes
          obtain ⟨rfl, second⟩ := slashes
          obtain ⟨rest, rfl⟩ : ∃ rest, src = 47 :: rest := by
            cases src with
            | nil => cases second
            | cons c rest =>
              cases second
              exact ⟨rest, rfl⟩
          obtain ⟨after, inside, ends⟩ := comment
          have further : gap true (47 :: rest) = 47 :: gap true rest := rfl
          refine ⟨after, ?_, ?_⟩
          · rw [cons_append, ← inside]
          · rw [further] at ends ⊢
            exact ends.isGap
        · exact ⟨b :: src, rfl, .empty⟩
    · unfold gap
      split
      · next lineEnd =>
        obtain rfl : b = 10 := by simpa using lineEnd
        refine ⟨after, ?_, [], 10 :: gap false src, rfl, by simp, .inr rfl, ?_⟩
        · rw [cons_append, ← outside]
        · exact .blank (.inr (.inr (.inr rfl))) isGap
      · next other =>
        obtain ⟨after, inside, ends⟩ := comment
        refine ⟨after, ?_, ends.cons (by simpa using other)⟩
        rw [cons_append, ← inside]

end Gaps

section Lexemes

theorem valid_number (rest : Bytes) (digit : isDigit b = true) :
    (numberTail rest).2 <+: rest ∧ Valid ⟨(numberTail rest).1, b :: (numberTail rest).2⟩ := by
  obtain ⟨digits, frac, expo, tail, inside, isDigits, isFraction, isExponent⟩ :=
    numberTail_spec rest
  have whole : IsDigits (b :: digits) := forall_mem_cons.mpr ⟨digit, isDigits⟩
  rw [tail]
  refine ⟨inside, ?_⟩
  dsimp only
  split
  · next none =>
    simp only [Bool.and_eq_true, List.isEmpty_iff] at none
    obtain ⟨rfl, rfl⟩ := none
    simpa using Valid.integer (cons_ne_nil b digits) whole
  · next some =>
    apply Valid.float
    refine ⟨b :: digits, frac, expo, rfl, cons_ne_nil b digits, whole, isFraction, isExponent, ?_⟩
    simp only [Bool.and_eq_true, List.isEmpty_iff] at some
    by_cases absent : frac = []
    · exact .inr fun noExponent => some ⟨absent, noExponent⟩
    · exact .inl absent

/-- The bytes of a token after its first one, and the class of the token. -/
structure TailSpec (b : UInt8) (rest : Bytes) (result : TokenKind × Bytes) : Prop where
  inside : result.2 <+: rest
  notEnd : result.1 ≠ .endOfFile
  legal : result.1 ≠ .illegal → Valid ⟨result.1, b :: result.2⟩

theorem TailSpec.mark {k : TokenKind} (spelled : k.spelling = [b]) :
    TailSpec b rest (k, []) where
  inside := nil_prefix
  notEnd := by
    rintro rfl
    cases spelled
  legal _ := spelled ▸ Valid.fixed (by rw [spelled]; exact cons_ne_nil b [])

theorem TailSpec.illegal : TailSpec b rest (.illegal, []) where
  inside := nil_prefix
  notEnd := by decide
  legal := fun legal => absurd rfl legal

theorem TailSpec.oneOrTwo {second : UInt8} {both alone : TokenKind}
    (spelled : both.spelling = [b, second]) (single : TailSpec b rest (alone, [])) :
    TailSpec b rest (oneOrTwo second rest both alone) := by
  unfold Scanner.oneOrTwo
  split
  · next follows =>
    constructor
    · cases rest with
      | nil => cases follows
      | cons c rest =>
        obtain rfl : c = second := by simpa using follows
        exact cons_prefix_cons.mpr ⟨rfl, nil_prefix⟩
    · rintro rfl
      cases spelled
    · intro _
      exact spelled ▸ Valid.fixed (by rw [spelled]; exact cons_ne_nil b _)
  · exact single

theorem TailSpec.ite {test : Bool} {yes no : TokenKind × Bytes}
    (pos : test = true → TailSpec b rest yes) (neg : TailSpec b rest no) :
    TailSpec b rest (if test then yes else no) := by
  split
  · next holds => exact pos holds
  · exact neg

/-- A token takes bytes of the source only, and they are a lexeme of its class. -/
theorem lexemeTail_spec (b : UInt8) (rest : Bytes) : TailSpec b rest (lexemeTail b rest) := by
  have mark : ∀ {c : UInt8} {k : TokenKind}, k.spelling = [c] → (b == c) = true →
      TailSpec b rest (k, []) := by
    intro c k spelled same
    obtain rfl := eq_of_beq same
    exact .mark spelled
  have two : ∀ {c second : UInt8} {both alone : TokenKind}, both.spelling = [c, second] →
      alone.spelling = [c] →
      (b == c) = true → TailSpec b rest (oneOrTwo second rest both alone) := by
    intro c second both alone spelled single same
    obtain rfl := eq_of_beq same
    exact .oneOrTwo spelled (.mark single)
  unfold lexemeTail
  apply TailSpec.ite
  · intro letter
    refine ⟨ takeWhile_prefix _, by simp, fun _ => ?_⟩
    exact .word letter fun c inside => mem_takeWhile_imp inside
  apply TailSpec.ite
  · intro digit
    obtain ⟨inside, valid⟩ := valid_number rest digit
    refine ⟨inside, fun isEnd => ?_, fun _ => valid⟩
    rw [isEnd] at valid
    cases valid
  -- The marks of one byte, then those that a second byte may follow.
  iterate 14 apply TailSpec.ite (mark rfl)
  iterate 4 apply TailSpec.ite (two rfl rfl)
  apply TailSpec.ite
  · intro same
    obtain rfl := eq_of_beq same
    exact .oneOrTwo rfl .illegal
  · exact .illegal

end Lexemes

section Positions

theorem count_append_singleton (text : Bytes) (b : UInt8) :
    (text ++ [b]).count 10 = text.count 10 + if b == 10 then 1 else 0 := by
  rw [count_append, count_singleton]

/-- The position behind a text is counted one byte at a time. -/
theorem afterAll_eq (text : Bytes) :
    Position.afterAll ⟨1, 1⟩ text = ⟨lineAfter text, columnAfter text⟩ := by
  induction text using List.reverseRecOn with
  | nil => rfl
  | append_singleton text b ih =>
    have last : Position.afterAll ⟨1, 1⟩ (text ++ [b]) =
        Position.after (Position.afterAll ⟨1, 1⟩ text) b := by
      unfold Position.afterAll
      rw [foldl_append, foldl_cons, foldl_nil]
    rw [last, ih]
    unfold Position.after lineAfter columnAfter
    rw [count_append_singleton, reverse_append, reverse_singleton, singleton_append,
      takeWhile_cons]
    split
    · next lineEnd =>
      obtain rfl := eq_of_beq lineEnd
      simp
      omega
    · next other =>
      simp only [beq_iff_eq] at other
      simp [other]
      omega

theorem afterAll_append (p : Position) (first second : Bytes) :
    p.afterAll (first ++ second) = (p.afterAll first).afterAll second := by
  unfold Position.afterAll
  rw [foldl_append]

/-- A source is covered by its tokens, also behind another text. -/
theorem scanFrom_covers (before src : Bytes) :
    Covers before src (scanFrom (Position.afterAll ⟨1, 1⟩ before) src) := by
  generalize size : src.length = n
  induction n using Nat.strongRecOn generalizing before src with
  | ind n ih =>
    obtain ⟨after, whole, isGap⟩ := (gap_spec src).1
    have behind : src.drop (gap false src).length = after := by
      have dropped := congrArg (List.drop (gap false src).length) whole
      rwa [drop_left] at dropped
    rw [scanFrom, ← afterAll_append, afterAll_eq]
    split
    · next none =>
      obtain rfl : after = [] := behind.symm.trans none
      rw [append_nil] at whole
      rw [← whole] at isGap ⊢
      exact .done isGap rfl rfl ⟨rfl, rfl⟩
    · next b rest found =>
      obtain rfl : after = b :: rest := behind.symm.trans found
      have tail := lexemeTail_spec b rest
      generalize taken : lexemeTail b rest = result at tail
      obtain ⟨kind, bytes⟩ := result
      dsimp only
      have split : rest = bytes ++ rest.drop bytes.length :=
        (prefix_iff_eq_append.mp tail.inside).symm
      have shorter : (rest.drop bytes.length).length < n := by
        rw [← size, whole, length_append, length_cons, length_drop]
        omega
      have later := ih _ shorter (before ++ gap false src ++ (b :: bytes)) _ rfl
      rw [afterAll_append, afterAll_eq (before ++ gap false src)] at later
      have isGap : IsGap ((b :: bytes) ++ rest.drop bytes.length) (gap false src) := by
        rwa [cons_append, ← split]
      have longest : ∀ k more, more <+: rest.drop bytes.length →
          Valid ⟨k, b :: bytes ++ more⟩ → more = [] := fun k more =>
        lexemeTail_maximal (by rw [← split, taken])
      have covers := @Covers.token before (gap false src) (rest.drop bytes.length)
        ⟨kind, b :: bytes, lineAfter (before ++ gap false src),
        columnAfter (before ++ gap false src)⟩
        _ isGap (cons_ne_nil b bytes) tail.notEnd tail.legal longest ⟨rfl, rfl⟩ later
      rw [cons_append, ← split, ← whole] at covers
      exact covers

end Positions

end Scanner

theorem Token.scan_covers : Covers [] src (Token.scan src) :=
  Scanner.scanFrom_covers [] src

/-- A longer text ends in another place. -/
theorem Token.StartsAfter.extended {t u : Token} {text more : Bytes} (first : t.StartsAfter text)
    (second : u.StartsAfter (text ++ more)) (given : more ≠ []) :
    t.line ≠ u.line ∨ t.column ≠ u.column := by
  by_cases lineEnd : 10 ∈ more
  · left
    have positive := count_pos_iff.mpr lineEnd
    rw [first.1, second.1]
    unfold lineAfter
    rw [count_append]
    omega
  · right
    have inLine : ∀ b ∈ more.reverse, (b != 10) = true := by
      intro b inside
      simp only [bne_iff_ne, ne_eq]
      rintro rfl
      exact lineEnd (mem_reverse.mp inside)
    have positive := length_pos_iff.mpr given
    rw [first.2, second.2]
    unfold columnAfter
    rw [reverse_append, takeWhile_append_of_pos inLine, length_append,
      length_reverse]
    omega

/-- The tokens of a covered source start behind what is in front of it. -/
theorem Covers.starts {src : Bytes} (covers : Covers before src ts) :
    ∀ t ∈ ts, ∃ more, t.StartsAfter (before ++ more) := by
  induction covers with
  | @done _ gap t _ _ _ starts =>
    intro u inside
    obtain rfl := mem_singleton.mp inside
    exact ⟨gap, starts⟩
  | @token _ gap _ t _ _ _ _ _ _ starts _ ih =>
    intro u inside
    rcases mem_cons.mp inside with rfl | later
    · exact ⟨gap, starts⟩
    · obtain ⟨more, behind⟩ := ih u later
      refine ⟨gap ++ (t.lexeme ++ more), ?_⟩
      rwa [append_assoc, append_assoc] at behind

/-- No two tokens of a source are in one place. -/
theorem Covers.place_unique {src : Bytes} (covers : Covers before src ts)
    {i j : Nat} {t u : Token} (atI : ts[i]? = some t) (atJ : ts[j]? = some u)
    (line : t.line = u.line) (column : t.column = u.column) : i = j := by
  induction covers generalizing i j with
  | @done _ _ s _ _ _ _ =>
    obtain ⟨smallI, _⟩ := List.getElem?_eq_some_iff.mp atI
    obtain ⟨smallJ, _⟩ := List.getElem?_eq_some_iff.mp atJ
    rw [length_singleton] at smallI smallJ
    omega
  | @token before gap _ s ts _ given _ _ _ starts later ih =>
    have apart : ∀ w ∈ ts, s.line ≠ w.line ∨ s.column ≠ w.column := by
      intro w inside
      obtain ⟨more, behind⟩ := later.starts w inside
      rw [append_assoc] at behind
      exact starts.extended behind (by simp [given])
    cases i with
    | zero =>
      obtain rfl : s = t := by simpa using atI
      cases j with
      | zero => rfl
      | succ j =>
        have inside := mem_of_getElem? (by simpa using atJ : ts[j]? = some u)
        rcases apart u inside with other | other
        · exact absurd line other
        · exact absurd column other
    | succ i =>
      rw [getElem?_cons_succ] at atI
      cases j with
      | zero =>
        obtain rfl : s = u := by simpa using atJ
        rcases apart t (mem_of_getElem? atI) with other | other
        · exact absurd line.symm other
        · exact absurd column.symm other
      | succ j =>
        rw [getElem?_cons_succ] at atJ
        rw [ih atI atJ]

/-- A token with the gap in front of it. -/
structure Piece where
  gap : Bytes
  token : Token

/-- The text of gaps and lexemes in order. -/
def Piece.text (pieces : List Piece) : Bytes :=
  pieces.flatMap fun p => p.gap ++ p.token.lexeme

/-- A piece stands in its place, between the text in front of it and the text behind it. -/
def Piece.InPlace (p : Piece) (front back : Bytes) : Prop :=
  IsGap (p.token.lexeme ++ back) p.gap ∧ p.token.StartsAfter (front ++ p.gap) ∧
    p.token.LongestBefore back

theorem Piece.text_cons (p : Piece) (pieces : List Piece) :
    Piece.text (p :: pieces) = p.gap ++ (p.token.lexeme ++ Piece.text pieces) := by
  unfold Piece.text
  rw [flatMap_cons, append_assoc]

/-- Tokens that cover a source come with the gaps that they leave. -/
theorem Covers.pieces {src : Bytes} (covers : Covers before src ts) :
    ∃ pieces : List Piece, pieces.map Piece.token = ts ∧ Piece.text pieces = src ∧
      ∀ front p back, pieces = front ++ p :: back →
        p.InPlace (before ++ Piece.text front) (Piece.text back) := by
  induction covers with
  | @done before gap t isGap kind lexeme starts =>
    refine ⟨[⟨gap, t⟩], rfl, ?_, ?_⟩
    · simp [Piece.text, lexeme]
    · intro front p back same
      obtain ⟨rfl, rfl, rfl⟩ : front = [] ∧ p = ⟨gap, t⟩ ∧ back = [] := by
        cases front with
        | nil =>
          obtain ⟨rfl, rfl⟩ := cons_eq_cons.mp same
          exact ⟨rfl, rfl, rfl⟩
        | cons q front =>
          have lengths := congrArg List.length same
          simp at lengths
      refine ⟨?_, ?_, fun _ _ inside _ => prefix_nil.mp inside⟩
      · simpa [Piece.text, lexeme] using isGap
      · simpa [Piece.text] using starts
  | @token before gap rest t ts isGap given notEnd legal longest starts later ih =>
    obtain ⟨pieces, tokens, text, places⟩ := ih
    refine ⟨⟨gap, t⟩ :: pieces, ?_, ?_, ?_⟩
    · rw [map_cons, tokens]
    · rw [Piece.text_cons, text]
    · intro front p back same
      cases front with
      | nil =>
        obtain ⟨rfl, rfl⟩ := cons_eq_cons.mp same
        rw [text]
        exact ⟨isGap, by simpa [Piece.text] using starts, longest⟩
      | cons q front =>
        obtain ⟨rfl, rfl⟩ := cons_eq_cons.mp same
        have place := places front p back rfl
        rwa [Piece.text_cons, ← append_assoc, ← append_assoc]

/-- Only the last token of a covered source is the end of the file, and only it is empty. -/
theorem Covers.ends {src : Bytes} (covers : Covers before src ts) :
    ∃ front last, ts = front ++ [last] ∧ last.kind = .endOfFile ∧ last.lexeme = [] ∧
      ∀ t ∈ front, t.kind ≠ .endOfFile ∧
      t.lexeme ≠ [] ∧ (t.kind ≠ .illegal → t.toLexeme.Valid) := by
  induction covers with
  | @done _ _ t _ kind lexeme _ => exact ⟨[], t, rfl, kind, lexeme, by simp⟩
  | @token _ _ _ t _ _ given notEnd legal _ _ _ ih =>
    obtain ⟨front, last, rfl, kind, lexeme, others⟩ := ih
    refine ⟨t :: front, last, rfl, kind, lexeme, ?_⟩
    exact forall_mem_cons.mpr ⟨⟨notEnd, given, legal⟩, others⟩

/-- Scanning is lossless and positions are exact: every source is the text of gaps and lexemes in
turn, the lexemes are those of its tokens, and each token is placed where its lexeme starts. -/
theorem Token.scan_lossless :
    (∃ front last, Token.scan src = front ++ [last] ∧ last.kind = .endOfFile ∧ last.lexeme = [] ∧
      ∀ t ∈ front, t.kind ≠ .endOfFile ∧ t.lexeme ≠ []) ∧
    ∃ pieces : List Piece, pieces.map Piece.token = Token.scan src ∧ Piece.text pieces = src ∧
      ∀ front p back, pieces = front ++ p :: back →
        IsGap (p.token.lexeme ++ Piece.text back) p.gap ∧
        p.token.line = 1 + (Piece.text front ++ p.gap).count 10 ∧
        p.token.column =
          1 + ((Piece.text front ++ p.gap).reverse.takeWhile fun b => b != 10).length := by
  have covers := Token.scan_covers src
  constructor
  · obtain ⟨front, last, tokens, kind, lexeme, others⟩ := covers.ends
    exact ⟨front, last, tokens, kind, lexeme,
      fun t member => ⟨(others t member).1, (others t member).2.1⟩⟩
  · obtain ⟨pieces, tokens, text, places⟩ := covers.pieces
    refine ⟨pieces, tokens, text, fun front p back same => ?_⟩
    obtain ⟨isGap, ⟨line, column⟩, -⟩ := places front p back same
    exact ⟨isGap, line, column⟩

end TaskNet
