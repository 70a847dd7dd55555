import TaskNet.Proofs.Tree.Shape

/-!
Which texts are printed trees. A text is read if it has a line and its lines, those of white space
left out, are indented labels whose depths follow each other. The shape that is read has these lines
as its rows, and it is the only one. The shape can be built line by line, each under the node that
is open at the level above, and then that node is always there.
-/

namespace TaskNet.Shape

open List

variable {s : Shape} {d : Nat} {text : String}

/-- Puts a node of a kind after the last children, under the node that is open at a level; there may
be no such node. -/
def graft (k : Kind) : Nat → Shape → Option Shape
  | 0, mk l cs => some (mk l (cs ++ [mk k []]))
  | d + 1, mk l cs => do
    let last ← cs.getLast?
    let grown ← graft k d last
    return mk l (cs.dropLast ++ [grown])

/-- Reads lines one by one, with the shape so far and the number of its levels that are open.
Without an answer where a line is to be put under a node that is not open. -/
def readOpen : Option Shape →
    Nat → List (Nat × List Char) → Option (Except ShapeError (Option Shape))
  | root, _, [] => some (.ok root)
  | root, levels, (number, line) :: rest =>
    if Text.isBlankLine line then readOpen root levels rest
    else
      match readLine number line with
      | .error e => some (.error e)
      | .ok ⟨0, k⟩ =>
        if root.isSome then some (.error (.secondRoot number)) else readOpen (some (mk k [])) 1 rest
      | .ok ⟨d + 1, k⟩ =>
        if levels < d + 1 then some (.error (.skippedLevel number))
        else (root.bind (graft k d)).bind fun grown => readOpen (some grown) (d + 2) rest

/-- A level of a shape is open: the last children lead down to it. -/
def Open : Nat → Shape → Prop
  | 0, _ => True
  | d + 1, mk _ cs => ∃ last, cs.getLast? = some last ∧ Open d last

/-- Under an open level there is room for one more row, and then all levels down to it are open. -/
theorem graft_open (opened : Open d s) (k : Kind) :
    ∃ grown, graft k d s = some grown ∧ (∀ n, grown.rows n = s.rows n ++ [⟨n + (d + 1), k⟩]) ∧
      ∀ e ≤ d + 1, Open e grown := by
  induction d generalizing s with
  | zero =>
    obtain ⟨l, cs⟩ := s
    refine ⟨_, rfl, fun n => by simp [rows_mk], fun e small => ?_⟩
    obtain rfl | rfl : e = 0 ∨ e = 1 := by omega
    · trivial
    · exact ⟨mk k [], by simp, trivial⟩
  | succ d ih =>
    obtain ⟨l, cs⟩ := s
    obtain ⟨last, found, below⟩ := opened
    obtain ⟨grown, grafted, rows, levels⟩ := ih below
    obtain ⟨front, rfl⟩ := getLast?_eq_some_iff.mp found
    refine ⟨mk l (front ++ [grown]), by simp [graft, grafted], fun n => ?_, fun e small => ?_⟩
    · simp [rows_mk, rows, Nat.add_assoc, Nat.add_comm 1]
    · cases e with
      | zero => trivial
      | succ e => exact ⟨grown, by simp, levels e (Nat.le_of_succ_le_succ small)⟩

/-- Building a shape line by line, after some rows, gives the answer of reading all entries first.
-/
def Agrees (before : List Entry) (answer : Except ShapeError (Option Shape)) :
    Except ShapeError (List Entry) → Prop
  | .error e => answer = .error e
  | .ok es => ∃ root : Option Shape, answer = .ok root ∧ (root.map (rows 0)).getD [] = before ++ es

theorem Agrees.cons (before : List Entry) {answer : Except ShapeError (Option Shape)} {e : Entry}
    {entries : Except ShapeError (List Entry)} (agrees : Agrees (before ++ [e]) answer entries) :
    Agrees before answer (entries.map (e :: ·)) := by
  cases entries <;> simpa [Agrees, Except.map] using agrees

theorem readOpen_below (opened : ∀ e ≤ d, Open e s) (numbered : List (Nat × List Char)) :
    ∃ answer, readOpen (some s) (d + 1) numbered = some answer ∧
      Agrees (s.rows 0) answer (readLines (some d) numbered) := by
  induction numbered generalizing s d with
  | nil => exact ⟨_, rfl, some s, rfl, by simp⟩
  | cons line numbered ih =>
    obtain ⟨number, line⟩ := line
    rw [readOpen, readLines]
    split
    · exact ih opened
    · cases readLine number line with
      | error e => exact ⟨_, rfl, rfl⟩
      | ok entry =>
        obtain ⟨_ | e, k⟩ := entry
        · exact ⟨_, rfl, rfl⟩
        · by_cases far : d < e
          · exact ⟨.error (.skippedLevel number), by simp [far], by simp [far, Agrees]⟩
          · obtain ⟨grown, grafted, rows, levels⟩ := graft_open (opened e (by omega)) k
            obtain ⟨answer, ran, agrees⟩ := ih levels
            rw [rows, Nat.zero_add] at agrees
            exact ⟨answer, by simp [far, grafted, ran], by simpa [far] using agrees.cons (s.rows 0)⟩

theorem readOpen_agrees (numbered : List (Nat × List Char)) :
    ∃ answer, readOpen none 0 numbered = some answer ∧
      Agrees [] answer (readLines none numbered) := by
  induction numbered with
  | nil => exact ⟨_, rfl, none, rfl, rfl⟩
  | cons line numbered ih =>
    obtain ⟨number, line⟩ := line
    rw [readOpen, readLines]
    split
    · exact ih
    · cases readLine number line with
      | error e => exact ⟨_, rfl, rfl⟩
      | ok entry =>
        obtain ⟨_ | e, k⟩ := entry
        · have opened : ∀ e ≤ 0, Open e (mk k []) := fun e none => by
            rw [Nat.le_zero.mp none]
            trivial
          obtain ⟨answer, ran, agrees⟩ := readOpen_below opened numbered
          exact ⟨answer, ran, agrees.cons []⟩
        · exact ⟨_, rfl, rfl⟩

def numberedLines (text : String) : List (Nat × List Char) :=
  (((splitLines text.toList).map dropReturn).zipIdx 1).map fun (line, n) => (n, line)

/-- A text is refused for one of its lines, or it has no line, or it is read with the rows of its
lines. -/
theorem read_cases
    (short : ∀ line ∈ splitLines text.toList, byteSize line < maxLineSize) :
    ∃ answer, readOpen none 0 (numberedLines text) = some answer ∧
      read text = answer.bind (fun root => root.elim (.error .noLines) .ok) ∧
      Agrees [] answer (readLines none (numberedLines text)) := by
  obtain ⟨answer, ran, agrees⟩ := readOpen_agrees (numberedLines text)
  refine ⟨answer, ran, ?_, agrees⟩
  rw [read, boundedLines_short short]
  dsimp only
  rw [← numberedLines]
  cases entries : readLines none (numberedLines text) with
  | error e =>
    rw [entries] at agrees
    rw [show answer = .error e from agrees]
    rfl
  | ok es =>
    rw [entries] at agrees
    obtain ⟨root, rfl, rows⟩ := agrees
    cases root with
    | none =>
      obtain rfl : [] = es := rows
      simp only [siblings]
      rfl
    | some s =>
      obtain rfl : s.rows 0 = es := rows
      have whole := s.siblings_rows 0 [] fun e none => by cases none
      rw [append_nil] at whole
      simp only [whole]
      rfl

/-- Reading accepts exactly the well-indented texts. With lines that are short enough, the node that
a line is put under is always open, and building the shape line by line gives the answer. A text is
read if it has lines, all of them are indented labels and their depths follow each other; it is read
as the one shape that has these lines as its rows. -/
theorem read_exact
    (short : ∀ line ∈ splitLines text.toList, byteSize line < 64 * 1024) :
    let lines := visible ((splitLines text.toList).map dropReturn)
    (∃ answer, readOpen none 0 (numberedLines text) = some answer ∧
      read text = answer.bind fun root => root.elim (.error .noLines) .ok) ∧
    ((∃ s, read text = .ok s) ↔ lines ≠ [] ∧
      ∃ es, List.Forall₂ (fun line e => Heads e line) lines es ∧ Follows none es) ∧
    ∀ s, read text = .ok s ↔ List.Forall₂ (fun line e => Heads e line) lines (s.rows 0) := by
  intro lines
  obtain ⟨answer, ran, result, agrees⟩ := read_cases short
  have entries : ∀ es, readLines none (numberedLines text) = .ok es ↔
      List.Forall₂ (fun line e => Heads e line) lines es ∧ Follows none es := fun es => by
    rw [readLines_iff, numberedLines, numbered_lines]
  have accepts : ∀ s, read text = .ok s ↔ List.Forall₂ (fun line e => Heads e line) lines
    (s.rows 0) := by
    refine fun s => ⟨fun accepted => ?_, read_of_heads short⟩
    rw [result] at accepted
    obtain rfl : answer = .ok (some s) := by
      rcases answer with e | _ | u <;> cases accepted
      rfl
    cases found : readLines none (numberedLines text) with
    | error e =>
      rw [found] at agrees
      cases agrees
    | ok es =>
      rw [found] at agrees
      obtain ⟨root, same, rows⟩ := agrees
      cases same
      exact (show s.rows 0 = es from rows) ▸ ((entries es).mp found).1
  refine ⟨⟨answer, ran, result⟩, ⟨?_, ?_⟩, accepts⟩
  · rintro ⟨s, accepted⟩
    have heads := (accepts s).mp accepted
    refine ⟨fun none => ?_, s.rows 0, heads, s.follows_whole⟩
    obtain ⟨k, cs⟩ := s
    rw [none, rows_mk] at heads
    cases heads
  · rintro ⟨given, es, heads, follows⟩
    rw [(entries es).mpr ⟨heads, follows⟩] at agrees
    obtain ⟨root, rfl, rows⟩ := agrees
    cases root with
    | none =>
      obtain rfl : [] = es := rows
      exact absurd (forall₂_nil_right_iff.mp heads) given
    | some s => exact ⟨s, result⟩

/-- White space between the lines and texts behind labels; after a deep line the next may be one
level below the root. -/
theorem read_exact_levels :
    let text := "task go\n  case\n    or \r\n\n \t\n  param x\n"
    (∀ line ∈ splitLines text.toList, byteSize line < 64 * 1024) ∧
      read text = .ok (mk .task [mk .branch [mk (.op .or) []], mk .param []]) := by
  intro text
  have short : ∀ line ∈ splitLines text.toList, byteSize line < 64 * 1024 := by decide
  have lines : visible ((splitLines text.toList).map dropReturn) =
      ["task go".toList, "  case".toList, "    or ".toList, "  param x".toList] := by decide
  refine ⟨short, ((read_exact short).2.2 _).mpr (lines ▸ ?_)⟩
  exact .cons ⟨" go".toList, by decide, .inr rfl⟩ (.cons ⟨[], by decide, .inl rfl⟩
    (.cons ⟨[' '], by decide, .inr rfl⟩ (.cons ⟨" x".toList, by decide, .inr rfl⟩ .nil)))

end TaskNet.Shape
