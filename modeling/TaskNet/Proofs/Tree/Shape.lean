import Mathlib.Data.List.Forall2
import Mathlib.Data.List.TakeWhile
import TaskNet.Proofs.Tree.Structure
import TaskNet.Tree.Printer
import TaskNet.Tree.Shape

/-!
Reading a printed tree back. A line of a printed tree is an indentation, the label of a kind and,
after a space, whatever else is known of the node, so the reader finds the depth and the kind of
every node in pre-order. These determine the shape: the entries below a node are the ones that
follow it up to the next entry which is not deeper.
-/

namespace TaskNet

open List

variable {previous : Option Nat}

/-- A text that stays on its line. -/
def OneLine (cs : List Char) : Prop :=
  '\n' ∉ cs

instance (cs : List Char) : Decidable (OneLine cs) :=
  inferInstanceAs (Decidable ('\n' ∉ cs))

namespace OneLine

variable {cs ds : List Char}

theorem append (first : OneLine cs) (second : OneLine ds) : OneLine (cs ++ ds) := by
  unfold OneLine at *
  simp [first, second]

theorem of_digits (digits : ∀ c ∈ cs, c.isDigit = true) : OneLine cs := by
  intro feed
  have digit := digits _ feed
  revert digit
  decide

theorem replicate (n : Nat) {c : Char} (other : c ≠ '\n') : OneLine (replicate n c) := by
  intro feed
  exact other (eq_of_mem_replicate feed).symm

theorem intercalate {sep : List Char} {ls : List (List Char)} (between : OneLine sep)
    (each : ∀ l ∈ ls, OneLine l) : OneLine (sep.intercalate ls) := by
  induction ls with
  | nil => simp [OneLine, List.intercalate]
  | cons l ls ih =>
    have later := ih (forall_mem_cons.mp each).2
    have here := each l (by simp)
    cases ls with
    | nil => simpa [List.intercalate] using here
    | cons m ls =>
      rw [intercalate_cons_cons]
      exact (here.append between).append later

theorem ofNat (n : Nat) : OneLine (toString n).toList := by
  show OneLine n.repr.toList
  rw [Nat.toList_repr]
  exact of_digits fun c => Nat.isDigit_of_mem_toDigits (by decide) (by decide)

theorem ofInt (v : Int) : OneLine (toString v).toList := by
  cases v with
  | ofNat n => exact ofNat n
  | negSucc n =>
    show OneLine ("-" ++ n.succ.repr).toList
    rw [String.toList_append]
    exact append (by decide) (ofNat n.succ)

end OneLine

namespace Number

theorem exponentText_oneLine (x : Int) : OneLine (exponentText x).toList := by
  unfold exponentText
  dsimp only
  rw [String.toList_append]
  apply OneLine.append
  · split <;> decide
  · split
    · rw [String.toList_append]
      exact .append (by decide) (.ofNat _)
    · exact .ofNat _

theorem decimalText_oneLine (style : DecimalStyle) (d : Nat) (p : Int) :
    OneLine (decimalText style d p).toList := by
  have digits : ∀ c ∈ Nat.toDigits 10 d, c.isDigit = true :=
    fun c => Nat.isDigit_of_mem_toDigits (by decide) (by decide)
  have taken : ∀ n, OneLine ((Nat.toDigits 10 d).take n) := fun n =>
    .of_digits fun c member => digits c (mem_of_mem_take member)
  have dropped : ∀ n, OneLine ('.' :: (Nat.toDigits 10 d).drop n) := fun n =>
    .append (show OneLine ['.'] by decide)
      (.of_digits fun c member => digits c (mem_of_mem_drop member))
  unfold decimalText
  dsimp only
  split
  · rw [String.toList_append, String.toList_ofList]
    apply OneLine.append _ (exponentText_oneLine _)
    apply OneLine.append (taken 1)
    split
    · simp [OneLine]
    · exact dropped 1
  · split
    · rw [String.toList_append, String.toList_ofList (l := _ ++ _)]
      exact .append (by decide) (.append (.replicate _ (by decide)) (.of_digits digits))
    · split <;> rw [String.toList_ofList]
      · exact .append (.of_digits digits) (.replicate _ (by decide))
      · exact .append (taken _) (dropped _)

theorem Binary64.text_oneLine (x : Binary64) : OneLine x.text.toList := by
  unfold Binary64.text
  dsimp only
  have sign : OneLine (if x.isNegative then "-" else "").toList := by
    split <;> decide
  split
  · split
    · decide
    · split <;> decide
  · split <;> rw [String.toList_append]
    · exact sign.append (by decide)
    · exact sign.append (decimalText_oneLine _ _ _)

end Number

theorem Literal.text_oneLine (l : Literal) : OneLine l.text.toList := by
  cases l with
  | int v => exact .ofInt v
  | float v => exact v.text_oneLine

theorem Problem.code_oneLine (p : Problem) : OneLine p.code.toList := by
  cases p with
  | foreign c =>
    show OneLine ("kind(" ++ toString c.toNat ++ ")").toList
    rw [String.toList_append, String.toList_append]
    exact (OneLine.append (by decide) (.ofNat _)).append (by decide)
  | _ => decide

theorem TypeTag.name_oneLine (t : TypeTag) : OneLine t.name.toList := by
  cases t with
  | foreign c =>
    show OneLine ("tag(" ++ toString c.toNat ++ ")").toList
    rw [String.toList_append, String.toList_append]
    exact (OneLine.append (by decide) (.ofNat _)).append (by decide)
  | _ => decide

/-- A name is the only text of a node that can break its line. -/
theorem Content.labelParts_oneLine {c : Content} (named : OneLine c.name.toList) :
    ∀ part ∈ c.labelParts, OneLine part.toList := by
  have ofName : ∀ name : String, OneLine name.toList →
      ∀ part ∈ (if name == "" then [] else [name] : List String), OneLine part.toList := by
    intro name oneLine part member
    split at member
    · cases member
    · rwa [mem_singleton.mp member]
  cases c with
  | var v =>
    intro part member
    rcases mem_append.mp member with name | flag
    · exact ofName _ named part name
    · split at flag
      · rw [mem_singleton.mp flag]
        decide
      · cases flag
  | literal l =>
    intro part member
    rw [mem_singleton.mp member]
    exact l.text_oneLine
  | error was p =>
    intro part member
    rw [mem_singleton.mp member]
    exact p.code_oneLine
  | _ => exact ofName _ named

namespace Kind

theorem mem_enumeration (k : Kind) : k ∈ enumeration := by
  cases k with
  | op o => cases o <;> decide
  | _ => decide

/-- The label of a kind is a word that starts with no blank and names the kind. -/
structure Names (k : Kind) : Prop where
  kind : ofLabel? k.label = some k
  first : ∃ c cs, k.label.toList = c :: cs ∧ Text.isBlank c = false
  spaces : ' ' ∉ k.label.toList
  line : '\n' ∉ k.label.toList
  returns : '\r' ∉ k.label.toList

theorem names (k : Kind) : k.Names := by
  have kinds : ∀ k ∈ enumeration, ofLabel? k.label = some k := by decide
  have firsts : ∀ k ∈ enumeration, (k.label.toList.head?.any fun c => !Text.isBlank c) = true := by
    decide
  have words : ∀ k ∈ enumeration, ' ' ∉ k.label.toList ∧ '\n' ∉ k.label.toList ∧
    '\r' ∉ k.label.toList := by
    decide
  have member := mem_enumeration k
  obtain ⟨spaces, line, returns⟩ := words k member
  have first := firsts k member
  cases label : k.label.toList with
  | nil =>
    rw [label] at first
    cases first
  | cons c cs =>
    rw [label] at first
    exact ⟨kinds k member, ⟨c, cs, label, by simpa using first⟩, spaces, line, returns⟩

end Kind

namespace Shape

variable {e : Entry} {line : List Char} {numbered : List (Nat × List Char)} {es : List Entry}
  {lines : List (List Char)}

/-- A line starts with the indentation of a depth and the label of a kind, and goes on after a space
if at all. -/
def Heads (e : Entry) (line : List Char) : Prop :=
  ∃ rest, line = replicate (2 * e.depth) ' ' ++ (e.kind.label.toList ++ rest) ∧
    (rest = [] ∨ rest.head? = some ' ')

/-- A carriage return that is dropped is none of the label. -/
theorem Heads.dropReturn (heads : Heads e line) : Heads e (dropReturn line) := by
  unfold Shape.dropReturn
  split
  · next ends =>
    obtain ⟨rest, rfl, goes⟩ := heads
    have last := beq_iff_eq.mp ends
    rcases goes with rfl | space
    · obtain ⟨c, cs, label, _⟩ := e.kind.names.first
      have none := e.kind.names.returns
      rw [append_nil, getLast?_append, label, getLast?_cons, Option.some_or] at last
      rw [label] at none
      have inside : '\r' ∈ c :: cs := by
        have member := mem_of_getLast? (l := c :: cs) (a := '\r') (by rwa [getLast?_cons])
        exact member
      exact absurd inside none
    · obtain ⟨more, rfl⟩ : ∃ more, rest = ' ' :: more := by
        cases rest with
        | nil => cases space
        | cons c more => exact ⟨more, by rw [Option.some.inj space]⟩
      cases more with
      | nil => simp at last
      | cons d more =>
        refine ⟨(' ' :: d :: more).dropLast, ?_, .inr rfl⟩
        rw [dropLast_append_of_ne_nil (by simp), dropLast_append_of_ne_nil (by simp)]
  · exact heads

theorem Heads.notBlank (heads : Heads e line) : Text.isBlankLine line = false := by
  obtain ⟨rest, rfl, _⟩ := heads
  obtain ⟨c, cs, label, visible⟩ := e.kind.names.first
  simp [Text.isBlankLine, label, visible]

/-- The reader finds the depth and the kind of a line. -/
theorem Heads.readLine (heads : Heads e line) (number : Nat) : readLine number line = .ok e := by
  obtain ⟨rest, rfl, goes⟩ := heads
  obtain ⟨c, cs, label, visible⟩ := e.kind.names.first
  have notSpace : c ≠ ' ' := by
    rintro rfl
    cases visible
  have indent : (replicate (2 * e.depth) ' ' ++ (e.kind.label.toList ++ rest)).takeWhile
    (· == ' ') =
      replicate (2 * e.depth) ' ' := by
    rw [takeWhile_append_of_pos (by simp), label]
    simp [notSpace]
  have word : (e.kind.label.toList ++ rest).takeWhile (· != ' ') = e.kind.label.toList := by
    have spaces := e.kind.names.spaces
    rw [takeWhile_append_of_pos fun d member => by
      simp only [bne_iff_ne]
      rintro rfl
      exact spaces member]
    rcases goes with rfl | space
    · simp
    · cases rest with
      | nil => cases space
      | cons d more => simp [Option.some.inj space]
  unfold Shape.readLine
  dsimp only
  rw [indent, length_replicate, drop_left' (length_replicate ..), word,
    String.ofList_toList, e.kind.names.kind]
  simp

/-- A line is read as an entry if it starts with it. -/
theorem readLine_iff (number : Nat) : readLine number line = .ok e ↔ Heads e line := by
  refine ⟨fun found => ?_, fun heads => heads.readLine number⟩
  unfold Shape.readLine at found
  dsimp only at found
  split at found
  · cases found
  · next even =>
    split at found
    · cases found
    · next k known =>
      cases found
      have label := eq_of_beq (find?_some (p := fun k => Kind.label k == _) known)
      have spaces := eq_replicate_iff.mpr ⟨rfl, fun c inside =>
        beq_iff_eq.mp (mem_takeWhile_imp (p := (· == ' ')) (l := line) inside)⟩
      have split := prefix_iff_eq_append.mp ( takeWhile_prefix (l := line) (· == ' '))
      refine ⟨(line.drop (line.takeWhile (· == ' ')).length).dropWhile (· != ' '), ?_, ?_⟩
      · have whole : 2 * ((line.takeWhile (· == ' ')).length / 2) =
            (line.takeWhile (· == ' ')).length := by
          simp only [bne_iff_ne, ne_eq, not_not] at even
          omega
        dsimp only
        rw [label, String.toList_ofList, takeWhile_append_dropWhile, whole, ← spaces, split]
      · generalize line.drop _ = after
        have stop := head?_dropWhile_not (· != ' ') after
        cases rest : after.dropWhile (· != ' ') with
        | nil => exact .inl rfl
        | cons c cs =>
          rw [rest] at stop
          exact .inr (congrArg some (by simpa using stop))

/-- The depth of an entry fits after one of a given depth: it is not zero and at most one more. The
first entry of all has depth zero. -/
def Fits : Option Nat → Entry → Prop
  | none, e => e.depth = 0
  | some previous, e => e.depth ≠ 0 ∧ e.depth ≤ previous + 1

/-- The depth of each entry fits after the entry before. -/
def Follows : Option Nat → List Entry → Prop
  | _, [] => True
  | previous, e :: es => Fits previous e ∧ Follows (some e.depth) es

/-- The lines that are not white space. -/
def visible (lines : List (List Char)) : List (List Char) :=
  lines.filter fun line => !Text.isBlankLine line

theorem visible_of_heads (heads : Forall₂ (fun line e => Heads e line) lines es) :
    visible lines = lines := by
  induction heads with
  | nil => rfl
  | cons here _ ih => rw [visible, filter_cons, here.notBlank, ← visible, ih, Bool.not_false,
    if_pos rfl]

theorem readLines_cons {number : Nat} (seen : Text.isBlankLine line = false) :
    readLines previous ((number, line) :: numbered) = .ok es ↔ ∃ e rest, readLine number line =
      .ok e ∧ Fits previous e ∧ readLines (some e.depth) numbered = .ok rest ∧ es = e :: rest := by
  have later : ∀ d e, (readLines d numbered).map (e :: ·) = .ok es ↔
      ∃ rest, readLines d numbered = .ok rest ∧ es = e :: rest := by
    intro d e
    cases readLines d numbered <;> simp [Except.map, eq_comm]
  rw [readLines, seen]
  cases readLine number line with
  | error e => simp
  | ok e =>
    cases previous with
    | none =>
      by_cases first : e.depth = 0
      · simp [first, later, Fits]
      · simp [first, Fits]
    | some previous =>
      by_cases first : e.depth = 0
      · simp [first, Fits]
      · by_cases far : previous + 1 < e.depth
        · simp [first, far, Fits, Nat.not_le.mpr far]
        · simp [first, far, later, Fits, Nat.not_lt.mp far]

/-- Lines are read if each that is not white space starts with an entry, and the depths follow each
other. -/
theorem readLines_iff : readLines previous numbered = .ok es ↔
    Forall₂ (fun line e => Heads e line) (visible (numbered.map Prod.snd)) es ∧
      Follows previous es := by
  induction numbered generalizing previous es with
  | nil =>
    cases es with
    | nil => simp [readLines, visible, Follows]
    | cons e es => simp [readLines, visible]
  | cons line numbered ih =>
    obtain ⟨number, line⟩ := line
    rw [map_cons, visible, filter_cons, ← visible]
    cases blank : Text.isBlankLine line with
    | true => simp [readLines, blank, ih]
    | false =>
      rw [readLines_cons blank, Bool.not_false, if_pos rfl, forall₂_cons_left_iff]
      simp only [readLine_iff, ih]
      constructor
      · rintro ⟨e, rest, heads, fits, ⟨all, follows⟩, rfl⟩
        exact ⟨⟨e, rest, heads, all, rfl⟩, fits, follows⟩
      · rintro ⟨⟨e, rest, heads, all, rfl⟩, fits, follows⟩
        exact ⟨e, rest, heads, fits, ⟨all, follows⟩, rfl⟩
/-- Lines that are put together with line ends are found again. -/
theorem splitLines_joined (oneLine : ∀ l ∈ lines, OneLine l) :
    splitLines (lines.flatMap fun l => l ++ ['\n']) = lines := by
  induction lines with
  | nil => rfl
  | cons l lines ih =>
    have later := ih (forall_mem_cons.mp oneLine).2
    have here := oneLine l (by simp)
    rw [flatMap_cons]
    generalize lines.flatMap _ = rest at later
    clear ih oneLine
    induction l with
    | nil => simp [splitLines, later]
    | cons c l ih =>
      have other : c ≠ '\n' := fun same => here (by simp [same])
      have next := ih fun member => here (by simp [member])
      rw [cons_append, cons_append, splitLines.eq_def]
      simp only [next]
      simp [other]

theorem boundedLines_short (short : ∀ l ∈ lines, byteSize l < maxLineSize) :
    boundedLines lines = (lines, false) := by
  induction lines with
  | nil => rfl
  | cons l lines ih =>
    have here := short l (by simp)
    rw [boundedLines, if_neg (by omega), ih (forall_mem_cons.mp short).2]

theorem byteSize_toList (s : String) : byteSize s.toList = s.utf8ByteSize := by
  have sum : ∀ (cs : List Char) (n : Nat), cs.foldl (fun size c => size + c.utf8Size) n =
      n + (String.ofList cs).utf8ByteSize := by
    intro cs
    induction cs with
    | nil => simp
    | cons c cs ih =>
      intro n
      rw [foldl_cons, ih, String.ofList_cons, String.utf8ByteSize_append,
        String.utf8ByteSize_singleton]
      omega
  rw [byteSize, sum, String.ofList_toList, Nat.zero_add]

mutual

/-- The depth and the kind of every node of a shape in pre-order. -/
def rows (depth : Nat) : Shape → List Entry
  | mk k cs => ⟨depth, k⟩ :: rowsList (depth + 1) cs

def rowsList (depth : Nat) : List Shape → List Entry
  | [] => []
  | s :: ss => rows depth s ++ rowsList depth ss

end

theorem rows_mk (depth : Nat) (k : Kind) (cs : List Shape) :
    rows depth (mk k cs) = ⟨depth, k⟩ :: cs.flatMap (rows (depth + 1)) := by
  have list : ∀ depth ss, rowsList depth ss = ss.flatMap (rows depth) := by
    intro depth ss
    induction ss with
    | nil => rfl
    | cons s ss ih => rw [rowsList, ih, flatMap_cons]
  rw [rows, list]

/-- A property that passes from the children of a node to the node holds of every shape. -/
@[induction_eliminator]
theorem induction {motive : Shape → Prop}
    (mk : ∀ k cs, (∀ c ∈ cs, motive c) → motive (mk k cs)) (s : Shape) : motive s := by
  refine @Shape.rec motive (fun cs => ∀ c ∈ cs, motive c) mk (by simp) ?_ s
  intro head tail here later
  exact forall_mem_cons.mpr ⟨here, later⟩

section Siblings

variable {depth : Nat} {s : Shape} {ss : List Shape} {rest : List Entry}

/-- The entries of a list of shapes and what comes after them follow an entry that is at most one
level higher. -/
theorem follows_flatMap
    (each : ∀ s ∈ ss, ∀ previous rest, depth ≤ previous + 1 →
    (∀ q, depth ≤ q → Follows (some q) rest) →
      Follows (some previous) (s.rows depth ++ rest))
    (after : ∀ q, depth ≤ q + 1 → Follows (some q) rest) {previous : Nat}
    (near : depth ≤ previous + 1) : Follows (some previous) (ss.flatMap (rows depth) ++ rest) := by
  induction ss generalizing previous with
  | nil => exact after previous near
  | cons s ss ih =>
    rw [flatMap_cons, append_assoc]
    apply each s (by simp) previous _ near
    intro q deep
    exact ih (forall_mem_cons.mp each).2 (by omega)

theorem follows_rows (s : Shape) {depth : Nat} (positive : 0 < depth) : ∀ previous rest,
    depth ≤ previous + 1 → (∀ q, depth ≤ q → Follows (some q) rest) →
      Follows (some previous) (s.rows depth ++ rest) := by
  induction s generalizing depth with
  | mk k cs ih =>
    intro previous rest near after
    rw [rows_mk, cons_append]
    exact ⟨⟨Nat.ne_of_gt positive, near⟩,
      follows_flatMap (fun c member => ih c member (Nat.succ_pos depth))
      (fun q deep => after q (by omega)) (Nat.le_refl _)⟩

theorem follows_whole (s : Shape) : Follows none (s.rows 0) := by
  cases s with
  | mk k cs =>
    rw [rows_mk, ← append_nil (cs.flatMap _)]
    exact ⟨rfl, follows_flatMap (fun c _ => c.follows_rows Nat.one_pos)
      (fun q _ => show Follows (some q) [] from trivial) (Nat.le_refl _)⟩

/-- Below a node there are only deeper entries. -/
theorem depth_le_of_mem {e : Entry} (member : e ∈ s.rows depth) : depth ≤ e.depth := by
  induction s generalizing depth with
  | mk k cs ih =>
    rw [rows_mk] at member
    rcases mem_cons.mp member with rfl | below
    · exact Nat.le_refl _
    · obtain ⟨c, child, inside⟩ := mem_flatMap.mp below
      exact Nat.le_of_succ_le (ih c child inside)

/-- The entries of a node end where one comes that is not deeper. -/
def Closes (depth : Nat) (rest : List Entry) : Prop :=
  ∀ e, rest.head? = some e → e.depth < depth

theorem Closes.takeWhile (closes : Closes (depth + 1) rest) {es : List Entry}
    (deeper : ∀ e ∈ es, depth < e.depth) :
    (es ++ rest).takeWhile (fun f => decide (depth < f.depth)) = es ∧
      (es ++ rest).dropWhile (fun f => decide (depth < f.depth)) = rest := by
  have each : ∀ e ∈ es, decide (depth < e.depth) = true := by simpa using deeper
  rw [takeWhile_append_of_pos each, dropWhile_append_of_pos each]
  cases rest with
  | nil => simp
  | cons f rest =>
    have shallow := closes f rfl
    have stops : ¬ depth < f.depth := by omega
    simp [stops]

/-- The entries of shapes are read as the shapes, up to an entry that is not as deep. -/
theorem siblings_flatMap
    (each : ∀ s ∈ ss, ∀ depth rest, Closes (depth + 1) rest →
    siblings depth (s.rows depth ++ rest) =
      (s :: (siblings depth rest).1, (siblings depth rest).2)) (closes : Closes depth rest) :
    siblings depth (ss.flatMap (rows depth) ++ rest) = (ss, rest) := by
  induction ss with
  | nil =>
    rw [flatMap_nil, nil_append]
    cases rest with
    | nil => rw [siblings]
    | cons e rest => rw [siblings, if_pos (closes e rfl)]
  | cons s ss ih =>
    have later := ih (forall_mem_cons.mp each).2
    rw [flatMap_cons, append_assoc, each s (by simp), later]
    intro e first
    cases ss with
    | nil => exact Nat.lt_succ_of_lt (closes e first)
    | cons u ss =>
      cases u with
      | mk k cs =>
        rw [flatMap_cons, rows_mk, cons_append, cons_append] at first
        cases first
        exact Nat.lt_succ_self depth

theorem siblings_rows (s : Shape) : ∀ depth rest, Closes (depth + 1) rest →
    siblings depth (s.rows depth ++ rest) = (s :: (siblings depth rest).1,
    (siblings depth rest).2) := by
  induction s with
  | mk k cs ih =>
    intro depth rest closes
    have deeper : ∀ e ∈ cs.flatMap (rows (depth + 1)), depth < e.depth := by
      intro e member
      obtain ⟨c, _, inside⟩ := mem_flatMap.mp member
      exact depth_le_of_mem inside
    have inner : siblings (depth + 1) (cs.flatMap (rows (depth + 1))) = (cs, []) := by
      rw [← append_nil (cs.flatMap _), siblings_flatMap ih]
      intro e none
      cases none
    obtain ⟨taken, dropped⟩ := closes.takeWhile deeper
    rw [rows_mk, cons_append, siblings, if_neg (Nat.lt_irrefl depth)]
    dsimp only
    rw [taken, dropped, inner]

end Siblings

theorem numbered_lines (lines : List (List Char)) (k : Nat) :
    ((lines.zipIdx k).map fun (line, n) => (n, line)).map Prod.snd = lines := by
  rw [map_map]
  exact zipIdx_map_fst k lines

/-- A text is read as a shape if its lines start with the entries of the shape. -/
theorem read_of_heads {text : String} {s : Shape}
    (short : ∀ line ∈ splitLines text.toList, byteSize line < maxLineSize)
    (heads : Forall₂ (fun line e => Heads e line)
      (visible ((splitLines text.toList).map dropReturn)) (s.rows 0)) : read text = .ok s := by
  have entries : readLines none ((((splitLines text.toList).map dropReturn).zipIdx 1).map
      fun (line, n) => (n, line)) = .ok (s.rows 0) := by
    rw [readLines_iff, numbered_lines]
    exact ⟨heads, s.follows_whole⟩
  have whole := s.siblings_rows 0 [] fun e none => by cases none
  rw [append_nil] at whole
  rw [read, boundedLines_short short]
  dsimp only
  rw [entries]
  dsimp only
  rw [whole]
  rfl

end Shape

namespace Tree

open Shape

variable {t : Tree}

theorem linesList_eq (depth : Nat) (ts : List Tree) :
    linesList depth ts = ts.flatMap (lines depth) := by
  induction ts with
  | nil => rfl
  | cons t ts ih => rw [linesList, ih, flatMap_cons]

theorem shapeList_eq (ts : List Tree) : shapeList ts = ts.map shape := by
  induction ts with
  | nil => rfl
  | cons t ts ih => rw [shapeList, ih, map_cons]

theorem heads_line (depth : Nat) (n : Node) :
    Heads ⟨depth, n.kind⟩ (indentation depth ++ n.label).toList := by
  rw [String.toList_append, indentation, String.toList_ofList, Node.label,
    String.toList_intercalate, cons_append, map_cons]
  generalize (n.content.labelParts ++ _).map String.toList = parts
  cases parts with
  | nil => exact ⟨[], by simp [List.intercalate], .inl rfl⟩
  | cons part parts =>
    refine ⟨' ' :: [' '].intercalate (part :: parts), ?_, .inr rfl⟩
    rw [show " ".toList = [' '] from rfl, intercalate_cons_cons]
    simp

/-- The lines of a printed tree start with the entries of its shape. -/
theorem heads_lines (t : Tree) (depth : Nat) :
    Forall₂ (fun line e => Heads e line.toList) (t.lines depth) (t.shape.rows depth) := by
  induction t generalizing depth with
  | mk n cs ih =>
    rw [lines, shape, rows_mk]
    refine .cons (heads_line depth n) ?_
    split
    · exact .nil
    · rw [linesList_eq, shapeList_eq, flatMap_map]
      induction cs with
      | nil => exact .nil
      | cons c cs later =>
        rw [flatMap_cons, flatMap_cons]
        exact rel_append (ih c (by simp) _) (later (forall_mem_cons.mp ih).2)

def NamedOnOneLine (t : Tree) : Prop :=
  OneLine t.name.toList

theorem label_oneLine {n : Node} (named : OneLine n.content.name.toList) :
    OneLine n.label.toList := by
  have tag : OneLine ("<" ++ n.type.name ++ ">").toList := by
    rw [String.toList_append, String.toList_append]
    exact (OneLine.append (by decide) n.type.name_oneLine).append (by decide)
  rw [Node.label, String.toList_intercalate]
  apply OneLine.intercalate (by decide)
  intro l member
  obtain ⟨part, inside, rfl⟩ := mem_map.mp member
  rw [cons_append] at inside
  rcases mem_cons.mp inside with rfl | later
  · exact n.kind.names.line
  · rcases mem_append.mp later with carried | typed
    · exact Content.labelParts_oneLine named part carried
    · split at typed
      · rw [mem_singleton.mp typed]
        exact tag
      · cases typed

theorem lines_oneLine (named : t.Throughout NamedOnOneLine) (depth : Nat) :
    ∀ line ∈ t.lines depth, OneLine line.toList := by
  induction t generalizing depth with
  | mk n cs ih =>
    obtain ⟨here, below⟩ := throughout_mk.mp named
    intro line member
    rw [lines] at member
    rcases mem_cons.mp member with rfl | inside
    · rw [String.toList_append, indentation, String.toList_ofList]
      exact .append (.replicate _ (by decide)) (label_oneLine here)
    · split at inside
      · cases inside
      · next sound =>
        rw [linesList_eq] at inside
        obtain ⟨c, child, inside⟩ := mem_flatMap.mp inside
        exact ih c child (below (by simpa using sound) c child) _ line inside

end Tree

namespace Shape

/-- Every shape equals itself. -/
theorem beq_self (s : Shape) : s.beq s = true := by
  refine @Shape.rec (fun s => s.beq s = true) (fun ss => beqList ss ss = true) ?_ rfl ?_ s
  · intro k cs below
    rw [beq, below, beq_self_eq_true, Bool.and_self]
  · intro head tail here later
    rw [beqList, here, later, Bool.and_self]

/-- A printed tree is read back as its shape, if no name breaks its line and no line is too long for
the reader. -/
theorem read_print {t : Tree} (named : ∀ u ∈ t.visited, '\n' ∉ u.name.toList)
    (short : ∀ line ∈ t.lines 0, line.utf8ByteSize < 64 * 1024) :
    ∃ s, read t.print = .ok s ∧ s = t.shape ∧ s.beq t.shape = true := by
  refine ⟨t.shape, ?_, rfl, t.shape.beq_self⟩
  have split : splitLines t.print.toList = (t.lines 0).map String.toList := by
    have joined := splitLines_joined (forall_mem_map.mpr (Tree.lines_oneLine named 0))
    rw [flatMap_map] at joined
    rw [Tree.print, String.toList_join, flatMap_map, ← joined]
    simp
  have heads : Forall₂ (fun line e => Heads e line) (((t.lines 0).map String.toList).map dropReturn)
      (t.shape.rows 0) := by
    rw [map_map, forall₂_map_left_iff]
    exact (t.heads_lines 0).imp fun _ _ => Heads.dropReturn
  apply read_of_heads <;> rw [split]
  · intro l member
    obtain ⟨line, inside, rfl⟩ := mem_map.mp member
    rw [byteSize_toList]
    exact short line inside
  · rwa [visible_of_heads heads]

/-- A name with blanks and a carriage return, a fraction, and an error that keeps what is below it.
-/
theorem read_print_error_below_task :
    let t : Tree := .mk ⟨0, .any, .nowhere, .task "go home"⟩
      [.mk ⟨1, .vec3, .nowhere, .param "x \r"⟩ [],
       .mk ⟨2, .any, .nowhere, .branch .unset⟩
        [.mk ⟨3, .notAType, .nowhere, .error .var .alreadyBound⟩
          [.mk ⟨4, .any, .nowhere, .var ⟨"a\nb", "a", none, true⟩⟩ []],
         .mk ⟨5, .float, .nowhere, .literal (.float ⟨0x3FE0000000000000⟩)⟩ []]]
    (∀ u ∈ t.visited, '\n' ∉ u.name.toList) ∧ (∀ line ∈ t.lines 0, line.utf8ByteSize < 64 * 1024) ∧
      ∃ s, read t.print = .ok s ∧ s = t.shape ∧ s.beq t.shape = true := by
  intro t
  have named : ∀ u ∈ t.visited, '\n' ∉ u.name.toList := by decide
  have short : ∀ line ∈ t.lines 0, line.utf8ByteSize < 64 * 1024 := by decide +kernel
  exact ⟨named, short, read_print named short⟩

end Shape

end TaskNet
