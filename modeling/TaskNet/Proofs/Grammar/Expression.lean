import TaskNet.Grammar.Expression
import TaskNet.Proofs.Tree.Form
import TaskNet.Proofs.Tree.Identity

/-!
Reading an expression, one token at a time, keeps what is open well formed and loses no node. What
stands on the stack is made of complete expressions; an argument list that ends the whole expression
can only be at the bottom of the stack, so an expression that started as one also ends as one. The
nodes that are made are no errors, and their variables have the names that are written.
-/

namespace TaskNet

open List

variable {result : Stepped} {done : List Tree}

/-- The content of a node before anything is renamed or found wrong. -/
@[simp] def Content.AsWritten : Content → Prop
  | error _ _ => False
  | var v => v.written = v.name
  | _ => True

theorem Content.AsWritten.sound {c : Content} (written : c.AsWritten) : c.kind ≠ .error := by
  cases c <;> simp_all [kind]

def Node.AsRead (n : Node) : Prop :=
  n.Known ∧ n.content.AsWritten

namespace Grammar

open Tree

variable {o : Operator} {next : NodeId} {left : Tree} {loc : Location} {bottom : Bottom}
  {file : String} {frames : List Frame} {t : Token} {negative : Bool}

/-- Reading tokens takes trees and gives others, with the identities that were drawn in between. -/
abbrev Draws (before : List Tree) (next : NodeId) (after : List Tree) (next' : NodeId) : Prop :=
  MovesWith Node.AsRead True before (.start next) after (.start next')

/-- The trees that an open part of an expression holds. -/
def Frame.held : Frame → List Tree
  | .binary left _ _ => [left]
  | .unary _ _ | .group => []
  | .arguments head done | .list head done => [.mk head done]

def Expected.held : Expected → List Tree
  | .operator left => [left]
  | _ => []

def Pending.held (p : Pending) : List Tree :=
  p.expected.held ++ p.frames.flatMap Frame.held

def Progress.held : Progress → List Tree
  | .reading p => p.held
  | .closed t | .ended t => [t]

/-- The heads that an argument list at the bottom of the stack may have, none when there is no such
list. -/
abbrev Bottom := Option (Node → Prop)

def FramesSound (bottom : Bottom) : List Frame → Prop
  | [] => bottom = none
  | .binary left o _ :: frames => left.IsRaw ∧ o ≠ .not ∧ o ≠ .neg ∧ FramesSound bottom frames
  | .unary o _ :: frames => (o = .not ∨ o = .neg) ∧ FramesSound bottom frames
  | .group :: frames => FramesSound bottom frames
  | .arguments head done :: frames =>
    (∃ name, head.content = .invocation name) ∧ (∀ t ∈ done, t.IsRaw) ∧ FramesSound bottom frames
  | .list head done :: frames =>
    (∃ H, bottom = some H ∧ H head) ∧ (∀ t ∈ done, t.IsRaw) ∧ frames = []

def Expected.Sound : Expected → Prop
  | .operator left => left.IsRaw
  | _ => True

def Pending.Sound (bottom : Bottom) (p : Pending) : Prop :=
  FramesSound bottom p.frames ∧ p.expected.Sound

/-- An argument list with one of the heads it may have. -/
def IsListOf (H : Node → Prop) (t : Tree) : Prop :=
  H t.node ∧ ∀ c ∈ t.children, c.IsRaw

def Progress.Sound (bottom : Bottom) : Progress → Prop
  | .reading p => p.Sound bottom
  | .closed t => ∃ H, bottom = some H ∧ IsListOf H t
  | .ended t => bottom = none ∧ t.IsRaw

/-- Reading a token of a well formed expression moves the trees held before to those held after, and
what there is afterwards is well formed. -/
def Reads (bottom : Bottom) (before : List Tree) (next : NodeId) (sound : Prop) (result : Stepped) :
    Prop :=
  ∀ progress after, result = .ok (progress, after) → sound →
    Draws before next progress.held after ∧ progress.Sound bottom

section Reading

variable {bottom : Bottom} {before : List Tree} {next : NodeId} {sound : Prop}

theorem Reads.ok {progress : Progress} {after : NodeId}
    (moves : sound → Draws before next progress.held after)
    (keeps : sound → progress.Sound bottom) :
    Reads bottom before next sound (.ok (progress, after)) := by
  intro _ _ same holds
  cases same
  exact ⟨moves holds, keeps holds⟩

theorem Reads.refuse {file : String} {t : Token} {cause : SyntaxCause} :
    Reads bottom before next sound (Grammar.refuse file t cause) := by
  intro _ _ same
  cases same

theorem Reads.after {mid : List Tree} {next' : NodeId} {sound' : Prop}
    (moves : Draws before next mid next') (keeps : sound → sound')
    (reads : Reads bottom mid next' sound' result) : Reads bottom before next sound result := by
  intro progress after same holds
  obtain ⟨later, keepsLater⟩ := reads progress after same (keeps holds)
  exact ⟨moves.trans later, keepsLater⟩

end Reading

theorem operatorOf?_infix {k : TokenKind} (found : operatorOf? k = some o) :
    o ≠ .not ∧ o ≠ .neg := by
  cases k <;> simp_all [operatorOf?] <;> subst found <;> simp

/-- A new node without children is drawn. -/
theorem moves_new (n : Node) (ts : List Tree) (read : n.AsRead) (next : NodeId)
    (fresh : n.id = next) : Draws ts next (ts ++ [.mk n []]) (next + 1) where
  next_le := Nat.le_succ next
  kept x := by
    simp only [Pool.start, tallies_append, tallies_cons, tally_mk, tallies_nil, fresh, span_succ]
    omega
  loose_le _ := Nat.le_refl _
  known _ known loose := by
    simp only [eachOf_append, eachOf_cons, allOf_mk, eachOf_nil, and_true]
    exact ⟨⟨known, read⟩, loose⟩

/-- The same trees, held in another arrangement. -/
theorem moves_same {before after : List Tree} (same : ∀ n, counts n after = counts n before) :
    Draws before next after next :=
  .rearrange rfl rfl same

/-- A new node is put among the trees held. -/
theorem moves_added {before after : List Tree} (n : Node) (read : n.AsRead) (fresh : n.id = next)
    (same : ∀ m, counts m after = counts m (before ++ [.mk n []])) :
    Draws before next after (next + 1) :=
  (moves_new n before read next fresh).trans (moves_same same)

theorem join_moves (next : NodeId) (left : Tree) (o : Operator) (loc : Location) (right : Tree) :
    Draws [left, right] next [(join next left o loc right).1] (join next left o loc right).2 := by
  rw [join]
  split
  · cases left with
    | mk n cs =>
      exact moves_same fun _ => by simp +arith [withChildren]
  · exact .operator [left, right] (.start next) o loc fun _ => ⟨.inl rfl, trivial⟩

theorem join_isRaw {right : Tree} (rawLeft : left.IsRaw) (rawRight : right.IsRaw)
    (notNot : o ≠ .not) (notNeg : o ≠ .neg) : (join next left o loc right).1.IsRaw := by
  rw [join]
  split
  · next grows =>
    simp only [Bool.and_eq_true, Bool.or_eq_true, beq_iff_eq] at grows
    obtain ⟨connective, kind⟩ := grows
    cases left with
    | mk n cs =>
      obtain ⟨_, _, below⟩ := isRaw_mk.mp rawLeft
      have content : n.content = .op o := kind_eq_op.mp kind
      refine isRaw_mk.mpr ⟨?_, ?_, ?_⟩
      · rw [node_mk, content]
        rcases connective with rfl | rfl <;> trivial
      · rw [node_mk, content]
        trivial
      · simpa [or_imp, forall_and] using ⟨below, rawRight⟩
  · refine isRaw_mk.mpr ⟨?_, trivial, by simpa using ⟨rawLeft, rawRight⟩⟩
    cases o <;> simp_all [Content.Takes, Operator.Takes]

theorem openOperator_reads (found : operatorOf? t.kind = some o) :
    Reads bottom (left :: frames.flatMap Frame.held) next (FramesSound bottom frames ∧ left.IsRaw)
      (openOperator file next frames left o t) := by
  obtain ⟨notNot, notNeg⟩ := operatorOf?_infix found
  rw [openOperator]
  split
  · exact .refuse
  · exact .ok (fun _ => .refl _ _) fun sound => ⟨⟨sound.2, notNot, notNeg, sound.1⟩, trivial⟩

/-- An operator that waits takes the operand after it. -/
theorem join_reads {l : Tree}
    (reads : Reads bottom ((join next l o loc left).1 :: frames.flatMap Frame.held)
      (join next l o loc left).2
      (FramesSound bottom frames ∧ (join next l o loc left).1.IsRaw) result) :
    Reads bottom (left :: (Frame.binary l o loc :: frames).flatMap Frame.held) next
      (FramesSound bottom (.binary l o loc :: frames) ∧ left.IsRaw) result := by
  refine .after ?_ ?_ reads
  · refine .trans ?_ ((join_moves next l o loc left).append (.refl (frames.flatMap Frame.held) _))
    exact moves_same fun _ => by simp +arith [Frame.held]
  · rintro ⟨⟨rawLeft, notNot, notNeg, below⟩, rawRight⟩
    exact ⟨below, join_isRaw rawLeft rawRight notNot notNeg⟩

/-- An operand becomes the last argument of an open list. -/
theorem argument_moves (left : Tree) (head : Node) (done : List Tree) (rest : List Tree)
    (next : NodeId) :
    Draws (left :: .mk head done :: rest) next (.mk head (done ++ [left]) :: rest) next := by
  exact moves_same fun _ => by simp +arith

theorem isRaw_append (raws : ∀ t ∈ done, t.IsRaw) (raw : left.IsRaw) :
    ∀ t ∈ done ++ [left], t.IsRaw := by
  simpa [or_imp, forall_and] using ⟨raws, raw⟩

theorem isRaw_invocation {head : Node} (isCall : ∃ name, head.content = .invocation name)
    (raws : ∀ t ∈ done, t.IsRaw) : (Tree.mk head done).IsRaw := by
  obtain ⟨name, content⟩ := isCall
  refine isRaw_mk.mpr ⟨?_, ?_, raws⟩
  · rw [content]
    trivial
  · rw [content]
    exact ⟨rfl, rfl⟩

/-- A token after a complete operand: the operators that bind tighter are closed first. -/
theorem afterOperand_reads (file : String) (t : Token) (frames : List Frame) (next : NodeId)
    (left : Tree) :
    Reads bottom (left :: frames.flatMap Frame.held) next (FramesSound bottom frames ∧ left.IsRaw)
      (afterOperand file t next left frames) := by
  induction frames generalizing next left with
  | nil =>
    rw [afterOperand]
    split
    · next found => exact openOperator_reads found
    · exact .ok (fun _ => .refl _ _) fun sound => ⟨sound.1, sound.2⟩
  | cons frame frames ih =>
    cases frame with
    | binary l o loc =>
      rw [afterOperand]
      split
      · next found =>
        split
        · exact openOperator_reads found
        · exact join_reads (ih _ _)
      · exact join_reads (ih _ _)
    | unary o loc =>
      rw [afterOperand]
      refine .after ((MovesWith.operator [left] (.start next) o loc
        fun _ => ⟨.inl rfl, trivial⟩).append (.refl _ _)) ?_ (ih _ _)
      rintro ⟨⟨unary, below⟩, raw⟩
      refine ⟨below, isRaw_mk.mpr ⟨?_, trivial, by simpa using raw⟩⟩
      rcases unary with rfl | rfl <;> rfl
    | group =>
      rw [afterOperand]
      split
      · next found => exact openOperator_reads found
      · split
        · exact .ok (fun _ => .refl _ _) fun sound => sound
        · exact .refuse
    | arguments head done =>
      rw [afterOperand]
      split
      · next found => exact openOperator_reads found
      · split
        · refine .ok (fun _ => argument_moves ..) ?_
          rintro ⟨⟨isCall, raws, below⟩, raw⟩
          exact ⟨below, isRaw_invocation isCall (isRaw_append raws raw)⟩
        · split
          · refine .ok (fun _ => argument_moves ..) ?_
            rintro ⟨⟨isCall, raws, below⟩, raw⟩
            exact ⟨⟨isCall, isRaw_append raws raw, below⟩, trivial⟩
          · exact .refuse
    | list head done =>
      rw [afterOperand]
      split
      · next found => exact openOperator_reads found
      · split
        · refine .ok ?_ ?_
          · rintro ⟨⟨_, _, rfl⟩, _⟩
            exact argument_moves ..
          · rintro ⟨⟨⟨H, isBottom, holds⟩, raws, _⟩, raw⟩
            exact ⟨H, isBottom, holds, isRaw_append raws raw⟩
        · split
          · refine .ok (fun _ => argument_moves ..) ?_
            rintro ⟨⟨isHead, raws, below⟩, raw⟩
            exact ⟨⟨isHead, isRaw_append raws raw, below⟩, trivial⟩
          · exact .refuse

theorem number_spec {after : NodeId} {lit : Tree}
    (read : number file next negative loc t = .ok (lit, after)) :
    ∃ value, lit = .mk ⟨next, .any, loc, .literal value⟩ [] ∧ after = next + 1 := by
  rw [number] at read
  split at read
  · split at read
    · cases read
      exact ⟨_, rfl, rfl⟩
    · cases read
  · split at read
    · cases read
      exact ⟨_, rfl, rfl⟩
    · cases read

/-- A constant is a complete operand. -/
theorem number_reads :
    Reads bottom (frames.flatMap Frame.held) next (FramesSound bottom frames)
      (do
        let (lit, next) ← number file next negative loc t
        .ok (.reading ⟨frames, .operator lit⟩, next)) := by
  intro progress after same sound
  cases read : number file next negative loc t with
  | error e =>
    rw [read] at same
    cases same
  | ok result =>
    obtain ⟨lit, next'⟩ := result
    obtain ⟨value, rfl, rfl⟩ := number_spec read
    rw [read] at same
    cases same
    refine ⟨?_, sound, isRaw_mk.mpr ⟨rfl, trivial, by simp⟩⟩
    exact (moves_new ⟨next, .any, loc, .literal value⟩ [] ⟨.inl rfl, trivial⟩ next rfl).append
      (.refl _ _)

/-- A token where an operand starts. -/
theorem beforeOperand_reads (file : String) (t : Token) (next : NodeId) (frames : List Frame) :
    Reads bottom (frames.flatMap Frame.held) next (FramesSound bottom frames)
      (beforeOperand file t next frames) := by
  rw [beforeOperand]
  split
  · exact .ok (fun _ => .refl _ _) fun sound => ⟨sound, trivial⟩
  · exact number_reads
  · exact number_reads
  · exact .ok (fun _ => .refl _ _) fun sound => ⟨sound, trivial⟩
  · exact .ok (fun _ => .refl _ _) fun sound => ⟨⟨.inl rfl, sound⟩, trivial⟩
  · exact .ok (fun _ => .refl _ _) fun sound => ⟨sound, trivial⟩
  · exact .refuse

/-- A token right after the opening bracket of an argument list. -/
theorem beforeArgument_reads (file : String) (t : Token) (next : NodeId) (frames : List Frame) :
    Reads bottom (frames.flatMap Frame.held) next (FramesSound bottom frames)
      (beforeArgument file t next frames) := by
  rw [beforeArgument.eq_def]
  split
  · split
    · refine .ok (fun _ => .refl _ _) ?_
      rintro ⟨isCall, raws, below⟩
      exact ⟨below, isRaw_invocation isCall raws⟩
    · refine .ok ?_ ?_
      · rintro ⟨_, _, rfl⟩
        exact .refl _ _
      · rintro ⟨⟨H, isBottom, holds⟩, raws, _⟩
        exact ⟨H, isBottom, holds, raws⟩
    · exact .refuse
  · exact beforeOperand_reads file t next frames

theorem step_reads (file : String) (t : Token) (next : NodeId) (p : Pending) :
    Reads bottom p.held next (p.Sound bottom) (p.step file t next) := by
  obtain ⟨frames, expected⟩ := p
  rw [Pending.step]
  cases expected with
  | operand => exact .after (.refl _ _) And.left (beforeOperand_reads file t next frames)
  | firstArgument => exact .after (.refl _ _) And.left (beforeArgument_reads file t next frames)
  | afterName name =>
    have new (content : Content) (written : content.AsWritten) :=
      (moves_new ⟨next, .any, locate file name, content⟩ [] ⟨.inl rfl, written⟩ next rfl).append
        (.refl (frames.flatMap Frame.held) _)
    dsimp only
    split
    · exact .ok (fun _ => new _ trivial) fun sound => ⟨⟨⟨_, rfl⟩, by simp, sound.1⟩, trivial⟩
    · refine .after (new (.use name.word) rfl) ?_ (afterOperand_reads file t frames (next + 1) _)
      exact fun sound => ⟨sound.1, isRaw_mk.mpr ⟨rfl, ⟨rfl, rfl⟩, by simp⟩⟩
  | afterMinus minus =>
    dsimp only
    split
    · exact .after (.refl _ _) And.left number_reads
    · refine .after (.refl _ _) ?_
        (beforeOperand_reads file t next (.unary .neg (locate file minus) :: frames))
      exact fun sound => ⟨.inr rfl, sound.1⟩
  | operator left => exact afterOperand_reads file t frames next left

end Grammar

end TaskNet
