import TaskNet.Grammar.Reader
import TaskNet.Proofs.Tree.Structure

/-!
Reading copies places and never looks at them. Taking all places out of a reader and out of a token,
and then reading the token, is the same as reading it first; so whether a token is refused, and why,
depends on the classes and the bytes of the tokens up to it only. A refusal is at the token that was
read last.
-/

namespace TaskNet

open List

variable {e : SyntaxError}

def Node.unplaced (n : Node) : Node :=
  { n with loc := .nowhere }

/-- A tree without the places of its nodes. -/
def Tree.unplaced (t : Tree) : Tree :=
  t.mapNodes Node.unplaced

def Token.unplaced (t : Token) : Token :=
  { t with line := 0, column := 0 }

def SyntaxError.unplaced (e : SyntaxError) : SyntaxError :=
  ⟨.nowhere, e.token.unplaced, e.cause⟩

namespace Tree

@[simp] theorem unplaced_mk (n : Node) (cs : List Tree) :
    (mk n cs).unplaced = mk n.unplaced (cs.map unplaced) :=
  mapNodes_mk n cs

@[simp] theorem unplaced_node (t : Tree) : t.unplaced.node = t.node.unplaced :=
  mapNodes_node t

@[simp] theorem unplaced_children (t : Tree) : t.unplaced.children = t.children.map unplaced :=
  mapNodes_children t

@[simp] theorem unplaced_kind (t : Tree) : t.unplaced.kind = t.kind :=
  mapNodes_kind (f := Node.unplaced) (fun _ => rfl) t

@[simp] theorem unplaced_id (t : Tree) : t.unplaced.id = t.id := by
  rw [id, unplaced_node]
  rfl

@[simp] theorem unplaced_withChildren (t : Tree) (cs : List Tree) :
    (t.withChildren cs).unplaced = t.unplaced.withChildren (cs.map unplaced) := by
  rw [withChildren, unplaced_mk, withChildren, unplaced_node]

@[simp] theorem unplaced_withContent (t : Tree) (c : Content) :
    (t.withContent c).unplaced = t.unplaced.withContent c := by
  rw [withContent, unplaced_mk, withContent, unplaced_node, unplaced_children]
  rfl

@[simp] theorem unplaced_operator (x : NodeId) (o : Operator) (loc : Location) (cs : List Tree) :
    (operator x o loc cs).unplaced = operator x o .nowhere (cs.map unplaced) := by
  rw [operator, unplaced_mk]
  rfl

theorem unplaced_findChild? (t : Tree) (k : Kind) :
    t.unplaced.findChild? k = (t.findChild? k).map unplaced := by
  rw [findChild?, unplaced_children, find?_map, findChild?]
  congr 2
  exact funext fun c => by simp

end Tree

namespace Grammar

open Tree

@[simp] theorem unplaced_token_kind (t : Token) : t.unplaced.kind = t.kind := rfl

@[simp] theorem unplaced_token_lexeme (t : Token) : t.unplaced.lexeme = t.lexeme := rfl

@[simp] theorem unplaced_token_word (t : Token) : t.unplaced.word = t.word := rfl

@[simp] theorem locate_unplaced (t : Token) : locate "" t.unplaced = .nowhere := rfl

theorem unplaced_message (e : SyntaxError) : e.unplaced.message = e.message := by
  obtain ⟨_, _, cause⟩ := e
  cases cause <;> rfl

def Frame.unplaced : Frame → Frame
  | .binary left o _ => .binary left.unplaced o .nowhere
  | .unary o _ => .unary o .nowhere
  | .group => .group
  | .arguments head done => .arguments head.unplaced (done.map Tree.unplaced)
  | .list head done => .list head.unplaced (done.map Tree.unplaced)

def Expected.unplaced : Expected → Expected
  | .operand => .operand
  | .firstArgument => .firstArgument
  | .afterName name => .afterName name.unplaced
  | .afterMinus minus => .afterMinus minus.unplaced
  | .operator left => .operator left.unplaced

def Pending.unplaced (p : Pending) : Pending :=
  ⟨p.frames.map Frame.unplaced, p.expected.unplaced⟩

def Progress.unplaced : Progress → Progress
  | .reading p => .reading p.unplaced
  | .closed t => .closed t.unplaced
  | .ended t => .ended t.unplaced

/-- What is read at a token, and what is read there without places: the same result but for its
places, or refusals for one cause at that token. -/
inductive Copies (file : String) (t : Token) {α : Type} (f : α → α) :
    Except SyntaxError α → Except SyntaxError α → Prop where
  | ok {x y : α} (same : f x = y) : Copies file t f (.ok x) (.ok y)
  | refuse (cause : SyntaxCause) :
    Copies file t f (refuse file t cause) (refuse "" t.unplaced cause)

namespace Copies

variable {file : String} {t : Token} {α β : Type} {f : α → α} {g : β → β}
variable {a a' b b' : Except SyntaxError α}

theorem ite {c : Prop} [Decidable c] (yes : Copies file t f a a') (no : Copies file t f b b') :
    Copies file t f (if c then a else b) (if c then a' else b') := by
  split
  · exact yes
  · exact no

theorem bind {after after' : α → Except SyntaxError β} (first : Copies file t f a a')
    (second : ∀ x, Copies file t g (after x) (after' (f x))) :
    Copies file t g (a >>= after) (a' >>= after') := by
  cases first with
  | ok same =>
    subst same
    exact second _
  | refuse cause => exact .refuse cause

theorem error (copies : Copies file t f (.error e) a') :
    e = ⟨locate file t, t, e.cause⟩ ∧ a' = Grammar.refuse "" t.unplaced e.cause := by
  cases copies
  exact ⟨rfl, rfl⟩

theorem of_refuse {u : Token} {cause : SyntaxCause} (copies : Copies file t f a a')
    (refused : a' = Grammar.refuse "" u cause) : a = Grammar.refuse file t cause := by
  cases copies with
  | ok same => cases refused
  | refuse cause' =>
    obtain ⟨_, _, rfl⟩ := SyntaxError.mk.inj (Except.error.inj refused)
    rfl

end Copies

section Expressions

variable (file : String) (t : Token) (next : NodeId)

/-- What a token did to an expression and the next identity is the same without places. -/
abbrev Stepped.Copies (read read' : Stepped) : Prop :=
  Grammar.Copies file t (Prod.map Progress.unplaced id) read read'

theorem join_unplaced (left : Tree) (o : Operator) (loc : Location) (right : Tree) :
    join next left.unplaced o .nowhere right.unplaced =
      ((join next left o loc right).1.unplaced, (join next left o loc right).2) := by
  unfold join
  rw [unplaced_kind]
  split
  · simp
  · simp

theorem openOperator_copies (frames : List Frame) (left : Tree) (o : Operator) :
    Stepped.Copies file t (openOperator file next frames left o t)
      (openOperator "" next (frames.map Frame.unplaced) left.unplaced o t.unplaced) := by
  unfold openOperator
  rw [unplaced_kind]
  exact .ite (.refuse _) (.ok rfl)

/-- The operators that a token closes are those that it closes without places. -/
theorem afterOperand_copies (left : Tree) (frames : List Frame) :
    Stepped.Copies file t (afterOperand file t next left frames)
      (afterOperand "" t.unplaced next left.unplaced (frames.map Frame.unplaced)) := by
  induction frames generalizing next left with
  | nil =>
    rw [map_nil, afterOperand, afterOperand, unplaced_token_kind]
    cases operatorOf? t.kind with
    | none => exact .ok rfl
    | some o => exact openOperator_copies file t next [] left o
  | cons frame frames ih =>
    have opens := openOperator_copies file t next (frame :: frames) left
    rw [map_cons] at opens ⊢
    cases frame with
    | binary l o loc =>
      have joins := ih (join next l o loc left).2 (join next l o loc left).1
      rw [Frame.unplaced, afterOperand, afterOperand, unplaced_token_kind,
        join_unplaced next l o loc left]
      cases operatorOf? t.kind with
      | none => exact joins
      | some o' => exact .ite (opens o') joins
    | unary o loc =>
      rw [Frame.unplaced, afterOperand, afterOperand]
      exact unplaced_operator next o loc [left] ▸ ih _ _
    | group =>
      rw [Frame.unplaced, afterOperand, afterOperand, unplaced_token_kind]
      cases operatorOf? t.kind with
      | none => exact .ite (.ok rfl) (.refuse _)
      | some o' => exact opens o'
    | arguments head done =>
      rw [Frame.unplaced, afterOperand, afterOperand, unplaced_token_kind]
      cases operatorOf? t.kind with
      | none =>
        apply Copies.ite (.ok _) (.ite (.ok _) (.refuse _))
        · simp [Progress.unplaced, Pending.unplaced, Expected.unplaced]
        · simp [Progress.unplaced, Pending.unplaced, Expected.unplaced, Frame.unplaced]
      | some o' => exact opens o'
    | list head done =>
      rw [Frame.unplaced, afterOperand, afterOperand, unplaced_token_kind]
      cases operatorOf? t.kind with
      | none =>
        apply Copies.ite (.ok _) (.ite (.ok _) (.refuse _))
        · simp [Progress.unplaced]
        · simp [Progress.unplaced, Pending.unplaced, Expected.unplaced, Frame.unplaced]
      | some o' => exact opens o'

/-- A number is refused or taken by its bytes. -/
theorem number_copies (negative : Bool) (loc : Location) :
    Copies file t (Prod.map Tree.unplaced id) (number file next negative loc t)
      (number "" next negative .nowhere t.unplaced) := by
  unfold number
  apply Copies.ite
  · rw [unplaced_token_lexeme]
    cases integerValue? negative t.lexeme with
    | none => exact .refuse _
    | some v => exact .ok rfl
  · rw [unplaced_token_lexeme]
    cases floatValue? negative t.lexeme with
    | none => exact .refuse _
    | some v => exact .ok rfl

theorem beforeOperand_copies (frames : List Frame) :
    Stepped.Copies file t (beforeOperand file t next frames)
      (beforeOperand "" t.unplaced next (frames.map Frame.unplaced)) := by
  unfold beforeOperand
  rw [unplaced_token_kind]
  cases t.kind with
  | integer => exact (number_copies file t next false _).bind fun _ => .ok rfl
  | float => exact (number_copies file t next false _).bind fun _ => .ok rfl
  | identifier => exact .ok rfl
  | leftRound => exact .ok rfl
  | not => exact .ok rfl
  | minus => exact .ok rfl
  | _ => exact .refuse _

theorem beforeArgument_copies (frames : List Frame) :
    Stepped.Copies file t (beforeArgument file t next frames)
      (beforeArgument "" t.unplaced next (frames.map Frame.unplaced)) := by
  apply Copies.ite _ (beforeOperand_copies file t next frames)
  cases frames with
  | nil => exact .refuse _
  | cons frame frames =>
    cases frame with
    | arguments head done =>
      exact .ok (by simp [Progress.unplaced, Pending.unplaced, Expected.unplaced])
    | list head done => exact .ok (by simp [Progress.unplaced])
    | _ => exact .refuse _

/-- One token of an expression. -/
theorem pending_step_copies (p : Pending) :
    Stepped.Copies file t (p.step file t next) (p.unplaced.step "" t.unplaced next) := by
  obtain ⟨frames, expected⟩ := p
  unfold Pending.step
  cases expected with
  | operand => exact beforeOperand_copies file t next frames
  | firstArgument => exact beforeArgument_copies file t next frames
  | afterName name =>
    exact .ite (.ok rfl) (afterOperand_copies file t (next + 1)
      (.mk ⟨next, .any, locate file name, .use name.word⟩ []) frames)
  | afterMinus minus =>
    exact .ite ((number_copies file t next true _).bind fun _ => .ok rfl)
      (beforeOperand_copies file t next (.unary .neg (locate file minus) :: frames))
  | operator left => exact afterOperand_copies file t next left frames

end Expressions

def Scope.unplaced : Scope → Scope
  | .domain => .domain
  | .task t => .task t.unplaced

def Owner.unplaced : Owner → Owner
  | .template scope t => .template scope.unplaced t.unplaced
  | .task t => .task t.unplaced

def Place.unplaced : Place → Place
  | .block kind => .block kind
  | .task t => .task t.unplaced

def Mode.unplaced : Mode → Mode
  | .blocks => .blocks
  | .blockOpen kind => .blockOpen kind
  | .facts kind attrs => .facts kind (attrs.map Tree.unplaced)
  | .attrName place attrs _ => .attrName place.unplaced (attrs.map Tree.unplaced) .nowhere
  | .attrArgs place attrs attr => .attrArgs place.unplaced (attrs.map Tree.unplaced) attr.unplaced
  | .attrList place attrs p => .attrList place.unplaced (attrs.map Tree.unplaced) p.unplaced
  | .factOpen kind fact => .factOpen kind fact.unplaced
  | .factParams kind fact later => .factParams kind fact.unplaced later
  | .factType kind fact => .factType kind fact.unplaced
  | .domainName => .domainName
  | .domainOpen => .domainOpen
  | .items => .items
  | .templateName scope => .templateName scope.unplaced
  | .taskName => .taskName
  | .paramsOpen owner => .paramsOpen owner.unplaced
  | .params owner later => .params owner.unplaced later
  | .paramName owner => .paramName owner.unplaced
  | .templateAssign scope t => .templateAssign scope.unplaced t.unplaced
  | .templateBody scope t p => .templateBody scope.unplaced t.unplaced p.unplaced
  | .taskOpen t => .taskOpen t.unplaced
  | .branches t attrs => .branches t.unplaced (attrs.map Tree.unplaced)
  | .guardStart t branch => .guardStart t.unplaced branch.unplaced
  | .guard t branch p => .guard t.unplaced branch.unplaced p.unplaced
  | .listOpen t branch => .listOpen t.unplaced branch.unplaced
  | .calls t branch list later => .calls t.unplaced branch.unplaced list.unplaced later
  | .callName t branch list => .callName t.unplaced branch.unplaced list.unplaced
  | .callOpen t branch list head => .callOpen t.unplaced branch.unplaced list.unplaced head.unplaced
  | .callArgs t branch list p => .callArgs t.unplaced branch.unplaced list.unplaced p.unplaced

theorem Mode.eq_blocks_of_unplaced {m : Mode} (between : m.unplaced = .blocks) : m = .blocks := by
  cases m with
  | blocks => rfl
  | _ => cases between

def Reader.unplaced (r : Reader) : Reader :=
  ⟨r.root.unplaced, r.next, r.mode.unplaced⟩

@[simp] theorem addChild_unplaced (t c : Tree) :
    (addChild t c).unplaced = addChild t.unplaced c.unplaced := by
  simp [addChild]

@[simp] theorem addToFirst_unplaced (kind : Kind) (c : Tree) (ts : List Tree) :
    addToFirst kind c.unplaced (ts.map Tree.unplaced) =
      (addToFirst kind c ts).map Tree.unplaced := by
  induction ts with
  | nil => rfl
  | cons t ts ih =>
    rw [map_cons, addToFirst, addToFirst, unplaced_kind]
    split
    · simp
    · rw [map_cons, ih]

namespace Reader

variable (file : String) (t : Token) (r : Reader)

/-- What a token did to a reader is the same without places. -/
abbrev Copies (read read' : Except SyntaxError Reader) : Prop :=
  Grammar.Copies file t Reader.unplaced read read'

theorem need_copies (wanted : TokenKind) :
    Copies file t (r.need file t wanted) (r.unplaced.need "" t.unplaced wanted) :=
  .ite (.ok rfl) (.refuse _)

theorem openBlock_unplaced (content : Content) :
    (r.openBlock file t content).unplaced = r.unplaced.openBlock "" t.unplaced content := by
  unfold openBlock
  rw [show r.unplaced.root = r.root.unplaced from rfl, unplaced_findChild?]
  cases r.root.findChild? content.kind with
  | some block => rfl
  | none => simp [Reader.unplaced, Mode.unplaced, newNode, Node.unplaced]

theorem stepBlocks_copies :
    Copies file t (r.stepBlocks file t) (r.unplaced.stepBlocks "" t.unplaced) := by
  apply Copies.ite (.ok rfl)
  apply Copies.ite (.ok (openBlock_unplaced file t r _))
  apply Copies.ite (.ok (openBlock_unplaced file t r _))
  apply Copies.ite _ (.refuse _)
  rw [show r.unplaced.root = r.root.unplaced from rfl, unplaced_findChild?]
  cases r.root.findChild? .domain with
  | none => exact .ok rfl
  | some d => exact .refuse _

theorem stepFacts_copies (kind : Kind) (attrs : List Tree) :
    Copies file t (r.stepFacts file t kind attrs)
      (r.unplaced.stepFacts "" t.unplaced kind (attrs.map Tree.unplaced)) := by
  unfold stepFacts
  simp only [map_eq_nil_iff]
  apply Copies.ite (.ok rfl) (.ite (.ok rfl) (.ite (.ok _) (.refuse _)))
  simp [Reader.unplaced, Mode.unplaced, newNode, Node.unplaced]

theorem addFactType_copies (kind : Kind) (fact : Tree) :
    Copies file t (r.addFactType file t kind fact)
      (r.unplaced.addFactType "" t.unplaced kind fact.unplaced) := by
  apply Copies.ite _ (.refuse _)
  rw [unplaced_token_word]
  cases TypeTag.ofName? t.word with
  | none => exact .refuse _
  | some tag => exact .ok (by simp [Reader.unplaced, Mode.unplaced, newNode, Node.unplaced])

theorem stepItems_copies :
    Copies file t (r.stepItems file t) (r.unplaced.stepItems "" t.unplaced) :=
  .ite (.ok rfl) (.ite (.ok rfl) (.ite (.ok rfl) (.refuse _)))

theorem stepBranches_copies (task : Tree) (attrs : List Tree) :
    Copies file t (r.stepBranches file t task attrs)
      (r.unplaced.stepBranches "" t.unplaced task.unplaced (attrs.map Tree.unplaced)) := by
  unfold stepBranches
  simp only [map_eq_nil_iff]
  apply Copies.ite (.ok _) (.ite (.ok rfl) (.ite (.ok rfl) (.ite (.ok _) (.refuse _))))
  · simp [Reader.unplaced, Mode.unplaced, addTo]
  · simp [Reader.unplaced, Mode.unplaced, newNode, Node.unplaced]

theorem stepParamName_copies (owner : Owner) :
    Copies file t (r.stepParamName file t owner)
      (r.unplaced.stepParamName "" t.unplaced owner.unplaced) := by
  apply Copies.ite (.ok _) (.refuse _)
  cases owner <;>
    simp [Reader.unplaced, Mode.unplaced, Owner.unplaced, addParam, newNode, Node.unplaced]

theorem afterTemplate_copies (scope : Scope) (m : Tree) :
    Copies file t (r.afterTemplate file t scope m)
      (r.unplaced.afterTemplate "" t.unplaced scope.unplaced m.unplaced) := by
  have adds : (r.addTemplate scope m).unplaced =
    r.unplaced.addTemplate scope.unplaced m.unplaced := by
    cases scope <;> simp [addTemplate, Reader.unplaced, Mode.unplaced, Scope.unplaced, addTo]
  cases scope with
  | domain =>
    have items := stepItems_copies file t (r.addTemplate .domain m)
    rwa [adds] at items
  | task task =>
    have branches := stepBranches_copies file t (r.addTemplate (.task task) m) (addChild task m) []
    rwa [adds, addChild_unplaced] at branches

theorem stepCallName_copies (task branch list : Tree) :
    Copies file t (r.stepCallName file t task branch list)
      (r.unplaced.stepCallName "" t.unplaced task.unplaced branch.unplaced list.unplaced) :=
  .ite (.ok rfl) (.refuse _)

theorem closeBranch_unplaced (task branch list : Tree) :
    (closeBranch task branch list).unplaced =
      closeBranch task.unplaced branch.unplaced list.unplaced := by
  have precond : (branch.unplaced.children.getLast?).map Tree.id =
      branch.children.getLast?.map Tree.id := by
    rw [unplaced_children, getLast?_map, Option.map_map]
    congr 1
    exact funext unplaced_id
  unfold closeBranch
  dsimp only
  rw [addChild_unplaced, unplaced_withContent, addChild_unplaced, precond, unplaced_id]

/-- Reading a token without places is reading it and taking the places out. -/
theorem step_copies : Copies file t (r.step file t) (r.unplaced.step "" t.unplaced) := by
  obtain ⟨root, next, mode⟩ := r
  cases mode with
  | blocks => exact stepBlocks_copies file t _
  | blockOpen kind => exact need_copies file t _ _
  | facts kind attrs => exact stepFacts_copies file t _ kind attrs
  | attrName place attrs loc => exact need_copies file t _ _
  | attrArgs place attrs attr =>
    apply Copies.ite (.ok rfl)
    cases place with
    | block kind =>
      have facts := stepFacts_copies file t ⟨root, next, .attrArgs (.block kind) attrs attr⟩ kind
        (attrs ++ [.mk attr []])
      rw [map_append] at facts
      exact facts
    | task task =>
      have branches := stepBranches_copies file t ⟨root, next, .attrArgs (.task task) attrs attr⟩
        task (attrs ++ [.mk attr []])
      rw [map_append] at branches
      exact branches
  | attrList place attrs p =>
    apply (pending_step_copies file t next p).bind
    rintro ⟨_ | attr | attr, _⟩
    · exact .ok rfl
    · cases place <;> exact .ok
        (by simp [afterAttr, Reader.unplaced, Mode.unplaced, Place.unplaced])
    · cases place <;> exact .ok
        (by simp [afterAttr, Reader.unplaced, Mode.unplaced, Place.unplaced])
  | factOpen kind fact => exact need_copies file t _ _
  | factParams kind fact later =>
    apply Copies.ite (.ok _) (.ite (need_copies file t _ _) (addFactType_copies file t _ kind fact))
    simp [Reader.unplaced, Mode.unplaced, addTo]
  | factType kind fact => exact addFactType_copies file t _ kind fact
  | domainName =>
    exact .ite (.ok (by simp [Reader.unplaced, Mode.unplaced, newNode, Node.unplaced])) (.refuse _)
  | domainOpen => exact need_copies file t _ _
  | items => exact stepItems_copies file t _
  | templateName scope => exact need_copies file t _ _
  | taskName => exact need_copies file t _ _
  | paramsOpen owner => exact need_copies file t _ _
  | params owner later =>
    apply Copies.ite (.ok _) (.ite (need_copies file t _ _) (stepParamName_copies file t _ owner))
    cases owner <;> rfl
  | paramName owner => exact stepParamName_copies file t _ owner
  | templateAssign scope m => exact need_copies file t _ _
  | templateBody scope m p =>
    have ends (body : Tree) (r : Reader) := afterTemplate_copies file t r scope (addChild m body)
    simp only [addChild_unplaced] at ends
    apply (pending_step_copies file t next p).bind
    rintro ⟨_ | body | body, next⟩
    · exact .ok rfl
    · exact ends body _
    · exact ends body _
  | taskOpen task => exact need_copies file t _ _
  | branches task attrs => exact stepBranches_copies file t _ task attrs
  | guardStart task branch =>
    apply Copies.ite
    · exact .ok (by simp [afterGuard, Reader.unplaced, Mode.unplaced])
    · apply (pending_step_copies file t next .start).bind
      rintro ⟨_ | e | e, next⟩
      · exact .ok rfl
      · exact .ok (by simp [afterGuard, Reader.unplaced, Mode.unplaced])
      · exact .ok (by simp [afterGuard, Reader.unplaced, Mode.unplaced])
  | guard task branch p =>
    apply (pending_step_copies file t next p).bind
    rintro ⟨_ | e | e, next⟩
    · exact .ok rfl
    · exact .ite (.ok (by simp [afterGuard, Reader.unplaced, Mode.unplaced])) (.refuse _)
    · exact .ite (.ok (by simp [afterGuard, Reader.unplaced, Mode.unplaced])) (.refuse _)
  | listOpen task branch => exact need_copies file t _ _
  | calls task branch list later =>
    apply Copies.ite (.ok _)
      (.ite (need_copies file t _ _) (stepCallName_copies file t _ task branch list))
    simp [Reader.unplaced, Mode.unplaced, closeBranch_unplaced]
  | callName task branch list => exact stepCallName_copies file t _ task branch list
  | callOpen task branch list head => exact need_copies file t _ _
  | callArgs task branch list p =>
    apply (pending_step_copies file t next p).bind
    rintro ⟨_ | call | call, next⟩
    · exact .ok rfl
    · exact .ok (by simp [Reader.unplaced, Mode.unplaced])
    · exact .ok (by simp [Reader.unplaced, Mode.unplaced])

/-- An error is always at the token that was read last, also where the cause is an earlier one. -/
theorem loc_of_error (refused : r.step file t = .error e) : e.loc = locate file t := by
  have copies := step_copies file t r
  rw [refused] at copies
  exact congrArg SyntaxError.loc copies.error.1

/-- Reading tokens without places reads them to the same reader without places, or to the same
error. -/
theorem run_unplaced (ts : List Token) (r : Reader) :
    (r.unplaced.run "" (ts.map Token.unplaced)).2 = (r.run file ts).2.map SyntaxError.unplaced ∧
      ((r.run file ts).2 = none →
        (r.unplaced.run "" (ts.map Token.unplaced)).1 = (r.run file ts).1.unplaced) := by
  induction ts generalizing r with
  | nil => exact ⟨rfl, fun _ => rfl⟩
  | cons t ts ih =>
    have copies := step_copies file t r
    rw [map_cons, run, run]
    generalize r.step file t = read, r.unplaced.step "" t.unplaced = read' at copies ⊢
    cases copies with
    | ok same =>
      subst same
      exact ih _
    | refuse cause =>
      constructor
      · rfl
      · intro none
        cases none

end Reader

end Grammar

end TaskNet
