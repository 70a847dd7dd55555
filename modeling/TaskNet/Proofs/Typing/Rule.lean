import TaskNet.Proofs.Binding.Resolution
import TaskNet.Proofs.Function.Overload
import TaskNet.Proofs.Typing.Run

/-!
The rules of types. The type of a node follows from its content and the types of its operands, and
the type of an expression from the types of what defines its variables. Looking at the type of an
expression finds the type that these rules give, which is known or none. An arithmetic expression of
known type has an atom that is no variable, or a variable of known type.
-/

namespace TaskNet

open List Tree TypeTag Typing

variable {types : List TypeTag} {s : Typing}

namespace Tree

mutual

/-- The atoms of an arithmetic expression, at any depth. Any other expression is an atom. -/
def atoms : Tree → List Tree
  | mk n cs => if n.kind.isArithmetic then atomsList cs else [mk n cs]

def atomsList : List Tree → List Tree
  | [] => []
  | t :: ts => atoms t ++ atomsList ts

end

theorem atoms_mk (n : Node) (cs : List Tree) : atoms (mk n cs) =
    if n.kind.isArithmetic then cs.flatMap atoms else [mk n cs] := by
  have below : atomsList cs = cs.flatMap atoms := by
    induction cs with
    | nil => rfl
    | cons c cs ih => rw [atomsList, ih, flatMap_cons]
  rw [atoms, below]

theorem op_of_isArithmetic {n : Node} (arithmetic : n.kind.isArithmetic = true) :
    ∃ o, n.content = .op o ∧ o.isArithmetic = true := by
  cases content : n.content <;>
    simp_all [Node.kind, Content.kind, Kind.isArithmetic]

end Tree

namespace Slots

variable {slots : Slots} {name : String} {i : Nat}

/-- The type of a name in the slots of a case; a name without a slot is of unknown type. -/
def typeIn (slots : Slots) (s : Typing) (name : String) : TypeTag :=
  match slots.find? name with
  | some i => s.slotAt i
  | none => .any

theorem find?_eq_some (found : slots.find? name = some i) :
    ∃ k, i = slots.base + k ∧ slots.names[k]? = some name := by
  obtain ⟨k, place, rfl⟩ := Option.map_eq_some_iff.mp found
  obtain ⟨inside, same, _⟩ := idxOf?_eq_some_iff.mp place
  exact ⟨k, rfl, List.getElem?_eq_some_iff.mpr ⟨inside, same⟩⟩

theorem find?_lt (found : slots.find? name = some i) :
    slots.base ≤ i ∧ i < slots.base + slots.names.length := by
  obtain ⟨k, rfl, named⟩ := find?_eq_some found
  obtain ⟨inside, _⟩ := List.getElem?_eq_some_iff.mp named
  omega

end Slots

/-- The slots that variables are read from are there. -/
def VarView.Fits (s : Typing) : VarView → Prop
  | .slots own => own.base + own.names.length ≤ s.tags.size
  | .resolved => True

namespace Infer

variable {n : Node} {t : Tree} {ρ : Node → TypeTag} {view : VarView} {o : Operator}

/-- The type of a call: facts are numbers, and a function returns what its overload returns. -/
def callRule (env : TypingContext) (c : Invocation) (types : List TypeTag) : TypeTag :=
  match c.decl with
  | some d => if (env.site? d).any Site.isWorldFact then .int8 else .any
  | none =>
    match env.functions.resolve c.name types with
    | .ok sig => sig.result
    | .error _ => .any

def arithmeticRule (o : Operator) (types : List TypeTag) : TypeTag :=
  if types.contains .notAType then .notAType else (arithmetic o types).getD .notAType

/-- The type of an operation: what is logical, a comparison or an assignment is a number. -/
def operatorRule (o : Operator) (types : List TypeTag) : TypeTag :=
  if o = .assign || o.isLogical || o.isComparison then .int8 else arithmeticRule o types

/-- The type of a node, from the types of its operands and of the definitions of variables. -/
def nodeRule (env : TypingContext) (τ : NodeId → TypeTag) (n : Node) (types : List TypeTag) :
    TypeTag :=
  match n.content with
  | .error _ _ => .notAType
  | .var v => τ (v.definition.getD n.id)
  | .literal l => l.type
  | .call c => callRule env c types
  | .op o => operatorRule o types
  | _ => .any

mutual

/-- The type of an expression, from the types of the definitions of its variables. -/
def typeFrom (env : TypingContext) (τ : NodeId → TypeTag) : Tree → TypeTag
  | .mk n cs => nodeRule env τ n (typesFrom env τ cs)

def typesFrom (env : TypingContext) (τ : NodeId → TypeTag) : List Tree → List TypeTag
  | [] => []
  | t :: ts => typeFrom env τ t :: typesFrom env τ ts

end

variable {T : Prop} {env : TypingContext} {τ τ' : NodeId → TypeTag}

theorem typesFrom_eq (cs : List Tree) : typesFrom env τ cs = cs.map (typeFrom env τ) := by
  induction cs with
  | nil => rfl
  | cons c cs ih => rw [typesFrom, ih, map_cons]

theorem typeFrom_mk (n : Node) (cs : List Tree) :
    typeFrom env τ (.mk n cs) = nodeRule env τ n (cs.map (typeFrom env τ)) := by
  rw [typeFrom, typesFrom_eq]

/-- Of the types of definitions a node reads that of its own variable. -/
theorem nodeRule_congr (types : List TypeTag)
    (same : ∀ v, n.content = .var v → τ (v.definition.getD n.id) = τ' (v.definition.getD n.id)) :
    nodeRule env τ n types = nodeRule env τ' n types := by
  rw [nodeRule.eq_def, nodeRule.eq_def]
  split
  all_goals try rfl
  next v content => exact same v content

theorem literal_concrete (l : Literal) : l.type.isConcrete = true := by
  rw [Literal.type.eq_def]
  repeat' split
  all_goals rfl

/-- The type of an arithmetic operation is unknown, a number or a vector. -/
theorem arithmetic_known {u : TypeTag} (found : arithmetic o types = some u) :
    u.Known ∧ u = types.foldl unify .any := by
  rw [arithmetic] at found
  split at found
  · next accepted =>
    cases found
    refine ⟨?_, rfl⟩
    generalize types.foldl unify .any = u at accepted
    cases u <;> simp_all [Known, isNumeric, width] <;> decide
  · cases found

/-- The type of a node is known or none, if those of definitions are known. -/
theorem nodeRule_known (concrete : env.functions.Concrete) (types : List TypeTag)
    (defined : ∀ v, n.content = .var v → (τ (v.definition.getD n.id)).Known) :
    (nodeRule env τ n types).Known ∨ nodeRule env τ n types = .notAType := by
  rw [nodeRule.eq_def]
  split
  · exact .inr rfl
  · next v content => exact .inl (defined v content)
  · exact .inl (.inr (literal_concrete _))
  · rw [callRule]
    split
    · split
      · exact .inl (.inr rfl)
      · exact .inl (.inl rfl)
    · split
      · next chosen => exact .inl (.inr (concrete.resolve chosen))
      · exact .inl (.inl rfl)
  · next o content =>
    rw [operatorRule, arithmeticRule]
    split
    · exact .inl (.inr rfl)
    split
    · exact .inr rfl
    · cases found : arithmetic o types with
      | none => exact .inr rfl
      | some u => exact .inl (arithmetic_known found).1
  · exact .inl (.inl rfl)

/-- An expression reads the types of the definitions of its variables. -/
theorem typeFrom_congr (term : t.IsTerm) (same : ∀ u ∈ t.visited, ∀ v, u.content = .var v →
      τ (v.definition.getD u.id) = τ' (v.definition.getD u.id)) :
    typeFrom env τ t = typeFrom env τ' t := by
  induction t with
  | mk n cs ih =>
    obtain ⟨takes, below⟩ := isTerm_mk.mp term
    have operands : cs.map (typeFrom env τ) = cs.map (typeFrom env τ') :=
      map_congr_left fun c member => ih c member (below c member) fun u visits =>
        same u (mem_visited_child (t := mk n cs) (takes_sound takes) member visits)
    rw [typeFrom_mk, typeFrom_mk, operands]
    exact nodeRule_congr _ (same _ (mem_visited_self _))

mutual

def typeBy (env : TypingContext) (ρ : Node → TypeTag) : Tree → TypeTag
  | .mk n cs => nodeRule env (fun _ => ρ n) n (typesBy env ρ cs)

def typesBy (env : TypingContext) (ρ : Node → TypeTag) : List Tree → List TypeTag
  | [] => []
  | t :: ts => typeBy env ρ t :: typesBy env ρ ts

end

theorem typeBy_mk (ρ : Node → TypeTag) (n : Node) (cs : List Tree) :
    typeBy env ρ (.mk n cs) = nodeRule env (fun _ => ρ n) n (cs.map (typeBy env ρ)) := by
  have operands : typesBy env ρ cs = cs.map (typeBy env ρ) := by
    induction cs with
    | nil => rfl
    | cons c cs ih => rw [typesBy, ih, map_cons]
  rw [typeBy, operands]

/-- The type of an expression is known or none, if those of variables are known. -/
theorem typeBy_known (concrete : env.functions.Concrete) (t : Tree)
    (read : ∀ n v, n.content = .var v → (ρ n).Known) :
    (typeBy env ρ t).Known ∨ typeBy env ρ t = .notAType := by
  cases t with
  | mk n cs =>
    rw [typeBy_mk]
    exact nodeRule_known concrete _ (read n)

/-- A variable has the type of its definition. -/
theorem typeBy_eq_typeFrom (term : t.IsTerm)
    (reads : ∀ u ∈ t.visited, ∀ v, u.content = .var v → ρ u.node = τ (v.definition.getD u.id)) :
    typeBy env ρ t = typeFrom env τ t := by
  induction t with
  | mk n cs ih =>
    obtain ⟨takes, below⟩ := isTerm_mk.mp term
    have operands : cs.map (typeBy env ρ) = cs.map (typeFrom env τ) :=
      map_congr_left fun c member => ih c member (below c member) fun u visits =>
        reads u (mem_visited_child (t := mk n cs) (takes_sound takes) member visits)
    rw [typeBy_mk, typeFrom_mk, operands]
    exact nodeRule_congr _ (reads _ (mem_visited_self _))

theorem arithmeticType_run (n : Node) (o : Operator) (types : List TypeTag) (s : Typing) :
    (arithmeticType .peek n o types).run s = (.ok (arithmeticRule o types), s) := by
  rw [arithmeticType, arithmeticRule]
  split
  · rfl
  · cases arithmetic o types <;> rfl

theorem callType_run (n : Node) (c : Invocation) (args : List (Tree × TypeTag)) (s : Typing) :
    (callType env .peek n c args).run s = (.ok (callRule env c (args.map Prod.snd)), s) := by
  rw [callType, callRule]
  cases c.decl with
  | some d =>
    dsimp only
    cases env.site? d <;> rfl
  | none =>
    dsimp only
    cases env.functions.resolve c.name (args.map Prod.snd) <;> rfl

/-- The type of an operation that is no assignment. -/
def operatorType (env : TypingContext) (view : VarView) (mode : TypingMode) (n : Node)
    (o : Operator) (cs : List Tree) : Infer TypeTag := do
  if o.isLogical then
    let types ← exprTypes env view mode cs
    if mode = .settle then
      checkLogical o (cs.zip types)
    pure .int8
  else if o.isComparison then
    let a ← firstType env view mode cs
    let b ← lastType env view mode cs
    if mode = .settle && a != .notAType && b != .notAType && !comparable o a b then
      reportUnify n.loc o.label a b
    pure .int8
  else
    let types ← exprTypes env view mode cs
    arithmeticType mode n o types

def nodeType (env : TypingContext) (view : VarView) (mode : TypingMode) (n : Node)
    (cs : List Tree) : Infer TypeTag :=
  match n.content with
  | .error _ _ => pure .notAType
  | .var v => variableType view n v
  | .literal l => pure l.type
  | .call c => do
    let types ← exprTypes env view mode cs
    callType env mode n c (cs.zip types)
  | .op .assign => do
    let value ← lastType env view mode cs
    let target ← firstType env view mode cs
    if mode = .settle then
      checkAssignment cs target value
    pure .int8
  | .op o => operatorType env view mode n o cs
  | _ => pure .any

def storeType (mode : TypingMode) (n : Node) (t : TypeTag) : Infer TypeTag := do
  if mode = .settle then
    setType n.id t
  pure t

theorem exprType_eq (env : TypingContext) (view : VarView) (mode : TypingMode) (n : Node)
    (cs : List Tree) :
    exprType env view mode (mk n cs) = nodeType env view mode n cs >>= storeType mode n := by
  rw [exprType]
  unfold nodeType operatorType storeType
  cases content : n.content with
  | op o =>
    by_cases assign : o = .assign
    · subst assign
      cases mode <;> simp [bind_assoc]
    by_cases logical : o.isLogical = true
    · cases mode <;> simp [logical, bind_assoc]
    by_cases comparison : o.isComparison = true
    · cases mode
      · simp [logical, comparison]
      · simp [logical, comparison, bind_assoc]
        refine congrArg _ (funext fun a => congrArg _ (funext fun b => ?_))
        split <;> simp
    · cases mode <;> simp [logical, comparison, bind_assoc]
  | _ => simp [bind_assoc]

/-- The type of the last of two operands is that of the second. -/
theorem lastType_two (env : TypingContext) (view : VarView) (mode : TypingMode) (a b : Tree) :
    lastType env view mode [a, b] = exprType env view mode b := by
  rw [lastType, lastType]

theorem firstType_two (env : TypingContext) (view : VarView) (mode : TypingMode) (a b : Tree) :
    firstType env view mode [a, b] = exprType env view mode a := by
  rw [firstType]

theorem takes_of_comparison (comparison : o.isComparison = true) {k : Nat} (takes : o.Takes k) :
    k = 2 := by
  cases o <;> first | exact takes | cases comparison

def typeIn (view : VarView) (s : Typing) (n : Node) (v : Variable) : TypeTag :=
  match view with
  | .slots slots => slots.typeIn s v.name
  | .resolved => s.typeAt (v.definition.getD n.id)

theorem slotType_run {slots : Slots} (fits : slots.base + slots.names.length ≤ s.tags.size)
    (name : String) : (slotType slots name).run s = (.ok (slots.typeIn s name), s) := by
  rw [slotType, Slots.typeIn]
  cases found : slots.find? name with
  | none => rfl
  | some i => exact slot_run (Nat.lt_of_lt_of_le (Slots.find?_lt found).2 fits)

theorem variableType_run (fits : view.Fits s) (n : Node) (v : Variable) :
    (variableType view n v).run s = (.ok (typeIn view s n v), s) := by
  cases view with
  | slots slots => exact slotType_run fits v.name
  | resolved => rfl

def readTypes (view : VarView) (s : Typing) (n : Node) : TypeTag :=
  match n.content with
  | .var v => typeIn view s n v
  | _ => .any

theorem readTypes_var {v : Variable} (content : n.content = .var v) :
    readTypes view s n = typeIn view s n v := by
  rw [readTypes, content]

theorem exprTypes_run {cs : List Tree}
    (each : ∀ c ∈ cs, (exprType env view .peek c).run s =
    (.ok (typeBy env (readTypes view s) c), s)) :
    (exprTypes env view .peek cs).run s = (.ok (cs.map (typeBy env (readTypes view s))), s) := by
  induction cs with
  | nil => rfl
  | cons c cs ih =>
    rw [exprTypes, run_bind, each c (by simp)]
    dsimp only
    rw [run_bind, ih (forall_mem_cons.mp each).2]
    rfl

theorem operatorRule_number (number : o = .assign ∨ o.isLogical = true ∨ o.isComparison = true)
    (types : List TypeTag) : operatorRule o types = .int8 := by
  rw [operatorRule, if_pos]
  simpa [or_assoc] using number

theorem operatorRule_arithmetic (notAssign : o ≠ .assign) (notLogical : ¬ o.isLogical = true)
    (notComparison : ¬ o.isComparison = true) (types : List TypeTag) :
    operatorRule o types = arithmeticRule o types := by
  rw [operatorRule, if_neg]
  simp [notAssign, notLogical, notComparison]

/-- Looking at the type of an expression changes nothing and finds the type that the rules give,
however variables are read. -/
theorem exprType_run (term : t.IsTerm) (fits : view.Fits s) :
    (exprType env view .peek t).run s = (.ok (typeBy env (readTypes view s) t), s) := by
  induction t with
  | mk n cs ih =>
    obtain ⟨takes, below⟩ := isTerm_mk.mp term
    have children := fun c member => ih c member (below c member)
    have operands := exprTypes_run children
    -- the operands of an assignment and of a comparison are looked at for nothing
    have pair : ∀ a ∈ cs, ∀ b ∈ cs, (do
        let _ ← exprType env view .peek a
        let _ ← exprType env view .peek b
        pure .int8 : Infer TypeTag).run s = (.ok .int8, s) := by
      intro a inside b inside'
      rw [run_bind, children a inside]
      dsimp only
      rw [run_bind, children b inside']
      rfl
    suffices node : (nodeType env view .peek n cs).run s =
        (.ok (typeBy env (readTypes view s) (.mk n cs)), s) by
      rw [exprType_eq, run_bind, node]
      rfl
    rw [typeBy_mk, nodeType.eq_def, nodeRule.eq_def]
    split
    · next content => rw [content]; rfl
    · next v content =>
      rw [content, variableType_run fits]
      exact congrArg (fun r => (Except.ok r, s)) (readTypes_var content).symm
    · next l content => rw [content]; rfl
    · next c content =>
      rw [content, run_bind, operands]
      dsimp only
      rw [callType_run, map_snd_zip (by simp)]
    · next content =>
      rw [content] at takes ⊢
      obtain ⟨a, b, rfl⟩ := length_eq_two.mp takes
      dsimp only
      rw [lastType_two, firstType_two, operatorRule_number (.inl rfl)]
      exact pair b (by simp) a (by simp)
    · next o notAssign content =>
      rw [content] at takes ⊢
      dsimp only [operatorType]
      split
      · next logical =>
        rw [run_bind, operands, operatorRule_number (.inr (.inl logical))]
        rfl
      split
      · next comparison =>
        obtain ⟨a, b, rfl⟩ := length_eq_two.mp (takes_of_comparison comparison takes)
        rw [lastType_two, firstType_two, operatorRule_number (.inr (.inr comparison))]
        exact pair a (by simp) b (by simp)
      · next notLogical notComparison =>
        rw [run_bind, operands, operatorRule_arithmetic notAssign notLogical notComparison]
        exact arithmeticType_run n o _ s
    · next noError noVar noLiteral noCall _ noOp =>
      exfalso
      cases content : n.content <;> simp_all [Content.Takes]

/-- The variables of an expression are read with the types of their definitions. -/
def ReadsAs (view : VarView) (s : Typing) (τ : NodeId → TypeTag) (t : Tree) : Prop :=
  ∀ u ∈ t.visited, ∀ v, u.content = .var v → typeIn view s u.node v = τ (v.definition.getD u.id)

/-- The type that is found is the one from the types of definitions. -/
theorem typeBy_readTypes (term : t.IsTerm) (reads : ReadsAs view s τ t) :
    typeBy env (readTypes view s) t = typeFrom env τ t := by
  refine typeBy_eq_typeFrom term fun u visits v content => ?_
  rw [readTypes_var content]
  exact reads u visits v content

/-- Looking at the type of an expression whose variables are resolved. -/
theorem exprType_resolved (term : t.IsTerm) (s : Typing) :
    (exprType env .resolved .peek t).run s = (.ok (typeFrom env s.typeAt t), s) := by
  rw [exprType_run term (show VarView.Fits s .resolved from trivial),
    typeBy_readTypes (τ := s.typeAt) term fun _ _ _ _ => rfl]

theorem arithmeticRule_any (o : Operator) (unknown : ∀ t ∈ types, t = .any) :
    arithmeticRule o types = .any := by
  have joined : types.foldl unify .any = .any := by
    induction types with
    | nil => rfl
    | cons t ts ih =>
      rw [foldl_cons, unknown t (by simp), show unify .any .any = .any from rfl]
      exact ih (forall_mem_cons.mp unknown).2
  have noneFails : types.contains .notAType = false := by
    rw [contains_eq_mem, decide_eq_false_iff_not]
    intro member
    cases unknown _ member
  rw [arithmeticRule, noneFails, arithmetic, joined]
  rfl

/-- An arithmetic expression whose atoms are variables of unknown type is of unknown type. -/
theorem typeBy_any (unknown : ∀ w ∈ t.atoms, w.kind = .var ∧ ρ w.node = .any) :
    typeBy env ρ t = .any := by
  induction t with
  | mk n cs ih =>
    rw [atoms_mk] at unknown
    rw [typeBy_mk, nodeRule.eq_def]
    split at unknown
    · next arithmetic =>
      obtain ⟨o, content, isArithmetic⟩ := op_of_isArithmetic arithmetic
      rw [content]
      dsimp only
      rw [operatorRule_arithmetic (by rintro rfl; cases isArithmetic)
        (by cases o <;> simp_all [Operator.isArithmetic, Operator.isLogical])
        (by cases o <;> simp_all [Operator.isArithmetic, Operator.isComparison])]
      refine arithmeticRule_any o fun type member => ?_
      obtain ⟨c, inside, rfl⟩ := mem_map.mp member
      exact ih c inside fun w atom => unknown w (mem_flatMap.mpr ⟨c, inside, atom⟩)
    · obtain ⟨isVar, free⟩ := unknown _ (mem_singleton_self _)
      obtain ⟨v, content⟩ := content_of_var isVar
      rw [show n.content = .var v from content]
      exact free

/-- An expression of known type has an atom that is no variable, or a variable of known type. -/
theorem exists_atom_of_typeBy (known : typeBy env ρ t ≠ .any) :
    ∃ w ∈ t.atoms, w.kind = .var → ρ w.node ≠ .any := by
  refine Classical.byContradiction fun none => known (typeBy_any fun w atom => ?_)
  simpa using fun source => none ⟨w, atom, source⟩

end Infer

end TaskNet
