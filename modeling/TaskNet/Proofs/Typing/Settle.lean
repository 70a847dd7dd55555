import TaskNet.Proofs.Typing.Global

/-!
Settling types. The types of parameters and of binding occurrences are anchors: settling an
expression leaves them as they are and takes the types of all variables from them. When nothing is
reported, every node of the expression gets a concrete type and every call its declaration or its
overload, and the operands of every node pass the checks that are made of them.
-/

namespace TaskNet

open List Tree TypeTag Typing

variable {o : Operator} {t : Tree}

namespace Typing

variable {u : Tree}

/-- Types change at given nodes only, and never at anchors; overloads change at given nodes only. -/
structure Confined (A S : NodeId → Prop) (s s' : Typing) : Prop where
  typeSize : s'.types.size = s.types.size
  overloadSize : s'.signatures.size = s.signatures.size
  types : ∀ x, A x ∨ ¬ S x → s'.typeAt x = s.typeAt x
  overloads : ∀ x, ¬ S x → s'.overloadAt x = s.overloadAt x

/-- What defines the variables of trees has concrete types, and the tables have room for all nodes.
-/
structure Firm (bound : Nat) (ts : List Tree) (s : Typing) : Prop where
  vars : ∀ t ∈ ts, ∀ u ∈ t.visited, ∀ v, u.content = .var v →
    (s.typeAt (v.definition.getD u.id)).isConcrete = true
  typeSize : s.types.size = bound
  overloadSize : s.signatures.size = bound

def operandTypes (s : Typing) (u : Tree) : List TypeTag :=
  u.children.map fun c => s.typeAt c.id

/-- A node with a concrete type, which the rules give from those of its operands: a call without a
declaration has the overload that its arguments resolve to. -/
structure Settled (env : TypingContext) (s : Typing) (u : Tree) : Prop where
  concrete : (s.typeAt u.id).isConcrete = true
  rule : s.typeAt u.id = Infer.nodeRule env s.typeAt u.node (s.operandTypes u)
  overload : ∀ c, u.content = .call c → c.decl = none → ∃ sig, s.overloadAt u.id = some sig ∧
    env.functions.resolve c.name (s.operandTypes u) = .ok sig

/-- A node whose operands were checked when its type was found. The arguments of a call join with
the parameters of what is declared, unless nothing is known of those, and so do the sides of an
assignment with each other. -/
structure Checked (env : TypingContext) (s : Typing) (u : Tree) : Prop where
  arguments : ∀ site, env.declaration? u.content = some site → ∀ pair ∈ u.children.zip site.params,
    s.typeAt pair.2.id ≠ .any → (s.typeAt pair.1.id).unify (s.typeAt pair.2.id) ≠ .notAType
  sides : u.content = .op .assign → ∀ target value, u.children = [target, value] →
    (s.typeAt target.id).unify (s.typeAt value.id) ≠ .notAType

/-- A node of an expression among anchors: a variable is defined by an anchor, what is called has
anchors as its parameters, and only a variable that defines itself is an anchor. -/
structure Grounded (env : TypingContext) (A : NodeId → Prop) (u : Tree) : Prop where
  defined : ∀ v, u.content = .var v → A (v.definition.getD u.id)
  called : ∀ site, env.declaration? u.content = some site → ∀ q ∈ site.params, A q.id
  anchor : A u.id → ∃ v, u.content = .var v ∧ v.definition = none

def CallsFact (env : TypingContext) (u : Tree) : Prop :=
  ∀ c d, u.content = .call c → c.decl = some d → ∃ s, env.site? d = some s ∧ s.isWorldFact = true

variable {A S S' : NodeId → Prop} {s s' s'' : Typing} {bound : Nat} {env : TypingContext}

/-- A settled node is not erroneous. -/
theorem Settled.sound (settled : Settled env s u) : u.kind ≠ .error := by
  intro error
  obtain ⟨was, problem, content⟩ := content_of_error error
  have rule := settled.rule
  rw [Infer.nodeRule.eq_def, show u.node.content = .error was problem from content] at rule
  have concrete := settled.concrete
  rw [rule] at concrete
  cases concrete

theorem Settled.var (settled : Settled env s u) (v : Variable) (content : u.content = .var v) :
    s.typeAt u.id = s.typeAt (v.definition.getD u.id) := by
  have rule := settled.rule
  rw [Infer.nodeRule.eq_def, show u.node.content = .var v from content] at rule
  exact rule

theorem Settled.call (settled : Settled env s u) (c : Invocation) (content : u.content = .call c) :
    c.decl ≠ none ∨
      ∃ sig, s.overloadAt u.id = some sig ∧ sig.result = s.typeAt u.id := by
  by_cases declared : c.decl = none
  · obtain ⟨sig, chosen, resolved⟩ := settled.overload c content declared
    refine .inr ⟨sig, chosen, ?_⟩
    rw [settled.rule, Infer.nodeRule.eq_def, show u.node.content = .call c from content]
    simp [Infer.callRule, declared, resolved]
  · exact .inl declared

/-- A settled expression has the type that the rules give. -/
theorem typeAt_of_settled (settled : t.Throughout (Settled env s)) :
    s.typeAt t.id = Infer.typeFrom env s.typeAt t := by
  induction t with
  | mk n cs ih =>
    have here := Throughout.here settled
    rw [Infer.typeFrom_mk, here.rule]
    congr 1
    exact map_congr_left fun c member => ih c member (Throughout.below settled here.sound member)

theorem Firm.sub {ts us : List Tree} (firm : Firm bound us s) (subset : ts ⊆ us) :
    Firm bound ts s :=
  ⟨fun t member => firm.vars t (subset member), firm.typeSize, firm.overloadSize⟩

theorem Firm.operands {n : Node} {cs : List Tree} (firm : Firm bound [.mk n cs] s)
    (sound : n.kind ≠ .error) : Firm bound cs s :=
  ⟨fun _ member u visits => firm.vars _ (mem_singleton_self _) u
    (mem_visited_child sound member visits), firm.typeSize, firm.overloadSize⟩

namespace Confined

theorem refl (s : Typing) : Confined A S s s :=
  ⟨rfl, rfl, fun _ _ => rfl, fun _ _ => rfl⟩

theorem trans (first : Confined A S s s') (second : Confined A S s' s'') : Confined A S s s'' :=
  ⟨second.typeSize.trans first.typeSize, second.overloadSize.trans first.overloadSize,
    fun x kept => (second.types x kept).trans (first.types x kept),
    fun x kept => (second.overloads x kept).trans (first.overloads x kept)⟩

theorem mono (wider : ∀ x, S x → S' x) (confined : Confined A S s s') : Confined A S' s s' :=
  ⟨confined.typeSize, confined.overloadSize,
    fun x kept => confined.types x (kept.imp_right fun outside inside => outside (wider x inside)),
    fun x outside => confined.overloads x fun inside => outside (wider x inside)⟩

theorem firm {ts : List Tree} (confined : Confined A S s s')
    (grounded : ∀ t ∈ ts, t.Throughout (Grounded env A)) (firm : Firm bound ts s) :
    Firm bound ts s' := by
  refine ⟨fun t member u visits v content => ?_, confined.typeSize.trans firm.typeSize,
    confined.overloadSize.trans firm.overloadSize⟩
  rw [confined.types _ (.inl ((grounded t member u visits).defined v content))]
  exact firm.vars t member u visits v content

/-- What is settled stays settled when other nodes change. -/
theorem settled (confined : Confined A S s s') (settled : Settled env s u)
    (grounded : Grounded env A u) (outside : ∀ w ∈ u.visited, ¬ S w.id) : Settled env s' u := by
  have own := outside u (mem_visited_self u)
  have type := confined.types u.id (.inr own)
  have operands : s'.operandTypes u = s.operandTypes u :=
    map_congr_left fun c member => confined.types c.id
      (.inr (outside c (mem_visited_child settled.sound member (mem_visited_self c))))
  refine ⟨type.symm ▸ settled.concrete, ?_, fun c content declared => ?_⟩
  · rw [type, operands, settled.rule]
    refine Infer.nodeRule_congr _ fun v content => ?_
    exact (confined.types _ (.inl (grounded.defined v content))).symm
  · rw [operands, confined.overloads u.id own]
    exact settled.overload c content declared

/-- What was checked stands when other nodes change. -/
theorem checked (confined : Confined A S s s') (checked : Checked env s u)
    (grounded : Grounded env A u) (outside : ∀ w ∈ u.visited, ¬ S w.id) : Checked env s' u := by
  have operand : u.kind ≠ .error → ∀ c ∈ u.children, s'.typeAt c.id = s.typeAt c.id :=
    fun sound c member => confined.types c.id
      (.inr (outside c (mem_visited_child sound member (mem_visited_self c))))
  refine ⟨fun site declared pair zipped => ?_, fun assigns target value both => ?_⟩
  · obtain ⟨arg, param⟩ := of_mem_zip zipped
    have call : u.kind = .call := Infer.kind_of_declaration? declared
    rw [operand (by simp [call]) _ arg,
      confined.types _ (.inl (grounded.called site declared _ param))]
    exact checked.arguments site declared pair zipped
  · have sound : u.kind ≠ .error := by
      rw [show u.kind = .op .assign from congrArg Content.kind assigns]
      decide
    rw [operand sound target (by simp [both]), operand sound value (by simp [both])]
    exact checked.sides assigns target value both

end Confined

end Typing

namespace Infer

variable {A : NodeId → Prop} {bound : Nat} {env : TypingContext} {T : Prop}
variable {cs ts : List Tree} {s s' : Typing} {t : Tree} {rs : List TypeTag} {r : TypeTag} {n : Node}

theorem reportArguments_yields (name : String) (args : List (Tree × TypeTag))
    (params : List TypeTag) : Yields T (reportArguments name args params) fun s _ s' => s' = s ∧
      ∀ pair ∈ (args.map Prod.snd).zip params, pair.1.wideningCost pair.2 ≠ none := by
  induction args generalizing params with
  | nil =>
    rw [reportArguments.eq_def]
    exact .pure fun s => ⟨rfl, by simp⟩
  | cons arg args ih =>
    cases params with
    | nil => exact .pure fun s => ⟨rfl, by simp⟩
    | cons param params =>
      rw [reportArguments]
      split
      · exact report_seq_yields fun _ => (ih params).imp fun _ _ _ _ => trivial
      · next converts =>
        refine (ih params).imp fun s _ s' run => ⟨run.1, ?_⟩
        exact forall_mem_cons.mpr ⟨by simpa using converts, run.2⟩

/-- A call that does not resolve is reported, unless an argument is no type. -/
theorem reportCall_yields {loc : Location} {name : String} {args : List (Tree × TypeTag)}
    {e : ResolveError} (failed : env.functions.resolve name (args.map Prod.snd) = .error e) :
    Yields T (reportCall env.functions loc name args) fun s _ s' => s' = s ∧
      ∃ a ∈ args, a.2 = .notAType := by
  rw [reportCall]
  split
  · next poisoned =>
    obtain ⟨a, member, same⟩ := any_eq_true.mp poisoned
    exact .pure fun s => ⟨rfl, a, member, by simpa using same⟩
  · split
    · next sig single =>
      obtain ⟨registered, arity⟩ := mem_filter.mp (single ▸ mem_singleton_self sig)
      have fails := OverloadTable.resolve_error failed sig registered
      obtain ⟨pair, member, none⟩ := OverloadTable.exists_of_costOf fails
        (by simpa using arity)
      exact (reportArguments_yields name args sig.params).imp fun _ _ _ run =>
        absurd none (run.2 pair member)
    · exact report_yields _ _ _

/-- When nothing is reported, arguments join with their parameters. -/
theorem checkArguments_yields (name : String) (args : List (Tree × TypeTag)) (params : List Tree) :
    Yields T (checkArguments name args params) fun s _ s' => s' = s ∧
      ∀ pair ∈ args.zip params, pair.1.2 ≠ .notAType → s.typeAt pair.2.id ≠ .any →
        pair.1.2.unify (s.typeAt pair.2.id) ≠ .notAType := by
  induction args generalizing params with
  | nil =>
    rw [checkArguments.eq_def]
    exact .pure fun s => ⟨rfl, by simp⟩
  | cons arg args ih =>
    cases params with
    | nil => exact .pure fun s => ⟨rfl, by simp⟩
    | cons param params =>
      rw [checkArguments]
      refine .seq (typeOf_yields _) fun want => ?_
      split
      · exact report_seq_yields fun _ => (ih params).imp fun _ _ _ _ => trivial
      · next joins =>
        refine (ih params).imp ?_
        rintro s _ s' ⟨rfl, rest⟩ _ ⟨rfl, rfl⟩
        refine ⟨rfl, forall_mem_cons.mpr ⟨fun typed known => ?_, rest⟩⟩
        simpa [typed, known] using joins

theorem checkLogical_yields (o : Operator) (args : List (Tree × TypeTag)) :
    Yields T (checkLogical o args) fun s _ s' => s' = s := by
  induction args with
  | nil => exact .pure fun s => rfl
  | cons arg args ih =>
    rw [checkLogical]
    split
    · exact report_seq_yields fun _ => ih.imp fun _ _ _ _ => trivial
    · exact ih

/-- When nothing is reported, the sides of an assignment join. -/
theorem checkAssignment_yields (given : cs ≠ []) (target value : TypeTag) :
    Yields T (checkAssignment cs target value) fun s _ s' => s' = s ∧
      (value ≠ .notAType → target.unify value ≠ .notAType) := by
  rw [checkAssignment.eq_def]
  split
  · contradiction
  · split
    · exact report_yields _ _ _
    · next joins => exact .pure fun s => ⟨rfl, fun typed => by simpa [typed] using joins⟩

/-- Of the overloads at most that of one node changes. -/
structure Signed (x : NodeId) (s s' : Typing) : Prop where
  types : s'.types = s.types
  size : s'.signatures.size = s.signatures.size
  others : ∀ y, y ≠ x → s'.overloadAt y = s.overloadAt y

theorem Signed.refl (x : NodeId) (s : Typing) : Signed x s s :=
  ⟨rfl, rfl, fun _ _ => rfl⟩

theorem setSignature_yields (x : NodeId) (sig : Signature) :
    Yields T (setSignature x sig) fun s _ s' => Signed x s s' ∧
      (x < s.signatures.size → s'.overloadAt x = some sig) := by
  refine .update (fun _ => ⟨rfl, rfl⟩) fun s => ⟨⟨rfl, Array.size_setIfInBounds, fun y other => ?_⟩,
    fun inside => ?_⟩
  · exact congrArg Option.join (Array.getElem?_setIfInBounds_ne other.symm)
  · change ((s.signatures.setIfInBounds x (some sig))[x]?).join = some sig
    simp [inside]

/-- A call whose arguments have concrete types gets one too, unless it is no call of a fact. -/
theorem callType_settles (concrete : env.functions.Concrete) (n : Node) (c : Invocation)
    (args : List (Tree × TypeTag)) :
    Yields T (callType env .settle n c args) fun s r s' => Signed n.id s s' ∧
      (∀ site, env.declaration? (.call c) = some site → ∀ pair ∈ args.zip site.params,
        pair.1.2 ≠ .notAType → s.typeAt pair.2.id ≠ .any →
          pair.1.2.unify (s.typeAt pair.2.id) ≠ .notAType) ∧
      ((∀ a ∈ args, a.2.isConcrete = true) → n.id < s.signatures.size →
        (∀ d, c.decl = some d → ∃ site, env.site? d = some site ∧ site.isWorldFact = true) →
        r.isConcrete = true ∧ r = callRule env c (args.map Prod.snd) ∧
          (c.decl = none → ∃ sig, s'.overloadAt n.id = some sig ∧
            env.functions.resolve c.name (args.map Prod.snd) = .ok sig)) := by
  rw [callType]
  split
  · next d declared =>
    split
    · next site found =>
      simp only [if_true]
      refine .seq (checkArguments_yields _ args _) fun _ => .pure ?_
      rintro s' s ⟨rfl, joins⟩
      refine ⟨.refl _ _, fun other same => ?_, fun _ _ facts => ⟨?_, ?_, by simp [declared]⟩⟩
      · rw [TypingContext.declaration?, declared] at same
        rw [← Option.some.inj (found.symm.trans same)]
        exact joins
      · obtain ⟨other, same, isFact⟩ := facts d declared
        rw [Option.some.inj (found.symm.trans same), if_pos isFact]
        rfl
      · simp [callRule, declared, found]
    · next missing =>
      refine .pure fun s => ⟨.refl _ _, fun other same => ?_, fun _ _ facts => ?_⟩
      · rw [TypingContext.declaration?, declared] at same
        exact absurd (missing.symm.trans same) (by simp)
      · obtain ⟨other, same, _⟩ := facts d declared
        rw [missing] at same
        cases same
  · next undeclared =>
    have nothing : ∀ site, env.declaration? (.call c) ≠ some site := fun site same => by
      rw [TypingContext.declaration?, undeclared] at same
      cases same
    split
    · next sig resolved =>
      simp only [if_true]
      refine .seq (setSignature_yields n.id sig) fun _ => .pure fun s' s run =>
        ⟨run.1, fun site same => absurd same (nothing site), fun _ inside _ =>
          ⟨concrete.resolve resolved, ?_, fun _ => ⟨sig, run.2 inside, resolved⟩⟩⟩
      simp [callRule, undeclared, resolved]
    · next failed =>
      simp only [if_true]
      refine .seq (reportCall_yields failed) fun _ => .pure ?_
      rintro s' s ⟨rfl, a, member, poisoned⟩
      refine ⟨.refl _ _, fun site same => absurd same (nothing site), fun typed _ _ => ?_⟩
      exact absurd poisoned (isConcrete_ne_notAType (typed a member))

/-- An arithmetic operation on operands with concrete types gets one too. -/
theorem arithmeticType_settles (n : Node) (o : Operator) (types : List TypeTag) :
    Yields T (arithmeticType .settle n o types) fun s r s' => s' = s ∧ r = arithmeticRule o types ∧
      (types ≠ [] → (∀ t ∈ types, t.isConcrete = true) → r.isConcrete = true) := by
  rw [arithmeticType, arithmeticRule]
  split
  · next poisoned =>
    refine .pure fun s => ⟨rfl, rfl, fun _ typed => ?_⟩
    exact typed .notAType (by simpa using poisoned)
  · split
    · next u found =>
      refine .pure fun s => ⟨rfl, by rw [found]; rfl, fun given typed => ?_⟩
      obtain ⟨known, rfl⟩ := arithmetic_known found
      obtain ⟨t, member⟩ := exists_mem_of_ne_nil types given
      exact known.concrete (foldl_unify_ne_any
        (.inr ⟨t, member, isConcrete_ne_any (typed t member)⟩))
    · simp only [if_true]
      exact report_seq_yields fun _ => .pure fun _ => trivial

theorem takes_of_arithmetic (notLogical : ¬ o.isLogical = true) {k : Nat}
    (takes : o.Takes k) : k ≠ 0 := by
  rintro rfl
  cases o <;> first | exact notLogical rfl | cases takes

def OfNodes (ts : List Tree) (x : NodeId) : Prop :=
  ∃ t ∈ ts, ∃ u ∈ t.visited, u.id = x

/-- An expression whose nodes are checked and settled, itself only if it does not call something
other than a fact: an entry of a task list calls a task or a primitive. -/
structure Done (env : TypingContext) (s : Typing) (t : Tree) : Prop where
  settled : t.Throughout fun u => (u = t → CallsFact env t) → Settled env s u
  checked : t.Throughout (Checked env s)

theorem Done.all (done : Done env s t) (fact : CallsFact env t) : t.Throughout (Settled env s) :=
  fun u visits => done.settled u visits fun _ => fact

variable (env) in
def Settles (A : NodeId → Prop) (bound : Nat) (t : Tree) (s : Typing) (r : TypeTag) (s' : Typing) :
    Prop :=
  Confined A (OfNodes [t]) s s' ∧
    (Firm bound [t] s → r = s'.typeAt t.id ∧ Done env s' t)

variable (env) in
def SettlesAll (A : NodeId → Prop) (bound : Nat) (ts : List Tree) (s : Typing) (rs : List TypeTag)
    (s' : Typing) : Prop :=
  Confined A (OfNodes ts) s s' ∧
    (Firm bound ts s → rs = ts.map (fun t => s'.typeAt t.id) ∧ ∀ t ∈ ts, Done env s' t)

/-- Expressions are settled one after the other. -/
theorem SettlesAll.append {us : List Tree} {s'' : Typing} {qs : List TypeTag}
    (first : SettlesAll env A bound ts s rs s') (second : SettlesAll env A bound us s' qs s'')
    (grounded : ∀ t ∈ ts ++ us, t.Throughout (Grounded env A))
    (apart : ∀ t ∈ ts, ∀ u ∈ us, t.Apart u) :
    SettlesAll env A bound (ts ++ us) s (rs ++ qs) s'' := by
  have outside : ∀ t ∈ ts, ∀ u ∈ t.visited, ¬ OfNodes us u.id :=
    fun t member u visits ⟨w, inside, b, below, same⟩ =>
      (apart t member w inside).visited visits below same.symm
  refine ⟨?_, fun firm => ?_⟩
  · refine (first.1.mono fun x => ?_).trans (second.1.mono fun x => ?_)
    · rintro ⟨t, member, rest⟩
      exact ⟨t, by simp [member], rest⟩
    · rintro ⟨t, member, rest⟩
      exact ⟨t, by simp [member], rest⟩
  · obtain ⟨types, settled⟩ := first.2 (firm.sub (by simp))
    obtain ⟨later, below⟩ := second.2 (first.1.firm (fun u member => grounded u (by simp [member]))
      (firm.sub (by simp)))
    refine ⟨?_, fun t member => ?_⟩
    · rw [map_append, ← later, types]
      congr 1
      refine map_congr_left fun t member => ?_
      exact (second.1.types t.id (.inr (outside t member t (mem_visited_self t)))).symm
    · rcases mem_append.mp member with before | after
      · exact ⟨fun u visits fact => second.1.settled ((settled t before).settled u visits fact)
            (grounded t member u visits)
            fun w inner => outside t before w (visited_trans visits inner),
          fun u visits => second.1.checked ((settled t before).checked u visits)
            (grounded t member u visits)
            fun w inner => outside t before w (visited_trans visits inner)⟩
      · exact below t after

theorem Settles.one (settles : Settles env A bound t s r s') :
    SettlesAll env A bound [t] s [r] s' := by
  refine ⟨settles.1, fun firm => ?_⟩
  obtain ⟨same, settled⟩ := settles.2 firm
  exact ⟨by simp [same], by simpa using settled⟩

theorem exprTypes_settles
    (each : ∀ t ∈ ts, Yields T (exprType env .resolved .settle t) (Settles env A bound t))
    (grounded : ∀ t ∈ ts, t.Throughout (Grounded env A)) (apart : ts.Pairwise Apart) :
    Yields T (exprTypes env .resolved .settle ts) (SettlesAll env A bound ts) := by
  induction ts with
  | nil => exact .pure fun s => ⟨.refl s, fun _ => ⟨rfl, by simp⟩⟩
  | cons t ts ih =>
    rw [pairwise_cons] at apart
    rw [exprTypes]
    refine .seq (each t (by simp)) fun r => .seq (ih (forall_mem_cons.mp each).2
      (forall_mem_cons.mp grounded).2 apart.2) fun rs => .pure ?_
    intro s'' s' rest s first
    exact first.one.append rest grounded (by simpa using apart.1)

/-- What is known of a node before its own type is stored: its operands are settled and checked, and
the type found for it fits. -/
structure NodeSettles (env : TypingContext) (A : NodeId → Prop) (bound : Nat) (n : Node)
    (cs : List Tree) (s : Typing) (r : TypeTag) (s' : Typing) : Prop where
  below : ∃ s₁, Confined A (OfNodes cs) s s₁ ∧ Signed n.id s₁ s' ∧
    (Firm bound [.mk n cs] s → ∀ c ∈ cs, c.Throughout (Settled env s₁) ∧
    c.Throughout (Checked env s₁))
  checked : Firm bound [.mk n cs] s → Checked env s' (.mk n cs)
  var : ∀ v, n.content = .var v → r = s'.typeAt (v.definition.getD n.id)
  typed : Firm bound [.mk n cs] s → CallsFact env (.mk n cs) → r.isConcrete = true ∧
    r = nodeRule env s'.typeAt n (s'.operandTypes (.mk n cs)) ∧
    ∀ c, n.content = .call c → c.decl = none → ∃ sig, s'.overloadAt n.id = some sig ∧
      env.functions.resolve c.name (s'.operandTypes (.mk n cs)) = .ok sig

theorem NodeSettles.size (settles : NodeSettles env A bound n cs s r s') :
    s'.types.size = s.types.size := by
  obtain ⟨s₁, confined, signed, _⟩ := settles.below
  rw [signed.types]
  exact confined.typeSize

/-- Storing the type of a node settles it and keeps what is below it settled. -/
theorem NodeSettles.store (settles : NodeSettles env A bound n cs s r s')
    (grounded : (Tree.mk n cs).Throughout (Grounded env A)) (sound : n.kind ≠ .error)
    (distinct : (Tree.mk n cs).Distinct) (room : n.id < bound) :
    Settles env A bound (Tree.mk n cs) s r (s'.putType n.id r) := by
  obtain ⟨s₁, confined, signed, settled⟩ := settles.below
  have here := Throughout.here grounded
  have before : ∀ x, s'.typeAt x = s₁.typeAt x := fun x => by rw [typeAt, signed.types]; rfl
  have own : Confined A (fun x => n.id = x) s₁ (s'.putType n.id r) := by
    refine ⟨?_, signed.size, fun x kept => ?_, fun x other => signed.others x fun same =>
      other same.symm⟩
    · exact Array.size_setIfInBounds.trans (congrArg Array.size signed.types)
    · rw [typeAt_putType, ← before]
      split
      · next same =>
        -- an anchor defines itself
        obtain rfl := same.1
        obtain ⟨v, content, definition⟩ := here.anchor (kept.resolve_right (by simp))
        rw [settles.var v content, definition]
        rfl
      · rfl
  have wider : ∀ x, OfNodes cs x → OfNodes [Tree.mk n cs] x := by
    rintro x ⟨c, member, u, visits, same⟩
    exact ⟨_, mem_singleton_self _, u, mem_visited_child sound member visits, same⟩
  refine ⟨(confined.mono wider).trans (own.mono ?_), fun firm => ?_⟩
  · rintro x rfl
    exact ⟨_, mem_singleton_self _, _, mem_visited_self _, rfl⟩
  · have stored : (s'.putType n.id r).typeAt n.id = r := by
      rw [typeAt_putType, if_pos ⟨rfl, by rw [settles.size, firm.typeSize]; exact room⟩]
    have apart : ∀ c ∈ cs, ∀ u ∈ c.visited, ∀ w ∈ u.visited, n.id ≠ w.id :=
      fun c member u visits w inner same =>
      distinct.own member (visited_trans visits inner) same.symm
    have operand : ∀ c ∈ cs, (s'.putType n.id r).typeAt c.id = s'.typeAt c.id := fun c member =>
      typeAt_putType_ne fun same => distinct.own member (mem_visited_self c) same.symm
    refine ⟨stored.symm, throughout_mk.mpr ⟨fun fact => ?_, fun _ c member u visits _ => ?_⟩,
      throughout_mk.mpr ⟨?_, fun _ c member u visits => ?_⟩⟩
    · obtain ⟨concrete, rule, overload⟩ := settles.typed firm (fact rfl)
      have operands : (s'.putType n.id r).operandTypes (.mk n cs) = s'.operandTypes (.mk n cs) :=
        map_congr_left operand
      refine ⟨stored.symm ▸ concrete, ?_,
        fun c content declared => operands ▸ overload c content declared⟩
      rw [operands]
      refine stored.trans (rule.trans (nodeRule_congr _ fun v content => ?_))
      exact (before _).trans (own.types _ (.inl (here.defined v content))).symm
    · exact own.settled ((settled firm c member).1 u visits)
        (Throughout.below grounded sound member u visits) (apart c member u visits)
    · refine ⟨fun site declared pair zipped => ?_, fun assigns target value both => ?_⟩
      · obtain ⟨arg, param⟩ := of_mem_zip zipped
        rw [operand _ arg, own.types _ (.inl (here.called site declared _ param)), ← before]
        exact (settles.checked firm).arguments site declared pair zipped
      · obtain rfl : cs = [target, value] := both
        rw [operand target (by simp), operand value (by simp)]
        exact (settles.checked firm).sides assigns target value rfl
    · exact own.checked ((settled firm c member).2 u visits)
        (Throughout.below grounded sound member u visits) (apart c member u visits)

/-- The types of settled expressions are concrete. -/
theorem SettlesAll.concrete (all : SettlesAll env A bound ts s rs s')
    (facts : ∀ t ∈ ts, CallsFact env t) (firm : Firm bound ts s) :
    ∀ r ∈ rs, r.isConcrete = true := by
  obtain ⟨rfl, done⟩ := all.2 firm
  intro r member
  obtain ⟨t, inside, rfl⟩ := mem_map.mp member
  exact (Throughout.here ((done t inside).all (facts t inside))).concrete

/-- A node whose operands are settled, in any order, and that is no name. -/
theorem SettlesAll.node (all : SettlesAll env A bound ts s rs s') (same : ∀ t, t ∈ cs ↔ t ∈ ts)
    (sound : n.kind ≠ .error) (facts : ∀ t ∈ cs, CallsFact env t)
    (typed : Firm bound ts s → r.isConcrete = true ∧
      r = nodeRule env s'.typeAt n (s'.operandTypes (.mk n cs)))
    (sides : Firm bound ts s → n.content = .op .assign → ∀ target value, cs = [target, value] →
      (s'.typeAt target.id).unify (s'.typeAt value.id) ≠ .notAType)
    (notCall : n.content.kind ≠ .call) (notVar : n.content.kind ≠ .var) :
    NodeSettles env A bound n cs s r s' := by
  have operands : Firm bound [.mk n cs] s → Firm bound ts s := fun firm =>
    (firm.operands sound).sub fun t member => (same t).mpr member
  have done : Firm bound [.mk n cs] s → ∀ c ∈ cs, Done env s' c := fun firm c member =>
    (all.2 (operands firm)).2 c ((same c).mp member)
  refine ⟨⟨s', all.1.mono ?_, .refl _ _, fun firm c member =>
      ⟨(done firm c member).all (facts c member), (done firm c member).checked⟩⟩,
    fun firm => ⟨fun site declared => ?_, sides (operands firm)⟩,
    fun v content => absurd (by rw [content]; rfl) notVar,
    fun firm _ => ⟨(typed (operands firm)).1, (typed (operands firm)).2,
      fun c content => absurd (by rw [content]; rfl) notCall⟩⟩
  · rintro x ⟨t, member, rest⟩
    exact ⟨t, (same t).mpr member, rest⟩
  · exact absurd (kind_of_declaration? declared) notCall

/-- Arguments stand beside their parameters with any types. -/
theorem mem_zip_typed {params : List Tree} {f : Tree → TypeTag} {pair : Tree × Tree}
    (zipped : pair ∈ cs.zip params) :
    ((pair.1, f pair.1), pair.2) ∈ (cs.zip (cs.map f)).zip params := by
  induction cs generalizing params with
  | nil => cases zipped
  | cons c cs ih =>
    cases params with
    | nil => cases zipped
    | cons param params =>
      rcases mem_cons.mp zipped with rfl | rest
      · exact mem_cons_self
      · exact mem_cons_of_mem _ (ih rest)

/-- A variable has the type of its definition. -/
theorem variable_settles {v : Variable} (content : n.content = .var v) :
    Yields T (variableType .resolved n v) (NodeSettles env A bound n []) := by
  refine (typeOf_yields _).imp ?_
  rintro s r _ ⟨rfl, rfl⟩
  refine ⟨⟨_, .refl _, .refl _ _, by simp⟩, fun _ => ⟨by simp, by simp⟩, fun w isVar => ?_,
    fun firm _ => ⟨?_, ?_, fun c isCall => ?_⟩⟩
  · rw [content] at isVar
    cases isVar
    rfl
  · exact firm.vars _ (mem_singleton_self _) _ (mem_visited_self _) v content
  · rw [nodeRule.eq_def, content]
  · rw [content] at isCall
    cases isCall

section Operands

variable (facts : ∀ c ∈ cs, CallsFact env c) (sound : n.kind ≠ .error)
include facts sound

theorem literal_settles {l : Literal} (content : n.content = .literal l) (empty : cs = []) :
    Yields T (pure l.type) (NodeSettles env A bound n cs) := by
  subst empty
  refine .pure fun s => ?_
  have nothing : SettlesAll env A bound [] s [] s := ⟨.refl s, fun _ => ⟨rfl, by simp⟩⟩
  exact nothing.node (fun _ => Iff.rfl) sound facts
    (fun _ => ⟨literal_concrete l, by rw [nodeRule.eq_def, content]⟩) (by simp)
    (by simp [content, Content.kind]) (by simp [content, Content.kind])

/-- A call of a declaration is checked against its parameters, and any other gets an overload. -/
theorem call_settles (concrete : env.functions.Concrete) {c : Invocation}
    (content : n.content = .call c)
    (all : Yields T (exprTypes env .resolved .settle cs) (SettlesAll env A bound cs))
    (room : n.id < bound) :
    Yields T (exprTypes env .resolved .settle cs >>=
      fun types => callType env .settle n c (cs.zip types)) (NodeSettles env A bound n cs) := by
  refine .seq all fun types => (callType_settles concrete n c _).imp ?_
  rintro s' r s'' ⟨signed, joins, typed⟩ s settles
  have done : Firm bound [.mk n cs] s → _ := fun firm => settles.2 (firm.operands sound)
  refine ⟨⟨s', settles.1, signed, fun firm c member =>
      ⟨((done firm).2 c member).all (facts c member), ((done firm).2 c member).checked⟩⟩,
    fun firm => ⟨fun site declared pair zipped known => ?_, fun assigns => ?_⟩,
    fun w isVar => ?_, fun firm fact => ?_⟩
  · have same : ∀ x, s''.typeAt x = s'.typeAt x := fun x => by rw [typeAt, typeAt, signed.types]
    have typed : s'.typeAt pair.1.id ≠ .notAType := by
      obtain ⟨arg, _⟩ := of_mem_zip zipped
      exact isConcrete_ne_notAType (((done firm).2 _ arg).all (facts _ arg)).here.concrete
    rw [same] at known
    rw [same, same]
    refine joins site (content ▸ declared) ⟨⟨pair.1, s'.typeAt pair.1.id⟩, pair.2⟩ ?_ typed known
    rw [(done firm).1]
    exact mem_zip_typed zipped
  · rw [show n.content = .op .assign from assigns] at content
    cases content
  · rw [content] at isVar
    cases isVar
  · have typed := typed
      (fun a member => settles.concrete facts (firm.operands sound) _ (of_mem_zip member).2)
      (by rw [settles.1.overloadSize, firm.overloadSize]; exact room)
      (fun d declared => fact c d content declared)
    have operands : (cs.zip types).map Prod.snd = s''.operandTypes (.mk n cs) := by
      rw [(done firm).1, map_snd_zip (by simp)]
      exact map_congr_left fun d _ => by rw [typeAt, typeAt, signed.types]
    rw [operands] at typed
    refine ⟨typed.1, ?_, fun d isCall => ?_⟩
    · rw [nodeRule.eq_def, content]
      exact typed.2.1
    · rw [content] at isCall
      cases isCall
      exact typed.2.2

variable (children : ∀ c ∈ cs, Yields T (exprType env .resolved .settle c) (Settles env A bound c))
variable (inner : ∀ c ∈ cs, c.Throughout (Grounded env A)) (apart : cs.Pairwise Apart)
include children inner apart

/-- The value of an assignment is settled before its target, and then the two join. -/
theorem assignment_settles (content : n.content = .op .assign) (takes : cs.length = 2) :
    Yields T (nodeType env .resolved .settle n cs) (NodeSettles env A bound n cs) := by
  obtain ⟨a, b, rfl⟩ := length_eq_two.mp takes
  have between : a.Apart b := by simpa using apart
  rw [nodeType.eq_def, content]
  dsimp only
  rw [lastType_two, firstType_two]
  simp only [if_true]
  refine .seq (children b (by simp)) fun value => .seq (children a (by simp)) fun target =>
    .seq (checkAssignment_yields (by simp) target value) fun _ => .pure ?_
  rintro s'' _ ⟨rfl, joins⟩ s' second s first
  have both := first.one.append second.one
    (fun t member => inner t (by simpa [or_comm] using member)) (by simpa using between.symm)
  refine both.node (fun t => by simp [or_comm]) sound facts (fun _ => ⟨rfl, ?_⟩)
    (fun firm _ c d pair => ?_) (by simp [content, Content.kind]) (by simp [content, Content.kind])
  · rw [nodeRule.eq_def, content]
    exact (operatorRule_number (.inl rfl) _).symm
  · obtain ⟨rfl, rfl⟩ : a = c ∧ b = d := by simpa using pair
    have typed := (both.2 firm).1
    obtain ⟨rfl, rfl⟩ : value = s''.typeAt b.id ∧ target = s''.typeAt a.id := by simpa using typed
    refine joins (isConcrete_ne_notAType (both.concrete (fun t member => facts t ?_) firm _ ?_))
    · simpa [or_comm] using member
    · simp

theorem operator_settles (content : n.content = .op o) (takes : o.Takes cs.length)
    (notAssign : o ≠ .assign) :
    Yields T (operatorType env .resolved .settle n o cs) (NodeSettles env A bound n cs) := by
  have all := exprTypes_settles children inner apart
  have notCall : n.content.kind ≠ .call := by simp [content, Content.kind]
  have notVar : n.content.kind ≠ .var := by simp [content, Content.kind]
  have other : n.content ≠ .op .assign := fun assigns => by
    rw [content] at assigns
    exact notAssign (Content.op.inj assigns)
  have number : ∀ (σ : NodeId → TypeTag) (types : List TypeTag), o.isLogical = true ∨
      o.isComparison = true → int8 = nodeRule env σ n types := fun σ types truth => by
    rw [nodeRule.eq_def, content]
    exact (operatorRule_number (.inr truth) types).symm
  rw [operatorType]
  split
  · next logical =>
    simp only [if_true]
    refine .seq all fun types => .seq (checkLogical_yields o _) fun _ => .pure ?_
    rintro _ s' rfl s settles
    exact settles.node (fun _ => Iff.rfl) sound facts (fun _ => ⟨rfl, number _ _ (.inl logical)⟩)
      (fun _ assigns => absurd assigns other) notCall notVar
  split
  · next comparison =>
    obtain ⟨a, b, rfl⟩ := length_eq_two.mp (takes_of_comparison comparison takes)
    rw [lastType_two, firstType_two]
    refine .seq (children a (by simp)) fun left => .seq (children b (by simp)) fun right => ?_
    split
    · exact report_seq_yields fun _ => .pure fun _ => trivial
    · refine .pure fun s'' s' second s first => ?_
      have both := first.one.append second.one inner (by simpa using apart)
      exact both.node (fun _ => Iff.rfl) sound facts (fun _ => ⟨rfl, number _ _ (.inr comparison)⟩)
        (fun _ assigns => absurd assigns other) notCall notVar
  · next notLogical notComparison =>
    refine .seq all fun types => (arithmeticType_settles n o types).imp ?_
    rintro _ r s' ⟨rfl, rfl, typed⟩ s settles
    refine settles.node (fun _ => Iff.rfl) sound facts
      (fun firm => ⟨typed ?_ (settles.concrete facts firm), ?_⟩)
      (fun _ assigns => absurd assigns other) notCall notVar
    · have given := takes_of_arithmetic notLogical takes
      simpa [(settles.2 firm).1] using given
    · rw [nodeRule.eq_def, content, (settles.2 firm).1]
      exact (operatorRule_arithmetic notAssign notLogical notComparison _).symm

end Operands

/-- When nothing is reported, the operands of a node are settled and the type found for it fits. -/
theorem nodeType_settles (concrete : env.functions.Concrete) (takes : n.content.Takes cs.length)
    (facts : ∀ c ∈ cs, CallsFact env c)
    (children : ∀ c ∈ cs, Yields T (exprType env .resolved .settle c) (Settles env A bound c))
    (inner : ∀ c ∈ cs, c.Throughout (Grounded env A)) (apart : cs.Pairwise Apart)
    (room : n.id < bound) :
    Yields T (nodeType env .resolved .settle n cs) (NodeSettles env A bound n cs) := by
  have sound := takes_sound takes
  cases content : n.content with
  | op o =>
    rw [content] at takes
    by_cases assigns : o = .assign
    · subst assigns
      exact assignment_settles facts sound children inner apart content takes
    · have operates : nodeType env .resolved .settle n cs =
        operatorType env .resolved .settle n o cs := by
        simp [nodeType, content]
      rw [operates]
      exact operator_settles facts sound children inner apart content takes assigns
  | var v =>
    rw [content] at takes
    obtain rfl := length_eq_zero_iff.mp takes
    rw [nodeType.eq_def, content]
    exact variable_settles content
  | literal l =>
    rw [content] at takes
    rw [nodeType.eq_def, content]
    exact literal_settles facts sound content (length_eq_zero_iff.mp takes)
  | call c =>
    rw [nodeType.eq_def, content]
    exact call_settles facts sound concrete content (exprTypes_settles children inner apart) room
  | _ =>
    rw [content] at takes
    exact takes.elim

/-- When nothing is reported, an expression among anchors is settled. -/
theorem exprType_settles (concrete : env.functions.Concrete) (term : t.IsTerm)
    (grounded : t.Throughout (Grounded env A))
    (facts : ∀ c ∈ t.children, c.Throughout (CallsFact env)) (distinct : t.Distinct)
    (bounds : ∀ u ∈ t.visited, u.id < bound) :
    Yields T (exprType env .resolved .settle t) (Settles env A bound t) := by
  induction t with
  | mk n cs ih =>
    obtain ⟨takes, below⟩ := isTerm_mk.mp term
    have sound := takes_sound takes
    have inner := fun c member => Throughout.below grounded sound (c := c) member
    have children := fun c member => ih c member (below c member) (inner c member)
      (fun d deeper => (facts c member).below (takes_sound (below c member).here) deeper)
      (distinct.child member) fun u visits =>
        bounds u (mem_visited_child (t := mk n cs) sound member visits)
    have room : n.id < bound := bounds (mk n cs) (mem_visited_self _)
    rw [exprType_eq]
    refine .seq (nodeType_settles concrete takes (fun c member => (facts c member).here) children
      inner distinct.apart room) fun r => .seq (setType_yields n.id r) fun _ => .pure ?_
    rintro _ s' rfl s settles
    exact settles.store grounded sound distinct room

end Infer

end TaskNet
