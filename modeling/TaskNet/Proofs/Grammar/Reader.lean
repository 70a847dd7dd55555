import TaskNet.Grammar.Reader
import TaskNet.Proofs.Grammar.Expression
import TaskNet.Proofs.Tree.Lookup

/-!
Reading a domain keeps what is complete and what is open well formed, and every identity given out
is in exactly one place. Both are stated of a reader between two tokens and hold after every token.
-/

namespace TaskNet.Grammar

open List Program Reader Tree

variable {K : Node → Prop} {t c root : Tree} {P : Tree → Prop} {k k' : Kind} {ts attrs : List Tree}
  {r : Reader} {file : String} {next : NodeId} {src : Text.Bytes} {ds : Declarations}

def Scope.held : Scope → List Tree
  | .domain => []
  | .task t => [t]

def Owner.held : Owner → List Tree
  | .template scope t => t :: scope.held
  | .task t => [t]

def Place.held : Place → List Tree
  | .block _ => []
  | .task t => [t]

/-- The trees that are open between two tokens. -/
def Mode.held : Mode → List Tree
  | .blocks | .blockOpen _ | .domainName | .domainOpen | .items | .taskName => []
  | .facts _ attrs => attrs
  | .attrName place attrs _ => place.held ++ attrs
  | .attrArgs place attrs attr => place.held ++ attrs ++ [.mk attr []]
  | .attrList place attrs p => place.held ++ attrs ++ p.held
  | .factOpen _ fact | .factParams _ fact _ | .factType _ fact => [fact]
  | .templateName scope => scope.held
  | .paramsOpen owner | .params owner _ | .paramName owner => owner.held
  | .templateAssign scope t => t :: scope.held
  | .templateBody scope t p => (t :: scope.held) ++ p.held
  | .taskOpen t => [t]
  | .branches t attrs => t :: attrs
  | .guardStart t branch | .listOpen t branch => [t, branch]
  | .guard t branch p => [t, branch] ++ p.held
  | .calls t branch list _ | .callName t branch list => [t, branch, list]
  | .callOpen t branch list head => [t, branch, list, .mk head []]
  | .callArgs t branch list p => [t, branch, list] ++ p.held

def Reader.held (r : Reader) : List Tree :=
  r.root :: r.mode.held

def Scope.Sound : Scope → Prop
  | .domain => True
  | .task t => IsTask ReadCase t

def OpenTemplate (t : Tree) : Prop :=
  t.kind = .template ∧ ∀ c ∈ t.children, IsParam c

def Owner.Sound : Owner → Prop
  | .template scope t => scope.Sound ∧ OpenTemplate t
  | .task t => IsTask ReadCase t

/-- A block of facts or of primitives. -/
def IsBlockKind (k : Kind) : Prop :=
  k = .world ∨ k = .primitives

def Place.Sound : Place → Prop
  | .block kind => IsBlockKind kind
  | .task t => IsTask ReadCase t

/-- The declaration of the program in which a place for attributes lies. -/
def Place.within : Place → Kind
  | .block kind => kind
  | .task _ => .domain

/-- Attributes that wait for their declaration. -/
def AttrsSound (attrs : List Tree) : Prop :=
  ∀ a ∈ attrs, IsAttr IsRaw a

def OpenBranch (branch : Tree) : Prop :=
  branch.content = .branch .unset ∧ AttrsSound branch.children

/-- A case after its precondition. -/
def GuardedBranch (branch : Tree) : Prop :=
  branch.content = .branch .unset ∧ ∃ attrs pre, branch.children = attrs ++ [pre] ∧
    AttrsSound attrs ∧ pre.IsRaw

def OpenList (list : Tree) : Prop :=
  list.content = .taskList ∧ ∀ c ∈ list.children, c.IsRaw ∧ c.kind = .call

def AttrHead (n : Node) : Prop :=
  n.kind = .attr

def CallHead (n : Node) : Prop :=
  ∃ name, n.content = .invocation name

def Mode.Sound : Mode → Prop
  | .blocks | .domainName | .domainOpen | .items | .taskName => True
  | .blockOpen kind => IsBlockKind kind
  | .facts kind attrs => IsBlockKind kind ∧ AttrsSound attrs
  | .attrName place attrs _ => place.Sound ∧ AttrsSound attrs
  | .attrArgs place attrs attr => place.Sound ∧ AttrsSound attrs ∧ AttrHead attr
  | .attrList place attrs p => place.Sound ∧ AttrsSound attrs ∧ p.Sound (some AttrHead)
  | .factOpen kind fact | .factParams kind fact _ | .factType kind fact =>
    IsBlockKind kind ∧ IsFact fact
  | .templateName scope => scope.Sound
  | .paramsOpen owner | .params owner _ | .paramName owner => owner.Sound
  | .templateAssign scope t => scope.Sound ∧ OpenTemplate t
  | .templateBody scope t p => scope.Sound ∧ OpenTemplate t ∧ p.Sound none
  | .taskOpen t => IsTask ReadCase t
  | .branches t attrs => IsTask ReadCase t ∧ AttrsSound attrs
  | .guardStart t branch => IsTask ReadCase t ∧ OpenBranch branch
  | .guard t branch p => IsTask ReadCase t ∧ OpenBranch branch ∧ p.Sound none
  | .listOpen t branch => IsTask ReadCase t ∧ GuardedBranch branch
  | .calls t branch list _ | .callName t branch list =>
    IsTask ReadCase t ∧ GuardedBranch branch ∧ OpenList list
  | .callOpen t branch list head =>
    IsTask ReadCase t ∧ GuardedBranch branch ∧ OpenList list ∧ CallHead head
  | .callArgs t branch list p =>
    IsTask ReadCase t ∧ GuardedBranch branch ∧ OpenList list ∧ p.Sound (some CallHead)

/-- A program has a block of a kind, or a domain. -/
def Has (root : Tree) (k : Kind) : Prop :=
  ∃ c ∈ root.children, c.kind = k

/-- The next token is read inside of a declaration that the program has, or names the only domain.
-/
def Mode.Inside (root : Tree) : Mode → Prop
  | .blocks => True
  | .domainName => ¬ Has root .domain
  | .blockOpen kind | .facts kind _ | .factOpen kind _ | .factParams kind _ _ | .factType kind _ =>
    Has root kind
  | .attrName place _ _ | .attrArgs place _ _ | .attrList place _ _ => Has root place.within
  | _ => Has root .domain

/-- A reader between two tokens is well formed. -/
structure Reader.Sound (r : Reader) : Prop where
  program : IsProgram ReadCase r.root
  inside : r.mode.Inside r.root
  mode : r.mode.Sound

/-- A token that is read moves the trees held before to those of the new reader, which is well
formed. -/
def ReadsTo (before : List Tree) (next : NodeId) (sound : Prop)
    (result : Except SyntaxError Reader) : Prop :=
  ∀ r, result = .ok r → sound → Draws before next r.held r.next ∧ r.Sound

section Steps

variable {before : List Tree} {next : NodeId} {sound : Prop} {file : String} {t : Token}
variable {r : Reader}

theorem ReadsTo.ok (moves : sound → Draws before next r.held r.next) (keeps : sound → r.Sound) :
    ReadsTo before next sound (.ok r) := by
  intro _ same holds
  cases same
  exact ⟨moves holds, keeps holds⟩

theorem ReadsTo.refuse {cause : SyntaxCause} :
    ReadsTo before next sound (Grammar.refuse file t cause) := by
  intro _ same
  cases same

theorem ReadsTo.need {wanted : TokenKind} (reads : ReadsTo before next sound (.ok r)) :
    ReadsTo before next sound (r.need file t wanted) := by
  rw [Reader.need]
  split
  · exact reads
  · exact .refuse

theorem ReadsTo.after {mid : List Tree} {next' : NodeId} {sound' : Prop}
    {result : Except SyntaxError Reader}
    (moves : sound → Draws before next mid next') (keeps : sound → sound')
    (reads : ReadsTo mid next' sound' result) : ReadsTo before next sound result := by
  intro r same holds
  obtain ⟨later, soundLater⟩ := reads r same (keeps holds)
  exact ⟨(moves holds).trans later, soundLater⟩

end Steps

@[simp] theorem nodes_addChild (t c : Tree) : (addChild t c).nodes = t.nodes ++ c.nodes := by
  cases t with
  | mk n cs => simp [addChild, withChildren, nodes_mk, nodesList_append, nodesList]

@[simp] theorem addChild_kind (t c : Tree) : (addChild t c).kind = t.kind := rfl

@[simp] theorem addChild_children (t c : Tree) : (addChild t c).children = t.children ++ [c] := rfl

theorem forall_addChild (each : ∀ d ∈ t.children, P d) (last : P c) :
    ∀ d ∈ (addChild t c).children, P d := by
  simpa [or_imp, forall_and] using ⟨each, last⟩

theorem counts_addToFirst (has : ∃ t ∈ ts, t.kind = k) (n : Node) (c : Tree) :
    counts n (addToFirst k c ts) = counts n ts + c.nodes.count n := by
  induction ts with
  | nil => simp at has
  | cons t ts ih =>
    rw [addToFirst]
    split
    · simp +arith
    · next other =>
      have different : t.kind ≠ k := by simpa using other
      have later : ∃ s ∈ ts, s.kind = k := by simpa [different] using has
      simp +arith [ih later]

/-- A complete declaration goes into its block or into the domain. -/
theorem addTo_moves (has : Has r.root k) (c : Tree) (next : NodeId) :
    Draws [r.root, c] next [r.addTo k c] next := by
  obtain ⟨root, _, _⟩ := r
  cases root with
  | mk n cs =>
    have inside : ∃ t ∈ cs, t.kind = k := has
    exact moves_same fun _ => by simp +arith [addTo, withChildren, counts_addToFirst inside]

theorem addToFirst_kinds (k : Kind) (c : Tree) (ts : List Tree) :
    (addToFirst k c ts).map Tree.kind = ts.map Tree.kind := by
  induction ts with
  | nil => rfl
  | cons t ts ih =>
    rw [addToFirst]
    split
    · rw [map_cons, addChild_kind, map_cons]
    · rw [map_cons, ih, map_cons]

theorem has_iff : Has root k ↔ k ∈ root.children.map Tree.kind := by
  simp [Has]

theorem addTo_kinds (r : Reader) (k : Kind) (c : Tree) :
    (r.addTo k c).children.map Tree.kind = r.root.children.map Tree.kind := by
  rw [addTo, withChildren, children_mk, addToFirst_kinds]

theorem has_addTo : Has (r.addTo k c) k' ↔ Has r.root k' := by
  rw [has_iff, has_iff, addTo_kinds]

theorem addToFirst_forall (each : ∀ t ∈ ts, P t)
    (grows : ∀ t ∈ ts, t.kind = k → P t → P (addChild t c)) : ∀ t ∈ addToFirst k c ts, P t := by
  induction ts with
  | nil => exact each
  | cons t ts ih =>
    have later := ih (forall_mem_cons.mp each).2
      (forall_mem_cons.mp grows).2
    rw [addToFirst]
    split
    · next same =>
      have first := grows t (by simp) (by simpa using same) (each t (by simp))
      exact forall_mem_cons.mpr ⟨first, (forall_mem_cons.mp each).2⟩
    · exact forall_mem_cons.mpr ⟨each t (by simp), later⟩

theorem find_addToFirst_other (other : k ≠ k') (c : Tree) (ts : List Tree) :
    (addToFirst k c ts).find? (fun t => t.kind == k') = ts.find? fun t => t.kind == k' := by
  induction ts with
  | nil => rfl
  | cons t ts ih =>
    rw [addToFirst]
    split
    · next same =>
      have kind : t.kind ≠ k' := by
        rw [beq_iff_eq] at same
        exact same ▸ other
      simp [kind]
    · rw [find?_cons, ih, find?_cons]

theorem find_addToFirst_same (k : Kind) (c : Tree) (ts : List Tree) :
    (addToFirst k c ts).find? (fun t => t.kind == k) =
      (ts.find? fun t => t.kind == k).map (addChild · c) := by
  induction ts with
  | nil => rfl
  | cons t ts ih =>
    rw [addToFirst]
    split
    · next same => simp [same]
    · next other => rw [find?_cons, find?_cons, Bool.eq_false_iff.mpr other, ih]

theorem addTo_block (program : IsProgram ReadCase r.root) (block : IsBlockKind k)
    (fact : IsFact c) : IsProgram ReadCase (r.addTo k c) := by
  have other : k ≠ .domain := by rcases block with rfl | rfl <;> simp
  refine ⟨program.kind, addToFirst_forall program.blocks fun t _ kind form => ?_,
    addTo_kinds r k c ▸ program.single, fun d found => ?_⟩
  · rcases form with ⟨blockKind, facts⟩ | domainKind
    · exact .inl ⟨blockKind, forall_addChild facts fact⟩
    · exact absurd (kind.symm.trans domainKind) other
  · exact program.domain d ((find_addToFirst_other other c r.root.children).symm.trans found)

theorem addTo_domain (program : IsProgram ReadCase r.root)
    (item : IsTemplate c ∨ IsTask ReadCase c) : IsProgram ReadCase (r.addTo .domain c) := by
  refine ⟨program.kind, addToFirst_forall program.blocks fun t _ kind _ => .inr kind,
    addTo_kinds r .domain c ▸ program.single, fun d found => ?_⟩
  have grown := (find_addToFirst_same .domain c r.root.children).symm.trans found
  obtain ⟨domain, before, rfl⟩ := Option.map_eq_some_iff.mp grown
  obtain ⟨kind, items⟩ := program.domain domain before
  exact ⟨kind, forall_addChild items item⟩

/-- A new block is added to the program, or the domain to a program without one. -/
theorem addChild_program (program : IsProgram ReadCase root)
    (form : IsBlock c ∨ ¬ Has root .domain ∧ IsDomain ReadCase c) :
    IsProgram ReadCase (addChild root c) := by
  refine ⟨program.kind, forall_addChild program.blocks (form.imp_right fun new => new.2.1), ?_,
    fun d found => ?_⟩
  · rw [addChild_children, map_append, count_append]
    have before := program.single
    rcases form with ⟨block | block, _⟩ | ⟨first, isDomain, _⟩
    · simpa [block] using before
    · simpa [block] using before
    · rw [has_iff, ← count_eq_zero] at first
      simp [isDomain, first]
  rw [findChild?, addChild_children, find?_append, Option.or_eq_some_iff] at found
  rcases found with before | ⟨_, new⟩
  · exact program.domain d before
  · obtain ⟨kind, rfl⟩ : c.kind = .domain ∧ c = d := by
      simpa [find?_singleton] using new
    rcases form with ⟨block | block, _⟩ | isDomain
    · rw [kind] at block
      cases block
    · rw [kind] at block
      cases block
    · exact isDomain.2

theorem has_addChild : Has (addChild root c) c.kind :=
  ⟨c, by simp, rfl⟩

section Modes

variable (file : String) (t : Token) (r : Reader)
variable {m task branch : Tree}

/-- A token between blocks. -/
theorem stepBlocks_reads (between : r.mode = .blocks) :
    ReadsTo [r.root] r.next (IsProgram ReadCase r.root) (r.stepBlocks file t) := by
  have opened (content : Content) (written : content.AsWritten) (block : IsBlockKind content.kind) :
      ReadsTo [r.root] r.next (IsProgram ReadCase r.root) (.ok (r.openBlock file t content)) := by
    rw [openBlock]
    split
    · next c found =>
      obtain ⟨member, kind⟩ := mem_of_findChild? found
      refine .ok (fun _ => .refl _ _) fun program => ⟨program, ?_, block⟩
      exact ⟨c, member, kind⟩
    · refine .ok (fun _ => ?_) fun program => ⟨addChild_program program ?_, ?_, block⟩
      · refine moves_added (r.newNode file t content) ⟨.inl rfl, written⟩ rfl fun _ => ?_
        simp [Reader.held, Mode.held]
      · exact .inl ⟨block, by simp⟩
      · exact has_addChild (c := .mk (r.newNode file t content) [])
  rw [stepBlocks]
  split
  · refine .ok (fun _ => ?_) fun program => ⟨program, by rw [between]; trivial, ?_⟩
    · rw [Reader.held, between]
      exact .refl _ _
    · rw [between]
      trivial
  · split
    · exact opened .world trivial (.inl rfl)
    · split
      · exact opened .primitives trivial (.inr rfl)
      · split
        · split
          · exact .refuse
          · next none =>
            refine .ok (fun _ => .refl _ _) fun program => ⟨program, ?_, trivial⟩
            rintro ⟨d, member, kind⟩
            exact find?_eq_none.mp none d member (by simp [kind])
        · exact .refuse

/-- A token in a block of facts. -/
theorem stepFacts_reads (kind : Kind) (attrs : List Tree) :
    ReadsTo (r.root :: attrs) r.next
      (IsProgram ReadCase r.root ∧ Has r.root kind ∧ IsBlockKind kind ∧ AttrsSound attrs)
      (r.stepFacts file t kind attrs) := by
  rw [stepFacts]
  split
  · next closing =>
    obtain ⟨_, rfl⟩ := closing
    exact .ok (fun _ => .refl _ _) fun sound => ⟨sound.1, trivial, trivial⟩
  · split
    · refine .ok (fun _ => .refl _ _) fun ⟨program, has, block, attrsSound⟩ =>
        ⟨program, ?_, block, attrsSound⟩
      exact has
    · split
      · refine .ok (fun _ => ?_) fun ⟨program, has, block, attrsSound⟩ => ⟨program, ?_, block, ?_⟩
        · refine moves_added (r.newNode file t (.fact t.word)) ⟨.inl rfl, trivial⟩ rfl fun _ => ?_
          simp +arith [Reader.held, Mode.held]
        · exact has
        · exact ⟨rfl, fun c member => .inl (attrsSound c member)⟩
      · exact .refuse

/-- A parameter type of a fact. -/
theorem addFactType_reads (kind : Kind) (fact : Tree) :
    ReadsTo [r.root, fact] r.next
      (IsProgram ReadCase r.root ∧ Has r.root kind ∧ IsBlockKind kind ∧ IsFact fact)
      (r.addFactType file t kind fact) := by
  rw [addFactType]
  split
  · split
    · exact .refuse
    · next tag found =>
      have concrete : tag.isConcrete = true :=
        contains_iff_mem.mpr (mem_of_find?_eq_some found)
      refine .ok (fun _ => ?_) fun ⟨program, has, block, isFact⟩ => ⟨program, ?_, block, ?_⟩
      · refine moves_added { r.newNode file t (.param "") with type := tag } ⟨.inr concrete,
          trivial⟩ rfl fun _ => ?_
        simp [Reader.held, Mode.held]
      · exact has
      · exact ⟨isFact.1, forall_addChild isFact.2 (.inr ⟨rfl, rfl⟩)⟩
  · exact .refuse

/-- A token in a domain. -/
theorem stepItems_reads :
    ReadsTo [r.root] r.next (IsProgram ReadCase r.root ∧ Has r.root .domain)
      (r.stepItems file t) := by
  have inside (m : Mode) (within : Has r.root .domain → m.Inside r.root) (held : m.held = [])
      (sound : m.Sound) : ReadsTo [r.root] r.next (IsProgram ReadCase r.root ∧ Has r.root .domain)
        (.ok { r with mode := m }) := by
    refine .ok (fun _ => ?_) fun ⟨program, has⟩ => ⟨program, within has, sound⟩
    rw [Reader.held, held]
    exact .refl _ _
  rw [stepItems]
  split
  · exact inside .blocks (fun _ => trivial) rfl trivial
  · split
    · exact inside (.templateName .domain) id rfl trivial
    · split
      · exact inside .taskName id rfl trivial
      · exact .refuse

/-- A program with a domain in which a task is being read. -/
def InTask (root task : Tree) : Prop :=
  IsProgram ReadCase root ∧ Has root .domain ∧ IsTask ReadCase task

/-- A token in a task, after attributes of the next case. -/
theorem stepBranches_reads (task : Tree) (attrs : List Tree) :
    ReadsTo (r.root :: task :: attrs) r.next (InTask r.root task ∧ AttrsSound attrs)
      (r.stepBranches file t task attrs) := by
  rw [stepBranches]
  split
  · next closing =>
    obtain ⟨_, rfl⟩ := closing
    refine .ok ?_ ?_
    · rintro ⟨⟨_, has, _⟩, _⟩
      exact addTo_moves has task r.next
    · rintro ⟨⟨program, has, isTask⟩, _⟩
      refine ⟨addTo_domain program (.inr isTask), ?_, trivial⟩
      exact has_addTo.mpr has
  · split
    · next opening =>
      obtain ⟨_, rfl⟩ := opening
      refine .ok (fun _ => .refl _ _) ?_
      rintro ⟨⟨program, has, isTask⟩, _⟩
      refine ⟨program, ?_, isTask⟩
      exact has
    · split
      · refine .ok (fun _ => .refl _ _) ?_
        rintro ⟨⟨program, has, isTask⟩, attrsSound⟩
        refine ⟨program, ?_, isTask, attrsSound⟩
        exact has
      · split
        · refine .ok (fun _ => ?_) ?_
          · refine moves_added (r.newNode file t (.branch .unset)) ⟨.inl rfl, trivial⟩
              rfl fun _ => ?_
            simp +arith [Reader.held, Mode.held]
          · rintro ⟨⟨program, has, isTask⟩, attrsSound⟩
            refine ⟨program, ?_, isTask, rfl, attrsSound⟩
            exact has
        · exact .refuse

theorem addParam_sound {owner : Owner} (sound : owner.Sound) {param : Tree}
    (isParam : IsParam param) : (addParam owner param).Sound := by
  cases owner with
  | template scope m => exact ⟨sound.1, sound.2.1, forall_addChild sound.2.2 isParam⟩
  | task m => exact ⟨sound.1, forall_addChild sound.2 (.inl isParam)⟩

theorem addParam_moves (owner : Owner) (param : Tree) (next : NodeId) :
    Draws (owner.held ++ [param]) next (addParam owner param).held next := by
  cases owner <;> exact moves_same fun _ => by simp +arith [addParam, Owner.held]

theorem stepParamName_reads (owner : Owner) :
    ReadsTo (r.root :: owner.held) r.next
      (IsProgram ReadCase r.root ∧ Has r.root .domain ∧ owner.Sound)
      (r.stepParamName file t owner) := by
  rw [stepParamName]
  split
  · refine .ok (fun _ => ?_) ?_
    · exact (moves_new (r.newNode file t (.param t.word)) (r.root :: owner.held) ⟨.inl rfl, trivial⟩
        r.next rfl).trans (.cons (.refl _ _) (addParam_moves owner _ _))
    · rintro ⟨program, has, sound⟩
      refine ⟨program, ?_, addParam_sound sound ⟨rfl, rfl⟩⟩
      exact has
  · exact .refuse

theorem addTemplate_moves {scope : Scope} (has : Has r.root .domain) :
    Draws (r.root :: m :: scope.held) r.next (r.addTemplate scope m).held
      (r.addTemplate scope m).next := by
  cases scope with
  | domain => exact addTo_moves has m r.next
  | task task =>
    exact moves_same fun _ => by simp +arith [addTemplate, Reader.held, Mode.held, Scope.held]

/-- A token after a complete macro. -/
theorem afterTemplate_reads (scope : Scope) (m : Tree) :
    ReadsTo (r.root :: m :: scope.held) r.next
      (IsProgram ReadCase r.root ∧ Has r.root .domain ∧ scope.Sound ∧ IsTemplate m)
      (r.afterTemplate file t scope m) := by
  cases scope with
  | domain =>
    refine .after (fun sound => addTemplate_moves r sound.2.1) ?_
      (stepItems_reads file t (r.addTemplate .domain m))
    rintro ⟨program, has, _, template⟩
    exact ⟨addTo_domain program (.inl template), has_addTo.mpr has⟩
  | task task =>
    refine .after (fun sound => addTemplate_moves r sound.2.1) ?_
      (stepBranches_reads file t (r.addTemplate (.task task) m) (addChild task m) [])
    rintro ⟨program, has, sound, template⟩
    exact ⟨⟨program, has, sound.1, forall_addChild sound.2 (.inr (.inl template))⟩,
      by simp [AttrsSound]⟩

theorem isTemplate_addChild {body : Tree} (template : OpenTemplate m) (raw : body.IsRaw) :
    IsTemplate (addChild m body) :=
  ⟨template.1, m.children, body, rfl, template.2, raw⟩

/-- The body of a macro is put into it. -/
theorem addBody_moves (root m body : Tree) (scope : Scope) (next : NodeId) :
    Draws ((root :: m :: scope.held) ++ [body]) next (root :: addChild m body :: scope.held) next :=
  moves_same fun _ => by simp +arith

/-- The precondition of a case is complete. -/
theorem afterGuard_reads {next : NodeId} {pre : Tree}
    (moves : sound → Draws before next [r.root, task, branch, pre] r.next)
    (keeps : sound → InTask r.root task ∧ OpenBranch branch ∧ pre.IsRaw) :
    ReadsTo before next sound (.ok (r.afterGuard task branch pre)) := by
  refine .ok (fun holds => (moves holds).trans (moves_same fun _ => ?_)) fun holds => ?_
  · simp [afterGuard, Reader.held, Mode.held]
  · obtain ⟨⟨program, has, isTask⟩, ⟨content, attrs⟩, raw⟩ := keeps holds
    refine ⟨program, ?_, isTask, content, branch.children, pre, rfl, attrs, raw⟩
    exact has

theorem stepCallName_reads (task branch list : Tree) :
    ReadsTo [r.root, task, branch, list] r.next
      (InTask r.root task ∧ GuardedBranch branch ∧ OpenList list)
      (r.stepCallName file t task branch list) := by
  rw [stepCallName]
  split
  · refine .ok (fun _ => moves_new _ _ (by exact ⟨.inl rfl, trivial⟩) r.next rfl) ?_
    rintro ⟨⟨program, has, isTask⟩, guarded, isList⟩
    refine ⟨program, ?_, isTask, guarded, isList, _, rfl⟩
    exact has
  · exact .refuse

theorem closeBranch_moves (task branch list : Tree) (rest : List Tree) (next : NodeId) :
    Draws (task :: branch :: list :: rest) next (closeBranch task branch list :: rest) next := by
  cases branch with
  | mk n cs =>
    refine .regroup rfl rfl (fun x => ?_) fun known => ?_
    · simp only [closeBranch, addChild, withContent, withChildren, node_mk, children_mk,
        tallies_cons, tally_mk, tallies_append, tallies_nil]
      cases task with
      | mk m ds =>
        simp only [node_mk, children_mk, tally_mk]
        omega
    · cases task with
      | mk m ds =>
        simp only [closeBranch, addChild, withContent, withChildren, node_mk, children_mk,
          eachOf_cons, allOf_mk, eachOf_append, eachOf_nil, and_true] at known ⊢
        exact ⟨⟨known.1.1, known.1.2, ⟨known.2.1.1.1, trivial⟩, known.2.1.2, known.2.2.1⟩,
          known.2.2.2⟩

theorem closeBranch_isTask {list : Tree} (isTask : IsTask ReadCase task)
    (guarded : GuardedBranch branch) (isList : OpenList list) :
    IsTask ReadCase (closeBranch task branch list) := by
  obtain ⟨_, attrs, pre, children, attrsSound, raw⟩ := guarded
  refine ⟨isTask.1, forall_addChild isTask.2 (.inr (.inr ⟨rfl, ?_⟩))⟩
  have parts : HasParts ((addChild branch list).withContent (.branch { Guarded.unset with
      precond := branch.children.getLast?.map Tree.id, tasks := some list.id })) _ attrs pre list :=
    ⟨rfl, by simp [withContent, addChild, withChildren, children],
      fun a member => (attrsSound a member).1, by simp [children], isList.1, rfl⟩
  refine ⟨⟨_, attrs, pre, list, parts, fun a member => (attrsSound a member).2, raw,
    fun c member => (isList.2 c member).1⟩, fun e member => ?_⟩
  rw [parts.entries raw.isTerm.isExpression] at member
  exact (isList.2 e member).2

end Modes

/-- What a finished expression is: an argument list when one is at the bottom, otherwise any. -/
def IsWhole : Bottom → Tree → Prop
  | some H => IsListOf H
  | none => IsRaw

/-- A token inside of an expression: what was open around the expression stays, and the expression
is read further or, if it is whole, handed on. -/
theorem ReadsTo.expression {t : Token} {p : Pending} {bottom : Bottom} (frame : List Tree)
    {finish : Progress × NodeId → Except SyntaxError Reader}
    (pending : sound → p.Sound bottom)
    (alike : ∀ e after, finish (.closed e, after) = finish (.ended e, after))
    (reading : ∀ q after,
      ReadsTo (frame ++ q.held) after (sound ∧ q.Sound bottom) (finish (.reading q, after)))
    (whole : ∀ e after,
      ReadsTo (frame ++ [e]) after (sound ∧ IsWhole bottom e) (finish (.ended e, after))) :
    ReadsTo (frame ++ p.held) next sound (p.step file t next >>= finish) := by
  intro r same holds
  cases read : p.step file t next with
  | error e =>
    rw [read] at same
    cases same
  | ok result =>
    obtain ⟨progress, after⟩ := result
    rw [read] at same
    obtain ⟨moves, progressSound⟩ := step_reads file t next p progress after read (pending holds)
    have framed := (MovesWith.refl frame _).append moves
    have rest : Draws (frame ++ progress.held) after r.held r.next ∧ r.Sound := by
      cases progress with
      | reading q => exact reading q after r same ⟨holds, progressSound⟩
      | closed e =>
        obtain ⟨H, rfl, list⟩ := progressSound
        exact whole e after r ((alike e after).symm.trans same) ⟨holds, list⟩
      | ended e =>
        obtain ⟨rfl, raw⟩ := progressSound
        exact whole e after r same ⟨holds, raw⟩
    exact ⟨framed.trans rest.1, rest.2⟩

theorem isAttr_of_list (list : IsListOf AttrHead t) : IsAttr IsRaw t :=
  ⟨list.1, list.2⟩

theorem isRaw_of_list (list : IsListOf CallHead t) : t.IsRaw ∧ t.kind = .call := by
  cases t with
  | mk n cs =>
    refine ⟨isRaw_invocation list.1 list.2, ?_⟩
    obtain ⟨name, content⟩ := list.1
    exact congrArg Content.kind content

theorem attrsSound_append {a : Tree} (sound : AttrsSound attrs) (isAttr : IsAttr IsRaw a) :
    AttrsSound (attrs ++ [a]) := by
  simpa [AttrsSound, or_imp, forall_and] using And.intro sound isAttr

/-- An attribute is complete and the place of the attribute goes on. -/
theorem afterAttr_reads {place : Place} {attr : Tree}
    {after : NodeId}
    (moves : sound → Draws before next (root :: (place.held ++ attrs ++ [attr])) after)
    (keeps : sound → IsProgram ReadCase root ∧ Has root place.within ∧ place.Sound ∧
      AttrsSound attrs ∧ IsAttr IsRaw attr) :
    ReadsTo before next sound (.ok ⟨root, after, afterAttr place (attrs ++ [attr])⟩) := by
  cases place with
  | block kind =>
    refine .ok moves fun holds => ?_
    obtain ⟨program, has, block, attrsSound, isAttr⟩ := keeps holds
    refine ⟨program, ?_, block, attrsSound_append attrsSound isAttr⟩
    exact has
  | task task =>
    refine .ok (fun holds => ?_) fun holds => ?_
    · simpa [Reader.held, afterAttr, Mode.held, Place.held] using moves holds
    · obtain ⟨program, has, isTask, attrsSound, isAttr⟩ := keeps holds
      refine ⟨program, ?_, isTask, attrsSound_append attrsSound isAttr⟩
      exact has

section Open

variable (file : String) (t : Token) (root : Tree) (next : NodeId)

/-- An attribute without arguments, unless a bracket follows. -/
theorem attrArgs_reads (place : Place) (attrs : List Tree) (attr : Node) :
    let r : Reader := ⟨root, next, .attrArgs place attrs attr⟩
    ReadsTo r.held next r.Sound (r.step file t) := by
  intro r
  change ReadsTo r.held next r.Sound (if _ then _ else _)
  split
  · refine .ok (fun _ => ?_) fun holds => ⟨holds.program, holds.inside, ?_⟩
    · simpa [r, Reader.held, Mode.held, Pending.held, Pending.startList, Expected.held, Frame.held]
        using MovesWith.refl r.held (.start next)
    · obtain ⟨sound, attrsSound, isHead⟩ := holds.mode
      exact ⟨sound, attrsSound, ⟨⟨AttrHead, rfl, isHead⟩, by simp, rfl⟩, trivial⟩
  · cases place with
    | block kind =>
      refine .after (fun _ => .refl _ _) (fun holds => ?_) (stepFacts_reads file t r kind _)
      exact ⟨holds.program, holds.inside, holds.mode.1,
        attrsSound_append holds.mode.2.1 ⟨holds.mode.2.2, by simp⟩⟩
    | task task =>
      refine .after (fun _ => ?_) (fun holds => ?_) (stepBranches_reads file t r task _)
      · simpa [r, Reader.held, Mode.held, Place.held] using MovesWith.refl r.held (.start next)
      · exact ⟨⟨holds.program, holds.inside, holds.mode.1⟩,
          attrsSound_append holds.mode.2.1 ⟨holds.mode.2.2, by simp⟩⟩

/-- A token in the arguments of an attribute. -/
theorem attrList_reads (place : Place) (attrs : List Tree) (p : Pending) :
    let r : Reader := ⟨root, next, .attrList place attrs p⟩
    ReadsTo r.held next r.Sound (r.step file t) := by
  intro r
  refine .expression (root :: (place.held ++ attrs)) (fun holds => holds.mode.2.2)
    (fun _ _ => rfl) (fun q after => .ok (fun _ => .refl _ _) ?_)
    fun attr after => afterAttr_reads (fun _ => ?_) ?_
  · rintro ⟨holds, pendingSound⟩
    exact ⟨holds.program, holds.inside, holds.mode.1, holds.mode.2.1, pendingSound⟩
  · simpa using MovesWith.refl (root :: (place.held ++ attrs ++ [attr])) (.start after)
  · rintro ⟨holds, list⟩
    exact ⟨holds.program, holds.inside, holds.mode.1, holds.mode.2.1, isAttr_of_list list⟩

/-- A token in the body of a macro. -/
theorem templateBody_reads (scope : Scope) (m : Tree) (p : Pending) :
    let r : Reader := ⟨root, next, .templateBody scope m p⟩
    ReadsTo r.held next r.Sound (r.step file t) := by
  intro r
  refine .expression (root :: m :: scope.held) (fun holds => holds.mode.2.2)
    (fun _ _ => rfl) (fun q after => .ok (fun _ => .refl _ _) ?_)
    fun body after => .after (fun _ => addBody_moves root m body scope after) ?_
      (afterTemplate_reads file t { r with next := after } scope (addChild m body))
  · rintro ⟨holds, pendingSound⟩
    exact ⟨holds.program, holds.inside, holds.mode.1, holds.mode.2.1, pendingSound⟩
  · rintro ⟨holds, raw⟩
    exact ⟨holds.program, holds.inside, holds.mode.1, isTemplate_addChild holds.mode.2.1 raw⟩

/-- A token in the precondition of a case. -/
theorem guard_reads (task branch : Tree) (p : Pending) :
    let r : Reader := ⟨root, next, .guard task branch p⟩
    ReadsTo r.held next r.Sound (r.step file t) := by
  intro r
  refine .expression [root, task, branch] (fun holds => holds.mode.2.2)
    (fun _ _ => rfl) (fun q after => .ok (fun _ => .refl _ _) ?_)
    fun pre after => .need (afterGuard_reads _ (fun _ => .refl _ _) ?_)
  · rintro ⟨holds, pendingSound⟩
    exact ⟨holds.program, holds.inside, holds.mode.1, holds.mode.2.1, pendingSound⟩
  · rintro ⟨holds, raw⟩
    exact ⟨⟨holds.program, holds.inside, holds.mode.1⟩, holds.mode.2.1, raw⟩

/-- The start of the precondition of a case, or the arrow when it has none. -/
theorem guardStart_reads (task branch : Tree) :
    let r : Reader := ⟨root, next, .guardStart task branch⟩
    ReadsTo r.held next r.Sound (r.step file t) := by
  intro r
  have inTask (holds : r.Sound) : InTask root task :=
    ⟨holds.program, holds.inside, holds.mode.1⟩
  change ReadsTo r.held next r.Sound (if _ then _ else _)
  split
  · refine afterGuard_reads _ (fun _ => ?_) fun holds => ⟨inTask holds, holds.mode.2, ?_⟩
    · exact moves_new ⟨next, .any, locate file t, .op .and⟩ [root, task, branch] ⟨.inl rfl,
        trivial⟩ next rfl
    · exact isRaw_mk.mpr ⟨trivial, trivial, by simp⟩
  · refine .expression (p := .start) [root, task, branch] (fun _ => ⟨rfl, trivial⟩)
      (fun _ _ => rfl) (fun q after => .ok (fun _ => .refl _ _) ?_)
      fun pre after => afterGuard_reads _ (fun _ => .refl _ _) ?_
    · rintro ⟨holds, pendingSound⟩
      exact ⟨holds.program, holds.inside, holds.mode.1, holds.mode.2, pendingSound⟩
    · rintro ⟨holds, raw⟩
      exact ⟨inTask holds, holds.mode.2, raw⟩

/-- A token in the arguments of a call of a task list. -/
theorem callArgs_reads (task branch list : Tree) (p : Pending) :
    let r : Reader := ⟨root, next, .callArgs task branch list p⟩
    ReadsTo r.held next r.Sound (r.step file t) := by
  intro r
  refine .expression [root, task, branch, list] (fun holds => holds.mode.2.2.2)
    (fun _ _ => rfl) (fun q after => .ok (fun _ => .refl _ _) ?_)
    fun call after => .ok (fun _ => moves_same fun _ => ?_) ?_
  · rintro ⟨holds, pendingSound⟩
    obtain ⟨isTask, guarded, isList, _⟩ := holds.mode
    exact ⟨holds.program, holds.inside, isTask, guarded, isList, pendingSound⟩
  · simp +arith [r, Reader.held, Mode.held]
  · rintro ⟨holds, isCall⟩
    obtain ⟨isTask, guarded, isList, _⟩ := holds.mode
    exact ⟨holds.program, holds.inside, isTask, guarded, isList.1,
      forall_addChild isList.2 (isRaw_of_list isCall)⟩

end Open

/-- Every token keeps a reader well formed and loses no tree. -/
theorem reader_step (file : String) (t : Token) (r : Reader) :
    ReadsTo r.held r.next r.Sound (r.step file t) := by
  obtain ⟨root, next, mode⟩ := r
  -- a mode that holds the same trees inside of the same declaration
  have goes {m : Mode} (held : m.held = mode.held) (within : mode.Inside root → m.Inside root)
      (sound : mode.Sound → m.Sound) :
      ReadsTo (mk root next mode).held next (mk root next mode).Sound
        (.ok ⟨root, next, m⟩) := by
    refine .ok (fun _ => ?_) fun holds => ⟨holds.program, within holds.inside, sound holds.mode⟩
    rw [Reader.held, Reader.held, held]
    exact .refl _ _
  have inTask {task : Tree} (holds : (mk root next mode).Sound)
      (within : mode.Inside root = Has root .domain) (isTask : IsTask ReadCase task) :
      InTask root task :=
    ⟨holds.program, within ▸ holds.inside, isTask⟩
  rw [step]
  cases mode with
  | blocks =>
    exact .after (fun _ => .refl _ _) (fun holds => holds.program) (stepBlocks_reads file t _ rfl)
  | blockOpen kind =>
    exact .need (goes rfl id fun block => ⟨block, by simp [AttrsSound]⟩)
  | facts kind attrs =>
    refine .after (fun _ => .refl _ _) (fun holds => ?_) (stepFacts_reads file t _ kind attrs)
    exact ⟨holds.program, holds.inside, holds.mode⟩
  | attrName place attrs loc =>
    refine .need (.ok (fun _ => ?_) fun holds => ⟨holds.program, holds.inside, ?_⟩)
    · exact moves_new ⟨next, .any, loc, .attr t.word⟩ _ ⟨.inl rfl, trivial⟩ next rfl
    · exact ⟨holds.mode.1, holds.mode.2, rfl⟩
  | attrArgs place attrs attr => exact attrArgs_reads file t root next place attrs attr
  | attrList place attrs p => exact attrList_reads file t root next place attrs p
  | factOpen kind fact => exact .need (goes rfl id id)
  | factParams kind fact later =>
    dsimp only
    split
    · refine .ok (fun holds => addTo_moves (holds.inside) fact next) fun holds => ?_
      refine ⟨addTo_block holds.program holds.mode.1 holds.mode.2, ?_, holds.mode.1,
        by simp [AttrsSound]⟩
      exact has_addTo.mpr (holds.inside)
    · split
      · exact .need (goes rfl id id)
      · refine .after (fun _ => .refl _ _) (fun holds => ?_) (addFactType_reads file t _ kind fact)
        exact ⟨holds.program, holds.inside, holds.mode⟩
  | factType kind fact =>
    refine .after (fun _ => .refl _ _) (fun holds => ?_) (addFactType_reads file t _ kind fact)
    exact ⟨holds.program, holds.inside, holds.mode⟩
  | domainName =>
    refine .need (.ok (fun _ => ?_) fun holds => ⟨addChild_program holds.program ?_, ?_, trivial⟩)
    · refine moves_added (newNode file ⟨root, next, .domainName⟩ t (.domain t.word))
        ⟨.inl rfl, trivial⟩ rfl fun _ => ?_
      simp [Reader.held, Mode.held]
    · exact .inr ⟨holds.inside, rfl, by simp⟩
    · exact ⟨_, mem_append_right _ (mem_singleton_self _), rfl⟩
  | domainOpen => exact .need (goes rfl id id)
  | items =>
    refine .after (fun _ => .refl _ _) (fun holds => ?_) (stepItems_reads file t _)
    exact ⟨holds.program, holds.inside⟩
  | templateName scope =>
    refine .need (.ok (fun _ => ?_) fun holds => ⟨holds.program, holds.inside, holds.mode, rfl,
      by simp⟩)
    refine moves_added (newNode file ⟨root, next, .templateName scope⟩ t (.template t.word))
      ⟨.inl rfl, trivial⟩ rfl fun _ => ?_
    simp +arith [Reader.held, Mode.held, Owner.held]
  | taskName =>
    refine .need (.ok (fun _ => moves_new _ [root] (by exact ⟨.inl rfl, trivial⟩) next rfl)
      fun holds => ?_)
    exact ⟨holds.program, holds.inside, rfl, by simp⟩
  | paramsOpen owner => exact .need (goes rfl id id)
  | params owner later =>
    dsimp only
    split
    · cases owner with
      | template scope m => exact goes rfl id id
      | task m => exact goes rfl id id
    · split
      · exact .need (goes rfl id id)
      · refine .after (fun _ => .refl _ _) (fun holds => ?_) (stepParamName_reads file t _ owner)
        exact ⟨holds.program, holds.inside, holds.mode⟩
  | paramName owner =>
    refine .after (fun _ => .refl _ _) (fun holds => ?_) (stepParamName_reads file t _ owner)
    exact ⟨holds.program, holds.inside, holds.mode⟩
  | templateAssign scope m =>
    refine .need (goes ?_ id fun sound => ⟨sound.1, sound.2, rfl, trivial⟩)
    simp [Mode.held, Pending.held, Pending.start, Expected.held]
  | templateBody scope m p => exact templateBody_reads file t root next scope m p
  | taskOpen task => exact .need (goes rfl id fun isTask => ⟨isTask, by simp [AttrsSound]⟩)
  | branches task attrs =>
    refine .after (fun _ => .refl _ _) (fun holds => ?_) (stepBranches_reads file t _ task attrs)
    exact ⟨inTask holds rfl holds.mode.1, holds.mode.2⟩
  | guardStart task branch => exact guardStart_reads file t root next task branch
  | guard task branch p => exact guard_reads file t root next task branch p
  | listOpen task branch =>
    refine .need (.ok (fun _ => moves_new _ [root, task, branch] (by exact ⟨.inl rfl, trivial⟩)
      next rfl) fun holds => ?_)
    exact ⟨holds.program, holds.inside, holds.mode.1, holds.mode.2, rfl, by simp⟩
  | calls task branch list later =>
    dsimp only
    split
    · refine .ok (fun _ => ?_) fun holds => ?_
      · exact .cons (.refl _ _) (closeBranch_moves task branch list [] next)
      · obtain ⟨isTask, guarded, isList⟩ := holds.mode
        exact ⟨holds.program, holds.inside, closeBranch_isTask isTask guarded isList,
          by simp [AttrsSound]⟩
    · split
      · exact .need (goes rfl id id)
      · refine .after (fun _ => .refl _ _) (fun holds => ?_)
          (stepCallName_reads file t _ task branch list)
        exact ⟨inTask holds rfl holds.mode.1, holds.mode.2⟩
  | callName task branch list =>
    refine .after (fun _ => .refl _ _) (fun holds => ?_)
      (stepCallName_reads file t _ task branch list)
    exact ⟨inTask holds rfl holds.mode.1, holds.mode.2⟩
  | callOpen task branch list head =>
    refine .need (goes ?_ id ?_)
    · simp [Mode.held, Pending.held, Pending.startList, Expected.held, Frame.held]
    · rintro ⟨isTask, guarded, isList, isHead⟩
      exact ⟨isTask, guarded, isList, ⟨⟨CallHead, rfl, isHead⟩, by simp, rfl⟩, trivial⟩
  | callArgs task branch list p => exact callArgs_reads file t root next task branch list p

/-- Reading to the end without an error keeps the reader well formed and loses no tree. -/
theorem reader_run {ts : List Token} {r' : Reader} (run : r.run file ts = (r', none))
    (sound : r.Sound) : Draws r.held r.next r'.held r'.next ∧ r'.Sound := by
  induction ts generalizing r with
  | nil =>
    cases run
    exact ⟨.refl _ _, sound⟩
  | cons t ts ih =>
    rw [Reader.run] at run
    cases read : r.step file t with
    | error e =>
      rw [read] at run
      cases run
    | ok mid =>
      rw [read] at run
      obtain ⟨first, midSound⟩ := reader_step file t r mid read sound
      obtain ⟨rest, endSound⟩ := ih run midSound
      exact ⟨first.trans rest, endSound⟩

theorem empty_asRead : empty.root.AllOf Node.AsRead :=
  allOf_mk.mpr ⟨⟨.inl rfl, trivial⟩, eachOf_nil⟩

/-- A source without a syntax error gives a program in order, whose task lists are lists of calls.
-/
theorem parse_read (error : (parse empty.root empty.next file src).error = none) :
    Sound ReadCase ⟨(parse empty.root empty.next file src).root, [],
      (parse empty.root empty.next file src).next, ds⟩ := by
  rw [parse] at error ⊢
  cases run : Reader.run file ⟨empty.root, empty.next, .blocks⟩ (Token.scan src) with
  | mk r e =>
    rw [run] at error
    cases error
    have start : Sound ⟨empty.root, empty.next, .blocks⟩ :=
      ⟨⟨rfl, by simp [empty], by simp [empty], by simp [empty, findChild?]⟩, trivial,
        trivial⟩
    obtain ⟨moves, sound⟩ := reader_run run start
    refine ⟨sound.program, fun x => ?_, ?_⟩
    · have kept := moves.kept x
      have le : 1 ≤ r.next := moves.next_le
      have first : span 0 r.next x = own 0 x + span 1 r.next x := by
        rw [span_add (Nat.zero_le 1) le, span_succ]
      simp only [Reader.held, Mode.held, empty, Pool.start, tallies_cons, tally_mk,
        tallies_nil] at kept ⊢
      omega
    · obtain ⟨read, _⟩ := moves.known trivial
        (by simpa [Reader.held, Mode.held] using empty_asRead) (by simp [Pool.start])
      simpa using (eachOf_cons.mp read).1.imp fun _ => And.left

end TaskNet.Grammar
