import TaskNet.Proofs.Typing.Context

/-!
Types across tasks. What a sweep does to each argument of a task call is one of a few steps, and
these only widen types of parameters. A sweep that changes a type widens a parameter, and each
parameter can be widened four times, so the sweeps end with one that changes nothing: then the type
of every argument of a task call joins into the type of the parameter without changing it.
-/

namespace TaskNet

open List Program Tree TypeTag Typing TypingContext

variable {branches : List (Tree × Tree)} {places : List NodeId} {x : NodeId} {p : Program}

def Program.OfParams (p : Program) (x : NodeId) : Prop :=
  ∃ s ∈ p.siteList, s.tree.kind = .param ∧ s.tree.id = x

theorem Program.ofParams_of_site {s : Site} (inside : s ∈ p.siteList) {q : Tree}
    (param : q ∈ s.params) : p.OfParams q.id := by
  obtain ⟨member, kind⟩ := mem_childrenOf.mp param
  exact ⟨_, child_mem_siteList inside member, kind, rfl⟩

namespace TypingContext

def params (env : TypingContext) : List NodeId :=
  (env.sites.table.toList.zipIdx.filter fun e => e.1.any fun s => s.tree.kind == .param).map
    Prod.snd

theorem length_params (env : TypingContext) : env.params.length = env.paramCount := by
  have places := filter_map (f := Prod.fst)
    (p := fun s : Option Site => s.any fun s => s.tree.kind == .param)
    (l := env.sites.table.toList.zipIdx)
  rw [zipIdx_map_fst] at places
  rw [params, paramCount, places, length_map, length_map]
  rfl

theorem mem_params {env : TypingContext} :
    x ∈ env.params ↔ ∃ s, env.site? x = some s ∧ s.tree.kind = .param := by
  simp only [params, mem_map, mem_filter, site?, SiteTable.find?, Option.join_eq_some_iff,
    Prod.exists, exists_eq_right, mk_mem_zipIdx_iff_getElem?, Array.getElem?_toList]
  constructor
  · rintro ⟨_ | s, found, isParam⟩
    · cases isParam
    · exact ⟨s, found, by simpa using isParam⟩
  · rintro ⟨s, found, kind⟩
    exact ⟨some s, found, by simp [kind]⟩

/-- The parameters of a program are those of its context. -/
theorem mem_params_ofProgram {functions : OverloadTable} (accounted : p.Accounted) :
    x ∈ (ofProgram functions p).params ↔ p.OfParams x := by
  rw [mem_params]
  refine ⟨fun ⟨s, found, kind⟩ => ?_,
    fun ⟨s, inside, kind, same⟩ => ⟨s, same ▸ accounted.site?_eq inside, kind⟩⟩
  obtain ⟨inside, same⟩ := mem_of_find? found
  exact ⟨s, inside, kind, same⟩

end TypingContext

theorem Typing.putType_self (s : Typing) (x : NodeId) : s.putType x (s.typeAt x) = s := by
  have same : s.types.setIfInBounds x (s.typeAt x) = s.types := by
    refine Array.ext_getElem? fun i => ?_
    rw [Array.getElem?_setIfInBounds]
    split
    · next here =>
      subst here
      by_cases inside : x < s.types.size
      · simp [typeAt, inside]
      · simp [inside]
    · rfl
  rw [putType, same]

namespace Infer

variable {p : Program} {functions : OverloadTable} {T : Prop} {env : TypingContext}
variable {pair : Tree × Tree} {pairs : List (Tree × Tree)} {s s' s'' : Typing} {a b : Bool}
  {u : TypeTag}

/-- When an argument is a parameter of the calling task, it has a type if a given type is one. -/
def CallerTyped (env : TypingContext) (arg : Tree) (type : TypeTag) (τ : NodeId → TypeTag) : Prop :=
  ∀ v d, arg.content = .var v → v.definition.bind env.site? = some d → d.tree.kind = .param →
    type ≠ .any → τ d.tree.id ≠ .any

/-- What becomes of an argument that is a parameter of the calling task: if it has no type, it takes
that of the parameter that it is passed for. -/
inductive Takes (env : TypingContext) (arg : Tree) (u : TypeTag) (s : Typing) : Bool → Typing → Prop
  | stays (typed : CallerTyped env arg u s.typeAt) : Takes env arg u s false s
  | takes {v : Variable} {d : Site} (content : arg.content = .var v)
      (found : v.definition.bind env.site? = some d) (isParam : d.tree.kind = .param)
      (unknown : s.typeAt d.tree.id = .any) (given : u ≠ .any) :
      Takes env arg u s true (s.putType d.tree.id u)

theorem typeCaller_takes (arg : Tree) (u : TypeTag) :
    Runs T 0 (typeCaller env arg u) (Takes env arg u) := by
  rw [typeCaller]
  split
  · next v content =>
    split
    · next d found =>
      refine .seq (.look (f := typeOf d.tree.id) fun _ _ => rfl) fun type => ?_
      split
      · next given =>
        refine .seq (.step (f := setType d.tree.id u) (fun _ _ => rfl) fun _ => rfl)
          fun _ => .pure ?_
        rintro _ s ⟨rfl, _⟩ _ ⟨rfl, rfl⟩
        simp only [Bool.and_eq_true, beq_iff_eq, decide_eq_true_eq, bne_iff_ne] at given
        exact .takes content found given.1.1 given.1.2 given.2
      · next stays =>
        refine .pure ?_
        rintro _ s ⟨rfl, rfl⟩
        refine .stays fun w e isVar found' kind given unknown => stays ?_
        obtain rfl : v = w := Content.var.inj (content.symm.trans isVar)
        obtain rfl : d = e := Option.some.inj (found.symm.trans found')
        simp only [kind, given, bne_iff_ne, Bool.and_eq_true, decide_eq_true_eq, beq_self_eq_true,
          true_and, ne_eq, not_false_eq_true, and_true]
        exact unknown
    · next missing =>
      refine .pure fun s => .stays fun w e isVar found' => ?_
      obtain rfl : v = w := Content.var.inj (content.symm.trans isVar)
      cases missing.symm.trans found'
  · next other => exact .pure fun s => .stays fun w e isVar => absurd isVar (other w)

/-- What a sweep does to an argument of a task call and the parameter that it is passed for: an
argument that was given up is skipped, one whose type does not join is given up, and else the join
is the type of the parameter. -/
inductive Passed (env : TypingContext) (pair : Tree × Tree) (s : Typing) : Bool → Typing → Prop
  | skipped (given : pair.1.id ∈ s.reported) : Passed env pair s false s
  | refused (apart : (s.typeAt pair.2.id).unify (typeFrom env s.typeAt pair.1) = .notAType) :
      Passed env pair s false { s with
        diagnostics := (s.diagnostics.add .failedToUnifyType pair.1.loc [.name pair.2.name,
          .type (s.typeAt pair.2.id), .type (typeFrom env s.typeAt pair.1)])
        reported := pair.1.id :: s.reported }
  | joined {u : TypeTag} {typed : Bool} {s' : Typing}
      (join : u = (s.typeAt pair.2.id).unify (typeFrom env s.typeAt pair.1)) (joins : u ≠ .notAType)
      (caller : Takes env pair.1 u (s.putType pair.2.id u) typed s') :
      Passed env pair s (u != s.typeAt pair.2.id || typed) s'

inductive PassedAll (env : TypingContext) : List (Tree × Tree) → Typing → Bool → Typing → Prop
  | nil (s : Typing) : PassedAll env [] s false s
  | cons {pair : Tree × Tree} {rest : List (Tree × Tree)} {s s' s'' : Typing} {a b : Bool}
      (head : Passed env pair s a s') (tail : PassedAll env rest s' b s'') :
      PassedAll env (pair :: rest) s (a || b) s''

theorem sweepArguments_passed (terms : ∀ pair ∈ pairs, pair.1.IsTerm) :
    Runs T 0 (sweepArguments env pairs) (PassedAll env pairs) := by
  induction pairs with
  | nil => exact .pure .nil
  | cons pair rest ih =>
    have later := ih (forall_mem_cons.mp terms).2
    have term := terms pair (by simp)
    obtain ⟨arg, param⟩ := pair
    rw [sweepArguments]
    refine .seq (.look (f := get) fun _ _ => rfl) fun start => ?_
    split
    · next skipped =>
      refine later.imp ?_
      rintro s changed s' _ run _ ⟨rfl, rfl⟩
      exact Bool.false_or changed ▸ .cons (.skipped (by simpa using skipped)) run
    · refine .seq (.look fun s _ => exprType_resolved term s) fun type =>
        .seq (.look (f := typeOf param.id) fun _ _ => rfl) fun known =>
          .seq (join_runs arg.loc param.name known type) fun joined => ?_
      split
      · refine .seq (.step (f := modify _) (fun _ _ => rfl) fun _ => rfl) fun _ => later.imp ?_
        rintro _ changed s' _ run _ ⟨rfl, _⟩ _ (⟨_, some, _⟩ | ⟨_, apart, rfl⟩) _ ⟨rfl, rfl⟩ _
          ⟨rfl, rfl⟩ s ⟨rfl, _⟩
        · cases some
        · exact Bool.false_or changed ▸ .cons (.refused apart) run
      · next u =>
        have tail : Runs T 0 (do
            let typed ← typeCaller env arg u
            let later ← sweepArguments env rest
            pure (u != known || typed || later)) fun s changed s' => ∃ typed later mid,
              changed = (u != known || typed || later) ∧ Takes env arg u s typed mid ∧
                PassedAll env rest mid later s' :=
          .seq (typeCaller_takes arg u) fun typed => .seq later fun others => .pure
            fun _ _ last _ first => ⟨typed, others, _, rfl, first, last⟩
        split
        · refine .seq (.step (f := setType param.id u) (fun _ _ => rfl) fun _ => rfl)
            fun _ => tail.imp ?_
          rintro _ _ s' _ ⟨typed, others, mid, rfl, caller, run⟩ s ⟨rfl, _⟩ _
            (⟨rfl, same, joins⟩ | ⟨none, _⟩) _ ⟨rfl, rfl⟩ _ ⟨rfl, rfl⟩ _ ⟨rfl, _⟩
          · exact .cons (.joined (Option.some.inj same) (Option.some.inj same ▸ joins) caller) run
          · cases none
        · next stays =>
          refine tail.imp ?_
          rintro s _ s' _ ⟨typed, others, mid, rfl, caller, run⟩ _ (⟨rfl, same, joins⟩ | ⟨none, _⟩)
            _ ⟨rfl, rfl⟩ _ ⟨rfl, rfl⟩ _ ⟨rfl, _⟩
          · have unchanged : u = s.typeAt param.id := by simpa [typeAt] using stays
            refine .cons (.joined (Option.some.inj same) (Option.some.inj same ▸ joins) ?_) run
            rw [unchanged, putType_self]
            exact unchanged ▸ caller
          · cases none

theorem mem_of_declaration? {content : Content} {d : Site}
    (found : (ofProgram functions p).declaration? content = some d) :
    d ∈ p.siteList := by
  rw [declaration?.eq_def] at found
  split at found
  · obtain ⟨x, _, site⟩ := Option.bind_eq_some_iff.mp found
    exact (mem_of_find? site).1
  · cases found

/-- The type of an argument joins into that of the parameter without changing it, and a parameter of
the calling task that is passed has a type if the other has one. -/
structure ArgumentFits (env : TypingContext) (pair : Tree × Tree) (τ : NodeId → TypeTag) :
    Prop where
  joins : (τ pair.2.id).unify (typeFrom env τ pair.1) = τ pair.2.id
  caller : CallerTyped env pair.1 (τ pair.2.id) τ

/-- The arguments of a call fit, if it is a call of a task. -/
def CallFits (env : TypingContext) (call : Tree) (τ : NodeId → TypeTag) : Prop :=
  ∀ d, env.declaration? call.content = some d → d.tree.kind = .task →
    ∀ pair ∈ call.children.zip d.params, ArgumentFits env pair τ

/-- The entries of the task lists of a list of cases are expressions. -/
def Listed (env : TypingContext) (branches : List (Tree × Tree)) : Prop :=
  ∀ b ∈ branches, ∀ t ∈ callsOf env b.2, t.IsTerm

/-- A condition on the arguments of all task calls of a list of cases and the parameters that they
are passed for. -/
def EachArgument (env : TypingContext) (branches : List (Tree × Tree)) (P : Tree × Tree → Prop) :
    Prop :=
  ∀ b ∈ branches, ∀ t ∈ callsOf env b.2, ∀ d, env.declaration? t.content = some d →
    d.tree.kind = .task → ∀ pair ∈ t.children.zip d.params, P pair

/-- The arguments of all task calls of a list of cases fit. -/
def AllFit (env : TypingContext) (branches : List (Tree × Tree)) (τ : NodeId → TypeTag) : Prop :=
  ∀ b ∈ branches, ∀ t ∈ callsOf env b.2, CallFits env t τ

/-- The arguments of the task calls of a list of cases, with the parameters that they are passed
for. -/
def taskArguments (env : TypingContext) (branches : List (Tree × Tree)) : List (Tree × Tree) :=
  branches.flatMap fun b =>
    (callsOf env b.2).flatMap (argumentsOf env fun d => d.tree.kind == .task)

theorem eachArgument_iff {P : Tree × Tree → Prop} :
    EachArgument env branches P ↔ ∀ pair ∈ taskArguments env branches, P pair := by
  simp only [EachArgument, taskArguments, mem_flatMap, mem_argumentsOf, beq_iff_eq]
  constructor
  · rintro each pair ⟨b, member, t, entry, d, declared, isTask, zipped⟩
    exact each b member t entry d declared isTask pair zipped
  · intro each b member t entry d declared isTask pair zipped
    exact each pair ⟨b, member, t, entry, d, declared, isTask, zipped⟩

theorem sweepArguments_append (xs ys : List (Tree × Tree)) :
    sweepArguments env (xs ++ ys) =
      sweepArguments env xs >>= fun a => sweepArguments env ys >>= fun b => pure (a || b) := by
  induction xs with
  | nil =>
    rw [sweepArguments, pure_bind]
    simp only [Bool.false_or, nil_append, bind_pure]
  | cons pair rest ih =>
    obtain ⟨arg, param⟩ := pair
    rw [cons_append, sweepArguments, sweepArguments, ih, bind_assoc]
    congr 1
    funext s
    split
    · rfl
    simp only [bind_assoc]
    congr 1
    funext type
    congr 1
    funext known
    congr 1
    funext joined
    cases joined with
    | none => simp only [bind_assoc]
    | some u =>
      dsimp only
      split <;> simp only [bind_assoc, pure_bind, Bool.or_assoc]

theorem sweepCalls_eq (ts : List Tree) :
    sweepCalls env ts =
      sweepArguments env (ts.flatMap (argumentsOf env fun d => d.tree.kind == .task)) := by
  induction ts with
  | nil => rfl
  | cons t ts ih =>
    rw [sweepCalls, flatMap_cons, sweepArguments_append, ih]
    split
    · next found => rw [argumentsOf, found]
    · next missing => rw [argumentsOf, missing, sweepArguments]

/-- A sweep goes over the arguments of all task calls in order. -/
theorem sweep_eq (branches : List (Tree × Tree)) :
    sweep env branches = sweepArguments env (taskArguments env branches) := by
  induction branches with
  | nil => rfl
  | cons b rest ih =>
    have arguments : taskArguments env (b :: rest) =
        (callsOf env b.2).flatMap (argumentsOf env fun d => d.tree.kind == .task) ++
          taskArguments env rest := flatMap_cons
    rw [sweep, ih, sweepCalls_eq, arguments, sweepArguments_append]

theorem terms_of_listed (listed : Listed env branches) :
    ∀ pair ∈ taskArguments env branches, pair.1.IsTerm :=
  eachArgument_iff.mp fun b member t entry _ _ _ _ zipped =>
    (listed b member t entry).below (of_mem_zip zipped).1

/-- What a sweep does to all arguments of task calls. -/
theorem sweep_passed (listed : Listed env branches) :
    Runs T 0 (sweep env branches) (PassedAll env (taskArguments env branches)) := by
  rw [sweep_eq]
  exact sweepArguments_passed (terms_of_listed listed)

/-- Both nodes that an argument of a task call may give a type are among some places. -/
structure Writes (env : TypingContext) (places : List NodeId) (pair : Tree × Tree) : Prop where
  param : pair.2.id ∈ places
  caller : ∀ v d, pair.1.content = .var v → v.definition.bind env.site? = some d →
    d.tree.kind = .param → d.tree.id ∈ places

/-- Types are widened, at some places, no report is taken back, and without a report no argument is
given up. -/
structure Widens (places : List NodeId) (s s' : Typing) : Prop where
  raised : Raised (· ∈ places) s.types s'.types
  signatures : s'.signatures = s.signatures
  reports : s.problems ≤ s'.problems
  reported : s'.problems = s.problems → s'.reported = s.reported

theorem Widens.refl (s : Typing) : Widens places s s :=
  ⟨.refl _, rfl, Nat.le_refl _, fun _ => rfl⟩

theorem Widens.trans (first : Widens places s s') (second : Widens places s' s'') :
    Widens places s s'' := by
  have one := first.reports
  have two := second.reports
  exact ⟨first.raised.trans second.raised, second.signatures.trans first.signatures,
    Nat.le_trans one two,
    fun same => (second.reported (by omega)).trans (first.reported (by omega))⟩

/-- What a part of a sweep comes to. It widens types and says whether a type changed: then one was
widened, and otherwise all types are as before and the arguments at hand fit, unless one was given
up. -/
structure Sweeps (places : List NodeId) (Fits : (NodeId → TypeTag) → Prop) (s : Typing)
    (changed : Bool) (s' : Typing) : Prop extends Widens places s s' where
  climbs : (∀ x ∈ places, x < s.types.size) →
    climbed places s.types + changed.toNat ≤ climbed places s'.types
  fits : changed = false → s'.types = s.types ∧
    (s'.problems = s.problems → s.reported = [] → Fits s.typeAt)

namespace Sweeps

variable {places : List NodeId} {Fits Fits' : (NodeId → TypeTag) → Prop}

theorem refl (fits : s.reported = [] → Fits s.typeAt) : Sweeps places Fits s false s :=
  ⟨.refl s, fun _ => Nat.le_refl _, fun _ => ⟨rfl, fun _ => fits⟩⟩

theorem append (first : Sweeps places Fits s a s') (second : Sweeps places Fits' s' b s'') :
    Sweeps places (fun τ => Fits τ ∧ Fits' τ) s (a || b) s'' := by
  refine ⟨first.toWidens.trans second.toWidens, fun inside => ?_, fun unchanged => ?_⟩
  · have low := first.climbs inside
    have high := second.climbs fun x place => first.raised.size ▸ inside x place
    have sum : (a || b).toNat ≤ a.toNat + b.toNat := by cases a <;> cases b <;> decide
    omega
  · obtain ⟨left, right⟩ := Bool.or_eq_false_iff.mp unchanged
    obtain ⟨same, fits⟩ := first.fits left
    obtain ⟨same', fits'⟩ := second.fits right
    have one := first.reports
    have two := second.reports
    refine ⟨same'.trans same, fun quiet none => ⟨fits (by omega) none, ?_⟩⟩
    have types : s'.typeAt = s.typeAt := funext fun x => by rw [typeAt, typeAt, same]
    exact types ▸ fits' (by omega) ((first.reported (by omega)).trans none)

theorem imp (sweeps : Sweeps places Fits s a s') (weaker : ∀ τ, Fits τ → Fits' τ) :
    Sweeps places Fits' s a s' :=
  { sweeps with fits := fun unchanged => ⟨(sweeps.fits unchanged).1, fun quiet none =>
      weaker _ ((sweeps.fits unchanged).2 quiet none)⟩ }

/-- A type is written at one of the places. -/
theorem putType (place : x ∈ places) (rises : (s.typeAt x).Below u) (typed : u ≠ .notAType)
    (wider : u ≠ s.typeAt x → (s.typeAt x).height < u.height)
    (fits : u = s.typeAt x → Fits s.typeAt) :
    Sweeps places Fits s (u != s.typeAt x) (s.putType x u) := by
  have raised : Raised (· ∈ places) s.types (s.types.setIfInBounds x u) := .set place rises typed
  refine ⟨⟨raised, rfl, Nat.le_refl _, fun _ => rfl⟩, fun inside => ?_, fun unchanged => ?_⟩
  · by_cases same : u = s.typeAt x
    · rw [same, bne_self_eq_false, putType_self]
      exact Nat.le_refl _
    · rw [bne_iff_ne.mpr same]
      exact raised.climbed_lt place (inside x place) (wider same)
  · have same := bne_eq_false_iff_eq.mp unchanged
    rw [same, putType_self]
    exact ⟨rfl, fun _ _ => fits same⟩

end Sweeps

theorem typeFrom_known (concrete : env.functions.Concrete) {τ : NodeId → TypeTag}
    (known : ∀ x, (τ x).Known)
    (t : Tree) : (typeFrom env τ t).Known ∨ typeFrom env τ t = .notAType := by
  cases t with
  | mk n cs =>
    rw [typeFrom_mk]
    exact nodeRule_known concrete _ fun v _ => known _

theorem Takes.sweeps {arg : Tree} (takes : Takes env arg u s a s')
    (inside : ∀ v d, arg.content = .var v → v.definition.bind env.site? = some d →
      d.tree.kind = .param → d.tree.id ∈ places) (typed : u ≠ .notAType) :
    Sweeps places (CallerTyped env arg u) s a s' := by
  cases takes with
  | stays typed => exact .refl fun _ => typed
  | @takes v d content found isParam unknown given =>
    have changes : u ≠ s.typeAt d.tree.id := unknown ▸ given
    refine bne_iff_ne.mpr changes ▸ .putType (inside v d content found isParam) (unknown ▸ .any u)
      typed (fun _ => ?_) fun same => absurd same changes
    rw [unknown]
    exact height_pos given

/-- What is done to one argument is part of a sweep. -/
theorem Passed.sweeps (passed : Passed env pair s a s')
    (writes : Writes env places pair) : Sweeps places (ArgumentFits env pair) s a s' := by
  cases passed with
  | skipped given => exact .refl fun none => absurd given (by simp [none])
  | refused apart =>
    have more : ∀ {d : Collector}, d.size = s.diagnostics.size + 1 → s.problems < d.size :=
      fun same => same ▸ Nat.lt_succ_self _
    refine ⟨⟨.refl _, rfl, Nat.le_of_lt (more (by simp)), fun same => ?_⟩, fun _ => Nat.le_refl _,
      fun _ => ⟨rfl, fun same => ?_⟩⟩
    all_goals exact absurd same (Nat.ne_of_gt (more (by simp)))
  | @joined u typed _ join joins caller =>
    have first : Sweeps places (fun τ => (τ pair.2.id).unify (typeFrom env τ pair.1) = τ pair.2.id ∧
        u = τ pair.2.id) s (u != s.typeAt pair.2.id) (s.putType pair.2.id u) :=
      .putType writes.param (join ▸ below_unify_left _ _) joins
        (fun changes => join ▸ height_lt_unify (join ▸ joins) (join ▸ changes))
        fun same => ⟨join.symm.trans same, same⟩
    exact (first.append (caller.sweeps writes.caller joins)).imp fun τ ⟨⟨fits, same⟩, typed⟩ =>
      ⟨fits, same ▸ typed⟩

/-- Types of nodes stay known. -/
theorem Passed.known (passed : Passed env pair s a s') (concrete : env.functions.Concrete)
    (known : s.TypesKnown) : s'.TypesKnown := by
  cases passed with
  | skipped => exact known
  | refused => exact known
  | joined join joins caller =>
    have isKnown := join ▸ unify_known (known pair.2.id) (typeFrom_known concrete known pair.1)
      (join ▸ joins)
    cases caller with
    | stays => exact known.putType _ isKnown
    | takes => exact (known.putType _ isKnown).putType _ isKnown

theorem PassedAll.sweeps (passed : PassedAll env pairs s a s')
    (writes : ∀ pair ∈ pairs, Writes env places pair) :
    Sweeps places (fun τ => ∀ pair ∈ pairs, ArgumentFits env pair τ) s a s' := by
  induction passed with
  | nil s => exact .refl fun _ => by simp
  | cons head _ ih =>
    exact ((head.sweeps (writes _ (by simp))).append (ih (forall_mem_cons.mp writes).2)).imp
      fun _ fits => forall_mem_cons.mpr fits

theorem PassedAll.known (passed : PassedAll env pairs s a s') (concrete : env.functions.Concrete)
    (known : s.TypesKnown) : s'.TypesKnown := by
  induction passed with
  | nil => exact known
  | cons head _ ih => exact ih (head.known concrete known)

/-- Sweeps until one changes nothing, unless no more may be made, and their number. -/
inductive Sweeping (env : TypingContext) (branches : List (Tree × Tree)) :
    Nat → Typing → Nat → Typing → Prop
  | out (s : Typing) : Sweeping env branches 0 s 0 s
  | last {n : Nat} {s s' : Typing} (ran : (sweep env branches).run s = (.ok false, s')) :
      Sweeping env branches (n + 1) s 1 s'
  | again {n k : Nat} {s s' s'' : Typing} (ran : (sweep env branches).run s = (.ok true, s'))
      (rest : Sweeping env branches n s' k s'') : Sweeping env branches (n + 1) s (k + 1) s''

section Sweeping

variable {branches : List (Tree × Tree)} {places : List NodeId} {n k : Nat}

theorem propagateFor_sweeping (listed : Listed env branches) (n : Nat) :
    Runs T 0 (propagateFor env branches n) (Sweeping env branches n) := by
  induction n with
  | zero => exact .pure .out
  | succ n ih =>
    rw [propagateFor]
    refine .seq ((sweep_passed listed).imp fun _ _ _ ended _ => ended) fun changed => ?_
    split
    · next more => exact .seq ih fun _ => .pure fun _ _ rest _ ran => .again (more ▸ ran) rest
    · next unchanged =>
      exact .pure fun _ _ ran => .last (Bool.eq_false_of_not_eq_true unchanged ▸ ran)

variable (listed : Listed env branches)
variable (writes : ∀ pair ∈ taskArguments env branches, Writes env places pair)

include listed

theorem Sweeping.known (sweeping : Sweeping env branches n s k s')
    (concrete : env.functions.Concrete) (known : s.TypesKnown) : s'.TypesKnown := by
  have each : ∀ {s s' a}, (sweep env branches).run s = (.ok a, s') → s.TypesKnown → s'.TypesKnown :=
    fun ran => ((sweep_passed (T := True) listed).of_eq (Nat.zero_le _) ran).known concrete
  induction sweeping with
  | out => exact known
  | last ran => exact each ran known
  | again ran _ ih => exact ih (each ran known)

include writes

/-- What a sweep comes to. -/
theorem sweeps_of_run (ran : (sweep env branches).run s = (.ok a, s')) :
    Sweeps places (AllFit env branches) s a s' :=
  (((sweep_passed (T := True) listed).of_eq (Nat.zero_le _) ran).sweeps writes).imp
    fun _ fits => eachArgument_iff.mpr fits

theorem Sweeping.widens (sweeping : Sweeping env branches n s k s') : Widens places s s' := by
  induction sweeping with
  | out s => exact .refl s
  | last ran => exact (sweeps_of_run listed writes ran).toWidens
  | again ran _ ih => exact (sweeps_of_run listed writes ran).toWidens.trans ih

/-- When there may be as many sweeps as types can be widened, and one more, all arguments fit in the
end. -/
theorem Sweeping.fits (sweeping : Sweeping env branches n s k s')
    (inside : ∀ x ∈ places, x < s.types.size)
    (enough : 4 * places.length < climbed places s.types + n)
    (quiet : s'.problems = s.problems) (none : s.reported = []) :
    AllFit env branches s'.typeAt := by
  induction sweeping with
  | out s =>
    have most := climbed_le places s.types
    omega
  | @last n s s' ran =>
    obtain ⟨same, fits⟩ := (sweeps_of_run listed writes ran).fits rfl
    have types : s'.typeAt = s.typeAt := funext fun x => by rw [typeAt, typeAt, same]
    exact types ▸ fits quiet none
  | again ran rest ih =>
    have first := sweeps_of_run listed writes ran
    have progress := first.climbs inside
    have one := first.reports
    have two := (rest.widens listed writes).reports
    rw [Bool.toNat_true] at progress
    exact ih (fun x place => first.raised.size ▸ inside x place) (by omega) (by omega)
      ((first.reported (by omega)).trans none)

end Sweeping

/-- Types are passed on between parameters. -/
abbrev Passes (p : Program) : Typing → Typing → Prop :=
  Advances TypesKnown p.OfParams

/-- The nodes that get types by task calls are parameters. -/
theorem writes_params (accounted : p.Accounted) :
    ∀ pair ∈ taskArguments (.ofProgram functions p) branches,
      Writes (.ofProgram functions p) (ofProgram functions p).params pair := by
  refine eachArgument_iff.mp fun b _ t _ d declared _ pair zipped =>
    ⟨?_, fun v c _ found kind => ?_⟩
  · exact (mem_params_ofProgram accounted).mpr
      (ofParams_of_site (mem_of_declaration? declared) (of_mem_zip zipped).2)
  · obtain ⟨x, _, site⟩ := Option.bind_eq_some_iff.mp found
    exact (mem_params_ofProgram accounted).mpr ⟨c, (mem_of_find? site).1, kind, rfl⟩

/-- The sweeps only widen types, and after them all arguments of task calls fit. -/
theorem propagate_yields (accounted : p.Accounted) (concrete : functions.Concrete)
    (listed : Listed (.ofProgram functions p) branches) :
    Yields T (propagate (.ofProgram functions p) branches) fun s _ s' => Passes p s s' ∧
      (∀ x, (s.typeAt x).Below (s'.typeAt x)) ∧ (s.types.size = p.next → s.reported = [] →
        AllFit (.ofProgram functions p) branches s'.typeAt) := by
  have writes : ∀ pair ∈ taskArguments (.ofProgram functions p) branches, _ :=
    writes_params accounted
  refine (propagateFor_sweeping listed _).imp fun s k s' _ sweeping => ?_
  have widens := sweeping.widens listed writes
  refine ⟨widens.reports, fun quiet => ⟨⟨widens.raised.size, widens.signatures,
    widens.reported quiet, fun x outside => widens.raised.others x fun param =>
      outside ((mem_params_ofProgram accounted).mp param),
    sweeping.known listed concrete⟩, widens.raised.rises, fun size none => ?_⟩⟩
  refine sweeping.fits listed writes (fun x param => ?_) ?_ quiet none
  · obtain ⟨site, inside, _, rfl⟩ := (mem_params_ofProgram accounted).mp param
    exact size ▸ accounted.lt_next (mem_nodes_of_mem_siteList inside)
  · rw [length_params]
    omega

/-- A parameter takes a type from a task list only if it has none. -/
theorem seedFrom_yields (task : Tree) (ts : List Tree) :
    Yields T (seedFrom (.ofProgram functions p) task ts) fun s _ s' => Passes p s s' ∧
      ∀ x, (s.typeAt x).Below (s'.typeAt x) := by
  induction ts with
  | nil => exact .pure fun s => ⟨.refl s, fun _ => .refl _⟩
  | cons t ts ih =>
    rw [seedFrom]
    split
    · next v content =>
      split
      · next d found =>
        obtain ⟨x, _, site⟩ := Option.bind_eq_some_iff.mp found
        refine .seq (typeOf_yields t.id) fun use => .seq (typeOf_yields d.tree.id) fun type => ?_
        split
        · next given =>
          refine .seq (setType_yields d.tree.id use) fun _ => ih.imp ?_
          rintro _ _ s' ⟨run, rises⟩ s rfl _ ⟨rfl, rfl⟩ _ ⟨rfl, rfl⟩
          simp only [Bool.and_eq_true, beq_iff_eq, decide_eq_true_eq] at given
          obtain ⟨⟨⟨isParam, _⟩, unknown⟩, concrete⟩ := given
          refine ⟨.trans (.putType ⟨d, (mem_of_find? site).1, isParam, rfl⟩
            fun holds => holds.putType _ (.inr concrete)) run, fun x => .trans ?_ (rises x)⟩
          rw [typeAt_putType]
          split
          · next here =>
            rw [← here.1, unknown]
            exact .any _
          · exact .refl _
        · refine ih.imp ?_
          rintro _ _ s' run _ ⟨rfl, _⟩ _ ⟨rfl, _⟩
          exact run
      · exact ih
    · exact ih

theorem seed_yields (branches : List (Tree × Tree)) :
    Yields T (seed (.ofProgram functions p) branches) fun s _ s' => Passes p s s' ∧
      ∀ x, (s.typeAt x).Below (s'.typeAt x) := by
  induction branches with
  | nil => exact .pure fun s => ⟨.refl s, fun _ => .refl _⟩
  | cons b rest ih =>
    rw [seed]
    exact .seq (seedFrom_yields b.1 _) fun _ => ih.imp fun _ _ _ last _ first =>
      ⟨first.1.trans last.1, fun x => (first.2 x).trans (last.2 x)⟩

/-- When nothing is reported, all parameters have got a type. -/
theorem reportUntyped_yields (ps : List Tree) :
    Yields T (reportUntyped ps) fun s _ s' => s' = s ∧ ∀ q ∈ ps, s.typeAt q.id ≠ .any := by
  induction ps with
  | nil => exact .pure fun s => ⟨rfl, by simp⟩
  | cons q ps ih =>
    rw [reportUntyped]
    refine .seq (typeOf_yields q.id) fun type => ?_
    split
    · exact report_seq_yields fun _ => ih.imp fun _ _ _ _ => trivial
    · next given =>
      refine ih.imp ?_
      rintro s _ _ ⟨rfl, rest⟩ _ ⟨rfl, rfl⟩
      exact ⟨rfl, by simpa [given] using rest⟩

end Infer

end TaskNet
