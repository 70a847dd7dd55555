import Mathlib.Logic.Function.Basic
import TaskNet.Proofs.Macro.SameUnder

/-!
Expansions of one macro repeat each other. Two runs of macro expansion that start from trees which
are the same under a renaming go through the same steps, and what they lead to is again the same
under a renaming: it agrees with the first one on all names that were known, and takes the names
that the first run is given to those that the second is given. The renaming never touches a name of
the program, so no reference to a macro and no parameter is affected by it.
-/

namespace TaskNet

open Function List MacroTable

variable {f : String → String}

open Tree Expander

/-- A renaming leaves the names of a program, and leads to none of them from another name. -/
def Respects (names : List String) (f : String → String) : Prop :=
  ∀ x, f x = x ∨ x ∉ names ∧ f x ∉ names

theorem Respects.fixes {names : List String} (respects : Respects names f)
    {x : String} (member : x ∈ names) : f x = x :=
  (respects x).resolve_right fun outside => outside.1 member

namespace Expander

variable {t : Tree} {f g : String → String}

/-- A name that is taken; the empty name needs not be. -/
def Knows (s : Expander) (x : String) : Prop :=
  x = "" ∨ x ∈ s.supply.taken

def KnowsTree (s : Expander) (t : Tree) : Prop :=
  t.EachVariable fun v => s.Knows v.name

variable {s s' : Expander} {given names : List String}

theorem Knows.mono {x : String} (knows : s.Knows x) (grows : s.supply.Grows given s'.supply) :
    s'.Knows x :=
  knows.imp_right fun taken => grows.mem_taken.mpr (.inr taken)

theorem KnowsTree.mono (knows : s.KnowsTree t) (grows : s.supply.Grows given s'.supply) :
    s'.KnowsTree t :=
  EachVariable.imp knows fun _ here => here.mono grows

theorem KnowsTree.below {c : Tree} (knows : s.KnowsTree t) (member : c ∈ t.children) :
    s.KnowsTree c :=
  EachContent.below (P := fun c => ∀ v, c = .var v → s.Knows v.name) knows member

theorem Supplied.knows (supplied : s.Supplied names) {x : String} (member : x ∈ names) :
    s.Knows x :=
  or_iff_not_imp_left.mpr (supplied x member)

/-- A name that is given was not known before. -/
theorem not_knows_of_given (grows : s.supply.Grows given s'.supply) {x : String}
    (member : x ∈ given) : ¬ s.Knows x :=
  not_or.mpr ⟨grows.nonempty x member, grows.free x member⟩

/-- One renaming goes on as another one on the names that are known, and respects a program like it.
-/
structure Extends (names : List String) (s : Expander) (f g : String → String) : Prop where
  respects : Respects names g
  agrees : ∀ x, s.Knows x → g x = f x

theorem Extends.refl (respects : Respects names f) : s.Extends names f f :=
  ⟨respects, fun _ _ => rfl⟩

theorem Extends.trans {h : String → String} (first : s.Extends names f g)
    (grows : s.supply.Grows given s'.supply) (second : s'.Extends names g h) :
    s.Extends names f h :=
  ⟨second.respects, fun x knows =>
    (second.agrees x (knows.mono grows)).trans (first.agrees x knows)⟩

theorem Extends.sameUnder (extension : s.Extends names f g) {t u : Tree} (knows : s.KnowsTree t)
    (same : SameUnder f t u) : SameUnder g t u :=
  same.congr (EachVariable.imp knows fun v here => (extension.agrees v.name here).symm)

theorem Extends.sameUnder_list (extension : s.Extends names f g) {ts us : List Tree}
    (knows : ∀ t ∈ ts, s.KnowsTree t) (same : Forall₂ (SameUnder f) ts us) :
    Forall₂ (SameUnder g) ts us :=
  ((forall₂_and_left _ _).mpr ⟨knows, same⟩).imp fun _ _ both => extension.sameUnder both.1 both.2

/-- Names that are known are renamed as before. -/
theorem Extends.map_eq (extension : s.Extends names f g) {known : List String}
    (knows : ∀ x ∈ known, s.Knows x) : known.map g = known.map f :=
  map_congr_left fun x member => extension.agrees x (knows x member)

/-- Two runs can be compared: the trees of the second are the same under a renaming as those of the
first, whose names are known. -/
structure Parallel (names : List String) (f : String → String) (ts : List Tree) (s : Expander)
    (us : List Tree) (r : Expander) : Prop where
  supplied : s.Supplied names
  supplied' : r.Supplied names
  respects : Respects names f
  knows : ∀ t ∈ ts, s.KnowsTree t
  same : Forall₂ (SameUnder f) ts us

namespace Parallel

variable {f g : String → String} {n n' : Node} {ts cs cs' ts' : List Tree} {t t' : Tree}
  {r r' : Expander} {given' : List String}

/-- The children of the first trees. -/
theorem children (parallel : Parallel names f (.mk n cs :: ts) s (.mk n' cs' :: ts') r) :
    Parallel names f cs s cs' r := by
  refine ⟨parallel.supplied, parallel.supplied', parallel.respects, fun c member => ?_, ?_⟩
  · exact (parallel.knows _ mem_cons_self).below member
  · exact (forall₂_cons.mp parallel.same).1.children

/-- The first trees with other children. -/
theorem node (parallel : Parallel names f (.mk n cs :: ts) s (.mk n' cs' :: ts') r)
    (extension : s.Extends names f g) {ds ds' : List Tree} (below : Forall₂ (SameUnder g) ds ds') :
    SameUnder g (.mk n ds) (.mk n' ds') := by
  have head := extension.sameUnder (parallel.knows _ mem_cons_self)
    (forall₂_cons.mp parallel.same).1
  obtain ⟨type, content, _⟩ := sameUnder_mk.mp head
  exact sameUnder_mk.mpr ⟨type, content, below⟩

/-- The trees after the first ones, when those are done. -/
theorem rest (parallel : Parallel names f (t :: ts) s (t' :: ts') r)
    (extension : s.Extends names f g)
    (grows : s.supply.Grows given s'.supply) (grows' : r.supply.Grows given' r'.supply) :
    Parallel names g ts s' ts' r' := by
  have knows : ∀ t ∈ ts, s.KnowsTree t := fun t member => parallel.knows t (by simp [member])
  exact ⟨parallel.supplied.mono grows, parallel.supplied'.mono grows', extension.respects,
    fun t member => (knows t member).mono grows,
    extension.sameUnder_list knows (forall₂_cons.mp parallel.same).2⟩

end Parallel

/-- What two runs lead to is the same under an extension of a renaming, which takes the names given
in the first run to those given in the second. -/
def Repeats (names : List String) (f : String → String) (s : Expander) (us us' : List Tree)
    (given given' : List String) : Prop :=
  ∃ g, s.Extends names f g ∧ Forall₂ (SameUnder g) us us' ∧ given' = given.map g

namespace Repeats

variable {f g : String → String} {us us' : List Tree} {u u' : Tree}
  {given' later later' : List String}

/-- Names were given before. -/
theorem after (extension : s.Extends names f g) (grows : s.supply.Grows given s'.supply)
    (newNames : given' = given.map g) (rest : Repeats names g s' us us' later later') :
    Repeats names f s us us' (given ++ later) (given' ++ later') := by
  obtain ⟨h, further, same, laterNames⟩ := rest
  refine ⟨h, extension.trans grows further, same, ?_⟩
  rw [map_append, newNames, laterNames,
    further.map_eq fun name new => .inr (grows.mem_taken.mpr (.inl new))]

/-- The first trees are done, and then the others. -/
theorem cons (head : Repeats names f s [u] [u'] given given')
    (grows : s.supply.Grows given s'.supply) (knows : s'.KnowsTree u)
    (rest : ∀ g, s.Extends names f g → Repeats names g s' us us' later later') :
    Repeats names f s (u :: us) (u' :: us') (given ++ later) (given' ++ later') := by
  obtain ⟨g, extension, same, newNames⟩ := head
  obtain ⟨h, further, others, laterNames⟩ := rest g extension
  have first := further.sameUnder knows (forall₂_cons.mp same).1
  exact after extension grows newNames ⟨h, further, .cons first others, laterNames⟩

end Repeats

end Expander

namespace MacroTable

/-- The names that macros, their parameters and the variables in their bodies have. -/
structure NamedIn (table : MacroTable) (names : List String) : Prop where
  macros : ∀ m ∈ table.declared, m.name ∈ names
  formals : ∀ m ∈ table.declared, ∀ x ∈ m.formals, x ∈ names
  bodies : ∀ m ∈ table.declared, ∀ body, m.body = some body →
    body.EachVariable fun v => v.name ∈ names

variable {table : MacroTable} {names : List String} {marked : List NodeId} {scope : Option NodeId}
  {f : String → String} {t u : Tree}

namespace NamedIn

variable (named : table.NamedIn names)
include named

/-- A name that is not of the program means no macro. -/
theorem lookup?_eq_none {x : String} (outside : x ∉ names) : table.lookup? scope x = none := by
  have undeclared : ∀ scope, table.declaredIn? scope x = none := by
    intro scope
    refine find?_eq_none.mpr fun m declared => ?_
    simp only [Bool.and_eq_true, beq_iff_eq, not_and]
    rintro _ rfl
    exact outside (named.macros m declared)
  rw [lookup?, undeclared, undeclared]
  split <;> rfl

variable (respects : Respects names f)
include respects

/-- A renaming that respects the names of the program leads to no other macro. -/
theorem refer?_renameVariable (c : Content) :
    table.refer? scope (c.renameVariable f) = table.refer? scope c := by
  cases c with
  | var v =>
    have same : table.lookup? scope (f v.name) = table.lookup? scope v.name := by
      rcases respects v.name with left | ⟨outside, outside'⟩
      · rw [left]
      · rw [named.lookup?_eq_none outside, named.lookup?_eq_none outside']
    change (table.lookup? scope (f v.name)).filter _ = (table.lookup? scope v.name).filter _
    rw [same]
  | _ => rfl

/-- Trees that are the same under a renaming refer to the same macro, with as many arguments. -/
theorem refer?_sameUnder (same : SameUnder f t u) (scope : Option NodeId) :
    table.refer? scope u.content = table.refer? scope t.content ∧ u.kind = t.kind ∧
      u.children.length = t.children.length := by
  refine ⟨?_, same.kind, same.children.length_eq.symm⟩
  rw [same.content]
  exact named.refer?_renameVariable respects t.content

theorem expansion?_sameUnder (same : SameUnder f t u) :
    table.expansion? marked scope u = table.expansion? marked scope t := by
  obtain ⟨means, kind, length⟩ := named.refer?_sameUnder respects same scope
  rw [expansion?, expansion?, means, kind, length]

/-- What is left of nodes that are the same under a renaming is the same under it. -/
theorem expandNode_sameUnder (same : SameUnder f t u) {t' u' : Tree} {s s' r r' : Expander}
    (first : (expandNode table marked (fun _ t => pure t) scope t).run s = (t', s'))
    (second : (expandNode table marked (fun _ t => pure t) scope u).run r = (u', r')) :
    SameUnder f t' u' := by
  obtain ⟨means, kind, length⟩ := named.refer?_sameUnder respects same scope
  rw [expandNode] at first second
  rw [means, kind, length] at second
  generalize table.refer? scope t.content = refers at first second
  cases refers with
  | none =>
    cases first
    cases second
    exact same
  | some m =>
    dsimp only at first second
    split_ifs at first second
    · cases first
      cases second
      exact same.markError _
    · cases first
      cases second
      exact same.markError _
    · generalize m.body = body at first second
      cases body <;> cases first <;> cases second <;> exact same

end NamedIn

end MacroTable

namespace Expansion

variable {table : MacroTable} {names : List String} {x y : Expansion} {f : String → String}

theorem Steps.grows (steps : x.Steps table) : x.start.supply.Grows x.names x.named.supply :=
  steps.isInstance.gives.grows

/-- The names that an expansion is given are not of the program. -/
theorem Steps.names_outside (steps : x.Steps table) (supplied : x.start.Supplied names)
    {name : String} (given : name ∈ x.names) : name ∉ names := by
  obtain ⟨_, paired, rfl⟩ := mem_map.mp given
  exact steps.isInstance.outside supplied paired

/-- The instances of one body are the same under a renaming that takes the names of the first
expansion to those of the second. -/
theorem Steps.copies (named : table.NamedIn names) (first : x.Steps table) (second : y.Steps table)
    (template : y.template = x.template) (body : y.body = x.body)
    (supplied : x.start.Supplied names)
    (supplied' : y.start.Supplied names) (respects : Respects names f) :
    ∃ g, x.start.Extends names f g ∧ SameUnder g x.copy y.copy ∧ y.names = x.names.map g := by
  have locals : y.pairs.map Prod.fst = x.pairs.map Prod.fst := by
    rw [first.isInstance.locals, second.isInstance.locals, template, body]
  have length : y.names.length = x.names.length := by
    simpa [Expansion.names] using congrArg length locals
  obtain ⟨g, given, other⟩ := exists_map_eq first.grows.distinct length f
  have extension : x.start.Extends names f g := by
    refine ⟨fun name => ?_, fun name knows => other name fun new =>
      Expander.not_knows_of_given first.grows new knows⟩
    by_cases new : name ∈ x.names
    · refine .inr ⟨first.names_outside supplied new, second.names_outside supplied' ?_⟩
      rw [given]
      exact mem_map_of_mem new
    · rw [other name new]
      exact respects name
  refine ⟨g, extension, ?_, given⟩
  have pairs : y.pairs = x.pairs.map fun pair => (pair.1, g pair.2) := by
    refine (zip_of_prod locals given).trans (zip_of_prod ?_ ?_).symm
    · rw [map_map]
      rfl
    · rw [Expansion.names, map_map, map_map]
      rfl
  -- a name of the body is renamed by both expansions or by none
  have onBody : x.body.EachVariable
    fun v => renameBy y.pairs v.name = g (renameBy x.pairs v.name) := by
    refine (named.bodies _ first.declared _ first.isBody).imp fun v inside => ?_
    rw [renameBy, renameBy, pairs, lookup_map_snd]
    cases x.pairs.lookup v.name with
    | some new => rfl
    | none => exact (extension.respects.fixes inside).symm
  have bareCopy : ∀ {z : Expansion}, z.Steps table →
      z.copy.bare = (z.body.renameVariables (renameBy z.pairs)).bare := fun steps => by
    rw [← bare_anonymous, steps.isInstance.renamed, bare_anonymous]
  rw [SameUnder, bareCopy first, bareCopy second, body, ← renameVariables_bare,
    renameVariables_renameVariables]
  exact congrArg bare (renameVariables_congr onBody)

/-- The arguments of calls that are the same under a renaming take the places of the parameters
alike. -/
theorem Steps.results (named : table.NamedIn names) (first : x.Steps table) (second : y.Steps table)
    (template : y.template = x.template) (respects : Respects names f)
    (arguments : Forall₂ (SameUnder f) x.call.children y.call.children)
    (expanded : SameUnder f x.expanded y.expanded) : SameUnder f x.result y.result := by
  have bareResult : ∀ {z : Expansion}, z.Steps table → z.result.bare =
      z.expanded.bare.subst (argumentOf z.template (z.call.children.map bare)) := by
    intro z steps
    rw [← bare_anonymous, steps.result_eq.1, subst_bare, bare_anonymous]
    congr 1
    funext name
    rw [argumentOf_map, argumentOf_map, map_map]
    simp only [comp_def, bare_anonymous]
  rw [SameUnder, bareResult first, bareResult second, expanded, template,
    sameUnder_list.mp arguments]
  refine subst_renameVariables (fun name => ?_) _
  rw [argumentOf_map]
  rcases respects name with left | ⟨outside, outside'⟩
  · rw [left]
  · have noFormal : ∀ {a}, a ∉ names → a ∉ x.template.formals := fun outside formal =>
      outside (named.formals _ first.declared _ formal)
    rw [argumentOf_eq_none (noFormal outside), argumentOf_eq_none (noFormal outside')]

/-- An expansion and those inside of it are given names between its start and its end. -/
theorem Steps.grows_within (steps : x.Steps table) {given : List String}
    (within : x.named.supply.Grows given x.inner.supply) :
    x.start.supply.Grows (x.names ++ given) x.finish.supply := by
  rw [steps.result_eq.2.1]
  exact steps.grows.trans within

/-- The variables of an instance have names of the program, or names that were given. -/
theorem Steps.knows_copy (named : table.NamedIn names) (steps : x.Steps table) {s : Expander}
    (supplied : s.Supplied names) (given : ∀ name ∈ x.names, name ∈ s.supply.taken) :
    s.KnowsTree x.copy := by
  refine (steps.eachContent_copy (P := fun c => ∀ v, c = .var v → s.Knows v.name)).mpr
    (EachContent.imp (named.bodies _ steps.declared _ steps.isBody) fun c inside v isVar => ?_)
  cases c with
  | var w =>
    obtain rfl := Content.var.inj isVar
    change s.Knows (renameBy x.pairs w.name)
    rcases steps.isInstance.renameBy_cases w.name with paired | left
    · exact .inr (given _ (mem_map.mpr ⟨_, paired, rfl⟩))
    · rw [left]
      exact supplied.knows (inside w rfl)
  | _ => cases isVar

theorem Steps.knows_instance (named : table.NamedIn names) (steps : x.Steps table)
    (supplied : x.start.Supplied names) : x.named.KnowsTree x.copy :=
  steps.knows_copy named (supplied.mono steps.grows)
    fun _ new => steps.grows.mem_taken.mpr (.inl new)

/-- Two expansions of one macro with arguments that are the same under a renaming repeat each other,
if the expansions inside of them do. -/
theorem Steps.repeats (named : table.NamedIn names) (first : x.Steps table) (second : y.Steps table)
    (template : y.template = x.template) (body : y.body = x.body)
    (parallel : Parallel names f x.call.children x.start y.call.children y.start)
    {given given' : List String} (within : ∀ g, Parallel names g [x.copy] x.named [y.copy] y.named →
      Repeats names g x.named [x.expanded] [y.expanded] given given') :
    Repeats names f x.start [x.result] [y.result] (x.names ++ given) (y.names ++ given') := by
  obtain ⟨g, onCopy, copies, newNames⟩ := first.copies named second template body parallel.supplied
    parallel.supplied' parallel.respects
  have knows : x.named.KnowsTree x.copy := first.knows_instance named parallel.supplied
  obtain ⟨h, onInner, expanded, innerNames⟩ := within g
    ⟨parallel.supplied.mono first.grows, parallel.supplied'.mono second.grows, onCopy.respects,
      by simpa using knows, .cons copies .nil⟩
  have arguments := (onCopy.trans first.grows onInner).sameUnder_list parallel.knows parallel.same
  refine .after onCopy first.grows newNames ⟨h, onInner, .cons ?_ .nil, innerNames⟩
  exact first.results named second template onInner.respects arguments
    (forall₂_cons.mp expanded).1

end Expansion

namespace MacroTable

variable {table : MacroTable} {names : List String} {marked : List NodeId} {scope : Option NodeId}
  {ts us : List Tree} {s s' : Expander} {xs : List Expansion}

/-- The variables of expanded trees are known: they were, or are names that were given. -/
theorem Traces.knows (named : table.NamedIn names)
    (traces : Traces table marked scope ts s us s' xs) (supplied : s.Supplied names)
    (known : ∀ t ∈ ts, s.KnowsTree t) : ∀ u ∈ us, s'.KnowsTree u := by
  have grows := traces.grows.1
  refine traces.eachContent (P := fun c => ∀ v, c = .var v → s'.Knows v.name) (by simp)
    (fun t member => (known t member).mono grows) fun x member => ?_
  refine (traces.steps x member).knows_copy named (supplied.mono grows) fun name new => ?_
  exact grows.mem_taken.mpr (.inl (mem_flatMap.mpr ⟨x, member, new⟩))

/-- Runs that can be compared repeat each other. -/
theorem Traces.repeats (named : table.NamedIn names)
    (first : Traces table marked scope ts s us s' xs) {ts' us' : List Tree}
    {r r' : Expander} {ys : List Expansion} (second : Traces table marked scope ts' r us' r' ys)
    (parallel : Parallel names f ts s ts' r) :
    Repeats names f s us us' (xs.flatMap Expansion.names) (ys.flatMap Expansion.names) := by
  -- The second run is taken apart along the first one: a node has the same kind in both, and once
  -- its children are expanded it means the same macro, so that both runs go on by the same rule.
  induction first generalizing f ts' us' r r' ys with
  | nil =>
    cases parallel.same
    cases second
    exact ⟨f, .refl parallel.respects, .nil, rfl⟩
  | error error rest ih =>
    obtain ⟨t', ts', head, _, rfl⟩ := forall₂_cons_left_iff.mp parallel.same
    cases second with
    | error error' rest' =>
      exact .cons ⟨f, .refl parallel.respects, .cons head .nil, rfl⟩ (.refl _)
        (parallel.knows _ mem_cons_self)
        fun g extension => ih rest' (parallel.rest extension (.refl _) (.refl _))
    | node sound' => exact absurd (head.kind.trans error) sound'
    | call sound' => exact absurd (head.kind.trans error) sound'
  | @node _ n cs ds ts us u s s₁ s₂ s' xs zs sound below none here rest ihBelow ihRest =>
    obtain ⟨t', ts', head, _, rfl⟩ := forall₂_cons_left_iff.mp parallel.same
    cases second with
    | error error' => exact absurd (head.kind.symm.trans error') sound
    | node sound' below' none' here' rest' =>
      obtain ⟨g, extension, same, newNames⟩ := ihBelow below' parallel.children
      have left := named.expandNode_sameUnder extension.respects (parallel.node extension same)
        here here'
      have grows := below.grows.1
      have grows' := below'.grows.1
      rw [← supply_left here] at grows
      rw [← supply_left here'] at grows'
      have knows := (Traces.node sound below none here .nil).knows named parallel.supplied
        (by simpa using parallel.knows _ mem_cons_self) u (by simp)
      rw [flatMap_append, flatMap_append]
      exact .cons ⟨g, extension, .cons left .nil, newNames⟩ grows knows
        fun g extension => ihRest rest' (parallel.rest extension grows grows')
    | call sound' below' isCall' means' =>
      obtain ⟨g, extension, same, _⟩ := ihBelow below' parallel.children
      rw [named.expansion?_sameUnder extension.respects (parallel.node extension same),
        none] at means'
      cases means'
  | @call _ n cs ds ts us s s' x xs zs ws sound below isCall means steps within rest
    ihBelow ihWithin
      ihRest =>
    obtain ⟨t', ts', head, _, rfl⟩ := forall₂_cons_left_iff.mp parallel.same
    cases second with
    | error error' => exact absurd (head.kind.symm.trans error') sound
    | node sound' below' none' =>
      obtain ⟨g, extension, same, _⟩ := ihBelow below' parallel.children
      rw [named.expansion?_sameUnder extension.respects (parallel.node extension same),
        means] at none'
      cases none'
    | @call _ _ _ ds' _ _ _ _ y _ _ _ sound' below' isCall' means' steps' within' rest' =>
      obtain ⟨g, extension, same, newNames⟩ := ihBelow below' parallel.children
      rw [named.expansion?_sameUnder extension.respects (parallel.node extension same),
        means] at means'
      obtain ⟨template, body⟩ := Prod.mk.inj (Option.some.inj means')
      rw [← template] at within'
      have arguments : Parallel names g x.call.children x.start y.call.children y.start := by
        rw [isCall, isCall']
        exact ⟨parallel.supplied.mono below.grows.1, parallel.supplied'.mono below'.grows.1,
          extension.respects, below.knows named parallel.supplied parallel.children.knows, same⟩
      have result := steps.repeats named steps' template.symm body.symm arguments
        fun g copies => ihWithin within' copies
      have knows := (Traces.call sound below isCall means steps within .nil).knows named
        parallel.supplied (by simpa using parallel.knows _ mem_cons_self) x.result (by simp)
      have grows := below.grows.1.trans (steps.grows_within within.grows.1)
      have grows' := below'.grows.1.trans (steps'.grows_within within'.grows.1)
      have joined := Repeats.cons (.after extension below.grows.1 newNames result) grows knows
        fun g extension => ihRest rest' (parallel.rest extension grows grows')
      simpa only [flatMap_append, flatMap_cons, append_assoc] using joined

end MacroTable

end TaskNet
