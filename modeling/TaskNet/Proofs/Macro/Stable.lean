import TaskNet.Proofs.Macro.Preservation
import TaskNet.Proofs.Macro.Repetition

/-!
Macro declarations are templates that a pass leaves as they are. The blocks of facts, the facts, the
parameters and the macros of a program are the same trees after the pass as before it. What an
expansion leaves is made of new nodes only, so nothing that is done to it shows in a declaration or
in what another expansion left. Any two expansions of one macro with equal arguments, wherever they
stand in the run, leave trees that are equal but for the names that were new in each of them.
-/

namespace TaskNet

open List MacroTable

variable {t : Tree}

/-- The kinds of declarations that hold no cases: blocks, facts, parameters and macros. -/
def Kind.isDeclaration : Kind → Bool
  | .world | .primitives | .fact | .param | .template => true
  | _ => false

namespace Tree

/-- The blocks, facts, parameters and macros in a tree, each with all that is below it. -/
def declarations (t : Tree) : List Tree :=
  t.visited.filter fun u => u.kind.isDeclaration

theorem declarations_of_plain (plain : t.kind.isDeclaration = false)
    (sound : t.kind ≠ .error) : t.declarations = t.children.flatMap declarations := by
  cases t with
  | mk n cs =>
    have noError : n.kind ≠ .error := sound
    rw [declarations, visited, if_neg (by simpa using noError), visitedList_eq,
      filter_cons_of_neg (by simpa using plain), filter_flatMap]
    rfl

theorem declarations_eq_nil
    (plain : t.EachContent fun c => c.kind.isDeclaration = false) : t.declarations = [] := by
  refine filter_eq_nil_iff.mpr fun u visits => ?_
  have here : u.kind.isDeclaration = false := plain u.node (node_mem_nodes visits)
  simp [here]

/-- Where the cases alone are changed and hold no declarations, the declarations stay as they are.
-/
theorem Updates.declarations {R : Tree → Tree → Tree → Prop} {B : Tree → Prop} {root root' : Tree}
    (updates : Updates R root root') (kinds : ∀ task b b', R task b b' → b'.kind = .branch)
    (program : IsProgram B root) (before : ∀ pair ∈ root.branches, pair.2.declarations = [])
    (after : ∀ pair ∈ root'.branches, pair.2.declarations = []) :
    root'.declarations = root.declarations := by
  refine updates.lift (P := fun t t' => t'.declarations = t.declarations) kinds (fun _ => rfl)
    (fun t t' place node related => ?_) fun pair member pair' member' => ?_
  · have kind : t'.kind = t.kind := congrArg Node.kind node
    obtain ⟨plain, sound⟩ : t.kind.isDeclaration = false ∧ t.kind ≠ .error := by
      rcases place with rfl | isDomain | isTask
      · simp [program.kind, Kind.isDeclaration]
      · simp [isDomain, Kind.isDeclaration]
      · simp [isTask, Kind.isDeclaration]
    rw [declarations_of_plain plain sound, declarations_of_plain (kind ▸ plain) (kind ▸ sound),
      flatMap_def, flatMap_def, map_eq_of_forall₂ (related.imp fun _ _ => Eq.symm)]
  · rw [before pair member, after pair' member']

/-- There are no declarations in an expression. -/
theorem IsRaw.plain (raw : t.IsRaw) :
    t.EachContent fun c => c.kind.isDeclaration = false := by
  intro n member
  rw [← raw.visited_nodes] at member
  obtain ⟨u, visits, rfl⟩ := mem_map.mp member
  have takes := (raw u visits).1
  change u.content.kind.isDeclaration = false
  cases content : u.content <;> simp_all [Content.Takes, Content.kind, Kind.isDeclaration]

/-- There are no declarations in a case. -/
theorem RawCase.plain {branch : Tree} (isCase : RawCase branch) :
    branch.EachContent fun c => c.kind.isDeclaration = false := by
  obtain ⟨info, attrs, pre, list, parts, inAttrs, inPre, inList⟩ := isCase
  refine .of_parts (by rw [parts.content]; rfl) fun c member => ?_
  rw [parts.children] at member
  simp only [mem_append, mem_cons, not_mem_nil, or_false] at member
  rcases member with isAttr | rfl | rfl
  · refine .of_parts ?_ fun d below => (inAttrs c isAttr d below).plain
    change c.kind.isDeclaration = false
    rw [parts.attrKinds c isAttr]
    rfl
  · exact inPre.plain
  · exact .of_parts (by rw [parts.listContent]; rfl) fun d below => (inList d below).plain

end Tree

open Tree Expander

namespace Session

variable {s : Session} {domain : Tree} {cases : List (Tree × List Expansion)} {e : Expander}

/-- A pass leaves the declarations of the program as they are. -/
theorem expandMacros_declarations (sources : s.program.FromSources) :
    s.expandMacros.2.program.root.declarations = s.program.root.declarations := by
  cases found : s.program.root.findChild? .domain with
  | none => rw [expandMacros, found]
  | some domain =>
    obtain ⟨cases, e, traced⟩ := expandMacros_traced sources found
    have sound := sources.sound
    have plain : ∀ pair ∈ s.program.root.branches,
        pair.2.EachContent fun c => c.kind.isDeclaration = false :=
      fun pair member => (sound.form.branch member).1.plain
    have plainCopy : ∀ x ∈ cases.flatMap Prod.snd,
        x.copy.EachContent fun c => c.kind.isDeclaration = false := by
      intro x member
      have steps := traced.steps_of_mem x member
      have raw := (bodied_ofTree sound found _ steps.declared _ steps.isBody).1
      refine steps.eachContent_copy.mpr (raw.plain.imp fun c here => ?_)
      cases c <;> exact here
    have plain' := traced.eachContent_case (fun _ _ => rfl) (fun _ => rfl) plain plainCopy
    exact traced.updates.declarations (fun _ _ _ kind => kind) sound.form
      (fun pair member => declarations_eq_nil (plain pair member))
      fun pair member => declarations_eq_nil (plain' pair member)

end Session

/-- The renaming that pairs different names with what a function makes of them. -/
theorem renameBy_zip_map {given : List String} (distinct : given.Nodup) (f : String → String)
    (name : String) :
    renameBy (given.zip (given.map f)) name = if name ∈ given then f name else name := by
  have firsts : (given.zip (given.map f)).map Prod.fst = given := map_fst_zip (by simp)
  split
  · next member =>
    have pairs : given.zip (given.map f) = given.map fun a => (a, f a) := by
      simpa using zip_map' (l := given) (f := fun a => a) (g := f)
    refine renameBy_of_mem (by rwa [firsts]) ?_
    rw [pairs]
    exact mem_map.mpr ⟨name, member, rfl⟩
  · next outside => exact renameBy_of_not_mem (by rwa [firsts])

namespace Expansion

/-- An expansion as it stands in a run: the names of the program and of its arguments are known when
it starts, and it is followed by the expansions inside of it. -/
structure Placed (table : MacroTable) (marked : List NodeId) (names : List String) (x : Expansion) :
    Prop where
  steps : x.Steps table
  supplied : x.start.Supplied names
  knows : ∀ c ∈ x.call.children, x.start.KnowsTree c
  within : ∃ ys, Traces table marked x.template.scope [x.copy] x.named [x.expanded] x.inner ys

variable {table : MacroTable} {marked : List NodeId} {names : List String} {x y : Expansion}

/-- The variables of what an expansion leaves are known. -/
theorem Placed.knows_result (named : table.NamedIn names) (placed : x.Placed table marked names)
    {ys : List Expansion} (within : Traces table marked x.template.scope [x.copy] x.named
      [x.expanded] x.inner ys) : x.finish.KnowsTree x.result := by
  have steps := placed.steps
  have copy : x.named.KnowsTree x.copy := steps.knows_instance named placed.supplied
  have expanded : x.inner.KnowsTree x.expanded :=
    within.knows named (placed.supplied.mono steps.grows) (by simpa using copy) x.expanded (by simp)
  have grows := steps.grows_within within.grows.1
  have ended : x.inner.supply.Grows [] x.finish.supply := by
    rw [steps.result_eq.2.1]
    exact .refl _
  exact steps.eachContent_result (P := fun c => ∀ v, c = .var v → x.finish.Knows v.name)
    (expanded.mono ended) fun c member => (placed.knows c member).mono grows

/-- Expansions of one macro with equal arguments repeat each other. -/
theorem Placed.repeats (named : table.NamedIn names) (first : x.Placed table marked names)
    (second : y.Placed table marked names) (template : y.template = x.template)
    (arguments : x.call.children.map bare = y.call.children.map bare) :
    ∃ given given', x.start.supply.Grows given x.finish.supply ∧
      y.start.supply.Grows given' y.finish.supply ∧ given'.length = given.length ∧
      y.result.bare = x.result.bare.renameVariables (renameBy (given.zip given')) := by
  obtain ⟨xs, within⟩ := first.within
  obtain ⟨ys, within'⟩ := second.within
  have grows := first.steps.grows_within within.grows.1
  have grows' := second.steps.grows_within within'.grows.1
  rw [template] at within'
  have body : y.body = x.body := by
    have isBody := second.steps.isBody
    rw [template, first.steps.isBody] at isBody
    exact (Option.some.inj isBody).symm
  have same : List.Forall₂ (SameUnder fun name => name) x.call.children y.call.children := by
    rw [sameUnder_list, ← arguments, map_congr_left fun t _ => renameVariables_self t, map_id']
  obtain ⟨g, extension, result, newNames⟩ := first.steps.repeats named second.steps template body
    ⟨first.supplied, second.supplied, fun _ => .inl rfl, first.knows, same⟩
    fun g copies => within.repeats named within' copies
  refine ⟨_, _, grows, grows', by rw [newNames, length_map], ?_⟩
  rw [(forall₂_cons.mp result).1, newNames]
  -- a name in the result is new, or was known before and is kept
  refine renameVariables_congr (eachContent_bare.mpr (EachVariable.imp
    (first.knows_result named within) fun v known => ?_))
  rw [renameBy_zip_map grows.distinct]
  split
  · rfl
  · next old =>
    refine extension.agrees v.name (known.imp_right fun taken => ?_)
    exact (grows.mem_taken.mp taken).resolve_left old

end Expansion

namespace Expansion

/-- An expansion was made while the calls in the instance that another one made were expanded. -/
def Within (y x : Expansion) : Prop :=
  x.named.pool.next ≤ y.start.pool.next ∧ y.finish.pool.next ≤ x.inner.pool.next

/-- What an expansion left has no node in common with what another one left. -/
def Apart (x y : Expansion) : Prop :=
  ∀ n ∈ x.result.nodes, ∀ m ∈ y.result.nodes, n.id ≠ m.id

/-- Expansions in the order of their starts, between two states of the pool: each leaves nodes that
are new in it, and an earlier one was over before the next one started or has it inside. -/
structure Spaced (xs : List Expansion) (start stop : NodeId) : Prop where
  le : start ≤ stop
  inside : ∀ x ∈ xs, start ≤ x.start.pool.next ∧ x.finish.pool.next ≤ stop
  new : ∀ x ∈ xs, ∀ i, tallies i [x.result] ≤ span x.start.pool.next x.finish.pool.next i
  order : xs.Pairwise fun x y => x.finish.pool.next ≤ y.start.pool.next ∨ y.Within x

namespace Spaced

variable {xs ys : List Expansion} {x : Expansion} {start mid stop : NodeId}

theorem nil (le : start ≤ stop) : Spaced [] start stop :=
  ⟨le, by simp, by simp, .nil⟩

theorem append (first : Spaced xs start mid) (second : Spaced ys mid stop) :
    Spaced (xs ++ ys) start stop where
  le := Nat.le_trans first.le second.le
  inside := forall_mem_append.mpr
    ⟨fun x member => ⟨(first.inside x member).1, Nat.le_trans (first.inside x member).2 second.le⟩,
      fun y member => ⟨Nat.le_trans first.le (second.inside y member).1,
      (second.inside y member).2⟩⟩
  new := forall_mem_append.mpr ⟨first.new, second.new⟩
  order := pairwise_append.mpr ⟨first.order, second.order, fun x inX y inY =>
    .inl (Nat.le_trans (first.inside x inX).2 (second.inside y inY).1)⟩

/-- An expansion comes before those inside of it. -/
theorem cons (within : Spaced ys x.named.pool.next x.inner.pool.next)
    (starts : x.start.pool.next ≤ x.named.pool.next) (ends : x.inner.pool.next ≤ x.finish.pool.next)
    (new : ∀ i, tallies i [x.result] ≤ span x.start.pool.next x.finish.pool.next i) :
    Spaced (x :: ys) x.start.pool.next x.finish.pool.next where
  le := Nat.le_trans starts (Nat.le_trans within.le ends)
  inside := forall_mem_cons.mpr ⟨⟨Nat.le_refl _, Nat.le_refl _⟩, fun y member =>
    ⟨Nat.le_trans starts (within.inside y member).1, Nat.le_trans (within.inside y member).2 ends⟩⟩
  new := forall_mem_cons.mpr ⟨new, within.new⟩
  order := .cons (fun y member => .inr (within.inside y member)) within.order

theorem new_nodes (spaced : Spaced xs start stop) (member : x ∈ xs) :
    (x.result.nodes.map Node.id).Nodup ∧
      ∀ n ∈ x.result.nodes, x.start.pool.next ≤ n.id ∧ n.id < x.finish.pool.next := by
  simpa [nodesList_eq] using tallies_le_span_iff.mp (spaced.new x member)

theorem apart (spaced : Spaced xs start stop) : xs.Pairwise fun x y => x.Apart y ∨ y.Within x := by
  refine spaced.order.imp_of_mem fun {x y} inX inY order =>
    order.imp_left fun earlier n inN m inM => ?_
  have old := ((spaced.new_nodes inX).2 n inN).2
  have new := ((spaced.new_nodes inY).2 m inM).1
  exact Nat.ne_of_lt (Nat.lt_of_lt_of_le old (Nat.le_trans earlier new))

end Spaced

end Expansion

namespace MacroTable

variable {table : MacroTable} {marked : List NodeId} {names : List String} {scope : Option NodeId}
  {ts us : List Tree} {s s' : Expander} {xs : List Expansion}

/-- The expansions of a run leave new nodes only. -/
theorem Traces.spaced (bodied : table.Bodied) (traces : Traces table marked scope ts s us s' xs) :
    Expansion.Spaced xs s.pool.next s'.pool.next := by
  induction traces with
  | nil => exact .nil (Nat.le_refl _)
  | error _ _ ih => exact ih
  | node _ _ _ here _ below rest =>
    rw [(expandNode_left here).2.1] at rest
    exact below.append rest
  | call _ _ _ _ steps within _ ihBelow ihWithin ihRest =>
    have moves := within.moves bodied
    obtain ⟨starts, ends⟩ := steps.next_le bodied
    rw [← cons_append]
    exact ihBelow.append ((ihWithin.cons starts ends (steps.result_new bodied moves)).append ihRest)

/-- The expansions of all cases leave new nodes only. -/
theorem spaced_of_chain (bodied : table.Bodied) {pairs : List (Tree × Tree)}
    {cases : List (Tree × List Expansion)}
    (chain : Chain (fun pair s made s' => table.CaseTraces marked pair.1 pair.2 s made.1 s' made.2)
      pairs s cases s') : Expansion.Spaced (cases.flatMap Prod.snd) s.pool.next s'.pool.next := by
  induction chain with
  | nil s => exact .nil (Nat.le_refl _)
  | cons head _ ih =>
    obtain ⟨_, _, _, _, _, _, _, _, _, _, _, _, traces⟩ := head
    exact (traces.spaced bodied).append ih

/-- Every expansion of a run stands where all names are known. -/
theorem Traces.placed (named : table.NamedIn names)
    (traces : Traces table marked scope ts s us s' xs) (supplied : s.Supplied names)
    (known : ∀ t ∈ ts, s.KnowsTree t) : ∀ x ∈ xs, x.Placed table marked names := by
  induction traces with
  | nil => simp
  | error _ _ ih => exact ih supplied (forall_mem_cons.mp known).2
  | @node _ n cs _ _ _ _ _ s₁ s₂ _ _ _ _ below none here _ ihBelow ihRest =>
    have children : ∀ c ∈ cs, Expander.KnowsTree _ c := fun c member =>
      (known _ mem_cons_self).below member
    have grows := below.grows.1
    rw [← supply_left here] at grows
    exact forall_mem_append.mpr ⟨ihBelow supplied children, ihRest (supplied.mono grows)
      fun t member => (known t (by simp [member])).mono grows⟩
  | @call _ n cs ds _ _ _ _ x _ _ _ _ below isCall means steps within rest ihBelow
    ihWithin ihRest =>
    have children : ∀ c ∈ cs, Expander.KnowsTree _ c := fun c member =>
      (known _ mem_cons_self).below member
    have atStart := supplied.mono below.grows.1
    have copy : x.named.KnowsTree x.copy := steps.knows_instance named atStart
    have placed : x.Placed table marked names :=
      ⟨steps, atStart, by simpa [isCall] using below.knows named supplied children, _, within⟩
    have grows := below.grows.1.trans (steps.grows_within within.grows.1)
    simp only [forall_mem_append, forall_mem_cons]
    exact ⟨ihBelow supplied children, placed,
      ihWithin (atStart.mono steps.grows) (by simpa using copy),
      ihRest (supplied.mono grows) fun t member => (known t (by simp [member])).mono grows⟩

theorem CaseTraces.placed {task branch b : Tree} (named : table.NamedIn names)
    (traces : table.CaseTraces marked task branch s b s' xs) (supplied : s.Supplied names)
    (known : s.KnowsTree branch) : ∀ x ∈ xs, x.Placed table marked names := by
  obtain ⟨_, _, attrs, _, pre, _, list, _, parts, _, _, _, traces⟩ := traces
  exact traces.placed named supplied
    (parts.forall_expressions (fun t c knows member => knows.below member) known)

end MacroTable

namespace Session

variable {s : Session} {domain : Tree} {cases : List (Tree × List Expansion)} {e : Expander}

theorem variables_named (sources : s.program.FromSources) :
    s.program.root.EachVariable fun v => v.name ∈ s.program.root.visited.map Tree.name := by
  intro n member v content
  have listed := sources.asWritten.mem_names member
  rwa [content] at listed

/-- The names of the macros, of their parameters and in their bodies are names of the program. -/
theorem namedIn_macros (sources : s.program.FromSources)
    (found : s.program.root.findChild? .domain = some domain) :
    (s.macros domain).NamedIn (s.program.root.visited.map Tree.name) := by
  have named := fun m declared =>
    (named_ofTree (m := m) sources.sound.form found declared).2
  exact ⟨fun m declared => (named m declared).1, fun m declared => (named m declared).2,
    fun m declared body isBody =>
      eachContent_body sources found (variables_named sources) declared isBody⟩

/-- Every expansion of a pass stands where all names are known. -/
theorem Traced.placed (sources : s.program.FromSources)
    (found : s.program.root.findChild? .domain = some domain) (traced : s.Traced domain cases e) :
    ∀ x ∈ cases.flatMap Prod.snd, x.Placed (s.macros domain)
      ((s.recursiveMacros domain).map Template.id) (s.program.root.visited.map Tree.name) := by
  have named := namedIn_macros sources found
  have start : ∀ pair ∈ s.program.root.branches,
      (s.expander (s.recursiveMacros domain)).KnowsTree pair.2 :=
    EachContent.branches ((variables_named sources).imp fun _ listed =>
      (s.supplied_expander _).knows listed)
  have each := (traced.steps.keeps
    (I := fun s' => s'.Supplied (s.program.root.visited.map Tree.name) ∧
      ∀ pair ∈ s.program.root.branches, s'.KnowsTree pair.2)
    (P := fun _ made => ∀ x ∈ made.2, x.Placed (s.macros domain)
      ((s.recursiveMacros domain).map Template.id) (s.program.root.visited.map Tree.name))
    (fun pair member _ _ _ case held => by
      have grows := case.grows.1
      exact ⟨⟨held.1.mono grows, fun other inside => (held.2 other inside).mono grows⟩,
        case.placed named held.1 (held.2 pair member)⟩)
    ⟨s.supplied_expander _, start⟩).2
  intro x member
  obtain ⟨made, inside, isEvent⟩ := mem_flatMap.mp member
  obtain ⟨_, _, placed⟩ := exists_of_forall₂ each inside
  exact placed x isEvent

/-- For every program that comes from sources, the pass leaves the declarations of facts,
primitives, parameters and macros as they are, with all that is below them. What an expansion leaves
are nodes that were made between its start and its end, each in one place: none of them is in the
program before, nor in what an expansion left that is not inside of it. Any two expansions of one
macro whose arguments are equal, up to identities and locations, leave trees that are equal up to
the same and to a renaming: one that pairs the names given between the start and the end of the
first expansion with those given between the start and the end of the second. -/
theorem expandMacros_templates_stable (sources : s.program.FromSources) :
    s.expandMacros.2.program.root.declarations = s.program.root.declarations ∧
    ∀ domain, s.program.root.findChild? .domain = some domain →
      ∃ cases e, s.Traced domain cases e ∧
        (∀ x ∈ cases.flatMap Prod.snd, (x.result.nodes.map Node.id).Nodup ∧
          ∀ n ∈ x.result.nodes, x.start.pool.next ≤ n.id ∧ n.id < x.finish.pool.next ∧
            n.id ∉ s.program.root.nodes.map Node.id) ∧
        (cases.flatMap Prod.snd).Pairwise (fun x y => x.Apart y ∨ y.Within x) ∧
        ∀ x ∈ cases.flatMap Prod.snd, ∀ y ∈ cases.flatMap Prod.snd, x.template.id = y.template.id →
          x.call.children.map bare = y.call.children.map bare →
          ∃ given given', x.start.supply.Grows given x.finish.supply ∧
            y.start.supply.Grows given' y.finish.supply ∧ given'.length = given.length ∧
            y.result.bare = x.result.bare.renameVariables (renameBy (given.zip given')) := by
  refine ⟨expandMacros_declarations sources, fun domain found => ?_⟩
  obtain ⟨cases, e, traced⟩ := expandMacros_traced sources found
  have spaced := spaced_of_chain (bodied_ofTree sources.sound found) traced.steps
  refine ⟨cases, e, traced, fun x member => ?_, spaced.apart, fun x inX y inY same arguments => ?_⟩
  · obtain ⟨distinct, drawn⟩ := spaced.new_nodes member
    refine ⟨distinct, fun n inside => ⟨(drawn n inside).1, (drawn n inside).2, fun old => ?_⟩⟩
    obtain ⟨m, inRoot, same⟩ := mem_map.mp old
    have before := sources.sound.accounted.lt_next (n := m) (by simp [nodesList_eq, inRoot])
    have started : s.program.next ≤ x.start.pool.next := (spaced.inside x member).1
    exact Nat.ne_of_lt (Nat.lt_of_lt_of_le before (Nat.le_trans started (drawn n inside).1)) same
  · have placed := traced.placed sources found
    have identified : (s.macros domain).Identified :=
      identified_ofTree sources.sound.accounted.root_distinct found
    have template := identified y.template (placed y inY).steps.declared x.template
      (placed x inX).steps.declared same.symm
    exact (placed x inX).repeats (namedIn_macros sources found) (placed y inY) template arguments

/-- A macro that calls another one, each with a local variable, and two calls of it. -/
def nestedMacros : String :=
  "fact \x7b f(id32) \x7d domain d \x7b macro e(y) = f(l) & f(y) macro w(y) = e(l) & f(y)
  task t(x) \x7b case w(x) & w(x) -> [] \x7d \x7d"

/-- Two calls `w(x)` of a macro that calls another one. Each of them gets two names, for the local
variable of its body and for that of the body inside of it, and they are replaced by the same tree
but for those, of new nodes. -/
theorem expandMacros_templates_stable_twice :
    ∃ (s : Session) (domain : Tree), s.program.FromSources ∧
      s.program.root.findChild? .domain = some domain ∧
      s.program.root.declarations.map Tree.name =
        ["", "f", "", "e", "y", "w", "y", "x"] ∧
      s.expandMacros.2.program.root.declarations = s.program.root.declarations ∧
      s.expandMacros.2.program.root.variableNames =
        ["l", "y", "l", "y", "l_2", "l_1", "x", "l_4", "l_3", "x"] ∧
      ∃ cases e, s.Traced domain cases e ∧ e.expansions = 4 ∧
        (∀ x ∈ cases.flatMap Prod.snd, ∀ n ∈ x.result.nodes,
        n.id ∉ s.program.root.nodes.map Node.id) ∧
        (cases.flatMap Prod.snd).Pairwise (fun x y => x.Apart y ∨ y.Within x) ∧
        ∀ x ∈ cases.flatMap Prod.snd, ∀ y ∈ cases.flatMap Prod.snd, x.template.id = y.template.id →
          x.call.children.map bare = y.call.children.map bare →
          ∃ given given', x.start.supply.Grows given x.finish.supply ∧
            y.start.supply.Grows given' y.finish.supply ∧ given'.length = given.length ∧
            y.result.bare = x.result.bare.renameVariables (renameBy (given.zip given')) := by
  let s := (Session.start.read "rules" (Text.bytesOf nestedMacros)).2
  have sources : s.program.FromSources := .more .empty _ _
  have facts : ((s.program.root.findChild? .domain).any fun domain =>
      s.program.root.declarations.map Tree.name == ["", "f", "", "e", "y", "w", "y", "x"] &&
      s.expandMacros.2.program.root.variableNames ==
        ["l", "y", "l", "y", "l_2", "l_1", "x", "l_4", "l_3", "x"] &&
      ((s.program.root.mapBranchesM ((s.macros domain).expandBranch
        ((s.recursiveMacros domain).map Template.id))).run
          (s.expander (s.recursiveMacros domain))).2.expansions == 4) = true := by decide +kernel
  simp only [Option.any_eq_true, Bool.and_eq_true, beq_iff_eq] at facts
  obtain ⟨domain, found, ⟨names, occurring⟩, expansions⟩ := facts
  obtain ⟨declarations, run⟩ := expandMacros_templates_stable sources
  obtain ⟨cases, e, traced, new, apart, alike⟩ := run domain found
  rw [traced.run] at expansions
  exact ⟨s, domain, sources, found, names, declarations, occurring, cases, e, traced, expansions,
    fun x member n inside => ((new x member).2 n inside).2.2, apart, alike⟩

end Session

end TaskNet
