import TaskNet.Proofs.Macro.Trace
import TaskNet.Proofs.Tree.Contents

/-!
The local variables of expansions. Every name that a pass gives to a local variable is new: it
differs from all names of the program and from all names given before, in whatever expansion. So the
local variables of different expansions stay apart, and each variable of the new program can be
traced back to the name that is written: it has that name, or it has the name that one expansion
gave for it.
-/

namespace TaskNet

open Expander List Tree

variable {P : Content → Prop} {n : Node}

/-- A tree without errors whose variables have the names that are written. -/
def Tree.AsWritten : Tree → Prop :=
  Tree.EachContent Content.AsWritten

theorem Program.FromSources.asWritten {p : Program} (sources : p.FromSources) : p.root.AsWritten :=
  fun n member => (sources.read.2 n member).2

namespace Tree

variable {t : Tree}

def EachVariable (P : Variable → Prop) : Tree → Prop :=
  EachContent fun c => ∀ v, c = .var v → P v

theorem EachVariable.imp {P Q : Variable → Prop} (each : t.EachVariable P)
    (weaker : ∀ v, P v → Q v) : t.EachVariable Q :=
  EachContent.imp each fun _ here v isVar => weaker v (here v isVar)

theorem eachContent_subst {env : String → Option Tree} (each : t.EachContent P)
    (given : ∀ x a, env x = some a → a.EachContent P) : (t.subst env).EachContent P := by
  induction t with
  | mk n cs ih =>
    by_cases error : n.kind = .error
    · rw [subst_error error]
      exact each
    obtain ⟨here, below⟩ := eachContent_mk.mp each
    rw [subst_mk error]
    cases found : n.content.place? env with
    | some a =>
      obtain ⟨v, _, placed⟩ := Content.place?_eq_some.mp found
      exact given v.name a placed
    | none =>
      refine eachContent_mk.mpr ⟨here, fun d member => ?_⟩
      obtain ⟨c, inside, rfl⟩ := mem_map.mp member
      exact ih c inside (below c inside)

/-- A traversal of a tree without errors meets all its nodes. -/
theorem AsWritten.visits (written : t.AsWritten) (member : n ∈ t.nodes) :
    ∃ u ∈ t.visited, u.node = n := by
  rw [← EachContent.visited_nodes written fun _ here => here.sound] at member
  exact mem_map.mp member

theorem AsWritten.mem_variableNames (written : t.AsWritten) (member : n ∈ t.nodes)
    {v : Variable} (content : n.content = .var v) : v.name ∈ t.variableNames := by
  obtain ⟨u, visits, rfl⟩ := written.visits member
  exact Tree.mem_variableNames visits content

theorem AsWritten.mem_names (written : t.AsWritten) (member : n ∈ t.nodes) :
    n.content.name ∈ t.visited.map Tree.name := by
  obtain ⟨u, visits, rfl⟩ := written.visits member
  exact mem_map_of_mem visits

end Tree

namespace Expansion

/-- An expansion names the local variables of its body. Each of them is given one name, for all its
occurrences; different ones are given different names; and all else is as in the body. -/
structure NamesLocals (table : MacroTable) (x : Expansion) : Prop where
  locals : ∀ a, a ∈ x.pairs.map Prod.fst ↔
    a ∈ x.body.variableNames ∧ table.isKept x.template a = false
  gives : NameSupply.Gives (x.pairs.map Prod.fst) x.start.supply x.names x.named.supply
  renamed : x.copy.anonymous = (x.body.renameVariables (renameBy x.pairs)).anonymous
  one : ∀ a c, (a, c) ∈ x.pairs → renameBy x.pairs a = c
  apart : ∀ a b c, (a, c) ∈ x.pairs → (b, c) ∈ x.pairs → a = b
  kept : ∀ a, table.isKept x.template a = true → renameBy x.pairs a = a

variable {table : MacroTable} {x : Expansion}

theorem Steps.namesLocals (steps : x.Steps table) : x.NamesLocals table :=
  have inst := steps.isInstance
  ⟨fun a => by rw [inst.locals, MacroTable.mem_locals], inst.gives, inst.renamed,
    fun _ _ member => renameBy_of_mem inst.distinct member, fun _ _ _ => inst.apart,
    fun _ => inst.kept⟩

/-- The instance of a body has what the body has under new names. -/
theorem Steps.eachContent_copy (steps : x.Steps table) :
    x.copy.EachContent P ↔ x.body.EachContent fun c => P (c.renameVariable (renameBy x.pairs)) := by
  rw [← eachContent_anonymous, steps.isInstance.renamed, eachContent_anonymous]
  exact eachContent_mapNodes fun _ => rfl

/-- What an expansion leaves has what is in the expanded instance and in the arguments. -/
theorem Steps.eachContent_result (steps : x.Steps table)
    (expanded : x.expanded.EachContent P) (arguments : ∀ c ∈ x.call.children, c.EachContent P) :
    x.result.EachContent P := by
  rw [← eachContent_anonymous, steps.result_eq.1]
  refine eachContent_subst (eachContent_anonymous.mpr expanded) fun name a given => ?_
  obtain ⟨argument, found, rfl⟩ := Option.map_eq_some_iff.mp given
  exact eachContent_anonymous.mpr (arguments argument (MacroTable.argumentOf_mem found))

end Expansion

namespace MacroTable

variable {table : MacroTable} {marked : List NodeId} {scope : Option NodeId} {ts us : List Tree}
  {s s' : Expander} {xs : List Expansion} {P : Content → Prop}
variable {task branch b : Tree}

theorem Traces.steps (traces : Traces table marked scope ts s us s' xs) :
    ∀ x ∈ xs, x.Steps table := by
  induction traces with
  | nil => simp
  | error _ _ ih => exact ih
  | node _ _ _ _ _ below rest => exact forall_mem_append.mpr ⟨below, rest⟩
  | call _ _ _ _ steps _ _ below within rest =>
    exact forall_mem_append.mpr
      ⟨below, forall_mem_cons.mpr ⟨steps, forall_mem_append.mpr ⟨within, rest⟩⟩⟩

/-- What is in the expanded trees was in the trees, or in the instances of the bodies, or is an
error. -/
theorem Traces.eachContent (errors : ∀ k p, P (.error k p))
    (traces : Traces table marked scope ts s us s' xs) (before : ∀ t ∈ ts, t.EachContent P)
    (copies : ∀ x ∈ xs, x.copy.EachContent P) : ∀ u ∈ us, u.EachContent P := by
  induction traces with
  | nil => simp
  | error _ _ ih =>
    rw [forall_mem_cons] at before ⊢
    exact ⟨before.1, ih before.2 copies⟩
  | @node _ n cs ds _ _ u _ _ _ _ _ _ _ _ _ here _ below rest =>
    rw [forall_mem_append] at copies
    rw [forall_mem_cons] at before ⊢
    have inTree := eachContent_mk.mp before.1
    have expanded : (Tree.mk n ds).EachContent P :=
      eachContent_mk.mpr ⟨inTree.1, below inTree.2 copies.1⟩
    refine ⟨?_, rest before.2 copies.2⟩
    rcases (expandNode_left here).1 with rfl | ⟨problem, rfl⟩
    · exact expanded
    · exact eachContent_markError errors expanded
  | @call _ n cs ds _ _ _ _ x _ _ _ _ _ isCall _ steps _ _ below within rest =>
    simp only [forall_mem_append, forall_mem_cons] at copies
    obtain ⟨inArguments, inCopy, inBody, later⟩ := copies
    rw [forall_mem_cons] at before ⊢
    have arguments := below (eachContent_mk.mp before.1).2 inArguments
    have expanded : x.expanded.EachContent P :=
      within (by simpa using inCopy) inBody x.expanded (by simp)
    exact ⟨steps.eachContent_result expanded (by rwa [isCall]), rest before.2 later⟩

theorem CaseTraces.steps (traces : table.CaseTraces marked task branch s b s' xs) :
    ∀ x ∈ xs, x.Steps table := by
  obtain ⟨_, _, _, _, _, _, _, _, _, _, _, _, traces⟩ := traces
  exact traces.steps

theorem CaseTraces.eachContent (errors : ∀ k p, P (.error k p))
    (branches : ∀ info, P (.branch info)) (traces : table.CaseTraces marked task branch s b s' xs)
    (before : branch.EachContent P) (copies : ∀ x ∈ xs, x.copy.EachContent P) :
    b.EachContent P := by
  obtain ⟨info, info', attrs, attrs', pre, pre', list, list', parts, parts', attrNodes, listNode,
    traces⟩ := traces
  have expanded := traces.eachContent errors
    (parts.forall_expressions (fun t c each member => each.below member) before) copies
  have inParts : ∀ t ∈ attrs ++ [pre, list], P t.content := fun t member =>
    (before.below (parts.children ▸ member)).here
  refine .of_parts (parts'.content ▸ branches info') fun c member => ?_
  rw [parts'.children] at member
  simp only [mem_append, mem_cons, not_mem_nil, or_false] at member
  -- the attributes and the task list keep their nodes
  rcases member with isAttr | rfl | rfl
  · refine .of_parts ?_ fun d below => expanded d (mem_append_left _
      (mem_flatMap.mpr ⟨c, isAttr, below⟩))
    have node : c.node ∈ attrs.map Tree.node := attrNodes ▸ mem_map_of_mem isAttr
    obtain ⟨a, inside, same⟩ := mem_map.mp node
    rw [show c.content = a.content from congrArg Node.content same.symm]
    exact inParts a (by simp [inside])
  · exact expanded c (by simp)
  · refine .of_parts ?_ fun d below => expanded d (by simp [below])
    rw [show c.content = list.content from congrArg Node.content listNode]
    exact inParts list (by simp)

/-- The names given in a pass are those of its expansions, in order. -/
theorem grows_of_chain {pairs : List (Tree × Tree)} {cases : List (Tree × List Expansion)}
    (chain : Chain (fun pair s made s' => table.CaseTraces marked pair.1 pair.2 s made.1 s' made.2)
      pairs s cases s') :
    s.supply.Grows ((cases.flatMap Prod.snd).flatMap Expansion.names) s'.supply ∧
      s'.expansions = s.expansions + (cases.flatMap Prod.snd).length := by
  induction chain with
  | nil s => exact ⟨.refl _, rfl⟩
  | cons head _ ih =>
    obtain ⟨given, count⟩ := head.grows
    rw [flatMap_cons, flatMap_append, length_append]
    exact ⟨given.trans ih.1, by omega⟩

end MacroTable

namespace Session

variable {s : Session} {domain : Tree} {cases : List (Tree × List Expansion)} {e : Expander}
  {P : Content → Prop}

theorem Traced.steps_of_mem (traced : s.Traced domain cases e) :
    ∀ x ∈ cases.flatMap Prod.snd, x.Steps (s.macros domain) := by
  intro x member
  obtain ⟨made, inside, isEvent⟩ := mem_flatMap.mp member
  obtain ⟨_, _, steps⟩ := exists_of_forall₂ (traced.steps.forall₂ fun _ _ _ _ case => case.steps)
    inside
  exact steps x isEvent

/-- What is in the new cases was in the old ones, or in the instances of the bodies, or is an error.
-/
theorem Traced.eachContent_case (traced : s.Traced domain cases e) (errors : ∀ k p, P (.error k p))
    (branches : ∀ info, P (.branch info))
    (before : ∀ pair ∈ s.program.root.branches, pair.2.EachContent P)
    (copies : ∀ x ∈ cases.flatMap Prod.snd, x.copy.EachContent P) :
    ∀ pair ∈ s.expandMacros.2.program.root.branches, pair.2.EachContent P := by
  intro pair' member'
  have isResult : pair'.2 ∈ cases.map Prod.fst := traced.results ▸ mem_map_of_mem member'
  obtain ⟨made, inside, same⟩ := mem_map.mp isResult
  have expands := traced.steps.forall₂ (P := fun pair made => pair.2.EachContent P →
    (∀ x ∈ made.2, x.copy.EachContent P) → made.1.EachContent P)
    fun _ _ _ _ case before copies => case.eachContent errors branches before copies
  obtain ⟨pair, _, inCase, expanded⟩ :=
    exists_of_forall₂ ((forall₂_and_left _ _).mpr ⟨before, expands⟩) inside
  rw [← same]
  exact expanded inCase fun x isEvent => copies x (mem_flatMap.mpr ⟨made, inside, isEvent⟩)

/-- A variable of the program that a pass leaves: its written name is the name of a variable of the
sources, and it still has that name, or has the one that an expansion gave for it. -/
def FromSource (p : Program) (run : List Expansion) (v : Variable) : Prop :=
  v.written ∈ p.root.variableNames ∧ (v.name = v.written ∨ ∃ x ∈ run, (v.written, v.name) ∈ x.pairs)

/-- Before a pass, every variable has the name that is written. -/
theorem fromSource_root (sources : s.program.FromSources) (run : List Expansion) :
    s.program.root.EachContent fun c =>
      c.AsWritten ∧ ∀ v, c = .var v → FromSource s.program run v ∧ v.name = v.written := by
  intro n member
  have written := sources.asWritten n member
  refine ⟨written, fun v content => ?_⟩
  rw [content] at written
  have same : v.written = v.name := written
  have listed := sources.asWritten.mem_variableNames member content
  exact ⟨⟨same ▸ listed, .inl same.symm⟩, same.symm⟩

theorem eachContent_body (sources : s.program.FromSources)
    (found : s.program.root.findChild? .domain = some domain)
    (before : s.program.root.EachContent P) {m : Template}
    (declared : m ∈ (s.macros domain).declared)
    {body : Tree} (isBody : m.body = some body) : body.EachContent P := by
  obtain ⟨t, visits, _, scope, rfl⟩ := MacroTable.declared_visited sources.sound.form found declared
  have last : t.children.getLast? = some body := (Option.filter_eq_some_iff.mp isBody).1
  exact (before.of_visited visits).below (mem_of_getLast? last)

/-- For every program that comes from sources, the pass gives a name to a local variable only once.
The names given are those of its expansions, they are all different, and none is the name of a node
of the program. In one expansion all occurrences of a local variable of the body get the same name,
and different local variables get different names. In the new program the written name of every
variable is a name of the sources, and the variable has that name or the one that an expansion gave
for it. -/
theorem expandMacros_locals_apart (sources : s.program.FromSources)
    (found : s.program.root.findChild? .domain = some domain) :
    ∃ cases e, s.Traced domain cases e ∧
      let run := cases.flatMap Prod.snd
      let given := run.flatMap Expansion.names
      e.expansions = run.length ∧
      e.supply.taken = given.reverse ++ (s.expander (s.recursiveMacros domain)).supply.taken ∧
      given.Nodup ∧
      (∀ n ∈ s.program.root.nodes, n.content.name ∉ given) ∧
      (∀ x ∈ run, x.NamesLocals (s.macros domain)) ∧
      s.expandMacros.2.program.root.EachVariable (FromSource s.program run) := by
  obtain ⟨cases, e, traced⟩ := expandMacros_traced sources found
  obtain ⟨grows, count⟩ := MacroTable.grows_of_chain traced.steps
  have steps := traced.steps_of_mem
  have root := fromSource_root sources (cases.flatMap Prod.snd)
  refine ⟨cases, e, traced, ?_, grows.taken, grows.distinct, fun n member given => ?_,
    fun x member => (steps x member).namesLocals, ?_⟩
  · rw [count, expander, Nat.zero_add]
  · -- every name of a node is taken when the pass starts
    exact grows.free _ given (s.supplied_expander _ _ (sources.asWritten.mem_names member)
      (grows.nonempty _ given))
  · have before := root.imp fun c here v isVar => (here.2 v isVar).1
    refine traced.updates.eachContent (fun _ _ _ kind => kind) before
      (traced.eachContent_case (by simp) (by simp) before.branches fun x member => ?_)
    have step := steps x member
    refine step.eachContent_copy.mpr ((eachContent_body sources found root step.declared
      step.isBody).imp fun c here v isVar => ?_)
    cases c with
    | var w =>
      obtain ⟨⟨listed, _⟩, same⟩ := here.2 w rfl
      obtain rfl := Content.var.inj isVar
      refine ⟨listed, ?_⟩
      rw [← same]
      rcases step.isInstance.renameBy_cases w.name with paired | left
      · exact .inr ⟨x, member, paired⟩
      · exact .inl left
    | _ => cases isVar

/-- A macro with a local variable `l` that calls another one with a local variable `l`, twice, and a
case that calls both. Two names with numbers are in use, so the four expansions get the numbers from
three. -/
theorem expandMacros_locals_apart_nested :
    ∃ (s : Session) (domain : Tree), s.program.FromSources ∧
      s.program.root.findChild? .domain = some domain ∧
      s.expandMacros.2.program.root.variableNames =
        ["l", "y", "l", "y", "l_4", "l_3", "l_5", "x", "l_6", "x", "l_2"] ∧
      ∃ cases e, s.Traced domain cases e ∧ e.expansions = 4 ∧
        (cases.flatMap Prod.snd).length = 4 ∧
        (cases.flatMap Prod.snd).flatMap Expansion.names = ["l_3", "l_4", "l_5", "l_6"] ∧
        s.expandMacros.2.program.root.EachVariable
          (FromSource s.program (cases.flatMap Prod.snd)) := by
  let s := (Session.start.read "rules" (Text.bytesOf "fact \x7b f(id32) \x7d domain d \x7b macro e(y) = f(l) & f(y) macro w(y) = e(l) & e(y) task t(x, l_1) \x7b case w(x) & e(x) & f(l_2) -> [] \x7d \x7d")).2
  have sources : s.program.FromSources := .more .empty _ _
  have facts : ((s.program.root.findChild? .domain).any fun domain =>
      let start := s.expander (s.recursiveMacros domain)
      let finish := ((s.program.root.mapBranchesM ((s.macros domain).expandBranch
        ((s.recursiveMacros domain).map Template.id))).run start).2
      s.expandMacros.2.program.root.variableNames ==
        ["l", "y", "l", "y", "l_4", "l_3", "l_5", "x", "l_6", "x", "l_2"] &&
      finish.expansions == 4 &&
      finish.supply.taken == ["l_6", "l_5", "l_4", "l_3"] ++ start.supply.taken) = true := by
    decide +kernel
  simp only [Option.any_eq_true, Bool.and_eq_true, beq_iff_eq] at facts
  obtain ⟨domain, found, ⟨occurring, expansions⟩, taken⟩ := facts
  obtain ⟨cases, e, traced, count, given, _, _, _, fromSource⟩ :=
    expandMacros_locals_apart sources found
  rw [traced.run] at expansions taken
  have names : ((cases.flatMap Prod.snd).flatMap Expansion.names).reverse =
      ["l_6", "l_5", "l_4", "l_3"] := append_cancel_right (given.symm.trans taken)
  exact ⟨s, domain, sources, found, occurring, cases, e, traced, expansions, count ▸ expansions,
    reverse_inj.mp names, fromSource⟩

end Session

end TaskNet
