import TaskNet.Proofs.Grammar.Sources
import TaskNet.Proofs.Macro.Cases
import TaskNet.Proofs.Macro.Cycles
import TaskNet.Proofs.Macro.Renaming
import TaskNet.Proofs.Macro.Substitution

/-!
Macro expansion ends. The rules `TreeEnds` expand calls inside of expanded bodies without a bound on
how deep they are nested; what they relate is the result of a finite computation. Every expansion
inside of a body follows a reference between two macros that are not recursive, and those references
are well founded. So the expansion of every program that comes from sources follows the rules to its
end, whatever macros it declares: recursive ones, ones of the same name, ones that hide others.
-/

namespace TaskNet

open Expander List MacroTable Tree

variable {t : Tree}

namespace NameSupply

/-- A name with a number is the first one after the last number given that is not taken. -/
def IsNext (s : NameSupply) (base : String) (k : Nat) : Prop :=
  s.counter < k ∧ numbered base k ∉ s.taken ∧
    ∀ j, s.counter < j → j < k → numbered base j ∈ s.taken

/-- Counting up from the last number ends at a name that is not taken. -/
theorem fresh_isNext (s : NameSupply) (base : String) : ∃ k, s.IsNext base k ∧
    s.fresh base = (numbered base k, ⟨numbered base k :: s.taken, k⟩) := by
  obtain ⟨above, skipped, _⟩ := firstFree_spec s.taken base (s.taken.length + 1) (s.counter + 1)
  exact ⟨_, ⟨above, s.fresh_free base, skipped⟩, rfl⟩

end NameSupply

namespace Expander

variable {s s' : Expander} {given names : List String}

def Supplied (names : List String) (s : Expander) : Prop :=
  ∀ name ∈ names, name ≠ "" → name ∈ s.supply.taken

theorem Supplied.mono (supplied : s.Supplied names) (grows : s.supply.Grows given s'.supply) :
    s'.Supplied names :=
  fun name member nonempty => grows.mem_taken.mpr (.inr (supplied name member nonempty))

end Expander

namespace MacroTable

theorem refer?_var (table : MacroTable) (scope : Option NodeId) (v : Variable) :
    table.refer? scope (.var v) = table.refer? scope (.use v.name) := rfl

section Instance

variable {table : MacroTable} {names : List String} {m : Template} {body copy : Tree}
  {s s' : Expander} {pairs : List (String × String)} {rename : String → String}

/-- The names that an instance is given are not in use. -/
theorem Instance.outside (inst : table.Instance m body s pairs copy s')
    (supplied : s.Supplied names)
    {a c : String} (paired : (a, c) ∈ pairs) : c ∉ names := fun used =>
  have new := mem_map_of_mem (f := Prod.snd) paired
  inst.gives.grows.free c new (supplied c used (inst.gives.grows.nonempty c new))

/-- What holds of the nodes of an instance of a body. -/
theorem throughout_instance {Q : Content → Prop}
    (isCopy : copy.anonymous = (body.renameVariables rename).anonymous)
    (each : body.Throughout fun s => Q (s.content.renameVariable rename)) :
    copy.Throughout fun s => Q s.content := by
  have blind : ∀ s : Tree, Q s.anonymous.content ↔ Q s.content := fun s => by simp
  rw [← throughout_anonymous blind, isCopy, throughout_anonymous blind]
  have kinds : ∀ n : Node,
      Node.kind { n with content := n.content.renameVariable rename } = n.kind := fun n => by
    cases content : n.content <;> simp [Node.kind, content, Content.renameVariable, Content.kind]
  intro s member
  rw [renameVariables, visited_mapNodes kinds] at member
  obtain ⟨u, inside, rfl⟩ := mem_map.mp member
  rw [mapNodes_content]
  exact each u inside

/-- A new name is the name of no macro, so an instance refers to what the body refers to. -/
theorem Instance.calls (inst : table.Instance m body s pairs copy s') (supplied : s.Supplied names)
    (named : ∀ m ∈ table.declared, m.name ∈ names) (isBody : m.body = some body) :
    copy.Throughout fun u => ∀ c, table.refer? m.scope u.content = some c → table.Calls m c := by
  have callee : ∀ u ∈ body.visited, ∀ c, table.refer? m.scope u.content = some c →
      table.Calls m c := by
    intro u inside c means
    rw [Calls, callees, isBody]
    exact mem_filterMap.mpr ⟨u, inside, means⟩
  refine throughout_instance inst.renamed
    (Q := fun content => ∀ c, table.refer? m.scope content = some c → table.Calls m c) ?_
  intro u inside c means
  refine callee u inside c ?_
  by_cases isVar : ∃ v, u.content = .var v
  · obtain ⟨v, content⟩ := isVar
    rw [content, Content.renameVariable] at means
    rcases inst.renameBy_cases v.name with paired | left
    · have used := named c (mem_of_refer? means)
      rw [(refer?_spec means).2.2] at used
      exact absurd used (inst.outside supplied paired)
    · rw [left] at means
      rwa [content]
  · rwa [Content.renameVariable_other isVar] at means

end Instance

/-- A macro refers to another one, and neither is among those that are marked. -/
structure Follows (table : MacroTable) (marked : List NodeId) (m c : Template) : Prop where
  declared : m ∈ table.declared
  refers : table.RefersTo m c
  caller : m.id ∉ marked
  callee : c.id ∉ marked

/-- A tree that refers to a macro is a call with another number of arguments than the macro has
parameters. -/
def Misfits (m : Template) (t : Tree) : Prop :=
  t.kind = .call ∧ t.children.length ≠ m.formals.length

mutual

/-- The calls in a tree are expanded from the bottom up, and that ends. The tree stands in a scope;
it is the copy of the body of a macro, or part of a case. -/
inductive TreeEnds (table : MacroTable) (marked : List NodeId) :
    Option Template → Option NodeId → Tree → Expander → Tree → Expander → Prop
  | error {within : Option Template} {scope : Option NodeId} {n : Node} {cs : List Tree}
      {s : Expander} (error : n.kind = .error) :
      TreeEnds table marked within scope (.mk n cs) s (.mk n cs) s
  | node {within : Option Template} {scope : Option NodeId} {n : Node} {cs ds : List Tree}
    {u : Tree}
      {s s' s'' : Expander} (sound : n.kind ≠ .error)
      (below : ListEnds table marked within scope cs s ds s')
      (here : NodeEnds table marked within scope (.mk n ds) s' u s'') :
      TreeEnds table marked within scope (.mk n cs) s u s''

/-- The calls in a list of trees are expanded from left to right. -/
inductive ListEnds (table : MacroTable) (marked : List NodeId) :
    Option Template → Option NodeId → List Tree → Expander → List Tree → Expander → Prop
  | nil {within : Option Template} {scope : Option NodeId} {s : Expander} :
      ListEnds table marked within scope [] s [] s
  | cons {within : Option Template} {scope : Option NodeId} {t u : Tree} {ts us : List Tree}
      {s s' s'' : Expander} (head : TreeEnds table marked within scope t s u s')
      (tail : ListEnds table marked within scope ts s' us s'') :
      ListEnds table marked within scope (t :: ts) s (u :: us) s''

/-- What becomes of a node whose children are expanded. A macro that is expanded inside of the body
of another one follows a reference of that one. -/
inductive NodeEnds (table : MacroTable) (marked : List NodeId) :
    Option Template → Option NodeId → Tree → Expander → Tree → Expander → Prop
  | plain {within : Option Template} {scope : Option NodeId} {t : Tree} {s : Expander}
      (means : table.refer? scope t.content = none) : NodeEnds table marked within scope t s t s
  | recursive {within : Option Template} {scope : Option NodeId} {t : Tree} {s : Expander}
      {m : Template} (means : table.refer? scope t.content = some m) (isMarked : m.id ∈ marked) :
      NodeEnds table marked within scope t s (t.markError .recursiveMacro) s
  | misfit {within : Option Template} {scope : Option NodeId} {t : Tree} {s : Expander}
      {m : Template} (means : table.refer? scope t.content = some m) (free : m.id ∉ marked)
      (misfits : Misfits m t) :
      NodeEnds table marked within scope t s (t.markError .mismatchingNumberOfArgs)
        { s with diagnostics := (s.diagnostics.add .mismatchingNumberOfArgs t.loc
          [.name m.name, .group "macro"]) }
  | bodiless {within : Option Template} {scope : Option NodeId} {t : Tree} {s : Expander}
      {m : Template} (means : table.refer? scope t.content = some m) (free : m.id ∉ marked)
      (fits : ¬ Misfits m t) (none : m.body = none) : NodeEnds table marked within scope t s t s
  | call {within : Option Template} {scope : Option NodeId} {t u : Tree} {s s' : Expander}
      {m : Template} (means : table.refer? scope t.content = some m) (free : m.id ∉ marked)
      (fits : ¬ Misfits m t) (follows : ∀ d, within = some d → table.Follows marked d m)
      (expands : CallEnds table marked m t s u s') : NodeEnds table marked within scope t s u s'

/-- A call is replaced by a copy of the body of the macro, in which the calls are expanded as the
macro sees them and the arguments are put in the places of the parameters. -/
inductive CallEnds (table : MacroTable) (marked : List NodeId) :
    Template → Tree → Expander → Tree → Expander → Prop
  | intro {m : Template} {call body copy expanded new : Tree} {s s₁ s₂ s₃ : Expander}
      (isBody : m.body = some body)
      (copied : (instantiate table m body).run { s with expansions := s.expansions + 1 } =
      (copy, s₁)) (inner : TreeEnds table marked (some m) m.scope copy s₁ expanded s₂)
      (filled : (expanded.substitute (argumentOf m call.children)).run s₂ = (new, s₃)) :
      CallEnds table marked m call s new
        { s₃ with
          pool := s₃.pool.discard call
          log := s₃.log ++ [.debug "expanded macro" [("macro", m.name), ("at", call.loc.text)]] }

end

variable {table : MacroTable} {marked : List NodeId} {within : Option Template}
  {scope : Option NodeId}

theorem ListEnds.of_chain {cs ds : List Tree} {s s' : Expander}
    (chain : Chain (TreeEnds table marked within scope) cs s ds s') :
    ListEnds table marked within scope cs s ds s' := by
  induction chain with
  | nil s => exact .nil
  | cons head _ ih => exact .cons head ih

/-- No macro comes back to itself but those that are marked, and the bodies are in order. -/
structure Marks (table : MacroTable) (marked : List NodeId) (names : List String) : Prop where
  bodied : table.Bodied
  named : ∀ m ∈ table.declared, m.name ∈ names
  acyclic : ∀ m ∈ table.declared, m.id ∉ marked → ¬ Relation.TransGen table.Calls m m

variable {names : List String}

theorem Marks.calls_iff (marks : table.Marks marked names) {m c : Template}
    (declared : m ∈ table.declared) : table.Calls m c ↔ table.RefersTo m c :=
  calls_iff_refersTo fun body isBody => (marks.bodied m declared body isBody).1

/-- A reference between macros that are not marked goes to a smaller rank. -/
theorem Marks.rank_lt (marks : table.Marks marked names) {m c : Template}
    (follows : table.Follows marked m c) : table.rank c < table.rank m := by
  have calls := (marks.calls_iff follows.declared).mpr follows.refers
  exact rank_lt_of_acyclic calls (marks.acyclic c calls.declared follows.callee)

/-- The references between macros that are not marked are well founded. -/
theorem Marks.wellFounded (marks : table.Marks marked names) :
    WellFounded fun c m => table.Follows marked m c :=
  Subrelation.wf (fun follows => marks.rank_lt follows) (measure table.rank).wf

/-- What a tree refers to may be expanded: it is of small rank, and it follows a reference of the
macro whose body the tree is a copy of. -/
def Expandable (table : MacroTable) (marked : List NodeId) (within : Option Template)
    (scope : Option NodeId) (depth : Nat) (t : Tree) : Prop :=
  t.Throughout fun u => ∀ m, table.refer? scope u.content = some m → m.id ∉ marked →
    table.rank m < depth ∧ ∀ d, within = some d → table.Follows marked d m

/-- Calls of macros of small rank that are not marked are expanded to the end. -/
def CallsEnd (table : MacroTable) (marked : List NodeId) (names : List String) (depth : Nat)
    (onCall : Template → Tree → Expand Tree) : Prop :=
  ∀ m ∈ table.declared, m.id ∉ marked → m.body.isSome = true → table.rank m < depth → ∀ call : Tree,
    Clean (fun _ => 0) (onCall m call) (fun s u s' => s.Supplied names →
      s'.Supplied names ∧ CallEnds table marked m call s u s')

section Trees

variable {onCall : Template → Tree → Expand Tree} {depth : Nat}

/-- A node whose children are expanded. -/
theorem expandNode_ends (calls : table.CallsEnd marked names depth onCall)
    (here : ∀ m, table.refer? scope t.content = some m → m.id ∉ marked →
      table.rank m < depth ∧ ∀ d, within = some d → table.Follows marked d m) :
    Clean (fun _ => 0) (expandNode table marked onCall scope t) (fun s u s' => s.Supplied names →
      s'.Supplied names ∧ NodeEnds table marked within scope t s u s') := by
  rw [expandNode]
  cases means : table.refer? scope t.content with
  | none => exact .pure fun s supplied => ⟨supplied, .plain means⟩
  | some m =>
    dsimp only
    split
    · next isMarked =>
      exact .pure fun s supplied => ⟨supplied, .recursive means (by simpa using isMarked)⟩
    · next unmarked =>
      have free : m.id ∉ marked := by simpa using unmarked
      split
      · next differs =>
        have misfits : Misfits m t := by simpa [Misfits] using differs
        refine fun s => ⟨Nat.le_refl _, fun _ supplied => ⟨supplied, .misfit means free misfits⟩⟩
      · next same =>
        have fits : ¬ Misfits m t := by simpa [Misfits] using same
        split
        · next absent => exact .pure fun s supplied => ⟨supplied, .bodiless means free fits absent⟩
        · next body isBody =>
          obtain ⟨small, follows⟩ := here m means free
          refine (calls m (mem_of_refer? means) free (by simp [isBody]) small t).imp ?_
          intro s u s' step supplied
          obtain ⟨supplied, expands⟩ := step supplied
          exact ⟨supplied, .call means free fits follows expands⟩

theorem expandTree_ends (calls : table.CallsEnd marked names depth onCall)
    (expandable : table.Expandable marked within scope depth t) :
    Clean (fun _ => 0) (expandTree table marked onCall scope t) (fun s u s' => s.Supplied names →
      s'.Supplied names ∧ TreeEnds table marked within scope t s u s') := by
  induction t with
  | mk n cs ih =>
    obtain ⟨here, below⟩ := throughout_mk.mp expandable
    rw [expandTree]
    by_cases error : n.kind = .error
    · rw [if_pos (by simpa using error)]
      exact .pure fun s supplied => ⟨supplied, .error error⟩
    · rw [if_neg (by simpa using error), expandList_eq]
      refine .bind (.mapM fun c member => ih c member (below error c member))
        (fun ds => expandNode_ends calls (t := .mk n ds) here) ?_
      intro s ds s' u s'' chain step supplied
      obtain ⟨supplied, children⟩ := chain.along (fun _ _ _ _ _ step held => step held) supplied
      obtain ⟨supplied, top⟩ := step supplied
      exact ⟨supplied, .node error (.of_chain children) top⟩

end Trees

/-- An instance of the body of a macro leaves the names in use taken, and refers to what the body
refers to. -/
theorem instantiate_ends (marks : table.Marks marked names) {m : Template} {body : Tree}
    (declared : m ∈ table.declared) (free : m.id ∉ marked) (isBody : m.body = some body)
    {depth : Nat} (small : table.rank m ≤ depth) {s s' : Expander} {copy : Tree}
    (copied : (instantiate table m body).run s = (copy, s')) (supplied : s.Supplied names) :
    s'.Supplied names ∧ table.Expandable marked (some m) m.scope depth copy := by
  have raw := (marks.bodied m declared body isBody).1
  obtain ⟨_, _, inst, _⟩ := instantiate_eq table m raw s
  rw [copied] at inst
  refine ⟨supplied.mono inst.gives.grows, fun u visits c means callee => ?_⟩
  have calls := inst.calls supplied marks.named isBody u visits c means
  have follows : table.Follows marked m c :=
    ⟨declared, (marks.calls_iff declared).mp calls, free, callee⟩
  refine ⟨Nat.lt_of_lt_of_le (marks.rank_lt follows) small, fun d same => ?_⟩
  cases same
  exact follows

/-- Calls are expanded to the end: each macro on the way has a smaller rank than the one before. -/
theorem expandCall_ends (marks : table.Marks marked names) (depth : Nat) :
    table.CallsEnd marked names depth (expandCall table marked depth) := by
  induction depth with
  | zero => exact fun m _ _ _ small => absurd small (Nat.not_lt_zero _)
  | succ depth ih =>
    intro m declared free hasBody small call s
    refine ⟨Nat.le_refl _, fun _ supplied => ?_⟩
    obtain ⟨body, isBody⟩ := Option.isSome_iff_exists.mp hasBody
    let copying := (instantiate table m body).run { s with expansions := s.expansions + 1 }
    obtain ⟨suppliedCopy, expandable⟩ := instantiate_ends marks declared free isBody
      (Nat.le_of_lt_succ small) (show _ = (copying.1, copying.2) from rfl) supplied
    let expanding := (expandTree table marked (expandCall table marked depth) m.scope copying.1).run
      copying.2
    obtain ⟨suppliedInner, inner⟩ := (expandTree_ends ih expandable copying.2).2 rfl suppliedCopy
    have filled := (expanding.1.substitute_run (argumentOf m call.children) expanding.2).2 rfl
    -- arguments are put in after the expansion of the body, so no call in them is expanded again
    have supply := congrArg Expander.supply filled.frame
    rw [expandCall, isBody]
    refine ⟨fun name member given => ?_, .intro isBody rfl inner rfl⟩
    exact supply ▸ suppliedInner name member given

/-- The calls in a case are expanded to the end. -/
theorem expandBranch_ends (marks : table.Marks marked names) (task branch : Tree) :
    Clean (fun _ => 0) (table.expandBranch marked task branch) (fun s b s' => s.Supplied names →
      s'.Supplied names ∧ OnCase (TreeEnds table marked none (some task.id)) branch s b s') := by
  have expandable : ∀ t : Tree,
      table.Expandable marked none (some task.id) table.declared.length t := by
    intro t u _ m means free
    have declared := mem_of_refer? means
    refine ⟨rank_lt_length_of_acyclic declared (marks.acyclic m declared free), fun d same => ?_⟩
    cases same
  refine (expandBranch_clean task branch fun t =>
    expandTree_ends (expandCall_ends marks table.declared.length) (expandable t)).imp ?_
  intro s b s' step supplied
  exact step.along (fun _ _ _ _ ends held => ends held) supplied

/-- The search for recursive macros marks all that come back to themselves. -/
theorem marks_ofTree {p : Program} {B : Tree → Prop} {domain : Tree} (sound : p.Sound B)
    (found : p.root.findChild? .domain = some domain) (stack : Stack NodeRef) :
    (ofTree p.root domain).Marks
      (((ofTree p.root domain).recursiveOf stack (ofTree p.root domain).declared).1.map Template.id)
      (p.root.visited.map Tree.name) := by
  have identified := identified_ofTree sound.accounted.root_distinct found
  refine ⟨bodied_ofTree sound found, fun m declared => (named_ofTree sound.form found declared).2.1,
    fun m declared free cycle => free ?_⟩
  exact (id_mem_recursiveOf_iff identified stack declared).mpr cycle

end MacroTable

namespace Session

variable {B : Tree → Prop} {domain : Tree}

def cycleReport (m : Template) : Diagnostic :=
  .make .recursiveMacro m.loc [.name m.name]

/-- The state in which the expansion of calls starts. -/
def expander (s : Session) (recursive : List Template) : Expander :=
  ⟨⟨s.program.next, s.program.loose, none⟩,
    ⟨(s.program.root.visited.map Tree.name).filter fun n => n != "", 0⟩,
    s.diagnostics.append (recursive.map cycleReport), 0, s.log⟩

def macros (s : Session) (domain : Tree) : MacroTable :=
  .ofTree s.program.root domain

def recursiveMacros (s : Session) (domain : Tree) : List Template :=
  ((s.macros domain).recursiveOf s.scratch.nodes (s.macros domain).declared).1

theorem supplied_expander (s : Session) (recursive : List Template) :
    (s.expander recursive).Supplied (s.program.root.visited.map Tree.name) := by
  intro name member given
  exact mem_filter.mpr ⟨member, by simpa using given⟩

theorem expandMacros_scratch (s : Session) : s.expandMacros.2.scratch = s.scratch := by
  rw [expandMacros]
  split
  · rfl
  · dsimp only [Session.record]
    rw [recursiveOf_restores]
    rfl

/-- A pass over a program with a domain expands the calls in all cases to the end. It may report
macros of the same name after that, and puts the program together. -/
theorem expandMacros_run (s : Session) (sound : s.program.Sound B)
    (found : s.program.root.findChild? .domain = some domain) :
    ∃ root e, (s.program.root.mapBranchesM ((s.macros domain).expandBranch
        ((s.recursiveMacros domain).map Template.id))).run (s.expander (s.recursiveMacros domain)) =
          (root, e) ∧
      OnBranches (fun task => OnCase ((s.macros domain).TreeEnds
          ((s.recursiveMacros domain).map Template.id) none (some task.id)))
        s.program.root (s.expander (s.recursiveMacros domain)) root e ∧
      s.expandMacros.2.program = ⟨root, e.pool.loose, e.pool.next, s.program.declarations⟩ ∧
      (∃ redefined, s.expandMacros.2.diagnostics = e.diagnostics.append redefined ∧
        ∀ d ∈ redefined, d.problem = .redefinition) ∧
      ∃ problems, s.expandMacros.2.log = e.log ++ [.debug "inlined macros"
        [("expansions", toString e.expansions), ("diagnostics", toString (problems : Nat))]] := by
  have marks : (s.macros domain).Marks ((s.recursiveMacros domain).map Template.id)
      (s.program.root.visited.map Tree.name) := marks_ofTree sound found s.scratch.nodes
  have run := (mapBranchesM_clean s.program.root (fun task branch _ =>
    expandBranch_ends marks task branch) (s.expander (s.recursiveMacros domain))).2 rfl
  have steps := (run.along (fun _ _ _ _ _ _ step held => step held)
    (s.supplied_expander (s.recursiveMacros domain))).2
  refine ⟨_, _, rfl, steps, ?_, ?_, ?_⟩
  · rw [expandMacros, found]
    rfl
  · rw [expandMacros, found]
    refine ⟨_, rfl, fun d member => ?_⟩
    obtain ⟨m, _, rfl⟩ := mem_map.mp member
    rfl
  · rw [expandMacros, found]
    exact ⟨_, rfl⟩

/-- For every program that comes from sources, macro expansion ends without a bound on how deep
calls are nested. The search for recursive macros ends and marks those that lead back to themselves;
references between macros that are not marked are well founded; counting up to a new name ends; and
the cases are expanded to the end by rules in which every expansion inside of a body follows such a
reference. -/
theorem expandMacros_ends {s : Session} (sources : s.program.FromSources) :
    (s.program.root.findChild? .domain = none → s.expandMacros = (true, s)) ∧
    ∀ domain, s.program.root.findChild? .domain = some domain →
      let table := ofTree s.program.root domain
      let recursive := (table.recursiveOf s.scratch.nodes table.declared).1
      let marked := recursive.map Template.id
      (∀ m ∈ table.declared, ∀ stack, ∃ answer,
        table.Visits m.id stack.size stack m answer stack) ∧
      (∀ m ∈ table.declared, m.id ∈ marked ↔ Relation.TransGen table.RefersTo m m) ∧
      WellFounded (fun c m => table.Follows marked m c) ∧
      (∀ (supply : NameSupply) (base : String), ∃ k, supply.IsNext base k ∧ supply.fresh base =
        (NameSupply.numbered base k, ⟨NameSupply.numbered base k :: supply.taken, k⟩)) ∧
      ∃ root e, OnBranches (fun task => OnCase
          (table.TreeEnds marked none (some task.id))) s.program.root (s.expander recursive)
          root e ∧
        s.expandMacros.2.program = ⟨root, e.pool.loose, e.pool.next, s.program.declarations⟩ ∧
        ∃ problems, s.expandMacros.2.log = e.log ++ [.debug "inlined macros"
          [("expansions", toString e.expansions), ("diagnostics", toString (problems : Nat))]] := by
  refine ⟨fun absent => by rw [expandMacros, absent], fun domain found => ?_⟩
  intro table recursive marked
  have sound := sources.sound
  have identified : table.Identified := identified_ofTree sound.accounted.root_distinct found
  have bodied : table.Bodied := bodied_ofTree sound found
  have marks : table.Marks marked (s.program.root.visited.map Tree.name) :=
    marks_ofTree sound found s.scratch.nodes
  refine ⟨fun m declared stack => ⟨_, isRecursive_visits stack declared⟩,
    fun m declared => ?_, marks.wellFounded, NameSupply.fresh_isNext, ?_⟩
  · rw [← bodied.leads_iff declared]
    exact id_mem_recursiveOf_iff identified s.scratch.nodes declared
  · obtain ⟨root, e, _, steps, program, _, log⟩ := s.expandMacros_run sound found
    exact ⟨root, e, steps, program, log⟩

/-- A source with a syntax error at its end. The macros `r`, `a` and `b` of the domain are
recursive, `e` is declared twice, and the task hides `a` by one of its own. The calls of `w` and `a`
in the case come to six expansions, four of them inside of other ones. -/
theorem expandMacros_ends_shadowed :
    ∃ (s : Session) (domain : Tree), s.program.FromSources ∧
      s.program.root.findChild? .domain = some domain ∧
      let table := ofTree s.program.root domain
      let recursive := (table.recursiveOf s.scratch.nodes table.declared).1
      recursive.map (fun m => (m.name, m.scope)) = [("r", none), ("a", none), ("b", none)] ∧
      ∃ root e, OnBranches (fun task => OnCase (table.TreeEnds
          (recursive.map Template.id) none (some task.id))) s.program.root (s.expander recursive)
          root e ∧
        s.expandMacros.2.program = ⟨root, e.pool.loose, e.pool.next, s.program.declarations⟩ ∧
        toString e.expansions = "6" := by
  let s := (Session.start.read "rules" (Text.bytesOf "fact \x7b f(id32) \x7d domain d \x7b macro r() = r() macro a() = b() macro b() = a macro e() = f(l) macro e() = e() task t(x) \x7b macro a(y) = e() & f(y) macro w(x) = a(x) & e case w(x) & r() & a(x) & b() -> [] \x7d")).2
  have sources : s.program.FromSources := .more .empty _ _
  have facts : ((s.program.root.findChild? .domain).any fun domain =>
      let table := ofTree s.program.root domain
      (table.recursiveOf s.scratch.nodes table.declared).1.map (fun m => (m.name, m.scope)) ==
        [("r", none), ("a", none), ("b", none)] &&
      s.expandMacros.2.log.getLast?.map LogRecord.fields ==
        some [("expansions", "6"), ("diagnostics", "4")]) = true := by decide +kernel
  simp only [Option.any_eq_true, Bool.and_eq_true, beq_iff_eq] at facts
  obtain ⟨domain, found, names, last⟩ := facts
  obtain ⟨_, _, _, _, root, e, steps, program, problems, log⟩ :=
    (expandMacros_ends sources).2 domain found
  rw [log] at last
  have count : toString e.expansions = "6" := by
    simp only [getLast?_append, getLast?_singleton, Option.some_or, Option.map_some,
      LogRecord.debug, Option.some.injEq, List.cons.injEq, Prod.mk.injEq, true_and] at last
    exact last.1
  exact ⟨s, domain, sources, found, names, root, e, steps, program, count⟩

end Session

end TaskNet
