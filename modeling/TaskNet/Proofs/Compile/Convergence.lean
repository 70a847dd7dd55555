import TaskNet.Proofs.Compile.Widening
import TaskNet.Proofs.Function.Registration

/-!
The loops of type inference end. Sweeps over task calls give types to parameters of tasks only, and
these go up one of four steps each time, so the sweeps end after at most four for each parameter,
and one more. The same holds of the walks over the assignments of a case and the variables of its
precondition.
-/

namespace TaskNet

open List Program Tree TypeTag Typing TypingContext

/-- The table of variables of a tree lists their names without repetitions. -/
theorem Tree.names_variableTable (t : Tree) :
    t.variableTable.map VarEntry.name = t.variableNames.eraseDups := by
  -- The table so far lists the names met so far.
  have grows : ∀ ts table, ∀ seen : List String, table.map VarEntry.name = seen.eraseDups →
      (addVariables table ts).map VarEntry.name =
        (seen ++ ts.filterMap fun s => s.content.varName?).eraseDups := by
    intro ts
    induction ts with
    | nil => simp [addVariables]
    | cons t ts ih =>
      intro table seen listed
      rw [addVariables]
      split
      · next v content =>
        have next : (t :: ts).filterMap (fun s => s.content.varName?) =
            [v.name] ++ ts.filterMap fun s => s.content.varName? := by
          simp [content, Content.varName?]
        have known : (table.any fun e => e.name == v.name) = true ↔ v.name ∈ seen := by
          rw [← mem_eraseDups, ← listed]
          simp
        rw [next, ← append_assoc]
        split
        · next old => exact ih _ _ (by rw [eraseDups_concat, if_pos (known.mp old), listed])
        · next new =>
          refine ih _ _ ?_
          rw [eraseDups_concat, if_neg (fun old => new (known.mpr old)), map_append, listed]
          rfl
      · next other =>
        have none : t.content.varName? = none := by
          cases content : t.content with
          | var v => exact absurd content (other v)
          | _ => rfl
        rw [filterMap_cons, none]
        exact ih _ _ listed
  exact grows t.visited [] [] rfl

namespace TypingContext

variable {env : TypingContext}

theorem nodup_params : env.params.Nodup := by
  have places : (env.sites.table.toList.zipIdx.map Prod.snd).Nodup := by
    rw [zipIdx_map_snd]
    exact nodup_range'
  exact places.sublist (filter_sublist.map Prod.snd)

end TypingContext

namespace Infer

variable {env : TypingContext} {branches : List (Tree × Tree)} {places : List NodeId}
variable {slots : Slots} {ts : List Tree} {s s' : Typing} {n k : Nat}

/-- Sweeps up to and including the first one that changes nothing, and their number. -/
inductive SweepsOut (env : TypingContext) (branches : List (Tree × Tree)) :
    Typing → Nat → Typing → Prop
  | last {s s' : Typing} (ran : (sweep env branches).run s = (.ok false, s')) :
      SweepsOut env branches s 1 s'
  | again {k : Nat} {s s' s'' : Typing} (ran : (sweep env branches).run s = (.ok true, s'))
      (rest : SweepsOut env branches s' k s'') : SweepsOut env branches s (k + 1) s''

/-- Sweeps that may be as many as types can be widened, and one more, come to one that changes
nothing, and each one before it has widened a type. -/
theorem Sweeping.sweepsOut (listed : Listed env branches)
    (writes : ∀ pair ∈ taskArguments env branches, Writes env places pair)
    (sweeping : Sweeping env branches n s k s') (inside : ∀ x ∈ places, x < s.types.size)
    (enough : 4 * places.length < climbed places s.types + n) :
    SweepsOut env branches s k s' ∧ climbed places s.types + k ≤ 4 * places.length + 1 := by
  induction sweeping with
  | out s =>
    have most := climbed_le places s.types
    omega
  | @last n s s' ran =>
    have most := climbed_le places s.types
    exact ⟨.last ran, by omega⟩
  | again ran _ ih =>
    have first := sweeps_of_run listed writes ran
    have progress := first.climbs inside
    rw [Bool.toNat_true] at progress
    obtain ⟨out, bound⟩ := ih (fun x place => first.raised.size ▸ inside x place) (by omega)
    exact ⟨.again ran out, by omega⟩

/-- Walks over assignments up to and including the first one that moves no slot, fails or stops with
a fault, their number and what they come to. -/
inductive WalksOut (env : TypingContext) (slots : Slots) (ts : List Tree) :
    Typing → Nat → Except Fault Bool → Typing → Prop
  | stopped {e : Fault} {s s' : Typing}
      (ran : (walkAssignments env slots .unchanged ts).run s = (.error e, s')) :
      WalksOut env slots ts s 1 (.error e) s'
  | failed {s s' : Typing}
      (ran : (walkAssignments env slots .unchanged ts).run s = (.ok .failed, s')) :
      WalksOut env slots ts s 1 (.ok false) s'
  | last {s s' : Typing}
      (ran : (walkAssignments env slots .unchanged ts).run s = (.ok .unchanged, s')) :
      WalksOut env slots ts s 1 (.ok true) s'
  | again {k : Nat} {r : Except Fault Bool} {s s' s'' : Typing}
      (ran : (walkAssignments env slots .unchanged ts).run s = (.ok .changed, s'))
      (rest : WalksOut env slots ts s' k r s'') : WalksOut env slots ts s (k + 1) r s''

/-- Walks that may be as many as slots can be widened, and one more, come to their end, and each one
before it has widened a slot. -/
theorem settleAssignments_walksOut (each : ∀ t ∈ ts, IsAssignment False t) {fuel : Nat}
    (room : slots.base + slots.names.length ≤ s.tags.size)
    (enough : 4 * slots.names.length < climbed slots.places s.tags.items + fuel) :
    ∃ k r s', (settleAssignments env slots ts fuel).run s = (r, s') ∧
      WalksOut env slots ts s k r s' ∧
      climbed slots.places s.tags.items + k ≤ 4 * slots.names.length + 1 := by
  have most := slots.climbed_le s.tags.items
  induction fuel generalizing s with
  | zero => omega
  | succ fuel ih =>
    rw [settleAssignments, run_bind]
    cases ran : (walkAssignments env slots .unchanged ts).run s with
    | mk r s' =>
      cases r with
      | error e => exact ⟨1, _, s', rfl, .stopped ran, by omega⟩
      | ok walked =>
        cases walked with
        | failed => exact ⟨1, _, s', rfl, .failed ran, by omega⟩
        | unchanged => exact ⟨1, _, s', rfl, .last ran, by omega⟩
        | changed =>
          have walk := (walkAssignments_walks (Nat.le_refl _) each .unchanged).of_eq room ran
          have progress := (walk.climbs rfl).resolve_left (by simp)
          obtain ⟨k, r, s'', rest, out, bound⟩ :=
            ih (by rw [walk.lifts.room]; exact room) (by omega) (slots.climbed_le _)
          exact ⟨k + 1, r, s'', rest, .again ran out, by omega⟩

end Infer

section Resolved

open Infer

variable {T : Prop} {p : Program} {functions : OverloadTable}

/-- The identities of the parameters of tasks, without repetitions. -/
def Program.taskPlaces (functions : OverloadTable) (p : Program) : List NodeId :=
  (ofProgram functions p).params.filter fun x => x ∈ (taskParams p.root).map Tree.id

theorem Program.mem_taskPlaces (accounted : p.Accounted) {q : Tree}
    (isParam : q ∈ taskParams p.root) : q.id ∈ p.taskPlaces functions :=
  mem_filter.mpr ⟨(mem_params_ofProgram accounted).mpr
    (ofParams_of_taskParam isParam), by simpa using ⟨q, isParam, rfl⟩⟩

theorem Program.length_taskPlaces_le :
    (p.taskPlaces functions).length ≤ (taskParams p.root).length ∧
      (p.taskPlaces functions).length ≤ (ofProgram functions p).paramCount := by
  refine ⟨?_, ?_⟩
  · rw [← length_map (f := Tree.id)]
    refine (List.Nodup.subperm (nodup_params.filter _) fun x member => ?_).length_le
    simpa using (mem_filter.mp member).2
  · rw [← length_params]
    exact length_filter_le _ _

/-- Sweeps give types to parameters of tasks only. -/
theorem writes_taskPlaces (resolved : p.Resolved T) :
    ∀ pair ∈ taskArguments (.ofProgram functions p) p.root.branches,
      Writes (.ofProgram functions p) (p.taskPlaces functions) pair := by
  have accounted := resolved.sound.accounted
  refine eachArgument_iff.mp ?_
  rintro ⟨task, branch⟩ member e entry d declared isTask ⟨arg, param⟩ zipped
  obtain ⟨isArg, isParam⟩ := of_mem_zip zipped
  obtain ⟨info, attrs, pre, list, resolution⟩ := resolved.branches task branch member
  rw [callsOf_eq resolution accounted member] at entry
  obtain ⟨c, content⟩ : ∃ c, e.content = .call c := content_of_call (kind_of_declaration? declared)
  refine ⟨mem_taskPlaces accounted ?_, fun v q isVar found isParam => ?_⟩
  · -- a call in a task list is linked to a task of the domain or to a primitive, which is no task
    obtain ⟨callee, decl, ⟨above, site⟩, _, group⟩ :=
      callee_of_entry resolved resolution entry content
    rw [declaration?_of_site resolved content site decl] at declared
    cases declared
    rcases group with task | primitive
    · obtain ⟨domain, first, inside⟩ := mem_tasks.mp task
      rw [taskParams, first]
      exact mem_flatMap.mpr ⟨callee, inside, isParam⟩
    · obtain ⟨block, first, inside⟩ := mem_childrenOfFirst.mp primitive
      have isFact := ((resolved.sound.form.block (.inr rfl) first).2 callee inside).1
      cases isFact.symm.trans isTask
  · -- a variable in a task list refers to a parameter of its task or to a variable
    obtain ⟨x, definition, site⟩ := Option.bind_eq_some_iff.mp found
    obtain ⟨atParam, same⟩ := mem_of_find? site
    have visits : arg ∈ e.visited := mem_visited_child
      (takes_sound (resolution.entryTerms e entry).here) isArg (mem_visited_self arg)
    rcases resolution.defined (resolution.mem_expressions.mpr (.inr (.inr entry))) visits isVar with
      isParam | ⟨_, b, announced, same', w, content, _⟩
    · obtain ⟨r, inside, _, same'⟩ := mem_of_param? isParam
      rw [definition, Option.getD_some] at same'
      rw [same, ← same']
      exact mem_taskPlaces accounted (mem_taskParams member inside)
    · refine absurd ⟨q, atParam, isParam, ?_⟩
        (not_ofParams accounted member pre resolution.precond_mem b announced (kind_of_var content))
      rw [same', definition, Option.getD_some]
      exact same

/-- Every propagation over the task calls of a program comes to a sweep that changes nothing. -/
theorem propagate_sweepsOut (resolved : p.Resolved T) {s : Typing} (size : s.types.size = p.next) :
    ∃ k s', (propagate (.ofProgram functions p) p.root.branches).run s = (.ok k, s') ∧
      SweepsOut (.ofProgram functions p) p.root.branches s k s' ∧
      k ≤ 4 * (taskParams p.root).length + 1 := by
  have accounted := resolved.sound.accounted
  have listed : Listed (.ofProgram functions p) p.root.branches := listed_of_resolved resolved
  obtain ⟨fewer, enough⟩ : (p.taskPlaces functions).length ≤ _ ∧ _ := length_taskPlaces_le
  have room : ∀ x ∈ p.taskPlaces functions, x < s.types.size := fun x place => by
    obtain ⟨site, inside, _, rfl⟩ :=
      (mem_params_ofProgram accounted).mp (mem_filter.mp place).1
    exact size ▸ accounted.lt_next (mem_nodes_of_mem_siteList inside)
  have runs : Runs True 0 (propagate (.ofProgram functions p) p.root.branches) _ :=
    propagateFor_sweeping listed _
  obtain ⟨k, s', ran, sweeping⟩ := runs.exists_ok trivial s (Nat.zero_le _)
  obtain ⟨out, bound⟩ := sweeping.sweepsOut listed (writes_taskPlaces resolved) room (by omega)
  exact ⟨k, s', ran, out, by omega⟩

/-- Going over arguments of task calls only widens types, and no type is lost. -/
theorem sweepArguments_rises (resolved : p.Resolved T) {pairs : List (Tree × Tree)}
    (inside : pairs ⊆ taskArguments (.ofProgram functions p) p.root.branches) (s : Typing) :
    ∃ changed s', (sweepArguments (.ofProgram functions p) pairs).run s = (.ok changed, s') ∧
      ∀ x, (s.typeAt x).Below (s'.typeAt x) ∧
        (s.typeAt x ≠ .notAType → s'.typeAt x ≠ .notAType) := by
  have listed : Listed (.ofProgram functions p) p.root.branches := listed_of_resolved resolved
  have terms := terms_of_listed listed
  obtain ⟨changed, s', ran, passed⟩ :=
    (sweepArguments_passed fun pair member => terms pair (inside member)).exists_ok trivial s
      (Nat.zero_le _)
  have raised := (passed.sweeps fun pair member =>
    writes_taskPlaces resolved pair (inside member)).raised
  exact ⟨changed, s', ran, fun x => ⟨raised.rises x, raised.typed x⟩⟩

/-- The loops of type inference end. Whatever arguments of task calls a sweep has gone over, types
of nodes have only risen and none has been lost. So every propagation ends after at most four sweeps
for each parameter of a task, and one more. In the same way the walks over the assignments of a case
end after at most four for each variable of its precondition, and one more. -/
theorem inference_converges {opts : Options} {src : Source} {session : Session}
    (resolves : Resolves opts src session) (functions : OverloadTable) :
    let p := session.program
    let env := ofProgram functions p
    (∀ pairs ⊆ taskArguments env p.root.branches, ∀ s, ∃ changed s',
      (sweepArguments env pairs).run s = (.ok changed, s') ∧ ∀ x,
        (s.typeAt x).Below (s'.typeAt x) ∧ (s.typeAt x ≠ .notAType → s'.typeAt x ≠ .notAType)) ∧
    (∀ s, s.types.size = p.next → ∃ k s', (propagate env p.root.branches).run s = (.ok k, s') ∧
      SweepsOut env p.root.branches s k s' ∧ k ≤ 4 * (taskParams p.root).length + 1) ∧
    ∀ task branch info pre slots s, (task, branch) ∈ p.root.branches →
    branch.content = .branch info →
      env.tree? info.precond = some pre → slots.names = info.precondVars.map VarEntry.name →
      slots.base + slots.names.length ≤ s.tags.size → ∃ k r s',
        (settleAssignments env slots pre.assignments (4 * slots.names.length + 1)).run s = (r, s') ∧
        WalksOut env slots pre.assignments s k r s' ∧
        k ≤ 4 * pre.variableNames.eraseDups.length + 1 := by
  have resolved := resolves.resolved
  refine ⟨fun pairs inside s => sweepArguments_rises resolved inside s,
    fun s size => propagate_sweepsOut resolved size, ?_⟩
  intro task branch info pre slots s member content found names room
  obtain ⟨info', attrs, pre', list, resolution⟩ := resolved.branches task branch member
  obtain rfl : info' = info := by simpa [resolution.content] using content
  have work : Workable False (.ofProgram functions session.program) _ pre' list :=
    resolution.workable resolved.sound.accounted member
  obtain rfl : pre' = pre := Option.some.inj (work.precond.symm.trans found)
  have enough : 4 * slots.names.length < climbed slots.places s.tags.items +
      (4 * slots.names.length + 1) := by omega
  obtain ⟨k, r, s', ran, out, bound⟩ := settleAssignments_walksOut work.assignments room enough
  refine ⟨k, r, s', ran, out, ?_⟩
  rw [names, resolution.precondVars, names_variableTable] at bound
  omega

/-- Two tasks that call each other and pass on their parameters. -/
def mutualCalls : Source :=
  ⟨"rounds", Text.bytesOf "fact { f(int8) g(float) } domain d {
    task a(x) { case f(x) -> [b(x)] } task b(y) { case g(z) -> [a(y), a(z)] } }"⟩

theorem inference_converges_mutual_calls :
    ∃ session, Resolves ⟨0, []⟩ mutualCalls session ∧
      ∃ k s', (propagate (.ofProgram .intrinsics session.program) session.program.root.branches).run
          session.typingStart = (.ok k, s') ∧
        SweepsOut (.ofProgram .intrinsics session.program) session.program.root.branches
          session.typingStart k s' ∧ k ≤ 9 := by
  have passes : resolvesTo ⟨0, []⟩ mutualCalls
      (fun s => (taskParams s.program.root).length == 2) = true := by decide +kernel
  obtain ⟨session, resolves, two⟩ := exists_of_resolvesTo passes
  obtain ⟨k, s', ran, out, bound⟩ := (inference_converges resolves .intrinsics).2.1
    session.typingStart session.types_size_typingStart
  rw [beq_iff_eq.mp two] at bound
  exact ⟨session, resolves, k, s', ran, out, bound⟩

end Resolved

end TaskNet
