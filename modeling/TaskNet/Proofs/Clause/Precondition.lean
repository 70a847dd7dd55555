import TaskNet.Compile
import TaskNet.Proofs.Clause.Conservation
import TaskNet.Proofs.Clause.Preservation
import TaskNet.Proofs.Tree.Lookup
import TaskNet.Proofs.Tree.Update

/-!
Normalization of a program. It never fails on a program in order, and when no precondition passes
the bound, every precondition is in disjunctive normal form and the program is in order again.
-/

namespace TaskNet

open List Tree

variable {A : Tree → Prop} {s : Normalizer}

namespace Tree

/-- Trees that were set aside before stay so. -/
theorem MovesWith.frame {C : Prop} {before after : List Tree} {next : NodeId} {q : Pool}
    (moves : Moves C before (.start next) after q) (loose : List Tree) {stop stop' : Option Stop} :
    Moves C before ⟨next, loose, stop⟩ after ⟨q.next, q.loose ++ loose, stop'⟩ where
  next_le := moves.next_le
  kept x := by
    have kept := moves.kept x
    simp only [Pool.start, tallies_nil, tallies_append] at kept ⊢
    omega
  loose_le x := tallies_append x q.loose loose ▸ Nat.le_add_left _ _
  known condition knownBefore knownLoose := by
    obtain ⟨knownAfter, set⟩ := moves.known condition knownBefore eachOf_nil
    exact ⟨knownAfter, eachOf_append.mpr ⟨set, knownLoose⟩⟩

theorem IsRaw.negationsUnary {t : Tree} (raw : t.IsRaw) : t.NegationsUnary :=
  raw.imp fun s both negation => by
    have takes := both.1
    rw [negation] at takes
    exact takes

end Tree

namespace Normalizer

/-- What a normalizer has set aside and gives out. -/
def pool (s : Normalizer) : Pool :=
  ⟨s.next, s.loose, none⟩

def problems (s : Normalizer) : Nat :=
  s.limited.length

end Normalizer

open Normalizer

variable {task branch pre list : Tree} {info : Guarded} {attrs : List Tree}

def Tree.withPrecondition (branch : Tree) (info : Guarded) (attrs : List Tree) (new list : Tree) :
    Tree :=
  .mk { branch.node with content := .branch { info with precond := some new.id } }
    (attrs ++ [new, list])

/-- Normalizing one case does not fail. Its precondition is replaced by one in disjunctive normal
form, which satisfies what normalization keeps, unless the case passed the bound. -/
theorem normalizeBranch_run (limit : Int) (parts : HasParts branch info attrs pre list)
    (raw : pre.IsRaw) (distinct : (branch.children.map Tree.id).Nodup)
    (running : s.fault = none) {b : Tree} {s' : Normalizer}
    (run : (normalizeBranch limit task branch).run s = (b, s')) :
    s'.fault = none ∧ s.problems ≤ s'.problems ∧ Moves True [branch] s.pool [b] s'.pool ∧
      (s'.problems = s.problems → ∃ new, b = branch.withPrecondition info attrs new list ∧
        new.IsDisjunctiveNormal ∧
        ∀ P, Normalizable P → pre.Throughout P → new.Throughout P) := by
  have unary := raw.negationsUnary
  have kept := fun P normalizable finished => throughout_toClauses (P := P) normalizable limit unary
    (p := .start s.next) rfl finished
  have moves := toClauses_moves limit pre (.start s.next)
  have spec := toClauses_spec limit unary (p := .start s.next) rfl
  rw [normalizeBranch, run_modifyGet] at run
  simp only [running, parts.content, parts.precond,
    part?_of_distinct distinct (show pre ∈ branch.children by simp [parts.children]),
    putPart_of_distinct parts.children distinct] at run
  generalize pre.toClauses limit (.start s.next) = result at run kept moves spec
  obtain ⟨new, pool⟩ := result
  have framed : Moves True [pre] s.pool [new] ⟨pool.next, pool.loose ++ s.loose, none⟩ :=
    moves.frame s.loose
  have around : Moves True branch.children s.pool (attrs ++ [new, list])
      ⟨pool.next, pool.loose ++ s.loose, none⟩ := by
    rw [parts.children]
    exact .append (.refl attrs _) (framed.cons (.refl [list] _))
  have whole : Moves True [branch] s.pool [branch.withPrecondition info attrs new list]
      ⟨pool.next, pool.loose ++ s.loose, none⟩ := by
    have under := around.under (n := branch.node)
      (m := (branch.withPrecondition info attrs new list).node) rfl (·)
    rwa [branch.eta] at under
  dsimp only at run spec kept
  rcases spec with ⟨_, stopped⟩ | ⟨finished, normal, _⟩
  · rw [stopped] at run
    cases run
    refine ⟨rfl, by simp [problems], whole, fun same => ?_⟩
    simp [problems] at same
  · rw [finished] at run
    cases run
    exact ⟨rfl, Nat.le_refl _, whole, fun _ => ⟨new, rfl, normal,
      fun P normalizable => kept P normalizable finished⟩⟩

/-- What normalizing one case without passing the bound does to it. -/
def Normalizes (branch : Tree) (s : Normalizer) (b : Tree) (s' : Normalizer) : Prop :=
  s.fault = none → s'.fault = none ∧ b.entries = branch.entries ∧
    ∀ A, Normalizable A → IsCase IsRaw (fun t => t.IsRaw ∧ t.Throughout A) branch →
      IsCase IsRaw (fun t => t.IsRaw ∧ t.IsDisjunctiveNormal ∧ t.Throughout A) b

theorem normalizeBranch_faulty (limit : Int) {f : Fault} (faulty : s.fault = some f) :
    (normalizeBranch limit task branch).run s = (branch, s) := by
  rw [normalizeBranch, run_modifyGet]
  simp only [faulty]

section Runs

variable {p : Program} (sound : p.Sound RawCase) (member : (task, branch) ∈ p.root.branches)
include sound member

/-- A case of a program in order can be normalized, and every node stays in one place. -/
theorem normalizeBranch_safe (limit : Int) : Clean (fun _ => 0) (normalizeBranch limit task branch)
    fun s b s' => s.fault = none → s'.fault = none ∧ Moves True [branch] s.pool [b] s'.pool := by
  obtain ⟨info, attrs, pre, list, parts, _, raw, _⟩ := sound.form.branch member
  have distinct := (sound.accounted.branch_distinct member).children
  refine fun s => ⟨Nat.le_refl _, fun _ running => ?_⟩
  obtain ⟨runs, _, moves, _⟩ := normalizeBranch_run limit parts raw distinct running rfl
  exact ⟨runs, moves⟩

theorem normalizeBranch_clean (limit : Int) :
    Clean problems (normalizeBranch limit task branch) (Normalizes branch) := by
  obtain ⟨info, attrs, pre, list, parts, rawAttrs, raw, rawList⟩ := sound.form.branch member
  have distinct := (sound.accounted.branch_distinct member).children
  intro s
  cases fault : s.fault with
  | some f =>
    rw [normalizeBranch_faulty limit fault]
    exact ⟨Nat.le_refl _, fun _ running => absurd (fault.symm.trans running) (by simp)⟩
  | none =>
    cases run : (normalizeBranch limit task branch).run s with
    | mk b s' =>
    obtain ⟨runs, grows, _, normal⟩ :=
      normalizeBranch_run limit parts raw distinct fault run
    refine ⟨grows, fun same _ => ?_⟩
    obtain ⟨new, changed, disjunctive, keeps⟩ := normal same
    have rawNew : new.IsRaw := keeps _ normalizable_raw raw
    have after : HasParts (branch.withPrecondition info attrs new list)
        { info with precond := some new.id } attrs new list :=
      ⟨rfl, rfl, parts.attrKinds, rfl, parts.listContent, parts.tasks⟩
    refine ⟨runs, ?_, fun A normalizable isCase => ?_⟩
    · rw [changed, after.entries rawNew.isTerm.isExpression,
        parts.entries raw.isTerm.isExpression]
    · obtain ⟨_, _, _, _, parts', _, ⟨_, holds⟩, _⟩ := isCase
      obtain ⟨rfl, rfl, rfl, rfl⟩ := parts.unique parts'
      rw [changed]
      exact ⟨_, attrs, new, list, after, rawAttrs,
        ⟨rawNew, disjunctive, keeps A normalizable holds⟩, rawList⟩

end Runs

/-- Normalizing a program in order does not fail, leaves every node in one place, and leaves the
program in order with preconditions in disjunctive normal form and the same task lists unless one
passed the bound. -/
theorem Session.normalize_sound (limit : Int) (normalizable : Normalizable A)
    (s : Session) (sound : s.program.Sound (IsCase IsRaw fun t => t.IsRaw ∧ t.Throughout A)) :
    (s.normalize limit).fault = none ∧ (s.normalize limit).session.program.Accounted ∧
    ((s.normalize limit).limited = [] →
      (s.normalize limit).session.program.Sound
        (IsCase IsRaw fun t => t.IsRaw ∧ t.IsDisjunctiveNormal ∧ t.Throughout A) ∧
      EntriesFrom (fun _ => Eq) s.program.root (s.normalize limit).session.program.root) := by
  have raw : s.program.Sound RawCase :=
    sound.strengthen fun _ _ _ => .imp (fun _ raw => raw) fun _ both => both.1
  rw [normalize]
  have safe := mapBranchesM_clean _ (fun task branch member =>
    normalizeBranch_safe raw member limit) ⟨s.program.next, s.program.loose, 0, [], none⟩
  have clean := mapBranchesM_clean _ (fun task branch member =>
    normalizeBranch_clean raw member limit) ⟨s.program.next, s.program.loose, 0, [], none⟩
  generalize (s.program.root.mapBranchesM (normalizeBranch limit)).run
    ⟨s.program.next, s.program.loose, 0, [], none⟩ = result at safe clean
  obtain ⟨root, n⟩ := result
  have carries : Carries fun ts (s : Normalizer) ts' s' =>
      s.fault = .none → s'.fault = .none ∧ Moves True ts s.pool ts' s'.pool := by
    refine ⟨fun ts s runs => ⟨runs, .refl _ _⟩, fun first second runs => ?_, fun below runs => ?_⟩
    · obtain ⟨middle, one⟩ := first runs
      obtain ⟨last, two⟩ := second middle
      exact ⟨last, one.append two⟩
    · obtain ⟨last, moves⟩ := below runs
      exact ⟨last, moves.under rfl (·)⟩
  obtain ⟨running, moves⟩ := (safe.2 rfl).carries carries (fun _ _ _ _ _ step => step) rfl
  refine ⟨running, .of_moves moves raw.accounted, fun within => ?_⟩
  have none : n.limited = [] := within
  have steps := clean.2 (by simp [problems, none])
  obtain ⟨_, updates⟩ := steps.keeps (I := fun n => n.fault = .none)
    (Q := fun _ branch b => b.entries = branch.entries ∧
      (IsCase IsRaw (fun t => t.IsRaw ∧ t.Throughout A) branch →
        IsCase IsRaw (fun t => t.IsRaw ∧ t.IsDisjunctiveNormal ∧ t.Throughout A) b))
    (fun _ _ _ _ _ _ step runs =>
      ⟨(step runs).1, (step runs).2.1, (step runs).2.2 A normalizable⟩) rfl
  refine ⟨.of_moves moves sound (updates.isProgram sound.form fun task b b' member kept => ?_), ?_⟩
  · have isCase := kept.2 (sound.form.branch member)
    exact ⟨isCase.kind, isCase⟩
  · refine updates.entriesFrom fun task b b' _ kept => ?_
    rw [kept.1]
    exact forall₂_same.mpr fun _ _ => rfl

/-- The phase as a whole. -/
theorem Session.normalizePhase_sound (limit : Int) (normalizable : Normalizable A)
    (s : Session) (sound : s.program.Sound (IsCase IsRaw fun t => t.IsRaw ∧ t.Throughout A)) :
    ∃ ok, (s.normalizePhase limit).1 = .ok ok ∧
      s.diagnostics.size ≤ (s.normalizePhase limit).2.diagnostics.size ∧
      (s.normalizePhase limit).2.program.Accounted ∧
      ((s.normalizePhase limit).2.diagnostics.size = s.diagnostics.size →
        ok = true ∧ (s.normalizePhase limit).2.program.Sound
          (IsCase IsRaw fun t => t.IsRaw ∧ t.IsDisjunctiveNormal ∧ t.Throughout A) ∧
        EntriesFrom (fun _ => Eq) s.program.root (s.normalizePhase limit).2.program.root) := by
  obtain ⟨running, accounted, normal⟩ := s.normalize_sound limit normalizable sound
  rw [normalizePhase]
  split
  · next absent =>
    have absent : s.program.root.findChild? .domain = none := by simpa using absent
    exact ⟨true, rfl, Nat.le_refl _, sound.accounted,
      fun _ => ⟨rfl, ⟨⟨sound.form.kind, sound.form.blocks,
      sound.form.single, fun d found => absurd (absent.symm.trans found) (by simp)⟩,
      sound.accounted, sound.known⟩, .refl (fun _ _ => rfl) _⟩⟩
  · dsimp only
    rw [running]
    have same : (s.normalize limit).session.diagnostics = s.diagnostics := rfl
    refine ⟨_, rfl, ?_, accounted, fun silent => ?_⟩
    · simp only [record, same, Collector.size_append]
      omega
    · simp only [record, same, Collector.size_append, length_map] at silent
      have within : (s.normalize limit).limited = [] := length_eq_zero_iff.mp (by omega)
      exact ⟨by rw [within]; rfl, normal within⟩

end TaskNet
