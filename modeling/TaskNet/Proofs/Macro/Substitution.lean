import TaskNet.Macro.Expansion
import TaskNet.Proofs.Macro.NewNames
import TaskNet.Proofs.Tree.Update

/-!
Arguments in the places of parameters. Every variable with the name of a parameter is replaced by a
copy of the argument, and set aside; nothing else is done, and no name is looked at but the name of
the variable.
-/

namespace TaskNet

open List

variable {env : String → Option Tree} {c : Content}

/-- What stands in the place of a node, if it is a variable that stands for something. -/
def Content.place? (env : String → Option Tree) : Content → Option Tree
  | .var v => env v.name
  | _ => none

theorem Content.place?_other (other : ¬ ∃ v, c = .var v) :
    c.place? env = none := by
  cases c with
  | var v => exact absurd ⟨v, rfl⟩ other
  | _ => rfl

theorem Content.place?_eq_some {a : Tree} :
    c.place? env = some a ↔ ∃ v, c = .var v ∧ env v.name = some a := by
  cases c <;> simp [place?]

namespace Tree

variable {env : String → Option Tree} {n : Node} {cs : List Tree} {t : Tree}

mutual

/-- Puts trees in the places of variables. Error nodes are left as they are. -/
def subst (env : String → Option Tree) : Tree → Tree
  | mk n cs =>
    if n.kind == .error then mk n cs
    else (n.content.place? env).getD (mk n (substList env cs))

def substList (env : String → Option Tree) : List Tree → List Tree
  | [] => []
  | t :: ts => subst env t :: substList env ts

end

theorem substList_eq (env : String → Option Tree) (ts : List Tree) :
    substList env ts = ts.map (subst env) := by
  induction ts with
  | nil => rfl
  | cons t ts ih => rw [substList, ih, map_cons]

theorem subst_mk (sound : n.kind ≠ .error) :
    subst env (mk n cs) = (n.content.place? env).getD (mk n (cs.map (subst env))) := by
  rw [subst, if_neg (by simpa using sound), substList_eq]

theorem subst_error (error : n.kind = .error) : subst env (mk n cs) = mk n cs := by
  rw [subst, if_pos (by simpa using error)]

/-- A condition on the contents of nodes and the numbers of their children, after trees were put in
places: it is to hold in these trees, and at the nodes that stay. -/
theorem throughout_subst {Q : Content → Nat → Prop}
    (covers : t.Throughout fun s =>
      (∀ a, s.content.place? env = some a → a.Throughout fun u => Q u.content u.children.length) ∧
        (s.content.place? env = none → Q s.content s.children.length)) :
    (t.subst env).Throughout fun u => Q u.content u.children.length := by
  induction t with
  | mk n cs ih =>
    obtain ⟨here, below⟩ := throughout_mk.mp covers
    by_cases error : n.kind = .error
    · obtain ⟨_, _, content⟩ := content_of_error error
      rw [subst_error error]
      refine throughout_mk.mpr ⟨here.2 ?_, fun sound => absurd error sound⟩
      rw [content_mk, content]
      rfl
    rw [subst_mk error]
    cases found : n.content.place? env with
    | some a => exact here.1 a found
    | none =>
      refine throughout_mk.mpr ⟨by simpa using here.2 found, fun _ d member => ?_⟩
      obtain ⟨c, inside, rfl⟩ := mem_map.mp member
      exact ih c inside (below error c inside)

theorem IsRaw.subst (raw : t.IsRaw) (given : ∀ x a, env x = some a → a.IsRaw) :
    (t.subst env).IsRaw := by
  refine throughout_subst (Q := fun c k => c.Takes k ∧ c.Unresolved) (raw.imp fun s here =>
    ⟨fun a found => ?_, fun _ => here⟩)
  obtain ⟨v, _, found⟩ := Content.place?_eq_some.mp found
  exact given v.name a found

theorem substituteList_eq (argument : String → Option Tree) (ts : List Tree) :
    substituteList argument ts = ts.mapM (substitute argument) := by
  induction ts with
  | nil => rfl
  | cons t ts ih => rw [substituteList, ih, mapM_cons]

/-- A tree is left with arguments in the places of variables, and nothing but the pool is different.
-/
structure Substitutes (argument : String → Option Tree) (t : Tree) (s : Expander) (u : Tree)
    (s' : Expander) : Prop where
  frame : s' = { s with pool := s'.pool }
  result : u.anonymous = t.anonymous.subst fun x => (argument x).map anonymous
  moves : Moves (∀ x a, argument x = some a → AllKnown a) [t] s.pool [u] s'.pool

variable {argument : String → Option Tree} {s s' : Expander}

/-- The children of a node that stays. -/
theorem Substitutes.under {ds : List Tree} (sound : n.kind ≠ .error)
    (absent : n.content.place? (fun x => (argument x).map anonymous) = none)
    (chain : Chain (Substitutes argument) cs s ds s') :
    Substitutes argument (.mk n cs) s (.mk n ds) s' := by
  obtain ⟨frame, same⟩ := chain.keeps (I := fun s' => s' = { s with pool := s'.pool })
    (P := fun c d => d.anonymous = c.anonymous.subst fun x => (argument x).map anonymous)
    (fun _ _ _ _ _ step held => ⟨by rw [step.frame, held], step.result⟩) rfl
  refine ⟨frame, ?_, .under rfl (·) ((MovesWith.carries Expander.pool).chain
    (chain.imp fun _ _ _ _ _ step => step.moves))⟩
  rw [anonymous_mk, anonymous_mk, subst_mk (show Node.kind { n with id := 0 } ≠ .error from sound),
    absent, Option.getD_none, map_map]
  congr 1
  exact (map_eq_of_forall₂ (same.imp fun _ _ => Eq.symm)).symm

theorem substitute_run (argument : String → Option Tree) (t : Tree) :
    Clean (fun _ => 0) (t.substitute argument) (Substitutes argument t) := by
  induction t with
  | mk n cs ih =>
    rw [substitute]
    by_cases error : n.kind = .error
    · rw [if_pos (by simpa using error)]
      refine .pure fun s => ⟨rfl, ?_, .refl _ _⟩
      rw [anonymous_mk, subst_error (show Node.kind { n with id := 0 } = .error from error)]
    rw [if_neg (by simpa using error)]
    have descend : n.content.place? (fun x => (argument x).map anonymous) = none →
        Clean (fun _ => 0) (do
          let ds ← substituteList argument cs
          pure (mk n ds)) (Substitutes argument (mk n cs)) := by
      intro absent
      rw [substituteList_eq]
      exact .seq (.mapM ih) fun ds => .pure fun s' s chain => .under error absent chain
    split
    · next v content =>
      split
      · next arg found =>
        refine fun s => ⟨Nat.le_refl _, fun _ => ⟨rfl, ?_, ?_⟩⟩
        · refine (copy_anonymous arg s.pool.next).trans ?_
          rw [anonymous_mk, subst_mk (show Node.kind { n with id := 0 } ≠ .error from error)]
          simp [content, Content.place?, found]
        · -- the variable is set aside once the copy stands in its place
          have copied : Moves (∀ x a, argument x = some a → AllKnown a) [] s.pool
              [(arg.copyIn s.pool).1] (arg.copyIn s.pool).2 :=
            (MovesWith.copy arg s.pool).weaken fun known _ => known _ _ found
          exact (MovesWith.append (.refl [mk n cs] _) copied).trans (.discard _ _ _)
      · next missing => exact descend (by simp [content, Content.place?, missing])
    · next other =>
      refine descend (Content.place?_other ?_)
      rintro ⟨v, content⟩
      exact other v content

/-- Expressions stay expressions when expressions are put in places. -/
theorem Substitutes.raw {u : Tree} (run : Substitutes argument t s u s') (raw : t.IsRaw)
    (given : ∀ x a, argument x = some a → a.IsRaw) : u.IsRaw := by
  rw [← isRaw_anonymous, run.result]
  refine (isRaw_anonymous.mpr raw).subst fun x a found => ?_
  obtain ⟨b, isArgument, rfl⟩ := Option.map_eq_some_iff.mp found
  exact isRaw_anonymous.mpr (given x b isArgument)

end Tree

namespace MacroTable

variable {m : Template} {args : List Tree} {name : String}

theorem argumentOf_mem {arg : Tree} (found : argumentOf m args name = some arg) : arg ∈ args :=
  (of_mem_zip (mem_of_lookup found)).2

theorem argumentOf_map (m : Template) (args : List Tree) (name : String) (h : Tree → Tree) :
    (argumentOf m args name).map h = argumentOf m (args.map h) name := by
  rw [argumentOf, argumentOf, zip_map_right]
  exact (lookup_map_snd h _ name).symm

theorem argumentOf_eq_none (other : name ∉ m.formals) : argumentOf m args name = none := by
  refine lookup_eq_none fun paired => other ?_
  obtain ⟨pair, member, rfl⟩ := mem_map.mp paired
  exact (of_mem_zip member).1

theorem argumentOf_isSome (covers : m.formals.length ≤ args.length) :
    (argumentOf m args name).isSome ↔ name ∈ m.formals := by
  rw [argumentOf, lookup_isSome, map_fst_zip covers]

end MacroTable

end TaskNet
