import Mathlib.Data.List.Forall2
import TaskNet.Session

/-!
Runs that report nothing. A pass may report a problem at any step and goes on, but what it leaves
behind only matters when the whole run reported nothing. Since reports are never taken back, every
step of such a run reported nothing either; the rules here carry that through a pass.
-/

namespace TaskNet

open List

variable {σ α β : Type}

@[simp] theorem Collector.size_append (c : Collector) (ds : List Diagnostic) :
    (c.append ds).size = c.size + ds.length := by
  simp [Collector.append, Collector.size]

@[simp] theorem Collector.size_add (c : Collector) (problem : Problem) (loc : Location)
    (args : List Subject) : (c.add problem loc args).size = c.size + 1 := by
  simp [Collector.add]

theorem run_modifyGet (g : σ → α × σ) (s : σ) : (modifyGet g : StateM σ α).run s = g s := rfl

/-- A step never lowers the number of problems, and when it does not raise it, the states before and
after and the result are related. -/
def Clean (size : σ → Nat) (f : StateM σ α) (R : σ → α → σ → Prop) : Prop :=
  ∀ s, size s ≤ size (f.run s).2 ∧ (size (f.run s).2 = size s → R s (f.run s).1 (f.run s).2)

namespace Clean

variable {size : σ → Nat} {f : StateM σ α} {R S : σ → α → σ → Prop}
variable {g : α → StateM σ β} {U : σ → β → σ → Prop}

theorem imp (clean : Clean size f R) (weaker : ∀ s a s', R s a s' → S s a s') : Clean size f S :=
  fun s => ⟨(clean s).1, fun same => weaker _ _ _ ((clean s).2 same)⟩

theorem pure {a : α} (holds : ∀ s, R s a s) : Clean size (Pure.pure a) R :=
  fun s => ⟨Nat.le_refl _, fun _ => holds s⟩

/-- A sequence that reports nothing is made of two steps that report nothing. -/
theorem bind {T : α → σ → β → σ → Prop} (first : Clean size f R)
    (second : ∀ a, Clean size (g a) (T a))
    (both : ∀ s a s' b s'', R s a s' → T a s' b s'' → U s b s'') : Clean size (f >>= g) U := by
  intro s
  have one := first s
  have two := second (f.run s).1 (f.run s).2
  refine ⟨Nat.le_trans one.1 two.1, fun same => ?_⟩
  have total : size ((g (f.run s).1).run (f.run s).2).2 = size s := same
  exact both s _ _ _ _ (one.2 (by omega)) (two.2 (by omega))

/-- The second step is asked for what follows from the first. -/
theorem seq (first : Clean size f R)
    (second : ∀ a, Clean size (g a) fun s' b s'' => ∀ s, R s a s' → U s b s'') :
    Clean size (f >>= g) U :=
  first.bind second fun s _ _ _ _ one two => two s one

end Clean

/-- What a relation between the states before and after a step means for a list of steps in a row.
-/
inductive Chain (R : α → σ → β → σ → Prop) : List α → σ → List β → σ → Prop
  | nil (s : σ) : Chain R [] s [] s
  | cons {a : α} {as : List α} {b : β} {bs : List β} {s s' s'' : σ} (head : R a s b s')
      (tail : Chain R as s' bs s'') : Chain R (a :: as) s (b :: bs) s''

namespace Chain

variable {R S : α → σ → β → σ → Prop} {as : List α} {bs : List β} {s s' : σ}
variable {P : α → β → Prop} {I : σ → Prop} {γ : Type} {as' : List α} {bs' : List β} {s'' : σ}

theorem forall₂ (chain : Chain R as s bs s') (each : ∀ a s b s', R a s b s' → P a b) :
    List.Forall₂ P as bs := by
  induction chain with
  | nil => exact .nil
  | cons head _ ih => exact .cons (each _ _ _ _ head) ih

theorem imp (chain : Chain R as s bs s') (weaker : ∀ a ∈ as, ∀ s b s', R a s b s' → S a s b s') :
    Chain S as s bs s' := by
  induction chain with
  | nil s => exact .nil s
  | cons head _ ih =>
    exact .cons (weaker _ (by simp) _ _ _ head) (ih (forall_mem_cons.mp weaker).2)

/-- Where every step goes up in an order, each one lies between the start and the end. -/
theorem between {T : σ → σ → Prop} (refl : ∀ s, T s s)
    (trans : ∀ {s s' s''}, T s s' → T s' s'' → T s s'')
    (chain : Chain R as s bs s') (each : ∀ a ∈ as, ∀ s b s', R a s b s' → T s s') :
    T s s' ∧ Chain (fun a r b r' => R a r b r' ∧ T s r ∧ T r' s') as s bs s' := by
  induction chain with
  | nil s => exact ⟨refl s, .nil s⟩
  | cons head _ ih =>
    obtain ⟨later, rest⟩ := ih (forall_mem_cons.mp each).2
    have first := each _ (by simp) _ _ _ head
    exact ⟨trans first later, .cons ⟨head, refl _, later⟩ (rest.imp fun _ _ _ _ _ step =>
      ⟨step.1, trans first step.2.1, step.2.2⟩)⟩

/-- What the steps of a chain do under a condition on states that they keep is what they do. -/
theorem along (chain : Chain R as s bs s')
    (each : ∀ a ∈ as, ∀ s b s', R a s b s' → I s → I s' ∧ S a s b s') (start : I s) :
    I s' ∧ Chain S as s bs s' := by
  obtain ⟨finish, steps⟩ := chain.between (T := fun s s' => I s → I s') (fun _ holds => holds)
    (fun first second holds => second (first holds))
    fun a member s b s' step holds => (each a member s b s' step holds).1
  exact ⟨finish start, steps.imp fun a member s b s' step =>
    (each a member s b s' step.1 (step.2.1 start)).2⟩

/-- A condition on states that every step keeps is kept, and is there at every step. -/
theorem keeps (chain : Chain R as s bs s')
    (each : ∀ a ∈ as, ∀ s b s', R a s b s' → I s → I s' ∧ P a b) (start : I s) :
    I s' ∧ List.Forall₂ P as bs :=
  (chain.along (S := fun a _ b _ => P a b) each start).imp_right fun kept =>
    kept.forall₂ fun _ _ _ _ holds => holds

/-- A chain that only looks at an image of its results. -/
theorem mapped {f : γ → β} {cs : List γ}
    (chain : Chain (fun a s c s' => R a s (f c) s') as s cs s') : Chain R as s (cs.map f) s' := by
  induction chain with
  | nil s => exact .nil s
  | cons head _ ih => exact .cons head ih

/-- A chain that only looks at an image of what it starts from. -/
theorem map_left {S : γ → σ → β → σ → Prop} {f : α → γ}
    (chain : Chain (fun a s b s' => S (f a) s b s') as s bs s') : Chain S (as.map f) s bs s' := by
  induction chain with
  | nil s => exact .nil s
  | cons head _ ih => exact .cons head ih

theorem append (first : Chain R as s bs s') (second : Chain R as' s' bs' s'') :
    Chain R (as ++ as') s (bs ++ bs') s'' := by
  induction first with
  | nil s => exact second
  | cons head _ ih => exact .cons head (ih second)

theorem split (chain : Chain R (as ++ as') s (bs ++ bs') s'') (same : bs.length = as.length) :
    ∃ s', Chain R as s bs s' ∧ Chain R as' s' bs' s'' := by
  induction as generalizing bs s with
  | nil =>
    obtain rfl := length_eq_zero_iff.mp same
    exact ⟨s, .nil s, chain⟩
  | cons a as ih =>
    cases bs with
    | nil => simp at same
    | cons b bs =>
      cases chain with
      | cons head tail =>
        obtain ⟨mid, first, second⟩ := ih tail (by simpa using same)
        exact ⟨mid, .cons head first, second⟩

theorem flatMap {δ : Type} {S : γ → σ → δ → σ → Prop} {f : α → List γ} {g : β → List δ}
    (chain : Chain (fun a s b s' => Chain S (f a) s (g b) s') as s bs s') :
    Chain S (as.flatMap f) s (bs.flatMap g) s' := by
  induction chain with
  | nil s => exact .nil s
  | cons head _ ih => exact head.append ih

/-- What the steps of a chain leave besides their results can be listed with the results. -/
theorem collect {T : α → σ → β → σ → γ → Prop}
    (chain : Chain (fun a s b s' => ∃ c, T a s b s' c) as s bs s') :
    ∃ rs : List (β × γ), rs.map Prod.fst = bs ∧
      Chain (fun a s r s' => T a s r.1 s' r.2) as s rs s' := by
  induction chain with
  | nil s => exact ⟨[], rfl, .nil s⟩
  | cons head _ ih =>
    obtain ⟨c, first⟩ := head
    obtain ⟨rs, results, rest⟩ := ih
    exact ⟨(_, c) :: rs, by rw [map_cons, results], .cons first rest⟩

end Chain

/-- A list of steps that reports nothing is a chain of steps that report nothing. -/
theorem Clean.mapM {size : σ → Nat} {f : α → StateM σ β} {R : α → σ → β → σ → Prop} {as : List α}
    (each : ∀ a ∈ as, Clean size (f a) (R a)) :
    Clean size (as.mapM f) (fun s bs s' => Chain R as s bs s') := by
  induction as with
  | nil =>
    rw [mapM_nil]
    exact .pure fun s => .nil s
  | cons a as ih =>
    rw [mapM_cons]
    refine .bind (each a (by simp)) (fun b => ?_)
      (T := fun b s' bs s'' => ∃ rest, bs = b :: rest ∧ Chain R as s' rest s'') ?_
    · refine .bind (ih (forall_mem_cons.mp each).2) (fun rest => .pure fun s => ⟨rfl, rfl⟩)
        (T := fun rest s bs s' => bs = b :: rest ∧ s = s') ?_
      rintro s rest s' _ _ chain ⟨rfl, rfl⟩
      exact ⟨rest, rfl, chain⟩
    · rintro s b s' _ s'' head ⟨rest, rfl, tail⟩
      exact .cons head tail

end TaskNet
