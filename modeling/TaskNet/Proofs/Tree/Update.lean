import TaskNet.Proofs.Lists
import TaskNet.Proofs.Session.Clean
import TaskNet.Proofs.Tree.Form
import TaskNet.Proofs.Tree.Identity

/-!
Passes that work on one case after the other. Such a pass changes the cases of the tasks of the
domain and nothing else, so what it does to a program follows from what it does to a case.
-/

namespace TaskNet.Tree

open List

variable {σ : Type} {Q : Tree → Tree → Tree → Prop} {T : σ → σ → Prop} {t : Tree}

/-- A step on the trees of a kind; the others stay. -/
def OnKind (k : Kind) (R : Tree → σ → Tree → σ → Prop) (c : Tree) (s : σ) (d : Tree) (s' : σ) :
    Prop :=
  if c.kind = k then R c s d s' else d = c ∧ s' = s

/-- Steps on the children of a kind, from left to right. -/
def UnderKind (k : Kind) (R : Tree → σ → Tree → σ → Prop) (t : Tree) (s : σ) (t' : Tree) (s' : σ) :
    Prop :=
  t'.node = t.node ∧ Chain (OnKind k R) t.children s t'.children s'

/-- A step on the first tree of a kind. -/
inductive OnFirst (k : Kind) (R : Tree → σ → Tree → σ → Prop) : List Tree → σ → List Tree → σ → Prop
  | absent {ts : List Tree} {s : σ} (none : ∀ t ∈ ts, t.kind ≠ k) : OnFirst k R ts s ts s
  | found (before : List Tree) {after : List Tree} {t t' : Tree} {s s' : σ}
      (first : ∀ b ∈ before, b.kind ≠ k) (kind : t.kind = k) (step : R t s t' s') :
      OnFirst k R (before ++ t :: after) s (before ++ t' :: after) s'

/-- Steps on the cases of all tasks of the domain. -/
def OnBranches (R : Tree → Tree → σ → Tree → σ → Prop) (root : Tree) (s : σ) (root' : Tree)
    (s' : σ) : Prop :=
  root'.node = root.node ∧ OnFirst .domain
    (UnderKind .task fun task => UnderKind .branch (R task) task) root.children s root'.children s'

section Runs

variable {size : σ → Nat} {k : Kind}
variable {f : Tree → StateM σ Tree} {R : Tree → σ → Tree → σ → Prop}

theorem mapKindM_clean (each : ∀ c ∈ t.children, c.kind = k → Clean size (f c) (R c)) :
    Clean size (t.mapKindM k f) (UnderKind k R t) := by
  have children : ∀ c ∈ t.children,
      Clean size (if c.kind == k then f c else pure c) (OnKind k R c) := by
    intro c member
    by_cases same : c.kind = k
    · rw [if_pos (by simpa using same)]
      exact (each c member same).imp fun s d s' step => by rwa [OnKind, if_pos same]
    · rw [if_neg (by simpa using same)]
      exact .pure fun s => by rw [OnKind, if_neg same]; exact ⟨rfl, rfl⟩
  refine .bind (.mapM children) (fun cs => .pure fun s => ⟨rfl, rfl⟩)
    (T := fun cs s t' s' => t' = t.withChildren cs ∧ s' = s) ?_
  rintro s cs s' _ _ chain ⟨rfl, rfl⟩
  exact ⟨rfl, chain⟩

theorem mapFirstM_clean {ts : List Tree}
    (each : ∀ t, ts.find? (fun c => c.kind == k) = some t → Clean size (f t) (R t)) :
    Clean size (mapFirstM k f ts) (OnFirst k R ts) := by
  induction ts with
  | nil =>
    rw [mapFirstM]
    exact .pure fun s => .absent (by simp)
  | cons t ts ih =>
    rw [mapFirstM]
    by_cases same : t.kind = k
    · rw [if_pos (by simpa using same)]
      refine .bind (each t (by simp [same])) (fun t' => .pure fun s => ⟨rfl, rfl⟩)
        (T := fun t' s ts' s' => ts' = t' :: ts ∧ s' = s) ?_
      rintro s t' s' _ _ step ⟨rfl, rfl⟩
      exact .found [] (by simp) same step
    · rw [if_neg (by simpa using same)]
      have later := ih fun c found => each c (by simpa [same] using found)
      refine .bind later (fun rest => .pure fun s => ⟨rfl, rfl⟩)
        (T := fun rest s ts' s' => ts' = t :: rest ∧ s' = s) ?_
      rintro s rest s' _ _ run ⟨rfl, rfl⟩
      cases run with
      | absent none => exact .absent (by simpa using ⟨same, none⟩)
      | found before first kind step =>
        exact .found (t :: before) (by simpa using ⟨same, first⟩) kind step

/-- A pass over all cases is steps on the cases, when each of them is a step that reports nothing.
-/
theorem mapBranchesM_clean (root : Tree) {f : Tree → Tree → StateM σ Tree}
    {R : Tree → Tree → σ → Tree → σ → Prop}
    (each : ∀ task branch, (task, branch) ∈ root.branches →
      Clean size (f task branch) (R task branch)) :
    Clean size (root.mapBranchesM f) (OnBranches R root) := by
  have domains : Clean size (mapFirstM .domain (fun domain =>
      domain.mapKindM .task fun task => task.mapKindM .branch (f task)) root.children)
      (OnFirst .domain (UnderKind .task fun task => UnderKind .branch (R task) task)
        root.children) := by
    refine mapFirstM_clean fun domain found => mapKindM_clean fun task inside isTask =>
      mapKindM_clean fun branch below isBranch => each task branch ?_
    exact mem_branches.mpr ⟨domain, found, mem_childrenOf.mpr ⟨inside, isTask⟩,
      mem_childrenOf.mpr ⟨below, isBranch⟩⟩
  refine .bind domains (fun cs => .pure fun s => ⟨rfl, rfl⟩)
    (T := fun cs s root' s' => root' = root.withChildren cs ∧ s' = s) ?_
  rintro s cs s' _ _ run ⟨rfl, rfl⟩
  exact ⟨rfl, run⟩

end Runs

/-- The children of a kind are changed and nothing else. -/
def UpdatesKind (k : Kind) (P : Tree → Tree → Prop) (t t' : Tree) : Prop :=
  t'.node = t.node ∧
    List.Forall₂ (fun c d => if c.kind = k then P c d else d = c) t.children t'.children

/-- The cases of the tasks of the domain are changed and nothing else. -/
def Updates (Q : Tree → Tree → Tree → Prop) (root root' : Tree) : Prop :=
  root'.node = root.node ∧ OnFirst (σ := Unit) .domain
    (fun domain _ domain' _ =>
      UpdatesKind .task (fun task => UpdatesKind .branch (Q task) task) domain domain')
    root.children () root'.children ()

/-- A relation between trees with states that composes like moves do. -/
structure Carries (M : List Tree → σ → List Tree → σ → Prop) : Prop where
  refl : ∀ ts s, M ts s ts s
  append : ∀ {as bs cs ds s s' s''}, M as s bs s' → M cs s' ds s'' → M (as ++ cs) s (bs ++ ds) s''
  under : ∀ {n cs ds s s'}, M cs s ds s' → M [mk n cs] s [mk n ds] s'

theorem MovesWith.carries {C : Prop} (pool : σ → Pool) :
    Carries fun ts s ts' s' => Moves C ts (pool s) ts' (pool s') where
  refl ts s := .refl ts (pool s)
  append first second := first.append second
  under moves := moves.under rfl (·)

theorem find?_skip {before after : List Tree} (first : ∀ b ∈ before, b.kind ≠ k)
    (kind : t.kind = k) :
    (before ++ t :: after).find? (fun c => c.kind == k) = some t := by
  have none : before.find? (fun c => c.kind == k) = none :=
    find?_eq_none.mpr fun b member => by simpa using first b member
  rw [find?_append, none]
  simp [kind]

section Consequences

variable {k : Kind} {I : σ → Prop}
variable {R S : Tree → σ → Tree → σ → Prop} {t t' root root' : Tree} {s s' : σ}

theorem UnderKind.imp (run : UnderKind k R t s t' s')
    (weaker : ∀ c ∈ t.children, c.kind = k → ∀ s d s', R c s d s' → S c s d s') :
    UnderKind k S t s t' s' := by
  refine ⟨run.1, run.2.imp fun c member s d s' step => ?_⟩
  rw [OnKind] at step ⊢
  split at step
  · next same =>
    rw [if_pos same]
    exact weaker c member same s d s' step
  · next other => rwa [if_neg other]

/-- Where every step goes up in an order, each one lies between the start and the end. -/
theorem UnderKind.between (refl : ∀ s, T s s)
    (trans : ∀ {s s' s''}, T s s' → T s' s'' → T s s'') (run : UnderKind k R t s t' s')
    (each : ∀ c ∈ t.children, c.kind = k → ∀ s d s', R c s d s' → T s s') :
    T s s' ∧ UnderKind k (fun c r d r' => R c r d r' ∧ T s r ∧ T r' s') t s t' s' := by
  obtain ⟨whole, steps⟩ := run.2.between refl trans fun c member s d s' step => by
    rw [OnKind] at step
    split at step
    · next same => exact each c member same s d s' step
    · exact step.2 ▸ refl s
  refine ⟨whole, run.1, steps.imp fun c _ s d s' step => ?_⟩
  rw [OnKind] at step ⊢
  split
  · next same =>
    rw [if_pos same] at step
    exact step
  · next other =>
    rw [if_neg other] at step
    exact step.1

theorem UnderKind.updates {P : Tree → Tree → Prop}
    (run : UnderKind k (fun c _ d _ => P c d) t s t' s') : UpdatesKind k P t t' := by
  refine ⟨run.1, run.2.forall₂ fun c s d s' step => ?_⟩
  rw [OnKind] at step
  split
  · next same => rwa [if_pos same] at step
  · next other =>
    rw [if_neg other] at step
    exact step.1

theorem OnBranches.imp {R S : Tree → Tree → σ → Tree → σ → Prop}
    (run : OnBranches R root s root' s')
    (weaker : ∀ task branch, (task, branch) ∈ root.branches → ∀ s b s', R task branch s b s' →
      S task branch s b s') : OnBranches S root s root' s' := by
  obtain ⟨node, first⟩ := run
  have inDomain : ∀ {d}, root.children.find? (fun c => c.kind == .domain) = some d →
      ∀ task ∈ d.children, task.kind = .task → ∀ branch ∈ task.children, branch.kind = .branch →
        (task, branch) ∈ root.branches := fun found task inside isTask branch below isBranch =>
    mem_branches.mpr ⟨_, found, mem_childrenOf.mpr ⟨inside, isTask⟩,
    mem_childrenOf.mpr ⟨below, isBranch⟩⟩
  refine ⟨node, ?_⟩
  generalize root.children = cs at first inDomain ⊢
  generalize root'.children = cs' at first ⊢
  cases first with
  | absent none => exact .absent none
  | found before first kind step =>
    exact .found before first kind (step.imp fun task inside isTask s task' s' under =>
      under.imp fun branch below isBranch => weaker task branch
        (inDomain (find?_skip first kind) task inside isTask branch below isBranch))

/-- Where every step on a case goes up in an order, each one lies between the start and the end. -/
theorem OnBranches.between {R : Tree → Tree → σ → Tree → σ → Prop}
    (refl : ∀ s, T s s) (trans : ∀ {s s' s''}, T s s' → T s' s'' → T s s'')
    (run : OnBranches R root s root' s')
    (each : ∀ task branch s b s', R task branch s b s' → T s s') :
    T s s' ∧ OnBranches (fun task branch r b r' => R task branch r b r' ∧ T s r ∧ T r' s')
      root s root' s' := by
  obtain ⟨node, first⟩ := run
  unfold OnBranches
  generalize root.children = cs at first ⊢
  generalize root'.children = cs' at first ⊢
  cases first with
  | absent none => exact ⟨refl s, node, .absent none⟩
  | found before first kind step =>
    have onTask : ∀ {task s task' s'}, UnderKind .branch (R task) task s task' s' →
        T s s' ∧ UnderKind .branch (fun c r d r' => R task c r d r' ∧ T s r ∧ T r' s')
        task s task' s' :=
      fun under => under.between refl trans fun branch _ _ => each _ branch
    obtain ⟨whole, tasks⟩ := step.between refl trans fun _ _ _ _ _ _ under => (onTask under).1
    refine ⟨whole, node, .found before first kind (tasks.imp fun task _ _ r task' r' under => ?_)⟩
    exact (onTask under.1).2.imp fun _ _ _ _ _ _ onCase =>
      ⟨onCase.1, trans under.2.1 onCase.2.1, trans onCase.2.2 under.2.2⟩

/-- What steps on the cases do under a condition on states that they keep is what they do. -/
theorem OnBranches.along {R S : Tree → Tree → σ → Tree → σ → Prop}
    (run : OnBranches R root s root' s')
    (each : ∀ task branch, (task, branch) ∈ root.branches → ∀ s b s', R task branch s b s' →
      I s → I s' ∧ S task branch s b s') (start : I s) : I s' ∧ OnBranches S root s root' s' := by
  have steps := run.imp (S := fun task branch s b s' => I s → I s' ∧ S task branch s b s') each
  obtain ⟨finish, steps⟩ := steps.between (T := fun s s' => I s → I s') (fun _ holds => holds)
    (fun first second holds => second (first holds)) fun _ _ _ _ _ step holds => (step holds).1
  exact ⟨finish start, steps.imp fun _ _ _ _ _ _ step => (step.1 (step.2.1 start)).2⟩

/-- What every step on a case keeps is kept, and what it does to a case is what happens to the cases
of the program. -/
theorem OnBranches.keeps {R : Tree → Tree → σ → Tree → σ → Prop}
    (run : OnBranches R root s root' s')
    (each : ∀ task branch, (task, branch) ∈ root.branches → ∀ s b s', R task branch s b s' →
      I s → I s' ∧ Q task branch b) (start : I s) : I s' ∧ Updates Q root root' := by
  obtain ⟨finish, node, first⟩ :=
    run.along (S := fun task branch _ b _ => Q task branch b) each start
  refine ⟨finish, node, ?_⟩
  generalize root.children = cs at first
  generalize root'.children = cs' at first
  cases first with
  | absent none => exact .absent none
  | found before first kind step =>
    refine .found before first kind (step.imp fun task _ _ s task' s' under => ?_).updates
    exact under.updates

/-- Steps on the children of a kind are a chain, if what they lead to is of that kind. -/
theorem UnderKind.chain (run : UnderKind k R t s t' s')
    (kinds : ∀ c s d s', R c s d s' → c.kind = k → d.kind = k) :
    Chain R (t.childrenOf k) s (t'.childrenOf k) s' := by
  obtain ⟨_, chain⟩ := run
  unfold childrenOf
  generalize t.children = cs at chain
  generalize t'.children = ds at chain
  induction chain with
  | nil s => exact .nil s
  | cons head _ ih =>
    rw [OnKind] at head
    split at head
    · next same =>
      rw [filter_cons_of_pos (by simpa using same),
        filter_cons_of_pos (by simpa using kinds _ _ _ _ head same)]
      exact .cons head ih
    · next other =>
      obtain ⟨rfl, rfl⟩ := head
      rw [filter_cons_of_neg (by simpa using other),
        filter_cons_of_neg (by simpa using other)]
      exact ih

/-- Steps on the cases of a program are a chain, if what they lead to are cases. -/
theorem OnBranches.chain {R : Tree → Tree → σ → Tree → σ → Prop}
    (run : OnBranches R root s root' s')
    (kinds : ∀ task b s b' s', R task b s b' s' → b.kind = .branch → b'.kind = .branch) :
    Chain (fun pair s b s' => R pair.1 pair.2 s b s') root.branches s
      (root'.branches.map Prod.snd) s' := by
  obtain ⟨_, first⟩ := run
  rw [branches, branches, findChild?, findChild?]
  generalize root.children = cs at first
  generalize root'.children = cs' at first
  cases first with
  | absent none =>
    rw [find?_eq_none.mpr fun c member => by simpa using none c member]
    exact .nil s
  | @found before after d d' _ _ first kind step =>
    rw [find?_skip first kind, find?_skip first ((congrArg Node.kind step.1).trans kind)]
    dsimp only
    simp only [map_flatMap, map_map, Function.comp_def, map_id']
    have tasks := step.chain fun task s task' s' under isTask =>
      (congrArg Node.kind under.1).trans isTask
    exact Chain.flatMap (tasks.imp fun task _ s task' s' under =>
      Chain.map_left (under.chain (kinds task)))

variable {M : List Tree → σ → List Tree → σ → Prop}

theorem Carries.chain (carries : Carries M) {cs ds : List Tree} {s s' : σ}
    (chain : Chain (fun c s d s' => M [c] s [d] s') cs s ds s') : M cs s ds s' := by
  induction chain with
  | nil s => exact carries.refl [] s
  | cons head _ ih => exact carries.append head ih

theorem UnderKind.carries (carries : Carries M) {t' : Tree} {s s' : σ}
    (run : UnderKind k (fun c s d s' => M [c] s [d] s') t s t' s') : M [t] s [t'] s' := by
  obtain ⟨node, chain⟩ := run
  rw [← t.eta, ← t'.eta, node]
  refine carries.under (carries.chain (chain.imp fun c _ s d s' step => ?_))
  rw [OnKind] at step
  split at step
  · exact step
  · obtain ⟨rfl, rfl⟩ := step
    exact carries.refl _ _

/-- Moves of the cases are a move of the program. -/
theorem OnBranches.carries (carries : Carries M) {R : Tree → Tree → σ → Tree → σ → Prop}
    {root root' : Tree} {s s' : σ} (run : OnBranches R root s root' s')
    (each : ∀ task branch s b s', R task branch s b s' → M [branch] s [b] s') :
    M [root] s [root'] s' := by
  obtain ⟨node, first⟩ := run
  rw [← root.eta, ← root'.eta, node]
  refine carries.under ?_
  generalize root.children = cs at first
  generalize root'.children = cs' at first
  cases first with
  | absent _ => exact carries.refl _ _
  | found before _ _ step =>
    have domain := (step.imp fun task _ _ s task' s' under =>
      (under.imp fun branch _ _ s b s' => each task branch s b s').carries carries).carries carries
    exact carries.append (carries.refl before _) (carries.append domain (carries.refl _ _))

end Consequences

section Updated

variable {Q : Tree → Tree → Tree → Prop} {root root' : Tree}
variable {t t' : Tree} {k : Kind} {P : Tree → Tree → Prop} {B B' : Tree → Prop}

theorem UpdatesKind.kind (updates : UpdatesKind k P t t') : t'.kind = t.kind :=
  congrArg Node.kind updates.1

/-- The domain before and after, if there is one. -/
theorem Updates.domain (updates : Updates Q root root') :
    (root.findChild? .domain = none ∧ root' = root) ∨
      ∃ d d', root.findChild? .domain = some d ∧ root'.findChild? .domain = some d' ∧
        UpdatesKind .task (fun task => UpdatesKind .branch (Q task) task) d d' := by
  obtain ⟨node, first⟩ := updates
  cases root with
  | mk n cs =>
    cases root' with
    | mk n' cs' =>
      rw [children_mk, children_mk] at first
      cases first with
      | absent none =>
        refine .inl ⟨find?_eq_none.mpr fun c member => by simpa using none c member, ?_⟩
        rw [show n' = n from node]
      | @found before after d d' _ _ first kind step =>
        exact .inr ⟨d, d', find?_skip first kind, find?_skip first (step.kind.trans kind), step⟩

/-- Blocks stay as they are. -/
theorem Updates.other (updates : Updates Q root root') (other : k ≠ .domain) :
    root'.findChild? k = root.findChild? k := by
  obtain ⟨node, first⟩ := updates
  cases root with
  | mk n cs =>
    cases root' with
    | mk n' cs' =>
      rw [children_mk, children_mk] at first
      rw [findChild?, findChild?, children_mk, children_mk]
      cases first with
      | absent none => rfl
      | found before first kind step =>
        have before' := step.kind.trans kind
        rw [find?_append, find?_append, find?_cons, find?_cons, kind, before',
          show (Kind.domain == k) = false from beq_false_of_ne (Ne.symm other)]

/-- The declarations at the top keep their kinds. -/
theorem Updates.kinds (updates : Updates Q root root') :
    root'.children.map Tree.kind = root.children.map Tree.kind := by
  obtain ⟨_, first⟩ := updates
  generalize root.children = cs at first
  generalize root'.children = cs' at first
  cases first with
  | absent _ => rfl
  | found before first kind step => simp [step.kind]

theorem UpdatesKind.isTask {task task' : Tree} (updates : UpdatesKind .branch (Q task) task task')
    (isTask : IsTask B task)
    (each : ∀ b b', b ∈ task.childrenOf .branch → Q task b b' → b'.kind = .branch ∧ B' b') :
    IsTask B' task' := by
  refine ⟨updates.kind.trans isTask.1, fun c' member => ?_⟩
  obtain ⟨c, inside, related⟩ := exists_of_forall₂ updates.2 member
  split at related
  · next kind => exact .inr (.inr (each c c' (mem_childrenOf.mpr ⟨inside, kind⟩) related))
  · next kind =>
    subst related
    rcases isTask.2 c' inside with param | template | ⟨branch, _⟩
    · exact .inl param
    · exact .inr (.inl template)
    · exact absurd branch kind

theorem Updates.isProgram (updates : Updates Q root root') (program : IsProgram B root)
    (each : ∀ task b b', (task, b) ∈ root.branches → Q task b b' → b'.kind = .branch ∧ B' b') :
    IsProgram B' root' := by
  have kind : root'.kind = .root := (congrArg Node.kind updates.1).trans program.kind
  refine ⟨kind, ?_, updates.kinds ▸ program.single, fun d' found => ?_⟩
  · obtain ⟨_, first⟩ := updates
    have blocks := program.blocks
    generalize root.children = cs at first blocks
    generalize root'.children = cs' at first
    cases first with
    | absent _ => exact blocks
    | found before first kind step =>
      intro c member
      simp only [mem_append, mem_cons] at member
      rcases member with inside | rfl | inside
      · exact blocks c (by simp [inside])
      · exact .inr (step.kind.trans kind)
      · exact blocks c (by simp [inside])
  · rcases updates.domain with ⟨none, rfl⟩ | ⟨d, e, before, after, step⟩
    · rw [none] at found
      cases found
    · obtain rfl := Option.some.inj (after.symm.trans found)
      obtain ⟨domainKind, items⟩ := program.domain d before
      refine ⟨step.kind.trans domainKind, fun c' member => ?_⟩
      obtain ⟨c, inside, related⟩ := exists_of_forall₂ step.2 member
      split at related
      · next isTask =>
        have task := (program.domain d before).task (mem_childrenOf.mpr ⟨inside, isTask⟩)
        refine .inr (related.isTask task fun b b' below holds => each c b b' ?_ holds)
        exact mem_branches.mpr ⟨d, before, mem_childrenOf.mpr ⟨inside, isTask⟩, below⟩
      · next other =>
        subst related
        rcases items c' inside with template | task
        · exact .inl template
        · exact absurd task.1 other

/-- Every case of the new program comes from a case of the old one, in the same task. -/
theorem Updates.branches (updates : Updates Q root root') {task' b' : Tree}
    (member : (task', b') ∈ root'.branches) :
    ∃ task b, (task, b) ∈ root.branches ∧
      Q task b b' ∧ UpdatesKind .branch (Q task) task task' := by
  obtain ⟨d', found, inside', below'⟩ := mem_branches.mp member
  rcases updates.domain with ⟨none, rfl⟩ | ⟨d, e, before, after, step⟩
  · rw [none] at found
    cases found
  · obtain rfl := Option.some.inj (after.symm.trans found)
    obtain ⟨member', kind'⟩ := mem_childrenOf.mp inside'
    obtain ⟨task, inside, related⟩ := exists_of_forall₂ step.2 member'
    split at related
    · next isTask =>
      obtain ⟨memberB', kindB'⟩ := mem_childrenOf.mp below'
      obtain ⟨b, below, relatedB⟩ := exists_of_forall₂ related.2 memberB'
      split at relatedB
      · next isBranch =>
        refine ⟨task, b, mem_branches.mpr ⟨d, before, mem_childrenOf.mpr ⟨inside, isTask⟩,
          mem_childrenOf.mpr ⟨below, isBranch⟩⟩, relatedB, related⟩
      · next other =>
        subst relatedB
        exact absurd kindB' other
    · next other =>
      subst related
      exact absurd kind' other

/-- A relation of trees that holds of the cases before and after, and is passed up by tasks, by the
domain and by the whole, holds of the program. -/
theorem Updates.lift (updates : Updates Q root root')
    (kinds : ∀ task b b', Q task b b' → b'.kind = .branch) (refl : ∀ t, P t t)
    (under : ∀ t t', t = root ∨ t.kind = .domain ∨ t.kind = .task → t'.node = t.node →
      List.Forall₂ P t.children t'.children → P t t')
    (cases : ∀ pair ∈ root.branches, ∀ pair' ∈ root'.branches, P pair.2 pair'.2) :
    P root root' := by
  obtain ⟨node, first⟩ := updates
  cases root with
  | mk n cs =>
    cases root' with
    | mk n' cs' =>
      rw [children_mk, children_mk] at first
      cases first with
      | absent _ =>
        rw [show n' = n from node]
        exact refl _
      | @found before after d d' _ _ first kind step =>
        refine under _ _ (.inl rfl) node (rel_append (forall₂_same.mpr fun t _ => refl t)
          (.cons ?_ (forall₂_same.mpr fun t _ => refl t)))
        obtain ⟨length, each⟩ := forall₂_iff_zip.mp step.2
        refine under d d' (.inr (.inl kind)) step.1
          (forall₂_iff_zip.mpr ⟨length, fun {task task'} zipped => ?_⟩)
        obtain ⟨member, member'⟩ := of_mem_zip zipped
        have related := each zipped
        split at related
        · next isTask =>
          obtain ⟨length, each⟩ := forall₂_iff_zip.mp related.2
          refine under task task' (.inr (.inr isTask)) related.1
            (forall₂_iff_zip.mpr ⟨length, fun {b b'} zipped => ?_⟩)
          obtain ⟨below, below'⟩ := of_mem_zip zipped
          have onCase := each zipped
          split at onCase
          · next isBranch =>
            exact cases (task, b) (mem_branches.mpr ⟨d, find?_skip first kind,
              mem_childrenOf.mpr ⟨member, isTask⟩, mem_childrenOf.mpr ⟨below, isBranch⟩⟩) (task',
              b') (mem_branches.mpr ⟨d', find?_skip first (step.kind.trans kind),
                mem_childrenOf.mpr ⟨member', related.kind.trans isTask⟩,
                mem_childrenOf.mpr ⟨below', kinds _ _ _ onCase⟩⟩)
          · rw [onCase]
            exact refl b
        · rw [related]
          exact refl task

/-- Every child of the kind becomes a child of the new tree. -/
theorem UpdatesKind.forward {c : Tree} (updates : UpdatesKind k P t t') (member : c ∈ t.children)
    (kind : c.kind = k) : ∃ c' ∈ t'.children, P c c' := by
  have related := updates.2
  generalize t.children = cs at related member
  generalize t'.children = ds at related
  induction related with
  | nil => cases member
  | cons head _ ih =>
    rcases mem_cons.mp member with rfl | later
    · rw [if_pos kind] at head
      exact ⟨_, mem_cons_self, head⟩
    · obtain ⟨c', inside, holds⟩ := ih later
      exact ⟨c', by simp [inside], holds⟩

/-- Children of another kind stay as they are. -/
theorem UpdatesKind.childrenOf {k' : Kind} (updates : UpdatesKind k P t t')
    (kinds : ∀ c d, P c d → d.kind = k) (other : k' ≠ k) : t'.childrenOf k' = t.childrenOf k' := by
  rw [Tree.childrenOf, Tree.childrenOf]
  have related := updates.2
  generalize t.children = cs at related
  generalize t'.children = ds at related
  induction related with
  | nil => rfl
  | cons head _ ih =>
    rw [filter_cons, filter_cons, ih]
    split at head
    · next same =>
      have apart : (k == k') = false := beq_false_of_ne (Ne.symm other)
      simp [kinds _ _ head, same, apart]
    · next different => rw [head]

end Updated

/-- The cases of a program come from the cases of another one, in the same task, and the entries of
their task lists from the entries there. -/
def EntriesFrom (R : Tree → Tree → Tree → Prop) (root root' : Tree) : Prop :=
  ∀ task' b', (task', b') ∈ root'.branches → ∃ task b, (task, b) ∈ root.branches ∧
    task'.id = task.id ∧ List.Forall₂ (R task) b.entries b'.entries

section Entries

variable {R S U : Tree → Tree → Tree → Prop} {root root' root'' : Tree}

theorem EntriesFrom.refl (each : ∀ task e, R task e e) (root : Tree) : EntriesFrom R root root :=
  fun task b member => ⟨task, b, member, rfl, forall₂_same.mpr fun e _ => each task e⟩

theorem Updates.entriesFrom (updates : Updates Q root root')
    (each : ∀ task b b', (task, b) ∈ root.branches → Q task b b' →
      List.Forall₂ (R task) b.entries b'.entries) : EntriesFrom R root root' := by
  intro task' b' member
  obtain ⟨task, b, before, changed, kept⟩ := updates.branches member
  exact ⟨task, b, before, congrArg Node.id kept.1, each task b b' before changed⟩

/-- What two passes do to entries, one after the other. -/
theorem EntriesFrom.trans (first : EntriesFrom R root root') (second : EntriesFrom S root' root'')
    (each : ∀ task task' e d c, task'.id = task.id → R task e d → S task' d c → U task e c) :
    EntriesFrom U root root'' := by
  intro task'' b'' member
  obtain ⟨task', b', between, same', changed'⟩ := second task'' b'' member
  obtain ⟨task, b, before, same, changed⟩ := first task' b' between
  refine ⟨task, b, before, same'.trans same, ?_⟩
  generalize b.entries = es at changed
  generalize b'.entries = ds at changed changed'
  generalize b''.entries = cs at changed'
  induction changed generalizing cs with
  | nil =>
    cases changed'
    exact .nil
  | cons head _ ih =>
    cases changed' with
    | cons head' tail' => exact .cons (each _ _ _ _ _ same head head') (ih _ tail')

end Entries

end TaskNet.Tree
