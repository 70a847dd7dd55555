import TaskNet.Proofs.Tree.Update

/-!
Conditions on the contents of all nodes of a tree, those below error nodes included. A pass over the
cases of a program keeps such a condition if the new cases satisfy it.
-/

namespace TaskNet.Tree

open List

variable {t c root : Tree}

/-- The content of every node of a tree satisfies a condition. -/
def EachContent (P : Content → Prop) (t : Tree) : Prop :=
  ∀ n ∈ t.nodes, P n.content

variable {P Q : Content → Prop}

theorem eachContent_mk {n : Node} {cs : List Tree} :
    EachContent P (mk n cs) ↔ P n.content ∧ ∀ c ∈ cs, c.EachContent P := by
  unfold EachContent
  rw [nodes_mk, forall_mem_cons, nodesList_eq]
  simp only [mem_flatMap, forall_exists_index, and_imp]
  exact and_congr_right fun _ =>
    ⟨fun each c member n inside => each n c member inside, fun each n c member inside =>
      each c member n inside⟩

theorem EachContent.here (each : t.EachContent P) : P t.content := by
  cases t with
  | mk n cs => exact (eachContent_mk.mp each).1

theorem EachContent.below (each : t.EachContent P) (member : c ∈ t.children) : c.EachContent P := by
  cases t with
  | mk n cs => exact (eachContent_mk.mp each).2 c member

/-- A condition on a tree, seen from its top and its children. -/
theorem EachContent.of_parts (here : P t.content) (below : ∀ c ∈ t.children, c.EachContent P) :
    t.EachContent P := by
  cases t with
  | mk n cs => exact eachContent_mk.mpr ⟨here, below⟩

theorem EachContent.imp (each : t.EachContent P) (weaker : ∀ c, P c → Q c) : t.EachContent Q :=
  fun n member => weaker _ (each n member)

theorem EachContent.of_visited {u : Tree} (each : t.EachContent P) (member : u ∈ t.visited) :
    u.EachContent P := by
  induction t with
  | mk n cs ih =>
    rcases mem_visited_cases member with rfl | ⟨c, below, visits⟩
    · exact each
    · exact ih c below (each.below below) visits

theorem EachContent.of_findChild? {k : Kind} (each : t.EachContent P)
    (found : t.findChild? k = some c) : c.EachContent P :=
  each.below (mem_of_findChild? found).1

theorem EachContent.branches (each : root.EachContent P) :
    ∀ pair ∈ root.branches, pair.2.EachContent P := by
  rintro ⟨task, branch⟩ member
  obtain ⟨d, found, inDomain, inTask⟩ := mem_branches.mp member
  exact ((each.of_findChild? found).below (mem_childrenOf.mp inDomain).1).below
    (mem_childrenOf.mp inTask).1

theorem eachContent_mapNodes {f : Node → Node} {g : Content → Content}
    (contents : ∀ n, (f n).content = g n.content) {t : Tree} :
    (t.mapNodes f).EachContent P ↔ t.EachContent fun c => P (g c) := by
  induction t with
  | mk n cs ih =>
    rw [mapNodes_mk, eachContent_mk, eachContent_mk, contents, forall_mem_map]
    exact and_congr_right fun _ => forall₂_congr ih

@[simp] theorem eachContent_anonymous : t.anonymous.EachContent P ↔ t.EachContent P :=
  eachContent_mapNodes fun _ => rfl

theorem eachContent_markError {problem : Problem} (errors : ∀ k p, P (.error k p))
    (each : t.EachContent P) : (t.markError problem).EachContent P := by
  cases t with
  | mk n cs => exact eachContent_mk.mpr ⟨errors _ _, (eachContent_mk.mp each).2⟩

theorem EachContent.visited_nodes (each : t.EachContent P) (sound : ∀ c, P c → c.kind ≠ .error) :
    t.visited.map node = t.nodes :=
  Tree.visited_nodes fun _ visits => sound _ (each _ (node_mem_nodes visits))

/-- Where the cases alone are changed, a condition is to be checked of the new cases. -/
theorem Updates.eachContent {R : Tree → Tree → Tree → Prop} {root' : Tree}
    (updates : Updates R root root') (kinds : ∀ task b b', R task b b' → b'.kind = .branch)
    (before : root.EachContent P) (cases : ∀ pair ∈ root'.branches, pair.2.EachContent P) :
    root'.EachContent P := by
  refine updates.lift (P := fun t t' => t.EachContent P → t'.EachContent P) kinds
    (fun _ each => each) (fun t t' _ node related each => .of_parts ?_ fun c' member' => ?_)
    (fun _ _ pair' member' _ => cases pair' member') before
  · rw [show t'.content = t.content from congrArg Node.content node]
    exact each.here
  · obtain ⟨c, member, step⟩ := exists_of_forall₂ related member'
    exact step (each.below member)

end TaskNet.Tree
