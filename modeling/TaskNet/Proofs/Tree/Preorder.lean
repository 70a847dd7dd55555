import Mathlib.Data.List.Flatten
import TaskNet.Proofs.Tree.Surgery
import TaskNet.Proofs.Tree.Traversal

/-!
Walking through a tree along its links. A walk that goes from a node to the next one in pre-order
comes to an end, meets what the traversal of the tree visits in the same order, and stays below the
node that it started from. What comes after the whole subtree of a node is the next node of that
order which is not in the subtree.
-/

namespace TaskNet

open ChildLists List Surgery Tree

namespace Tree

def visitedIds (t : Tree) : List NodeId :=
  t.visited.map Tree.id

theorem visitedIds_mk (n : Node) (cs : List Tree) :
    (mk n cs).visitedIds = n.id :: if n.kind = .error then [] else cs.flatMap visitedIds := by
  rw [visitedIds, visited, visitedList_eq, map_cons, id_mk]
  by_cases error : n.kind = .error
  · simp [error]
  · simp only [error, beq_iff_eq, if_false, map_flatMap]
    rfl

/-- A recursive walk that enters every node visits what a traversal visits. -/
theorem walk_always (t : Tree) : t.walk (fun _ => true) = t.visited := by
  induction t with
  | mk n cs ih =>
    have below : walkList (fun _ => true) cs = cs.flatMap visited := by
      induction cs with
      | nil => rfl
      | cons c cs later =>
        rw [walkList, ih c (by simp), later (forall_mem_cons.mp ih).2, flatMap_cons]
    rw [walk, visited, below, visitedList_eq, Bool.not_true, Bool.or_false]

theorem visitedIds_sublist (t : Tree) : t.visitedIds.Sublist t.ids := by
  induction t with
  | mk n cs ih =>
    rw [visitedIds_mk, ids_mk]
    refine List.Sublist.cons_cons _ ?_
    split
    · exact nil_sublist _
    · exact List.Sublist.flatMap_right cs ih

end Tree

namespace Forest

variable {f : Forest} {kids : ChildLists} {x y c top : NodeId} {t : Tree} {next : Option NodeId}
  {rest : List NodeId}

/-- The nodes that a walk inside of a top meets from a node on, step by step until there is no next
one. -/
inductive Walks (f : Forest) (top : NodeId) : Option NodeId → List NodeId → Prop
  | ended : Walks f top none []
  | step {x : NodeId} {next : Option NodeId} {later : List NodeId} :
    exec (preorderNext (some top) (some x)) f = some (.ok next, f) → Walks f top next later →
    Walks f top (some x) (x :: later)

/-- A walk meets what is visited below a node before it goes on with what comes after the node. -/
theorem walks_visited (rep : Represents f kids) (shown : f.Shows kids x t)
    (follows : Follows kids top x next) (later : Walks f top next rest) :
    Walks f top (some x) (t.visitedIds ++ rest) := by
  induction t generalizing x next rest with
  | mk n cs ih =>
    obtain ⟨carried, below⟩ := shows_mk.1 shown
    have each : ∀ {a xs ds}, List.Forall₂ (f.Shows kids) xs ds → kids x = a ++ xs → ds ⊆ cs →
        Walks f top (xs.head?.or next) (ds.flatMap Tree.visitedIds ++ rest) := by
      intro a xs ds shows
      induction shows generalizing a with
      | nil => exact fun _ _ => later
      | @cons y d xs ds here _ step =>
        intro split inside
        rw [flatMap_cons, append_assoc]
        exact ih d (inside mem_cons_self) here (.child split follows)
          (step (a := a ++ [y]) (by simpa using split)
          fun _ member => inside (mem_cons_of_mem d member))
    rw [visitedIds_mk, node?_id carried, cons_append]
    refine .step (exec_preorderNext rep follows carried) ?_
    split
    · exact later
    · exact each below (nil_append _).symm (List.Subset.refl cs)

/-- A traversal visits the nodes below a node that no error node is above of. -/
theorem Shows.mem_visitedIds_iff (rep : Represents f kids) (shown : f.Shows kids x t) :
    y ∈ t.visitedIds ↔ f.Above x y ∧ ∀ e n, f.node? e = some n → n.kind = .error → f.Above x e →
      f.Above e y → e = y := by
  induction t generalizing x with
  | mk n cs ih =>
    obtain ⟨carried, below⟩ := shows_mk.1 shown
    rw [visitedIds_mk, node?_id carried, mem_cons]
    constructor
    · rintro (rfl | inside)
      · exact ⟨.refl, fun e _ _ _ lower higher => rep.above_antisymm higher lower⟩
      · split at inside
        · cases inside
        · next sound =>
          obtain ⟨d, member, inside⟩ := mem_flatMap.1 inside
          obtain ⟨z, child, shows⟩ := exists_of_forall₂ below member
          obtain ⟨path, clear⟩ := (ih d member shows).1 inside
          refine ⟨path.tail (rep.isChild_of_mem child), fun e m found error lower higher => ?_⟩
          -- An error on the way is the top of the tree or below the same child.
          rcases Represents.above_total path higher with under | reaches
          · exact clear e m found error under higher
          · rcases (rep.above_of_mem child).1 reaches with rfl | above
            · exact clear e m found error .refl higher
            · obtain rfl := rep.above_antisymm lower above
              exact absurd (Option.some.inj (carried.symm.trans found) ▸ error) sound
    · rintro ⟨path, clear⟩
      rcases Relation.ReflTransGen.cases_tail path with same | ⟨z, higher, child⟩
      · exact .inl same.symm
      · refine .inr ?_
        have sound : n.kind ≠ .error := fun error => by
          obtain rfl := clear x n carried error .refl path
          exact rep.not_above_of_isChild child higher
        obtain ⟨d, member, shows⟩ := exists_of_forall₂ below.flip (rep.isChild_iff.1 child)
        rw [if_neg sound]
        exact mem_flatMap.2 ⟨d, member, (ih d member shows).2 ⟨higher, fun e m found error lower =>
          clear e m found error (lower.tail child)⟩⟩

/-- In an order that lists the top of a tree before the trees below it, the nodes of a subtree stand
together, and they are followed by what comes after the subtree. -/
theorem Shows.splits (rep : Represents f kids) {order : Tree → List NodeId}
    (heads : ∀ t, (order t).head? = some t.id) (shown : f.Shows kids x t)
    (follows : Follows kids top x next) (path : f.Above x c)
    (opened : ∀ p n cs, f.node? p = some n → f.Above x p → f.Above p c → p ≠ c →
      order (.mk n cs) = n.id :: cs.flatMap order) :
    ∃ u front back, f.Shows kids c u ∧ order t = front ++ (order u ++ back) ∧
      Follows kids top c (back.head?.or next) := by
  induction t generalizing x next with
  | mk n cs ih =>
    obtain ⟨carried, below⟩ := shows_mk.1 shown
    rcases Relation.ReflTransGen.cases_tail path with rfl | ⟨z, higher, child⟩
    · exact ⟨_, [], [], shown, by simp, follows⟩
    have member := rep.isChild_iff.1 child
    have each : ∀ {a xs ds}, List.Forall₂ (f.Shows kids) xs ds →
      kids x = a ++ xs → ds ⊆ cs → z ∈ xs →
        ∃ u front back, f.Shows kids c u ∧ ds.flatMap order = front ++ (order u ++ back) ∧
          Follows kids top c (back.head?.or next) := by
      intro a xs ds shows
      induction shows generalizing a with
      | nil =>
        intro _ _ none
        cases none
      | @cons w d xs ds here later step =>
        intro split inside among
        by_cases same : w = z
        · subst same
          obtain ⟨u, front, back, shows, list, after⟩ := ih d (inside mem_cons_self) here
            (.child split follows) higher fun p m cs found lower =>
              opened p m cs found (lower.tail child)
          refine ⟨u, front, back ++ ds.flatMap order, shows, by simp [list], ?_⟩
          have first : (ds.flatMap order).head? = xs.head? := by
            cases later with
            | nil => rfl
            | cons shows _ => rw [flatMap_cons, head?_append, heads, shows.id_eq]; rfl
          rwa [head?_append, first, Option.or_assoc]
        · obtain ⟨u, front, back, shows, list, after⟩ := step (a := a ++ [w]) (by simpa using split)
            (fun _ member => inside (mem_cons_of_mem d member))
            ((mem_cons.1 among).resolve_left (Ne.symm same))
          exact ⟨u, order d ++ front, back, shows, by simp [list], after⟩
    obtain ⟨u, front, back, shows, list, after⟩ :=
      each below (nil_append _).symm (List.Subset.refl cs) member
    have strict : x ≠ c := by
      rintro rfl
      exact rep.not_above_of_isChild child higher
    rw [opened x n cs carried .refl path strict, list]
    exact ⟨u, n.id :: front, back, shows, rfl, after⟩

/-- Following the links agrees with the recursive walk. From any node on, the walk comes to an end
and meets each node below it that is below no error node of the subtree, once and in the same order.
What comes after the whole subtree of a node is the first node behind that subtree, among all nodes
and, after nodes that are visited, among the nodes that are visited. -/
theorem preorder_agrees (rep : Represents f kids) (inside : x < f.count) :
    ∃ t, exec (tree x) f = some (.ok t, f) ∧
      let visits := fun u : Tree => (u.walk fun _ => true).map Tree.id
      Walks f x (some x) (visits t) ∧ (visits t).Nodup ∧
      (∀ y, y ∈ visits t ↔ f.Above x y ∧
        ¬ ∃ e n, f.node? e = some n ∧ n.kind = .error ∧ f.Above x e ∧ f.Above e y ∧ e ≠ y) ∧
      (∀ c, f.Above x c → ∃ u front back, exec (tree c) f = some (.ok u, f) ∧
        t.ids = front ++ (u.ids ++ back) ∧
        exec (nextAfter (some x) (some c)) f = some (.ok back.head?, f)) ∧
      ∀ c ∈ visits t, ∃ u front back, exec (tree c) f = some (.ok u, f) ∧
        visits t = front ++ (visits u ++ back) ∧
        exec (nextAfter (some x) (some c)) f = some (.ok back.head?, f) := by
  obtain ⟨t, shown⟩ := rep.exists_tree inside
  have after : ∀ (order : Tree → List NodeId) {c}, (∀ t, (order t).head? = some t.id) →
    f.Above x c →
      (∀ p n cs, f.node? p = some n → f.Above x p → f.Above p c → p ≠ c →
        order (.mk n cs) = n.id :: cs.flatMap order) →
      ∃ u front back, exec (tree c) f = some (.ok u, f) ∧ order t = front ++ (order u ++ back) ∧
        exec (nextAfter (some x) (some c)) f = some (.ok back.head?, f) := by
    intro order c heads path opened
    obtain ⟨u, front, back, shows, list, follows⟩ := shown.splits rep heads .ended path opened
    rw [Option.or_none] at follows
    exact ⟨u, front, back, rep.exec_tree shows, list, exec_nextAfter rep follows shows.lt_count⟩
  refine ⟨t, rep.exec_tree shown, ?_⟩
  simp only [walk_always]
  have walks := walks_visited rep shown .ended .ended
  rw [append_nil] at walks
  refine ⟨walks, (shown.nodup rep).sublist t.visitedIds_sublist, fun y => ?_, fun c path => ?_,
    fun c visited => ?_⟩
  · rw [← Tree.visitedIds, shown.mem_visitedIds_iff rep]
    grind
  · exact after _ (by rintro ⟨n, cs⟩; rw [ids_mk]; rfl) path fun _ n cs _ _ _ _ => ids_mk n cs
  · obtain ⟨path, clear⟩ := (shown.mem_visitedIds_iff rep).1 visited
    refine after Tree.visitedIds (by rintro ⟨n, cs⟩; rw [visitedIds_mk]; rfl) path
      fun p n cs found lower higher strict => ?_
    rw [visitedIds_mk, if_neg fun error => strict (clear p n found error lower higher)]

/-- An error node that keeps a child, below a node with a parent and a sibling. -/
theorem preorder_agrees_error : ∃ f : Forest, f.Reachable ∧ 4 < f.count ∧ f.IsChild 1 2 ∧
    f.position 4 = (some 6, none, some 5) ∧ Walks f 4 (some 4) [4, 2, 3] := by
  have kept := Reachable.start.new (.use "a") [] (by simp) rfl
  have error := kept.new (.error .call .recursiveMacro) [1] (by decide) rfl
  have other := error.new (.use "b") [] (by simp) rfl
  have both := other.new (.op .and) [2, 3] (by decide) rfl
  have sibling := both.new (.use "c") [] (by simp) rfl
  have whole := sibling.new (.op .or) [4, 5] (by decide) rfl
  obtain ⟨kids, rep⟩ := whole.represents
  obtain ⟨t, read, walks, -⟩ := preorder_agrees (x := 4) rep (by decide)
  have visits : (t.walk fun _ => true).map Tree.id = [4, 2, 3] := by
    cases read
    rfl
  exact ⟨_, whole, by decide, rfl, rfl, visits ▸ walks⟩

end Forest

end TaskNet
