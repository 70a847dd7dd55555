import TaskNet.Proofs.Tree.Cloning
import TaskNet.Proofs.Tree.Relabel

/-!
Walks through a forest. The tree below a node consists of the nodes that the node is above of, each
once. After the whole subtree of a node comes its next sibling, or what comes after its parent;
nothing comes after the top of the walk. Following the links finds it.
-/

namespace TaskNet

open ChildLists List Relation Surgery

variable {n : Node}

namespace Tree

def ids (t : Tree) : List NodeId :=
  t.nodes.map Node.id

theorem ids_mk (n : Node) (cs : List Tree) : (mk n cs).ids = n.id :: cs.flatMap ids := by
  simp only [ids, nodes_mk, map_cons, nodesList_eq, map_flatMap]
  rfl

theorem id_mem_ids (t : Tree) : t.id ∈ t.ids := by
  cases t with
  | mk n cs =>
    rw [ids_mk]
    exact mem_cons_self

theorem sizeList_eq (ts : List Tree) : sizeList ts = (ts.map size).sum := by
  induction ts with
  | nil => rfl
  | cons t ts ih => rw [sizeList, ih, map_cons, sum_cons]

theorem length_ids (t : Tree) : t.ids.length = t.size := by
  induction t with
  | mk n cs ih =>
    rw [ids_mk, size, sizeList_eq, length_cons, length_flatMap, Nat.add_comm,
      map_congr_left ih]

end Tree

namespace Forest

variable {f g : Forest} {kids kids' : ChildLists} {x y z p : NodeId} {t : Tree} {ts : List Tree}
  {xs : List NodeId}

theorem showsEach_iff : f.ShowsEach kids xs ts ↔ List.Forall₂ (f.Shows kids) xs ts := by
  induction xs generalizing ts with
  | nil => cases ts <;> simp [ShowsEach]
  | cons x xs ih => cases ts <;> simp [ShowsEach, ih]

theorem shows_mk {cs : List Tree} : f.Shows kids x (.mk n cs) ↔
    f.node? x = some n ∧ List.Forall₂ (f.Shows kids) (kids x) cs := by
  rw [Shows, showsEach_iff]

theorem Shows.carried (shown : f.Shows kids x t) : f.node? x = some t.node := by
  cases t with
  | mk n cs => exact (shows_mk.1 shown).1

namespace Represents

theorem above_total {a b : NodeId} (first : f.Above a x) (second : f.Above b x) :
    f.Above a b ∨ f.Above b a := by
  have unique : Relator.RightUnique f.IsChild := fun _ _ _ one two =>
    Option.some.inj (Eq.trans (Eq.symm one) two)
  exact (ReflTransGen.total_of_right_unique unique first second).symm

variable (rep : Represents f kids)
include rep

theorem isChild_of_mem (member : x ∈ kids p) : f.IsChild x p :=
  rep.isChild_iff.2 member

/-- What is above a node is the node or above its parent. -/
theorem above_of_mem (member : x ∈ kids p) : f.Above z x ↔ z = x ∨ f.Above z p := by
  have child : f.link .parent x = some p := rep.isChild_of_mem member
  refine ⟨fun path => ?_, fun either => ?_⟩
  · rcases ReflTransGen.cases_head path with same | ⟨q, step, rest⟩
    · exact .inl same.symm
    · obtain rfl : p = q := Option.some.inj (child.symm.trans step)
      exact .inr rest
  · rcases either with rfl | rest
    · exact .refl
    · exact rest.head child

theorem above_antisymm (first : f.Above x y) (second : f.Above y x) : x = y := by
  rcases ReflTransGen.cases_head first with same | ⟨q, step, rest⟩
  · exact same.symm
  · exact absurd (ReflTransGen.trans rest second) (rep.not_above_of_isChild step)

/-- What is read from a forest is there. -/
theorem shows_of_exec_tree (read : exec (tree x) f = some (.ok t, f)) : f.Shows kids x t := by
  by_cases inside : x < f.count
  · obtain ⟨u, shown⟩ := rep.exists_tree inside
    cases (rep.exec_tree shown).symm.trans read
    exact shown
  · have missing : exec (cell (some x)) f = some (.error .missingNode, f) := by
      unfold cell
      rw [exec_get, Option.bind_some, view?, Array.getElem?_eq_none (Nat.not_lt.1 inside)]
      rfl
    unfold tree at read
    rw [exec_get, treeWithin, exec_bind_error missing] at read
    cases read

theorem apart_of_siblings {c d : NodeId} (one : c ∈ kids p) (two : d ∈ kids p) (different : c ≠ d)
    (path : f.Above c z) : ¬ f.Above d z := by
  intro other
  rcases above_total path other with above | above
  · rcases (rep.above_of_mem two).1 above with same | higher
    · exact different same
    · exact rep.not_above_of_isChild (rep.isChild_of_mem one) higher
  · rcases (rep.above_of_mem one).1 above with same | higher
    · exact different same.symm
    · exact rep.not_above_of_isChild (rep.isChild_of_mem two) higher

end Represents

/-- What comes after the whole subtree of a node in a walk below a top: nothing after the top
itself, and after a child its next sibling or else what comes after the parent. -/
inductive Follows (kids : ChildLists) (top : NodeId) : NodeId → Option NodeId → Prop
  | ended : Follows kids top top none
  | child {p x : NodeId} {a b : List NodeId} {later : Option NodeId} : kids p = a ++ x :: b →
    Follows kids top p later → Follows kids top x (b.head?.or later)

theorem Shows.id_eq (shown : f.Shows kids x t) : t.id = x := by
  cases t with
  | mk n cs => exact node?_id (shows_mk.1 shown).1

/-- A tree is still there when none of its nodes is changed or gets other children. -/
theorem Shows.congr (shown : f.Shows kids x t) (nodes : ∀ z ∈ t.ids, g.node? z = f.node? z)
    (lists : ∀ z ∈ t.ids, kids' z = kids z) : g.Shows kids' x t := by
  induction t generalizing x with
  | mk n cs ih =>
    obtain ⟨carried, below⟩ := shows_mk.1 shown
    have own : n.id = x := node?_id carried
    simp only [Tree.ids_mk, own, forall_mem_cons] at nodes lists
    rw [shows_mk, nodes.1, lists.1]
    refine ⟨carried, forall₂_imp_mem below.flip (fun c member y shows => ?_) |>.flip⟩
    exact ih c member shows (fun z inside => nodes.2 z (mem_flatMap.2 ⟨c, member, inside⟩))
      fun z inside => lists.2 z (mem_flatMap.2 ⟨c, member, inside⟩)

variable {top : NodeId} {next : Option NodeId} (rep : Represents f kids)
include rep

/-- The identities of a tree are those of the nodes below its top. -/
theorem Shows.mem_ids_iff (shown : f.Shows kids x t) : z ∈ t.ids ↔ f.Above x z := by
  induction t generalizing x with
  | mk n cs ih =>
    obtain ⟨carried, below⟩ := shows_mk.1 shown
    have own : n.id = x := node?_id carried
    rw [Tree.ids_mk, mem_cons, mem_flatMap, own]
    constructor
    · rintro (rfl | ⟨c, member, inside⟩)
      · exact .refl
      · obtain ⟨y, child, shows⟩ := exists_of_forall₂ below member
        exact ((ih c member shows).1 inside).tail (rep.isChild_of_mem child)
    · intro path
      rcases ReflTransGen.cases_tail path with same | ⟨y, higher, child⟩
      · exact .inl same.symm
      · obtain ⟨c, member, shows⟩ := exists_of_forall₂ below.flip (rep.isChild_iff.1 child)
        exact .inr ⟨c, member, (ih c member shows).2 higher⟩

/-- Trees below siblings share no node. -/
theorem pairwise_disjoint_ids (children : xs ⊆ kids p) (nodup : xs.Nodup)
    (shown : List.Forall₂ (f.Shows kids) xs ts) : ts.Pairwise fun a b => a.ids.Disjoint b.ids := by
  induction shown with
  | nil => exact .nil
  | @cons x t xs ts here rest ih =>
    obtain ⟨absent, distinct⟩ := nodup_cons.1 nodup
    refine .cons (fun u member z inT inU => ?_)
      (ih (fun _ later => children (mem_cons_of_mem x later)) distinct)
    obtain ⟨y, later, shows⟩ := exists_of_forall₂ rest member
    exact rep.apart_of_siblings (children mem_cons_self) (children (mem_cons_of_mem x later))
      (fun same => absent (same ▸ later)) ((here.mem_ids_iff rep).1 inT)
      ((shows.mem_ids_iff rep).1 inU)

/-- No node is in two places of a tree. -/
theorem Shows.nodup (shown : f.Shows kids x t) : t.ids.Nodup := by
  induction t generalizing x with
  | mk n cs ih =>
    obtain ⟨carried, below⟩ := shows_mk.1 shown
    have own : n.id = x := node?_id carried
    rw [Tree.ids_mk, nodup_cons, nodup_flatMap, own]
    refine ⟨fun inside => ?_, fun c member => ?_, ?_⟩
    · obtain ⟨c, member, again⟩ := mem_flatMap.1 inside
      obtain ⟨y, child, shows⟩ := exists_of_forall₂ below member
      exact rep.not_above_of_isChild (rep.isChild_of_mem child) ((shows.mem_ids_iff rep).1 again)
    · obtain ⟨y, child, shows⟩ := exists_of_forall₂ below member
      exact ih c member shows
    · exact pairwise_disjoint_ids rep (List.Subset.refl _) (rep.nodup x) below

theorem Shows.lt_count_of_mem (shown : f.Shows kids x t) (inside : z ∈ t.ids) : z < f.count := by
  have path := (shown.mem_ids_iff rep).1 inside
  rcases ReflTransGen.cases_head path with rfl | ⟨q, child, -⟩
  · exact shown.lt_count
  · exact (rep.bound (rep.isChild_iff.1 child)).2

/-- A tree has not more nodes than there are. -/
theorem Shows.size_le_count (shown : f.Shows kids x t) : t.size ≤ f.count := by
  rw [← Tree.length_ids]
  exact Represents.length_le_count (shown.nodup rep) fun _ => shown.lt_count_of_mem rep

namespace Follows

/-- A walk stays below its top. -/
theorem above (follows : Follows kids top x next) : f.Above top x := by
  induction follows with
  | ended => exact .refl
  | child list _ ih => exact (rep.above_of_mem (by simp [list])).2 (.inr ih)

/-- Below a node of a walk there is not its top. -/
theorem ne_top (follows : Follows kids top p next) (member : x ∈ kids p) : x ≠ top := by
  rintro rfl
  exact rep.not_above_of_isChild (rep.isChild_of_mem member) (follows.above rep)

/-- What comes after a node depends on the children of the nodes above it only. -/
theorem keep (follows : Follows kids top x next)
    (lists : ∀ z, f.Above z x → z ≠ x → kids' z = kids z) : Follows kids' top x next := by
  induction follows with
  | ended => exact .ended
  | @child p x a b later list _ ih =>
    have member : x ∈ kids p := by simp [list]
    have child := rep.isChild_of_mem member
    have higher : ∀ z, f.Above z p → z ≠ x := by
      rintro z path rfl
      exact rep.not_above_of_isChild child path
    refine .child ((lists p (.single child) (higher p .refl)).trans list) (ih fun z path _ => ?_)
    exact lists z (path.head child) (higher z path)

end Follows

/-- Going up from a node takes less steps than there are nodes. -/
theorem exec_nextAfterWithin (follows : Follows kids top x next) {path : List NodeId} {n : Nat}
    (line : ∀ y ∈ x :: path, y < f.count ∧ f.Above x y) (nodup : (x :: path).Nodup)
    (enough : f.count < n + path.length) :
    exec (nextAfterWithin n (some top) (some x)) f = some (.ok next, f) := by
  have room := Represents.length_le_count nodup fun y member => (line y member).1
  obtain ⟨m, rfl⟩ : ∃ m, n = m + 1 := ⟨n - 1, by rw [length_cons] at room; omega⟩
  induction follows generalizing path m with
  | ended =>
    rw [nextAfterWithin, if_pos rfl]
    rfl
  | @child p x a b later list rest ih =>
    have member : x ∈ kids p := by simp [list]
    have child := rep.isChild_of_mem member
    have here := rep.linked list
    simp only [position, Prod.mk.injEq] at here
    rw [nextAfterWithin, if_neg (by simpa using rest.ne_top rep member), exec_link, here.2.2]
    cases b with
    | cons s b => rfl
    | nil =>
      have fresh : p ∉ x :: path := fun again =>
        rep.not_above_of_isChild child ((line p again).2)
      have nodup' : (p :: x :: path).Nodup := nodup_cons.2 ⟨fresh, nodup⟩
      have line' : ∀ y ∈ p :: x :: path, y < f.count ∧ f.Above p y := by
        intro y inside
        rcases mem_cons.1 inside with rfl | lower
        · exact ⟨(rep.bound member).1, .refl⟩
        · exact ⟨(line y lower).1, (line y lower).2.tail child⟩
      have room' := Represents.length_le_count nodup' fun y inside => (line' y inside).1
      simp only [length_cons] at room' enough
      obtain ⟨k, rfl⟩ : ∃ k, m = k + 1 := ⟨m - 1, by omega⟩
      simp only [head?_nil, exec_link, here.1]
      exact ih line' nodup' room' k (by simp only [length_cons]; omega)

theorem exec_nextAfter (follows : Follows kids top x next) (inside : x < f.count) :
    exec (nextAfter (some top) (some x)) f = some (.ok next, f) := by
  have line : ∀ y ∈ [x], y < f.count ∧ f.Above x y := by
    intro y member
    rw [mem_singleton.1 member]
    exact ⟨inside, .refl⟩
  unfold nextAfter
  rw [exec_get]
  exact exec_nextAfterWithin rep follows line (nodup_singleton x) (Nat.lt_succ_self _)

/-- The walk goes on with the first child of a node, or with what comes after the node. It does not
enter errors. -/
theorem exec_preorderNext (follows : Follows kids top x next) (carried : f.node? x = some n) :
    exec (preorderNext (some top) (some x)) f =
      some (.ok (if n.kind = .error then next else (kids x).head?.or next), f) := by
  have after := exec_nextAfter rep follows (lt_count_of_node? carried)
  obtain ⟨c, found, rfl, first⟩ := exec_cell carried
  unfold preorderNext
  rw [exec_bind_ok found, first, rep.first]
  cases (kids x).head? with
  | none =>
    dsimp only
    rw [after]
    simp
  | some y =>
    dsimp only
    split
    · exact after
    · rfl

end Forest

end TaskNet
