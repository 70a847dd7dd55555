import Mathlib.Data.List.Basic
import TaskNet.Tree.Pool

/-!
Induction over syntax trees, what it means for all nodes of a tree to satisfy a condition, and trees
compared without their identities. The traversals of lists of trees are rewritten into the usual
list operations here, so that later arguments are inductions over trees alone.
-/

namespace TaskNet.Tree

open List

variable {n : Node} {t u c : Tree} {P : Tree → Prop}

/-- A property that passes from the children of a node to the node holds of every tree. -/
@[induction_eliminator]
theorem induction {motive : Tree → Prop}
    (mk : ∀ n cs, (∀ c ∈ cs, motive c) → motive (mk n cs)) (t : Tree) : motive t := by
  refine @Tree.rec motive (fun cs => ∀ c ∈ cs, motive c) mk ?_ ?_ t
  · intro c member
    cases member
  · intro head tail headHolds tailHolds c member
    rcases mem_cons.mp member with rfl | later
    · exact headHolds
    · exact tailHolds c later

@[simp] theorem node_mk (n : Node) (cs : List Tree) : (mk n cs).node = n := rfl

@[simp] theorem children_mk (n : Node) (cs : List Tree) : (mk n cs).children = cs := rfl

@[simp] theorem content_mk (n : Node) (cs : List Tree) : (mk n cs).content = n.content := rfl

@[simp] theorem kind_mk (n : Node) (cs : List Tree) : (mk n cs).kind = n.content.kind := rfl

@[simp] theorem id_mk (n : Node) (cs : List Tree) : (mk n cs).id = n.id := rfl

@[simp] theorem loc_mk (n : Node) (cs : List Tree) : (mk n cs).loc = n.loc := rfl

theorem eta (t : Tree) : mk t.node t.children = t := by
  cases t
  rfl

theorem content_of_error (error : n.kind = .error) :
    ∃ was problem, n.content = .error was problem := by
  cases content : n.content <;> simp_all [Node.kind, Content.kind]

theorem kind_eq_op {o : Operator} : t.kind = .op o ↔ t.content = .op o := by
  cases t with
  | mk n cs => cases content : n.content <;> simp [content, Content.kind]

theorem mapNodesList_eq (f : Node → Node) (cs : List Tree) :
    mapNodesList f cs = cs.map (mapNodes f) := by
  induction cs with
  | nil => rfl
  | cons c cs ih => rw [mapNodesList, ih, map_cons]

theorem nodesList_eq (cs : List Tree) : nodesList cs = cs.flatMap nodes := by
  induction cs with
  | nil => rfl
  | cons c cs ih => rw [nodesList, ih, flatMap_cons]

theorem visitedList_eq (cs : List Tree) : visitedList cs = cs.flatMap visited := by
  induction cs with
  | nil => rfl
  | cons c cs ih => rw [visitedList, ih, flatMap_cons]

theorem mem_visited_self (t : Tree) : t ∈ t.visited := by
  cases t with
  | mk n cs => simp [visited]

theorem mem_visited_cases (member : u ∈ t.visited) : u = t ∨ ∃ c ∈ t.children, u ∈ c.visited := by
  cases t with
  | mk n cs =>
    rw [visited] at member
    refine (mem_cons.mp member).imp_right fun below => ?_
    split at below
    · cases below
    · rw [visitedList_eq] at below
      exact mem_flatMap.mp below

/-- Every subtree that a traversal visits satisfies a condition. -/
def Throughout (P : Tree → Prop) (t : Tree) : Prop :=
  ∀ s ∈ t.visited, P s

theorem throughout_mk {cs : List Tree} :
    Throughout P (mk n cs) ↔
      P (mk n cs) ∧ (n.kind ≠ .error → ∀ c ∈ cs, Throughout P c) := by
  rw [Throughout, visited]
  by_cases error : n.kind = .error
  · simp [error]
  · simp only [error, beq_iff_eq, if_false, visitedList_eq, forall_mem_cons,
      mem_flatMap, ne_eq, not_false_eq_true, true_implies]
    constructor
    · rintro ⟨here, below⟩
      exact ⟨here, fun c member s visited => below s ⟨c, member, visited⟩⟩
    · rintro ⟨here, below⟩
      exact ⟨here, fun s ⟨c, member, visited⟩ => below c member s visited⟩

theorem throughout_iff :
    Throughout P t ↔ P t ∧ (t.kind ≠ .error → ∀ c ∈ t.children, Throughout P c) := by
  cases t with
  | mk n cs => exact throughout_mk

theorem Throughout.here (holds : Throughout P t) : P t := by
  cases t with
  | mk n cs => exact (throughout_mk.mp holds).1

theorem Throughout.below (holds : Throughout P t) (sound : t.kind ≠ .error)
    (member : c ∈ t.children) : Throughout P c := by
  cases t with
  | mk n cs => exact (throughout_mk.mp holds).2 sound c member

theorem Throughout.of_children (here : P t) (below : ∀ c ∈ t.children, Throughout P c) :
    Throughout P t := by
  cases t with
  | mk n cs => exact throughout_mk.mpr ⟨here, fun _ => below⟩

theorem mem_visited_child (sound : t.kind ≠ .error) (member : c ∈ t.children)
    (visits : u ∈ c.visited) : u ∈ t.visited :=
  Throughout.below (P := fun s => s ∈ t.visited) (fun _ inside => inside) sound member u visits

theorem visited_trans {w : Tree} (outer : u ∈ t.visited) (inner : w ∈ u.visited) :
    w ∈ t.visited := by
  induction t with
  | mk n cs ih =>
    rw [visited] at outer ⊢
    rcases mem_cons.mp outer with rfl | below
    · rwa [visited] at inner
    · refine mem_cons_of_mem _ ?_
      split at below
      · cases below
      · next sound =>
        rw [if_neg sound, visitedList_eq] at *
        obtain ⟨c, member, visits⟩ := mem_flatMap.mp below
        exact mem_flatMap.mpr ⟨c, member, ih c member visits⟩

theorem Throughout.inside (holds : Throughout P t) (member : u ∈ t.visited) : Throughout P u :=
  fun w visits => holds w (visited_trans member visits)

section Mapped

variable {f : Node → Node} (kinds : ∀ n, (f n).kind = n.kind)

theorem mapNodes_mk (n : Node) (cs : List Tree) :
    mapNodes f (mk n cs) = mk (f n) (cs.map (mapNodes f)) := by
  rw [mapNodes, mapNodesList_eq]

theorem mapNodes_mapNodes (f g : Node → Node) (t : Tree) :
    (t.mapNodes g).mapNodes f = t.mapNodes fun n => f (g n) := by
  induction t with
  | mk n cs ih =>
    rw [mapNodes_mk, mapNodes_mk, mapNodes_mk, map_map]
    congr 1
    exact map_congr_left ih

@[simp] theorem mapNodes_node (t : Tree) : (t.mapNodes f).node = f t.node := by
  cases t
  rfl

theorem mapNodes_content (t : Tree) : (t.mapNodes f).content = (f t.node).content := by
  cases t
  rfl

@[simp] theorem mapNodes_children (t : Tree) :
    (t.mapNodes f).children = t.children.map (mapNodes f) := by
  cases t
  rw [mapNodes_mk]
  rfl

include kinds

theorem mapNodes_kind (t : Tree) : (t.mapNodes f).kind = t.kind := by
  cases t with
  | mk n cs => exact kinds n

/-- A traversal of a tree with other nodes of the same kinds meets the same places. -/
theorem visited_mapNodes (t : Tree) : (t.mapNodes f).visited = t.visited.map (mapNodes f) := by
  induction t with
  | mk n cs ih =>
    have children : (cs.map (mapNodes f)).flatMap visited =
        (cs.flatMap visited).map (mapNodes f) := by
      rw [flatMap_map, map_flatMap]
      exact flatMap_congr ih
    rw [mapNodes_mk, visited, visited, visitedList_eq, visitedList_eq, map_cons, mapNodes_mk,
      kinds, children]
    split <;> rfl

end Mapped

/-- A tree without the identities of its nodes. -/
def anonymous (t : Tree) : Tree :=
  t.mapNodes fun n => { n with id := 0 }

theorem anonymous_mk (n : Node) (cs : List Tree) :
    (mk n cs).anonymous = mk { n with id := 0 } (cs.map anonymous) := by
  simp only [anonymous, mapNodes, mapNodesList_eq]
  rfl

@[simp] theorem anonymous_content (t : Tree) : t.anonymous.content = t.content := by
  cases t
  rfl

@[simp] theorem anonymous_kind (t : Tree) : t.anonymous.kind = t.kind := by
  cases t
  rfl

@[simp] theorem anonymous_loc (t : Tree) : t.anonymous.loc = t.loc := by
  cases t
  rfl

@[simp] theorem anonymous_children (t : Tree) :
    t.anonymous.children = t.children.map anonymous := by
  cases t
  rw [anonymous_mk]
  rfl

@[simp] theorem anonymous_anonymous (t : Tree) : t.anonymous.anonymous = t.anonymous :=
  mapNodes_mapNodes _ _ t

theorem visited_anonymous (t : Tree) : t.anonymous.visited = t.visited.map anonymous :=
  visited_mapNodes (f := fun n => { n with id := 0 }) (fun _ => rfl) t

/-- A condition that does not look at identities may be checked without them. -/
theorem throughout_anonymous (blind : ∀ s, P s.anonymous ↔ P s) {t : Tree} :
    Throughout P t.anonymous ↔ Throughout P t := by
  simp only [Throughout, visited_anonymous, forall_mem_map, blind]

/-- Two trees that differ in the identities of their nodes only. -/
def Alike (t u : Tree) : Prop :=
  t.anonymous = u.anonymous

private theorem copyList_anonymous_of {ts : List Tree}
    (each : ∀ t ∈ ts, ∀ next, (copy next t).1.anonymous = t.anonymous) (next : NodeId) :
    (copyList next ts).1.map anonymous = ts.map anonymous := by
  induction ts generalizing next with
  | nil => rfl
  | cons t ts ih =>
    rw [copyList, map_cons, map_cons, each t (by simp),
      ih (forall_mem_cons.mp each).2]

/-- Copying gives new identities and changes nothing else. -/
theorem copy_anonymous (t : Tree) (next : NodeId) : (copy next t).1.anonymous = t.anonymous := by
  induction t generalizing next with
  | mk n cs ih => rw [copy, anonymous_mk, anonymous_mk, copyList_anonymous_of ih]

theorem copyList_anonymous (ts : List Tree) (next : NodeId) :
    (copyList next ts).1.map anonymous = ts.map anonymous :=
  copyList_anonymous_of (fun t _ => copy_anonymous t) next

end TaskNet.Tree
