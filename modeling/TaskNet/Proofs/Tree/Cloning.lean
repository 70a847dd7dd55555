import Mathlib.Data.List.Perm.Subperm
import Mathlib.Order.RelClasses
import TaskNet.Proofs.Tree.Relinking

/-!
Reading and copying trees. In a forest that represents lists of children, following the links of a
node comes to an end with its children, and with the tree below it. A copy is made of new nodes
only, and it reads like the original with identities of its own.
-/

namespace TaskNet

open ChildLists Function List Surgery

namespace Tree

mutual

/-- The number of nodes from the top of a tree down to its deepest. -/
def height : Tree → Nat
  | mk _ ts => heights ts + 1

def heights : List Tree → Nat
  | [] => 0
  | t :: ts => max t.height (heights ts)

end

end Tree

namespace Forest

variable {f g h : Forest} {kids kids' kids'' : ChildLists} {x y c : NodeId} {t : Tree} {n : Node}

mutual

def Shows (f : Forest) (kids : ChildLists) (x : NodeId) : Tree → Prop
  | .mk n ts => f.node? x = some n ∧ f.ShowsEach kids (kids x) ts

def ShowsEach (f : Forest) (kids : ChildLists) : List NodeId → List Tree → Prop
  | [], [] => True
  | x :: xs, t :: ts => f.Shows kids x t ∧ f.ShowsEach kids xs ts
  | _, _ => False

end

/-- Nodes that were there carry what they carried and, all but one, have the children they had. -/
structure Keeps (y : NodeId) (f : Forest) (kids : ChildLists) (g : Forest) (kids' : ChildLists) :
    Prop where
  count : f.count ≤ g.count
  lists : ∀ z < f.count, z ≠ y → kids' z = kids z
  nodes : ∀ z < f.count, g.node? z = f.node? z

theorem Keeps.trans (first : Keeps y f kids g kids') (second : Keeps y g kids' h kids'') :
    Keeps y f kids h kids'' where
  count := Nat.le_trans first.count second.count
  lists z inside other :=
    (second.lists z (Nat.lt_of_lt_of_le inside first.count) other).trans
    (first.lists z inside other)
  nodes z inside :=
    (second.nodes z (Nat.lt_of_lt_of_le inside first.count)).trans (first.nodes z inside)

theorem lt_count_of_node? (carried : f.node? x = some n) : x < f.count := by
  by_contra outside
  rw [node?_eq, Array.getElem?_eq_none (Nat.not_lt.1 outside)] at carried
  cases carried

theorem Shows.lt_count (shown : f.Shows kids x t) : x < f.count := by
  cases t
  exact lt_count_of_node? shown.1

mutual

/-- A tree that does not hold the one node whose children change is still there. -/
theorem Shows.keep (rep : Represents f kids) (kept : Keeps y f kids g kids')
    (free : kids.Loose y) : (t : Tree) → {x : NodeId} → x ≠ y → f.Shows kids x t →
    g.Shows kids' x t
  | .mk n ts, x, other, shown => by
    have inside := shown.lt_count
    refine ⟨(kept.nodes x inside).trans shown.1, ?_⟩
    rw [kept.lists x inside other]
    exact ShowsEach.keep rep kept free ts (fun c member same => free x (same ▸ member)) shown.2

theorem ShowsEach.keep (rep : Represents f kids) (kept : Keeps y f kids g kids')
    (free : kids.Loose y) : (ts : List Tree) → {xs : List NodeId} → (∀ x ∈ xs, x ≠ y) →
    f.ShowsEach kids xs ts → g.ShowsEach kids' xs ts
  | [], [], _, _ => trivial
  | t :: ts, x :: _, others, shown =>
    ⟨Shows.keep rep kept free t (others x mem_cons_self) shown.1,
      ShowsEach.keep rep kept free ts (fun c member => others c (mem_cons_of_mem x member))
        shown.2⟩

end

theorem exec_cell (carried : f.node? x = some n) :
    ∃ c, exec (cell (some x)) f = some (.ok c, f) ∧
      c.node = n ∧ c.links.first = f.link .first x := by
  rw [node?_eq, Option.map_eq_some_iff] at carried
  obtain ⟨c, found, rfl⟩ := carried
  refine ⟨⟨_, c.data, c.links⟩, ?_, rfl, ?_⟩
  · unfold cell
    rw [exec_get, Option.bind_some, view?, found]
    rfl
  · unfold link
    rw [found]
    rfl

theorem contentAt_of_cell {c : View} (found : exec (cell (some x)) f = some (.ok c, f)) :
    f.contentAt c.data = c.node.content := by
  unfold cell at found
  rw [exec_get, Option.bind_some, view?] at found
  cases there : f.cells[x]? with
  | none =>
    rw [there] at found
    cases found
  | some d =>
    rw [there] at found
    cases found
    rfl

namespace Represents

/-- There are not more nodes in a list than in the forest. -/
theorem length_le_count {l : List NodeId} (nodup : l.Nodup) (inside : ∀ c ∈ l, c < f.count) :
    l.length ≤ f.count := by
  have within : l.Subperm (List.range f.count) :=
    nodup.subperm fun c member => mem_range.2 (inside c member)
  simpa using within.length_le

section Lists

variable (rep : Represents f kids)
include rep

theorem kids_eq_nil (outside : f.count ≤ x) : kids x = [] := by
  rw [eq_nil_iff_forall_not_mem]
  intro c member
  exact absurd (rep.bound member).1 (Nat.not_lt.2 outside)

theorem loose_of_count_le (outside : f.count ≤ x) : kids.Loose x :=
  fun _ member => absurd (rep.bound member).2 (Nat.not_lt.2 outside)

theorem not_above_of_loose (free : kids.Loose x) (other : y ≠ x) : ¬ f.Above y x :=
  not_above_of_parent (rep.parent_eq_none_iff.2 free) other

/-- More nodes, and other things that nodes carry, do not touch the lists. -/
theorem congr (links : ∀ s x, g.link s x = f.link s x) (count : f.count ≤ g.count) :
    Represents g kids := by
  have positions : g.position = f.position := by
    funext x
    simp only [position, links]
  have children : g.IsChild = f.IsChild := by
    funext c x
    rw [IsChild, IsChild, links]
  refine ⟨fun x => ?_, fun x => ?_, ?_, ?_, rep.nodup, fun member => ?_, ?_⟩
  · rw [links, rep.first]
  · rw [links, rep.last]
  · rw [positions]
    exact rep.linked
  · rw [positions]
    exact rep.loose
  · exact ⟨Nat.lt_of_lt_of_le (rep.bound member).1 count,
      Nat.lt_of_lt_of_le (rep.bound member).2 count⟩
  · rw [children]
    exact rep.acyclic

theorem grow : Represents f.grow kids :=
  rep.congr (link_grow f) (by simp)

theorem write (y : NodeId) (m : Node) : Represents (f.write y m) kids :=
  rep.congr (link_write f y m) (by simp)

theorem exec_siblingsWithin {l r : List NodeId} {n : Nat} (list : kids x = l ++ r)
    (enough : r.length ≤ n) : exec (siblingsWithin n r.head?) f = some (.ok r, f) := by
  induction r generalizing l n with
  | nil =>
    rw [head?_nil, siblingsWithin]
    rfl
  | cons c r ih =>
    obtain ⟨m, rfl⟩ := Nat.exists_eq_add_one_of_ne_zero (Nat.ne_zero_of_lt enough)
    have after : f.link .after c = r.head? := congrArg (fun q => q.2.2) (rep.linked list)
    rw [head?_cons, siblingsWithin, exec_link, after,
      exec_bind_ok (ih (l := l ++ [c]) (by simp [list]) (Nat.le_of_succ_le_succ enough))]
    rfl

theorem exec_siblings (x : NodeId) : exec (siblings (kids x).head?) f = some (.ok (kids x), f) := by
  unfold siblings
  rw [exec_get]
  exact rep.exec_siblingsWithin (l := []) rfl
    (length_le_count (rep.nodup x) fun c member => (rep.bound member).2)

theorem exec_children (x : NodeId) : exec (children x) f = some (.ok (kids x), f) := by
  unfold children
  rw [exec_link, rep.first]
  exact rep.exec_siblings x

/-- No child is above its parent. -/
theorem not_above_of_isChild (child : f.IsChild c x) : ¬ f.Above c x := by
  intro path
  have cycle : Relation.TransGen f.IsChild c c := Relation.TransGen.head' child path
  exact rep.acyclic.transGen.asymmetric _ _ cycle cycle

end Lists

mutual

/-- A tree and what is above it are not more nodes, from top to bottom, than there are. -/
theorem height_le (rep : Represents f kids) : (t : Tree) → {x : NodeId} → {path : List NodeId} →
    f.Shows kids x t → (x :: path).Nodup → (∀ y ∈ x :: path, y < f.count ∧ f.Above y x) →
    t.height + path.length ≤ f.count
  | .mk n ts, x, path, shown, nodup, line => by
    have room := length_le_count nodup fun y member => (line y member).1
    have below : Tree.heights ts + (x :: path).length ≤ f.count := by
      apply heights_le rep ts shown.2 room
      intro c member
      have child := rep.isChild_iff.2 member
      refine ⟨nodup_cons.2 ⟨fun again => ?_, nodup⟩, fun y inside => ?_⟩
      · exact rep.not_above_of_isChild child (line c again).2
      · rcases mem_cons.1 inside with rfl | higher
        · exact ⟨(rep.bound member).2, .refl⟩
        · exact ⟨(line y higher).1, (line y higher).2.head child⟩
    rw [length_cons] at below
    rw [Tree.height]
    omega

theorem heights_le (rep : Represents f kids) : (ts : List Tree) → {xs path : List NodeId} →
    f.ShowsEach kids xs ts → path.length ≤ f.count →
    (∀ x ∈ xs, (x :: path).Nodup ∧ ∀ y ∈ x :: path, y < f.count ∧ f.Above y x) →
    Tree.heights ts + path.length ≤ f.count
  | [], [], path, _, room, _ => by
    rw [Tree.heights]
    omega
  | t :: ts, x :: xs, path, shown, room, lines => by
    have first := height_le rep t shown.1 (lines x mem_cons_self).1 (lines x mem_cons_self).2
    have rest := heights_le rep ts shown.2 room fun y member => lines y (mem_cons_of_mem x member)
    rw [Tree.heights]
    omega

end

theorem height_le_count (rep : Represents f kids) (shown : f.Shows kids x t) :
    t.height ≤ f.count := by
  have alone : ∀ y ∈ [x], y < f.count ∧ f.Above y x := by
    intro y member
    rw [mem_singleton] at member
    subst member
    exact ⟨shown.lt_count, .refl⟩
  exact rep.height_le t shown (nodup_singleton x) alone

mutual

theorem exec_treeWithin (rep : Represents f kids) : (t : Tree) → {x : NodeId} → {n : Nat} →
    f.Shows kids x t → t.height ≤ n → exec (treeWithin n x) f = some (.ok t, f)
  | .mk m ts, x, 0, _, enough => by
    rw [Tree.height] at enough
    omega
  | .mk m ts, x, n + 1, shown, enough => by
    obtain ⟨c, found, rfl, first⟩ := exec_cell shown.1
    rw [rep.first] at first
    rw [treeWithin, exec_bind_ok found, first, exec_bind_ok (rep.exec_siblings x),
      exec_bind_ok (exec_treesWithin rep ts shown.2 (Nat.le_of_succ_le_succ enough))]
    rfl

theorem exec_treesWithin (rep : Represents f kids) : (ts : List Tree) → {xs : List NodeId} →
    {n : Nat} → f.ShowsEach kids xs ts → Tree.heights ts ≤ n →
    exec (xs.mapM (treeWithin n)) f = some (.ok ts, f)
  | [], [], _, _, _ => rfl
  | t :: ts, x :: xs, n, shown, enough => by
    rw [Tree.heights, Nat.max_le] at enough
    rw [mapM_cons, exec_bind_ok (exec_treeWithin rep t shown.1 enough.1),
      exec_bind_ok (exec_treesWithin rep ts shown.2 enough.2)]
    rfl

end

theorem exec_tree (rep : Represents f kids) (shown : f.Shows kids x t) :
    exec (tree x) f = some (.ok t, f) := by
  unfold tree
  rw [exec_get]
  exact rep.exec_treeWithin t shown (Nat.le_succ_of_le (rep.height_le_count shown))

/-- Every node has a tree below it. -/
theorem exists_tree (rep : Represents f kids) (inside : x < f.count) : ∃ t, f.Shows kids x t := by
  induction x using rep.acyclic.induction with
  | _ x ih =>
    obtain ⟨n, carried⟩ := node?_eq_some inside
    have each : ∀ xs, (∀ c ∈ xs, c ∈ kids x) → ∃ ts, f.ShowsEach kids xs ts := by
      intro xs members
      induction xs with
      | nil => exact ⟨[], trivial⟩
      | cons c xs below =>
        have member := members c mem_cons_self
        obtain ⟨t, shown⟩ := ih c (rep.isChild_iff.2 member) (rep.bound member).2
        obtain ⟨ts, rest⟩ := below fun d inside => members d (mem_cons_of_mem c inside)
        exact ⟨t :: ts, shown, rest⟩
    obtain ⟨ts, shown⟩ := each (kids x) fun _ member => member
    exact ⟨.mk n ts, carried, shown⟩

end Represents

/-- Nodes were made with payloads of their own, and those that were there have the payloads they
had. -/
structure Owns (f g : Forest) : Prop where
  payloads : f.payloads.size ≤ g.payloads.size
  kept : ∀ z < f.count, g.data? z = f.data? z
  new : ∀ z a, f.count ≤ z → g.data? z = some (.payload a) → f.payloads.size ≤ a
  apart : ∀ z w a, f.count ≤ z → f.count ≤ w → g.data? z = some (.payload a) →
    g.data? w = some (.payload a) → z = w

namespace Owns

theorem refl (f : Forest) : Owns f f where
  payloads := Nat.le_refl _
  kept _ _ := rfl
  new z a outside carried := by
    rw [data?, Array.getElem?_eq_none outside] at carried
    cases carried
  apart z w a outside _ carried := by
    rw [data?, Array.getElem?_eq_none outside] at carried
    cases carried

theorem trans (count : f.count ≤ g.count) (first : Owns f g) (second : Owns g h) : Owns f h where
  payloads := Nat.le_trans first.payloads second.payloads
  kept z lt := (second.kept z (Nat.lt_of_lt_of_le lt count)).trans (first.kept z lt)
  new z a old carried := by
    by_cases lt : z < g.count
    · exact first.new z a old (second.kept z lt ▸ carried)
    · exact Nat.le_trans first.payloads (second.new z a (Nat.not_lt.1 lt) carried)
  apart z w a oldZ oldW inZ inW := by
    -- a payload that was there before the second step is not among those it made
    have between : ∀ {v u}, v < g.count → ¬ u < g.count → h.data? v = some (.payload a) →
        h.data? u ≠ some (.payload a) := fun {v u} lt ge inV inU =>
      absurd (data?_lt (second.kept v lt ▸ inV))
      (Nat.not_lt.2 (second.new u a (Nat.not_lt.1 ge) inU))
    by_cases ltZ : z < g.count <;> by_cases ltW : w < g.count
    · exact first.apart z w a oldZ oldW (second.kept z ltZ ▸ inZ) (second.kept w ltW ▸ inW)
    · exact absurd inW (between ltZ ltW inZ)
    · exact absurd inZ (between ltW ltZ inW)
    · exact second.apart z w a (Nat.not_lt.1 ltZ) (Nat.not_lt.1 ltW) inZ inW

theorem relinked (owns : Owns f g) (relinked : Relinked g h) : Owns f h where
  payloads := relinked.payloads ▸ owns.payloads
  kept := relinked.data ▸ owns.kept
  new := relinked.data ▸ owns.new
  apart := relinked.data ▸ owns.apart

theorem made (f : Forest) (n : Node) : Owns f (f.grow.write f.count n) := by
  have only : ∀ z a, f.count ≤ z → (f.grow.write f.count n).data? z = some (.payload a) →
      z = f.count := by
    intro z a old carried
    by_contra other
    rw [data?_write_ne other, data?, getElem?_grow, if_neg other,
      Array.getElem?_eq_none old] at carried
    cases carried
  refine ⟨payloads_write_le f.grow f.count n, fun z lt => ?_, fun z a old carried => ?_,
    fun z w a oldZ oldW inZ inW => (only z a oldZ inZ).trans (only w a oldW inW).symm⟩
  · rw [data?_write_ne (Nat.ne_of_lt lt), data?_grow_of_lt lt]
  · rw [only z a old carried] at carried
    exact Nat.le_of_eq (data?_write carried).symm

end Owns

/-- Copies were made: all that was there is kept but the children of one node, and no node that was
there has become the child of another. -/
structure Copies (y : NodeId) (f : Forest) (kids : ChildLists) (g : Forest) (kids' : ChildLists) :
    Prop extends Keeps y f kids g kids' where
  owns : Owns f g
  represents : Represents g kids'
  parents : ∀ c < f.count, ∀ z, c ∈ kids' z → c ∈ kids z

theorem Copies.loose (copies : Copies y f kids g kids') (inside : c < f.count)
    (free : kids.Loose c) : kids'.Loose c :=
  fun z member => free z (copies.parents c inside z member)

theorem Copies.trans (first : Copies y f kids g kids') (second : Copies y g kids' h kids'') :
    Copies y f kids h kids'' where
  toKeeps := first.toKeeps.trans second.toKeeps
  owns := first.owns.trans first.count second.owns
  represents := second.represents
  parents c inside z member :=
    first.parents c inside z (second.parents c (Nat.lt_of_lt_of_le inside first.count) z member)

/-- A new node is appended to the one whose children may change. -/
theorem Copies.append (copies : Copies f.count f kids g kids') (inside : y < f.count)
    (free : kids.Loose y) (made : f.count < g.count) (fresh : kids'.Loose f.count) :
    ∃ h, exec (append (some y) (some f.count)) g = some (.ok (), h) ∧
      Copies y f kids h (update kids' y (kids' y ++ [f.count])) ∧
      Keeps y g kids' h (update kids' y (kids' y ++ [f.count])) ∧ h.count = g.count := by
  have other : f.count ≠ y := Nat.ne_of_gt inside
  obtain ⟨h, ran, rep, relinked⟩ := copies.represents.exec_append
    (Nat.lt_of_lt_of_le inside copies.count) made fresh
    (copies.represents.not_above_of_loose (copies.loose inside free) other)
  have kept : Keeps y g kids' h (update kids' y (kids' y ++ [f.count])) :=
    ⟨Nat.le_of_eq relinked.count.symm, fun z _ away => update_of_ne away _ _,
      fun z _ => congrFun relinked.nodes z⟩
  have before : Keeps y f kids g kids' :=
    ⟨copies.count, fun z lt _ => copies.lists z lt (Nat.ne_of_lt lt), copies.nodes⟩
  refine ⟨h, ran, ⟨before.trans kept, copies.owns.relinked relinked, rep, fun c old z member => ?_⟩,
    kept, relinked.count⟩
  apply copies.parents c old
  by_cases same : z = y
  · subst same
    rw [update_self, mem_append, mem_singleton] at member
    rcases member with here | new
    · exact here
    · exact absurd new (Nat.ne_of_lt old)
  · rwa [update_of_ne same] at member

mutual

theorem exec_cloneWithin : (t : Tree) → {f : Forest} → {kids : ChildLists} → {x : NodeId} →
    {k : Nat} → Represents f kids → f.Shows kids x t → t.height ≤ k →
    ∃ g kids', exec (cloneWithin k (some x)) f = some (.ok f.count, g) ∧
      Copies f.count f kids g kids' ∧ kids'.Loose f.count ∧
      g.Shows kids' f.count (t.copy f.count).1 ∧ g.count = (t.copy f.count).2
  | .mk n ts, f, kids, x, 0, rep, shown, enough => by
    rw [Tree.height] at enough
    omega
  | .mk n ts, f, kids, x, k + 1, rep, shown, enough => by
    have inside := shown.lt_count
    have free : kids.Loose f.count := rep.loose_of_count_le (Nat.le_refl _)
    -- The new node is there before its children are.
    let f₁ := f.grow.write f.count n
    have counted : f₁.count = f.count + 1 := by simp [f₁]
    have new : f.count < f₁.count := by simp [f₁]
    have rep₁ : Represents f₁ kids := rep.grow.write f.count n
    have kept₁ : Keeps f.count f kids f₁ kids :=
      ⟨by simp [f₁], fun _ _ _ => rfl, fun z old => node?_made_of_lt old n⟩
    have others : ∀ c ∈ kids x, c ≠ f.count := fun c member => Nat.ne_of_lt (rep.bound member).2
    obtain ⟨g, kids', ds, ran, copies, under, copied, count⟩ := exec_cloneEach ts rep₁
      (ShowsEach.keep rep kept₁ free ts others shown.2) (Nat.le_of_succ_le_succ enough) new free
      others
    rw [counted] at copied count
    have original : f.grow.node? x = some n := (node?_grow_of_lt inside).trans shown.1
    obtain ⟨c, found, node, first⟩ := exec_cell original
    refine ⟨g, kids', ?_, ⟨kept₁.trans copies.toKeeps,
      (Owns.made f n).trans kept₁.count copies.owns,
      copies.represents, fun c old z member => copies.parents c (Nat.lt_trans old new) z member⟩,
      copies.loose new free, ⟨?_, ?_⟩, count⟩
    · rw [cloneWithin, exec_alloc, exec_bind_ok found, exec_clonePayload (contentAt_of_cell found),
        node, first, link_grow, rep.first, exec_bind_ok (rep₁.exec_siblings x), exec_bind_ok ran]
      rfl
    · rw [copies.nodes f.count new]
      exact node?_made f n
    · rw [under, rep.kids_eq_nil (Nat.le_refl _)]
      exact copied

theorem exec_cloneEach : (ts : List Tree) → {f : Forest} → {kids : ChildLists} → {y : NodeId} →
    {xs : List NodeId} → {k : Nat} → Represents f kids → f.ShowsEach kids xs ts →
    Tree.heights ts ≤ k → y < f.count → kids.Loose y → (∀ x ∈ xs, x ≠ y) →
    ∃ g kids' ds, exec (xs.forM fun c => do
        let d ← cloneWithin k (some c)
        append (some y) (some d)) f = some (.ok (), g) ∧
      Copies y f kids g kids' ∧ kids' y = kids y ++ ds ∧
      g.ShowsEach kids' ds (Tree.copyList f.count ts).1 ∧ g.count = (Tree.copyList f.count ts).2
  | [], f, kids, y, [], k, rep, _, _, _, _, _ => by
    refine ⟨f, kids, [], rfl, ⟨⟨Nat.le_refl _, fun _ _ _ => rfl, fun _ _ => rfl⟩, .refl f, rep,
      fun _ _ _ member => member⟩, by simp, trivial, rfl⟩
  | t :: ts, f, kids, y, x :: xs, k, rep, shown, enough, inside, free, others => by
    rw [Tree.heights, Nat.max_le] at enough
    obtain ⟨f₁, kids₁, cloned, copies₁, fresh, copied, count₁⟩ :=
      exec_cloneWithin t rep shown.1 enough.1
    obtain ⟨f₂, appended, copies₂, kept₂, relinked⟩ :=
      copies₁.append inside free copied.lt_count fresh
    have rest : ∀ c ∈ xs, c ≠ y := fun c member => others c (mem_cons_of_mem x member)
    obtain ⟨g, kids', ds, ran, copies₃, under, copiedEach, count₃⟩ :=
      exec_cloneEach ts copies₂.represents
        (ShowsEach.keep rep copies₂.toKeeps free ts rest shown.2) enough.2
        (Nat.lt_of_lt_of_le inside copies₂.count) (copies₂.loose inside free) rest
    have counted : f₂.count = (t.copy f.count).2 := relinked.trans count₁
    rw [counted] at copiedEach count₃
    have step : exec (do
        let d ← cloneWithin k (some x)
        append (some y) (some d)) f = some (.ok (), f₂) :=
      (exec_bind_ok cloned _).trans appended
    refine ⟨g, kids', f.count :: ds, (exec_bind_ok step _).trans ran, copies₂.trans copies₃, ?_,
      ⟨?_, copiedEach⟩, count₃⟩
    · rw [under, update_self, append_assoc,
        copies₁.lists y inside (Nat.ne_of_lt inside)]
      rfl
    · exact Shows.keep copies₁.represents (kept₂.trans copies₃.toKeeps)
        (copies₁.loose inside free) _ (Nat.ne_of_gt inside) copied

end

theorem exec_clone (rep : Represents f kids) (shown : f.Shows kids x t) :
    ∃ g kids', exec (clone (some x)) f = some (.ok f.count, g) ∧ Copies f.count f kids g kids' ∧
      kids'.Loose f.count ∧ g.Shows kids' f.count (t.copy f.count).1 ∧
      g.count = (t.copy f.count).2 := by
  unfold clone
  rw [exec_get]
  exact exec_cloneWithin t rep shown (Nat.le_succ_of_le (rep.height_le_count shown))

end Forest

end TaskNet
