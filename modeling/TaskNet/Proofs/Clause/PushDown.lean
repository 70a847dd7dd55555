import TaskNet.Clause.InPlace
import TaskNet.Proofs.Tree.Rewriting
import TaskNet.Proofs.Tree.Surgery

/-!
Negation normal form in place. The walk through linked nodes makes of a tree what the recursive pass
makes of it, with the same identities, and leaves alone what stands around the tree.
-/

namespace TaskNet

open ChildLists Function List Surgery Tree

variable {steps : Tree → Nat} {bound : Nat}

namespace Tree

theorem mem_ids_negations {ds : List Tree} {x z : NodeId}
    (inside : z ∈ (negations x ds).flatMap ids) : x ≤ z ∨ z ∈ ds.flatMap ids := by
  induction ds generalizing x with
  | nil => cases inside
  | cons d ds ih =>
    simp only [negations, operator, flatMap_cons, ids_mk, flatMap_nil, append_nil,
      mem_append, mem_cons] at inside ⊢
    rcases inside with (rfl | below) | later
    · exact .inl (Nat.le_refl _)
    · exact .inr (.inl below)
    · exact (ih later).imp Nat.le_of_succ_le .inr

theorem size_pos (t : Tree) : 0 < t.size := by
  cases t with
  | mk n cs =>
    rw [size]
    omega

theorem sum_le_sizes (ts : List Tree) :
    (ts.map fun t => 2 * t.size - 1).sum ≤ 2 * (ts.map size).sum := by
  induction ts with
  | nil => rfl
  | cons t ts ih =>
    rw [map_cons, map_cons, sum_cons, sum_cons]
    omega

theorem sum_negations (x : NodeId) (ds : List Tree) :
    ((negations x ds).map fun t => 2 * t.size - 2).sum = 2 * (ds.map size).sum := by
  induction ds generalizing x with
  | nil => rfl
  | cons d ds ih =>
    rw [negations, map_cons, map_cons, sum_cons, sum_cons, ih, operator, size,
      sizeList, sizeList]
    omega

end Tree

namespace Forest

open Tree (negations Settled dual operator pushNegations pushNegationsList IsNegationNormal
  NegationsUnary)

variable {f g h : Forest} {kids kids' kids'' : ChildLists} {x y z w top : NodeId} {n m : Node}
  {t u e : Tree} {cs ds : List Tree} {next : Option NodeId} {p q : Pool}

theorem exec_createOperator (o : Operator) (loc : Location) (f : Forest) :
    exec (createOperator o loc) f =
      some (.ok f.count, f.grow.write f.count ⟨0, .any, loc, .op o⟩) :=
  rfl

/-- A child of one node goes under a new negation, and that to another node. -/
theorem exec_appendNegated (rep : Represents f kids) {rest : List NodeId}
    (list : kids y = x :: rest) (present : z < f.count) (free : kids.Loose z) (other : z ≠ y)
    (carried : f.node? x = some n) :
    ∃ g, exec (appendNegated z x) f = some (.ok (), g) ∧ g.count = f.count + 1 ∧
      (∀ q < f.count, g.node? q = f.node? q) ∧
      g.node? f.count = some ⟨f.count, .any, n.loc, .op .not⟩ ∧
      Represents g (update (update (update kids y rest) f.count [x]) z
        (kids z ++ [f.count])) := by
  have member : x ∈ kids y := by simp [list]
  have inside := lt_count_of_node? carried
  have above := (rep.bound member).1
  obtain ⟨f₁, detached, rep₁, relinked₁⟩ := rep.exec_detach member
  rw [rep.erase_eq_update (a := []) list, nil_append] at rep₁
  obtain ⟨c, found, node, -⟩ := exec_cell ((congrFun relinked₁.nodes x).trans carried)
  have count₁ : f₁.count = f.count := relinked₁.count
  have distinct := rep.nodup y
  rw [list, nodup_cons] at distinct
  have free₁ : ∀ w, kids.Loose w → Loose (update kids y rest) w := fun w loose =>
    .update (fun again => loose y (by simp [list, again])) fun q _ => loose q
  -- the new negation stands alone at first
  have new₂ := free₁ f.count (rep.loose_of_count_le (Nat.le_refl _))
  let f₂ := f₁.grow.write f.count ⟨0, .any, n.loc, .op .not⟩
  have rep₂ : Represents f₂ (update kids y rest) := rep₁.grow.write _ _
  have count₂ : f₂.count = f.count + 1 := by simp [f₂, count₁]
  obtain ⟨f₃, appended, rep₃, relinked₃⟩ := rep₂.exec_append (p := f.count) (c := x)
    (by rw [count₂]; exact Nat.lt_succ_self _) (by rw [count₂]; exact Nat.lt_succ_of_lt inside)
    (.update distinct.1 fun q away again => away (rep.parent_unique again member))
    (rep₂.not_above_of_loose new₂ (Nat.ne_of_lt inside))
  rw [update_of_ne (Nat.ne_of_gt above), rep.kids_eq_nil (Nat.le_refl _), nil_append] at rep₃
  have count₃ : f₃.count = f.count + 1 := relinked₃.count.trans count₂
  have free₃ : ∀ w, w ≠ x → Loose (update kids y rest) w →
      Loose (update (update kids y rest) f.count [x]) w := fun w away loose =>
    .update (fun again => away (mem_singleton.1 again)) fun q _ => loose q
  obtain ⟨g, ran, result, relinked₄⟩ := rep₃.exec_append (p := z) (c := f.count)
    (by rw [count₃]; exact Nat.lt_succ_of_lt present) (by rw [count₃]; exact Nat.lt_succ_self _)
    (free₃ f.count (Nat.ne_of_gt inside) new₂)
    (rep₃.not_above_of_loose (free₃ z (fun same => free y (same ▸ member)) (free₁ z free))
      (Nat.ne_of_gt present))
  rw [update_of_ne (Nat.ne_of_lt present) _ (update kids y rest),
    update_of_ne other] at result
  have nodes : g.node? = f₂.node? := relinked₄.nodes.trans relinked₃.nodes
  refine ⟨g, ?_, relinked₄.count.trans count₃, fun q old => ?_, ?_, result⟩
  · unfold appendNegated
    rw [exec_bind_ok detached, exec_bind_ok found, node, exec_bind_ok (exec_createOperator _ _ _),
      count₁, exec_bind_ok appended]
    exact ran
  · rw [nodes]
    simp only [f₂]
    rw [← count₁, node?_made_of_lt (count₁ ▸ old)]
    exact congrFun relinked₁.nodes q
  · rw [nodes]
    simp only [f₂]
    rw [← count₁]
    exact node?_made f₁ _

/-- The children of one node go, each under a new negation, to another node. -/
theorem exec_appendNegated_each {xs : List NodeId} (rep : Represents f kids) (list : kids y = xs)
    (shown : List.Forall₂ (f.Shows kids) xs ds) (present : z < f.count) (free : kids.Loose z)
    (other : z ≠ y) :
    ∃ g kids', exec (xs.forM (appendNegated z)) f = some (.ok (), g) ∧ Represents g kids' ∧
      g.count = f.count + xs.length ∧ (∀ q < f.count, g.node? q = f.node? q) ∧
      (∃ ns, kids' z = kids z ++ ns ∧ List.Forall₂ (g.Shows kids') ns (negations f.count ds)) ∧
      (∀ q < f.count, q ≠ y → q ≠ z → kids' q = kids q) ∧
      ∀ c < f.count, c ∉ xs → ∀ q, c ∈ kids' q → c ∈ kids q := by
  induction ds generalizing f kids xs with
  | nil =>
    cases shown
    exact ⟨f, kids, rfl, rep, rfl, fun _ _ => rfl, ⟨[], by simp, .nil⟩, fun _ _ _ _ => rfl,
      fun _ _ _ _ member => member⟩
  | cons d ds ih =>
    obtain ⟨x, xs, here, rest, rfl⟩ := forall₂_cons_right_iff.1 shown
    obtain ⟨f₁, first, count₁, nodes₁, new, rep₁⟩ :=
      exec_appendNegated rep list present free other here.carried
    let lists := update (update (update kids y xs) f.count [x]) z
      (kids z ++ [f.count])
    have old : y < f.count := (rep.bound (c := x) (by simp [list])).1
    have later : f.count < f₁.count := count₁ ▸ Nat.lt_succ_self _
    have elsewhere : ∀ q < f.count, q ≠ y → q ≠ z → lists q = kids q := by
      intro q lt one two
      simp [lists, one, two, Nat.ne_of_lt lt]
    -- what is below the children of the one node is not touched
    have away : ∀ c ∈ x :: xs, ∀ v, f.Shows kids c v → ∀ q ∈ v.ids,
        q < f.count ∧ q ≠ y ∧ q ≠ z := by
      intro c member v shows q inside
      have child : c ∈ kids y := list ▸ member
      have above := (shows.mem_ids_iff rep).1 inside
      refine ⟨shows.lt_count_of_mem rep inside, fun same => ?_, fun same => ?_⟩
      · exact rep.not_above_of_isChild (rep.isChild_of_mem child) (same ▸ above)
      · exact rep.not_above_of_loose free (fun equal => free y (equal ▸ child)) (same ▸ above)
    have others : List.Forall₂ (f₁.Shows lists) xs ds := by
      refine forall₂_imp_mem rest fun c member v shows => ?_
      have apart := away c (mem_cons_of_mem x member) v shows
      exact shows.congr (fun q inside => nodes₁ q (apart q inside).1) fun q inside =>
        elsewhere q (apart q inside).1 (apart q inside).2.1 (apart q inside).2.2
    have moved : ∀ c q, c ∈ lists q → c = f.count ∨ c = x ∨ c ∈ kids q := by
      intro c q member
      simp only [lists, update_apply] at member
      split at member
      · next same =>
        simp only [mem_append, mem_singleton] at member
        rcases member with before | new
        · exact .inr (.inr (same ▸ before))
        · exact .inl new
      · split at member
        · exact .inr (.inl (mem_singleton.1 member))
        · split at member
          · next same => exact .inr (.inr (by simp [same, list, member]))
          · exact .inr (.inr member)
    have loose : Loose lists z := by
      intro q member
      rcases moved z q member with same | same | before
      · exact Nat.ne_of_lt present same
      · exact free y (by simp [list, same])
      · exact free q before
    obtain ⟨g, kids', ran, result, count, nodes, ⟨ns, last, negated⟩, lists', parents⟩ := ih rep₁
      (by simp [other.symm, Nat.ne_of_lt old]) others (Nat.lt_trans present later) loose
    refine ⟨g, kids', ?_, result, ?_, fun q lt => ?_, ⟨f.count :: ns, ?_, .cons ?_ ?_⟩,
      fun q lt one two => ?_, fun c lt absent q member => ?_⟩
    · exact (exec_bind_ok first _).trans ran
    · rw [count, count₁, length_cons]
      omega
    · rw [nodes q (Nat.lt_trans lt later), nodes₁ q lt]
    · simp [last]
    · have made : kids' f.count = [x] := by
        rw [lists' f.count later (Nat.ne_of_gt old) (Nat.ne_of_gt present)]
        simp [Nat.ne_of_gt present]
      have apart := away x mem_cons_self _ here
      rw [operator, shows_mk, made, nodes _ later, new]
      refine ⟨rfl, .cons (here.congr (fun q inside => ?_) fun q inside => ?_) .nil⟩
      · obtain ⟨lt, -, -⟩ := apart q inside
        rw [nodes q (Nat.lt_trans lt later), nodes₁ q lt]
      · obtain ⟨lt, one, two⟩ := apart q inside
        rw [lists' q (Nat.lt_trans lt later) one two]
        exact elsewhere q lt one two
    · rwa [count₁] at negated
    · rw [lists' q (Nat.lt_trans lt later) one two]
      exact elsewhere q lt one two
    · rw [mem_cons, not_or] at absent
      have before := parents c (Nat.lt_trans lt later) absent.2 q member
      exact ((moved c q before).resolve_left (Nat.ne_of_lt lt)).resolve_left absent.1

theorem shows_single {d : Tree} (shown : f.Shows kids x (.mk n [d])) :
    ∃ y, kids x = [y] ∧ f.Shows kids y d := by
  obtain ⟨-, below⟩ := shows_mk.1 shown
  obtain ⟨y, rest, here, none, list⟩ := forall₂_cons_right_iff.1 below
  cases none
  exact ⟨y, list, here⟩

section Resolve

variable (rep : Represents f kids)
include rep

/-- Nothing is done at a node that is settled. -/
theorem exec_resolveNegation_idle (shown : f.Shows kids x (.mk n cs)) (settled : Settled n cs) :
    exec (resolveNegation x) f = some (.ok none, f) := by
  obtain ⟨c, found, rfl, first⟩ := exec_cell (shows_mk.1 shown).1
  unfold resolveNegation
  rw [exec_bind_ok found, first, rep.first]
  by_cases negation : c.node.content = .op .not
  · obtain ⟨d, rfl, plain⟩ := settled negation
    obtain ⟨y, list, operand⟩ := shows_single shown
    obtain ⟨e, found', node, -⟩ := exec_cell operand.carried
    have notLogical : ∀ o : Operator, o.isLogical = true → d.node.content ≠ .op o := by
      intro o logical content
      simp [kind, Node.kind, content, Content.kind, Kind.isLogical, logical] at plain
    rw [negation, list]
    simp only [head?_cons]
    rw [exec_bind_ok found', node]
    split
    · next content => exact absurd content (notLogical _ rfl)
    · next content => exact absurd content (notLogical _ rfl)
    · next content => exact absurd content (notLogical _ rfl)
    · rfl
  · split
    · contradiction
    · rfl

/-- A double negation gives way to what is below it. -/
theorem exec_resolveNegation_double (shown : f.Shows kids x (.mk n [.mk m [e]]))
    (outer : n.content = .op .not) (inner : m.content = .op .not) :
    ∃ g kids' w, exec (resolveNegation x) f = some (.ok (some w), g) ∧ g.count = f.count ∧
      Replaces f kids x (.mk n [.mk m [e]]) g kids' w e := by
  obtain ⟨y, list, operand⟩ := shows_single shown
  obtain ⟨w, list', here⟩ := shows_single operand
  have child : y ∈ kids x := by simp [list]
  have member : w ∈ kids y := by simp [list']
  obtain ⟨g, detached, result, relinked⟩ := rep.exec_detach member
  have inside : ∀ z ∈ e.ids, z ∈ (Tree.mk n [.mk m [e]]).ids :=
    fun z deep => by simp [Tree.ids_mk, deep]
  have below : ∀ z ∈ e.ids, ¬ f.Above z y := fun z deep above =>
    rep.not_above_of_isChild (rep.isChild_of_mem member)
      (Relation.ReflTransGen.trans above ((here.mem_ids_iff rep).1 deep))
  have prepares : Prepares f kids x (.mk n [.mk m [e]]) g (fun z => (kids z).erase w) w e := by
    refine ⟨⟨result, Nat.le_of_eq relinked.count.symm, fun z _ => congrFun relinked.nodes z,
      fun z _ _ q again => mem_of_mem_erase again, fun z deep _ => inside z deep⟩, ?_, ?_,
      fun q again => mem_of_mem_erase again, fun z => (rep.nodup z).not_mem_erase, fun deep => ?_⟩
    · exact here.congr (fun z _ => congrFun relinked.nodes z) fun z deep =>
        erase_of_not_mem fun again => below z deep (rep.parent_unique again member ▸ .refl)
    · intro z _ away
      refine erase_of_not_mem fun again => away ?_
      rw [rep.parent_unique again member, ← operand.id_eq]
      simp [Tree.ids_mk, Tree.id]
    · exact below x deep (Relation.ReflTransGen.single (rep.isChild_of_mem child))
  obtain ⟨h, kids'', replaced, count, replaces⟩ := prepares.exec_replace
  refine ⟨h, kids'', w, ?_, count.trans relinked.count, replaces⟩
  obtain ⟨c, found, rfl, first⟩ := exec_cell (shows_mk.1 shown).1
  obtain ⟨d, found', rfl, first'⟩ := exec_cell (shows_mk.1 operand).1
  rw [rep.first, list, head?_cons] at first
  rw [rep.first, list', head?_cons] at first'
  unfold resolveNegation
  rw [exec_bind_ok found, outer, first]
  simp only
  rw [exec_bind_ok found', inner, first']
  exact (exec_bind_ok detached _).trans replaced

/-- A negated conjunction or disjunction gives way to its dual. -/
theorem exec_resolveNegation_dual (shown : f.Shows kids x (.mk n [.mk m ds]))
    (negation : n.content = .op .not) (connective : m.content = .op .and ∨ m.content = .op .or) :
    ∃ g kids', exec (resolveNegation x) f = some (.ok (some f.count), g) ∧
      g.count = f.count + (1 + ds.length) ∧
      Replaces f kids x (.mk n [.mk m ds]) g kids' f.count
        (operator f.count (dual m.content) m.loc (negations (f.count + 1) ds)) := by
  obtain ⟨y, list, operand⟩ := shows_single shown
  have child : y ∈ kids x := by simp [list]
  obtain ⟨carried, below⟩ := shows_mk.1 operand
  let made : Node := ⟨0, .any, m.loc, .op (dual m.content)⟩
  let f₁ := f.grow.write f.count made
  have rep₁ : Represents f₁ kids := rep.grow.write _ _
  have count₁ : f₁.count = f.count + 1 := by simp [f₁]
  have later : f.count < f₁.count := count₁ ▸ Nat.lt_succ_self _
  have nodes₁ : ∀ z < f.count, f₁.node? z = f.node? z := fun z lt => node?_made_of_lt lt made
  have below₁ : List.Forall₂ (f₁.Shows kids) (kids y) ds :=
    below.imp fun c v shows => shows.congr (fun z deep => nodes₁ z (shows.lt_count_of_mem rep deep))
      fun _ _ => rfl
  have free := rep.loose_of_count_le (Nat.le_refl f.count)
  obtain ⟨g, kids', ran, result, count, nodes, ⟨ns, last, negated⟩, lists, parents⟩ :=
    exec_appendNegated_each rep₁ rfl below₁ later free (Nat.ne_of_gt operand.lt_count)
  rw [rep.kids_eq_nil (Nat.le_refl _), nil_append] at last
  rw [count₁] at negated
  have notChild : ∀ z < f.count, z ∉ (Tree.mk n [.mk m ds]).ids → z ∉ kids y := by
    intro z lt away member
    refine away ((shown.mem_ids_iff rep).2 ?_)
    exact (rep.above_of_mem member).2 (.inr ((rep.above_of_mem child).2 (.inr .refl)))
  have operands : ∀ z ∈ ds.flatMap ids, z ∈ (Tree.mk n [.mk m ds]).ids := fun z deep => by
    simp only [Tree.ids_mk, flatMap_singleton, mem_cons]
    exact .inr (.inr deep)
  have top : x ∉ kids y := fun member =>
    rep.not_above_of_isChild (rep.isChild_of_mem child)
      (Relation.ReflTransGen.single (rep.isChild_of_mem member))
  have prepares : Prepares f kids x (.mk n [.mk m ds]) g kids' f.count
      (operator f.count (dual m.content) m.loc (negations (f.count + 1) ds)) := by
    refine ⟨⟨result, ?_, fun z lt => ?_, fun z lt away => ?_, fun z inside lt => ?_⟩, ?_,
      fun z lt away => ?_, ?_, ?_, fun inside => ?_⟩
    · exact count ▸ Nat.le_trans (Nat.le_of_lt later) (Nat.le_add_right _ _)
    · rw [nodes z (Nat.lt_trans lt later), nodes₁ z lt]
    · exact parents z (Nat.lt_trans lt later) (notChild z lt away)
    · rw [operator, Tree.ids_mk, mem_cons] at inside
      rcases inside with same | inside
      · exact absurd same (Nat.ne_of_lt lt)
      · exact operands z ((mem_ids_negations inside).resolve_left
          (Nat.not_le.2 (Nat.lt_succ_of_lt lt)))
    · rw [operator, shows_mk, last, nodes _ later]
      exact ⟨node?_made f made, negated⟩
    · refine lists z (Nat.lt_trans lt later) (fun same => away ?_) (Nat.ne_of_lt lt)
      rw [same]
      exact (shown.mem_ids_iff rep).2 (Relation.ReflTransGen.single (rep.isChild_of_mem child))
    · exact parents x (Nat.lt_trans shown.lt_count later) top
    · exact fun z member => free z (parents f.count later (free y) z member)
    · rw [operator, Tree.ids_mk, mem_cons] at inside
      rcases inside with same | inside
      · exact Nat.ne_of_lt shown.lt_count same
      · have deep := (mem_ids_negations inside).resolve_left
          (Nat.not_le.2 (Nat.lt_succ_of_lt shown.lt_count))
        have unique := shown.nodup rep
        rw [Tree.ids_mk, nodup_cons] at unique
        refine unique.1 ?_
        rw [show n.id = x from shown.id_eq]
        simp only [flatMap_singleton, Tree.ids_mk, mem_cons]
        exact .inr deep
  obtain ⟨h, kids'', replaced, count', replaces⟩ := prepares.exec_replace
  refine ⟨h, kids'', ?_, ?_, replaces⟩
  · obtain ⟨c, found, rfl, first⟩ := exec_cell (shows_mk.1 shown).1
    obtain ⟨d, found', rfl, -⟩ := exec_cell carried
    rw [rep.first, list, head?_cons] at first
    have work : exec (do
        let z ← createOperator (dual d.node.content) d.node.loc
        (← children y).forM (appendNegated z)
        replace (some x) (some z)) f = some (.ok (some f.count), h) := by
      rw [exec_bind_ok (exec_createOperator _ _ _), exec_bind_ok (rep₁.exec_children y),
        exec_bind_ok ran]
      exact replaced
    unfold resolveNegation
    rw [exec_bind_ok found, negation, first]
    simp only
    rw [exec_bind_ok found']
    rcases connective with content | content <;> rw [content] at work ⊢ <;> exact work
  · rw [count', count, count₁, below.length_eq]
    omega

end Resolve

/-- A walk from a node on comes to another one in a number of steps. -/
def Leads (f : Forest) (top : NodeId) (start : Option NodeId) (k : Nat) (g : Forest) (top' : NodeId)
    (next : Option NodeId) : Prop :=
  ∀ m, exec (pushDownWithin (k + m) top start) f = exec (pushDownWithin m top' next) g

theorem Leads.trans {start mid : Option NodeId} {top' top'' : NodeId} {j k : Nat}
    (first : Leads f top start j g top' mid) (second : Leads g top' mid k h top'' next) :
    Leads f top start (j + k) h top'' next := by
  intro m
  rw [Nat.add_assoc, first, second]

theorem leads_resolve (resolves : exec (resolveNegation x) f = some (.ok (some y), g))
    (top : NodeId) : Leads f top (some x) 1 g (if x = top then y else top) (some y) := by
  intro m
  rw [Nat.add_comm, pushDownWithin, exec_bind_ok resolves]

theorem leads_over (idle : exec (resolveNegation x) f = some (.ok none, f))
    (step : exec (preorderNext (some top) (some x)) f = some (.ok next, f)) :
    Leads f top (some x) 1 f top next := by
  intro m
  rw [Nat.add_comm, pushDownWithin, exec_bind_ok idle]
  exact exec_bind_ok step _

/-- The walk through a tree puts there what the pass makes of the tree, and goes on with what comes
after it, within a number of steps. A tree in normal form is left as it is. -/
def Settles (bound : Nat) (t : Tree) : Prop :=
  ∀ ⦃f : Forest⦄ ⦃kids : ChildLists⦄ ⦃x top : NodeId⦄ ⦃next : Option NodeId⦄ ⦃p : Pool⦄,
    Represents f kids → f.Shows kids x t → Follows kids top x next →
    p.next = f.count → p.stop = none →
    ∃ g kids' y, (∃ k ≤ bound, Leads f top (some x) k g (if x = top then y else top) next) ∧
      Replaces f kids x t g kids' y (pushNegations p t).1 ∧ g.count = (pushNegations p t).2.next ∧
      (pushNegations p t).2.stop = none ∧ (t.IsNegationNormal → y = x ∧ g = f ∧ kids' = kids)

theorem Settles.mono {j k : Nat} (settles : Settles j t) (le : j ≤ k) : Settles k t := by
  intro f kids x top next p rep shown follows supply running
  obtain ⟨g, kids', y, ⟨i, bound, leads⟩, rest⟩ := settles rep shown follows supply running
  exact ⟨g, kids', y, ⟨i, Nat.le_trans bound le, leads⟩, rest⟩

/-- The walk goes through siblings from left to right. -/
theorem settles_each {ts : List Tree} (each : ∀ t ∈ ts, Settles (steps t) t)
    {w : NodeId} {a xs b : List NodeId} (rep : Represents f kids)
    (shown : List.Forall₂ (f.Shows kids) xs ts)
    (split : kids w = a ++ xs ++ b) (inside : w < f.count) (follows : Follows kids top w next)
    (supply : p.next = f.count) (running : p.stop = none) :
    ∃ g kids' ys, (∃ k ≤ (ts.map steps).sum,
        Leads f top ((xs ++ b).head?.or next) k g top (b.head?.or next)) ∧
      Rewrites f kids w xs ts g kids' ys (pushNegationsList p ts).1 ∧
      g.count = (pushNegationsList p ts).2.next ∧ (pushNegationsList p ts).2.stop = none ∧
      ((∀ t ∈ ts, t.IsNegationNormal) → ys = xs ∧ g = f ∧ kids' = kids) := by
  induction ts generalizing f kids a xs p with
  | nil =>
    cases shown
    exact ⟨f, kids, [], ⟨0, Nat.le_refl _, fun m => by rw [Nat.zero_add]; rfl⟩, .refl rep w .nil,
      supply.symm, running, fun _ => ⟨rfl, rfl, rfl⟩⟩
  | cons t ts ih =>
    obtain ⟨x, xs, here, rest, rfl⟩ := forall₂_cons_right_iff.1 shown
    have place : kids w = a ++ x :: (xs ++ b) := by rw [split, append_assoc]; rfl
    have member : x ∈ kids w := by simp [place]
    obtain ⟨g, kids', y, ⟨j, bound, leads⟩, replaces, count, stop, same⟩ :=
      each t mem_cons_self rep here (.child place follows) supply running
    rw [if_neg (follows.ne_top rep member)] at leads
    have rewrites := replaces.rewrites rep here member
    have split' : kids w = a ++ [x] ++ (xs ++ b) := by rw [place, append_assoc]; rfl
    have one : List.Forall₂ (f.Shows kids) [x] [t] := .cons here .nil
    obtain ⟨h, kids'', ys, ⟨k, bound', leads'⟩, rewrites', count', stop', same'⟩ :=
      ih (fun s later => each s (mem_cons_of_mem t later)) rewrites.represents
        (rewrites.keepEach rep one split' rest)
        (by rw [rewrites.list a (xs ++ b) split', append_assoc (a ++ [y])])
        (Nat.lt_of_lt_of_le inside rewrites.count)
        (rewrites.follows rep one (by simp [member]) inside follows) count.symm stop
    refine ⟨h, kids'', y :: ys, ⟨j + k, ?_, leads.trans leads'⟩,
      rewrites.append rep one rest split' rewrites', count', stop', fun normal => ?_⟩
    · rw [map_cons, sum_cons]
      exact Nat.add_le_add bound bound'
    · obtain ⟨rfl, rfl, rfl⟩ := same (normal t mem_cons_self)
      obtain ⟨rfl, rfl, rfl⟩ := same' fun s later => normal s (mem_cons_of_mem t later)
      exact ⟨rfl, rfl, rfl⟩

theorem settles_error (error : n.kind = .error) (cs : List Tree) : Settles 1 (.mk n cs) := by
  intro f kids x top next p rep shown follows supply running
  have settled : Settled n cs := fun negation => by
    simp [Node.kind, negation, Content.kind] at error
  have step := exec_preorderNext rep follows (shows_mk.1 shown).1
  rw [if_pos error] at step
  rw [pushNegations_error error]
  refine ⟨f, kids, x, ⟨1, Nat.le_refl _, ?_⟩, .refl rep shown, supply.symm, running,
    fun _ => ⟨rfl, rfl, rfl⟩⟩
  rw [show (if x = top then x else top) = top by split <;> simp_all]
  exact leads_over (exec_resolveNegation_idle rep shown settled) step

theorem settles_settled (settled : Settled n cs) (sound : n.kind ≠ .error)
    (each : ∀ c ∈ cs, Settles (steps c) c) :
    Settles (1 + (cs.map steps).sum) (.mk n cs) := by
  intro f kids x top next p rep shown follows supply running
  have step := exec_preorderNext rep follows (shows_mk.1 shown).1
  rw [if_neg sound] at step
  have passed := leads_over (exec_resolveNegation_idle rep shown settled) step
  obtain ⟨g, kids', ys, ⟨k, bound, leads⟩, rewrites, count, stop, same⟩ := settles_each each rep
    (shows_mk.1 shown).2 (a := []) (b := []) (by simp) shown.lt_count follows supply running
  rw [append_nil] at leads
  rw [pushNegations_settled settled sound running]
  refine ⟨g, kids', x, ⟨1 + k, Nat.add_le_add_left bound 1, ?_⟩, rewrites.replaces rep shown, count,
    stop, fun normal => ?_⟩
  · rw [show (if x = top then x else top) = top by split <;> simp_all]
    exact passed.trans leads
  · obtain ⟨-, unchanged⟩ := same fun c member => Throughout.below normal sound member
    exact ⟨rfl, unchanged⟩

/-- A negation is resolved and the walk starts again with what takes its place. -/
theorem settles_resolved (settles : Settles bound u) (rep : Represents f kids)
    (shown : f.Shows kids x t) (follows : Follows kids top x next)
    (resolves : exec (resolveNegation x) f = some (.ok (some y), g))
    (replaces : Replaces f kids x t g kids' y u) (supply : q.next = g.count)
    (running : q.stop = none) (notNormal : ¬ t.IsNegationNormal) :
    ∃ h kids'' w, (∃ k ≤ 1 + bound, Leads f top (some x) k h (if x = top then w else top) next) ∧
      Replaces f kids x t h kids'' w (pushNegations q u).1 ∧ h.count = (pushNegations q u).2.next ∧
      (pushNegations q u).2.stop = none ∧ (t.IsNegationNormal → w = x ∧ h = f ∧ kids'' = kids) := by
  obtain ⟨follows', other⟩ := replaces.follows rep shown follows
  obtain ⟨h, kids'', w, ⟨k, enough, leads⟩, further, count, stop, -⟩ := settles replaces.represents
    replaces.shows follows' supply running
  refine ⟨h, kids'', w, ⟨1 + k, Nat.add_le_add_left enough 1, ?_⟩, replaces.trans rep shown further,
    count, stop, fun normal => absurd normal notNormal⟩
  have first := leads_resolve resolves top
  by_cases atTop : x = top
  · simp only [if_pos atTop] at leads first ⊢
    exact first.trans leads
  · simp only [if_neg atTop, if_neg (other atTop)] at leads first ⊢
    exact first.trans leads

theorem not_isNegationNormal (negation : n.content = .op .not) (logical : t.kind.isLogical = true) :
    ¬ (Tree.mk n [t]).IsNegationNormal := by
  intro normal
  obtain ⟨c, single, plain⟩ := normal.here negation
  cases single
  rw [logical] at plain
  cases plain

theorem settles_double (outer : n.content = .op .not) (inner : m.content = .op .not)
    (settles : Settles bound e) : Settles (1 + bound) (.mk n [.mk m [e]]) := by
  intro f kids x top next p rep shown follows supply running
  obtain ⟨g, kids', w, resolves, count, replaces⟩ :=
    exec_resolveNegation_double rep shown outer inner
  rw [pushNegations_double outer inner e running]
  refine settles_resolved settles rep shown follows resolves replaces (supply.trans count.symm)
    running (not_isNegationNormal outer ?_)
  rw [show (Tree.mk m [e]).kind = m.content.kind from rfl, inner]
  rfl

theorem settles_dual (negation : n.content = .op .not)
    (connective : m.content = .op .and ∨ m.content = .op .or)
    (each : ∀ d ∈ ds, ∀ k : Node, k.content = .op .not → Settles (2 * d.size) (.mk k [d])) :
    Settles (2 * (Tree.mk m ds).size) (.mk n [.mk m ds]) := by
  intro f kids x top next p rep shown follows supply running
  obtain ⟨g, kids', resolves, count, replaces⟩ :=
    exec_resolveNegation_dual rep shown negation connective
  have settles : Settles (1 + ((negations (f.count + 1) ds).map fun t => 2 * t.size - 2).sum)
      (operator f.count (dual m.content) m.loc (negations (f.count + 1) ds)) := by
    refine settles_settled (fun again => absurd again (dual_ne_not _))
      (by simp [Node.kind, Content.kind]) fun t member => ?_
    obtain ⟨k, d, content, inside, rfl⟩ := mem_negations member
    rw [Tree.size, Tree.sizeList, Tree.sizeList, Nat.add_zero, Nat.add_comm, Nat.mul_add,
      Nat.add_sub_cancel]
    exact each d inside k content
  rw [sum_negations] at settles
  rw [pushNegations_dual negation connective ds running, supply,
    show 2 * (Tree.mk m ds).size = 1 + (1 + 2 * (ds.map Tree.size).sum) by
      rw [Tree.size, Tree.sizeList_eq]
      omega]
  refine settles_resolved settles rep shown follows resolves replaces ?_ running
    (not_isNegationNormal negation ?_)
  · rw [count, ← supply]
    rfl
  · rw [show (Tree.mk m ds).kind = m.content.kind from rfl]
    rcases connective with content | content <;> rw [content] <;> rfl

theorem settles_operand (plain : t.kind.isLogical = false) (settles : Settles (2 * t.size - 1) t)
    (negation : n.content = .op .not) : Settles (2 * t.size) (.mk n [t]) := by
  have sound : n.kind ≠ .error := by simp [Node.kind, negation, Content.kind]
  have under : Settles (1 + ([t].map fun c => 2 * c.size - 1).sum) (.mk n [t]) :=
    settles_settled (fun _ => ⟨t, rfl, plain⟩) sound fun c member => by rwa [mem_singleton.1 member]
  have some := t.size_pos
  rwa [map_singleton, sum_singleton, ← Nat.add_sub_assoc (by omega), Nat.add_sub_cancel_left]
    at under

theorem settles_descends (notNegation : n.content ≠ .op .not) (sound : n.kind ≠ .error)
    (each : ∀ c ∈ cs, Settles (2 * c.size - 1) c) :
    Settles (2 * (Tree.mk n cs).size - 1) (.mk n cs) := by
  have bound := sum_le_sizes cs
  refine (settles_settled (fun negation => absurd negation notNegation) sound each).mono ?_
  rw [Tree.size, Tree.sizeList_eq]
  omega

/-- The walk through a tree whose negations have one operand, or through the negation of such a
tree, takes less than two steps for each node. -/
theorem settles_of_unary (t : Tree) (unary : t.NegationsUnary) : Settles (2 * t.size - 1) t ∧
    ∀ n : Node, n.content = .op .not → Settles (2 * t.size) (.mk n [t]) := by
  refine Tree.NegationsUnary.induction (motive := fun t => Settles (2 * t.size - 1) t ∧
    ∀ n : Node, n.content = .op .not → Settles (2 * t.size) (.mk n [t]))
    ?error ?negation ?connective ?plain t unary
  case error =>
    intro n cs error
    have settles : Settles (2 * (Tree.mk n cs).size - 1) (.mk n cs) :=
      (settles_error error cs).mono (by rw [Tree.size]; omega)
    refine ⟨settles, fun m negation => settles_operand ?_ settles negation⟩
    rw [show (Tree.mk n cs).kind = .error from error]
    rfl
  case negation =>
    intro n c inner ih
    have size : (Tree.mk n [c]).size = c.size + 1 := by
      rw [Tree.size, Tree.sizeList, Tree.sizeList, Nat.add_comm, Nat.add_zero]
    refine ⟨(ih.2 n inner).mono ?_, fun m outer => (settles_double outer inner ih.1).mono ?_⟩ <;>
      rw [size] <;> omega
  case connective =>
    intro n cs connective ih
    obtain ⟨notNegation, sound⟩ := connective_descends connective
    exact ⟨settles_descends notNegation sound fun c member => (ih c member).1, fun m negation =>
      settles_dual negation connective fun d member => (ih d member).2⟩
  case plain =>
    intro n cs plain ih
    obtain ⟨notNegation, _, _, sound⟩ := isPlain_iff.mp plain
    have settles := settles_descends notNegation sound fun c member => (ih c member).1
    refine ⟨settles, fun m negation => settles_operand ?_ settles negation⟩
    simp only [isPlain, Bool.and_eq_true, Bool.not_eq_true'] at plain
    exact plain.1

/-- Wherever a tree whose negations have one operand stands, its negation normal form takes its
place: the reference form, next to the same siblings under the same parent, with all other lists of
children and all nodes as they were. A tree that is in normal form is left alone. -/
theorem exec_pushDown (rep : Represents f kids) (read : exec (tree x) f = some (.ok t, f))
    (unary : t.NegationsUnary) :
    ∃ g kids' y u, exec (pushDown x) f = some (.ok y, g) ∧ Represents g kids' ∧
      exec (tree y) g = some (.ok u, g) ∧ u.Alike t.nnf ∧ u.IsNegationNormal ∧
      g.position y = f.position x ∧ (∀ z < f.count, g.node? z = f.node? z) ∧
      (∀ z < f.count, ¬ f.Above x z → kids' z = (kids z).replace x y) ∧
      (t.IsNegationNormal → y = x ∧ g = f) := by
  have shown := rep.shows_of_exec_tree read
  obtain ⟨g, kids', y, ⟨k, bound, leads⟩, replaces, -, -, same⟩ :=
    (settles_of_unary t unary).1 rep shown .ended rfl rfl (p := .start f.count)
  rw [if_pos rfl] at leads
  have alike := ((pushNegations_reaches t unary).1 (.start f.count) rfl).2
  have result := replaces.represents
  refine ⟨g, kids', y, _, ?_, result, result.exec_tree replaces.shows, alike, ?_,
    replaces.position rep shown, replaces.nodes, fun z lt away => ?_, fun normal => ?_⟩
  · have size := shown.size_le_count rep
    obtain ⟨m, fuel⟩ := Nat.exists_eq_add_of_le (show k ≤ 2 * f.count by omega)
    unfold pushDown
    rw [exec_get, fuel, leads m]
    cases m <;> rfl
  · rw [← isNegationNormal_anonymous, alike, isNegationNormal_anonymous]
    exact nnf_isNegationNormal unary
  · exact replaces.lists z lt fun inside => away ((shown.mem_ids_iff rep).1 inside)
  · obtain ⟨rfl, rfl, -⟩ := same normal
    exact ⟨rfl, rfl⟩

/-- The negation of a conjunction, after a sibling, becomes a disjunction there. -/
theorem exec_pushDown_after : ∃ (f g : Forest) (y : NodeId) (t u : Tree), f.Reachable ∧
    exec (tree 4) f = some (.ok t, f) ∧ t.NegationsUnary ∧ exec (pushDown 4) f = some (.ok y, g) ∧
    exec (tree y) g = some (.ok u, g) ∧ u.Alike t.nnf ∧ f.position 4 = (some 6, some 5, none) ∧
    g.position y = (some 6, some 5, none) := by
  have fact := Reachable.start.new (.fact "a") [] (by simp) rfl
  have other := fact.new (.fact "b") [] (by simp) rfl
  have both := other.new (.op .and) [1, 2] (by decide) rfl
  have negated := both.new (.op .not) [3] (by decide) rfl
  have before := negated.new (.fact "c") [] (by simp) rfl
  have whole := before.new (.op .or) [5, 4] (by decide) rfl
  obtain ⟨kids, rep⟩ := whole.represents
  let t : Tree := .mk ⟨4, .any, .nowhere, .op .not⟩ [.mk ⟨3, .any, .nowhere, .op .and⟩
    [.mk ⟨1, .any, .nowhere, .fact "a"⟩ [], .mk ⟨2, .any, .nowhere, .fact "b"⟩ []]]
  have unary : t.NegationsUnary := by
    simp [t, NegationsUnary, Tree.throughout_mk, Tree.content, Tree.children]
  obtain ⟨g, kids', y, u, ran, -, result, alike, -, place, -⟩ :=
    exec_pushDown (x := 4) (t := t) rep rfl unary
  exact ⟨_, g, y, t, u, whole, rfl, unary, ran, result, alike, rfl, place⟩

end Forest

end TaskNet
