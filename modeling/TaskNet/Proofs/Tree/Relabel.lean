import TaskNet.Proofs.Clause.Preservation
import TaskNet.Proofs.Tree.Update

/-!
Trees of one shape whose nodes differ. A pass that resolves names keeps every node in its place and
changes what the node carries; a relation between nodes is lifted to trees here, and what depends on
the places and kinds of nodes only is the same in both trees.
-/

namespace TaskNet.Tree

open List

/-- Two trees of one shape with related nodes. -/
inductive Relabels (Q : Node → Node → Prop) : Tree → Tree → Prop
  | mk {n m : Node} {cs ds : List Tree} (here : Q n m) (below : Forall₂ (Relabels Q) cs ds) :
      Relabels Q (mk n cs) (mk m ds)

/-- The identity, type and kind of a node stay. -/
structure Keeps (n m : Node) : Prop where
  id : m.id = n.id
  type : m.type = n.type
  kind : m.kind = n.kind

theorem Keeps.trans {n k m : Node} (first : Keeps n k) (second : Keeps k m) : Keeps n m :=
  ⟨second.id.trans first.id, second.type.trans first.type, second.kind.trans first.kind⟩

theorem takes_of_kind {c d : Content} {k : Nat} (same : c.kind = d.kind) :
    c.Takes k ↔ d.Takes k := by
  cases c <;> cases d <;> simp_all [Content.kind, Content.Takes]

variable {Q R : Node → Node → Prop} {t u : Tree}

theorem Relabels.node (relabels : Relabels Q t u) : Q t.node u.node := by
  cases relabels
  assumption

theorem Relabels.children (relabels : Relabels Q t u) :
    Forall₂ (Relabels Q) t.children u.children := by
  cases relabels
  assumption

theorem relabels_iff :
    Relabels Q t u ↔ Q t.node u.node ∧ Forall₂ (Relabels Q) t.children u.children := by
  refine ⟨fun relabels => ⟨relabels.node, relabels.children⟩, fun ⟨here, below⟩ => ?_⟩
  cases t
  cases u
  exact .mk here below

theorem Relabels.refl (same : ∀ n, Q n n) (t : Tree) : Relabels Q t t := by
  induction t with
  | mk n cs ih => exact .mk (same n) (forall₂_same.mpr ih)

theorem Relabels.keeps_refl (t : Tree) : Relabels Keeps t t :=
  .refl (fun _ => ⟨rfl, rfl, rfl⟩) t

theorem relabels_mapNodes (f : Node → Node) (t : Tree) :
    Relabels (fun n m => m = f n) t (t.mapNodes f) := by
  induction t with
  | mk n cs ih =>
    rw [mapNodes_mk]
    exact .mk rfl (forall₂_map_right_iff.mpr (forall₂_same.mpr ih))

theorem Relabels.imp (weaker : ∀ n m, Q n m → R n m) (relabels : Relabels Q t u) :
    Relabels R t u := by
  induction t generalizing u with
  | mk n cs ih =>
    cases relabels with
    | mk here below =>
      exact .mk (weaker _ _ here) (forall₂_imp_mem below fun c member d step => ih c member step)

theorem Relabels.comp {v : Tree} (first : Relabels Q t u) (second : Relabels R u v) :
    Relabels (Relation.Comp Q R) t v := by
  induction t generalizing u v with
  | mk n cs ih =>
    cases first with
    | mk here below =>
      cases second with
      | mk here' below' =>
        exact .mk ⟨_, here, here'⟩
          (forall₂_trans below below' fun c member _ _ one two => ih c member one two)

/-- What a clause takes as a literal depends on kinds only. -/
theorem isClauseLiteral_mk (n : Node) (cs : List Tree) :
    isClauseLiteral (mk n cs) =
      if n.kind = .op .not then cs.head?.any (fun c => !c.kind.isLogical)
      else n.kind != .op .and && n.kind != .op .or := by
  obtain ⟨id, type, loc, content⟩ := n
  cases content with
  | op o => cases o <;> cases cs <;> rfl
  | _ => rfl

section Kinds

variable (kinds : ∀ n m, Q n m → m.kind = n.kind)
include kinds

theorem Relabels.isClauseLiteral (relabels : Relabels Q t u) :
    u.isClauseLiteral = t.isClauseLiteral := by
  cases relabels with
  | @mk n m cs ds here below =>
    rw [isClauseLiteral_mk, isClauseLiteral_mk, kinds n m here]
    cases below with
    | nil => rfl
    | @cons c d _ _ head _ =>
      have operand : d.kind = c.kind := kinds _ _ head.node
      rw [head?_cons, head?_cons, Option.any_some, Option.any_some, operand]

theorem Relabels.entries (relabels : Relabels Q t u) :
    Forall₂ (Relabels Q) t.entries u.entries := by
  have lists : Forall₂ (Relabels Q) (t.childrenOf .taskList) (u.childrenOf .taskList) := by
    refine rel_filter (fun c d related => ?_) relabels.children
    simp [show d.kind = c.kind from kinds _ _ related.node]
  exact forall₂_flatMap lists fun _ _ _ related => related.children

theorem Relabels.isDisjunctiveNormal (relabels : Relabels Q t u) (normal : t.IsDisjunctiveNormal) :
    u.IsDisjunctiveNormal := by
  have op {s v : Tree} {o : Operator} (related : Relabels Q s v) (content : s.content = .op o) :
      v.content = .op o :=
    kind_eq_op.mp ((kinds _ _ related.node).trans (kind_eq_op.mpr content))
  refine ⟨op relabels normal.disjunction, fun d member => ?_, fun d member l inside => ?_⟩
  · obtain ⟨c, above, related⟩ := exists_of_forall₂ relabels.children member
    exact op related (normal.conjunctions c above)
  · obtain ⟨c, above, related⟩ := exists_of_forall₂ relabels.children member
    obtain ⟨k, within, same⟩ := exists_of_forall₂ related.children inside
    exact (same.isClauseLiteral kinds).trans (normal.literals c above k within)

end Kinds

section Keeping

variable (keeps : ∀ n m, Q n m → Keeps n m) (relabels : Relabels Q t u)
include keeps relabels

/-- Traversals of both trees meet the same places. -/
theorem Relabels.visited : Forall₂ (Relabels Q) t.visited u.visited := by
  induction t generalizing u with
  | mk n cs ih =>
    cases relabels with
    | @mk _ m _ ds here below =>
      have kind : m.kind = n.kind := (keeps _ _ here).kind
      rw [Tree.visited, Tree.visited, visitedList_eq, visitedList_eq, kind]
      refine .cons (.mk here below) ?_
      split
      · exact .nil
      · exact forall₂_flatMap below ih

theorem Relabels.throughout {A B : Node → Prop} (each : ∀ n m, Q n m → A n → B m)
    (holds : t.Throughout fun s => A s.node) : u.Throughout fun s => B s.node := by
  intro s member
  obtain ⟨r, inside, related⟩ := exists_of_forall₂ (relabels.visited keeps) member
  exact each _ _ related.node (holds r inside)

theorem Relabels.isTerm (term : t.IsTerm) : u.IsTerm := by
  intro s member
  obtain ⟨r, inside, related⟩ := exists_of_forall₂ (relabels.visited keeps) member
  have takes : r.content.Takes r.children.length := term r inside
  rw [related.children.length_eq] at takes
  exact (takes_of_kind (keeps _ _ related.node).kind).mpr takes

theorem Relabels.targets {T : Prop} (targets : t.Throughout fun s => T → TargetsVariable s) :
    u.Throughout fun s => T → TargetsVariable s := by
  intro s member condition assigns
  obtain ⟨r, inside, related⟩ := exists_of_forall₂ (relabels.visited keeps) member
  have kind : s.kind = r.kind := (keeps _ _ related.node).kind
  have assigned : r.content = .op .assign :=
    kind_eq_op.mp (kind.symm.trans (kind_eq_op.mpr assigns))
  obtain ⟨c, first, isVar⟩ := targets r inside condition assigned
  have below := related.children
  generalize r.children = cs at first below
  generalize s.children = ds at below
  cases below with
  | nil => cases first
  | cons head _ =>
    cases first
    exact ⟨_, rfl, (keeps _ _ head.node).kind.trans isVar⟩

theorem Relabels.tally (x : NodeId) : Tree.tally x u = Tree.tally x t := by
  induction t generalizing u with
  | mk n cs ih =>
    cases relabels with
    | @mk _ m _ ds here below =>
      have same : tallies x ds = tallies x cs := by
        clear here
        induction below with
        | nil => rfl
        | cons head _ ihBelow =>
          rw [tallies_cons, tallies_cons, ih _ (by simp) head,
            ihBelow (forall_mem_cons.mp ih).2]
      rw [tally_mk, tally_mk, (keeps _ _ here).id, same]

theorem Relabels.allKnown (known : t.AllKnown) : u.AllKnown := by
  induction t generalizing u with
  | mk n cs ih =>
    cases relabels with
    | @mk _ m _ ds here below =>
      obtain ⟨knownNode, knownBelow⟩ := allOf_mk.mp known
      have type : m.type.Known := (keeps _ _ here).type ▸ knownNode
      refine allOf_mk.mpr ⟨type, eachOf_iff.mpr fun d member => ?_⟩
      obtain ⟨c, ⟨inside, related⟩⟩ := exists_of_forall₂ below member
      exact ih c inside related (eachOf_iff.mp knownBelow c inside)

/-- Every identity stays where it is. -/
theorem Relabels.moves {C : Prop} (p : Pool) : Moves C [t] p [u] p := by
  refine .regroup rfl rfl (fun x => ?_) fun known => ?_
  · simp [relabels.tally keeps]
  · simp only [eachOf_cons, eachOf_nil, and_true] at known ⊢
    exact relabels.allKnown keeps known

end Keeping

end TaskNet.Tree
