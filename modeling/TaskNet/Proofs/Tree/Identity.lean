import Mathlib.Data.List.Count
import Mathlib.Data.List.Nodup
import Mathlib.Data.List.Pairwise
import TaskNet.Program
import TaskNet.Proofs.Tree.Structure

/-!
Where identities go. A pass takes trees and hands back others; every identity that went in, or that
the pass drew from its pool, is afterwards in exactly one place: in the trees handed back or among
those set aside. Passes are taken apart into moves of this kind, and the moves compose.
-/

namespace TaskNet

open List

/-- A type that a node can have before its expression is settled: none yet, or one that a variable
can resolve to. -/
def TypeTag.Known (t : TypeTag) : Prop :=
  t = .any ∨ t.isConcrete = true

def Node.Known (n : Node) : Prop :=
  n.type.Known

namespace Tree

variable {ts : List Tree} {c t u : Tree}

/-- How often an identity occurs in a tree. -/
def tally (x : NodeId) (t : Tree) : Nat :=
  (t.nodes.map Node.id).count x

def tallies (x : NodeId) (ts : List Tree) : Nat :=
  ((nodesList ts).map Node.id).count x

/-- Every node of a tree satisfies a condition. -/
def AllOf (K : Node → Prop) (t : Tree) : Prop :=
  ∀ n ∈ t.nodes, K n

def EachOf (K : Node → Prop) (ts : List Tree) : Prop :=
  ∀ n ∈ nodesList ts, K n

abbrev AllKnown : Tree → Prop :=
  AllOf Node.Known

abbrev EachKnown : List Tree → Prop :=
  EachOf Node.Known

/-- Whether an identity is a given one, as a number. -/
def own (a x : Nat) : Nat :=
  if a = x then 1 else 0

/-- Whether an identity lies in a range, as a number. -/
def span (start stop x : Nat) : Nat :=
  if start ≤ x ∧ x < stop then 1 else 0

theorem nodes_mk (n : Node) (cs : List Tree) : nodes (mk n cs) = n :: nodesList cs := by
  rw [nodes]

theorem nodesList_append (ss ts : List Tree) :
    nodesList (ss ++ ts) = nodesList ss ++ nodesList ts := by
  simp [nodesList_eq]

@[simp] theorem tally_mk (x : NodeId) (n : Node) (cs : List Tree) :
    tally x (mk n cs) = own n.id x + tallies x cs := by
  simp only [tally, tallies, own, nodes_mk, map_cons, count_cons, beq_iff_eq]
  omega

@[simp] theorem tally_operator (x y : NodeId) (o : Operator) (loc : Location) (cs : List Tree) :
    tally x (operator y o loc cs) = own y x + tallies x cs :=
  tally_mk x _ cs

@[simp] theorem tallies_nil (x : NodeId) : tallies x [] = 0 := by
  simp [tallies, nodesList]

@[simp] theorem tallies_cons (x : NodeId) (t : Tree) (ts : List Tree) :
    tallies x (t :: ts) = tally x t + tallies x ts := by
  simp [tally, tallies, nodesList]

@[simp] theorem tallies_append (x : NodeId) (ss ts : List Tree) :
    tallies x (ss ++ ts) = tallies x ss + tallies x ts := by
  simp [tallies, nodesList_append]

/-- How often a node occurs in a list of trees. -/
def counts (n : Node) (ts : List Tree) : Nat :=
  (nodesList ts).count n

@[simp] theorem counts_nil (n : Node) : counts n [] = 0 := by
  simp [counts, nodesList]

@[simp] theorem counts_cons (n : Node) (t : Tree) (ts : List Tree) :
    counts n (t :: ts) = t.nodes.count n + counts n ts := by
  simp [counts, nodesList]

@[simp] theorem counts_append (n : Node) (ss ts : List Tree) :
    counts n (ss ++ ts) = counts n ss + counts n ts := by
  simp [counts, nodesList_append]

@[simp] theorem count_mk (n m : Node) (cs : List Tree) :
    (mk m cs).nodes.count n = counts n cs + if m == n then 1 else 0 := by
  rw [nodes_mk, count_cons, counts]

section Nodes

variable {K : Node → Prop} {n : Node} {t : Tree} {ss ts cs : List Tree}

@[simp] theorem allOf_mk : AllOf K (mk n cs) ↔ K n ∧ EachOf K cs := by
  simp [AllOf, EachOf, nodes_mk]

@[simp] theorem allKnown_operator {x : NodeId} {o : Operator} {loc : Location} :
    AllKnown (operator x o loc cs) ↔ EachKnown cs := by
  simp only [operator, allOf_mk]
  exact and_iff_right (.inl rfl)

@[simp] theorem eachOf_nil : EachOf K [] := by
  simp [EachOf, nodesList]

@[simp] theorem eachOf_cons : EachOf K (t :: ts) ↔ AllOf K t ∧ EachOf K ts := by
  simp [AllOf, EachOf, nodesList, or_imp, forall_and]

@[simp] theorem eachOf_append : EachOf K (ss ++ ts) ↔ EachOf K ss ∧ EachOf K ts := by
  simp [EachOf, nodesList_append, or_imp, forall_and]

theorem eachOf_iff : EachOf K ts ↔ ∀ t ∈ ts, AllOf K t := by
  induction ts with
  | nil => simp
  | cons t ts ih => simp [ih]

theorem AllOf.below {c : Tree} (all : t.AllOf K) (member : c ∈ t.children) : c.AllOf K := by
  cases t with
  | mk n cs => exact eachOf_iff.mp (allOf_mk.mp all).2 c member

theorem AllOf.imp {L : Node → Prop} (all : t.AllOf K) (weaker : ∀ n, K n → L n) : t.AllOf L :=
  fun n member => weaker n (all n member)

end Nodes

theorem span_self (a x : Nat) : span a a x = 0 := by
  rw [span, if_neg]
  omega

theorem span_succ (a x : Nat) : span a (a + 1) x = own a x := by
  rw [span, own]
  split <;> split <;> omega

theorem span_add {a b c : Nat} (first : a ≤ b) (second : b ≤ c) (x : Nat) :
    span a c x = span a b x + span b c x := by
  simp only [span]
  split <;> split <;> split <;> omega

theorem copyList_known_of (each : ∀ t ∈ ts, ∀ next, AllKnown t → AllKnown (copy next t).1)
    (next : NodeId) : EachKnown ts → EachKnown (copyList next ts).1 := by
  induction ts generalizing next with
  | nil => exact fun _ => eachOf_nil
  | cons t ts ih =>
    rintro known
    obtain ⟨knownHead, knownTail⟩ := eachOf_cons.mp known
    rw [copyList]
    exact eachOf_cons.mpr ⟨each t (by simp) next knownHead,
      ih (forall_mem_cons.mp each).2 _ knownTail⟩

theorem copy_known (t : Tree) (next : NodeId) (known : AllKnown t) : AllKnown (copy next t).1 := by
  induction t generalizing next with
  | mk n cs ih =>
    obtain ⟨knownNode, knownBelow⟩ := allOf_mk.mp known
    rw [copy]
    exact allOf_mk.mpr ⟨knownNode,
      copyList_known_of (fun c member next => ih c member next) _ knownBelow⟩

theorem copyList_tally_of (each : ∀ t ∈ ts, ∀ next : NodeId, next ≤ (copy next t).2 ∧
      ∀ x, tally x (copy next t).1 = span next (copy next t).2 x) (next : NodeId) :
    next ≤ (copyList next ts).2 ∧
      ∀ x, tallies x (copyList next ts).1 = span next (copyList next ts).2 x := by
  induction ts generalizing next with
  | nil => exact ⟨Nat.le_refl _, fun x => by rw [copyList, tallies_nil, span_self]⟩
  | cons t ts ih =>
    obtain ⟨headLe, headTally⟩ := each t (by simp) next
    obtain ⟨tailLe, tailTally⟩ := ih (forall_mem_cons.mp each).2 (copy next t).2
    rw [copyList]
    refine ⟨Nat.le_trans headLe tailLe, fun x => ?_⟩
    rw [tallies_cons, headTally, tailTally, span_add headLe tailLe]

/-- A copy consists of the identities that were drawn for it. -/
theorem copy_tally (t : Tree) (next : NodeId) :
    next ≤ (copy next t).2 ∧ ∀ x, tally x (copy next t).1 = span next (copy next t).2 x := by
  induction t generalizing next with
  | mk n cs ih =>
    obtain ⟨le, below⟩ := copyList_tally_of (fun c member next => ih c member next) (next + 1)
    rw [copy]
    refine ⟨Nat.le_trans (Nat.le_succ next) le, fun x => ?_⟩
    rw [tally_mk, below, span_add (Nat.le_succ next) le, Nat.succ_eq_add_one, span_succ]

theorem copyList_tally (ts : List Tree) (next : NodeId) :
    next ≤ (copyList next ts).2 ∧
      ∀ x, tallies x (copyList next ts).1 = span next (copyList next ts).2 x :=
  copyList_tally_of (fun t _ => copy_tally t) next

def Distinct (t : Tree) : Prop :=
  (t.nodes.map Node.id).Nodup

theorem nodes_sublist {cs : List Tree} (member : c ∈ cs) : c.nodes.Sublist (nodesList cs) := by
  rw [nodesList_eq]
  exact sublist_flatten_of_mem (mem_map_of_mem member)

theorem Distinct.child (distinct : t.Distinct) (member : c ∈ t.children) : c.Distinct := by
  cases t with
  | mk n cs =>
    rw [Distinct, nodes_mk] at distinct
    exact (distinct.sublist (sublist_cons_self _ _)).sublist ((nodes_sublist member).map _)

/-- The children of a node have different identities. -/
theorem Distinct.children (distinct : t.Distinct) : (t.children.map id).Nodup := by
  cases t with
  | mk n cs =>
    have tops : (cs.map node).Sublist (nodesList cs) := by
      clear distinct
      induction cs with
      | nil => exact nil_sublist _
      | cons c cs ih =>
        cases c with
        | mk m ds =>
          rw [nodesList, nodes_mk]
          exact (ih.trans (sublist_append_right _ _)).cons_cons m
    rw [Distinct, nodes_mk, map_cons] at distinct
    have below := (nodup_cons.mp distinct).2.sublist (tops.map Node.id)
    rwa [map_map] at below

theorem visited_sublist (t : Tree) : (t.visited.map node).Sublist t.nodes := by
  induction t with
  | mk n cs ih =>
    rw [visited, nodes_mk, map_cons]
    refine List.Sublist.cons_cons n ?_
    split
    · exact nil_sublist _
    · rw [visitedList_eq, nodesList_eq, map_flatMap]
      clear * - ih
      induction cs with
      | nil => exact nil_sublist _
      | cons c cs rest =>
        rw [flatMap_cons, flatMap_cons]
        exact (ih c (by simp)).append (rest (forall_mem_cons.mp ih).2)

/-- The nodes that a traversal visits have different identities. -/
theorem Distinct.visited (distinct : t.Distinct) : (t.visited.map id).Nodup := by
  have ids := List.Nodup.sublist ((visited_sublist t).map Node.id) distinct
  rwa [map_map] at ids

theorem node_mem_nodes (member : u ∈ t.visited) : u.node ∈ t.nodes :=
  (visited_sublist t).subset (mem_map_of_mem member)

/-- A traversal visits all nodes of a tree without errors. -/
theorem visited_nodes (sound : t.Throughout fun s => s.kind ≠ .error) :
    t.visited.map node = t.nodes := by
  induction t with
  | mk n cs ih =>
    obtain ⟨here, below⟩ := throughout_mk.mp sound
    have noError : n.kind ≠ .error := here
    rw [Tree.visited, nodes_mk, map_cons, if_neg (by simpa using noError), visitedList_eq,
      nodesList_eq, map_flatMap]
    congr 1
    exact flatMap_congr fun c member => ih c member (below noError c member)

/-- Two trees share no identity. -/
def Apart (t u : Tree) : Prop :=
  ∀ n ∈ t.nodes, ∀ m ∈ u.nodes, n.id ≠ m.id

theorem Apart.symm (apart : t.Apart u) : u.Apart t :=
  fun n inU m inT same => apart m inT n inU same.symm

theorem Apart.visited {a b : Tree} (apart : t.Apart u) (inT : a ∈ t.visited) (inU : b ∈ u.visited) :
    a.id ≠ b.id :=
  apart _ (node_mem_nodes inT) _ (node_mem_nodes inU)

/-- Trees inside of trees that share no identity share none. -/
theorem Apart.within {t' u' : Tree} (apart : t.Apart u) (inT : t'.nodes ⊆ t.nodes)
    (inU : u'.nodes ⊆ u.nodes) : t'.Apart u' :=
  fun n member m inside => apart n (inT member) m (inU inside)

theorem nodes_child_subset (member : c ∈ t.children) : c.nodes ⊆ t.nodes := by
  cases t with
  | mk n cs =>
    rw [nodes_mk]
    exact fun m inside => mem_cons_of_mem _ ((nodes_sublist member).subset inside)

/-- The children of a node share no identity with each other. -/
theorem Distinct.apart (distinct : t.Distinct) : t.children.Pairwise Apart := by
  cases t with
  | mk n cs =>
    rw [Distinct, nodes_mk, map_cons, nodup_cons, nodesList_eq, map_flatMap,
      nodup_flatMap] at distinct
    refine distinct.2.2.imp fun disjoint a inC b inD same => ?_
    exact disjoint (mem_map_of_mem inC) (same ▸ mem_map_of_mem inD)

theorem Distinct.own (distinct : t.Distinct) (member : c ∈ t.children) (visits : u ∈ c.visited) :
    u.id ≠ t.id := by
  cases t with
  | mk n cs =>
    rw [Distinct, nodes_mk, map_cons, nodup_cons] at distinct
    intro (same : u.node.id = n.id)
    exact distinct.1 (same ▸ mem_map_of_mem
      ((nodes_sublist member).subset (node_mem_nodes visits)))

/-- Identities stand in one place each and within a span. -/
theorem tallies_le_span_iff {ts : List Tree} {start stop : NodeId} :
    (∀ x, tallies x ts ≤ span start stop x) ↔
      ((nodesList ts).map Node.id).Nodup ∧ ∀ n ∈ nodesList ts, start ≤ n.id ∧ n.id < stop := by
  rw [nodup_iff_count_le_one]
  constructor
  · intro accounted
    refine ⟨fun x => Nat.le_trans (accounted x) ?_, fun n member => ?_⟩
    · rw [span]
      split <;> omega
    · by_contra outside
      have none := accounted n.id
      rw [span, if_neg outside, Nat.le_zero, tallies, count_eq_zero] at none
      exact none (mem_map_of_mem member)
  · rintro ⟨once, drawn⟩ x
    rw [tallies, span]
    split
    · exact once x
    · next outside =>
      refine Nat.le_of_eq (count_eq_zero.mpr fun member => outside ?_)
      obtain ⟨n, inside, rfl⟩ := mem_map.mp member
      exact drawn n inside

/-- Trees go in and others come out; no identity is lost or doubled, and what is drawn from the pool
comes out as well. What was set aside stays there. A condition on nodes is kept, under a condition
for what is copied. -/
structure MovesWith (K : Node → Prop) (C : Prop) (before : List Tree) (p : Pool) (after : List Tree)
    (q : Pool) : Prop where
  next_le : p.next ≤ q.next
  kept : ∀ x, tallies x after + tallies x q.loose =
    tallies x before + tallies x p.loose + span p.next q.next x
  loose_le : ∀ x, tallies x p.loose ≤ tallies x q.loose
  known : C → EachOf K before → EachOf K p.loose → EachOf K after ∧ EachOf K q.loose

/-- Trees go in and others come out, and types stay known. -/
abbrev Moves : Prop → List Tree → Pool → List Tree → Pool → Prop :=
  MovesWith Node.Known

namespace MovesWith

variable {K : Node → Prop} {C : Prop} {before mid after frame frame' : List Tree} {p q r : Pool}

theorem refl (ts : List Tree) (p : Pool) : MovesWith K C ts p ts p :=
  ⟨Nat.le_refl _, fun x => by rw [span_self, Nat.add_zero], fun _ => Nat.le_refl _,
    fun _ known loose => ⟨known, loose⟩⟩

theorem trans (first : MovesWith K C before p mid q) (second : MovesWith K C mid q after r) :
    MovesWith K C before p after r where
  next_le := Nat.le_trans first.next_le second.next_le
  kept x := by
    rw [second.kept, first.kept, span_add first.next_le second.next_le x]
    omega
  loose_le x := Nat.le_trans (first.loose_le x) (second.loose_le x)
  known condition knownBefore knownLoose :=
    let ⟨knownMid, looseMid⟩ := first.known condition knownBefore knownLoose
    second.known condition knownMid looseMid

/-- Moves one after the other, on trees side by side. -/
theorem append (first : MovesWith K C before p after q) (second : MovesWith K C frame q frame' r) :
    MovesWith K C (before ++ frame) p (after ++ frame') r where
  next_le := Nat.le_trans first.next_le second.next_le
  kept x := by
    have one := first.kept x
    have two := second.kept x
    rw [tallies_append, tallies_append, span_add first.next_le second.next_le x]
    omega
  loose_le x := Nat.le_trans (first.loose_le x) (second.loose_le x)
  known condition knownBefore knownLoose := by
    obtain ⟨knownFirst, knownSecond⟩ := eachOf_append.mp knownBefore
    obtain ⟨knownAfter, looseMid⟩ := first.known condition knownFirst knownLoose
    obtain ⟨knownFrame, looseEnd⟩ := second.known condition knownSecond looseMid
    exact ⟨eachOf_append.mpr ⟨knownAfter, knownFrame⟩, looseEnd⟩

theorem cons {t s : Tree} (first : MovesWith K C [t] p [s] q)
    (second : MovesWith K C before q after r) : MovesWith K C (t :: before) p (s :: after) r :=
  first.append second

theorem under {n m : Node} (same : m.id = n.id) (here : K n → K m)
    (below : MovesWith K C before p after q) :
    MovesWith K C [Tree.mk n before] p [Tree.mk m after] q where
  next_le := below.next_le
  kept x := by
    have kept := below.kept x
    simp only [tallies_cons, tally_mk, tallies_nil, same]
    omega
  loose_le := below.loose_le
  known condition knownBefore knownLoose := by
    simp only [eachOf_cons, allOf_mk, eachOf_nil, and_true] at knownBefore ⊢
    obtain ⟨knownAfter, looseEnd⟩ := below.known condition knownBefore.2 knownLoose
    exact ⟨⟨here knownBefore.1, knownAfter⟩, looseEnd⟩

theorem markError (t : Tree) (p : Pool) {problem : Problem} :
    Moves C [t] p [t.markError problem] p := by
  cases t with
  | mk n cs => exact under rfl (·) (refl cs p)

/-- The same identities in another arrangement. -/
theorem regroup (next : p.next = q.next) (loose : p.loose = q.loose)
    (same : ∀ x, tallies x after = tallies x before) (known : EachOf K before → EachOf K after) :
    MovesWith K C before p after q where
  next_le := Nat.le_of_eq next
  kept x := by rw [same, next, loose, span_self, Nat.add_zero]
  loose_le x := Nat.le_of_eq (by rw [loose])
  known _ knownBefore knownLoose := ⟨known knownBefore, loose ▸ knownLoose⟩

/-- The same nodes in another arrangement. -/
theorem rearrange (next : p.next = q.next) (loose : p.loose = q.loose)
    (same : ∀ n, counts n after = counts n before) : MovesWith K C before p after q := by
  have perm : nodesList after ~ nodesList before := perm_iff_count.mpr same
  exact regroup next loose (fun x => (perm.map Node.id).count_eq x)
    fun known n member => known n (perm.mem_iff.mp member)

/-- A tree is set aside. -/
theorem discard (t : Tree) (ts : List Tree) (p : Pool) :
    MovesWith K C (t :: ts) p ts (p.discard t) where
  next_le := Nat.le_refl _
  kept x := by
    simp only [Pool.discard, tallies_cons, span_self]
    omega
  loose_le x := by
    simp only [Pool.discard, tallies_cons]
    omega
  known _ known loose := by
    simp only [Pool.discard, eachOf_cons] at known ⊢
    exact ⟨known.2, known.1, loose⟩

/-- A new operator is put over trees. -/
theorem operator (ts : List Tree) (p : Pool) (o : Operator) (loc : Location)
    (here : ∀ x, K ⟨x, .any, loc, .op o⟩) :
    MovesWith K C ts p [Tree.operator p.next o loc ts] (p.take 1) where
  next_le := Nat.le_add_right _ _
  kept x := by
    simp only [Pool.take, tallies_cons, tally_operator, tallies_nil, span_succ]
    omega
  loose_le _ := Nat.le_refl _
  known _ knownBefore knownLoose := ⟨by simpa [Tree.operator, here] using knownBefore, knownLoose⟩

/-- A copy of a tree comes out. -/
theorem copy (t : Tree) (p : Pool) :
    Moves (AllKnown t) [] p [(t.copyIn p).1] (t.copyIn p).2 where
  next_le := (copy_tally t p.next).1
  kept x := by
    have copied := (copy_tally t p.next).2 x
    simp only [copyIn, tallies_cons, tallies_nil]
    omega
  loose_le _ := Nat.le_refl _
  known condition _ knownLoose :=
    ⟨eachOf_cons.mpr ⟨copy_known t p.next condition, eachOf_nil⟩, knownLoose⟩

/-- Copies of trees come out. -/
theorem copyList (ts : List Tree) (p : Pool) :
    Moves (EachKnown ts) [] p (Tree.copyList p.next ts).1
      { p with next := (Tree.copyList p.next ts).2 } where
  next_le := (copyList_tally ts p.next).1
  kept x := by
    have copied := (copyList_tally ts p.next).2 x
    simp only [tallies_nil]
    omega
  loose_le _ := Nat.le_refl _
  known condition _ knownLoose :=
    ⟨copyList_known_of (fun t _ => copy_known t) p.next condition, knownLoose⟩

theorem weaken {D : Prop} (moves : MovesWith K D before p after q)
    (condition : C → EachOf K before → D) : MovesWith K C before p after q :=
  ⟨moves.next_le, moves.kept, moves.loose_le,
    fun holds known => moves.known (condition holds known) known⟩

/-- What comes out where nothing went in is drawn from the pool, each identity once. -/
theorem tallies_le (moves : MovesWith K C [] p after q) (x : NodeId) :
    tallies x after ≤ span p.next q.next x := by
  have kept := moves.kept x
  have loose := moves.loose_le x
  rw [tallies_nil] at kept
  omega

end MovesWith

end Tree

end TaskNet
