import TaskNet.Proofs.Tree.Traversal

/-!
Trees that are rewritten in their place. Another tree stands where the tree was, made of its nodes
and of new ones; nothing around it changes, so a walk that comes to its end goes on as it would have
gone on from the tree before. In the same way several siblings can give way to others.
-/

namespace TaskNet

open ChildLists List Surgery

variable {l : List NodeId}

namespace ChildLists

theorem replace_self (l : List NodeId) (x : NodeId) : l.replace x x = l := by
  induction l with
  | nil => rfl
  | cons c l ih =>
    rw [replace_cons, ih]
    by_cases same : x = c
    · simp [same]
    · rw [beq_false_of_ne same]

theorem replace_split {a : List NodeId} {x : NodeId} (absent : x ∉ a) (b : List NodeId)
    (y : NodeId) : (a ++ x :: b).replace x y = a ++ y :: b := by
  simp [replace_append, absent]

theorem mem_of_mem_replace {x y z : NodeId} (member : z ∈ l.replace x y) :
    z = y ∨ z ∈ l := by
  by_cases present : x ∈ l
  · obtain ⟨a, b, rfl, before⟩ := eq_append_cons_of_mem present
    rw [replace_split before, mem_append, mem_cons] at member
    rcases member with here | rfl | here
    · exact .inr (mem_append_left _ here)
    · exact .inl rfl
    · exact .inr (mem_append_right _ (mem_cons_of_mem x here))
  · rw [replace_of_not_mem present] at member
    exact .inr member

theorem replace_replace {y : NodeId} (absent : y ∉ l) (x w : NodeId) :
    (l.replace x y).replace y w = l.replace x w := by
  by_cases member : x ∈ l
  · obtain ⟨a, b, rfl, before⟩ := eq_append_cons_of_mem member
    rw [mem_append, not_or] at absent
    rw [replace_split before, replace_split before, replace_split absent.1]
  · rw [replace_of_not_mem member, replace_of_not_mem member, replace_of_not_mem absent]

end ChildLists

namespace Forest

variable {f g h : Forest} {kids kids' kids'' : ChildLists} {x y w z p q top : NodeId} {t u v : Tree}
  {next : Option NodeId}

/-- Some nodes were made anew from others. What was there carries what it carried, and it has no
other parent unless it is one of those. -/
structure Remakes (f : Forest) (kids : ChildLists) (old : List NodeId) (g : Forest)
    (kids' : ChildLists) (new : List NodeId) : Prop where
  represents : Represents g kids'
  count : f.count ≤ g.count
  nodes : ∀ z < f.count, g.node? z = f.node? z
  parents : ∀ z < f.count, z ∉ old → ∀ q, z ∈ kids' q → z ∈ kids q
  ids : ∀ z ∈ new, z < f.count → z ∈ old

namespace Remakes

variable {old mid new : List NodeId}

theorem refl (rep : Represents f kids) (old : List NodeId) : Remakes f kids old f kids old where
  represents := rep
  count := Nat.le_refl _
  nodes _ _ := rfl
  parents _ _ _ _ member := member
  ids _ member _ := member

theorem trans (first : Remakes f kids old g kids' mid) (second : Remakes g kids' mid h kids'' new) :
    Remakes f kids old h kids'' new where
  represents := second.represents
  count := Nat.le_trans first.count second.count
  nodes z lt := (second.nodes z (Nat.lt_of_lt_of_le lt first.count)).trans (first.nodes z lt)
  parents z lt away q member :=
    first.parents z lt away q (second.parents z (Nat.lt_of_lt_of_le lt first.count)
      (fun inside => away (first.ids z inside lt)) q member)
  ids z inside lt := first.ids z (second.ids z inside (Nat.lt_of_lt_of_le lt first.count)) lt

end Remakes

/-- The tree below a node was rewritten in its place. -/
structure Replaces (f : Forest) (kids : ChildLists) (x : NodeId) (t : Tree) (g : Forest)
    (kids' : ChildLists) (y : NodeId) (u : Tree) :
    Prop extends Remakes f kids t.ids g kids' u.ids where
  shows : g.Shows kids' y u
  lists : ∀ z < f.count, z ∉ t.ids → kids' z = (kids z).replace x y
  loose : kids.Loose x → kids'.Loose y

namespace Replaces

variable (rep : Represents f kids) (shown : f.Shows kids x t)
include rep shown

theorem refl : Replaces f kids x t f kids x t where
  toRemakes := .refl rep t.ids
  shows := shown
  lists z _ _ := (replace_self (kids z) x).symm
  loose free := free

/-- What takes the place of a tree comes from inside of the tree. -/
theorem not_mem (replaces : Replaces f kids x t g kids' y u) (outside : z ∉ t.ids) (other : y ≠ x) :
    y ∉ kids z := by
  intro member
  have own := replaces.shows.id_eq
  have inside := replaces.ids y (own ▸ u.id_mem_ids) (rep.bound member).2
  rcases (rep.above_of_mem member).1 ((shown.mem_ids_iff rep).1 inside) with same | above
  · exact other same.symm
  · exact outside ((shown.mem_ids_iff rep).2 above)

theorem trans (first : Replaces f kids x t g kids' y u)
    (second : Replaces g kids' y u h kids'' w v) : Replaces f kids x t h kids'' w v where
  toRemakes := first.toRemakes.trans second.toRemakes
  shows := second.shows
  lists z lt away := by
    rw [second.lists z (Nat.lt_of_lt_of_le lt first.count)
      fun inside => away (first.ids z inside lt), first.lists z lt away]
    by_cases same : y = x
    · rw [same, replace_self]
    · exact replace_replace (first.not_mem rep shown away same) x w
  loose free := second.loose (first.loose free)

/-- The parent of a tree has the new tree at the same place among its children. -/
theorem list_of_split (replaces : Replaces f kids x t g kids' y u) {a b : List NodeId}
    (list : kids p = a ++ x :: b) : kids' p = a ++ y :: b := by
  have member : x ∈ kids p := by simp [list]
  have outside : p ∉ t.ids := fun inside =>
    rep.not_above_of_isChild (rep.isChild_of_mem member) ((shown.mem_ids_iff rep).1 inside)
  rw [replaces.lists p (rep.bound member).1 outside, list, replace_split (rep.once list).1]

/-- The new tree stands where the old one stood. -/
theorem position (replaces : Replaces f kids x t g kids' y u) : g.position y = f.position x := by
  by_cases free : kids.Loose x
  · rw [rep.loose free, replaces.represents.loose (replaces.loose free)]
  · rw [Loose, not_forall] at free
    obtain ⟨p, member⟩ := free
    obtain ⟨a, b, list⟩ := append_of_mem (not_not.1 member)
    rw [rep.linked list, replaces.represents.linked (replaces.list_of_split rep shown list)]

end Replaces

/-- Some siblings under a node were rewritten in their place. -/
structure Rewrites (f : Forest) (kids : ChildLists) (q : NodeId) (xs : List NodeId) (ts : List Tree)
    (g : Forest) (kids' : ChildLists) (ys : List NodeId) (us : List Tree) : Prop extends
    Remakes f kids (ts.flatMap Tree.ids) g kids' (us.flatMap Tree.ids) where
  shows : Forall₂ (g.Shows kids') ys us
  lists : ∀ z < f.count, z ≠ q → z ∉ ts.flatMap Tree.ids → kids' z = kids z
  list : ∀ a b, kids q = a ++ xs ++ b → kids' q = a ++ ys ++ b

theorem Replaces.rewrites (rep : Represents f kids) (shown : f.Shows kids x t)
    (replaces : Replaces f kids x t g kids' y u) (member : x ∈ kids q) :
    Rewrites f kids q [x] [t] g kids' [y] [u] where
  toRemakes := by
    simpa using replaces.toRemakes
  shows := .cons replaces.shows .nil
  lists z lt other away := by
    rw [flatMap_singleton] at away
    rw [replaces.lists z lt away,
      replace_of_not_mem fun again => other (rep.parent_unique again member)]
  list a b split := by
    rw [append_assoc, singleton_append] at split ⊢
    exact replaces.list_of_split rep shown split

namespace Rewrites

variable {xs xs' ys ys' ws : List NodeId} {ts ts' us us' vs : List Tree}

theorem refl (rep : Represents f kids) (q : NodeId) (shown : Forall₂ (f.Shows kids) xs ts) :
    Rewrites f kids q xs ts f kids xs ts where
  toRemakes := .refl rep _
  shows := shown
  lists _ _ _ _ := rfl
  list _ _ split := split

theorem trans (first : Rewrites f kids q xs ts g kids' ys us)
    (second : Rewrites g kids' q ys us h kids'' ws vs) :
    Rewrites f kids q xs ts h kids'' ws vs where
  toRemakes := first.toRemakes.trans second.toRemakes
  shows := second.shows
  lists z lt other away := by
    rw [second.lists z (Nat.lt_of_lt_of_le lt first.count) other fun inside =>
      away (first.ids z inside lt), first.lists z lt other away]
  list a b split := second.list a b (first.list a b split)

/-- The other siblings keep what is below them. -/
theorem keep (rep : Represents f kids) (rewrites : Rewrites f kids q xs ts g kids' ys us)
    (shown : Forall₂ (f.Shows kids) xs ts) (inside : xs ⊆ kids q) (member : x ∈ kids q)
    (other : x ∉ xs) (here : f.Shows kids x v) : g.Shows kids' x v := by
  have away : ∀ z ∈ v.ids, z ∉ ts.flatMap Tree.ids := by
    intro z below again
    obtain ⟨t, listed, deep⟩ := mem_flatMap.1 again
    obtain ⟨c, sibling, shows⟩ := exists_of_forall₂ shown listed
    exact rep.apart_of_siblings (inside sibling) member (fun same => other (same ▸ sibling))
      ((shows.mem_ids_iff rep).1 deep) ((here.mem_ids_iff rep).1 below)
  refine here.congr (fun z below => rewrites.nodes z (here.lt_count_of_mem rep below))
    fun z below =>
    rewrites.lists z (here.lt_count_of_mem rep below) (fun same => ?_) (away z below)
  exact rep.not_above_of_isChild (rep.isChild_of_mem member) (same ▸ (here.mem_ids_iff rep).1 below)

theorem keepEach (rep : Represents f kids) (rewrites : Rewrites f kids q xs ts g kids' ys us)
    (shown : Forall₂ (f.Shows kids) xs ts) {a b : List NodeId}
    (split : kids q = a ++ xs ++ (xs' ++ b)) (rest : Forall₂ (f.Shows kids) xs' ts') :
    Forall₂ (g.Shows kids') xs' ts' := by
  have distinct := rep.nodup q
  rw [split, append_assoc, ← append_assoc xs] at distinct
  have apart := (distinct.of_append_right.of_append_left)
  refine forall₂_imp_mem rest fun c member v here => ?_
  exact rewrites.keep rep shown (fun d inside => by simp [split, inside]) (by simp [split, member])
    (fun again => disjoint_of_nodup_append apart again member) here

/-- Siblings can be rewritten one after another. -/
theorem append (rep : Represents f kids) (shown : Forall₂ (f.Shows kids) xs ts)
    (rest : Forall₂ (f.Shows kids) xs' ts') {a b : List NodeId}
    (split : kids q = a ++ xs ++ (xs' ++ b)) (first : Rewrites f kids q xs ts g kids' ys us)
    (second : Rewrites g kids' q xs' ts' h kids'' ys' us') :
    Rewrites f kids q (xs ++ xs') (ts ++ ts') h kids'' (ys ++ ys') (us ++ us') := by
  have split' := first.list a (xs' ++ b) split
  have rest' := first.keepEach rep shown split rest
  have distinct := first.represents.nodup q
  rw [split', append_assoc, ← append_assoc ys] at distinct
  have apart := (distinct.of_append_right.of_append_left)
  have shows : Forall₂ (h.Shows kids'') ys us := by
    refine forall₂_imp_mem first.shows fun c member u here => ?_
    exact second.keep first.represents rest' (fun d inside => by simp [split', inside])
      (by simp [split', member]) (fun again => disjoint_of_nodup_append apart member again) here
  refine ⟨⟨second.represents, Nat.le_trans first.count second.count, ?_, ?_, ?_⟩,
    rel_append shows second.shows, ?_, ?_⟩
  · intro z lt
    exact (second.nodes z (Nat.lt_of_lt_of_le lt first.count)).trans (first.nodes z lt)
  · intro z lt away p member
    rw [flatMap_append, mem_append, not_or] at away
    exact first.parents z lt away.1 p
      (second.parents z (Nat.lt_of_lt_of_le lt first.count) away.2 p member)
  · intro z inside lt
    rw [flatMap_append, mem_append] at inside ⊢
    exact inside.imp (fun here => first.ids z here lt) fun there =>
      second.ids z there (Nat.lt_of_lt_of_le lt first.count)
  · intro z lt other away
    rw [flatMap_append, mem_append, not_or] at away
    rw [second.lists z (Nat.lt_of_lt_of_le lt first.count) other away.2,
      first.lists z lt other away.1]
  · intro c d parts
    have parts' := first.list c (xs' ++ d) (by simp [parts])
    simp [second.list (c ++ ys) d (by simp [parts'])]

/-- After the parent comes what came after it before. -/
theorem follows (rep : Represents f kids) (rewrites : Rewrites f kids q xs ts g kids' ys us)
    (shown : Forall₂ (f.Shows kids) xs ts) (inside : xs ⊆ kids q) (present : q < f.count)
    (after : Follows kids top q next) : Follows kids' top q next := by
  refine after.keep rep fun z path other => ?_
  have away : z ∉ ts.flatMap Tree.ids := by
    intro again
    obtain ⟨t, listed, deep⟩ := mem_flatMap.1 again
    obtain ⟨c, sibling, shows⟩ := exists_of_forall₂ shown listed
    exact rep.not_above_of_isChild (rep.isChild_of_mem (inside sibling))
      (Relation.ReflTransGen.trans path ((shows.mem_ids_iff rep).1 deep))
  have lt : z < f.count := by
    rcases Relation.ReflTransGen.cases_tail path with rfl | ⟨c, -, step⟩
    · exact present
    · exact (rep.bound (rep.isChild_iff.1 step)).1
  exact rewrites.lists z lt other away

/-- A node whose children are rewritten stays in its place. -/
theorem replaces (rep : Represents f kids) {n : Node} (shown : f.Shows kids x (.mk n ts))
    (rewrites : Rewrites f kids x (kids x) ts g kids' ys us) :
    Replaces f kids x (.mk n ts) g kids' x (.mk n us) := by
  have own : n.id = x := node?_id (shows_mk.1 shown).1
  have alone := shown.nodup rep
  rw [Tree.ids_mk, nodup_cons, own] at alone
  have list : kids' x = ys := by simpa using rewrites.list [] [] (by simp)
  refine ⟨⟨rewrites.represents, rewrites.count, rewrites.nodes, fun z lt away => ?_,
    fun z inside lt => ?_⟩, ?_, fun z lt away => ?_, fun free z member => ?_⟩
  · rw [Tree.ids_mk, mem_cons, not_or] at away
    exact rewrites.parents z lt away.2
  · rw [Tree.ids_mk, mem_cons] at inside ⊢
    exact inside.imp_right fun below => rewrites.ids z below lt
  · rw [shows_mk, list, rewrites.nodes x shown.lt_count]
    exact ⟨(shows_mk.1 shown).1, rewrites.shows⟩
  · rw [Tree.ids_mk, mem_cons, not_or, own] at away
    rw [rewrites.lists z lt away.1 away.2, replace_self]
  · exact free z (rewrites.parents x shown.lt_count alone.1 z member)

end Rewrites

/-- After the new tree comes what came after the old one, and it is the top of a walk if the old one
was. -/
theorem Replaces.follows (rep : Represents f kids) (shown : f.Shows kids x t)
    (replaces : Replaces f kids x t g kids' y u) (after : Follows kids top x next) :
    Follows kids' (if x = top then y else top) y next ∧ (x ≠ top → y ≠ top) := by
  cases after with
  | ended =>
    rw [if_pos rfl]
    exact ⟨.ended, fun other => absurd rfl other⟩
  | @child p x a b later list above =>
    have member : x ∈ kids p := by simp [list]
    have list' := replaces.list_of_split rep shown list
    have above' := (replaces.rewrites rep shown member).follows rep (.cons shown .nil)
      (by simp [member]) (rep.bound member).1 above
    rw [if_neg (above.ne_top rep member)]
    exact ⟨.child list' above', fun _ => above'.ne_top replaces.represents (by simp [list'])⟩

/-- A tree was made from another one and stands alone, ready to be put in its place. -/
structure Prepares (f : Forest) (kids : ChildLists) (x : NodeId) (t : Tree) (g : Forest)
    (kids' : ChildLists) (y : NodeId) (u : Tree) :
    Prop extends Remakes f kids t.ids g kids' u.ids where
  shows : g.Shows kids' y u
  lists : ∀ z < f.count, z ∉ t.ids → kids' z = kids z
  stays : ∀ q, x ∈ kids' q → x ∈ kids q
  free : kids'.Loose y
  apart : x ∉ u.ids

/-- What was made from a tree takes its place. -/
theorem Prepares.exec_replace (prepares : Prepares f kids x t g kids' y u) :
    ∃ h kids'', exec (replace (some x) (some y)) g = some (.ok (some y), h) ∧ h.count = g.count ∧
      Replaces f kids x t h kids'' y u := by
  have rep := prepares.represents
  have outside : ∀ z ∈ u.ids, x ∉ kids' z := fun z inside member =>
    prepares.apart ((prepares.shows.mem_ids_iff rep).2 ((rep.above_of_mem member).2
      (.inr ((prepares.shows.mem_ids_iff rep).1 inside))))
  have own : y ∈ u.ids := prepares.shows.id_eq ▸ u.id_mem_ids
  have different : x ≠ y := fun same => prepares.apart (same ▸ own)
  obtain ⟨h, ran, represents, relinked⟩ := rep.exec_replace different prepares.shows.lt_count
    fun p child above =>
      outside p ((prepares.shows.mem_ids_iff rep).2 above) (rep.isChild_iff.1 child)
  have erased : (fun z => ((kids' z).erase y).replace x y) = fun z => (kids' z).replace x y := by
    funext z
    rw [erase_of_not_mem (prepares.free z)]
  rw [erased] at represents
  refine ⟨h, _, ran, relinked.count, ⟨represents, ?_, fun z lt => ?_, fun z lt away q member => ?_,
    prepares.ids⟩, ?_, fun z lt away => ?_, fun free z member => ?_⟩
  · exact Nat.le_trans prepares.count (Nat.le_of_eq relinked.count.symm)
  · exact (congrFun relinked.nodes z).trans (prepares.nodes z lt)
  · rcases mem_of_mem_replace member with rfl | there
    · exact absurd (prepares.ids z own lt) away
    · exact prepares.parents z lt away q there
  · exact prepares.shows.congr (fun z _ => congrFun relinked.nodes z) fun z inside =>
      replace_of_not_mem (outside z inside)
  · rw [prepares.lists z lt away]
  · rw [replace_of_not_mem fun again => free z (prepares.stays z again)] at member
    exact prepares.free z member

end Forest

end TaskNet
