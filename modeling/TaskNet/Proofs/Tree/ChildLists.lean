import Mathlib.Data.List.Nodup
import Mathlib.Logic.Function.Basic
import TaskNet.Proofs.Tree.Links

/-!
Forests as ordered lists of children. A forest represents lists of children when all of its links
say what the lists say. A node is linked into a list, or taken out of it, by a change of its own
links and of the two links that lead to its place.
-/

namespace TaskNet

open Function List

variable {l a b : List NodeId} {c x y : NodeId}

/-- The children of each node, in order. -/
abbrev ChildLists :=
  NodeId → List NodeId

namespace ChildLists

variable {s : NodeId}

/-- A node is the child of no other. -/
def Loose (kids : ChildLists) (c : NodeId) : Prop :=
  ∀ x, c ∉ kids x

theorem Loose.update {kids : ChildLists} (absent : c ∉ l)
    (elsewhere : ∀ x, x ≠ y → c ∉ kids x) : Loose (Function.update kids y l) c := by
  intro x
  rw [update_apply]
  split
  · exact absent
  · next other => exact elsewhere x other

def putAfter (s c : NodeId) : List NodeId → List NodeId
  | [] => []
  | x :: xs => if x = s then x :: c :: xs else x :: putAfter s c xs

theorem putAfter_of_not_mem (c : NodeId) (absent : s ∉ l) :
    putAfter s c l = l := by
  induction l with
  | nil => rfl
  | cons x xs ih =>
    rw [mem_cons, not_or] at absent
    rw [putAfter, if_neg (Ne.symm absent.1), ih absent.2]

theorem putAfter_split (c : NodeId) (absent : s ∉ l) (r : List NodeId) :
    putAfter s c (l ++ s :: r) = l ++ s :: c :: r := by
  induction l with
  | nil => simp [putAfter]
  | cons x xs ih =>
    rw [mem_cons, not_or] at absent
    rw [cons_append, putAfter, if_neg (Ne.symm absent.1), ih absent.2, cons_append]

theorem mem_putAfter (c : NodeId) (present : s ∈ l) : s ∈ putAfter s c l := by
  obtain ⟨a, b, rfl, absent⟩ := eq_append_cons_of_mem present
  rw [putAfter_split c absent]
  simp

theorem erase_putAfter (s c : NodeId) (l : List NodeId) :
    (putAfter s c l).erase s = l.replace s c := by
  induction l with
  | nil => rfl
  | cons x xs ih =>
    by_cases same : x = s
    · simp [putAfter, same]
    · have different : (s == x) = false := beq_false_of_ne (Ne.symm same)
      simp [putAfter, replace_cons, same, different, ih]

end ChildLists

open ChildLists

namespace Forest

variable {before after : Option NodeId} {k : List NodeId} {c x : NodeId} {s : Side}

/-- The links of a forest say what lists of children say: which child comes first and last, which
parent a child has and which siblings it is between. No node has a parent that it is not a child of,
and no node is twice among children or below itself. -/
structure Represents (f : Forest) (kids : ChildLists) : Prop where
  first : ∀ x, f.link .first x = (kids x).head?
  last : ∀ x, f.link .last x = (kids x).getLast?
  linked : ∀ {x l c r}, kids x = l ++ c :: r → f.position c = (some x, l.getLast?, r.head?)
  loose : ∀ {c}, kids.Loose c → f.position c = (none, none, none)
  nodup : ∀ x, (kids x).Nodup
  bound : ∀ {x c}, c ∈ kids x → x < f.count ∧ c < f.count
  acyclic : WellFounded f.IsChild

/-- Nodes in a row under a parent, between two others. -/
def Row (f : Forest) (p : NodeId) (before : Option NodeId) : List NodeId → Option NodeId → Prop
  | [], _ => True
  | c :: r, after => f.position c = (some p, before, r.head?.or after) ∧ f.Row p (some c) r after

variable {f g : Forest} {kids : ChildLists} {p : NodeId}

theorem getLast?_cons_or (c : NodeId) (l : List NodeId) (before : Option NodeId) :
    ((c :: l).getLast?).or before = l.getLast?.or (some c) := by
  rw [getLast?_cons]
  cases l.getLast? <;> rfl

theorem row_append (f : Forest) (p : NodeId) (before after : Option NodeId) (l r : List NodeId) :
    f.Row p before (l ++ r) after ↔
      f.Row p before l (r.head?.or after) ∧ f.Row p (l.getLast?.or before) r after := by
  induction l generalizing before with
  | nil => simp [Row]
  | cons c l ih =>
    rw [cons_append, Row, Row, ih, getLast?_cons_or, head?_append, Option.or_assoc,
      and_assoc]

theorem row_iff (f : Forest) (p : NodeId) (before after : Option NodeId) (k : List NodeId) :
    f.Row p before k after ↔ ∀ l c r, k = l ++ c :: r →
      f.position c = (some p, l.getLast?.or before, r.head?.or after) := by
  constructor
  · rintro row l c r rfl
    exact ((row_append f p before after l (c :: r)).1 row).2.1
  · intro linked
    induction k generalizing before with
    | nil => trivial
    | cons c r ih =>
      refine ⟨linked [] c r rfl, ih (some c) fun l d s split => ?_⟩
      rw [linked (c :: l) d s (by rw [split, cons_append]), getLast?_cons_or]

theorem Row.withAfter {after' : Option NodeId} (row : f.Row p before k after) (nodup : k.Nodup)
    (parents : ∀ c ∈ k, g.link .parent c = f.link .parent c)
    (befores : ∀ c ∈ k, g.link .before c = f.link .before c)
    (afters : ∀ c ∈ k, g.link .after c = if k.getLast? = some c then after' else f.link .after c) :
    g.Row p before k after' := by
  rw [row_iff] at row ⊢
  intro l c r split
  have member : c ∈ k := by simp [split]
  have here := row l c r split
  simp only [position, Prod.mk.injEq] at here ⊢
  rw [parents c member, befores c member, afters c member]
  refine ⟨here.1, here.2.1, ?_⟩
  cases r with
  | nil => simp [split]
  | cons d r =>
    have inner : k.getLast? ≠ some c := by
      intro last
      rw [split, nodup_middle, nodup_cons] at nodup
      rw [split, getLast?_append_of_ne_nil _ (by simp), getLast?_cons_cons] at last
      exact nodup.1 (mem_append_right l (mem_of_getLast? last))
    rw [if_neg inner, here.2.2]
    rfl

/-- Only the first node of a row is linked to what comes before the row. -/
theorem Row.withBefore {before' : Option NodeId} (row : f.Row p before k after) (nodup : k.Nodup)
    (parents : ∀ c ∈ k, g.link .parent c = f.link .parent c)
    (befores : ∀ c ∈ k, g.link .before c = if k.head? = some c then before' else f.link .before c)
    (afters : ∀ c ∈ k, g.link .after c = f.link .after c) : g.Row p before' k after := by
  rw [row_iff] at row ⊢
  intro l c r split
  have member : c ∈ k := by simp [split]
  have here := row l c r split
  simp only [position, Prod.mk.injEq] at here ⊢
  rw [parents c member, befores c member, afters c member]
  refine ⟨here.1, ?_, here.2.2⟩
  cases l with
  | nil => simp [split]
  | cons d l =>
    have inner : k.head? ≠ some c := by
      intro first
      rw [split, nodup_middle, nodup_cons] at nodup
      rw [split] at first
      exact nodup.1 (mem_append_left r (mem_of_head? first))
    rw [if_neg inner, here.2.1, getLast?_cons_or, getLast?_cons_or]

/-- A node has the parent whose child it is, if links and lists agree. -/
theorem isChild_iff_mem
    (linked : ∀ {x l c r}, kids x = l ++ c :: r → f.position c = (some x, l.getLast?, r.head?))
    (loose : ∀ {c}, kids.Loose c → f.position c = (none, none, none)) :
    f.IsChild c x ↔ c ∈ kids x := by
  have parent : ∀ {y}, c ∈ kids y → f.link .parent c = some y := by
    intro y member
    obtain ⟨l, r, split⟩ := append_of_mem member
    exact congrArg Prod.fst (linked split)
  refine ⟨fun child => ?_, parent⟩
  by_cases free : kids.Loose c
  · have none : f.link .parent c = none := congrArg Prod.fst (loose free)
    rw [IsChild, none] at child
    cases child
  · rw [Loose, not_forall] at free
    obtain ⟨y, member⟩ := free
    rw [not_not] at member
    have same : y = x := Option.some.inj ((parent member).symm.trans child)
    exact same ▸ member

/-- New children keep a relation well-founded when their parent is not below them. -/
theorem wellFounded_attach {child child' : NodeId → NodeId → Prop} (wf : WellFounded child)
    (origin : ∀ c x, child' c x → child c x ∨ x = p ∧ ¬ Relation.ReflTransGen child p c) :
    WellFounded child' := by
  -- What is below a new child has no new children.
  have below : ∀ c, ¬ Relation.ReflTransGen child p c → Acc child' c := by
    intro c
    induction c using wf.induction with
    | _ c ih =>
      intro apart
      refine ⟨c, fun d step => ?_⟩
      rcases origin d c step with old | ⟨same, -⟩
      · exact ih d old fun path => apart (path.tail old)
      · exact absurd (same ▸ .refl) apart
  refine ⟨fun x => ?_⟩
  induction x using wf.induction with
  | _ x ih =>
    refine ⟨x, fun c step => ?_⟩
    rcases origin c x step with old | ⟨-, apart⟩
    · exact ih c old
    · exact below c apart

/-- The link that leads into a place among children from the left: it starts at the sibling before
the place or, at the first place, at the parent. -/
def leftOf (p : NodeId) : Option NodeId → Side × NodeId
  | some b => (.after, b)
  | none => (.first, p)

/-- The link that leads into a place among children from the right. -/
def rightOf (p : NodeId) : Option NodeId → Side × NodeId
  | some a => (.before, a)
  | none => (.last, p)

theorem ne_leftOf (first : s = .first → x ≠ p) (after : s = .after → x ∉ a) :
    (s, x) ≠ leftOf p a.getLast? := by
  cases ends : a.getLast? with
  | none =>
    intro same
    cases same
    exact first rfl rfl
  | some b =>
    intro same
    cases same
    exact after rfl (mem_of_getLast? ends)

theorem ne_rightOf (last : s = .last → x ≠ p) (before : s = .before → x ∉ b) :
    (s, x) ≠ rightOf p b.head? := by
  cases starts : b.head? with
  | none =>
    intro same
    cases same
    exact last rfl rfl
  | some a =>
    intro same
    cases same
    exact before rfl (mem_of_head? starts)

theorem after_ne_leftOf {l : Option NodeId} (other : l ≠ some c) :
    (Side.after, c) ≠ leftOf p l := by
  intro same
  cases l with
  | none => cases same
  | some b =>
    cases same
    exact other rfl

theorem before_ne_rightOf {r : Option NodeId} (other : r ≠ some c) :
    (Side.before, c) ≠ rightOf p r := by
  intro same
  cases r with
  | none => cases same
  | some a =>
    cases same
    exact other rfl

/-- The links of a node in a place; those to its own children stay. -/
def linkAt (f : Forest) (c : NodeId) (parent before after : Option NodeId) : Side → Option NodeId
  | .parent => parent
  | .before => before
  | .after => after
  | s => f.link s c

namespace Represents

variable (h : Represents f kids)
include h

theorem row (x : NodeId) : f.Row x none (kids x) none := by
  rw [row_iff]
  intro l c r split
  simpa using h.linked split

theorem isChild_iff : f.IsChild c x ↔ c ∈ kids x :=
  isChild_iff_mem h.linked h.loose

theorem parent_unique (first : c ∈ kids x) (second : c ∈ kids y) : x = y :=
  Option.some.inj ((h.isChild_iff.2 first).symm.trans (h.isChild_iff.2 second))

/-- A child stands once among its siblings. -/
theorem once (list : kids p = a ++ c :: b) : c ∉ a ∧ c ∉ b := by
  have unique := h.nodup p
  rw [list, nodup_middle, nodup_cons, mem_append, not_or] at unique
  exact unique.1

/-- A node without a parent is loose, and one with a parent is its child. -/
theorem parent_eq_none_iff : f.link .parent c = none ↔ kids.Loose c := by
  refine ⟨fun none x member => ?_, fun loose => congrArg Prod.fst (h.loose loose)⟩
  have child := h.isChild_iff.2 member
  rw [IsChild, none] at child
  cases child

theorem isLoose_iff : f.isLoose c = true ↔ kids.Loose c := by
  rw [Forest.isLoose_iff]
  exact ⟨fun alone => h.parent_eq_none_iff.1 (congrArg Prod.fst alone), h.loose⟩

theorem startsClean (x : NodeId) : f.startsClean x = true := by
  unfold Forest.startsClean
  rw [h.first]
  cases list : kids x with
  | nil => rfl
  | cons c r =>
    have before : f.link .before c = none :=
      congrArg (fun q => q.2.1) (h.linked (l := []) list)
    simp [before]

theorem endsClean (x : NodeId) : f.endsClean x = true := by
  unfold Forest.endsClean
  rw [h.last]
  rcases eq_nil_or_concat' (kids x) with list | ⟨l, c, list⟩
  · rw [list]
    rfl
  · have after : f.link .after c = none := congrArg (fun q => q.2.2) (h.linked (r := []) list)
    simp [list, after]

/-- The list of one node may change to any row in which all that was there is, or is loose. Nothing
else must be touched. -/
theorem update (relinked : Relinked f g)
    (ends : ∀ x, x ≠ p → g.link .first x = f.link .first x ∧ g.link .last x = f.link .last x)
    (first : g.link .first p = l.head?) (last : g.link .last p = l.getLast?)
    (row : g.Row p none l none) (gone : ∀ c ∈ kids p, c ∉ l → g.position c = (none, none, none))
    (others : ∀ c, c ∉ kids p → c ∉ l → g.position c = f.position c)
    (origin : ∀ c ∈ l, c ∈ kids p ∨ kids.Loose c ∧ p < f.count ∧ c < f.count ∧ ¬ f.Above c p)
    (nodup : l.Nodup) : Represents g (Function.update kids p l) := by
  -- The nodes of the other lists keep their places.
  have elsewhere : ∀ {x c}, x ≠ p → c ∈ kids x → g.position c = f.position c := by
    intro x c different member
    have away : c ∉ kids p := fun here => different (h.parent_unique member here)
    refine others c away fun inside => ?_
    rcases origin c inside with here | ⟨loose, -⟩
    · exact away here
    · exact loose x member
  have linked : ∀ {x k c r}, Function.update kids p l x = k ++ c :: r →
      g.position c = (some x, k.getLast?, r.head?) := by
    intro x k c r split
    by_cases same : x = p
    · subst same
      rw [update_self] at split
      simpa using (row_iff g x none none l).1 row k c r split
    · rw [update_of_ne same] at split
      rw [elsewhere same (split ▸ mem_append_right k mem_cons_self), h.linked split]
  have loose : ∀ {c}, Loose (Function.update kids p l) c → g.position c = (none, none, none) := by
    intro c free
    have outside : c ∉ l := by simpa using free p
    by_cases here : c ∈ kids p
    · exact gone c here outside
    · rw [others c here outside]
      refine h.loose fun x member => ?_
      by_cases same : x = p
      · exact here (same ▸ member)
      · exact free x (by rwa [update_of_ne same])
  refine ⟨?_, ?_, linked, loose, ?_, ?_, ?_⟩
  · rw [forall_update_iff kids fun x k => g.link .first x = k.head?]
    exact ⟨first, fun x other => (ends x other).1.trans (h.first x)⟩
  · rw [forall_update_iff kids fun x k => g.link .last x = k.getLast?]
    exact ⟨last, fun x other => (ends x other).2.trans (h.last x)⟩
  · rw [forall_update_iff kids fun _ k => k.Nodup]
    exact ⟨nodup, fun x _ => h.nodup x⟩
  · intro x c member
    rw [relinked.count]
    by_cases same : x = p
    · subst same
      rw [update_self] at member
      rcases origin c member with here | ⟨-, inside⟩
      · exact h.bound here
      · exact ⟨inside.1, inside.2.1⟩
    · rw [update_of_ne same] at member
      exact h.bound member
  · refine wellFounded_attach (p := p) h.acyclic fun c x child => ?_
    have member := (isChild_iff_mem linked loose).1 child
    by_cases same : x = p
    · subst same
      rw [update_self] at member
      exact (origin c member).imp h.isChild_iff.2 fun new => ⟨rfl, new.2.2.2⟩
    · rw [update_of_ne same] at member
      exact .inl (h.isChild_iff.2 member)

/-- Children in the middle of a list are exchanged for others. Besides the nodes that come and go,
only the link from the left and the link from the right change. -/
theorem splice (relinked : Relinked f g) {m n : List NodeId} (list : kids p = a ++ (m ++ b))
    (left : g.link (leftOf p a.getLast?).1 (leftOf p a.getLast?).2 = (n ++ b).head?)
    (right : g.link (rightOf p b.head?).1 (rightOf p b.head?).2 = (a ++ n).getLast?)
    (middle : g.Row p a.getLast? n b.head?)
    (gone : ∀ c ∈ m, c ∉ n → g.position c = (none, none, none))
    (frame : ∀ s x, (s, x) ≠ leftOf p a.getLast? → (s, x) ≠ rightOf p b.head? →
      (x ∈ m ++ n → s = .first ∨ s = .last) → g.link s x = f.link s x)
    (origin : ∀ c ∈ n, c ∈ m ∨ kids.Loose c ∧ p < f.count ∧ c < f.count ∧ ¬ f.Above c p)
    (nodup : (a ++ (n ++ b)).Nodup) : Represents g (Function.update kids p (a ++ (n ++ b))) := by
  have unique := h.nodup p
  rw [list] at unique
  have old := h.row p
  rw [list, row_append, row_append] at old
  simp only [Option.or_none] at old
  simp only [nodup_append, mem_append] at unique nodup
  -- A node outside of the middle keeps its place, apart from the links next to it.
  have parent : ∀ c, c ∉ m ++ n → g.link .parent c = f.link .parent c := fun c outside =>
    frame _ _ (ne_leftOf (by simp) (by simp)) (ne_rightOf (by simp) (by simp))
      fun inside => absurd inside outside
  have before : ∀ c, c ∉ m ++ n → g.link .before c =
      if b.head? = some c then (a ++ n).getLast? else f.link .before c := by
    intro c outside
    split
    next here =>
      rw [here] at right
      exact right
    next away =>
      exact frame _ _ (ne_leftOf (by simp) (by simp)) (before_ne_rightOf away)
        fun inside => absurd inside outside
  have after : ∀ c, c ∉ m ++ n → g.link .after c =
      if a.getLast? = some c then (n ++ b).head? else f.link .after c := by
    intro c outside
    split
    next here =>
      rw [here] at left
      exact left
    next away =>
      exact frame _ _ (after_ne_leftOf away) (ne_rightOf (by simp) (by simp))
        fun inside => absurd inside outside
  have starts : ∀ c, c ∉ b → b.head? ≠ some c := fun c absent here =>
    absent (mem_of_head? here)
  have ends : ∀ c, c ∉ a → a.getLast? ≠ some c := fun c absent here =>
    absent (mem_of_getLast? here)
  apply h.update relinked
  · intro x other
    exact ⟨frame _ x (ne_leftOf (fun _ => other) (by simp)) (ne_rightOf (by simp) (by simp))
      (fun _ => .inl rfl), frame _ x (ne_leftOf (by simp) (by simp))
      (ne_rightOf (fun _ => other) (by simp)) (fun _ => .inr rfl)⟩
  · cases a with
    | nil => exact left
    | cons y a =>
      rw [frame .first p (by simp [leftOf, getLast?_cons]) (ne_rightOf (by simp) (by simp))
        (fun _ => .inl rfl), h.first, list]
      rfl
  · cases b with
    | nil =>
      rw [append_nil]
      exact right
    | cons z b =>
      rw [frame .last p (ne_leftOf (by simp) (by simp)) (by simp [rightOf]) (fun _ => .inr rfl),
        h.last, list]
      simp [getLast?_append, getLast?_cons]
  · rw [row_append, row_append]
    simp only [Option.or_none]
    refine ⟨old.1.withAfter unique.1 ?_ ?_ ?_, middle, ?_⟩
    · exact fun c member => parent c (by grind)
    · intro c member
      rw [before c (by grind), if_neg (starts c (by grind))]
    · exact fun c member => after c (by grind)
    · rw [← getLast?_append]
      refine old.2.2.withBefore unique.2.1.2.1 ?_ ?_ ?_
      · exact fun c member => parent c (by grind)
      · exact fun c member => before c (by grind)
      · intro c member
        rw [after c (by grind), if_neg (ends c (by grind))]
  · intro c member absent
    rw [list] at member
    exact gone c (by grind) (by grind)
  · intro c absent outside
    rw [list] at absent
    rw [position, position, parent c (by grind), before c (by grind), if_neg (starts c (by grind)),
      after c (by grind), if_neg (ends c (by grind))]
  · intro c member
    rw [list]
    rcases mem_append.1 member with here | rest
    · exact .inl (mem_append_left _ here)
    · rcases mem_append.1 rest with new | there
      · exact (origin c new).imp (fun here => by simp [here]) id
      · exact .inl (by simp [there])
  · simp only [nodup_append, mem_append]
    exact nodup

/-- One node comes or goes. Its own links and the two links that lead to its place are set. -/
theorem spliceOne (relinked : Relinked f g) {m n : List NodeId} {x y z : Option NodeId}
    (list : kids p = a ++ (m ++ b)) (one : ∀ d, d ∈ m ++ n ↔ d = c) (nodup : (a ++ c :: b).Nodup)
    (links : ∀ s d, g.link s d =
      if (s, d) = leftOf p a.getLast? then (n ++ b).head?
      else if (s, d) = rightOf p b.head? then (a ++ n).getLast?
      else if d = c then f.linkAt c x y z s else f.link s d)
    (middle : g.position c = (x, y, z) → g.Row p a.getLast? n b.head?)
    (gone : g.position c = (x, y, z) → ∀ d ∈ m, d ∉ n → g.position d = (none, none, none))
    (origin : ∀ d ∈ n, d ∈ m ∨ kids.Loose d ∧ p < f.count ∧ d < f.count ∧ ¬ f.Above d p)
    (unique : (a ++ (n ++ b)).Nodup) : Represents g (Function.update kids p (a ++ (n ++ b))) := by
  rw [nodup_middle, nodup_cons, mem_append, not_or] at nodup
  have own : ∀ s, s = .parent ∨ s = .before ∨ s = .after → g.link s c = f.linkAt c x y z s := by
    intro s side
    rw [links, if_neg (ne_leftOf (by grind) fun _ => nodup.1.1),
      if_neg (ne_rightOf (by grind) fun _ => nodup.1.2), if_pos rfl]
  have position : g.position c = (x, y, z) := by
    rw [Forest.position, own .parent (by simp), own .before (by simp), own .after (by simp)]
    rfl
  apply h.splice relinked list _ _ (middle position) (gone position) _ origin unique
  · rw [links, if_pos rfl]
  · rw [links, if_neg, if_pos rfl]
    cases a.getLast? <;> cases b.head? <;> simp [leftOf, rightOf]
  · intro s d left right other
    rw [links, if_neg left, if_neg right]
    by_cases same : d = c
    · subst same
      rw [if_pos rfl]
      rcases other ((one d).2 rfl) with rfl | rfl <;> rfl
    · rw [if_neg same]

/-- A loose node is linked in between two parts of a list. -/
theorem attach (relinked : Relinked f g) (list : kids p = a ++ b)
    (parent : p < f.count) (child : c < f.count) (free : kids.Loose c) (apart : ¬ f.Above c p)
    (links : ∀ s x, g.link s x =
      if (s, x) = leftOf p a.getLast? then some c
      else if (s, x) = rightOf p b.head? then some c
      else if x = c then f.linkAt c (some p) a.getLast? b.head? s else f.link s x) :
    Represents g (Function.update kids p (a ++ c :: b)) := by
  have absent := free p
  have unique := h.nodup p
  rw [list] at absent unique
  have nodup : (a ++ c :: b).Nodup := nodup_middle.2 (nodup_cons.2 ⟨absent, unique⟩)
  apply h.spliceOne (x := some p) (y := a.getLast?) (z := b.head?) (m := []) (n := [c]) relinked
    list _ nodup _ _ _ _ nodup
  · simp
  · intro s d
    rw [links]
    simp
  · exact fun position => ⟨position, trivial⟩
  · simp
  · intro d member
    rw [mem_singleton] at member
    subst member
    exact .inr ⟨free, parent, child, apart⟩

/-- A node is taken out, and what was before and after it is linked together. -/
theorem remove (relinked : Relinked f g) (list : kids p = a ++ x :: b)
    (links : ∀ s y, g.link s y =
      if (s, y) = leftOf p a.getLast? then b.head?
      else if (s, y) = rightOf p b.head? then a.getLast?
      else if y = x then f.linkAt x none none none s else f.link s y) :
    Represents g (Function.update kids p (a ++ b)) := by
  have nodup := h.nodup p
  rw [list] at nodup
  have unique : (a ++ b).Nodup := (nodup_cons.1 (nodup_middle.1 nodup)).2
  apply h.spliceOne (x := none) (y := none) (z := none) (m := [x]) (n := []) relinked list _ nodup
    _ _ _ _ unique
  · simp
  · intro s d
    rw [links, append_nil, nil_append]
  · exact fun _ => trivial
  · intro position c member _
    rw [mem_singleton] at member
    subst member
    exact position
  · simp

end Represents

end Forest

end TaskNet
