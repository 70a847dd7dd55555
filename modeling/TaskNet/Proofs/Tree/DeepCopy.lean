import TaskNet.Proofs.Tree.Surgery
import TaskNet.Proofs.Tree.Traversal

/-!
Copies stand on their own. A copy of a tree is made of new nodes, one for each node of the tree and
in the same order, and nothing that was there before is changed. So what is written to the nodes of
the one is never seen in the other.
-/

namespace TaskNet

open ChildLists List Surgery

variable {c : Change}

namespace Tree

/-- The nodes of a copy are numbered in pre-order. -/
theorem copy_ids (t : Tree) (k : NodeId) :
    (t.copy k).1.ids = List.range' k t.size ∧ (t.copy k).2 = k + t.size := by
  induction t generalizing k with
  | mk n cs ih =>
    have each : ∀ k, (copyList k cs).1.flatMap ids = List.range' k (sizeList cs) ∧
        (copyList k cs).2 = k + sizeList cs := by
      induction cs with
      | nil => exact fun k => ⟨rfl, rfl⟩
      | cons c cs later =>
        intro k
        obtain ⟨first, between⟩ := ih c (by simp) k
        obtain ⟨others, last⟩ := later (forall_mem_cons.mp ih).2 (k + c.size)
        rw [copyList, sizeList]
        dsimp only
        rw [between, flatMap_cons, first, others, last, range'_append_1, Nat.add_assoc]
        exact ⟨rfl, rfl⟩
    obtain ⟨below, last⟩ := each (k + 1)
    rw [copy, size, Nat.add_comm 1]
    dsimp only
    rw [ids_mk, below, last, range'_succ]
    exact ⟨rfl, Nat.add_right_comm k 1 _⟩

end Tree

namespace Forest

variable {f g : Forest} {kids kids' : ChildLists} {x y : NodeId} {t : Tree}

/-- A node that was there when copies were made is linked as before. -/
theorem Copies.link (rep : Represents f kids) (copies : Copies y f kids g kids') (new : f.count ≤ y)
    {z : NodeId} (old : z < f.count) (s : Side) : g.link s z = f.link s z := by
  have lists : ∀ p < f.count, kids' p = kids p := fun p inside =>
    copies.lists p inside (Nat.ne_of_lt (Nat.lt_of_lt_of_le inside new))
  have place : g.position z = f.position z := by
    by_cases free : kids.Loose z
    · rw [rep.loose free, copies.represents.loose (copies.loose old free)]
    · obtain ⟨p, member⟩ : ∃ p, z ∈ kids p := by simpa [Loose] using free
      obtain ⟨a, b, split⟩ := append_of_mem member
      rw [rep.linked split, copies.represents.linked ((lists p (rep.bound member).1).trans split)]
  simp only [position, Prod.mk.injEq] at place
  cases s with
  | parent => exact place.1
  | first => rw [rep.first, copies.represents.first, lists z old]
  | last => rw [rep.last, copies.represents.last, lists z old]
  | before => exact place.2.1
  | after => exact place.2.2

/-- What can be done to a node in its place. -/
inductive Change where
  /-- It gets another type and location. -/
  | head (x : NodeId) (type : TypeTag) (loc : Location)
  /-- Its payload is changed where it is, as by a renaming. -/
  | payload (x : NodeId) (change : Content → Content)
  /-- It becomes something else, as an error does. -/
  | whole (n : Node)

def Change.target : Change → NodeId
  | head x _ _ | payload x _ => x
  | whole n => n.id

def apply (f : Forest) : Change → Forest
  | .head x type loc => f.setHead x type loc
  | .payload x change => f.edit x change
  | .whole n => f.write n.id n

/-- Makes changes one after the other. -/
def changed (f : Forest) (cs : List Change) : Forest :=
  cs.foldl apply f

/-- Two nodes are not one, and have no payload in common. -/
def Unshared (f : Forest) (x y : NodeId) : Prop :=
  x ≠ y ∧ ∀ a, f.data? x = some (.payload a) → f.data? y ≠ some (.payload a)

theorem cells_edit (f : Forest) (x : NodeId) (h : Content → Content) :
    (f.edit x h).cells = f.cells := by
  unfold edit
  split <;> rfl

theorem link_apply (f : Forest) (c : Change) (s : Side) (x : NodeId) :
    (f.apply c).link s x = f.link s x := by
  cases c with
  | head =>
    rw [apply, setHead, link_modify]
    exact fun _ => rfl
  | payload => rw [apply, link, cells_edit, link]
  | whole n => exact link_write f n.id n s x

theorem count_apply (f : Forest) (c : Change) : (f.apply c).count = f.count := by
  cases c with
  | head => simp [apply, setHead, modify, count]
  | payload => rw [apply, count, cells_edit, count]
  | whole n => exact count_write f n.id n

/-- A change leaves the payload of a node, or gives the node that it is about a new one. -/
theorem data?_apply {a : PayloadId} (carried : (f.apply c).data? x = some (.payload a)) :
    f.data? x = some (.payload a) ∨ c.target = x ∧ a = f.payloads.size := by
  cases c with
  | head y type loc =>
    rw [apply, setHead, data?_modify] at carried
    split at carried
    · next same => exact .inl (by rwa [same, data?])
    · exact .inl carried
  | payload =>
    rw [apply, data?, cells_edit] at carried
    exact .inl carried
  | whole n =>
    by_cases same : x = n.id
    · subst same
      exact .inr ⟨rfl, data?_write carried⟩
    · exact .inl (data?_write_ne same n ▸ carried)

/-- Nodes that have no payload in common have none after a change that is about another one either.
-/
theorem Unshared.after (unshared : f.Unshared x y) (now : f.Unshared c.target y) :
    (f.apply c).Unshared x y := by
  refine ⟨unshared.1, fun a inX inY => ?_⟩
  have old : f.data? y = some (.payload a) := (data?_apply inY).resolve_right fun new => now.1 new.1
  rcases data?_apply inX with kept | ⟨-, rfl⟩
  · exact unshared.2 a kept old
  · exact Nat.lt_irrefl _ (data?_lt old)

/-- A change to a node is not seen in one that has no payload in common with it. -/
theorem Unshared.node?_apply (unshared : f.Unshared c.target x) :
    (f.apply c).node? x = f.node? x := by
  obtain ⟨other, apart⟩ := unshared
  cases c with
  | head y type loc => exact (node?_setHead f y type loc x).trans (if_neg (Ne.symm other))
  | payload y h =>
    rw [apply, edit]
    split
    · next a carried =>
      rw [node?_eq, node?_eq]
      cases found : f.cells[x]? with
      | none => rfl
      | some d =>
        have away : d.data ≠ .payload a :=
          fun same => apart a carried (by simp [data?, found, same])
        cases content : d.data with
        | plain => simp [contentAt, content]
        | payload b =>
          have ne : a ≠ b := fun same => away (same ▸ content)
          simp [contentAt, content, Array.getElem?_modify, ne]
    · rfl
  | whole n => exact (node?_write f n.id n x).trans (if_neg fun same => other same.1.symm)

/-- What is done to nodes that share no payload with a tree does not show in it. -/
theorem Shows.exec_changed (rep : Represents f kids) (shown : f.Shows kids x t) {cs : List Change}
    (away : ∀ c ∈ cs, ∀ z ∈ t.ids, f.Unshared c.target z) :
    exec (tree x) (f.changed cs) = some (.ok t, f.changed cs) := by
  induction cs generalizing f with
  | nil => exact rep.exec_tree shown
  | cons c cs ih =>
    obtain ⟨apart, others⟩ := forall_mem_cons.1 away
    have rep' : Represents (f.apply c) kids :=
      rep.congr (link_apply f c) (Nat.le_of_eq (count_apply f c).symm)
    exact ih rep' (shown.congr (fun z inside => (apart z inside).node?_apply) fun _ _ => rfl)
      fun d later z inside => (others d later z inside).after (apart z inside)

/-- A copy is a tree of new nodes with no parent, which reads like the original but for the
identities of the nodes. As many nodes are made as the original has, and the nodes that were there
carry and are linked to what they were, each in the payload that it had. No other node shares a
payload of the copy. So whatever is done to the nodes of the copy, the original reads as before, and
the other way round. -/
theorem exec_clone_apart (rep : Represents f kids) (inside : x < f.count) :
    ∃ t u g kids', exec (tree x) f = some (.ok t, f) ∧
      exec (clone (some x)) f = some (.ok f.count, g) ∧
      Represents g kids' ∧ exec (tree f.count) g = some (.ok u, g) ∧ u.anonymous = t.anonymous ∧
      u.ids = List.range' f.count t.size ∧ g.position f.count = (none, none, none) ∧
      g.count = f.count + t.size ∧
      (∀ z < f.count, g.node? z = f.node? z ∧ g.data? z = f.data? z ∧
      ∀ s, g.link s z = f.link s z) ∧
      (∀ z ∈ u.ids, ∀ y a, g.data? z = some (.payload a) → g.data? y = some (.payload a) → y = z) ∧
      ∀ cs : List Change,
        ((∀ c ∈ cs, c.target ∈ u.ids) → exec (tree x) (g.changed cs) = some (.ok t, g.changed cs)) ∧
        ((∀ c ∈ cs, c.target ∈ t.ids) →
          exec (tree f.count) (g.changed cs) = some (.ok u, g.changed cs)) := by
  obtain ⟨t, shown⟩ := rep.exists_tree inside
  obtain ⟨g, kids', ran, copies, free, copied, count⟩ := exec_clone rep shown
  obtain ⟨ids, last⟩ := t.copy_ids f.count
  have result := copies.represents
  have old : ∀ z ∈ t.ids, z < f.count := fun z member => shown.lt_count_of_mem rep member
  have new : ∀ z ∈ (t.copy f.count).1.ids, f.count ≤ z := fun z member => by
    rw [ids, mem_range'_1] at member
    exact member.1
  have original : g.Shows kids' x t := shown.congr (fun z member => copies.nodes z (old z member))
    fun z member => copies.lists z (old z member) (Nat.ne_of_lt (old z member))
  have own : ∀ z ∈ (t.copy f.count).1.ids, ∀ y a, g.data? z = some (.payload a) →
      g.data? y = some (.payload a) → y = z := by
    intro z member y a inZ inY
    by_cases lt : y < f.count
    · exact absurd (data?_lt (copies.owns.kept y lt ▸ inY))
        (Nat.not_lt.2 (copies.owns.new z a (new z member) inZ))
    · exact copies.owns.apart y z a (Nat.not_lt.1 lt) (new z member) inY inZ
  have other : ∀ z ∈ (t.copy f.count).1.ids, ∀ y ∈ t.ids, y ≠ z := fun z inCopy y inOriginal =>
    Nat.ne_of_lt (Nat.lt_of_lt_of_le (old y inOriginal) (new z inCopy))
  refine ⟨t, _, g, kids', rep.exec_tree shown, ran, result, result.exec_tree copied,
    t.copy_anonymous _,
    ids, result.loose free, count.trans last, fun z lt => ⟨copies.nodes z lt, copies.owns.kept z lt,
      copies.link rep (Nat.le_refl _) lt⟩, own, fun cs => ⟨fun inCopy => ?_, fun inOriginal => ?_⟩⟩
  · exact original.exec_changed result fun c member z inTree =>
      ⟨(other _ (inCopy c member) z inTree).symm, fun a inC inZ =>
        other _ (inCopy c member) z inTree (own _ (inCopy c member) z a inC inZ)⟩
  · exact copied.exec_changed result fun c member z inTree =>
      ⟨other z inTree _ (inOriginal c member), fun a inC inZ =>
        other z inTree _ (inOriginal c member) (own z inTree _ a inZ inC)⟩

/-- A call that became an error and kept its argument is copied with it; renaming the copied
argument in its payload does not rename the argument. -/
theorem exec_clone_apart_error : ∃ (f g : Forest) (t : Tree), f.Reachable ∧ 2 < f.count ∧
    f.position 2 = (some 3, none, none) ∧ exec (clone (some 2)) f = some (.ok 4, g) ∧ g.count = 6 ∧
    exec (tree 2) (g.changed [.payload 5 fun _ => .use "b"]) =
      some (.ok t, g.changed [.payload 5 fun _ => .use "b"]) ∧
    t.children.map Tree.name = ["a"] := by
  have kept := Reachable.start.new (.use "a") [] (by simp) rfl
  have error := kept.new (.error .call .recursiveMacro) [1] (by decide) rfl
  have whole := error.new (.op .and) [2] (by decide) rfl
  obtain ⟨kids, rep⟩ := whole.represents
  obtain ⟨t, u, g, -, read, ran, -, -, -, ids, -, count, -, -, later⟩ :=
    exec_clone_apart (x := 2) rep (by decide)
  have size : t.size = 2 ∧ t.children.map Tree.name = ["a"] := by
    cases read
    exact ⟨rfl, rfl⟩
  rw [size.1] at ids count
  refine ⟨_, g, t, whole, by decide, rfl, ran, count, (later _).1 fun c member => ?_, size.2⟩
  rw [mem_singleton.1 member, ids]
  decide

end Forest

end TaskNet
