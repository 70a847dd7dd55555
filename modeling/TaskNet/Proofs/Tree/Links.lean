import Mathlib.Logic.Relation
import TaskNet.Tree.Forest

/-!
What the steps of surgery do to a forest. Each step changes one link of one node, or what one node
carries, or makes one node more; all else stays. Work is executed by running its steps in order.
-/

namespace TaskNet

variable (test : Forest → Bool) {n : Node}

theorem Links.side_set (l : Links) (y : Option NodeId) (s t : Side) :
    (l.set y s).side t = if t = s then y else l.side t := by
  cases s <;> cases t <;> rfl

namespace Forest

variable {f g : Forest} {a x z : NodeId}

def node? (f : Forest) (x : NodeId) : Option Node :=
  (f.view? x).map View.node

/-- Where a node has what it carries. -/
def data? (f : Forest) (x : NodeId) : Option Data :=
  (f.cells[x]?).map Cell.data

/-- Where a node stands: its parent and the siblings around it. -/
def position (f : Forest) (x : NodeId) : Option NodeId × Option NodeId × Option NodeId :=
  (f.link .parent x, f.link .before x, f.link .after x)

def IsChild (f : Forest) (x p : NodeId) : Prop :=
  f.link .parent x = some p

/-- A node is another one or one of its ancestors. -/
def Above (f : Forest) (a x : NodeId) : Prop :=
  Relation.ReflTransGen f.IsChild x a

theorem Above.mono (path : g.Above a x) (kept : ∀ c p, g.IsChild c p → f.IsChild c p) :
    f.Above a x :=
  Relation.ReflTransGen.mono kept _ _ path

theorem not_above_of_parent (top : f.link .parent x = none) (other : a ≠ x) : ¬ f.Above a x := by
  intro path
  rcases Relation.ReflTransGen.cases_head path with same | ⟨p, child, -⟩
  · exact other same.symm
  · rw [IsChild, top] at child
    cases child

/-- Two forests have the same nodes, however they are linked. -/
structure Relinked (f g : Forest) : Prop where
  count : g.count = f.count
  nodes : g.node? = f.node?
  data : g.data? = f.data?
  payloads : g.payloads = f.payloads

theorem Relinked.refl (f : Forest) : Relinked f f :=
  ⟨rfl, rfl, rfl, rfl⟩

theorem Relinked.trans {h : Forest} (first : Relinked f g) (second : Relinked g h) :
    Relinked f h :=
  ⟨second.count.trans first.count, second.nodes.trans first.nodes, second.data.trans first.data,
    second.payloads.trans first.payloads⟩

theorem node?_eq (f : Forest) (x : NodeId) : f.node? x =
    (f.cells[x]?).map fun c => ⟨x, c.type, c.loc, f.contentAt c.data⟩ := by
  simp [node?, view?, Function.comp_def]

theorem node?_id (carried : f.node? x = some n) : n.id = x := by
  rw [node?_eq] at carried
  obtain ⟨c, -, rfl⟩ := Option.map_eq_some_iff.mp carried
  rfl

theorem node?_eq_some (inside : x < f.count) : ∃ n, f.node? x = some n := by
  rw [node?_eq]
  exact ⟨_, by rw [Array.getElem?_eq_getElem inside]; rfl⟩

section Modify

variable {new : Array Content} {h : Cell → Cell}
  {valid : ∀ c a, (h c).data = .payload a → c.data = .payload a ∨ a < (f.payloads ++ new).size}

theorem getElem?_modify : (f.modify x new h valid).cells[z]? =
    if z = x then (f.cells[x]?).map h else f.cells[z]? := by
  rw [modify, Array.getElem?_modify]
  by_cases same : x = z
  · rw [if_pos same, if_pos same.symm, same]
  · rw [if_neg same, if_neg (Ne.symm same)]

/-- What was carried is there also when payloads are added. -/
theorem contentAt_modify {c : Cell} (found : f.cells[z]? = some c) :
    (f.modify x new h valid).contentAt c.data = f.contentAt c.data := by
  cases carried : c.data with
  | plain => rfl
  | payload a => simp only [contentAt, modify,
    Array.getElem?_append_left (f.held z c a found carried)]

theorem node?_modify : (f.modify x new h valid).node? z =
    if z = x then (f.cells[x]?).map fun c =>
      ⟨x, (h c).type, (h c).loc, (f.modify x new h valid).contentAt (h c).data⟩
    else f.node? z := by
  rw [node?_eq, getElem?_modify]
  split
  · next same => simp [same, Function.comp_def]
  · rw [node?_eq]
    cases found : f.cells[z]? with
    | none => rfl
    | some c => rw [Option.map_some, Option.map_some, contentAt_modify found]

theorem data?_modify : (f.modify x new h valid).data? z =
    if z = x then (f.cells[x]?).map fun c => (h c).data else f.data? z := by
  rw [data?, getElem?_modify]
  split
  · simp [Function.comp_def]
  · rfl

theorem link_modify (s : Side) (kept : ∀ c, (h c).links = c.links) :
    (f.modify x new h valid).link s z = f.link s z := by
  unfold link
  rw [getElem?_modify]
  by_cases same : z = x
  · rw [if_pos same, same]
    cases f.cells[x]? <;> simp [kept]
  · rw [if_neg same]

end Modify

@[simp] theorem count_setLink (f : Forest) (s : Side) (x : NodeId) (y : Option NodeId) :
    (f.setLink s x y).count = f.count := by
  simp [count, setLink, modify]

theorem count_setContent (f : Forest) (x : NodeId) (c : Content) :
    (f.setContent x c).count = f.count := by
  unfold setContent
  split <;> simp [count, modify]

@[simp] theorem count_write (f : Forest) (x : NodeId) (n : Node) :
    (f.write x n).count = f.count := by
  rw [write, count_setContent]
  simp [count, setHead, modify]

@[simp] theorem count_grow (f : Forest) : f.grow.count = f.count + 1 := by
  simp [count, grow]

theorem link_setLink (f : Forest) (s t : Side) (x z : NodeId) (y : Option NodeId) :
    (f.setLink s x y).link t z =
      if t = s ∧ z = x ∧ x < f.count then y else f.link t z := by
  unfold link setLink count
  rw [getElem?_modify]
  by_cases same : z = x
  · subst same
    by_cases inside : z < f.cells.size
    · simp [inside, Links.side_set]
    · simp [inside]
  · simp [same]

@[simp] theorem data?_setLink (f : Forest) (s : Side) (x : NodeId) (y : Option NodeId) :
    (f.setLink s x y).data? = f.data? := by
  funext z
  rw [setLink, data?_modify]
  split
  · next same => rw [same, data?]
  · rfl

@[simp] theorem payloads_setLink (f : Forest) (s : Side) (x : NodeId) (y : Option NodeId) :
    (f.setLink s x y).payloads = f.payloads := by
  simp [setLink, modify]

@[simp] theorem node?_setLink (f : Forest) (s : Side) (x : NodeId) (y : Option NodeId) :
    (f.setLink s x y).node? = f.node? := by
  funext z
  rw [setLink, node?_modify]
  split
  · next same =>
    subst same
    rw [node?_eq]
    cases found : f.cells[z]? with
    | none => rfl
    | some c => rw [Option.map_some, Option.map_some, contentAt_modify found]
  · rfl

@[simp] theorem link_write (f : Forest) (x : NodeId) (n : Node) (s : Side) (z : NodeId) :
    (f.write x n).link s z = f.link s z := by
  rw [write, setContent, setHead]
  split <;> rw [link_modify, link_modify] <;> exact fun _ => rfl

theorem node?_setHead (f : Forest) (x : NodeId) (type : TypeTag) (loc : Location) (z : NodeId) :
    (f.setHead x type loc).node? z =
      if z = x then (f.node? x).map fun n => { n with type := type, loc := loc } else f.node?
      z := by
  rw [setHead, node?_modify, node?_eq f x]
  split
  · cases found : f.cells[x]? with
    | none => rfl
    | some c =>
      simp only [Option.map_some]
      rw [contentAt_modify found]
  · rfl

theorem node?_setContent (f : Forest) (x : NodeId) (content : Content) (z : NodeId) :
    (f.setContent x content).node? z =
      if z = x then (f.node? x).map fun n => { n with content := content } else f.node? z := by
  rw [setContent, node?_eq f x, Option.map_map]
  split
  · rw [node?_modify]
    simp [contentAt, modify, Function.comp_def]
  · rw [node?_modify]
    rfl

theorem node?_write (f : Forest) (x : NodeId) (n : Node) (z : NodeId) :
    (f.write x n).node? z =
      if z = x ∧ x < f.count then some { n with id := x } else f.node? z := by
  rw [write, node?_setContent, node?_setHead, node?_setHead, if_pos rfl]
  by_cases same : z = x
  · by_cases inside : x < f.count
    · obtain ⟨m, carried⟩ := node?_eq_some inside
      simp [same, inside, carried, node?_id carried]
    · simp [same, inside, node?_eq, Array.getElem?_eq_none (Nat.not_lt.mp inside)]
  · simp [same]

theorem payloads_write_le (f : Forest) (x : NodeId) (n : Node) :
    f.payloads.size ≤ (f.write x n).payloads.size := by
  rw [write, setContent]
  split <;> simp [setHead, modify]

theorem data?_write_ne (other : z ≠ x) (n : Node) : (f.write x n).data? z = f.data? z := by
  rw [write, setContent]
  split <;> rw [data?_modify, if_neg other, setHead, data?_modify, if_neg other]

/-- A node that is written gets a payload of its own. -/
theorem data?_write {a : PayloadId} (carried : (f.write x n).data? x = some (.payload a)) :
    a = f.payloads.size := by
  rw [write, setContent] at carried
  split at carried
  · rw [data?_modify, if_pos rfl] at carried
    obtain ⟨c, -, same⟩ := Option.map_eq_some_iff.mp carried
    simpa [setHead, modify] using same.symm
  · rw [data?_modify, if_pos rfl] at carried
    obtain ⟨c, -, same⟩ := Option.map_eq_some_iff.mp carried
    cases same

theorem data?_lt {a : PayloadId} (carried : f.data? x = some (.payload a)) :
    a < f.payloads.size := by
  obtain ⟨c, found, same⟩ := Option.map_eq_some_iff.mp carried
  exact f.held x c a found same

theorem link_eq_none_of_count_le (outside : f.count ≤ x) (s : Side) : f.link s x = none := by
  unfold link
  rw [Array.getElem?_eq_none outside]

theorem getElem?_grow (f : Forest) (z : NodeId) :
    f.grow.cells[z]? = if z = f.count then some fresh else f.cells[z]? :=
  Array.getElem?_push

@[simp] theorem link_grow (f : Forest) (s : Side) (z : NodeId) :
    f.grow.link s z = f.link s z := by
  by_cases new : z = f.count
  · rw [new, link_eq_none_of_count_le (Nat.le_refl _)]
    unfold link
    rw [getElem?_grow, if_pos rfl]
    cases s <;> rfl
  · unfold link
    rw [getElem?_grow, if_neg new]

theorem node?_grow_of_lt (old : z < f.count) : f.grow.node? z = f.node? z := by
  rw [node?_eq, node?_eq, getElem?_grow, if_neg (Nat.ne_of_lt old)]
  rfl

/-- A node that is made does not change what others carry. -/
theorem node?_made_of_lt (old : z < f.count) (n : Node) :
    (f.grow.write f.count n).node? z = f.node? z := by
  rw [node?_write, if_neg fun same => Nat.ne_of_lt old same.1, node?_grow_of_lt old]

theorem node?_made (f : Forest) (n : Node) :
    (f.grow.write f.count n).node? f.count = some { n with id := f.count } := by
  rw [node?_write, if_pos]
  simp

theorem data?_grow_of_lt (old : z < f.count) : f.grow.data? z = f.data? z := by
  rw [data?, getElem?_grow, if_neg (Nat.ne_of_lt old)]
  rfl

theorem isLoose_iff (f : Forest) (x : NodeId) :
    f.isLoose x = true ↔ f.position x = (none, none, none) := by
  simp [isLoose, position, and_assoc]

end Forest

namespace Surgery

variable {α β : Type} {f g : Forest}
variable {m : Surgery α}

theorem exec_bind (m : Surgery α) (k : α → Surgery β) (f : Forest) :
    exec (m >>= k) f = (exec m f).bind fun q =>
      match q with
      | (.ok a, g) => exec (k a) g
      | (.error e, g) => some (.error e, g) := by
  change Option.bind _ _ = Option.bind _ _
  congr 1
  funext q
  obtain ⟨r | a, g⟩ := q <;> rfl

theorem exec_bind_ok {a : α} (ends : exec m f = some (.ok a, g)) (k : α → Surgery β) :
    exec (m >>= k) f = exec (k a) g := by
  rw [exec_bind, ends]
  rfl

theorem exec_bind_error {e : Fault} (ends : exec m f = some (.error e, g)) (k : α → Surgery β) :
    exec (m >>= k) f = some (.error e, g) := by
  rw [exec_bind, ends]
  rfl

@[simp] theorem exec_get (k : Forest → Surgery α) (f : Forest) :
    exec (get >>= k) f = exec (k f) f :=
  exec_bind_ok rfl k

@[simp] theorem exec_link (s : Side) (x : NodeId) (k : Option NodeId → Surgery α) (f : Forest) :
    exec (link s x >>= k) f = exec (k (f.link s x)) f :=
  exec_bind_ok rfl k

@[simp] theorem exec_setLink (s : Side) (x : NodeId) (y : Option NodeId) (k : Unit → Surgery α)
    (f : Forest) : exec (setLink s x y >>= k) f = exec (k ()) (f.setLink s x y) :=
  exec_bind_ok rfl k

@[simp] theorem exec_alloc (k : NodeId → Surgery α) (f : Forest) :
    exec (alloc >>= k) f = exec (k f.count) f.grow :=
  exec_bind_ok rfl k

@[simp] theorem exec_write (x : NodeId) (n : Node) (k : Unit → Surgery α) (f : Forest) :
    exec (write x n >>= k) f = exec (k ()) (f.write x n) :=
  exec_bind_ok rfl k

/-- A head and a payload of its own are what a node is written with. -/
theorem exec_clonePayload {x : NodeId} {c : View} (content : f.contentAt c.data = c.node.content)
    (k : Surgery α) : exec (do
      modify fun f => f.setHead x c.node.type c.node.loc
      clonePayload x c.data
      k) f = exec k (f.write x c.node) := by
  have same : (f.setHead x c.node.type c.node.loc).contentAt c.data = c.node.content := by
    rw [← content]
    unfold Forest.contentAt
    split
    · rfl
    · simp [Forest.setHead, Forest.modify]
  rw [Forest.write, ← same]
  rfl

theorem exec_require (fault : Fault) (passed : test f = true) :
    exec (require test fault) f = some (.ok (), f) := by
  unfold require
  rw [exec_get, if_pos passed]
  rfl

theorem exec_require_not (fault : Fault) (failed : ¬ test f = true) :
    exec (require test fault) f = some (.error fault, f) := by
  unfold require
  rw [exec_get, if_neg failed]
  rfl

end Surgery

end TaskNet
