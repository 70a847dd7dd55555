import TaskNet.Clause.InPlace
import TaskNet.Proofs.Tree.Rewriting
import TaskNet.Proofs.Tree.Surgery

/-!
Flattening in place. A walk through linked nodes puts the operands of a nested operator in its place
and goes on with the first of them, so one walk makes of a tree its flat form. The top stays where
it is.
-/

namespace TaskNet

open ChildLists Function List Surgery Tree

variable {content : Content} {n : Node}

namespace Tree

def FlatUnder (content : Content) (ts : List Tree) : Prop :=
  (content = .op .and ∨ content = .op .or → ∀ t ∈ ts, t.content ≠ content) ∧ ∀ t ∈ ts, t.IsFlat

theorem flatUnder_cons (content : Content) (t : Tree) (ts : List Tree) :
    FlatUnder content (t :: ts) ↔ FlatUnder content [t] ∧ FlatUnder content ts := by
  simp only [FlatUnder, forall_mem_cons, not_mem_nil, false_implies, implies_true, and_true]
  tauto

theorem isFlat_iff {cs : List Tree} (sound : n.kind ≠ .error) :
    (mk n cs).IsFlat ↔ FlatUnder n.content cs := by
  rw [IsFlat, throughout_mk]
  exact and_congr_right fun _ => forall_prop_of_true sound

theorem absorb_cons (content : Content) (t : Tree) (ts : List Tree) :
    absorb content (t :: ts) = absorb content [t] ++ absorb content ts := by
  by_cases connective : content = .op .and ∨ content = .op .or
  · simp only [absorb_connective connective, flatMap_cons, flatMap_nil, append_nil]
  · simp only [absorb_other connective, singleton_append]

/-- An operand that is nested gives way to its own. -/
theorem absorb_nested (connective : n.content = .op .and ∨ n.content = .op .or)
    (cs : List Tree) : absorb n.content [flat (mk n cs)] = absorb n.content (cs.map flat) := by
  have sound : n.kind ≠ .error := by
    rcases connective with content | content <;> simp [Node.kind, content, Content.kind]
  rw [flat_sound sound, absorb_connective connective, flatMap_singleton, operands]
  exact if_pos rfl

/-- An operand that is not nested stays. -/
theorem absorb_single {t : Tree}
    (other : content = .op .and ∨ content = .op .or → t.content ≠ content) :
    absorb content [t] = [t] := by
  by_cases connective : content = .op .and ∨ content = .op .or
  · rw [absorb_connective connective, flatMap_singleton, operands, if_neg (other connective)]
  · exact absorb_other connective [t]

end Tree

namespace Forest

open Tree (flat absorb FlatUnder)

variable {f g h : Forest} {kids kids' kids'' : ChildLists} {x y w s top : NodeId} {n m : Node}
  {t : Tree} {cs ds ts : List Tree} {next later : Option NodeId} {a b xs : List NodeId}

/-- What is above a node in a forest with less links is above it in the other. -/
theorem Represents.above_mono (rep : Represents f kids) (rep' : Represents g kids')
    (fewer : ∀ q, kids' q ⊆ kids q) (above : g.Above x y) : f.Above x y := by
  have links : g.IsChild ≤ f.IsChild := fun _ _ child =>
    rep.isChild_of_mem (fewer _ (rep'.isChild_iff.1 child))
  exact Relation.ReflTransGen.mono links _ _ above

/-- The children of a node go, in their order, behind a sibling of the node. -/
theorem exec_moveAfter (rep : Represents f kids) (place : x ∈ kids w) (list : kids x = xs)
    (sibling : kids w = a ++ s :: b) :
    ∃ g, exec (moveAfter s xs) f = some (.ok (), g) ∧ Relinked f g ∧
      Represents g (update (update kids x []) w (a ++ s :: (xs ++ b))) := by
  induction xs generalizing f kids a s with
  | nil =>
    refine ⟨f, rfl, .refl f, ?_⟩
    rwa [nil_append, ← sibling, ← list, update_eq_self, update_eq_self]
  | cons c xs ih =>
    have member : c ∈ kids x := by simp [list]
    have other : w ≠ x :=
      fun same => rep.not_above_of_isChild (rep.isChild_of_mem place) (same ▸ .refl)
    obtain ⟨f₁, detached, rep₁, relinked₁⟩ := rep.exec_detach member
    have free : Loose (fun q => (kids q).erase c) c := fun q => (rep.nodup q).not_mem_erase
    have apart : ¬ f₁.Above c w := fun above =>
      rep.not_above_of_isChild (rep.isChild_of_mem member) ((rep.above_of_mem place).2
        (.inr (rep.above_mono rep₁ (fun q => erase_subset) above)))
    rw [rep.erase_eq_update (a := []) list, nil_append] at rep₁ free
    have place' : update kids x xs w = a ++ s :: b := by
      rwa [update_of_ne other]
    obtain ⟨f₂, inserted, rep₂, relinked₂⟩ := rep₁.exec_insert (p := w) (s := s) (by simp [place'])
      (relinked₁.count ▸ (rep.bound member).2) free apart
    rw [rep₁.putAfter_eq_update c place'] at rep₂
    have stays : x ∈ a ++ s :: c :: b := by
      rw [sibling, mem_append, mem_cons] at place
      simp only [mem_append, mem_cons]
      tauto
    obtain ⟨g, ran, relinked, result⟩ := ih rep₂ (by rwa [update_self])
      (by rw [update_of_ne other.symm, update_self])
      (a := a ++ [s]) (s := c) (by rw [update_self, append_assoc]; rfl)
    refine ⟨g, ?_, relinked₁.trans (relinked₂.trans relinked), ?_⟩
    · rw [moveAfter, exec_bind_ok detached, exec_bind_ok inserted]
      exact ran
    · rw [update_comm other _ _ (update kids x xs), update_idem,
        update_idem, append_assoc] at result
      exact result

/-- A node that is dissolved gives way to its children. -/
theorem exec_dissolve (rep : Represents f kids) (place : x ∈ kids w)
    (shown : f.Shows kids x (.mk n cs)) :
    ∃ g kids', exec (dissolve x) f = some (.ok (), g) ∧ g.count = f.count ∧
      Rewrites f kids w [x] [.mk n cs] g kids' (kids x) cs := by
  obtain ⟨a, b, list⟩ := append_of_mem place
  obtain ⟨early, late⟩ := rep.once list
  have other : w ≠ x :=
    fun same => rep.not_above_of_isChild (rep.isChild_of_mem place) (same ▸ .refl)
  obtain ⟨f₁, moved, relinked₁, rep₁⟩ := exec_moveAfter rep place rfl list
  obtain ⟨g, detached, rep₂, relinked₂⟩ := rep₁.exec_detach (p := w) (x := x)
    (by rw [update_self]; simp)
  rw [rep₁.erase_eq_update (update_self ..), update_idem] at rep₂
  have nodes : g.node? = f.node? := relinked₂.nodes.trans relinked₁.nodes
  have count : g.count = f.count := relinked₂.count.trans relinked₁.count
  have inside : ∀ z, z ∈ ([Tree.mk n cs].flatMap Tree.ids) ↔ f.Above x z := fun z => by
    rw [flatMap_singleton, shown.mem_ids_iff rep]
  have elsewhere : ∀ z, z ≠ w → z ≠ x →
      update (update kids x []) w (a ++ (kids x ++ b)) z = kids z := by
    intro z one two
    rw [update_of_ne one, update_of_ne two]
  refine ⟨g, _, (exec_bind_ok (rep.exec_children x) _).trans
    ((exec_bind_ok moved _).trans detached),
    count, ⟨rep₂, Nat.le_of_eq count.symm, fun z _ => congrFun nodes z, fun z _ away q member => ?_,
      fun z below _ => ?_⟩, ?_, fun z _ one away => ?_, fun c d split => ?_⟩
  · by_cases atW : q = w
    · rw [atW, update_self, mem_append, mem_append] at member
      have notBelow : z ∉ kids x := fun again =>
        away ((inside z).2 ((rep.above_of_mem again).2 (.inr .refl)))
      rw [atW, list, mem_append, mem_cons]
      tauto
    · rw [update_of_ne atW] at member
      by_cases atX : q = x
      · rw [atX, update_self] at member
        cases member
      · rwa [update_of_ne atX] at member
  · rw [flatMap_singleton, ids_mk]
    exact mem_cons_of_mem _ below
  · refine forall₂_imp_mem (shows_mk.1 shown).2 fun c member v here => ?_
    refine here.congr (fun z _ => congrFun nodes z) fun z below =>
      elsewhere z (fun same => ?_) fun same => ?_
    · exact rep.not_above_of_isChild (rep.isChild_of_mem member) ((rep.above_of_mem place).2
        (.inr (same ▸ (here.mem_ids_iff rep).1 below)))
    · exact rep.not_above_of_isChild (rep.isChild_of_mem member)
        (same ▸ (here.mem_ids_iff rep).1 below)
  · exact elsewhere z one fun same => away ((inside z).2 (same ▸ .refl))
  · rw [list, append_assoc, singleton_append,
      append_cons_inj_of_notMem early late] at split
    obtain ⟨rfl, -, rfl⟩ := split
    rw [update_self, append_assoc]

/-- A walk from a node on comes to another one in a number of steps. -/
def Proceeds (f : Forest) (top : NodeId) (changed : Bool) (start : Option NodeId) (k : Nat)
    (g : Forest) (changed' : Bool) (next : Option NodeId) : Prop :=
  ∀ m, exec (flattenWithin (k + m) top changed start) f = exec (flattenWithin m top changed' next) g

section Walk

variable {changed changed' changed'' : Bool} {start mid : Option NodeId}

theorem Proceeds.trans {j k : Nat} (first : Proceeds f top changed start j g changed' mid)
    (second : Proceeds g top changed' mid k h changed'' next) :
    Proceeds f top changed start (j + k) h changed'' next := by
  intro m
  rw [Nat.add_assoc, first, second]

theorem exec_isNested (rep : Represents f kids) (place : x ∈ kids w) (other : x ≠ top)
    (here : f.node? x = some m) (above : f.node? w = some n) : exec (isNested top x) f =
      some (.ok ((m.content == .op .and || m.content == .op .or) && n.content == m.content),
      f) := by
  obtain ⟨c, found, rfl, -⟩ := exec_cell here
  obtain ⟨d, found', rfl, -⟩ := exec_cell above
  unfold isNested
  rw [exec_link, show f.link .parent x = some w from rep.isChild_of_mem place]
  simp only
  rw [if_neg other, exec_bind_ok found, exec_bind_ok found']
  rfl

theorem exec_isNested_top (f : Forest) (top : NodeId) :
    exec (isNested top top) f = some (.ok false, f) := by
  unfold isNested
  rw [exec_link]
  cases f.link .parent top with
  | none => rfl
  | some p =>
    simp only [if_true]
    rfl

theorem proceeds_over (changed : Bool) (idle : exec (isNested top x) f = some (.ok false, f))
    (step : exec (preorderNext (some top) (some x)) f = some (.ok next, f)) :
    Proceeds f top changed (some x) 1 f changed next := by
  intro m
  rw [Nat.add_comm, flattenWithin, exec_bind_ok idle]
  exact exec_bind_ok step _

theorem proceeds_dissolve (rep : Represents f kids) (changed : Bool)
    (nested : exec (isNested top x) f = some (.ok true, f))
    (step : exec (nextAfter (some top) (some x)) f = some (.ok next, f))
    (dissolves : exec (dissolve x) f = some (.ok (), g)) :
    Proceeds f top changed (some x) 1 g true ((kids x).head?.or next) := by
  intro m
  rw [Nat.add_comm, flattenWithin, exec_bind_ok nested]
  simp only [if_true]
  rw [exec_link, rep.first]
  cases (kids x).head? with
  | none => exact (exec_bind_ok step _).trans (exec_bind_ok dissolves _)
  | some y => exact exec_bind_ok dissolves _

/-- A walk through siblings under a node puts there their flat forms, or the operands of those that
are nested. It notes whether there was something to do, and changes nothing otherwise. -/
def Absorbed (f : Forest) (kids : ChildLists) (top w : NodeId) (content : Content) (changed : Bool)
    (start : Option NodeId) (xs : List NodeId) (ts : List Tree) (next : Option NodeId) : Prop :=
  ∃ g kids' ys changed', g.count = f.count ∧
    (∃ k ≤ (ts.map Tree.size).sum, Proceeds f top changed start k g changed' next) ∧
    Rewrites f kids w xs ts g kids' ys (absorb content (ts.map flat)) ∧
    (changed' = true ↔ changed = true ∨ ¬ FlatUnder content ts) ∧
    (FlatUnder content ts → g = f ∧ kids' = kids)

/-- The walk comes through trees wherever they are siblings. -/
def Absorbs (content : Content) (ts : List Tree) : Prop :=
  ∀ ⦃f : Forest⦄ ⦃kids : ChildLists⦄ ⦃top w : NodeId⦄ ⦃n : Node⦄ ⦃a xs b : List NodeId⦄
    ⦃later : Option NodeId⦄ (changed : Bool), Represents f kids → f.node? w = some n →
    n.content = content → List.Forall₂ (f.Shows kids) xs ts → kids w = a ++ xs ++ b →
    Follows kids top w later →
    Absorbed f kids top w content changed ((xs ++ b).head?.or later) xs ts (b.head?.or later)

/-- A node that is not nested stays, and the walk goes through what is below it unless it is an
error. -/
theorem exec_enter (inner : Absorbs m.content ds) (changed : Bool) (rep : Represents f kids)
    (shown : f.Shows kids x (.mk m ds)) (follows : Follows kids top x next)
    (idle : exec (isNested top x) f = some (.ok false, f)) :
    ∃ g kids' changed', g.count = f.count ∧
      (∃ k ≤ (Tree.mk m ds).size, Proceeds f top changed (some x) k g changed' next) ∧
      Replaces f kids x (.mk m ds) g kids' x (flat (.mk m ds)) ∧
      (changed' = true ↔ changed = true ∨ ¬ (Tree.mk m ds).IsFlat) ∧
      ((Tree.mk m ds).IsFlat → g = f ∧ kids' = kids) := by
  obtain ⟨here, below⟩ := shows_mk.1 shown
  have step := exec_preorderNext rep follows here
  by_cases error : m.kind = .error
  · rw [if_pos error] at step
    have isFlat := flat_isFlat (.mk m ds)
    rw [flat_error error] at isFlat ⊢
    refine ⟨f, kids, changed, rfl, ⟨1, ?_, proceeds_over changed idle step⟩, .refl rep shown, ?_,
      fun _ => ⟨rfl, rfl⟩⟩
    · rw [Tree.size]
      exact Nat.le_add_right 1 _
    · simp [isFlat]
  · rw [if_neg error] at step
    obtain ⟨g, kids', ys, changed', count, ⟨k, bound, proceeds⟩, rewrites, flag, same⟩ :=
      inner changed rep here rfl below (a := []) (b := []) (by simp) follows
    rw [append_nil] at proceeds
    rw [isFlat_iff error, flat_sound error]
    refine ⟨g, kids', changed', count, ⟨1 + k, ?_,
      (proceeds_over changed idle step).trans proceeds⟩, rewrites.replaces rep shown, flag, same⟩
    rw [Tree.size, sizeList_eq]
    exact Nat.add_le_add_left bound 1

/-- A nested operator is dissolved, and the walk goes on with its operands under the same parent. -/
theorem absorbed_nested (inner : Absorbs m.content ds) (changed : Bool) (rep : Represents f kids)
    (above : f.node? w = some n) (shown : f.Shows kids x (.mk m ds)) (list : kids w = a ++ x :: b)
    (follows : Follows kids top w later) (connective : m.content = .op .and ∨ m.content = .op .or)
    (same : n.content = m.content) :
    Absorbed f kids top w n.content changed (some x) [x] [.mk m ds] (b.head?.or later) := by
  have place : x ∈ kids w := by simp [list]
  have inside := (rep.bound place).1
  have notFlat : ¬ FlatUnder n.content [.mk m ds] := fun flat =>
    flat.1 (same ▸ connective) (.mk m ds) (by simp) same.symm
  have nested := exec_isNested rep place (follows.ne_top rep place) (shows_mk.1 shown).1 above
  rw [show ((m.content == .op .and || m.content == .op .or) && n.content == m.content) = true by
    simpa [same] using connective] at nested
  obtain ⟨g, kids', dissolves, count, rewrites⟩ := exec_dissolve rep place shown
  have first := proceeds_dissolve rep changed nested
    (exec_nextAfter rep (.child list follows) shown.lt_count) dissolves
  obtain ⟨h, kids'', ys, changed', count', ⟨k, bound, proceeds⟩, rewrites', flag, -⟩ :=
    inner true rewrites.represents ((rewrites.nodes w inside).trans above) same rewrites.shows
      (rewrites.list a b (by simp [list])) (rewrites.follows rep (.cons shown .nil)
      (by simp [place])
        inside follows)
  rw [head?_append, Option.or_assoc] at proceeds
  refine ⟨h, kids'', ys, changed', count'.trans count, ⟨1 + k, ?_, first.trans proceeds⟩, ?_, ?_,
    fun flat => absurd flat notFlat⟩
  · simp only [map_cons, map_nil, sum_cons, sum_nil, Tree.size, sizeList_eq]
    omega
  · rw [map_singleton, same, absorb_nested connective]
    exact rewrites.trans rewrites'
  · simp [flag, notFlat]

theorem absorbed_single (inner : Absorbs m.content ds) (changed : Bool) (rep : Represents f kids)
    (above : f.node? w = some n) (shown : f.Shows kids x (.mk m ds)) (list : kids w = a ++ x :: b)
    (follows : Follows kids top w later) :
    Absorbed f kids top w n.content changed (some x) [x] [.mk m ds] (b.head?.or later) := by
  have place : x ∈ kids w := by simp [list]
  by_cases nested : (m.content = .op .and ∨ m.content = .op .or) ∧ n.content = m.content
  · exact absorbed_nested inner changed rep above shown list follows nested.1 nested.2
  · have single : n.content = .op .and ∨ n.content = .op .or → m.content ≠ n.content :=
      fun connective same => nested ⟨same ▸ connective, same.symm⟩
    have idle := exec_isNested rep place (follows.ne_top rep place) (shows_mk.1 shown).1 above
    rw [show ((m.content == .op .and || m.content == .op .or) && n.content == m.content) = false by
      simpa [imp_iff_not_or] using nested] at idle
    obtain ⟨g, kids', changed', count, ⟨k, bound, proceeds⟩, replaces, flag, same⟩ :=
      exec_enter inner changed rep shown (.child list follows) idle
    have flatUnder : FlatUnder n.content [.mk m ds] ↔ (Tree.mk m ds).IsFlat := by
      simpa [FlatUnder] using fun _ => single
    refine ⟨g, kids', [x], changed', count, ⟨k, by simpa using bound, proceeds⟩, ?_, ?_, ?_⟩
    · rw [map_singleton, absorb_single (by simpa [content] using single)]
      exact replaces.rewrites rep shown place
    · rw [flatUnder, flag]
    · rw [flatUnder]
      exact same

theorem absorbs_of (each : ∀ t ∈ ts, Absorbs t.content t.children) :
    Absorbs content ts := by
  intro f kids top w n a xs b later changed rep above content shown split follows
  subst content
  induction ts generalizing f kids a xs changed with
  | nil =>
    cases shown
    refine ⟨f, kids, [], changed, rfl, ⟨0, Nat.le_refl _, fun m => by rw [Nat.zero_add]; rfl⟩, ?_,
      ?_, fun _ => ⟨rfl, rfl⟩⟩
    · rw [map_nil, show absorb n.content [] = [] by simp [absorb]]
      exact .refl rep w .nil
    · simp [FlatUnder]
  | cons t ts ih =>
    obtain ⟨x, xs, here, rest, rfl⟩ := forall₂_cons_right_iff.1 shown
    have place : kids w = a ++ x :: (xs ++ b) := by rw [split, append_assoc]; rfl
    have split' : kids w = a ++ [x] ++ (xs ++ b) := by rw [place, append_assoc]; rfl
    have member : x ∈ kids w := by simp [place]
    have one : List.Forall₂ (f.Shows kids) [x] [t] := .cons here .nil
    have inside := (rep.bound member).1
    have first : Absorbed f kids top w n.content changed (some x) [x] [t]
      ((xs ++ b).head?.or later) := by
      cases t with
      | mk m ds => exact absorbed_single (each _ mem_cons_self) changed rep above here place follows
    obtain ⟨g, kids', ys, changed₁, count, ⟨j, bound, proceeds⟩, rewrites, flag, same⟩ := first
    obtain ⟨h, kids'', zs, changed₂, count', ⟨k, bound', proceeds'⟩, rewrites', flag', same'⟩ :=
      ih (fun s later => each s (mem_cons_of_mem t later)) changed₁ rewrites.represents
        ((rewrites.nodes w inside).trans above) (rewrites.keepEach rep one split' rest)
        (by rw [rewrites.list a (xs ++ b) split', append_assoc (a ++ ys)])
        (rewrites.follows rep one (by simp [member]) inside follows)
    refine ⟨h, kids'', ys ++ zs, changed₂, count'.trans count,
      ⟨j + k, ?_, proceeds.trans proceeds'⟩, ?_, ?_, fun flat => ?_⟩
    · rw [map_cons, sum_cons]
      exact Nat.add_le_add (by simpa using bound) bound'
    · rw [map_cons, absorb_cons]
      exact rewrites.append rep one rest split' rewrites'
    · rw [flag', flag, flatUnder_cons n.content t ts, not_and_or, or_assoc]
    · rw [flatUnder_cons] at flat
      obtain ⟨rfl, rfl⟩ := same flat.1
      exact same' flat.2

theorem absorbs (t : Tree) : Absorbs t.content t.children := by
  induction t with
  | mk n cs ih => exact absorbs_of ih

end Walk

/-- One walk through a tree makes of it the flat form, where the tree is. -/
theorem exec_flattenOnce (rep : Represents f kids) (shown : f.Shows kids x t) :
    ∃ g kids' changed, exec (flattenOnce x) f = some (.ok changed, g) ∧ g.count = f.count ∧
      Replaces f kids x t g kids' x t.flat ∧ (changed = true ↔ ¬ t.IsFlat) ∧
      (t.IsFlat → g = f ∧ kids' = kids) := by
  cases t with
  | mk n cs =>
    obtain ⟨g, kids', changed, count, ⟨k, bound, proceeds⟩, replaces, flag, same⟩ :=
      exec_enter (absorbs (.mk n cs)) false rep shown .ended (exec_isNested_top f x)
    refine ⟨g, kids', changed, ?_, count, replaces, by simpa using flag, same⟩
    obtain ⟨m, fuel⟩ := Nat.exists_eq_add_of_le (Nat.le_trans bound (shown.size_le_count rep))
    unfold flattenOnce
    rw [exec_get, fuel, proceeds m]
    cases m <;> rfl

/-- Wherever a tree stands, its flat form takes its place under the same top, and all other lists of
children and all nodes are as they were. The first walk does it and notes whether there was
something to flatten; the second changes nothing. -/
theorem exec_flattenAll (rep : Represents f kids) (read : exec (tree x) f = some (.ok t, f)) :
    ∃ g kids' changed, exec (flattenAll x) f = some (.ok (), g) ∧ Represents g kids' ∧
      exec (tree x) g = some (.ok t.flat, g) ∧ t.flat.IsFlat ∧ g.position x = f.position x ∧
      (∀ z < f.count, g.node? z = f.node? z) ∧ (∀ z < f.count, ¬ f.Above x z → kids' z = kids z) ∧
      exec (flattenOnce x) f = some (.ok changed, g) ∧ (changed = true ↔ ¬ t.IsFlat) ∧
      exec (flattenOnce x) g = some (.ok false, g) := by
  have shown := rep.shows_of_exec_tree read
  obtain ⟨g, kids', changed, first, count, replaces, flag, -⟩ := exec_flattenOnce rep shown
  obtain ⟨h, kids'', changed', second, -, -, flag', same⟩ :=
    exec_flattenOnce replaces.represents replaces.shows
  have isFlat := flat_isFlat t
  obtain ⟨rfl, rfl⟩ := same isFlat
  obtain rfl : changed' = false := by simpa [isFlat] using flag'
  refine ⟨_, _, changed, ?_, replaces.represents, replaces.represents.exec_tree replaces.shows,
    isFlat, replaces.position rep shown, replaces.nodes, fun z lt away => ?_, first, flag, second⟩
  · obtain ⟨m, fuel⟩ := Nat.exists_eq_add_one_of_ne_zero (Nat.ne_zero_of_lt shown.lt_count)
    unfold flattenAll
    rw [exec_get, fuel, flattenRepeat, exec_bind_ok first]
    cases changed with
    | false => rfl
    | true =>
      simp only [if_true]
      rw [flattenRepeat, exec_bind_ok second]
      rfl
  · rw [replaces.lists z lt fun inside => away ((shown.mem_ids_iff rep).1 inside), replace_self]

/-- Of two nested conjunctions one leaves its operand and the empty one vanishes. -/
theorem exec_flattenAll_nested : ∃ (f g : Forest) (t u : Tree), f.Reachable ∧
    exec (tree 4) f = some (.ok t, f) ∧ ¬ t.IsFlat ∧ exec (flattenAll 4) f = some (.ok (), g) ∧
    exec (tree 4) g = some (.ok u, g) ∧ u.children = [.mk ⟨1, .any, .nowhere, .fact "a"⟩ []] ∧
    f.position 4 = (some 6, some 5, none) ∧ g.position 4 = (some 6, some 5, none) := by
  have fact := Reachable.start.new (.fact "a") [] (by simp) rfl
  have single := fact.new (.op .and) [1] (by decide) rfl
  have empty := single.new (.op .and) [] (by simp) rfl
  have outer := empty.new (.op .and) [2, 3] (by decide) rfl
  have before := outer.new (.fact "b") [] (by simp) rfl
  have whole := before.new (.op .or) [5, 4] (by decide) rfl
  obtain ⟨kids, rep⟩ := whole.represents
  let t : Tree := .mk ⟨4, .any, .nowhere, .op .and⟩ [.mk ⟨2, .any, .nowhere, .op .and⟩
    [.mk ⟨1, .any, .nowhere, .fact "a"⟩ []], .mk ⟨3, .any, .nowhere, .op .and⟩ []]
  have nested : ¬ t.IsFlat := fun isFlat =>
    (isFlat.here (.inl rfl)) (.mk ⟨3, .any, .nowhere, .op .and⟩ []) (by simp [t, Tree.children]) rfl
  obtain ⟨g, kids', changed, ran, -, result, -, place, -⟩ :=
    exec_flattenAll (x := 4) (t := t) rep rfl
  exact ⟨_, g, t, _, whole, rfl, nested, ran, result, rfl, rfl, place⟩

end Forest

end TaskNet
