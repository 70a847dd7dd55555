import TaskNet.Proofs.Tree.Cloning

/-!
Calls on a forest, one after another. From the forest that holds the root alone, and as long as no
node is put under itself, every call comes to an end. The links always say what ordered lists of
children say, and a call does to the lists what the operation on lists does. A call that is refused
changes nothing, and the checks at the end of a call never fail.
-/

namespace TaskNet

open ChildLists Function List Surgery

variable {operands : List (Option NodeId)} {y : NodeId}

/-- A call that makes nodes or relinks them. -/
inductive Call where
  | new (node : Node) (operands : List (Option NodeId))
  | named (kind : Kind) (name : String)
  | append (parent child : Option NodeId)
  | insert (sibling child : Option NodeId)
  | detach (node : Option NodeId)
  | replace (old new : Option NodeId)
  | clone (node : Option NodeId)

namespace Call

/-- What a call does. It answers with a node if it has one to give. -/
def work : Call → Surgery (Option NodeId)
  | .new n operands => do return some (← compose n operands)
  | .named k name => do return some (← createNamed k name)
  | .append p c => do
    Surgery.append p c
    return none
  | .insert s c => do
    Surgery.insert s c
    return none
  | .detach x => do
    Surgery.detach x
    return none
  | .replace x r => Surgery.replace x r
  | .clone x => do return some (← Surgery.clone x)

def given : Call → List (Option NodeId)
  | .new _ operands => operands
  | .named _ _ => []
  | .append p c => [p, c]
  | .insert s c => [s, c]
  | .detach x => [x]
  | .replace x r => [x, r]
  | .clone x => [x]

def puts (f : Forest) : Call → Option (NodeId × NodeId)
  | .append (some p) (some c) => some (c, p)
  | .insert (some s) (some c) => (f.link .parent s).map fun p => (c, p)
  | .replace (some x) (some r) => (f.link .parent x).map fun p => (r, p)
  | _ => none

/-- The nodes that a call is given are there, and none is put under itself. -/
structure Allowed (f : Forest) (call : Call) : Prop where
  present : ∀ x, some x ∈ call.given → x < f.count
  apart : ∀ c p, call.puts f = some (c, p) → ¬ f.Above c p

/-- What a call needs is not there, and the fault says so. -/
inductive Refused (kids : ChildLists) : Call → Fault → Prop
  | appendToNothing {c} : Refused kids (.append none c) .appendOfNothing
  | appendOfNothing {p} : Refused kids (.append p none) .appendOfNothing
  | appendOfAttached {p c} : ¬ kids.Loose c →
    Refused kids (.append (some p) (some c)) .appendOfAttached
  | insertAfterNothing {c} : Refused kids (.insert none c) .insertOfNothing
  | insertOfNothing {s} : Refused kids (.insert s none) .insertOfNothing
  | insertAfterTop {s c} : kids.Loose s →
    Refused kids (.insert (some s) (some c)) .insertAfterTop
  | insertOfAttached {s c} : ¬ kids.Loose s → ¬ kids.Loose c →
    Refused kids (.insert (some s) (some c)) .insertOfAttached
  | detachOfNothing : Refused kids (.detach none) .detachOfTop
  | detachOfTop {x} : kids.Loose x → Refused kids (.detach (some x)) .detachOfTop

/-- After some operands were taken, those that come next are taken too, up to the first that is not
there or that is a child already. -/
inductive Takes (kids : ChildLists) :
    List NodeId → List (Option NodeId) → List NodeId → Except Fault Unit → Prop
  | done {taken} : Takes kids taken [] [] (.ok ())
  | nothing {taken rest} : Takes kids taken (none :: rest) [] (.error .appendOfNothing)
  | attached {taken c rest} : ¬ kids.Loose c ∨ c ∈ taken →
    Takes kids taken (some c :: rest) [] (.error .appendOfAttached)
  | next {taken c rest cs r} : kids.Loose c → c ∉ taken → Takes kids (taken ++ [c]) rest cs r →
    Takes kids taken (some c :: rest) (c :: cs) r

/-- What a call answers, and the forest and the lists of children that it leaves. -/
inductive Outcome (f : Forest) (kids : ChildLists) :
    Call → Except Fault (Option NodeId) → Forest → ChildLists → Prop
  | refused {call e} : Refused kids call e → Outcome f kids call (.error e) f kids
  | appended {p c g} : kids.Loose c →
    Outcome f kids (.append (some p) (some c)) (.ok none) g
      (update kids p (kids p ++ [c]))
  | inserted {p s c g} : s ∈ kids p → kids.Loose c →
    Outcome f kids (.insert (some s) (some c)) (.ok none) g fun z => putAfter s c (kids z)
  | detached {p x g} : x ∈ kids p →
    Outcome f kids (.detach (some x)) (.ok none) g fun z => (kids z).erase x
  | replaced {x r g} : x ≠ r →
    Outcome f kids (.replace (some x) (some r)) (.ok (some r)) g
      fun z => ((kids z).erase r).replace x r
  | replacedBySame {x} : Outcome f kids (.replace x x) (.ok x) f kids
  | replacedByNothing {x} : Outcome f kids (.replace (some x) none) (.error .missingNode) f kids
  | replacedNothing {r g} :
    Outcome f kids (.replace none (some r)) (.error .missingNode) g fun z => (kids z).erase r
  | made {n operands cs r g} : Takes kids [] operands cs r →
    g.node? f.count = some { n with id := f.count } →
    Outcome f kids (.new n operands) (r.map fun _ => some f.count) g
      (update kids f.count cs)
  | named {k name c g} : Content.named? k name = some c →
    g.node? f.count = some { Forest.blank f.count with content := c } →
    Outcome f kids (.named k name) (.ok (some f.count)) g kids
  | unnamed {k name g} : Content.named? k name = none →
    Outcome f kids (.named k name) (.error (.namedOnUnnamed k)) g kids
  | copied {x t g kids'} : exec (tree x) f = some (.ok t, f) →
    exec (tree f.count) g = some (.ok (t.copy f.count).1, g) → kids'.Loose f.count →
    (∀ z < f.count, kids' z = kids z) →
    Outcome f kids (.clone (some x)) (.ok (some f.count)) g kids'
  | copiedNothing {g} : Outcome f kids (.clone none) (.error .missingNode) g kids

end Call

namespace Forest

/-- A forest that allowed calls lead to. -/
inductive Reachable : Forest → Prop
  | start : Reachable .start
  | call {f g : Forest} (call : Call) {answer : Except Fault (Option NodeId)} :
    Reachable f → call.Allowed f → exec call.work f = some (answer, g) → Reachable g

variable {f g : Forest} {kids : ChildLists}

/-- A new node can be put over nodes that are there. -/
theorem Reachable.new (reached : f.Reachable) (c : Content) (operands : List NodeId)
    (present : ∀ x ∈ operands, x < f.count) {answer : Except Fault (Option NodeId)}
    (ran : exec (Call.new { blank 0 with content := c } (operands.map some)).work f =
    some (answer, g)) : g.Reachable := by
  refine .call _ reached ⟨fun x given => present x ?_, by simp [Call.puts]⟩ ran
  simpa [Call.given] using given

theorem represents_start : Represents .start fun _ => [] := by
  have links : ∀ s x, start.link s x = none := by
    intro s x
    cases x with
    | zero => cases s <;> rfl
    | succ x => exact link_eq_none_of_count_le (Nat.succ_le_succ (Nat.zero_le x)) s
  refine ⟨fun x => links _ x, fun x => links _ x, ?_, fun _ => ?_, fun _ => nodup_nil, ?_,
    ⟨fun x => ⟨x, fun c child => ?_⟩⟩⟩
  · intro x l c r list
    simp at list
  · simp only [position, links]
  · intro x c member
    cases member
  · rw [IsChild, links] at child
    cases child

namespace Represents

theorem exec_append_attached (rep : Represents f kids) {p c : NodeId} (held : ¬ kids.Loose c) :
    exec (append (some p) (some c)) f = some (.error .appendOfAttached, f) := by
  unfold append
  exact exec_bind_error (exec_require_not _ _ fun loose => held (rep.isLoose_iff.1 loose)) _

end Represents

end Forest

namespace Call

open Forest

variable {f g : Forest} {kids kids' : ChildLists} {call : Call} {e : Fault}
  {answer : Except Fault (Option NodeId)}

theorem Refused.exec (rep : Represents f kids) (refused : Refused kids call e) :
    exec call.work f = some (.error e, f) := by
  cases refused with
  | appendToNothing => rfl
  | @appendOfNothing p => cases p <;> rfl
  | appendOfAttached held => exact exec_bind_error (rep.exec_append_attached held) _
  | insertAfterNothing => rfl
  | @insertOfNothing s => cases s <;> rfl
  | insertAfterTop free =>
    apply exec_bind_error
    unfold Surgery.insert
    simp only [exec_link, rep.parent_eq_none_iff.2 free]
    rfl
  | @insertOfAttached s c under held =>
    apply exec_bind_error
    unfold Surgery.insert
    rw [exec_link]
    cases above : f.link .parent s with
    | none => exact absurd (rep.parent_eq_none_iff.1 above) under
    | some p =>
      exact exec_bind_error (exec_require_not _ _ fun loose => held (rep.isLoose_iff.1 loose)) _
  | detachOfNothing => rfl
  | detachOfTop free =>
    apply exec_bind_error
    unfold Surgery.detach
    simp only [exec_link, rep.parent_eq_none_iff.2 free]
    rfl

/-- A call can be refused for one reason only. -/
theorem Refused.unique {e' : Fault} (first : Refused kids call e) (second : Refused kids call e') :
    e = e' := by
  cases first <;> cases second <;> first | rfl | contradiction

theorem Takes.ends {taken cs : List NodeId}
    {r : Except Fault Unit} (takes : Takes kids taken operands cs r) :
    r = .ok () ∨ r = .error .appendOfNothing ∨ r = .error .appendOfAttached := by
  induction takes with
  | done => exact .inl rfl
  | nothing => exact .inr (.inl rfl)
  | attached => exact .inr (.inr rfl)
  | next _ _ _ ih => exact ih

theorem exec_create (n : Node) (f : Forest) :
    exec (create n) f = some (.ok f.count, f.grow.write f.count n) :=
  rfl

theorem loose_update_iff (empty : kids y = []) {taken : List NodeId} {c : NodeId} :
    Loose (update kids y taken) c ↔ kids.Loose c ∧ c ∉ taken := by
  constructor
  · intro free
    refine ⟨fun z member => ?_, by simpa using free y⟩
    by_cases same : z = y
    · rw [same, empty] at member
      cases member
    · exact free z (by rwa [update_of_ne same])
  · rintro ⟨free, absent⟩
    exact .update absent fun z _ => free z

theorem exec_operands (empty : kids y = []) (free : kids.Loose y) :
    ∀ (operands : List (Option NodeId)) {f : Forest} {taken : List NodeId},
      Represents f (update kids y taken) → y < f.count → y ∉ taken →
      (∀ c, some c ∈ operands → c < f.count ∧ c ≠ y) →
      ∃ r g cs, exec (operands.forM fun c => Surgery.append (some y) c) f = some (r, g) ∧
        Represents g (update kids y (taken ++ cs)) ∧ Relinked f g ∧
        Takes kids taken operands cs r
  | [], f, taken, rep, _, _, _ =>
    ⟨.ok (), f, [], rfl, by rwa [append_nil], .refl f, .done⟩
  | none :: rest, f, taken, rep, _, _, _ =>
    ⟨_, f, [], exec_bind_error rfl _, by rwa [append_nil], .refl f, .nothing⟩
  | some c :: rest, f, taken, rep, inside, away, present => by
    by_cases loose : Loose (update kids y taken) c
    · obtain ⟨here, other⟩ := present c mem_cons_self
      have top : Loose (update kids y taken) y := (loose_update_iff empty).2 ⟨free, away⟩
      obtain ⟨f₁, ran, rep₁, relinked₁⟩ := rep.exec_append inside here loose
        (rep.not_above_of_loose top other)
      rw [update_idem, update_self] at rep₁
      obtain ⟨r, g, cs, rans, result, relinked, takes⟩ := exec_operands empty free rest rep₁
        (relinked₁.count ▸ inside) (by simp [away, other.symm]) fun d member =>
          relinked₁.count ▸ present d (mem_cons_of_mem _ member)
      obtain ⟨first, second⟩ := (loose_update_iff empty).1 loose
      refine ⟨r, g, c :: cs, ?_, ?_, relinked₁.trans relinked, .next first second takes⟩
      · exact (exec_bind_ok ran _).trans rans
      · simpa using result
    · rw [loose_update_iff empty, not_and_or, not_not] at loose
      refine ⟨_, f, [], exec_bind_error (rep.exec_append_attached ?_) _, by rwa [append_nil],
        .refl f, .attached loose⟩
      rwa [loose_update_iff empty, not_and_or, not_not]

/-- A call comes to an end, with what the lists say, and the nodes that were there carry what they
carried. -/
def Runs (f : Forest) (kids : ChildLists) (call : Call) : Prop :=
  ∃ answer g kids', exec call.work f = some (answer, g) ∧ Represents g kids' ∧
    Outcome f kids call answer g kids' ∧ ∀ z < f.count, g.node? z = f.node? z

variable (rep : Represents f kids)
include rep

theorem Refused.runs (refused : Refused kids call e) : Runs f kids call :=
  ⟨_, f, kids, refused.exec rep, rep, .refused refused, fun _ _ => rfl⟩

theorem runs_new {n : Node} (allowed : Allowed f (.new n operands)) :
    Runs f kids (.new n operands) := by
  have empty := rep.kids_eq_nil (Nat.le_refl f.count)
  have start : Represents (f.grow.write f.count n) (update kids f.count []) := by
    rw [← empty, update_eq_self]
    exact rep.grow.write f.count n
  obtain ⟨r, g, cs, ran, result, relinked, takes⟩ := exec_operands empty
    (rep.loose_of_count_le (Nat.le_refl _)) operands start (by simp) (by simp) fun c member => by
      have present := allowed.present c member
      exact ⟨by simpa using Nat.lt_succ_of_lt present, Nat.ne_of_lt present⟩
  have carried : g.node? f.count = some { n with id := f.count } := by
    rw [relinked.nodes, node?_made]
  have kept : ∀ z < f.count, g.node? z = f.node? z := by
    intro z old
    rw [relinked.nodes, node?_made_of_lt old]
  refine ⟨_, g, _, ?_, result, .made takes carried, kept⟩
  have composed : exec (compose n operands) f = some (r.map fun _ => f.count, g) := by
    unfold compose
    rw [exec_bind_ok (exec_create n f)]
    cases r with
    | error e => exact exec_bind_error ran _
    | ok u => exact exec_bind_ok ran _
  cases r with
  | error e => exact exec_bind_error composed _
  | ok u => exact exec_bind_ok composed _

theorem runs_named (k : Kind) (name : String) : Runs f kids (.named k name) := by
  cases content : Content.named? k name with
  | none =>
    have failed : exec (createNamed k name) f = some (.error (.namedOnUnnamed k), f.grow) := by
      unfold createNamed
      rw [exec_alloc, content]
      rfl
    exact ⟨_, f.grow, kids, exec_bind_error failed _, rep.grow, .unnamed content,
      fun _ old => node?_grow_of_lt old⟩
  | some c =>
    let g := f.grow.write f.count { blank f.count with content := c }
    have created : exec (createNamed k name) f = some (.ok f.count, g) := by
      unfold createNamed
      rw [exec_alloc, content]
      rfl
    exact ⟨_, g, kids, exec_bind_ok created _, rep.grow.write _ _, .named content (node?_made f _),
      fun _ old => node?_made_of_lt old _⟩

theorem runs_append {p c : Option NodeId} (allowed : Allowed f (.append p c)) :
    Runs f kids (.append p c) := by
  cases p with
  | none => exact Refused.runs rep .appendToNothing
  | some p =>
    cases c with
    | none => exact Refused.runs rep .appendOfNothing
    | some c =>
      by_cases free : kids.Loose c
      · obtain ⟨g, ran, result, relinked⟩ := rep.exec_append (allowed.present p (by simp [given]))
          (allowed.present c (by simp [given])) free (allowed.apart c p rfl)
        exact ⟨_, g, _, exec_bind_ok ran _, result, .appended free,
          fun z _ => congrFun relinked.nodes z⟩
      · exact Refused.runs rep (.appendOfAttached free)

theorem runs_insert {s c : Option NodeId} (allowed : Allowed f (.insert s c)) :
    Runs f kids (.insert s c) := by
  cases s with
  | none => exact Refused.runs rep .insertAfterNothing
  | some s =>
    cases c with
    | none => exact Refused.runs rep .insertOfNothing
    | some c =>
      cases above : f.link .parent s with
      | none => exact Refused.runs rep (.insertAfterTop (rep.parent_eq_none_iff.1 above))
      | some p =>
        have sibling := rep.isChild_iff.1 above
        by_cases free : kids.Loose c
        · obtain ⟨g, ran, result, relinked⟩ := rep.exec_insert sibling
            (allowed.present c (by simp [given])) free (allowed.apart c p (by simp [puts, above]))
          exact ⟨_, g, _, exec_bind_ok ran _, result, .inserted sibling free,
            fun z _ => congrFun relinked.nodes z⟩
        · exact Refused.runs rep (.insertOfAttached (fun top => top p sibling) free)

theorem runs_detach (x : Option NodeId) : Runs f kids (.detach x) := by
  cases x with
  | none => exact Refused.runs rep .detachOfNothing
  | some x =>
    cases above : f.link .parent x with
    | none => exact Refused.runs rep (.detachOfTop (rep.parent_eq_none_iff.1 above))
    | some p =>
      have member := rep.isChild_iff.1 above
      obtain ⟨g, ran, result, relinked⟩ := rep.exec_detach member
      exact ⟨_, g, _, exec_bind_ok ran _, result, .detached member,
        fun z _ => congrFun relinked.nodes z⟩

theorem runs_replace {x r : Option NodeId} (allowed : Allowed f (.replace x r)) :
    Runs f kids (.replace x r) := by
  by_cases same : x = r
  · subst same
    have kept : exec (Surgery.replace x x) f = some (.ok x, f) := by
      unfold Surgery.replace
      rw [if_pos rfl]
      rfl
    exact ⟨_, f, kids, kept, rep, .replacedBySame, fun _ _ => rfl⟩
  · cases r with
    | none =>
      cases x with
      | none => exact absurd rfl same
      | some x => exact ⟨_, f, kids, rfl, rep, .replacedByNothing, fun _ _ => rfl⟩
    | some r =>
      cases x with
      | none =>
        -- The new node has left its place by then.
        obtain ⟨g, ran, result, relinked⟩ := rep.exec_release r
        have failed : exec (Surgery.replace none (some r)) f = some (.error .missingNode, g) := by
          unfold Surgery.replace
          rw [if_neg same]
          exact exec_bind_ok ran _
        exact ⟨_, g, _, failed, result, .replacedNothing,
          fun z _ => congrFun relinked.nodes z⟩
      | some x =>
        have different : x ≠ r := fun equal => same (congrArg some equal)
        obtain ⟨g, ran, result, relinked⟩ := rep.exec_replace different
          (allowed.present r (by simp [given])) fun p above => by
            have above : f.link .parent x = some p := above
            exact allowed.apart r p (by simp [puts, above])
        exact ⟨_, g, _, ran, result, .replaced different,
          fun z _ => congrFun relinked.nodes z⟩

theorem runs_clone {x : Option NodeId} (allowed : Allowed f (.clone x)) :
    Runs f kids (.clone x) := by
  cases x with
  | none =>
    have failed : exec (Surgery.clone none) f = some (.error .missingNode, f.grow) := rfl
    exact ⟨_, f.grow, kids, exec_bind_error failed _, rep.grow, .copiedNothing,
      fun _ old => node?_grow_of_lt old⟩
  | some x =>
    obtain ⟨t, shown⟩ := rep.exists_tree (allowed.present x (by simp [given]))
    obtain ⟨g, kids', ran, copies, free, copied, -⟩ := exec_clone rep shown
    exact ⟨_, g, kids', exec_bind_ok ran _, copies.represents,
      .copied (rep.exec_tree shown) (copies.represents.exec_tree copied) free
        fun z inside => copies.lists z inside (Nat.ne_of_lt inside), copies.nodes⟩

theorem Allowed.runs (allowed : call.Allowed f) : Runs f kids call := by
  cases call with
  | new n operands => exact runs_new rep allowed
  | named k name => exact runs_named rep k name
  | append p c => exact runs_append rep allowed
  | insert s c => exact runs_insert rep allowed
  | detach x => exact runs_detach rep x
  | replace x r => exact runs_replace rep allowed
  | clone x => exact runs_clone rep allowed

end Call

namespace Forest

theorem Reachable.represents (reached : f.Reachable) : ∃ kids, Represents f kids := by
  induction reached with
  | start => exact ⟨_, represents_start⟩
  | call _ _ allowed ran ih =>
    obtain ⟨kids, rep⟩ := ih
    obtain ⟨answer, g, kids', ran', result, -⟩ := allowed.runs rep
    cases ran.symm.trans ran'
    exact ⟨kids', result⟩

end Forest

end TaskNet
