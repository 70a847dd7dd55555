import TaskNet.Proofs.Tree.ChildLists

/-!
Relinking as operations on lists. In a forest that represents lists of children, appending,
inserting, detaching and replacing come to an end without a fault, and the forest that is left
represents the lists that the operation on lists gives.
-/

namespace TaskNet

open ChildLists Surgery

variable {x : NodeId}

namespace Forest

variable {f g : Forest} {kids : ChildLists} {p : NodeId}

namespace Represents

/-- Work that ends with a check ends well when every representation passes the check. -/
theorem settled {kids' : ChildLists} (relinked : Relinked f g)
    (result : Relinked f g → Represents g kids') {test : Forest → Bool}
    (passed : ∀ {g kids}, Represents g kids → test g = true) (fault : Fault) :
    ∃ g', exec (require test fault) g = some (.ok (), g') ∧ Represents g' kids' ∧ Relinked f g' :=
  ⟨g, exec_require test fault (passed (result relinked)), result relinked, relinked⟩

variable (h : Represents f kids)
include h

theorem clean (x : NodeId) : (f.startsClean x && f.endsClean x) = true := by
  rw [h.startsClean, h.endsClean]
  rfl

/-- A change at a child is a change of one list, since only one holds the child. -/
theorem eq_update (member : x ∈ kids p) {change : List NodeId → List NodeId}
    (idle : ∀ l, x ∉ l → change l = l) :
    (fun z => change (kids z)) = Function.update kids p (change (kids p)) := by
  funext z
  by_cases same : z = p
  · rw [same, Function.update_self]
  · rw [Function.update_of_ne same]
    exact idle _ fun inside => same (h.parent_unique inside member)

theorem erase_eq_update {a b : List NodeId} (list : kids p = a ++ x :: b) :
    (fun z => (kids z).erase x) = Function.update kids p (a ++ b) := by
  have member : x ∈ kids p := by simp [list]
  rw [h.eq_update member fun l absent => List.erase_of_not_mem absent, list,
    List.erase_append_right _ (h.once list).1, List.erase_cons_head]

theorem putAfter_eq_update {s : NodeId} {a b : List NodeId} (c : NodeId)
    (list : kids p = a ++ s :: b) :
    (fun z => putAfter s c (kids z)) = Function.update kids p (a ++ s :: c :: b) := by
  have sibling : s ∈ kids p := by simp [list]
  rw [h.eq_update sibling fun l absent => putAfter_of_not_mem c absent, list,
    putAfter_split c (h.once list).1]

theorem exec_append {c : NodeId} (parent : p < f.count) (child : c < f.count) (free : kids.Loose c)
    (apart : ¬ f.Above c p) :
    ∃ g, exec (append (some p) (some c)) f = some (.ok (), g) ∧
      Represents g (Function.update kids p (kids p ++ [c])) ∧ Relinked f g := by
  have alone := h.loose free
  simp only [position, Prod.mk.injEq] at alone
  have loose := exec_require (·.isLoose c) .appendOfAttached (h.isLoose_iff.2 free)
  have last : (f.setLink .parent c (some p)).link .last p = (kids p).getLast? := by
    simp [link_setLink, h.last]
  have whole := (List.append_nil (kids p)).symm
  have inside : ∀ z, (kids p).getLast? = some z → z < f.count :=
    fun z ends => (h.bound (List.mem_of_getLast? ends)).2
  unfold append
  simp only [exec_bind_ok loose, exec_setLink, exec_link, last]
  cases ends : (kids p).getLast? <;> simp only [exec_setLink]
  all_goals
    refine settled ⟨by simp, by simp, by simp, by simp⟩
      (fun relinked => h.attach relinked whole parent child free apart ?_) (fun h => h.clean p) _
    intro s x
    cases s <;> simp [link_setLink, leftOf, rightOf, linkAt, ends] <;> grind

theorem exec_insert {s c : NodeId} (sibling : s ∈ kids p) (child : c < f.count)
    (free : kids.Loose c) (apart : ¬ f.Above c p) :
    ∃ g, exec (Surgery.insert (some s) (some c)) f = some (.ok (), g) ∧
      Represents g (fun z => putAfter s c (kids z)) ∧ Relinked f g := by
  have alone := h.loose free
  simp only [position, Prod.mk.injEq] at alone
  have loose := exec_require (·.isLoose c) .insertOfAttached (h.isLoose_iff.2 free)
  obtain ⟨parent, present⟩ := h.bound sibling
  obtain ⟨a, b, list⟩ := List.append_of_mem sibling
  have here := h.linked list
  simp only [position, Prod.mk.injEq] at here
  have different : s ≠ c := by
    rintro rfl
    exact free p sibling
  have next : ((f.setLink .parent c (some p)).setLink .before c (some s)).link .after s =
      b.head? := by
    simp [link_setLink, here]
  have whole : kids p = (a ++ [s]) ++ b := by simp [list]
  have inside : ∀ z, b.head? = some z → z < f.count :=
    fun z starts => (h.bound (x := p) (by simp [list, List.mem_of_head? starts])).2
  rw [h.putAfter_eq_update c list, ← List.singleton_append (x := s), ← List.append_assoc]
  unfold Surgery.insert
  simp only [exec_link, here.1, exec_bind_ok loose, exec_setLink, next]
  cases starts : b.head? <;> simp only [exec_setLink]
  all_goals
    refine settled ⟨by simp, by simp, by simp, by simp⟩
      (fun relinked => h.attach relinked whole parent child free apart ?_)
      (fun h => h.endsClean p) _
    intro t x
    cases t <;> simp [link_setLink, leftOf, rightOf, linkAt, starts] <;> grind

theorem exec_detach (member : x ∈ kids p) :
    ∃ g, exec (detach (some x)) f = some (.ok (), g) ∧
      Represents g (fun z => (kids z).erase x) ∧ Relinked f g := by
  obtain ⟨parent, present⟩ := h.bound member
  obtain ⟨a, b, list⟩ := List.append_of_mem member
  have here := h.linked list
  simp only [position, Prod.mk.injEq] at here
  have unique := h.once list
  have left : ∀ y, a.getLast? = some y → y < f.count ∧ y ≠ x := by
    intro y ends
    have inside := List.mem_of_getLast? ends
    exact ⟨(h.bound (x := p) (by simp [list, inside])).2, by rintro rfl; exact unique.1 inside⟩
  have right : ∀ z, b.head? = some z → z < f.count ∧ z ≠ x := by
    intro z starts
    have inside := List.mem_of_head? starts
    exact ⟨(h.bound (x := p) (by simp [list, inside])).2, by rintro rfl; exact unique.2 inside⟩
  rw [h.erase_eq_update list]
  unfold detach
  simp only [exec_link, here]
  cases ends : a.getLast? <;> cases starts : b.head? <;> simp only [exec_setLink]
  all_goals
    refine settled ⟨by simp, by simp, by simp, by simp⟩ (fun relinked => h.remove relinked list ?_)
      (fun h => h.clean p) _
    intro t y
    cases t <;> simp [link_setLink, leftOf, rightOf, linkAt, ends, starts] <;> grind

theorem exec_release (x : NodeId) :
    ∃ g, exec (release x) f = some (.ok (), g) ∧ Represents g (fun z => (kids z).erase x) ∧
      Relinked f g := by
  unfold release
  rw [exec_link]
  cases above : f.link .parent x with
  | none =>
    have free := h.parent_eq_none_iff.1 above
    have lists : (fun z => (kids z).erase x) = kids :=
      funext fun z => List.erase_of_not_mem (free z)
    rw [lists]
    exact ⟨f, rfl, h, .refl f⟩
  | some p => exact h.exec_detach (h.isChild_iff.1 above)

/-- The new node takes the place of the old one, wherever it was before. -/
theorem exec_replace {old new : NodeId} (different : old ≠ new) (present : new < f.count)
    (apart : ∀ p, f.IsChild old p → ¬ f.Above new p) :
    ∃ g, exec (replace (some old) (some new)) f = some (.ok (some new), g) ∧
      Represents g (fun z => ((kids z).erase new).replace old new) ∧ Relinked f g := by
  obtain ⟨f₁, released, taken, relinked₁⟩ := h.exec_release new
  have free : Loose (fun z => (kids z).erase new) new := fun z => (h.nodup z).not_mem_erase
  unfold replace
  rw [if_neg (by simpa using different)]
  simp only [exec_bind_ok released, exec_link]
  cases above : f₁.link .parent old with
  | none =>
    have absent := taken.parent_eq_none_iff.1 above
    have lists : (fun z => ((kids z).erase new).replace old new) = fun z => (kids z).erase new :=
      funext fun z => List.replace_of_not_mem (absent z)
    rw [lists]
    exact ⟨f₁, rfl, taken, relinked₁⟩
  | some p =>
    have sibling := taken.isChild_iff.1 above
    have under : f.IsChild old p := h.isChild_iff.2 (List.mem_of_mem_erase sibling)
    have apart₁ : ¬ f₁.Above new p := fun path => apart p under <| path.mono fun c x child =>
      h.isChild_iff.2 (List.mem_of_mem_erase (taken.isChild_iff.1 child))
    obtain ⟨f₂, inserted, both, relinked₂⟩ :=
      taken.exec_insert sibling (relinked₁.count ▸ present) free apart₁
    obtain ⟨f₃, detached, result, relinked₃⟩ := both.exec_detach (mem_putAfter new sibling)
    simp only [erase_putAfter] at result
    refine ⟨f₃, ?_, result, (relinked₁.trans relinked₂).trans relinked₃⟩
    simp only [Option.isSome_some, if_true, exec_bind_ok inserted, exec_bind_ok detached]
    rfl

end Represents

end Forest

end TaskNet
