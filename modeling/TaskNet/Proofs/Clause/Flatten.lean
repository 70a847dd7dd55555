import TaskNet.Clause.Flatten
import TaskNet.Proofs.Tree.Structure

/-!
Flattening against a reference that works from the leaves up: once the children of a conjunction or
disjunction are flat, each child with the same operator gives way to its own children. Nothing of
the pool but the trees taken out of the result changes.
-/

namespace TaskNet.Tree

open List

variable {n : Node} {content : Content} {cs : List Tree} {o : Operator} {t : Tree}

/-- What a child contributes to an operator: its operands if it is the same operator, or itself. -/
def operands (content : Content) (c : Tree) : List Tree :=
  if c.content = content then c.children else [c]

/-- The children of a node after those with the node's operator gave way to their own. Only
conjunction and disjunction absorb. -/
def absorb (content : Content) (cs : List Tree) : List Tree :=
  if content = .op .and ∨ content = .op .or then cs.flatMap (operands content) else cs

mutual

def flat : Tree → Tree
  | mk n cs =>
    if n.kind == .error then mk n cs else mk n (absorb n.content (flatEach cs))

def flatEach : List Tree → List Tree
  | [] => []
  | c :: cs => flat c :: flatEach cs

end

/-- No conjunction that a traversal reaches has a conjunction for a child, and likewise for
disjunctions. -/
def IsFlat (t : Tree) : Prop :=
  t.Throughout fun s =>
    s.content = .op .and ∨ s.content = .op .or → ∀ c ∈ s.children, c.content ≠ s.content

theorem flatEach_eq (cs : List Tree) : flatEach cs = cs.map flat := by
  induction cs with
  | nil => rfl
  | cons c cs ih => rw [flatEach, ih, map_cons]

theorem flat_error (error : n.kind = .error) (cs : List Tree) : flat (mk n cs) = mk n cs := by
  simp [flat, error]

theorem flat_sound (sound : n.kind ≠ .error) (cs : List Tree) :
    flat (mk n cs) = mk n (absorb n.content (cs.map flat)) := by
  simp [flat, sound, flatEach_eq]

@[simp] theorem flat_node (t : Tree) : (flat t).node = t.node := by
  cases t with
  | mk n cs => by_cases error : n.kind = .error <;> simp [flat, error]

@[simp] theorem flat_content (t : Tree) : (flat t).content = t.content := by
  simp [content]

theorem absorb_connective (connective : content = .op .and ∨ content = .op .or) (cs : List Tree) :
    absorb content cs = cs.flatMap (operands content) := if_pos connective

theorem absorb_other (other : ¬ (content = .op .and ∨ content = .op .or)) (cs : List Tree) :
    absorb content cs = cs := if_neg other

/-- The pass flattens a tree and, of the pool, changes the trees taken out only. -/
def Flattens (t : Tree) : Prop :=
  ∀ p : Pool, (flatten p t).1 = flat t ∧ (flatten p t).2.next = p.next ∧
    (flatten p t).2.stop = p.stop

def Splices (o : Operator) (cs : List Tree) : Prop :=
  ∀ p : Pool, (splice o p cs).1 = (cs.map flat).flatMap (operands (.op o)) ∧
    (splice o p cs).2.next = p.next ∧ (splice o p cs).2.stop = p.stop

theorem flattenList_flattens (each : ∀ c ∈ cs, Flattens c) (p : Pool) :
    (flattenList p cs).1 = cs.map flat ∧ (flattenList p cs).2.next = p.next ∧
      (flattenList p cs).2.stop = p.stop := by
  induction cs generalizing p with
  | nil => exact ⟨rfl, rfl, rfl⟩
  | cons c cs ih =>
    obtain ⟨headTree, headNext, headStop⟩ := each c (by simp) p
    obtain ⟨tailTrees, tailNext, tailStop⟩ :=
      ih (forall_mem_cons.mp each).2 (flatten p c).2
    rw [flattenList]
    exact ⟨by simp [headTree, tailTrees], tailNext.trans headNext, tailStop.trans headStop⟩

/-- A list is spliced by flattening its trees, except that trees with the operator are spliced
themselves. -/
theorem splice_splices (connective : o = .and ∨ o = .or) {cs : List Tree}
    (each : ∀ c ∈ cs, Flattens c) (nested : ∀ c ∈ cs, c.content = .op o → Splices o c.children) :
    Splices o cs := by
  induction cs with
  | nil => exact fun p => ⟨rfl, rfl, rfl⟩
  | cons c cs ih =>
    have tail := ih (forall_mem_cons.mp each).2
      (forall_mem_cons.mp nested).2
    intro p
    cases c with
    | mk n ds =>
      rw [splice, map_cons, flatMap_cons]
      by_cases same : n.content = .op o
      · have sound : n.kind ≠ .error := by simp [Node.kind, same, Content.kind]
        have absorbed : operands (.op o) (flat (mk n ds)) =
            (ds.map flat).flatMap (operands (.op o)) := by
          rw [operands, flat_content, if_pos (show (mk n ds).content = .op o from same),
            flat_sound sound, same, absorb_connective (by simpa using connective)]
          rfl
        obtain ⟨innerTrees, innerNext, innerStop⟩ := nested (mk n ds) (by simp) same p
        obtain ⟨laterTrees, laterNext, laterStop⟩ := tail ((splice o p ds).2.discard (mk n []))
        rw [if_pos same, absorbed, ← laterTrees]
        exact ⟨congrArg (· ++ _) innerTrees, laterNext.trans innerNext, laterStop.trans innerStop⟩
      · have kept : operands (.op o) (flat (mk n ds)) = [flat (mk n ds)] := by
          rw [operands, flat_content, if_neg (show (mk n ds).content ≠ .op o from same)]
        obtain ⟨headTree, headNext, headStop⟩ := each (mk n ds) (by simp) p
        obtain ⟨laterTrees, laterNext, laterStop⟩ := tail (flatten p (mk n ds)).2
        rw [if_neg same, kept, ← laterTrees]
        exact ⟨congrArg (· :: _) headTree, laterNext.trans headNext, laterStop.trans headStop⟩

theorem flatten_flattens (t : Tree) : Flattens t ∧
    ∀ o, o = .and ∨ o = .or → Splices o t.children := by
  induction t with
  | mk n cs ih =>
    have each : ∀ c ∈ cs, Flattens c := fun c member => (ih c member).1
    have spliced : ∀ o, o = .and ∨ o = .or → Splices o cs := fun o connective =>
      splice_splices connective each fun c member _ => (ih c member).2 o connective
    refine ⟨fun p => ?_, spliced⟩
    rw [flatten.eq_def]
    dsimp only
    split
    · next error => exact ⟨(flat_error (by simp [Node.kind, error, Content.kind]) cs).symm,
        rfl, rfl⟩
    · next content =>
      obtain ⟨trees, next, stop⟩ := spliced .and (.inl rfl) p
      rw [flat_sound (by simp [Node.kind, content, Content.kind]), content,
        absorb_connective (.inl rfl), ← trees]
      exact ⟨rfl, next, stop⟩
    · next content =>
      obtain ⟨trees, next, stop⟩ := spliced .or (.inr rfl) p
      rw [flat_sound (by simp [Node.kind, content, Content.kind]), content,
        absorb_connective (.inr rfl), ← trees]
      exact ⟨rfl, next, stop⟩
    · next notError notAnd notOr =>
      obtain ⟨trees, next, stop⟩ := flattenList_flattens each p
      have sound : n.kind ≠ .error := by
        intro error
        obtain ⟨was, problem, content⟩ := content_of_error error
        exact notError was problem content
      rw [flat_sound sound, absorb_other (not_or.mpr ⟨notAnd, notOr⟩), ← trees]
      exact ⟨rfl, next, stop⟩

theorem splices (connective : o = .and ∨ o = .or) (cs : List Tree) : Splices o cs :=
  splice_splices connective (fun c _ => (flatten_flattens c).1)
    fun c _ _ => (flatten_flattens c).2 o connective

theorem mem_operands {c d : Tree} :
    d ∈ operands content c ↔ (c.content = content ∧ d ∈ c.children) ∨
      (c.content ≠ content ∧ d = c) := by
  rw [operands]
  split <;> simp_all

/-- Absorbing keeps a condition of the children that passes from a connective to its operands. -/
theorem forall_absorb {P : Tree → Prop} (each : ∀ c ∈ cs, P c)
    (inner : ∀ c ∈ cs, c.content = content →
      content = .op .and ∨ content = .op .or → ∀ d ∈ c.children, P d) :
    ∀ d ∈ absorb content cs, P d := by
  intro d member
  rw [absorb] at member
  split at member
  · next connective =>
    obtain ⟨c, inside, contributed⟩ := mem_flatMap.mp member
    rcases mem_operands.mp contributed with ⟨same, below⟩ | ⟨_, rfl⟩
    · exact inner c inside same connective d below
    · exact each d inside
  · exact each d member

/-- The flat form is flat. -/
theorem flat_isFlat (t : Tree) : IsFlat (flat t) := by
  induction t with
  | mk n cs ih =>
    by_cases error : n.kind = .error
    · obtain ⟨was, problem, content⟩ := content_of_error error
      rw [flat_error error]
      refine throughout_mk.mpr ⟨fun connective => ?_, fun sound => absurd error sound⟩
      simp [content] at connective
    · have flatChildren : ∀ c ∈ cs.map flat, IsFlat c := forall_mem_map.mpr ih
      rw [flat_sound error]
      refine throughout_mk.mpr ⟨fun connective c member => ?_, fun _ => ?_⟩
      · rw [content_mk] at connective
        rw [children_mk, absorb_connective connective] at member
        obtain ⟨d, inside, contributed⟩ := mem_flatMap.mp member
        rcases mem_operands.mp contributed with ⟨same, below⟩ | ⟨other, rfl⟩
        · rw [content_mk, ← same]
          exact (flatChildren d inside).here (same ▸ connective) c below
        · exact other
      · refine forall_absorb flatChildren fun c member same _ d below => ?_
        refine Throughout.below (flatChildren c member) ?_ below
        rw [show c.kind = c.content.kind from rfl, same]
        exact error

/-- A flat tree is its own flat form. -/
theorem flat_of_isFlat (isFlat : t.IsFlat) : flat t = t := by
  induction t with
  | mk n cs ih =>
    by_cases error : n.kind = .error
    · exact flat_error error cs
    · have children : cs.map flat = cs := by
        rw [map_congr_left fun c member => ih c member (Throughout.below isFlat error member)]
        exact map_id cs
      rw [flat_sound error, children]
      by_cases connective : n.content = .op .and ∨ n.content = .op .or
      · have alone : ∀ c ∈ cs, operands n.content c = [c] := fun c member =>
          if_neg (isFlat.here connective c member)
        rw [absorb_connective connective, flatMap_congr alone, flatMap_singleton']
      · rw [absorb_other connective]

theorem flat_flat (t : Tree) : flat (flat t) = flat t :=
  flat_of_isFlat (flat_isFlat t)

theorem absorb_anonymous (content : Content) (cs : List Tree) :
    (absorb content cs).map anonymous = absorb content (cs.map anonymous) := by
  rw [absorb, absorb]
  split
  · rw [map_flatMap, flatMap_map]
    apply flatMap_congr
    intro c _
    rw [operands, operands, anonymous_content]
    split <;> simp
  · rfl

theorem flat_anonymous (t : Tree) : flat t.anonymous = (flat t).anonymous := by
  induction t with
  | mk n cs ih =>
    by_cases error : n.kind = .error
    · rw [flat_error error, anonymous_mk, flat_error (by exact error)]
    · have children : (cs.map anonymous).map flat = (cs.map flat).map anonymous := by
        rw [map_map, map_map]
        exact map_congr_left ih
      rw [flat_sound error, anonymous_mk, anonymous_mk, flat_sound (by exact error), children,
        absorb_anonymous]

theorem isFlat_anonymous : IsFlat t.anonymous ↔ IsFlat t := by
  apply throughout_anonymous
  intro s
  simp only [anonymous_content, anonymous_children, forall_mem_map]

end TaskNet.Tree
