import TaskNet.Proofs.Typing.Context

/-!
What the uses of a variable say on its type. A case passes variables to facts in its precondition
and to primitives in its task list, and the types that these declare have a join for each name. It
is the least type above all of them, so the order of the uses does not matter. The slots of a case
without assignments come to hold these joins: uses widen the slots of their half of the case, and
what one half has found reaches the other.
-/

namespace TaskNet

open List Slots Tree TypeTag Typing

variable {types : List TypeTag} {use : Tree × Tree} {v : Variable} {t : TypeTag} {m : Nat}

/-- The join of types is the least type above all of them. -/
theorem TypeTag.foldl_unify_below_iff {a b : TypeTag} :
    (types.foldl unify a).Below b ↔ a.Below b ∧ ∀ t ∈ types, t.Below b := by
  induction types generalizing a with
  | nil => simp
  | cons t types ih =>
    have both : (a.unify t).Below b ↔ a.Below b ∧ t.Below b :=
      ⟨fun below => ⟨(below_unify_left a t).trans below, (below_unify_right a t).trans below⟩,
        fun each => unify_below each.1 each.2⟩
    rw [foldl_cons, ih, both, forall_mem_cons, and_assoc]

namespace Infer

variable {env : TypingContext} {pre list : Tree} {name : String} {mark : Nat}
  {slots before after : Slots}
variable {s s₁ s₃ s₄ : Typing} {es : List VarEntry}

/-- The arguments of facts in a precondition and of primitives in a task list, with the parameters
that they are passed for. -/
def uses (env : TypingContext) (pre list : Tree) : List (Tree × Tree) :=
  pre.visited.flatMap (argumentsOf env Site.isWorldFact) ++
    list.children.flatMap (argumentsOf env Site.isPrimitive)

def usedTypes (env : TypingContext) (pre list : Tree) (name : String) : List TypeTag :=
  ((uses env pre list).filter fun use => use.1.content.varName? == some name).map
    fun use => use.2.node.type

def joinedType (env : TypingContext) (pre list : Tree) (name : String) : TypeTag :=
  (usedTypes env pre list name).foldl unify .any

theorem mem_usedTypes : t ∈ usedTypes env pre list name ↔
    ∃ use ∈ uses env pre list, (∃ v, use.1.content = .var v ∧ v.name = name) ∧
    use.2.node.type = t := by
  have named : ∀ c : Content, c.varName? = some name ↔ ∃ v, c = .var v ∧ v.name = name := by
    intro c
    cases c <;> simp [Content.varName?]
  simp only [usedTypes, mem_map, mem_filter, beq_iff_eq, named, and_assoc]

theorem joinedType_below_iff :
    (joinedType env pre list name).Below t ↔ ∀ u ∈ usedTypes env pre list name, u.Below t := by
  rw [joinedType, foldl_unify_below_iff]
  exact and_iff_right (.any t)

/-- A join does not depend on the order of the uses. -/
theorem joinedType_of_perm (perm : types.Perm (usedTypes env pre list name)) :
    types.foldl unify .any = joinedType env pre list name := by
  have same : ∀ b, (types.foldl unify .any).Below b ↔ (joinedType env pre list name).Below b := by
    intro b
    rw [joinedType_below_iff, foldl_unify_below_iff, and_iff_right (.any b)]
    exact ⟨fun each u member => each u (perm.mem_iff.mpr member),
      fun each u member => each u (perm.mem_iff.mp member)⟩
  exact ((same _).mpr (.refl _)).antisymm ((same _).mp (.refl _))

theorem used_below (member : use ∈ uses env pre list)
    (content : use.1.content = .var v) : use.2.node.type.Below (joinedType env pre list v.name) :=
  joinedType_below_iff.mp (.refl _) _ (mem_usedTypes.mpr ⟨use, member, ⟨v, content, rfl⟩, rfl⟩)

/-- A name that one half of a case uses is in the table of that half. -/
def ListsUses (slots : Slots) (pairs : List (Tree × Tree)) : Prop :=
  ∀ use ∈ pairs, ∀ v, use.1.content = .var v → v.name ∈ slots.names

/-- The two tables of slots of a case without assignments before and after the joins: uses in facts,
uses in primitives, and what both halves of the case share. -/
structure SlotJoins (env : TypingContext) (pre list : Tree) (mark : Nat) (before after : Slots)
    (es : List VarEntry) (s s₁ s₂ s₃ : Typing) : Prop where
  facts : Gathers mark before (pre.visited.flatMap (argumentsOf env Site.isWorldFact)) s s₁
  primitives : Gathers mark after (list.children.flatMap (argumentsOf env Site.isPrimitive)) s₁ s₂
  shares : Shares mark before after.base es s₂ s₃
  named : after.names = es.map VarEntry.name
  apart : before.base + before.names.length ≤ after.base
  fresh : ∀ i, before.base ≤ i → s.slotAt i = .any
  declared : ∀ use ∈ uses env pre list, s.typeAt use.2.id = use.2.node.type
  listed : ListsUses before (pre.visited.flatMap (argumentsOf env Site.isWorldFact))
  listedAfter : ListsUses after (list.children.flatMap (argumentsOf env Site.isPrimitive))

namespace SlotJoins

variable {s₂ : Typing} (joins : SlotJoins env pre list mark before after es s s₁ s₂ s₃)
include joins

theorem typeAt_eq (x : NodeId) : s₁.typeAt x = s.typeAt x := by
  rw [typeAt, typeAt, joins.facts.lifts.types]

theorem entry_of_find? (found : after.find? name = some m) :
    ∃ k e, m = after.base + k ∧ es[k]? = some e ∧ e.name = name := by
  obtain ⟨k, place, named⟩ := find?_eq_some found
  rw [joins.named, getElem?_map, Option.map_eq_some_iff] at named
  obtain ⟨e, entry, same⟩ := named
  exact ⟨k, e, place, entry, same⟩

/-- What uses declare reaches the slots of both halves. -/
theorem reaches (member : use ∈ uses env pre list)
    (content : use.1.content = .var v) :
    (∀ j, before.find? v.name = some j → use.2.node.type.Below (s₃.slotAt j)) ∧
      ∀ m, after.find? v.name = some m → use.2.node.type.Below (s₃.slotAt m) := by
  have shared := joins.shares.reaches
  rw [← joins.declared use member]
  rcases mem_append.mp member with isFact | isPrimitive
  · have here := fun j found => (joins.facts.reaches use isFact v j content found).trans
      (joins.primitives.lifts.slots.rises j)
    refine ⟨fun j found => (here j found).trans (joins.shares.lifts.slots.rises j),
      fun m found => ?_⟩
    obtain ⟨k, e, rfl, entry, same⟩ := joins.entry_of_find? found
    obtain ⟨j, place⟩ := exists_find? (joins.listed use isFact v content)
    exact (here j place).trans (shared k e entry j (same ▸ place)).2
  · have here := fun m found => joins.typeAt_eq use.2.id ▸
      joins.primitives.reaches use isPrimitive v m content found
    refine ⟨fun j found => ?_,
      fun m found => (here m found).trans (joins.shares.lifts.slots.rises m)⟩
    obtain ⟨m, place⟩ := exists_find? (joins.listedAfter use isPrimitive v content)
    have below := here m place
    obtain ⟨k, e, rfl, entry, same⟩ := joins.entry_of_find? place
    exact below.trans (shared k e entry j (same ▸ found)).1

/-- Slots get no further than the joins of the uses of their names. -/
theorem bounded : Within before (joinedType env pre list) s₃ ∧
    AtEntries after.base es fun m e => (s₃.slotAt m).Below (joinedType env pre list e.name) := by
  have apart := joins.apart
  -- the first uses do not get to the slots of the task list, the others not to the precondition's
  have fresh : ∀ m, after.base ≤ m → s₁.slotAt m = .any := by
    intro m above
    rw [joins.facts.lifts.others, joins.fresh m (by omega)]
    rintro ⟨use, _, v, _, found⟩
    have := (find?_lt found).2
    omega
  have first : Within before (joinedType env pre list) s₁ := by
    refine joins.facts.bounded _ (fun use member v content => ?_) fun name j found => ?_
    · have inside : use ∈ uses env pre list := mem_append_left _ member
      exact joins.declared use inside ▸ used_below inside content
    · rw [joins.fresh j (find?_lt found).1]
      exact .any _
  have second : Within after (joinedType env pre list) s₂ := by
    refine joins.primitives.bounded _ (fun use member v content => ?_) fun name m found => ?_
    · have inside : use ∈ uses env pre list := mem_append_right _ member
      rw [joins.typeAt_eq, joins.declared use inside]
      exact used_below inside content
    · rw [fresh m (find?_lt found).1]
      exact .any _
  refine joins.shares.bounded _ (fun name j found => ?_) fun k e entry => ?_
  · rw [joins.primitives.lifts.others]
    · exact first name j found
    rintro ⟨use, _, v, _, place⟩
    have := (find?_lt found).2
    have := (find?_lt place).1
    omega
  · -- a place that no name has for its slot is as it was at the start
    dsimp only
    by_cases taken : ∃ name, after.find? name = some (after.base + k)
    · obtain ⟨name, found⟩ := taken
      obtain ⟨k', e', place, entry', rfl⟩ := joins.entry_of_find? found
      obtain rfl : k = k' := by omega
      obtain rfl : e = e' := Option.some.inj (entry.symm.trans entry')
      exact second _ _ found
    · rw [joins.primitives.lifts.others, fresh _ (by omega)]
      · exact .any _
      rintro ⟨use, _, v, _, found⟩
      exact taken ⟨_, found⟩

theorem slotAt_eq {j : Nat} (found : before.find? name = some j) :
    s₃.slotAt j = joinedType env pre list name := by
  refine (joins.bounded.1 name j found).antisymm (joinedType_below_iff.mpr fun t used => ?_)
  obtain ⟨use, member, ⟨v, content, rfl⟩, rfl⟩ := mem_usedTypes.mp used
  exact (joins.reaches member content).1 j found

theorem slotAt_eq_after (found : after.find? name = some m) :
    s₃.slotAt m = joinedType env pre list name := by
  obtain ⟨k, e, rfl, entry, same⟩ := joins.entry_of_find? found
  have upper : (s₃.slotAt (after.base + k)).Below (joinedType env pre list e.name) :=
    joins.bounded.2 k e entry
  rw [same] at upper
  refine upper.antisymm (joinedType_below_iff.mpr fun t used => ?_)
  obtain ⟨use, member, ⟨v, content, rfl⟩, rfl⟩ := mem_usedTypes.mp used
  exact (joins.reaches member content).2 _ found

/-- No slot is lost, so all joins exist. -/
theorem joinedType_ne (name : String) : joinedType env pre list name ≠ .notAType := by
  intro lost
  have typed : ∀ i, before.base ≤ i → s₃.slotAt i ≠ .notAType := fun i above =>
    joins.shares.lifts.slots.typed i <| joins.primitives.lifts.slots.typed i <|
      joins.facts.lifts.slots.typed i (by
        rw [show entry s.tags.items i = .any from joins.fresh i above]
        decide)
  have apart := joins.apart
  have used : usedTypes env pre list name ≠ [] := by
    intro none
    rw [joinedType, none] at lost
    cases lost
  obtain ⟨t, member⟩ := exists_mem_of_ne_nil _ used
  obtain ⟨use, inside, ⟨v, content, rfl⟩, _⟩ := mem_usedTypes.mp member
  rcases mem_append.mp inside with isFact | isPrimitive
  · obtain ⟨j, found⟩ := exists_find? (joins.listed use isFact v content)
    exact typed j (find?_lt found).1 ((joins.slotAt_eq found).trans lost)
  · obtain ⟨m, found⟩ := exists_find? (joins.listedAfter use isPrimitive v content)
    have above := (find?_lt found).1
    exact typed m (by omega) ((joins.slotAt_eq_after found).trans lost)

end SlotJoins

end Infer

end TaskNet
