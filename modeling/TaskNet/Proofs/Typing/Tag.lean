import Mathlib.Algebra.GroupWithZero.Nat
import Mathlib.Algebra.Order.BigOperators.Group.List
import Mathlib.Algebra.Order.Group.Nat
import TaskNet.Proofs.Tree.Identity

/-!
Joins of known types, and the order of types that they are the joins of. Tables of types are widened
place by place, and each place four times at most.
-/

namespace TaskNet.TypeTag

open List

variable {t a b c : TypeTag} {i : Nat}

theorem Known.concrete (known : t.Known) (given : t ≠ .any) : t.isConcrete = true :=
  known.resolve_left given

theorem isConcrete_ne_any (concrete : t.isConcrete = true) : t ≠ .any := by
  rintro rfl
  cases concrete

theorem isConcrete_ne_notAType (concrete : t.isConcrete = true) : t ≠ .notAType := by
  rintro rfl
  cases concrete

theorem unify_eq_any (same : a.unify b = .any) : a = .any ∧ b = .any := by
  rw [unify] at same
  split at same
  · cases same
  split at same
  · next left => exact ⟨left, same⟩
  split at same
  · next right => exact ⟨same, right⟩
  split at same
  · next equal => exact ⟨same, equal ▸ same⟩
  split at same
  · next left right _ _ =>
    split at same
    · exact absurd same left
    · exact absurd same right
  · cases same

/-- A join is one of the two types if it exists. -/
theorem unify_cases (joins : a.unify b ≠ .notAType) :
    (a.unify b = a ∨ a.unify b = b) ∧ a ≠ .notAType ∧ b ≠ .notAType := by
  rw [unify] at joins ⊢
  split
  · next absorbs => exact absurd (if_pos absorbs) joins
  · next given =>
    refine ⟨?_, fun same => given (.inl same), fun same => given (.inr same)⟩
    rw [if_neg given] at joins
    split
    · exact .inr rfl
    split
    · exact .inl rfl
    split
    · exact .inl rfl
    split
    · split
      · exact .inl rfl
      · exact .inr rfl
    · next left right apart narrow =>
      rw [if_neg left, if_neg right, if_neg apart, if_neg narrow] at joins
      exact absurd rfl joins

theorem unify_known (left : a.Known) (right : b.Known ∨ b = .notAType)
    (joins : a.unify b ≠ .notAType) : (a.unify b).Known := by
  obtain ⟨same | same, _, given⟩ := unify_cases joins
  · rw [same]
    exact left
  · rw [same]
    exact right.resolve_right given

/-- What joins into a concrete type without changing it converts to the type. -/
theorem wideningCost_of_unify {p : TypeTag} (target : p.isConcrete = true) (given : a ≠ .any)
    (joins : p.unify a = p) : a.wideningCost p ≠ none := by
  have typed := isConcrete_ne_notAType target
  obtain ⟨_, _, source⟩ := unify_cases (joins ▸ typed)
  rw [wideningCost, if_neg (by simp [source, typed])]
  split
  · simp
  next apart =>
  rw [if_neg (by simp [given, isConcrete_ne_any target]), wideningSteps, if_pos]
  · simp
  · rw [unify, if_neg (by simp [source, typed]), if_neg (isConcrete_ne_any target), if_neg given,
      if_neg (Ne.symm apart)] at joins
    split at joins
    · next numeric =>
      split at joins
      · next wider =>
        obtain ⟨left, right⟩ := Bool.and_eq_true_iff.mp numeric
        simp [left, right, wider]
      · exact absurd joins apart
    · exact absurd joins.symm typed

/-- How far a type has been widened. -/
def height (t : TypeTag) : Nat :=
  if t = .any then 0 else if t.isNumeric then t.width else 4

theorem height_le (t : TypeTag) : t.height ≤ 4 := by
  cases t <;> simp [height, isNumeric, width]

theorem height_pos (given : t ≠ .any) : 0 < t.height := by
  cases t <;> simp_all [height, isNumeric, width]

/-- A join that changes a type widens it. -/
theorem height_lt_unify (joins : a.unify b ≠ .notAType) (changes : a.unify b ≠ a) :
    a.height < (a.unify b).height := by
  rw [unify] at joins changes ⊢
  split at joins
  · exact absurd rfl joins
  next typed =>
  rw [if_neg typed] at changes ⊢
  split at changes
  · next unknown =>
    rw [if_pos unknown]
    subst unknown
    exact height_pos changes
  next given =>
  rw [if_neg given] at joins ⊢
  split at changes
  · exact absurd rfl changes
  next givenRight =>
  rw [if_neg givenRight] at joins ⊢
  split at changes
  · exact absurd rfl changes
  next apart =>
  rw [if_neg apart] at joins ⊢
  split at changes
  · next numeric =>
    rw [if_pos numeric]
    split at changes
    · exact absurd rfl changes
    · next wider =>
      obtain ⟨left, right⟩ := Bool.and_eq_true_iff.mp numeric
      rw [if_neg wider, height, height, if_neg given, if_neg givenRight, if_pos left, if_pos right]
      omega
  · next other =>
    rw [if_neg other] at joins
    exact absurd rfl joins

/-- The join of types of which one is given is given. -/
theorem foldl_unify_ne_any {types : List TypeTag} (given : a ≠ .any ∨ ∃ t ∈ types, t ≠ .any) :
    types.foldl unify a ≠ .any := by
  induction types generalizing a with
  | nil => simpa using given
  | cons t types ih =>
    refine ih ?_
    rcases given with left | ⟨u, member, right⟩
    · exact .inl fun same => left (unify_eq_any same).1
    · rcases mem_cons.mp member with rfl | later
      · exact .inl fun same => right (unify_eq_any same).2
      · exact .inr ⟨u, later, right⟩

/-- The order of types by what they join into: `any` is least and `notAType` greatest. -/
def Below (a b : TypeTag) : Prop :=
  b.unify a = b

instance (a b : TypeTag) : Decidable (a.Below b) :=
  inferInstanceAs (Decidable (b.unify a = b))

theorem width_inj (numeric : a.isNumeric = true) (same : a.width = b.width) : a = b := by
  cases a <;> cases b <;> simp_all [isNumeric, width]

theorem below_iff : a.Below b ↔ b = .notAType ∨ a = .any ∨ a = b ∨
    (a.isNumeric = true ∧ b.isNumeric = true ∧ a.width ≤ b.width) := by
  rw [Below, unify]
  split
  · next absorbs => grind [isNumeric, width]
  split
  · next unknown => grind [isNumeric, width]
  split
  · next unknown => simp [unknown]
  split
  · next same => simp [same]
  split
  · next numeric =>
    obtain ⟨left, right⟩ := Bool.and_eq_true_iff.mp numeric
    split
    · next wider => simp [left, right, wider]
    · next narrower => grind
  · next other => grind

theorem Below.refl (a : TypeTag) : a.Below a :=
  below_iff.mpr (.inr (.inr (.inl rfl)))

theorem Below.any (a : TypeTag) : Below .any a :=
  below_iff.mpr (.inr (.inl rfl))

theorem Below.trans (first : a.Below b) (second : b.Below c) : a.Below c := by
  rw [below_iff] at *
  grind [isNumeric, width]

theorem Below.antisymm (first : a.Below b) (second : b.Below a) : a = b := by
  rw [below_iff] at *
  grind [isNumeric, width, width_inj]

theorem Below.height_le (below : a.Below b) : a.height ≤ b.height := by
  rcases below_iff.mp below with rfl | rfl | rfl | ⟨left, right, wider⟩
  · exact TypeTag.height_le a
  · exact Nat.zero_le _
  · exact Nat.le_refl _
  · have given : ∀ t : TypeTag, t.isNumeric = true → t.height = t.width := fun t numeric => by
      rw [height, if_pos numeric, if_neg]
      rintro rfl
      cases numeric
    rwa [given a left, given b right]

/-- A join is the least type above both. -/
theorem unify_below (left : a.Below c) (right : b.Below c) : (a.unify b).Below c := by
  rw [unify]
  rw [below_iff] at *
  grind [isNumeric, width]

theorem below_unify_left (a b : TypeTag) : a.Below (a.unify b) := by
  rw [below_iff, unify]
  grind [isNumeric, width]

theorem below_unify_right (a b : TypeTag) : b.Below (a.unify b) := by
  rw [below_iff, unify]
  grind [isNumeric, width]

/-- The type at a place of a table; a place that the table does not have is of unknown type. -/
def entry (table : Array TypeTag) (i : Nat) : TypeTag :=
  (table[i]?).getD .any

theorem entry_set (table : Array TypeTag) (i : Nat) (t : TypeTag) (j : Nat) :
    entry (table.setIfInBounds i t) j = if i = j ∧ i < table.size then t else entry table j := by
  rw [entry]
  by_cases same : i = j
  · subst same
    by_cases inside : i < table.size
    · simp [inside]
    · simp [inside, entry]
  · simp [same, entry, Array.getElem?_setIfInBounds_ne same]

/-- The types of a table are widened, at certain places only, and none of them is lost. -/
structure Raised (P : Nat → Prop) (table table' : Array TypeTag) : Prop where
  size : table'.size = table.size
  rises : ∀ i, (entry table i).Below (entry table' i)
  typed : ∀ i, entry table i ≠ .notAType → entry table' i ≠ .notAType
  others : ∀ i, ¬ P i → entry table' i = entry table i

/-- How far the types at some places of a table have been widened. -/
def climbed (places : List Nat) (table : Array TypeTag) : Nat :=
  (places.map fun i => (entry table i).height).sum

/-- Types are widened by four steps each at most. -/
theorem climbed_le (places : List Nat) (table : Array TypeTag) :
    climbed places table ≤ 4 * places.length := by
  have each : ∀ h ∈ places.map fun i => (entry table i).height, h ≤ 4 := by
    intro h member
    obtain ⟨i, _, rfl⟩ := mem_map.mp member
    exact height_le _
  have total : climbed places table ≤ (places.map fun i => (entry table i).height).length * 4 :=
    sum_le_card_nsmul _ 4 each
  rw [length_map] at total
  omega

namespace Raised

variable {P P' : Nat → Prop} {table table' table'' : Array TypeTag}

theorem refl (table : Array TypeTag) : Raised P table table :=
  ⟨rfl, fun _ => .refl _, fun _ => id, fun _ _ => rfl⟩

theorem trans (first : Raised P table table') (second : Raised P table' table'') :
    Raised P table table'' :=
  ⟨second.size.trans first.size, fun i => (first.rises i).trans (second.rises i),
    fun i typed => second.typed i (first.typed i typed),
    fun i outside => (second.others i outside).trans (first.others i outside)⟩

theorem mono (wider : ∀ i, P i → P' i) (raised : Raised P table table') : Raised P' table table' :=
  ⟨raised.size, raised.rises, raised.typed, fun i outside => raised.others i fun inside =>
    outside (wider i inside)⟩

theorem set (inside : P i) (rises : (entry table i).Below t) (typed : t ≠ .notAType) :
    Raised P table (table.setIfInBounds i t) := by
  refine ⟨Array.size_setIfInBounds, fun j => ?_, fun j kept => ?_, fun j outside => ?_⟩
  all_goals rw [entry_set]
  · split
    · next here => exact here.1 ▸ rises
    · exact .refl _
  · split
    · exact typed
    · exact kept
  · refine if_neg fun here => outside ?_
    exact here.1 ▸ inside

theorem climbed_le (raised : Raised P table table') (places : List Nat) :
    climbed places table ≤ climbed places table' :=
  sum_le_sum fun _ _ => (raised.rises _).height_le

/-- Widening the type at one of the places is progress. -/
theorem climbed_lt {places : List Nat} (raised : Raised P table (table.setIfInBounds i t))
    (place : i ∈ places) (inside : i < table.size) (wider : (entry table i).height < t.height) :
    climbed places table < climbed places (table.setIfInBounds i t) := by
  refine sum_lt_sum _ _ (fun _ _ => (raised.rises _).height_le) ⟨i, place, ?_⟩
  rwa [entry_set, if_pos ⟨rfl, inside⟩]

end Raised

end TaskNet.TypeTag
