import Mathlib.Data.List.Count
import Mathlib.Data.List.Forall2
import Mathlib.Data.List.Induction
import Mathlib.Data.List.Nodup

/-!
Facts about lists: related lists, lists with keys, and lists without repetitions.
-/

namespace TaskNet

open List

variable {α β γ : Type} {S : α → β → Prop} {as : List α} {bs : List β} {a : α}

theorem exists_of_forall₂ (related : Forall₂ S as bs) {b : β} (member : b ∈ bs) :
    ∃ a ∈ as, S a b := by
  induction related with
  | nil => cases member
  | cons head _ ih =>
    rcases mem_cons.mp member with rfl | later
    · exact ⟨_, by simp, head⟩
    · obtain ⟨a, inside, holds⟩ := ih later
      exact ⟨a, by simp [inside], holds⟩

theorem map_eq_of_forall₂ {f : α → γ} {g : β → γ} (same : Forall₂ (fun a b => f a = g b) as bs) :
    as.map f = bs.map g := by
  induction same with
  | nil => rfl
  | cons head _ ih => rw [map_cons, map_cons, head, ih]

theorem forall₂_imp_mem {T : α → β → Prop} (related : Forall₂ S as bs)
    (each : ∀ a ∈ as, ∀ b, S a b → T a b) : Forall₂ T as bs := by
  induction related with
  | nil => exact .nil
  | cons head _ ih =>
    exact .cons (each _ (by simp) _ head) (ih (forall_mem_cons.mp each).2)

theorem forall₂_trans {T : β → γ → Prop} {U : α → γ → Prop} {cs : List γ}
    (first : Forall₂ S as bs) (second : Forall₂ T bs cs)
    (each : ∀ a ∈ as, ∀ b c, S a b → T b c → U a c) : Forall₂ U as cs := by
  induction first generalizing cs with
  | nil =>
    cases second
    exact .nil
  | cons head _ ih =>
    cases second with
    | cons head' tail' =>
      exact .cons (each _ (by simp) _ _ head head')
        (ih tail' (forall_mem_cons.mp each).2)

theorem forall₂_flatMap {δ : Type} {T : γ → δ → Prop} {f : α → List γ} {g : β → List δ}
    (related : Forall₂ S as bs) (each : ∀ a ∈ as, ∀ b, S a b → Forall₂ T (f a) (g b)) :
    Forall₂ T (as.flatMap f) (bs.flatMap g) := by
  induction related with
  | nil => exact .nil
  | cons head _ ih =>
    rw [flatMap_cons, flatMap_cons]
    exact rel_append (each _ (by simp) _ head) (ih (forall_mem_cons.mp each).2)

/-- Fewer elements satisfy a stronger test, if it excludes one of them. -/
theorem countP_lt {p q : α → Bool} (member : a ∈ as)
    (stronger : ∀ b ∈ as, q b = true → p b = true) (holds : p a = true) (fails : q a = false) :
    as.countP q < as.countP p := by
  induction as with
  | nil => cases member
  | cons b as ih =>
    have later := fun c inside => stronger c (mem_cons_of_mem b inside)
    have atMost := countP_mono_left later
    rw [countP_cons, countP_cons]
    rcases mem_cons.mp member with rfl | inside
    · simp only [holds, fails, if_true]
      simpa using Nat.lt_succ_of_le atMost
    · have fewer := ih inside later
      have here := stronger b (by simp)
      split <;> split <;> first | omega | simp_all

section Keyed

variable {pairs : List (String × β)} {x : String} {y : β}

theorem lookup_of_mem (distinct : (pairs.map Prod.fst).Nodup) (member : (x, y) ∈ pairs) :
    pairs.lookup x = some y := by
  induction pairs with
  | nil => cases member
  | cons pair pairs ih =>
    obtain ⟨a, b⟩ := pair
    rw [map_cons, nodup_cons] at distinct
    rw [lookup_cons]
    rcases mem_cons.mp member with same | later
    · cases same
      simp
    · have other : x ≠ a := by
        rintro rfl
        exact distinct.1 (mem_map.mpr ⟨(x, y), later, rfl⟩)
      rw [beq_eq_false_iff_ne.mpr other]
      exact ih distinct.2 later

theorem mem_of_lookup (found : pairs.lookup x = some y) : (x, y) ∈ pairs := by
  obtain ⟨before, after, rfl, _⟩ := lookup_eq_some_iff.mp found
  simp

theorem lookup_map_snd (f : β → γ) (pairs : List (String × β)) (x : String) :
    (pairs.map fun pair => (pair.1, f pair.2)).lookup x = (pairs.lookup x).map f := by
  induction pairs with
  | nil => rfl
  | cons pair pairs ih =>
    rw [map_cons, lookup_cons, lookup_cons, ih]
    cases x == pair.1 <;> rfl

theorem lookup_isSome : (pairs.lookup x).isSome ↔ x ∈ pairs.map Prod.fst := by
  constructor
  · intro given
    obtain ⟨y, found⟩ := Option.isSome_iff_exists.mp given
    exact mem_map.mpr ⟨(x, y), mem_of_lookup found, rfl⟩
  · intro paired
    by_contra absent
    obtain ⟨pair, member, rfl⟩ := mem_map.mp paired
    simpa using lookup_eq_none_iff.mp (Option.not_isSome_iff_eq_none.mp absent) pair member

theorem lookup_eq_none (absent : x ∉ pairs.map Prod.fst) : pairs.lookup x = none :=
  Option.not_isSome_iff_eq_none.mp (absent ∘ lookup_isSome.mp)

end Keyed

section EraseDups

variable [DecidableEq α]

theorem eraseDups_concat :
    (as ++ [a]).eraseDups = if a ∈ as then as.eraseDups else as.eraseDups ++ [a] := by
  by_cases member : a ∈ as <;>
    simp [eraseDups_append, removeAll, eraseDups_cons, member]

/-- What is left without repetitions stands in the order of first occurrence. -/
theorem eraseDups_pairwise : as.eraseDups.Pairwise fun a b => as.idxOf a < as.idxOf b := by
  induction as using reverseRecOn with
  | nil => simp
  | append_singleton l last ih =>
    have kept : l.eraseDups.Pairwise fun a b => (l ++ [last]).idxOf a < (l ++ [last]).idxOf b := by
      refine ih.imp_of_mem fun aIn bIn before => ?_
      rwa [idxOf_append_of_mem (mem_eraseDups.mp aIn),
        idxOf_append_of_mem (mem_eraseDups.mp bIn)]
    rw [eraseDups_concat]
    split
    · exact kept
    · next new =>
      refine pairwise_append.mpr ⟨kept, by simp, fun a aIn b bIn => ?_⟩
      have inside : a ∈ l := mem_eraseDups.mp aIn
      rw [mem_singleton.mp bIn, idxOf_append_of_mem inside, idxOf_append_of_notMem new]
      exact Nat.lt_of_lt_of_le (idxOf_lt_length_of_mem inside) (Nat.le_add_right _ _)

end EraseDups

/-- A function can be changed so that it takes a list of different values to any list of that
length. -/
theorem exists_map_eq [DecidableEq α] {given : List α} {given' : List β} (distinct : given.Nodup)
    (length : given'.length = given.length) (f : α → β) :
    ∃ g : α → β, given' = given.map g ∧ ∀ x ∉ given, g x = f x := by
  induction given generalizing given' with
  | nil => exact ⟨f, length_eq_zero_iff.mp length, fun _ _ => rfl⟩
  | cons a given ih =>
    cases given' with
    | nil => simp at length
    | cons b given' =>
      rw [nodup_cons] at distinct
      obtain ⟨g, rfl, other⟩ := ih distinct.2 (by simpa using length)
      refine ⟨Function.update g a b, ?_, fun x outside => ?_⟩
      · rw [map_cons, Function.update_self]
        congr 1
        refine map_congr_left fun x member => (Function.update_of_ne ?_ _ _).symm
        exact ne_of_mem_of_not_mem member distinct.1
      · rw [mem_cons, not_or] at outside
        rw [Function.update_of_ne outside.1, other x outside.2]

end TaskNet
