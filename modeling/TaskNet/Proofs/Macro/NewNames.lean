import Mathlib.Data.List.Perm.Subperm
import TaskNet.Macro.FreshName
import TaskNet.Proofs.Lists
import TaskNet.Proofs.Session.Clean

/-!
Names that are handed out. A name that a supply gives is taken by nothing else, so names that are
given one after the other differ from each other and from all names that were taken before. Names
are replaced by the names that a list pairs them with.
-/

namespace TaskNet

open List

namespace NameSupply

theorem numbered_inj {base : String} {k j : Nat} (same : numbered base k = numbered base j) :
    k = j := by
  have texts : String.ofList (Nat.toDigits 10 k) = String.ofList (Nat.toDigits 10 j) :=
    (String.append_right_inj (base ++ "_")).mp same
  have digits : Nat.toDigits 10 k = Nat.toDigits 10 j := String.ofList_inj.mp texts
  have values := congrArg (fun cs => Nat.ofDigitChars 10 cs 0) digits
  simpa only [Nat.ofDigitChars_toDigits (by decide : 1 < 10) (by decide)] using values

/-- The search for a free number leaves out taken ones only, and goes on to the last one if it finds
none. -/
theorem firstFree_spec (taken : List String) (base : String) (tries k : Nat) :
    k ≤ firstFree taken base tries k ∧
      (∀ j, k ≤ j → j < firstFree taken base tries k → numbered base j ∈ taken) ∧
      (numbered base (firstFree taken base tries k) ∈ taken → firstFree taken base tries k =
      k + tries) := by
  induction tries generalizing k with
  | zero =>
    unfold firstFree
    exact ⟨Nat.le_refl k, fun j above below => by omega, fun _ => rfl⟩
  | succ tries ih =>
    unfold firstFree
    split
    · next used =>
      obtain ⟨le, skipped, last⟩ := ih (k + 1)
      refine ⟨by omega, fun j above below => ?_, fun taken => by rw [last taken]; omega⟩
      rcases Nat.eq_or_lt_of_le above with rfl | later
      · simpa using used
      · exact skipped j later below
    · next free =>
      exact ⟨Nat.le_refl k, fun j above below => by omega,
        fun used => absurd used (by simpa using free)⟩

/-- A new name is not in use. -/
theorem fresh_free (s : NameSupply) (base : String) : (s.fresh base).1 ∉ s.taken := by
  intro taken
  obtain ⟨_, skipped, last⟩ := firstFree_spec s.taken base (s.taken.length + 1) (s.counter + 1)
  have last := last taken
  -- More different names than there are names in use can not all be in use.
  let names := (List.range (s.taken.length + 1)).map fun j => numbered base (s.counter + 1 + j)
  have distinct : names.Nodup := by
    refine List.Nodup.map (fun j i same => ?_) nodup_range
    have equal := numbered_inj same
    omega
  have used : names ⊆ s.taken := by
    intro name member
    obtain ⟨j, small, rfl⟩ := mem_map.mp member
    exact skipped _ (by omega) (by have := mem_range.mp small; omega)
  have bound := (distinct.subperm used).length_le
  simp only [names, length_map, length_range] at bound
  omega

theorem fresh_given (s : NameSupply) (base : String) : (s.fresh base).1 ≠ "" := by
  intro empty
  have length := congrArg String.length empty
  simp only [fresh, numbered, String.length_append] at length
  have mark : "_".length = 1 := rfl
  have none : "".length = 0 := rfl
  omega

/-- Names were given between two states of a supply: they were not taken before, are taken after,
and differ from each other. -/
structure Grows (s : NameSupply) (given : List String) (s' : NameSupply) : Prop where
  taken : s'.taken = given.reverse ++ s.taken
  distinct : given.Nodup
  free : ∀ name ∈ given, name ∉ s.taken
  nonempty : ∀ name ∈ given, name ≠ ""

namespace Grows

variable {s s' s'' : NameSupply} {given given' : List String}

theorem refl (s : NameSupply) : s.Grows [] s :=
  ⟨rfl, nodup_nil, by simp, by simp⟩

theorem mem_taken (grows : s.Grows given s') {name : String} :
    name ∈ s'.taken ↔ name ∈ given ∨ name ∈ s.taken := by
  rw [grows.taken, mem_append, mem_reverse]

theorem trans (first : s.Grows given s') (second : s'.Grows given' s'') :
    s.Grows (given ++ given') s'' := by
  have later : ∀ name ∈ given', name ∉ given ∧ name ∉ s.taken := fun name member =>
    not_or.mp fun taken => second.free name member (first.mem_taken.mpr taken)
  refine ⟨?_, ?_, ?_, ?_⟩
  · rw [second.taken, first.taken, reverse_append, append_assoc]
  · refine nodup_append.mpr ⟨first.distinct, second.distinct, ?_⟩
    rintro name inFirst _ inSecond rfl
    exact (later name inSecond).1 inFirst
  · exact forall_mem_append.mpr ⟨first.free, fun name member => (later name member).2⟩
  · exact forall_mem_append.mpr ⟨first.nonempty, second.nonempty⟩

theorem fresh {base name : String} (gives : s.fresh base = (name, s')) : s.Grows [name] s' := by
  have free := s.fresh_free base
  have given := s.fresh_given base
  have taken : (s.fresh base).2.taken = (s.fresh base).1 :: s.taken := rfl
  rw [gives] at free given taken
  exact ⟨taken, nodup_singleton name, by simpa using free, by simpa using given⟩

end Grows

/-- A supply gives one name for each of some base names, in order. -/
def Gives : List String → NameSupply → List String → NameSupply → Prop :=
  Chain fun base s name s' => s.fresh base = (name, s')

theorem Gives.grows {bases names : List String} {s s' : NameSupply}
    (gives : Gives bases s names s') : s.Grows names s' := by
  induction gives with
  | nil s => exact .refl s
  | cons head _ ih => exact (Grows.fresh head).trans ih

end NameSupply

def renameBy (pairs : List (String × String)) (name : String) : String :=
  (pairs.lookup name).getD name

section Pairs

variable {pairs : List (String × String)} {x y : String}

theorem renameBy_of_mem (distinct : (pairs.map Prod.fst).Nodup) (member : (x, y) ∈ pairs) :
    renameBy pairs x = y := by
  rw [renameBy, lookup_of_mem distinct member, Option.getD_some]

theorem mem_renameBy (distinct : (pairs.map Prod.fst).Nodup) (paired : x ∈ pairs.map Prod.fst) :
    (x, renameBy pairs x) ∈ pairs := by
  obtain ⟨⟨a, b⟩, member, rfl⟩ := mem_map.mp paired
  rwa [renameBy_of_mem distinct member]

theorem renameBy_of_not_mem (absent : x ∉ pairs.map Prod.fst) : renameBy pairs x = x := by
  rw [renameBy, lookup_eq_none absent, Option.getD_none]

theorem renameBy_reverse (distinct : (pairs.map Prod.fst).Nodup) (x : String) :
    renameBy pairs.reverse x = renameBy pairs x := by
  have reversed : (pairs.reverse.map Prod.fst).Nodup := by
    rw [map_reverse]
    exact nodup_reverse.mpr distinct
  by_cases given : x ∈ pairs.map Prod.fst
  · obtain ⟨⟨a, b⟩, member, rfl⟩ := mem_map.mp given
    rw [renameBy_of_mem distinct member, renameBy_of_mem reversed (mem_reverse.mpr member)]
  · rw [renameBy_of_not_mem given, renameBy_of_not_mem (by simpa using given)]

end Pairs

/-- One more name is met: it is listed unless it is kept or was met before. -/
def meet (keep : String → Bool) (met : List String) (name : String) : List String :=
  if keep name || met.contains name then met else name :: met

theorem mem_foldl_meet {keep : String → Bool} {names met : List String} {x : String} :
    x ∈ names.foldl (meet keep) met ↔ x ∈ met ∨ x ∈ names ∧ keep x = false := by
  induction names generalizing met with
  | nil => simp
  | cons name names ih =>
    rw [foldl_cons, ih, meet]
    split
    · next known =>
      simp only [Bool.or_eq_true, contains_iff_mem] at known
      grind
    · next new =>
      simp only [Bool.or_eq_true, contains_iff_mem, not_or, Bool.not_eq_true] at new
      grind

end TaskNet
