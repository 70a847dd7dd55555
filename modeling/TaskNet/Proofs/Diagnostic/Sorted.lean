import TaskNet.Diagnostic.Collector

/-!
Collected diagnostics as they are read. They come out in the order of their places, and none is lost
or made up. Duplicates are dropped when they are neighbours. The order does not tell apart
diagnostics of one place, problem and text whose files or arguments differ, so one of them that was
recorded between two equal diagnostics keeps both.
-/

namespace TaskNet

open List

theorem Problem.ofNumber_number (p : Problem) : ofNumber p.number.toUInt8 = p := by
  cases p with
  | foreign code outside =>
    have same : code.toNat.toUInt8 = code := UInt8.ofNat_toNat
    rw [number, same, ofNumber, dif_neg (Nat.not_lt.mpr outside)]
  | _ => rfl

theorem Problem.number_inj {p q : Problem} (same : p.number = q.number) : p = q := by
  rw [← ofNumber_number p, same, ofNumber_number]

theorem Location.before_iff {a b : Location} :
    a.before b = true ↔ a.line < b.line ∨ (a.line = b.line ∧ a.column < b.column) := by
  rw [before]
  split
  · next other =>
    have other : a.line ≠ b.line := by simpa using other
    simp [other]
  · next same =>
    have same : a.line = b.line := by simpa using same
    simp [same]

namespace Diagnostic

/-- Two diagnostics that the order does not tell apart: they are about one place and problem and
have the same text. -/
def Alike (a b : Diagnostic) : Prop :=
  a.loc.line = b.loc.line ∧ a.loc.column = b.loc.column ∧ a.problem = b.problem ∧
    a.message = b.message

instance (a b : Diagnostic) : Decidable (a.Alike b) :=
  inferInstanceAs (Decidable (_ ∧ _ ∧ _ ∧ _))

theorem Alike.trans {a b c : Diagnostic} (first : a.Alike b) (second : b.Alike c) : a.Alike c :=
  ⟨first.1.trans second.1, first.2.1.trans second.2.1, first.2.2.1.trans second.2.2.1,
    first.2.2.2.trans second.2.2.2⟩

theorem Alike.symm {a b : Diagnostic} (alike : a.Alike b) : b.Alike a :=
  ⟨alike.1.symm, alike.2.1.symm, alike.2.2.1.symm, alike.2.2.2.symm⟩

end Diagnostic

namespace Collector

open Diagnostic

variable {a b c d : Diagnostic} {ds : List Diagnostic}

/-- The order of diagnostics: by line, column, number of the problem and text. -/
theorem precedes_iff : precedes a b = true ↔ a.loc.line < b.loc.line ∨ (a.loc.line = b.loc.line ∧
    (a.loc.column < b.loc.column ∨ (a.loc.column = b.loc.column ∧
      (a.problem.number < b.problem.number ∨
      (a.problem = b.problem ∧ a.message ≤ b.message))))) := by
  have numbers : a.problem ≠ b.problem → a.problem.number ≠ b.problem.number :=
    fun other same => other (Problem.number_inj same)
  rw [precedes]
  split
  · next first =>
    rw [Location.before_iff] at first
    grind
  next notFirst =>
  rw [Location.before_iff] at notFirst
  split
  · next last =>
    rw [Location.before_iff] at last
    grind
  next notLast =>
  rw [Location.before_iff] at notLast
  have line : a.loc.line = b.loc.line := by omega
  have column : a.loc.column = b.loc.column := by omega
  split
  · next other =>
    have other : a.problem ≠ b.problem := by simpa using other
    have apart := numbers other
    simp only [decide_eq_true_eq, line, column, other, Int.lt_irrefl, false_or, false_and,
      or_false, true_and]
    omega
  · next same =>
    have same : a.problem = b.problem := by simpa using same
    simp [line, column, same]

theorem precedes_trans (a b c : Diagnostic) (first : precedes a b = true)
    (second : precedes b c = true) : precedes a c = true := by
  rw [precedes_iff] at *
  have texts : a.message ≤ b.message → b.message ≤ c.message → a.message ≤ c.message :=
    String.le_trans
  grind

theorem precedes_total (a b : Diagnostic) : (precedes a b || precedes b a) = true := by
  rw [Bool.or_eq_true, precedes_iff, precedes_iff]
  have texts := String.le_total a.message b.message
  have numbers : a.problem.number = b.problem.number → a.problem = b.problem := Problem.number_inj
  grind

theorem alike_iff : a.Alike b ↔ precedes a b = true ∧ precedes b a = true := by
  rw [precedes_iff, precedes_iff, Alike]
  have texts : a.message ≤ b.message → b.message ≤ a.message → a.message = b.message :=
    String.le_antisymm
  have self : a.message = b.message → a.message ≤ b.message := fun same => same ▸ String.le_refl _
  have self' : a.message = b.message → b.message ≤ a.message := fun same => same ▸ String.le_refl _
  grind

/-- Sorting keeps the order in which alike diagnostics were recorded. -/
theorem filter_mergeSort (d : Diagnostic) (ds : List Diagnostic) :
    (ds.mergeSort precedes).filter (fun e => d.Alike e) = ds.filter fun e => d.Alike e := by
  have inOrder : (ds.filter fun e => d.Alike e).Pairwise fun a b => precedes a b = true := by
    refine pairwise_of_forall_mem_list fun a inA b inB => ?_
    have left : d.Alike a := by simpa using (mem_filter.mp inA).2
    have right : d.Alike b := by simpa using (mem_filter.mp inB).2
    exact (alike_iff.mp (left.symm.trans right)).1
  have kept : (ds.filter fun e => d.Alike e).Sublist (ds.mergeSort precedes) :=
    sublist_mergeSort precedes_trans precedes_total inOrder filter_sublist
  have inside := kept.filter fun e => d.Alike e
  rw [filter_filter] at inside
  simp only [Bool.and_self] at inside
  exact (inside.eq_of_length ((mergeSort_perm ds precedes).filter _).length_eq.symm).symm

theorem compact_sublist (ds : List Diagnostic) : (compact ds).Sublist ds := by
  fun_induction compact ds with
  | case1 => exact .slnil
  | case2 d => exact .refl _
  | case3 d rest ih => exact ih.cons d
  | case4 d e rest other ih => exact ih.cons_cons d

theorem mem_compact : d ∈ compact ds ↔ d ∈ ds := by
  fun_induction compact ds with
  | case1 => rfl
  | case2 e => rfl
  | case3 e rest ih => simp [ih]
  | case4 e f rest other ih => rw [mem_cons, ih, mem_cons (l := f :: rest)]

/-- A diagnostic is left once if no other one stands between two copies of it. -/
theorem count_compact_le : (compact ds).count d ≤ 1 ↔ ∀ e, [d, e, d].Sublist ds → e = d := by
  fun_induction compact ds with
  | case1 => simp
  | case2 x =>
    refine ⟨fun _ e inside => ?_, fun _ => count_le_length⟩
    have long := inside.length_le
    simp at long
  | case3 x rest ih =>
    rw [ih]
    refine ⟨fun each e inside => ?_, fun each e inside => each e (inside.cons x)⟩
    cases inside with
    | cons _ later => exact each e later
    | cons_cons _ later =>
      cases later with
      | cons _ latest => exact each e (latest.cons_cons _)
      | cons_cons _ _ => rfl
  | case4 x y rest other ih =>
    by_cases here : x = d
    · subst here
      rw [count_cons_self, Nat.succ_le_succ_iff, Nat.le_zero, count_eq_zero,
        mem_compact]
      refine ⟨fun absent e inside => ?_, fun each member => ?_⟩
      · refine absurd ?_ absent
        cases inside with
        | cons _ later => exact later.subset (by simp)
        | cons_cons _ later => exact later.subset (by simp)
      · have later : x ∈ rest := (mem_cons.mp member).resolve_left other
        exact other (each y (.cons_cons x (.cons_cons y (singleton_sublist.mpr later)))).symm
    · rw [count_cons_of_ne here, ih]
      refine ⟨fun each e inside => ?_, fun each e inside => each e (inside.cons x)⟩
      cases inside with
      | cons _ later => exact each e later
      | cons_cons _ _ => exact absurd rfl here

/-- Collected diagnostics are read in the order of their lines and columns, exactly those that were
recorded. One is there once exactly if none that is alike and not equal was recorded between two
recordings of it. -/
theorem sorted_once_iff (c : Collector) :
    c.sorted.Pairwise (fun a b => b.loc.before a.loc = false) ∧
      (∀ d, d ∈ c.sorted ↔ d ∈ c.recorded) ∧
      ∀ d, c.sorted.count d = 1 ↔ d ∈ c.recorded ∧
        ∀ e, d.Alike e → [d, e, d].Sublist c.recorded → e = d := by
  have inOrder : (c.recorded.mergeSort precedes).Pairwise fun a b => precedes a b = true :=
    pairwise_mergeSort precedes_trans precedes_total c.recorded
  have members : ∀ d, d ∈ c.sorted ↔ d ∈ c.recorded := fun d =>
    mem_compact.trans (mergeSort_perm c.recorded precedes).mem_iff
  refine ⟨?_, members, fun d => ?_⟩
  · refine (inOrder.sublist (compact_sublist _)).imp fun {a b} first => ?_
    rw [precedes_iff] at first
    rw [Bool.eq_false_iff, Ne, Location.before_iff]
    omega
  · have between : (∀ e, [d, e, d].Sublist (c.recorded.mergeSort precedes) → e = d) ↔
        ∀ e, d.Alike e → [d, e, d].Sublist c.recorded → e = d := by
      have same : ∀ e, d.Alike e → ([d, e, d].Sublist (c.recorded.mergeSort precedes) ↔
          [d, e, d].Sublist c.recorded) := by
        intro e alike
        have all : [d, e, d].filter (fun e => d.Alike e) = [d, e, d] := by
          simp [alike, show d.Alike d from alike.trans alike.symm]
        constructor
        · intro inside
          have kept := inside.filter fun e => d.Alike e
          rw [all, filter_mergeSort] at kept
          exact kept.trans filter_sublist
        · intro inside
          have kept := inside.filter fun e => d.Alike e
          rw [all, ← filter_mergeSort] at kept
          exact kept.trans filter_sublist
      refine ⟨fun each e alike inside => each e ((same e alike).mpr inside),
        fun each e inside => ?_⟩
      -- what stands between two copies is alike
      have ordered := inOrder.sublist inside
      simp only [pairwise_cons, mem_cons, not_mem_nil, or_false] at ordered
      have alike : d.Alike e := alike_iff.mpr ⟨ordered.1 e (.inl rfl), ordered.2.1 d rfl⟩
      exact each e alike ((same e alike).mp inside)
    rw [← between, ← count_compact_le, ← members, ← count_pos_iff]
    exact ⟨fun once => by rw [sorted] at *; omega, fun both => by rw [sorted] at *; omega⟩

/-- A diagnostic that is recorded again after one of another file with the same place and text. -/
theorem sorted_repeats :
    let d : Diagnostic := .make .unboundVar ⟨"a.htn", 1, 1⟩ [.name "x"]
    let e : Diagnostic := .make .unboundVar ⟨"b.htn", 1, 1⟩ [.name "x"]
    (((Collector.empty.append [d]).append [e]).append [d]).sorted.count d = 2 := by
  intro d e
  have inOrder : [d, e, d].mergeSort precedes = [d, e, d] := mergeSort_of_pairwise (by decide)
  have read : (((Collector.empty.append [d]).append [e]).append [d]).sorted = compact [d, e, d] :=
    congrArg compact inOrder
  rw [read]
  decide

end Collector

end TaskNet
