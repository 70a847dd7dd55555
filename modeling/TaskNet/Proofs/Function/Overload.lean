import TaskNet.Compile
import TaskNet.Proofs.Lists

/-!
Resolution of calls to functions. A call resolves to a registered overload, and when it does not,
no overload takes its arguments. Intrinsic functions return concrete types, also when some of them
are disabled.
-/

namespace TaskNet.OverloadTable

open List

variable {args : List TypeTag} {sigs : List Signature} {o : OverloadSet}
variable {best : Option (Signature × Nat)} {sig : Signature} {cost : Nat} {params : List TypeTag}
  {name : String}

/-- Nothing is chosen only when no overload applies. -/
theorem foldl_better_none (nothing : sigs.foldl (better args) best = none) :
    best = none ∧ ∀ sig ∈ sigs, rank sig args = none := by
  induction sigs generalizing best with
  | nil => exact ⟨nothing, by simp⟩
  | cons next rest ih =>
    obtain ⟨now, later⟩ := ih nothing
    rw [better.eq_def] at now
    split at now
    · next fails => exact ⟨now, by simpa [fails] using later⟩
    · cases now
    · split at now <;> cases now

/-- What is chosen takes the arguments. It costs less than every overload before it, and no more
than every overload after it. -/
theorem foldl_better_split (chosen : sigs.foldl (better args) none = some (sig, cost)) :
    ∃ before after, sigs = before ++ sig :: after ∧ rank sig args = some cost ∧
      (∀ s ∈ before, ∀ r, rank s args = some r → cost < r) ∧
      ∀ s ∈ after, ∀ r, rank s args = some r → cost ≤ r := by
  -- From the left: the last overload is compared with what the ones before it left.
  induction sigs using List.reverseRecOn generalizing sig cost with
  | nil => cases chosen
  | append_singleton sigs next ih =>
    rw [foldl_append, foldl_cons, foldl_nil, better.eq_def] at chosen
    split at chosen
    · next fails =>
      obtain ⟨before, after, rfl, takes, less, least⟩ := ih chosen
      exact ⟨before, after ++ [next], by simp, takes, less, by grind⟩
    · next takes nothing =>
      cases chosen
      have untaken := (foldl_better_none nothing).2
      exact ⟨sigs, [], rfl, takes, by grind, by simp⟩
    · next b old takes best =>
      obtain ⟨before, after, rfl, bTakes, less, least⟩ := ih best
      split at chosen
      · next lower =>
        cases chosen
        exact ⟨_, [], rfl, takes, by grind, by simp⟩
      · next notLower =>
        cases chosen
        exact ⟨before, after ++ [next], by simp, bTakes, less, by grind⟩

theorem forall₂_of_costOf (takes : costOf args params = some cost) :
    List.Forall₂ (fun a p => a.wideningCost p ≠ none) args params := by
  induction args generalizing params cost with
  | nil =>
    cases params with
    | nil => exact .nil
    | cons _ _ => cases takes
  | cons a args ih =>
    cases params with
    | nil => cases takes
    | cons p params =>
      rw [costOf] at takes
      split at takes
      · next here rest => exact .cons (by simp [here]) (ih rest)
      · cases takes

variable {t : OverloadTable}

/-- The overload a call resolves to, among the overloads of its name. -/
theorem resolve_ok (resolved : t.resolve name args = .ok sig) :
    ∃ o cost, t.find? name = some o ∧ o.signatures.foldl (better args) none = some (sig, cost) := by
  rw [resolve] at resolved
  split at resolved
  · cases resolved
  · next o found =>
    split at resolved
    · cases resolved
    · next chosen cost best =>
      cases resolved
      exact ⟨o, cost, found, best⟩

theorem resolve_mem (resolved : t.resolve name args = .ok sig) :
    ∃ o, (name, o) ∈ t.entries ∧ sig ∈ o.signatures := by
  obtain ⟨o, cost, found, best⟩ := resolve_ok resolved
  obtain ⟨before, after, split, -⟩ := foldl_better_split best
  exact ⟨o, mem_of_lookup found, by simp [split]⟩

/-- The arguments of a call convert to the parameters of the overload it resolves to. -/
theorem resolve_converts (resolved : t.resolve name args = .ok sig) :
    List.Forall₂ (fun a p => a.wideningCost p ≠ none) args sig.params := by
  obtain ⟨o, cost, found, best⟩ := resolve_ok resolved
  obtain ⟨before, after, -, takes, -⟩ := foldl_better_split best
  exact forall₂_of_costOf takes

/-- When a call does not resolve, no overload of its name takes its arguments. -/
theorem resolve_error {e : ResolveError} (failed : t.resolve name args = .error e) :
    ∀ sig ∈ t.overloads name, rank sig args = none := by
  rw [resolve] at failed
  rw [overloads]
  split at failed
  · next absent => simp [absent]
  · next o found =>
    split at failed
    · next nothing =>
      rw [found]
      exact (foldl_better_none nothing).2
    · cases failed

/-- Arguments that do not fit parameters of the same number have one that does not convert. -/
theorem exists_of_costOf (fails : costOf args params = none)
    (length : params.length = args.length) :
    ∃ pair ∈ args.zip params, pair.1.wideningCost pair.2 = none := by
  induction args generalizing params with
  | nil =>
    obtain rfl := length_eq_zero_iff.mp length
    cases fails
  | cons arg args ih =>
    cases params with
    | nil => cases length
    | cons param params =>
      rw [costOf] at fails
      rw [zip_cons_cons]
      cases here : arg.wideningCost param with
      | none => exact ⟨(arg, param), by simp, here⟩
      | some cost =>
        cases below : costOf args params with
        | none =>
          obtain ⟨pair, member, none⟩ := ih below (by simpa using length)
          exact ⟨pair, mem_cons_of_mem _ member, none⟩
        | some rest =>
          rw [here, below] at fails
          cases fails

/-- Every function of a table returns a concrete type. -/
def Concrete (t : OverloadTable) : Prop :=
  ∀ e ∈ t.entries, ∀ sig ∈ e.2.signatures, sig.result.isConcrete = true

theorem Concrete.resolve (concrete : t.Concrete) (resolved : t.resolve name args = .ok sig) :
    sig.result.isConcrete = true := by
  obtain ⟨o, member, inside⟩ := resolve_mem resolved
  exact concrete _ member sig inside

theorem mem_put {entries : List (String × OverloadSet)} {e : String × OverloadSet}
    (member : e ∈ put name o entries) : e.2 = o ∨ e ∈ entries := by
  induction entries with
  | nil => exact .inl (by rw [mem_singleton.mp member])
  | cons first rest ih =>
    rw [put] at member
    split at member
    · rcases mem_cons.mp member with rfl | later
      · exact .inl rfl
      · exact .inr (by simp [later])
    · rcases mem_cons.mp member with rfl | later
      · exact .inr (by simp)
      · exact (ih later).imp_right (mem_cons_of_mem _)

/-- A signature after an insertion was there or is the inserted one. -/
theorem mem_insertBy {digest : Signature → UInt64} {r : Signature}
    (member : r ∈ (o.insertBy digest sig).1.signatures) : r ∈ o.signatures ∨ r = sig := by
  rw [OverloadSet.insertBy] at member
  split at member
  · split at member
    · exact .inl member
    · simpa using member
  · simpa using member

theorem Concrete.register (concrete : t.Concrete) (name : String) {sig : Signature}
    (result : sig.result.isConcrete = true) : (t.register name sig).1.Concrete := by
  have old : ∀ r ∈ ((t.find? name).getD .empty).signatures, r.result.isConcrete = true := by
    cases found : t.find? name with
    | none => simp [OverloadSet.empty]
    | some o => exact concrete _ (mem_of_lookup found)
  intro e member r inside
  rcases mem_put member with new | before
  · rw [new] at inside
    rcases mem_insertBy inside with before | rfl
    · exact old r before
    · exact result
  · exact concrete e before r inside

theorem Concrete.remove (concrete : t.Concrete) (name : String) : (t.remove name).Concrete :=
  fun e member => concrete e (mem_filter.mp member).1

theorem Concrete.registerAll {functions : List (String × Signature)}
    (each : ∀ e ∈ functions, e.2.result.isConcrete = true) (concrete : t.Concrete) :
    (functions.foldl (fun t e => (t.register e.1 e.2).1) t).Concrete := by
  induction functions generalizing t with
  | nil => exact concrete
  | cons e functions ih =>
    exact ih (forall_mem_cons.mp each).2 (concrete.register e.1 (each e (by simp)))

theorem intrinsics_concrete : intrinsics.Concrete :=
  Concrete.registerAll (by decide) (by simp [Concrete, empty])

end TaskNet.OverloadTable

namespace TaskNet

theorem OverloadTable.Concrete.disable {t : OverloadTable} (concrete : t.Concrete)
    (log : List LogRecord) (names : List String) : (disableIntrinsics t log names).1.Concrete := by
  induction names generalizing t log with
  | nil => exact concrete
  | cons name names ih =>
    rw [disableIntrinsics]
    split
    · exact ih (concrete.remove name) log
    · exact ih concrete _

end TaskNet
