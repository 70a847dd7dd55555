import Mathlib.Algebra.GroupWithZero.Nat
import Mathlib.Algebra.Order.BigOperators.Group.List
import Mathlib.Algebra.Order.Group.Nat
import Mathlib.Data.List.DropRight
import TaskNet.Proofs.Function.Overload

/-!
Tables built by registrations and removals. The overloads of a name are the signatures registered
since it was last removed, each once and in order, whatever digest they are kept by. A call then
resolves to the cheapest of those that take its arguments, and of equally cheap ones to the one that
was registered first.
-/

namespace TaskNet

open List

variable {entries : List (String × OverloadSet)} {sigs : List Signature} {o : OverloadSet}

/-- One change to a table of overloads. -/
inductive TableChange where
  | register (name : String) (sig : Signature)
  | remove (name : String)
  deriving DecidableEq

def TableChange.signature? (name : String) : TableChange → Option Signature
  | .register n sig => if n = name then some sig else none
  | .remove _ => none

/-- The signatures registered under a name since it was last removed, in order and with
repetitions. -/
def registered (name : String) (changes : List TableChange) : List Signature :=
  (changes.rtakeWhile (· ≠ .remove name)).filterMap (TableChange.signature? name)

namespace OverloadTable

def apply (digest : Signature → UInt64) (t : OverloadTable) : TableChange → OverloadTable
  | .register name sig => (t.registerBy digest name sig).1
  | .remove name => t.remove name

def built (digest : Signature → UInt64) (changes : List TableChange) : OverloadTable :=
  changes.foldl (apply digest) empty

end OverloadTable

section Registered

variable {name other : String} {changes : List TableChange} {sig : Signature}

@[simp]
theorem registered_nil : registered name [] = [] := rfl

@[simp]
theorem registered_register :
    registered name (changes ++ [.register other sig]) =
      if other = name then registered name changes ++ [sig] else registered name changes := by
  by_cases same : other = name <;>
    simp [registered, TableChange.signature?, same]

@[simp]
theorem registered_remove :
    registered name (changes ++ [.remove other]) =
      if other = name then [] else registered name changes := by
  by_cases same : other = name <;>
    simp [registered, TableChange.signature?, same]

end Registered

/-- The overloads of a name stand for a list of registrations: they are its signatures without
repetitions, and the digest of each has been seen. After a collision there are fewer digests than
signatures, so nothing is said in the other direction. -/
structure OverloadSet.StandsFor (digest : Signature → UInt64) (sigs : List Signature)
    (o : OverloadSet) : Prop where
  signatures : o.signatures = sigs.eraseDups
  digests : ∀ s ∈ sigs, digest s ∈ o.digests

namespace OverloadSet.StandsFor

variable {digest : Signature → UInt64} {sigs : List Signature} {o : OverloadSet}

theorem insertBy (stands : o.StandsFor digest sigs) (sig : Signature) :
    (o.insertBy digest sig).1.StandsFor digest (sigs ++ [sig]) := by
  have member : sig ∈ o.signatures ↔ sig ∈ sigs := by rw [stands.signatures, mem_eraseDups]
  rw [OverloadSet.insertBy]
  split
  · next seen =>
    have digests : ∀ s ∈ sigs ++ [sig], digest s ∈ o.digests := by
      intro s inside
      rcases mem_append.mp inside with before | here
      · exact stands.digests s before
      · rw [mem_singleton.mp here]
        exact mem_of_elem_eq_true seen
    split
    · next place found =>
      have old : sig ∈ sigs := by
        rw [← member, ← isSome_idxOf?, found]
        rfl
      exact ⟨by rw [eraseDups_concat, if_pos old, stands.signatures], digests⟩
    · next fails =>
      have new : sig ∉ sigs := by
        rw [← member, ← isSome_idxOf?, fails]
        exact Bool.false_ne_true
      exact ⟨by rw [eraseDups_concat, if_neg new, stands.signatures], digests⟩
  · next unseen =>
    have new : sig ∉ sigs := fun old =>
      unseen (elem_eq_true_of_mem (stands.digests sig old))
    refine ⟨by rw [eraseDups_concat, if_neg new, stands.signatures], fun s inside => ?_⟩
    rcases mem_append.mp inside with before | here
    · exact mem_cons_of_mem _ (stands.digests s before)
    · rw [mem_singleton.mp here]
      exact mem_cons_self

/-- The place an insertion gives is the first one that holds the signature. -/
theorem idxOf?_insertBy (stands : o.StandsFor digest sigs) (sig : Signature) :
    (o.insertBy digest sig).1.signatures.idxOf? sig = some (o.insertBy digest sig).2 := by
  have appended (new : sig ∉ o.signatures) :
      (o.signatures ++ [sig]).idxOf? sig = some o.signatures.length := by
    rw [idxOf?_eq_some_iff]
    grind
  rw [OverloadSet.insertBy]
  split
  · split
    · next found => exact found
    · next fails => exact appended (idxOf?_eq_none_iff.mp fails)
  · next unseen =>
    refine appended fun old => unseen (elem_eq_true_of_mem (stands.digests sig ?_))
    rwa [stands.signatures, mem_eraseDups] at old

end OverloadSet.StandsFor

namespace OverloadTable

variable {name other : String} {t : OverloadTable} {digest : Signature → UInt64}
variable {changes : List TableChange} {sig : Signature} {args params : List TypeTag}

theorem lookup_cons {key : String} :
    ((key, o) :: entries).lookup name = if name = key then some o else entries.lookup name := by
  rw [List.lookup_cons]
  by_cases same : name = key
  · simp [same]
  · rw [beq_false_of_ne same, if_neg same]

theorem lookup_put :
    (put name o entries).lookup other = if other = name then some o else entries.lookup other := by
  induction entries with
  | nil => rw [put, lookup_cons]
  | cons e entries ih =>
    obtain ⟨key, old⟩ := e
    rw [put]
    split
    · next here =>
      obtain rfl := eq_of_beq here
      rw [lookup_cons, lookup_cons]
      split <;> rfl
    · next away =>
      rw [lookup_cons, lookup_cons, ih]
      by_cases same : other = key <;> simp_all

theorem lookup_filter :
    (entries.filter fun e => e.1 != name).lookup other =
      if other = name then none else entries.lookup other := by
  induction entries with
  | nil => simp
  | cons e entries ih =>
    obtain ⟨key, old⟩ := e
    rw [filter_cons, lookup_cons]
    by_cases here : key = name
    · simp only [here, bne_self_eq_false, Bool.false_eq_true, if_false, ih]
      split <;> rfl
    · rw [if_pos (by simpa using here), lookup_cons, ih]
      by_cases same : other = key <;> simp_all

@[simp]
theorem find?_registerBy :
    (t.registerBy digest other sig).1.find? name =
      if name = other then some (((t.find? other).getD .empty).insertBy digest sig).1
      else t.find? name :=
  lookup_put

@[simp]
theorem find?_remove :
    (t.remove other).find? name = if name = other then none else t.find? name :=
  lookup_filter

theorem overloads_eq : t.overloads name = ((t.find? name).getD .empty).signatures := by
  rw [overloads]
  cases t.find? name <;> rfl

/-- A table keeps the registrations of a name: the name is there exactly when there are some, and
what it holds stands for them. -/
structure Keeps (digest : Signature → UInt64) (name : String) (sigs : List Signature)
    (t : OverloadTable) : Prop where
  find?_eq_none : t.find? name = none ↔ sigs = []
  stands : ((t.find? name).getD .empty).StandsFor digest sigs

/-- Every change keeps what a table says of a name in step with the registrations. -/
theorem Keeps.apply (keeps : t.Keeps digest name (registered name changes)) (change : TableChange) :
    (t.apply digest change).Keeps digest name (registered name (changes ++ [change])) := by
  cases change with
  | register other sig =>
    by_cases same : name = other
    · subst same
      refine ⟨?_, ?_⟩
      · simp [OverloadTable.apply]
      · simpa [OverloadTable.apply] using keeps.stands.insertBy sig
    · have away : other ≠ name := Ne.symm same
      exact ⟨by simpa [OverloadTable.apply, same, away] using keeps.find?_eq_none,
        by simpa [OverloadTable.apply, same, away] using keeps.stands⟩
  | remove other =>
    by_cases same : name = other
    · subst same
      exact ⟨by simp [OverloadTable.apply],
        ⟨by simp [OverloadTable.apply, OverloadSet.empty], by simp⟩⟩
    · have away : other ≠ name := Ne.symm same
      exact ⟨by simpa [OverloadTable.apply, same, away] using keeps.find?_eq_none,
        by simpa [OverloadTable.apply, same, away] using keeps.stands⟩

theorem built_concat (change : TableChange) :
    built digest (changes ++ [change]) = (built digest changes).apply digest change := by
  rw [built, foldl_append]
  rfl

theorem built_keeps (digest : Signature → UInt64) (name : String) (changes : List TableChange) :
    (built digest changes).Keeps digest name (registered name changes) := by
  induction changes using reverseRecOn with
  | nil => exact ⟨by simp [built, empty, find?], ⟨rfl, by simp⟩⟩
  | append_singleton changes change ih =>
    rw [built_concat]
    exact ih.apply change

/-- However signatures are digested, the overloads of a name are the signatures registered since it
was last removed, in order and without those that equal an earlier one. A further registration gives
the place of the one overload that stands for its signature. -/
theorem overloads_built (digest : Signature → UInt64) (changes : List TableChange) (name : String)
    (sig : Signature) :
    (built digest changes).overloads name = (registered name changes).eraseDups ∧
      ((built digest (changes ++ [.register name sig])).overloads name).idxOf? sig =
        some ((built digest changes).registerBy digest name sig).2 := by
  have keeps := built_keeps digest name changes
  refine ⟨by rw [overloads_eq, keeps.stands.signatures], ?_⟩
  rw [built_concat, apply, overloads_eq, find?_registerBy, if_pos rfl]
  exact keeps.stands.idxOf?_insertBy sig

/-- All signatures may share one digest, and each is still kept once. -/
example :
    (built (fun _ => 0) [.register "f" ⟨.float, [.float]⟩, .register "f" ⟨.int8, []⟩,
      .register "f" ⟨.float, [.float]⟩]).overloads "f" = [⟨.float, [.float]⟩, ⟨.int8, []⟩] := by
  decide

end OverloadTable

namespace Signature

/-- A signature takes arguments: there are as many as parameters, and each converts. -/
def Accepts (sig : Signature) (args : List TypeTag) : Prop :=
  Forall₂ (fun a p => a.wideningCost p ≠ none) args sig.params

/-- The sum of the costs of converting each argument to its parameter. -/
def totalCost (sig : Signature) (args : List TypeTag) : Nat :=
  (zipWith (fun a p => (a.wideningCost p).getD 0) args sig.params).sum

/-- A signature is the one of a list that a call takes: it takes the arguments, none that does so
costs less, and none of equal cost stands earlier. -/
structure Preferred (sigs : List Signature) (args : List TypeTag) (sig : Signature) : Prop where
  member : sig ∈ sigs
  accepts : sig.Accepts args
  least : ∀ other ∈ sigs, other.Accepts args → sig.totalCost args ≤ other.totalCost args
  earliest : ∀ other ∈ sigs, other.Accepts args → other.totalCost args = sig.totalCost args →
    sigs.idxOf sig ≤ sigs.idxOf other

theorem Preferred.unique {args : List TypeTag} {sig other : Signature}
    (one : Preferred sigs args sig) (two : Preferred sigs args other) : sig = other := by
  have cost : sig.totalCost args = other.totalCost args :=
    Nat.le_antisymm (one.least other two.member two.accepts) (two.least sig one.member one.accepts)
  have place : sigs.idxOf sig = sigs.idxOf other :=
    Nat.le_antisymm (one.earliest other two.member two.accepts cost.symm)
      (two.earliest sig one.member one.accepts cost)
  exact (idxOf_inj one.member).mp place

end Signature

namespace OverloadTable

variable {name : String} {t : OverloadTable} {digest : Signature → UInt64}
variable {changes : List TableChange} {sig : Signature} {args params : List TypeTag} {cost : Nat}

theorem costOf_of_forall₂
    (converts : Forall₂ (fun a p => a.wideningCost p ≠ none) args params) :
    costOf args params =
      some (zipWith (fun a p => (a.wideningCost p).getD 0) args params).sum := by
  induction converts with
  | nil => rfl
  | cons here _ rest =>
    obtain ⟨cost, found⟩ := Option.ne_none_iff_exists'.mp here
    simp [costOf, rest, found]

/-- A signature has a rank exactly when it takes the arguments, and the rank is the total cost. -/
theorem rank_eq_some :
    rank sig args = some cost ↔ sig.Accepts args ∧ sig.totalCost args = cost := by
  constructor
  · intro takes
    have converts := forall₂_of_costOf takes
    exact ⟨converts, Option.some.inj ((costOf_of_forall₂ converts).symm.trans takes)⟩
  · rintro ⟨converts, rfl⟩
    exact costOf_of_forall₂ converts

theorem rank_eq_none : rank sig args = none ↔ ¬ sig.Accepts args := by
  simp [Option.eq_none_iff_forall_ne_some, rank_eq_some]

/-- What the search among overloads without repetitions finds is preferred among all
registrations. -/
theorem preferred_of_foldl
    (chosen : sigs.eraseDups.foldl (better args) none = some (sig, cost)) :
    sig.Preferred sigs args := by
  obtain ⟨before, after, split, takes, less, least⟩ := foldl_better_split chosen
  obtain ⟨accepts, rfl⟩ := rank_eq_some.mp takes
  have placed : sigs.eraseDups.Pairwise fun a b => sigs.idxOf a < sigs.idxOf b :=
    eraseDups_pairwise
  have member (s : Signature) : s ∈ sigs ↔ s ∈ before ∨ s = sig ∨ s ∈ after := by
    rw [← mem_eraseDups, split]
    simp
  rw [split] at placed
  refine ⟨(member sig).mpr (by simp), accepts, fun other inside takes => ?_,
    fun other inside takes same => ?_⟩
  · rcases (member other).mp inside with early | rfl | late
    · exact (less other early _ (rank_eq_some.mpr ⟨takes, rfl⟩)).le
    · exact le_rfl
    · exact least other late _ (rank_eq_some.mpr ⟨takes, rfl⟩)
  · rcases (member other).mp inside with early | rfl | late
    · exact absurd same (less other early _ (rank_eq_some.mpr ⟨takes, rfl⟩)).ne'
    · exact le_rfl
    · exact ((pairwise_cons.mp (pairwise_append.mp placed).2.1).1 other late).le

/-- The three outcomes of a call, in terms of the registrations a table keeps. -/
theorem Keeps.resolve (keeps : t.Keeps digest name sigs)
    (args : List TypeTag) :
    (sigs = [] ∧ t.resolve name args = .error (.unknownFunction name)) ∨
      (sigs ≠ [] ∧ (∀ sig ∈ sigs, ¬ sig.Accepts args) ∧
        t.resolve name args = .error (.noOverload name args)) ∨
      ∃ sig, sig.Preferred sigs args ∧ t.resolve name args = .ok sig := by
  rw [OverloadTable.resolve]
  cases found : t.find? name with
  | none => exact .inl ⟨keeps.find?_eq_none.mp found, rfl⟩
  | some o =>
    have present : sigs ≠ [] := fun absent => by
      rw [keeps.find?_eq_none.mpr absent] at found
      cases found
    have signatures : o.signatures = sigs.eraseDups := by
      simpa [found] using keeps.stands.signatures
    refine .inr ?_
    cases best : o.signatures.foldl (better args) none with
    | none =>
      refine .inl ⟨present, fun sig inside => rank_eq_none.mp ?_, by simp only [best]⟩
      exact (foldl_better_none best).2 sig (by rwa [signatures, mem_eraseDups])
    | some pick =>
      rw [signatures] at best
      exact .inr ⟨pick.1, preferred_of_foldl best, by simp only [signatures, best]⟩

/-- A call of a name fails as unknown exactly when the name was not registered since it was last
removed, and as without overload exactly when none of its overloads takes the arguments. In every
other case it resolves, to the overload of least total cost, and of those of equal cost to the one
registered first. -/
theorem resolve_built (digest : Signature → UInt64) (changes : List TableChange) (name : String)
    (args : List TypeTag) :
    ((built digest changes).resolve name args = .error (.unknownFunction name) ↔
        registered name changes = []) ∧
      ((built digest changes).resolve name args = .error (.noOverload name args) ↔
        registered name changes ≠ [] ∧ ∀ sig ∈ registered name changes, ¬ sig.Accepts args) ∧
      ((∃ sig, (built digest changes).resolve name args = .ok sig) ↔
        ∃ sig ∈ registered name changes, sig.Accepts args) ∧
      ∀ sig, (built digest changes).resolve name args = .ok sig ↔
        sig.Preferred (registered name changes) args := by
  rcases (built_keeps digest name changes).resolve args with
    ⟨absent, unknown⟩ | ⟨present, untaken, fails⟩ | ⟨chosen, preferred, resolves⟩
  · rw [unknown, absent]
    refine ⟨by simp, by simp, by simp, fun sig => ⟨by simp, fun preferred => ?_⟩⟩
    cases preferred.member
  · rw [fails]
    refine ⟨by simp [present], by simpa [present] using untaken, by simpa using untaken,
      fun sig => ⟨by simp, fun preferred => ?_⟩⟩
    exact absurd preferred.accepts (untaken sig preferred.member)
  · rw [resolves]
    have taken : ∃ sig ∈ registered name changes, sig.Accepts args :=
      ⟨chosen, preferred.member, preferred.accepts⟩
    refine ⟨?_, by simpa using fun _ => taken, by simpa using taken, fun sig => ⟨?_, ?_⟩⟩
    · simpa using ne_nil_of_mem preferred.member
    · rintro ⟨⟩
      exact preferred
    · intro other
      rw [preferred.unique other]

end OverloadTable

end TaskNet
