import TaskNet.Proofs.Session.Clean
import TaskNet.Proofs.Typing.Tag
import TaskNet.Typing.Global

/-!
Runs of type inference. A run may stop with a fault, and like every pass it may report problems and
go on. The rules here carry both through inference: under which condition a run gives a result, what
holds of the result, and what holds of it when nothing was reported.
-/

namespace TaskNet

variable {t : TypeTag} {next : Typing → Typing} {x : NodeId} {i k : Nat} {s s' : Typing}
  {loc : Location}

def Typing.problems (s : Typing) : Nat :=
  s.diagnostics.size

def Typing.typeAt (s : Typing) (x : NodeId) : TypeTag :=
  (s.types[x]?).getD .any

def Typing.slotAt (s : Typing) (i : Nat) : TypeTag :=
  (s.tags.items[i]?).getD .any

def Typing.overloadAt (s : Typing) (x : NodeId) : Option Signature :=
  (s.signatures[x]?).join

namespace Infer

variable {α β : Type} {T : Prop}

theorem run_bind (f : Infer α) (g : α → Infer β) (s : Typing) :
    (f >>= g).run s = match f.run s with
      | (.ok a, s') => (g a).run s'
      | (.error e, s') => (.error e, s') := by
  change (match f.run s with | (r, s') => (ExceptT.bindCont g r) s') = _
  rcases f.run s with ⟨_ | _, _⟩ <;> rfl

/-- A step that works in a number of slots gives a result under a condition. When it gives one,
there are as many slots as before, and the states before and after and the result are related. -/
def Runs (T : Prop) (k : Nat) (f : Infer α) (R : Typing → α → Typing → Prop) : Prop :=
  ∀ s, k ≤ s.tags.size → match f.run s with
    | (.ok a, s') => s'.tags.size = s.tags.size ∧ R s a s'
    | (.error _, _) => ¬ T

/-- A step that needs no slots gives a result under a condition. When it gives one, no report is
taken back, and when there is no new report either, the states before and after and the result are
related. -/
def Yields (T : Prop) (f : Infer α) (R : Typing → α → Typing → Prop) : Prop :=
  Runs T 0 f fun s a s' => s.problems ≤ s'.problems ∧ (s'.problems = s.problems → R s a s')

/-- A step gives a result and reports nothing. -/
def Ran (f : Infer α) (s : Typing) (a : α) (s' : Typing) : Prop :=
  f.run s = (.ok a, s') ∧ s'.problems = s.problems

namespace Runs

variable {f : Infer α} {R S : Typing → α → Typing → Prop}
variable {g : α → Infer β} {U : Typing → β → Typing → Prop}

theorem of_eq (runs : Runs T k f R) {a : α} (room : k ≤ s.tags.size)
    (ended : f.run s = (.ok a, s')) : R s a s' := by
  have run := runs s room
  rw [ended] at run
  exact run.2

/-- A step whose condition holds gives a result. -/
theorem exists_ok (runs : Runs T k f R) (holds : T) (s : Typing) (room : k ≤ s.tags.size) :
    ∃ a s', f.run s = (.ok a, s') ∧ R s a s' := by
  have run := runs s room
  split at run
  · next a s' ended => exact ⟨a, s', ended, run.2⟩
  · exact absurd holds run

theorem imp (runs : Runs T k f R) (weaker : ∀ s a s', f.run s = (.ok a, s') → R s a s' → S s a s') :
    Runs T k f S := by
  intro s room
  have run := runs s room
  split
  · next a s' ended =>
    rw [ended] at run
    exact ⟨run.1, weaker s a s' ended run.2⟩
  · next ended =>
    rw [ended] at run
    exact run

theorem pure {a : α} (holds : ∀ s, R s a s) : Runs T k (Pure.pure a) R :=
  fun s _ => ⟨rfl, holds s⟩

theorem throw {e : Fault} (never : ¬ T) : Runs T k (MonadExcept.throw e) R :=
  fun _ _ => never

/-- A step that always does the same to the state. -/
theorem step {a : Typing → α} (run : ∀ s, k ≤ s.tags.size → f.run s = (.ok (a s), next s))
    (kept : ∀ s, (next s).tags.size = s.tags.size) :
    Runs T k f fun s r s' => s' = next s ∧ r = a s := by
  intro s room
  rw [run s room]
  exact ⟨kept s, rfl, rfl⟩

/-- A step that looks at the state only. -/
theorem look {a : Typing → α} (run : ∀ s, k ≤ s.tags.size → f.run s = (.ok (a s), s)) :
    Runs T k f fun s r s' => s' = s ∧ r = a s :=
  step run fun _ => rfl

/-- The second step is asked for what follows from the first. -/
theorem seq (first : Runs T k f R)
    (second : ∀ a, Runs T k (g a) fun s' b s'' => ∀ s, R s a s' → U s b s'') :
    Runs T k (f >>= g) U := by
  intro s room
  have one := first s room
  rw [run_bind]
  cases ran : f.run s with
  | mk r s' =>
    rw [ran] at one
    cases r with
    | error e => exact one
    | ok a =>
      have two := second a s' (one.1.symm ▸ room)
      dsimp only at one ⊢
      split
      · next ended =>
        rw [ended] at two
        exact ⟨two.1.trans one.1, two.2 s one.2⟩
      · next ended =>
        rw [ended] at two
        exact two

end Runs

namespace Yields

variable {f : Infer α} {R S : Typing → α → Typing → Prop}
variable {g : α → Infer β} {U : Typing → β → Typing → Prop}

/-- What is related when a step gives a result and reports nothing. -/
theorem of_ran (yields : Yields T f R) {a : α} (ran : Ran f s a s') : R s a s' :=
  (Runs.of_eq yields (Nat.zero_le _) ran.1).2 ran.2

theorem ran (yields : Yields T f R) : Yields T f (Ran f) :=
  Runs.imp yields fun _ _ _ ended run => ⟨run.1, fun same => ⟨ended, same⟩⟩

theorem imp (yields : Yields T f R) (weaker : ∀ s a s', R s a s' → S s a s') : Yields T f S :=
  Runs.imp yields fun _ _ _ _ run => ⟨run.1, fun same => weaker _ _ _ (run.2 same)⟩

/-- Two relations that each step satisfies. -/
theorem both (one : Yields T f R) (two : Yields T f S) :
    Yields T f fun s a s' => R s a s' ∧ S s a s' :=
  Runs.imp one fun _ _ _ ended run =>
    ⟨run.1, fun same => ⟨run.2 same, (Runs.of_eq two (Nat.zero_le _) ended).2 same⟩⟩

theorem pure {a : α} (holds : ∀ s, R s a s) : Yields T (Pure.pure a) R :=
  Runs.pure fun s => ⟨Nat.le_refl _, fun _ => holds s⟩

/-- The second step is asked for what follows from the first. -/
theorem seq (first : Yields T f R)
    (second : ∀ a, Yields T (g a) fun s' b s'' => ∀ s, R s a s' → U s b s'') :
    Yields T (f >>= g) U :=
  Runs.seq first fun a => Runs.imp (second a) fun _ _ _ _ two s one =>
    ⟨Nat.le_trans one.1 two.1, fun same => two.2 (by omega) s (one.2 (by omega))⟩

theorem update {g : Typing → Typing} {R : Typing → PUnit → Typing → Prop}
    (kept : ∀ s, (g s).tags = s.tags ∧ (g s).problems = s.problems) (holds : ∀ s, R s ⟨⟩ (g s)) :
    Yields T (modify g) R :=
  fun s _ => ⟨congrArg Stack.size (kept s).1, Nat.le_of_eq (kept s).2.symm, fun _ => holds s⟩

/-- A step that looks at the state only. -/
theorem look {a : Typing → α} (run : ∀ s, f.run s = (.ok (a s), s)) :
    Yields T f fun s r s' => s' = s ∧ r = a s :=
  Runs.imp (Runs.look fun s _ => run s) fun _ _ _ _ both =>
    ⟨Nat.le_of_eq (by rw [both.1]), fun _ => both⟩

end Yields

/-- A step that reports is in no run that reports nothing. -/
theorem report_yields (problem : Problem) (loc : Location) (args : List Subject)
    {R : Typing → PUnit → Typing → Prop} : Yields T (report problem loc args) R := by
  intro s _
  have more : (s.diagnostics.add problem loc args).size = s.diagnostics.size + 1 := by simp
  exact ⟨rfl, Nat.le_trans (Nat.le_succ _) (Nat.le_of_eq more.symm), fun same =>
    absurd (more.symm.trans same) (Nat.succ_ne_self _)⟩

theorem typeOf_yields (x : NodeId) :
    Yields T (typeOf x) fun s u s' => s' = s ∧ u = s.typeAt x :=
  .look fun _ => rfl

/-- A step that reports, and whatever comes after it. -/
theorem report_seq_yields {problem : Problem} {args : List Subject}
    {g : PUnit → Infer β} {R : Typing → β → Typing → Prop}
    (rest : ∀ a, Yields T (g a) fun _ _ _ => True) : Yields T (report problem loc args >>= g) R :=
  .seq (report_yields problem loc args (R := fun _ _ _ => False)) fun a =>
    (rest a).imp fun _ _ _ _ _ never => never.elim

/-- A join exists, or that it does not is reported. -/
theorem join_runs (loc : Location) (name : String) (a b : TypeTag) :
    Runs T k (join loc name a b) fun s r s' =>
      (s' = s ∧ r = some (a.unify b) ∧ a.unify b ≠ .notAType) ∨
        (r = none ∧ a.unify b = .notAType ∧ s' = { s with
          diagnostics := (s.diagnostics.add .failedToUnifyType loc [.name name, .type a,
            .type b]) }) := by
  rw [join]
  split
  · next fails => exact fun s _ => ⟨rfl, .inr ⟨rfl, fails, rfl⟩⟩
  · next joins => exact .pure fun s => .inl ⟨rfl, rfl, joins⟩

end Infer

namespace Typing

variable {s : Typing} {mark : Nat}

def putType (s : Typing) (x : NodeId) (t : TypeTag) : Typing :=
  { s with types := s.types.setIfInBounds x t }

def putSlot (s : Typing) (i : Nat) (t : TypeTag) : Typing :=
  { s with tags := { s.tags with items := s.tags.items.setIfInBounds i t } }

theorem size_putSlot (s : Typing) (i : Nat) (t : TypeTag) :
    (s.putSlot i t).tags.size = s.tags.size :=
  Array.size_setIfInBounds

theorem typeAt_putType (s : Typing) (x : NodeId) (t : TypeTag) (y : NodeId) :
    (s.putType x t).typeAt y = if x = y ∧ x < s.types.size then t else s.typeAt y :=
  TypeTag.entry_set s.types x t y

theorem typeAt_putType_ne {y : NodeId} (other : x ≠ y) :
    (s.putType x t).typeAt y = s.typeAt y := by
  rw [typeAt_putType, if_neg fun both => other both.1]

theorem slotAt_putSlot (s : Typing) (i : Nat) (t : TypeTag) (j : Nat) :
    (s.putSlot i t).slotAt j = if i = j ∧ i < s.tags.items.size then t else s.slotAt j :=
  TypeTag.entry_set s.tags.items i t j

def TypesKnown (s : Typing) : Prop :=
  ∀ x, (s.typeAt x).Known

/-- Types of nodes are known, and so are those in the slots from a place on. -/
def Sane (mark : Nat) (s : Typing) : Prop :=
  s.TypesKnown ∧ ∀ i, mark ≤ i → (s.slotAt i).Known

theorem TypesKnown.putType (known : s.TypesKnown) (x : NodeId) (isKnown : t.Known) :
    (s.putType x t).TypesKnown := by
  intro y
  rw [typeAt_putType]
  split
  · exact isKnown
  · exact known y

theorem Sane.putType (sane : s.Sane mark) (x : NodeId) (isKnown : t.Known) :
    (s.putType x t).Sane mark :=
  ⟨sane.1.putType x isKnown, sane.2⟩

theorem Sane.putSlot (sane : s.Sane mark) (i : Nat) (isKnown : t.Known) :
    (s.putSlot i t).Sane mark := by
  refine ⟨sane.1, fun j above => ?_⟩
  rw [slotAt_putSlot]
  split
  · exact isKnown
  · exact sane.2 j above

/-- Inference goes on: a condition is kept, no overload is chosen, no argument is given up, and of
the nodes only given ones change their types. -/
structure Advances (I : Typing → Prop) (S : NodeId → Prop) (s s' : Typing) : Prop where
  size : s'.types.size = s.types.size
  signatures : s'.signatures = s.signatures
  reported : s'.reported = s.reported
  others : ∀ x, ¬ S x → s'.typeAt x = s.typeAt x
  keeps : I s → I s'

namespace Advances

variable {I : Typing → Prop} {S S' : NodeId → Prop} {s s' s'' : Typing}
variable {t : TypeTag}

theorem refl (s : Typing) : Advances I S s s :=
  ⟨rfl, rfl, rfl, fun _ _ => rfl, id⟩

theorem trans (first : Advances I S s s') (second : Advances I S s' s'') : Advances I S s s'' :=
  ⟨second.size.trans first.size, second.signatures.trans first.signatures,
    second.reported.trans first.reported,
    fun x outside => (second.others x outside).trans (first.others x outside),
    fun holds => second.keeps (first.keeps holds)⟩

theorem mono (wider : ∀ x, S x → S' x) (advances : Advances I S s s') : Advances I S' s s' :=
  ⟨advances.size, advances.signatures, advances.reported, fun x outside =>
    advances.others x fun inside => outside (wider x inside), advances.keeps⟩

theorem putType (inside : S x) (keeps : I s → I (s.putType x t)) :
    Advances I S s (s.putType x t) := by
  refine ⟨Array.size_setIfInBounds, rfl, rfl, fun y outside => typeAt_putType_ne ?_, keeps⟩
  rintro rfl
  exact outside inside

end Advances

/-- Nothing is reported, and only given nodes have changed their types. -/
structure Proceeds (S : NodeId → Prop) (s s' : Typing) : Prop where
  silent : s'.diagnostics = s.diagnostics
  others : ∀ x, ¬ S x → s'.typeAt x = s.typeAt x

/-- A join does not exist. That is reported, and only given nodes have changed their types. -/
structure Refused (S : NodeId → Prop) (s s' : Typing) : Prop where
  report : ∃ d : Diagnostic, d.problem = .failedToUnifyType ∧
    s'.diagnostics.recorded = s.diagnostics.recorded ++ [d]
  others : ∀ x, ¬ S x → s'.typeAt x = s.typeAt x

section

variable {S S' : NodeId → Prop} {s s' s'' : Typing}

theorem Proceeds.refl (s : Typing) : Proceeds S s s :=
  ⟨rfl, fun _ _ => rfl⟩

theorem Proceeds.trans (first : Proceeds S s s') (second : Proceeds S s' s'') : Proceeds S s s'' :=
  ⟨second.silent.trans first.silent, fun x outside =>
    (second.others x outside).trans (first.others x outside)⟩

theorem Proceeds.refused (first : Proceeds S s s') (second : Refused S s' s'') : Refused S s s'' :=
  ⟨first.silent ▸ second.report, fun x outside =>
    (second.others x outside).trans (first.others x outside)⟩

theorem Refused.mono (wider : ∀ x, S x → S' x) (refused : Refused S s s') : Refused S' s s' :=
  ⟨refused.report, fun x outside => refused.others x fun inside => outside (wider x inside)⟩

theorem Refused.problems_lt (refused : Refused S s s') : s.problems < s'.problems := by
  obtain ⟨d, _, more⟩ := refused.report
  simp [problems, Collector.size, more]

end

end Typing

namespace Infer

open Typing

variable {α : Type} {T : Prop} {S : NodeId → Prop}

/-- A step that makes joins in a number of slots gives a result under a condition, and says whether
all of them exist. Then nothing is reported, and the states before and after are related. -/
def Attempts (T : Prop) (k : Nat) (S : NodeId → Prop) (f : Infer Bool)
    (R : Typing → Typing → Prop) : Prop :=
  Runs T k f fun s ok s' => (ok = true ∧ Proceeds S s s' ∧ R s s') ∨ (ok = false ∧ Refused S s s')

/-- A step that goes on only while joins exist gives a result under a condition. When all joins
exist, the states before and after are related. -/
def Concludes (T : Prop) (k : Nat) (S : NodeId → Prop) (f : Infer Unit)
    (R : Typing → Typing → Prop) : Prop :=
  Runs T k f fun s _ s' => Refused S s s' ∨ R s s'

theorem slot_run (inside : i < s.tags.size) : (slot i).run s = (.ok (s.slotAt i), s) := by
  have found : s.tags.get? i = .ok (s.slotAt i) := by
    have there : s.tags.items[i]? = some s.tags.items[i] := Array.getElem?_eq_getElem inside
    simp [Stack.get?, slotAt, there]
  change (MonadExcept.ofExcept (s.tags.get? i) : Infer TypeTag).run s = _
  rw [found]
  rfl

theorem changeSlots_run {tags : Stack TypeTag}
    {f : Stack TypeTag → Except Fault (Stack TypeTag)} (done : f s.tags = .ok tags) :
    (changeSlots f).run s = (.ok ⟨⟩, { s with tags := tags }) := by
  change (MonadExcept.ofExcept (f s.tags) >>= fun v => modify ({ · with tags := v }) :
    Infer PUnit).run s = _
  rw [done]
  rfl

theorem setSlot_run (inside : i < s.tags.size) :
    (setSlot i t).run s = (.ok ⟨⟩, s.putSlot i t) :=
  changeSlots_run (by rw [Stack.set?, if_neg (by omega)]; rfl)

theorem setSlot_runs (inside : i < k) :
    Runs T k (setSlot i t) fun s _ s' => s' = s.putSlot i t ∧ i < s.tags.size := by
  intro s room
  have inside := Nat.lt_of_lt_of_le inside room
  rw [setSlot_run inside]
  exact ⟨size_putSlot s i t, rfl, inside⟩

theorem releaseSlots_run {mark : Nat} (inside : mark ≤ s.tags.size) :
    (releaseSlots mark).run s = (.ok ⟨⟩, { s with tags := s.tags.shrinkTo mark }) :=
  changeSlots_run (by rw [Stack.release, if_neg (by omega)])

namespace Attempts

variable {R U : Typing → Typing → Prop} {f g : Infer Bool}

theorem pure (holds : ∀ s, R s s) : Attempts T k S (Pure.pure true) R :=
  Runs.pure fun s => .inl ⟨rfl, .refl s, holds s⟩

theorem imp (attempts : Attempts T k S f R) (weaker : ∀ s s', R s s' → U s s') :
    Attempts T k S f U :=
  Runs.imp attempts fun _ _ _ _ run =>
    run.imp_left fun goes => ⟨goes.1, goes.2.1, weaker _ _ goes.2.2⟩

/-- What comes after joins that exist. -/
theorem andThen {g : Infer Unit} (first : Attempts T k S f R)
    (second : Concludes T k S g fun s' s'' => ∀ s, Proceeds S s s' → R s s' → U s s'') :
    Concludes T k S (f >>= fun ok => if ok = true then g else Pure.pure ()) U := by
  refine Runs.seq first fun ok => ?_
  split
  · next exist =>
    refine Runs.imp second fun _ _ _ _ run s now => ?_
    rcases now with ⟨_, proceeds, holds⟩ | ⟨stops, _⟩
    · exact run.imp proceeds.refused fun later => later s proceeds holds
    · cases exist.symm.trans stops
  · next fails =>
    exact Runs.pure fun _ _ now =>
      now.elim (fun goes => absurd goes.1 fails) fun stops => .inl stops.2

/-- A first step that looks at the state only. -/
theorem read {f : Infer α} {g : α → Infer Bool} {a : Typing → α}
    (run : ∀ s, k ≤ s.tags.size → f.run s = (.ok (a s), s))
    (rest : ∀ x, Attempts T k S (g x) fun s s' => x = a s → R s s') : Attempts T k S (f >>= g) R :=
  Runs.seq (Runs.look run) fun x => Runs.imp (rest x) fun _ _ _ _ later => by
    rintro s ⟨rfl, rfl⟩
    exact later.imp_left fun goes => ⟨goes.1, goes.2.1, goes.2.2 rfl⟩

/-- A first step that changes the state and reports nothing. -/
theorem write {f : Infer PUnit} {h : Typing → Typing} {C : Typing → Prop}
    (runs : Runs T k f fun s _ s' => s' = h s ∧ C s) (proceeds : ∀ s, Proceeds S s (h s))
    (rest : Attempts T k S g fun s' s'' => ∀ s, s' = h s → C s → R s s'') :
    Attempts T k S (f >>= fun _ => g) R :=
  Runs.seq runs fun _ => Runs.imp rest fun _ _ _ _ later => by
    rintro s ⟨rfl, holds⟩
    exact later.imp (fun goes => ⟨goes.1, (proceeds s).trans goes.2.1, goes.2.2 s rfl holds⟩)
      fun stops => ⟨stops.1, (proceeds s).refused stops.2⟩

theorem typeOf {g : TypeTag → Infer Bool}
    (rest : ∀ t, Attempts T k S (g t) fun s s' => t = s.typeAt x → R s s') :
    Attempts T k S (Infer.typeOf x >>= g) R :=
  read (fun _ _ => rfl) rest

theorem slot {g : TypeTag → Infer Bool} (inside : i < k)
    (rest : ∀ t, Attempts T k S (g t) fun s s' => t = s.slotAt i → R s s') :
    Attempts T k S (Infer.slot i >>= g) R :=
  read (fun _ room => slot_run (Nat.lt_of_lt_of_le inside room)) rest

theorem setSlot (inside : i < k)
    (rest : Attempts T k S g fun s' s'' => ∀ s, s' = s.putSlot i t → i < s.tags.size → R s s'') :
    Attempts T k S (Infer.setSlot i t >>= fun _ => g) R :=
  write (setSlot_runs inside) (fun _ => ⟨rfl, fun _ _ => rfl⟩) rest

theorem setType (inside : S x)
    (rest : Attempts T k S g fun s' s'' => ∀ s, s' = s.putType x t → R s s'') :
    Attempts T k S (Infer.setType x t >>= fun _ => g) R := by
  refine write (h := (·.putType x t)) (C := fun _ => True) (fun _ _ => ⟨rfl, rfl, trivial⟩)
    (fun s => ⟨rfl, fun y outside => typeAt_putType_ne ?_⟩)
    (rest.imp fun _ _ later s same _ => later s same)
  rintro rfl
  exact outside inside

/-- A join, and what comes after it if it exists. -/
theorem join {name : String} {a b : TypeTag} {h : Option TypeTag → Infer Bool}
    (stops : h none = Pure.pure false)
    (goes : a.unify b ≠ .notAType → Attempts T k S (h (some (a.unify b))) R) :
    Attempts T k S (Infer.join loc name a b >>= h) R := by
  by_cases joins : a.unify b = .notAType
  · rw [Infer.join, if_pos joins, bind_assoc]
    simp only [pure_bind, stops]
    exact fun s _ => ⟨rfl, .inr ⟨rfl, ⟨_, rfl, rfl⟩, fun _ _ => rfl⟩⟩
  · rw [Infer.join, if_neg joins, pure_bind]
    exact goes joins

end Attempts

theorem setType_yields (x : NodeId) (t : TypeTag) :
    Yields T (setType x t) fun s _ s' => s' = s.putType x t :=
  .update (fun _ => ⟨rfl, rfl⟩) fun _ => rfl

end Infer

end TaskNet
