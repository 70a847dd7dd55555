import TaskNet.Binding.Resolution
import TaskNet.Proofs.Tree.Lookup
import TaskNet.Proofs.Tree.Relabel

/-!
What the steps of a resolution come to. A step puts binding occurrences on the stack and reports
problems, and both depend only on what the conjunct at hand has bound before. The first pass over a
conjunct finds the names that its literals bind; the second one links every occurrence to the
parameter of its name or to the occurrence that binds it, and reports the occurrences that are left.
-/

namespace TaskNet

open Tree

variable {conjuncts : List Conjunct} {c : Conjunct} {k : Nat} {w : List NodeRef} {name : String}

namespace Binder

variable {s : Binder} {new more : List NodeRef} {reports later : List Diagnostic}

def problems (s : Binder) : Nat :=
  s.diagnostics.size

/-- The binding occurrences on the stack, oldest first. -/
def refs (s : Binder) : List NodeRef :=
  s.stack.items.toList

/-- The state with more binding occurrences and more reports. -/
def after (s : Binder) (new : List NodeRef) (reports : List Diagnostic) : Binder :=
  { s with
    stack := { s.stack with items := s.stack.items ++ new.toArray }
    diagnostics := s.diagnostics.append reports }

@[simp] theorem refs_after : (s.after new reports).refs = s.refs ++ new := by
  simp [refs, after]

@[simp] theorem after_nil : s.after [] [] = s := by
  simp [after, Collector.append]

theorem after_after :
    (s.after new reports).after more later = s.after (new ++ more) (reports ++ later) := by
  simp [after, Collector.append]

@[simp] theorem problems_after : (s.after new reports).problems = s.problems + reports.length := by
  simp [problems, after]

theorem release_after : { s.after new reports with
    stack := (s.after new reports).stack.settle
      ((s.after new reports).stack.release s.stack.size) } =
      s.after [] reports := by
  simp [after, Stack.settle, Stack.release, Stack.shrinkTo, Stack.size]

theorem size_stack (s : Binder) : s.stack.size = s.refs.length := by
  simp [Stack.size, refs]

end Binder

def bindingOf (w : List NodeRef) (name : String) : Option NodeId :=
  (w.find? fun r => r.name == name).map NodeRef.id

theorem mem_of_bindingOf {b : NodeId}
    (found : bindingOf w name = some b) : ⟨b, name⟩ ∈ w := by
  rw [bindingOf, Option.map_eq_some_iff] at found
  obtain ⟨r, seen, rfl⟩ := found
  have named : r.name = name := by simpa using List.find?_some seen
  subst named
  exact List.mem_of_find?_eq_some seen

theorem isSome_bindingOf :
    (bindingOf w name).isSome = true ↔ name ∈ w.map NodeRef.name := by
  simp [bindingOf]

/-- The part of the stack that belongs to a conjunct. -/
def Conjunct.window (c : Conjunct) (refs : List NodeRef) : List NodeRef :=
  (refs.drop c.start).take (c.stop - c.start)

/-- A conjunct is on a stack of a size. -/
def Conjunct.Fits (k : Nat) (c : Conjunct) : Prop :=
  c.start + (c.stop - c.start) ≤ k

open Binder

theorem Binder.bindingAt_eq (s : Binder) (name : String) {n i : Nat}
    (inside : i + n ≤ s.refs.length) :
    s.bindingAt name (List.range' i n) = .ok (bindingOf ((s.refs.drop i).take n) name) := by
  induction n generalizing i with
  | zero => rfl
  | succ n ih =>
    have here : i < s.refs.length := by omega
    have found : s.stack.get? i = .ok s.refs[i] := by
      simp [Stack.get?, refs,
        Array.getElem?_eq_getElem (show i < s.stack.items.size by simpa [refs] using here)]
    rw [List.range'_succ, bindingAt, found, List.drop_eq_getElem_cons here, List.take_succ_cons,
      bindingOf, List.find?_cons]
    change (if (s.refs[i].name == name) = true then Except.ok (some s.refs[i].id) else _) = _
    split
    · next same => rw [same]; rfl
    · next other => rw [Bool.eq_false_of_not_eq_true other, ih (by omega), bindingOf]

theorem Binder.bindingIn_run (s : Binder) (fits : c.Fits s.refs.length) (name : String) :
    (Bind.bindingIn c name).run s = (bindingOf (c.window s.refs) name, s) := by
  rw [Bind.bindingIn, run_modifyGet, s.bindingAt_eq name fits, Conjunct.window]

section Steps

variable {α β : Type} {start k : Nat} {f : Bind α} {g : α → Bind β} {w : List NodeRef}

/-- A step puts binding occurrences on the stack and reports problems. These and its result are
related to what stands on the stack from a mark on. It may need more than that on the stack. -/
def Extends (start : Nat) (f : Bind α)
    (P : List NodeRef → α → List NodeRef → List Diagnostic → Prop) (k : Nat := 0) : Prop :=
  ∀ s : Binder, start + k ≤ s.refs.length → ∃ a new reports, f.run s = (a, s.after new reports) ∧
    P (s.refs.drop start) a new reports

variable {P Q : List NodeRef → α → List NodeRef → List Diagnostic → Prop}
variable {R : List NodeRef → β → List NodeRef → List Diagnostic → Prop}

theorem Extends.imp (first : Extends start f P k) (weaker : ∀ w a new reports, P w a new reports →
    Q w a new reports) : Extends start f Q k := by
  intro s inside
  obtain ⟨a, new, reports, ran, holds⟩ := first s inside
  exact ⟨a, new, reports, ran, weaker _ _ _ _ holds⟩

theorem Extends.more (first : Extends start f P) : Extends start f P k :=
  fun s inside => first s (Nat.le_trans (Nat.le_add_right _ k) inside)

theorem Extends.pure {a : α} (holds : ∀ w, P w a [] []) : Extends start (Pure.pure a) P k :=
  fun s _ => ⟨a, [], [], by rw [after_nil]; rfl, holds _⟩

/-- The second step is asked for what follows from the first. -/
theorem Extends.seq (first : Extends start f P k)
    (second : ∀ a, Extends start (g a) (fun w b more later => ∀ v new reports, w = v ++ new →
      P v a new reports → R v b (new ++ more) (reports ++ later)) k) :
      Extends start (f >>= g) R k := by
  intro s inside
  obtain ⟨a, new, reports, ran, holds⟩ := first s inside
  obtain ⟨b, more, later, ran', follows⟩ := second a (s.after new reports) (by simp; omega)
  refine ⟨b, new ++ more, reports ++ later, ?_, ?_⟩
  · rw [← after_after, ← ran']
    change (g (f.run s).1).run (f.run s).2 = _
    rw [ran]
  · rw [refs_after, List.drop_append_of_le_length (by omega)] at follows
    exact follows _ _ _ rfl holds

theorem Extends.report (problem : Problem) (loc : Location) (args : List Subject) :
    Extends start (Bind.report problem loc args) (fun _ _ new reports => new = [] ∧
      reports = [.make problem loc args]) k :=
  fun s _ => ⟨(), [], _, by simp [Bind.report, after, Collector.add]; rfl, rfl, rfl⟩

theorem Extends.lookup (fits : c.Fits k) (name : String) :
    Extends 0 (Bind.bindingIn c name) (fun w b new reports =>
      b = bindingOf (c.window w) name ∧ new = [] ∧ reports = []) k := by
  intro s inside
  rw [Nat.zero_add] at inside
  exact ⟨_, [], [], by rw [after_nil, s.bindingIn_run (Nat.le_trans fits inside)]; rfl,
    rfl, rfl, rfl⟩

/-- Steps in a row, where each stands on what those before have put on the stack. -/
inductive Threads (P : List NodeRef → α → β → List NodeRef → List Diagnostic → Prop) :
    List NodeRef → List α → List β → List NodeRef → List Diagnostic → Prop
  | nil (w : List NodeRef) : Threads P w [] [] [] []
  | cons {w new more : List NodeRef} {reports later : List Diagnostic} {a : α} {b : β} {as : List α}
      {bs : List β} (head : P w a b new reports) (tail : Threads P (w ++ new) as bs more later) :
      Threads P w (a :: as) (b :: bs) (new ++ more) (reports ++ later)

theorem Extends.mapM
    {f : α → Bind β} {P : List NodeRef → α → β → List NodeRef → List Diagnostic → Prop}
    {as : List α} (each : ∀ a ∈ as, Extends start (f a) (fun w b new reports => P w a b new reports)
    k) : Extends start (as.mapM f) (fun w bs new reports => Threads P w as bs new reports) k := by
  induction as with
  | nil =>
    rw [List.mapM_nil]
    exact .pure .nil
  | cons a as ih =>
    rw [List.mapM_cons]
    refine (each a (by simp)).seq fun b => (ih fun c member => each c (by simp [member])).seq
      fun bs => .pure ?_
    rintro _ _ more later rfl tail v new reports rfl head
    simpa using Threads.cons head tail

namespace Threads

variable {P : List NodeRef → α → β → List NodeRef → List Diagnostic → Prop} {as : List α}
  {bs : List β}
variable {new : List NodeRef} {reports : List Diagnostic} (threads : Threads P w as bs new reports)
include threads

/-- Every step of a row, with what the ones before and after it put on the stack. -/
theorem each :
    List.Forall₂ (fun a b =>
    ∃ before n later r, P (w ++ before) a b n r ∧ new = before ++ n ++ later ∧ r ⊆ reports)
    as bs := by
  induction threads with
  | nil => exact .nil
  | @cons w new more reports _ _ _ _ _ head _ ih =>
    refine .cons ⟨[], new, more, reports, by simpa using head, rfl, by simp⟩
      (ih.imp fun a b ⟨before, n, later, r, step, split, inside⟩ => ?_)
    refine ⟨new ++ before, n, later, r, by simpa using step, by simp [split], fun x member => ?_⟩
    exact List.mem_append_right _ (inside member)

/-- A condition on the stack that every step keeps is kept. -/
theorem keeps {I : List NodeRef → Prop} (each : ∀ a ∈ as, ∀ w b n r, P w a b n r → I w → I (w ++ n))
    (start : I w) : I (w ++ new) := by
  induction threads with
  | nil => simpa using start
  | cons head _ ih =>
    rw [← List.append_assoc]
    exact ih (fun a member => each a (by simp [member])) (each _ (by simp) _ _ _ _ head start)

theorem imp {Q : List NodeRef → α → β → List NodeRef → List Diagnostic → Prop}
    (weaker : ∀ w a b n r, P w a b n r → Q w a b n r) : Threads Q w as bs new reports := by
  induction threads with
  | nil w => exact .nil w
  | cons head _ ih => exact .cons (weaker _ _ _ _ _ head) ih

theorem silent (none : reports = []) :
    Threads (fun w a b n r => P w a b n r ∧ r = []) w as bs new reports := by
  induction threads with
  | nil w => exact .nil w
  | cons head _ ih =>
    obtain ⟨first, rest⟩ := List.append_eq_nil_iff.mp none
    exact .cons ⟨head, first⟩ (ih rest)

theorem new_eq {h : β → List NodeRef} (each : ∀ a ∈ as, ∀ w b n r, P w a b n r → n = h b) :
    new = bs.flatMap h := by
  induction threads with
  | nil => rfl
  | cons head _ ih =>
    rw [List.flatMap_cons, each _ (by simp) _ _ _ _ head,
      ih fun a member => each a (by simp [member])]

theorem filter_reports {q : Diagnostic → Bool} {h : α → List Diagnostic}
    (each : ∀ a ∈ as, ∀ w b n r, P w a b n r → r.filter q = h a) :
    reports.filter q = as.flatMap h := by
  induction threads with
  | nil => rfl
  | cons head _ ih =>
    rw [List.filter_append, List.flatMap_cons, each _ (by simp) _ _ _ _ head,
      ih fun a member => each a (by simp [member])]

/-- Steps that put nothing on the stack. -/
theorem still {h : α → List Diagnostic} {Q : α → β → Prop}
    (each : ∀ a ∈ as, ∀ b n r, P w a b n r → n = [] ∧ r = h a ∧ Q a b) :
    new = [] ∧ reports = as.flatMap h ∧ List.Forall₂ Q as bs := by
  induction threads with
  | nil => exact ⟨rfl, rfl, .nil⟩
  | cons head _ ih =>
    obtain ⟨rfl, rfl, first⟩ := each _ (by simp) _ _ _ head
    obtain ⟨rfl, rfl, rest⟩ := ih fun a member => by
      rw [List.append_nil]
      exact each a (by simp [member])
    exact ⟨rfl, rfl, .cons first rest⟩

end Threads

end Steps

/-- A report that an occurrence of a variable is not bound. -/
def Diagnostic.isScoping (d : Diagnostic) : Bool :=
  d.problem == .unboundVar || d.problem == .notBoundInAllConjuncts

namespace Tree

mutual

def occurrences : Tree → List (Node × Variable)
  | mk n cs =>
    match n.content with
    | .var v => [(n, v)]
    | .error _ _ => []
    | _ => occurrencesList cs

def occurrencesList : List Tree → List (Node × Variable)
  | [] => []
  | t :: ts => occurrences t ++ occurrencesList ts

end

theorem occurrencesList_eq (ts : List Tree) : occurrencesList ts = ts.flatMap occurrences := by
  induction ts with
  | nil => rfl
  | cons t ts ih => rw [occurrencesList, ih, List.flatMap_cons]

variable {n : Node} {cs : List Tree}

theorem occurrences_var {v : Variable} (content : n.content = .var v) :
    occurrences (mk n cs) = [(n, v)] := by
  rw [occurrences, content]

theorem occurrences_error {was : Kind} {problem : Problem}
    (content : n.content = .error was problem) : occurrences (mk n cs) = [] := by
  rw [occurrences, content]

theorem occurrences_above (notVar : ∀ v, n.content ≠ .var v)
    (sound : ∀ was problem, n.content ≠ .error was problem) :
    occurrences (mk n cs) = cs.flatMap occurrences := by
  rw [occurrences, occurrencesList_eq]
  split
  · next v content => exact absurd content (notVar v)
  · next content => exact absurd content (sound _ _)
  · rfl

end Tree

/-- A tree without errors in which variables are leaves. -/
def Tree.IsClear (t : Tree) : Prop :=
  t.Throughout fun s => s.kind ≠ .error ∧ (s.kind = .var → s.children = [])

theorem Tree.IsTerm.isClear {t : Tree} (term : t.IsTerm) : t.IsClear := by
  refine term.imp fun s takes => ⟨takes_sound takes, fun isVar => ?_⟩
  obtain ⟨v, content⟩ := content_of_var isVar
  rw [content] at takes
  exact List.length_eq_zero_iff.mp takes

section Variables

/-- A variable is rewritten and any other node stays. -/
def Rewrites (P : Variable → Variable → Prop) (n m : Node) : Prop :=
  match n.content with
  | .var v => ∃ w, P v w ∧ m = { n with content := .var w }
  | _ => m = n

theorem mapVariablesListM_eq (f : Node → Variable → Bind Variable) (ts : List Tree) :
    mapVariablesListM f ts = ts.mapM (mapVariablesM f) := by
  induction ts with
  | nil => rfl
  | cons t ts ih => rw [mapVariablesListM, ih, List.mapM_cons]

variable {f : Node → Variable → Bind Variable} {P : List NodeRef → Variable → Variable → Prop}
variable {r : List NodeRef → Node → Variable → List Diagnostic}

/-- An action on variables that puts nothing on the stack reports on every occurrence in turn. If
there is no report, every variable of a tree without errors is rewritten. -/
theorem mapVariablesM_extends (each : ∀ n v, Extends 0 (f n v) (fun w v' new reports =>
      new = [] ∧ reports = r w n v ∧ (reports = [] → P w v v')) k) (t : Tree) :
    Extends 0 (t.mapVariablesM f) (fun w t' new reports => new = [] ∧
      reports = t.occurrences.flatMap (fun o => r w o.1 o.2) ∧ t'.id = t.id ∧
      (t.IsClear → reports = [] → Relabels (Rewrites (P w)) t t')) k := by
  induction t with
  | mk n cs ih =>
    rw [mapVariablesM.eq_def]
    dsimp only
    split
    · next v content =>
      refine (each n v).seq fun w => .pure ?_
      rintro _ v _ _ rfl ⟨rfl, rfl, related⟩
      refine ⟨rfl, by simp [occurrences_var content], rfl, fun clear none => ?_⟩
      obtain rfl : cs = [] := (throughout_mk.mp clear).1.2 (by simp [content, Content.kind])
      refine .mk ?_ .nil
      rw [Rewrites, content]
      exact ⟨w, related (by simpa using none), rfl⟩
    · next content =>
      refine .pure fun w => ⟨rfl, by simp [occurrences_error content], rfl, fun clear => ?_⟩
      exact absurd (by simp [content, Content.kind]) (throughout_mk.mp clear).1.1
    · next notVar sound =>
      rw [mapVariablesListM_eq, occurrences_above notVar sound]
      refine (Extends.mapM fun c member => ih c member).seq fun ds => .pure ?_
      rintro _ v _ _ rfl threads
      obtain ⟨rfl, rfl, related⟩ := threads.still fun c _ d _ _ step =>
        ⟨step.1, step.2.1, step.2.1 ▸ step.2.2.2⟩
      refine ⟨rfl, by rw [List.flatMap_assoc, List.append_nil], rfl, fun clear none => .mk ?_ ?_⟩
      · rw [Rewrites]
        split
        · next v content => exact absurd content (notVar v)
        · rfl
      · rw [List.append_nil, List.flatMap_eq_nil_iff] at none
        obtain ⟨⟨sound, _⟩, below⟩ := throughout_mk.mp clear
        exact forall₂_imp_mem related fun c member d step =>
          step (below sound c member) (none c member)

end Variables

namespace NameScope

variable (scope : NameScope)

/-- A name is that of a parameter or is bound already. -/
def taken (w : List NodeRef) (name : String) : Bool :=
  (scope.param? name).isSome || (bindingOf w name).isSome

/-- The places of a literal where names are bound: the arguments of a positive literal of a declared
fact, or the left side of an assignment. -/
def places (l : Tree) : List Tree :=
  match l.content with
  | .call c =>
    if (Declarations.find? scope.declarations.facts c.name).isSome then l.children else []
  | .op .assign => l.children.take 1
  | _ => []

/-- A place where a name can be bound, before and after: a variable whose name is not taken binds
it. -/
inductive BindsAt (w : List NodeRef) (t : Tree) : Tree → List NodeRef → Prop
  | stays (taken : ∀ v, t.content = .var v → scope.taken w v.name = true) : BindsAt w t t []
  | binds {v : Variable} (content : t.content = .var v) (free : scope.taken w v.name = false) :
      BindsAt w t (t.withContent (.var { v with binding := true, definition := none }))
        [⟨t.id, v.name⟩]

/-- A literal before and after the names that it binds are found. -/
inductive Marked (w : List NodeRef) (l : Tree) : Tree → List NodeRef → List Diagnostic → Prop
  | stays (nothing : scope.places l = []) : Marked w l l [] []
  | arguments {c : Invocation} {d : Declaration} {args : List Tree} {new : List NodeRef}
      {none reports : List Diagnostic} (content : l.content = .call c)
      (found : Declarations.find? scope.declarations.facts c.name = some d)
      (each : Threads (fun w t t' new _ => BindsAt scope w t t' new) w l.children args new none)
      (arity : reports = [] → l.children.length = d.arity) :
      Marked w l ((l.withContent (.call { c with decl := some d.id })).withChildren args)
      new reports
  | target {target target' : Tree} {rest : List Tree} {new : List NodeRef}
      (content : l.content = .op .assign) (children : l.children = target :: rest)
      (here : BindsAt scope w target target' new) (binds : target.kind = .var → new ≠ []) :
      Marked w l (l.withChildren (target' :: rest)) new []
  | refused {target : Tree} {rest : List Tree} {v : Variable} {report : Diagnostic}
      (content : l.content = .op .assign) (children : l.children = target :: rest)
      (isVar : target.content = .var v) (taken : scope.taken w v.name = true) :
      Marked w l (l.withChildren (target.markError .alreadyBound :: rest)) [] [report]
  | negated {t : Tree} {rest : List Tree} {c : Invocation} {d : Declaration}
      {reports : List Diagnostic} (content : l.content = .op .not)
      (children : l.children = t :: rest) (isCall : t.content = .call c)
      (found : Declarations.find? scope.declarations.facts c.name = some d)
      (arity : reports = [] → t.children.length = d.arity) :
      Marked w l (l.withChildren (t.withContent (.call { c with decl := some d.id }) :: rest))
      [] reports

variable {scope} {start : Nat} {w : List NodeRef} {t : Tree}

theorem isTaken_extends (name : String) : Extends start (scope.isTaken start name)
    fun w b new reports => b = scope.taken w name ∧ new = [] ∧ reports = [] := by
  intro s inside
  have fits : Conjunct.Fits s.refs.length ⟨start, s.stack.size⟩ := by
    rw [Conjunct.Fits, size_stack]
    exact Nat.le_of_eq (Nat.add_sub_cancel' inside)
  refine ⟨scope.taken (s.refs.drop start) name, [], [], ?_, rfl, rfl, rfl⟩
  change (((scope.param? name).isSome ||
    ((Bind.bindingIn ⟨start, s.stack.size⟩ name).run s).1.isSome),
    ((Bind.bindingIn ⟨start, s.stack.size⟩ name).run s).2) = _
  rw [s.bindingIn_run fits, Conjunct.window, size_stack, List.take_of_length_le (by simp),
    after_nil]
  rfl

theorem bindHere_extends (v : Variable) : Extends start (bindHere t v) fun _ t' new reports =>
    t' = t.withContent (.var { v with binding := true, definition := none }) ∧
      new = [⟨t.id, v.name⟩] ∧ reports = [] :=
  fun s _ => ⟨_, _, [], by simp [bindHere, after, Stack.push, Collector.append]; rfl, rfl, rfl, rfl⟩

theorem bindArgument_extends (t : Tree) : Extends start (scope.bindArgument start t)
    fun w t' new reports => BindsAt scope w t t' new ∧ reports = [] := by
  rw [bindArgument]
  split
  · next v content =>
    refine (isTaken_extends v.name).seq fun taken => ?_
    cases taken with
    | true =>
      refine .pure ?_
      rintro _ w _ _ rfl ⟨isTaken, rfl, rfl⟩
      exact ⟨.stays fun v' same => by cases content.symm.trans same; exact isTaken.symm, rfl⟩
    | false =>
      refine (bindHere_extends v).imp ?_
      rintro _ _ _ _ ⟨rfl, rfl, rfl⟩ w _ _ rfl ⟨free, rfl, rfl⟩
      exact ⟨.binds content free.symm, rfl⟩
  · next notVar => exact .pure fun w => ⟨.stays fun v content => absurd content (notVar v), rfl⟩

theorem bindTarget_extends (t : Tree) : Extends start (scope.bindTarget start t)
    fun w t' new reports => (BindsAt scope w t t' new ∧ (t.kind = .var → new ≠ []) ∧ reports = []) ∨
      ∃ v, t.content = .var v ∧ scope.taken w v.name = true ∧ t' = t.markError .alreadyBound ∧
        new = [] ∧ reports = [.make .alreadyBound t.loc [.name v.name]] := by
  rw [bindTarget]
  split
  · next v content =>
    refine (isTaken_extends v.name).seq fun taken => ?_
    cases taken with
    | true =>
      refine (Extends.report _ _ _).seq fun _ => .pure ?_
      rintro _ _ _ _ rfl ⟨rfl, rfl⟩ w _ _ rfl ⟨isTaken, rfl, rfl⟩
      exact .inr ⟨v, content, isTaken.symm, rfl, rfl, rfl⟩
    | false =>
      refine (bindHere_extends v).imp ?_
      rintro _ _ _ _ ⟨rfl, rfl, rfl⟩ w _ _ rfl ⟨free, rfl, rfl⟩
      exact .inl ⟨.binds content free.symm, by simp, rfl⟩
  · next notVar =>
    refine .pure fun w => .inl ⟨.stays fun v content => absurd content (notVar v),
      fun isVar => ?_, rfl⟩
    obtain ⟨v, content⟩ := content_of_var isVar
    exact absurd content (notVar v)

theorem linkCall_extends (group : String) (d : Declaration) (c : Invocation) (t : Tree) :
    Extends start (linkCall group d c t) fun _ t' new reports =>
      t' = t.withContent (.call { c with decl := some d.id }) ∧ new = [] ∧
        (reports = [] → t.children.length = d.arity) ∧
        reports.filter Diagnostic.isScoping = [] := by
  rw [linkCall]
  split
  · refine (Extends.report _ _ _).seq fun _ => .pure ?_
    rintro _ _ _ _ rfl ⟨rfl, rfl⟩
    exact ⟨rfl, rfl, nofun, rfl⟩
  · next fits => exact .pure fun _ => ⟨rfl, rfl, fun _ => by simpa using fits, rfl⟩

variable (scope start) in
theorem bindLiteral_extends (l : Tree) : Extends start (scope.bindLiteral start l)
    fun w l' new reports => Marked scope w l l' new reports ∧
      reports.filter Diagnostic.isScoping = [] := by
  have stays : scope.places l = [] → Extends start (Pure.pure l) fun w l' new reports =>
      Marked scope w l l' new reports ∧ reports.filter Diagnostic.isScoping = [] :=
    fun nothing => .pure fun w => ⟨.stays nothing, rfl⟩
  rw [bindLiteral]
  split
  · next c content =>
    split
    · next d found =>
      refine (linkCall_extends "fact" d c l).seq fun t =>
        (Extends.mapM fun a _ => bindArgument_extends a).seq fun args => .pure ?_
      rintro _ _ new none rfl threads w _ reports rfl ⟨rfl, rfl, arity, quiet⟩
      have silent : none.filter (fun _ => true) = _ := threads.filter_reports (h := fun _ => [])
        fun _ _ _ _ _ _ step => by rw [step.2]; rfl
      rw [List.flatMap_eq_nil_iff.mpr fun _ _ => rfl, List.filter_true] at silent
      rw [List.append_nil] at threads
      simp only [silent, List.append_nil, List.nil_append]
      exact ⟨.arguments content found (threads.imp fun _ _ _ _ _ step => step.1) arity, quiet⟩
    · next missing => exact stays (by simp [places, content, missing])
  · next content =>
    split
    · next none => exact stays (by simp [places, content, none])
    · next target rest children =>
      refine (bindTarget_extends target).seq fun target' => .pure ?_
      rintro _ w new reports rfl (⟨here, binds, rfl⟩ | ⟨v, isVar, taken, rfl, rfl, rfl⟩)
      · rw [List.append_nil]
        exact ⟨.target content children here binds, rfl⟩
      · exact ⟨.refused content children isVar taken, rfl⟩
  · next content =>
    have nothing : scope.places l = [] := by simp [places, content]
    split
    · exact stays nothing
    · next t rest children =>
      rw [linkFact]
      split
      · next c isCall =>
        split
        · next d found =>
          refine (linkCall_extends "fact" d c t).seq fun t' => .pure ?_
          rintro _ w _ reports rfl ⟨rfl, rfl, arity, quiet⟩
          rw [List.append_nil reports]
          exact ⟨.negated content children isCall found arity, quiet⟩
        · rw [pure_bind, withChildren, ← children, l.eta]
          exact stays nothing
      · rw [pure_bind, withChildren, ← children, l.eta]
        exact stays nothing
  · next notCall notAssign notNot => exact stays (by rw [places]; split <;> simp_all)

end NameScope

namespace NameScope

variable (scope : NameScope)

/-- The report on an occurrence inside of a conjunct that binds certain names. -/
def reportInside (w : List NodeRef) (n : Node) (v : Variable) : List Diagnostic :=
  if v.binding || scope.taken w v.name then [] else [.make .unboundVar n.loc [.name v.name]]

def reportsInside (w : List NodeRef) (t : Tree) : List Diagnostic :=
  t.occurrences.flatMap fun o => scope.reportInside w o.1 o.2

/-- What an occurrence inside of a conjunct becomes. -/
inductive LinksInside (w : List NodeRef) (v : Variable) : Variable → Prop
  | binding (binds : v.binding = true) : LinksInside w v v
  | param {p : NodeId} (other : v.binding = false) (found : scope.param? v.name = some p) :
      LinksInside w v { v with definition := some p }
  | bound {b : NodeId} (other : v.binding = false) (free : scope.param? v.name = none)
      (found : bindingOf w v.name = some b) : LinksInside w v { v with definition := some b }

/-- The report on an occurrence outside of the precondition, whose conjuncts bind certain names. -/
def reportOutside (ws : List (List NodeRef)) (n : Node) (v : Variable) : List Diagnostic :=
  if (scope.param? v.name).isSome then []
  else if ws.all fun w => (bindingOf w v.name).isNone then [.make .unboundVar n.loc [.name v.name]]
  else if ws.any fun w => (bindingOf w v.name).isNone then
    [.make .notBoundInAllConjuncts n.loc [.name v.name]]
  else []

def reportsOutside (ws : List (List NodeRef)) (t : Tree) : List Diagnostic :=
  t.occurrences.flatMap fun o => scope.reportOutside ws o.1 o.2

/-- What an occurrence outside of the precondition becomes. -/
inductive LinksOutside (ws : List (List NodeRef)) (v : Variable) : Variable → Prop
  | param {p : NodeId} (found : scope.param? v.name = some p) :
      LinksOutside ws v { v with definition := some p }
  | bound {w : List NodeRef} {b : NodeId} (free : scope.param? v.name = none)
      (first : ws.head? = some w) (found : bindingOf w v.name = some b) :
      LinksOutside ws v { v with definition := some b }

variable {scope}

theorem linkInside_extends (fits : c.Fits k) (n : Node) (v : Variable) :
    Extends 0 (scope.linkInside c n v) (fun refs v' new reports => new = [] ∧
      reports = scope.reportInside (c.window refs) n v ∧
      (reports = [] → LinksInside scope (c.window refs) v v')) k := by
  rw [linkInside]
  split
  · next binds => exact .pure fun w => ⟨rfl, by simp [reportInside, binds], fun _ => .binding binds⟩
  next other =>
  have other : v.binding = false := by simpa using other
  split
  · next p found =>
    exact .pure fun w => ⟨rfl, by simp [reportInside, taken, found], fun _ => .param other found⟩
  next free =>
  refine (Extends.lookup fits v.name).seq fun b => ?_
  split
  · next b =>
    refine .pure ?_
    rintro _ _ _ _ rfl ⟨found, rfl, rfl⟩
    have found := found.symm
    exact ⟨rfl, by simp [reportInside, taken, found], fun _ => .bound other free found⟩
  · refine (Extends.report _ _ _).seq fun _ => .pure ?_
    rintro _ _ _ _ rfl ⟨rfl, rfl⟩ _ _ _ rfl ⟨found, rfl, rfl⟩
    have unbound := found.symm
    exact ⟨rfl, by simp [reportInside, taken, other, free, unbound], nofun⟩

theorem lookups_extends (fits : ∀ c ∈ conjuncts, c.Fits k)
    (name : String) : Extends 0 (conjuncts.mapM (Bind.bindingIn · name)) (fun w found new reports =>
      found = conjuncts.map (fun c => bindingOf (c.window w) name) ∧ new = [] ∧ reports = [])
      k := by
  refine (Extends.mapM fun c member => .lookup (fits c member) name).imp
    fun w found new reports threads => ?_
  obtain ⟨rfl, rfl, same⟩ :=
    threads.still (h := fun _ => []) fun _ _ _ _ _ step => ⟨step.2.1, step.2.2, step.1⟩
  exact ⟨(List.map_id found).symm.trans (map_eq_of_forall₂ same.flip), rfl, by simp⟩

theorem linkOutside_extends (fits : ∀ c ∈ conjuncts, c.Fits k)
    (n : Node) (v : Variable) :
    Extends 0 (scope.linkOutside conjuncts n v) (fun refs v' new reports =>
      new = [] ∧ reports = scope.reportOutside (conjuncts.map (·.window refs)) n v ∧
      (reports = [] → LinksOutside scope (conjuncts.map (·.window refs)) v v')) k := by
  rw [linkOutside]
  split
  · next p found => exact .pure fun w => ⟨rfl, by simp [reportOutside, found],
      fun _ => .param found⟩
  next free =>
  refine (lookups_extends fits v.name).seq fun found => ?_
  dsimp only
  split
  · next nowhere =>
    refine (Extends.report _ _ _).seq fun _ => .pure ?_
    rintro _ _ _ _ rfl ⟨rfl, rfl⟩ _ _ _ rfl ⟨rfl, rfl, rfl⟩
    refine ⟨rfl, ?_, nofun⟩
    rw [reportOutside, free, if_neg (by simp), if_pos]
    · rfl
    · simpa using nowhere
  next somewhere =>
  have all {w : List NodeRef} : ¬ ((conjuncts.map fun c => bindingOf (c.window w) v.name).filterMap
      fun b => b).length < conjuncts.length ↔
        ∀ c ∈ conjuncts, (bindingOf (c.window w) v.name).isSome = true := by
    rw [List.filterMap_map, ← List.filterMap_length_eq_length, Nat.not_lt]
    exact ⟨fun most => Nat.le_antisymm (List.length_filterMap_le _ _) most,
      fun same => Nat.le_of_eq same.symm⟩
  split
  · next missing =>
    refine (Extends.report _ _ _).seq fun _ => .pure ?_
    rintro _ _ _ _ rfl ⟨rfl, rfl⟩ _ _ _ rfl ⟨rfl, rfl, rfl⟩
    refine ⟨rfl, ?_, nofun⟩
    rw [reportOutside, free, if_neg (by simp), if_neg (by simpa using somewhere), if_pos]
    · rfl
    · rw [← not_not (a := _ < _), all] at missing
      simpa using missing
  · next everywhere =>
    refine .pure ?_
    rintro _ _ _ _ rfl ⟨rfl, rfl, rfl⟩
    have bound := all.mp everywhere
    cases conjuncts with
    | nil => exact absurd rfl somewhere
    | cons c rest =>
      obtain ⟨b, found⟩ := Option.isSome_iff_exists.mp (bound c (by simp))
      refine ⟨rfl, ?_, fun _ => ?_⟩
      · rw [reportOutside, free, if_neg (by simp), if_neg (by simp [found]), if_neg]
        · rfl
        · simpa [Option.isSome_iff_ne_none] using bound
      · simp only [List.map_cons, List.filterMap_cons_some (f := fun b => b) found]
        exact .bound free rfl found

variable (scope) in
/-- A conjunct before and after its names are resolved: its literals are marked, and then its
variables are linked, unless something is reported. -/
structure Conjoined (t t' : Tree) (new : List NodeRef) (reports : List Diagnostic) (ls : List Tree)
    (found : List Diagnostic) : Prop where
  marked : Threads (fun w l l' new reports => Marked scope w l l' new reports ∧
    reports.filter Diagnostic.isScoping = []) [] t.children ls new found
  reports_eq : reports = found ++ scope.reportsInside new (t.withChildren ls)
  linked : (t.withChildren ls).IsClear → reports = [] →
    Relabels (Rewrites (LinksInside scope new)) (t.withChildren ls) t'

theorem resolveConjunct_extends (t : Tree) : Extends 0 (scope.resolveConjunct t)
    fun refs x new reports => x.2 = ⟨refs.length, refs.length + new.length⟩ ∧
      ∃ ls found, Conjoined scope t x.1 new reports ls found := by
  intro s _
  rw [List.drop_zero]
  obtain ⟨ls, new, found, ran, threads⟩ := Extends.mapM (fun (l : Tree) (_ : l ∈ t.children) =>
    bindLiteral_extends scope s.refs.length l) s (Nat.le_refl _)
  rw [List.drop_length] at threads
  obtain ⟨t', _, reports, linked, rfl, rfl, _, rewritten⟩ := mapVariablesM_extends
    (linkInside_extends (c := ⟨s.refs.length, (s.refs ++ new).length⟩) (k := (s.refs ++ new).length)
      (by rw [Conjunct.Fits]; simp)) (t.withChildren ls) (s.after new found) (by simp)
  have window : Conjunct.window ⟨s.refs.length, (s.refs ++ new).length⟩ (s.refs ++ new) = new := by
    rw [Conjunct.window, List.drop_left, List.take_of_length_le (by simp)]
  rw [List.drop_zero, refs_after, window] at rewritten
  rw [List.drop_zero, refs_after, window, after_after, List.append_nil] at linked
  refine ⟨(t', ⟨s.refs.length, s.refs.length + new.length⟩), new, _, ?_, rfl, ls, found,
    threads, rfl, ?_⟩
  · have steps : (scope.resolveConjunct t).run s =
        let bound := (t.children.mapM (scope.bindLiteral s.stack.size)).run s
        let c : Conjunct := ⟨s.stack.size, bound.2.stack.size⟩
        let result := ((t.withChildren bound.1).mapVariablesM (scope.linkInside c)).run bound.2
        ((result.1, c), result.2) := rfl
    rw [steps, size_stack, ran]
    dsimp only
    rw [size_stack, refs_after, linked, List.length_append]
    rfl
  · exact fun clear none => rewritten clear (List.append_eq_nil_iff.mp none).2

end NameScope

end TaskNet
