import TaskNet.Proofs.Binding.Linking

/-!
Binding occurrences. A conjunct binds a name at most once, only where a name can be bound, and never
the name of a parameter. The part of the stack that belongs to the conjunct lists its binding
occurrences in the order in which a traversal meets them, so every other occurrence is linked to a
parameter of the task or to the one binding occurrence of its name in the conjunct.
-/

namespace TaskNet

open Binder List Tree

variable {u : Tree}

namespace Tree

variable {t : Tree} {r : NodeRef} {n : Node} {cs : List Tree}

def bindingRef? (t : Tree) : Option NodeRef :=
  match t.content with
  | .var v => if v.binding then some ⟨t.id, v.name⟩ else none
  | _ => none

/-- The binding occurrences of a tree in pre-order. -/
def bindings (t : Tree) : List NodeRef :=
  t.visited.filterMap bindingRef?

theorem bindingRef?_eq_some : t.bindingRef? = some r ↔
    ∃ v, t.content = .var v ∧ v.binding = true ∧ r = ⟨t.id, v.name⟩ := by
  rw [bindingRef?]
  split
  · next v content =>
    cases binds : v.binding with
    | true =>
      refine ⟨fun same => ⟨v, content, binds, (Option.some.inj same).symm⟩,
        fun ⟨w, same, _, ref⟩ => ?_⟩
      cases content.symm.trans same
      rw [ref]
      rfl
    | false =>
      refine ⟨fun ref => by simp at ref, fun ⟨w, same, other, _⟩ => ?_⟩
      cases content.symm.trans same
      rw [binds] at other
      cases other
  · next notVar =>
    refine ⟨fun none => by simp at none, fun ⟨v, content, _⟩ => absurd content (notVar v)⟩

theorem mem_bindings : r ∈ t.bindings ↔
    ∃ b ∈ t.visited, ∃ v, b.content = .var v ∧ v.binding = true ∧ r = ⟨b.id, v.name⟩ := by
  simp only [bindings, mem_filterMap, bindingRef?_eq_some]

theorem bindings_mk (sound : n.kind ≠ .error) :
    bindings (mk n cs) = (bindingRef? (mk n cs)).toList ++ cs.flatMap bindings := by
  rw [bindings, visited, if_neg (by simpa using sound), visitedList_eq, filterMap_cons,
    filterMap_flatMap]
  cases bindingRef? (mk n cs) <;> rfl

theorem bindingRef?_of_kind (other : t.kind ≠ .var) : t.bindingRef? = none := by
  rw [bindingRef?]
  split
  · next v content => exact absurd (congrArg Content.kind content) other
  · rfl

/-- Above variables there is nothing that binds. -/
theorem bindings_above (sound : n.kind ≠ .error) (other : n.kind ≠ .var) :
    bindings (mk n cs) = cs.flatMap bindings := by
  rw [bindings_mk sound, bindingRef?_of_kind (t := mk n cs) other]
  rfl

theorem IsRaw.bindings (raw : t.IsRaw) : t.bindings = [] := by
  refine eq_nil_iff_forall_not_mem.mpr fun r member => ?_
  obtain ⟨b, visits, v, content, binds, _⟩ := mem_bindings.mp member
  have unresolved := (raw b visits).2
  rw [content] at unresolved
  exact absurd (unresolved.2.symm.trans binds) (by simp)

theorem flatMap_bindings_raw {ts : List Tree} (raw : ∀ t ∈ ts, t.IsRaw) :
    ts.flatMap Tree.bindings = [] :=
  flatMap_eq_nil_iff.mpr fun t member => (raw t member).bindings

/-- A variable has nothing below it. -/
theorem visited_of_var (term : t.IsTerm) (isVar : t.kind = .var) (visits : u ∈ t.visited) :
    u = t := by
  rcases mem_visited_cases visits with here | ⟨c, below, _⟩
  · exact here
  · obtain ⟨v, content⟩ := content_of_var isVar
    have leaf := term.here
    rw [content] at leaf
    rw [length_eq_zero_iff.mp leaf] at below
    cases below

end Tree

namespace NameScope

variable {scope : NameScope} {w new : List NodeRef} {n m : Node} {t t' : Tree}

theorem rewrites_keeps {P : Variable → Variable → Prop} (rewrites : Rewrites P n m) :
    Keeps n m := by
  rw [Rewrites] at rewrites
  split at rewrites
  · next v content =>
    obtain ⟨w, _, rfl⟩ := rewrites
    exact ⟨rfl, rfl, by simp [Node.kind, content, Content.kind]⟩
  · subst rewrites
    exact ⟨rfl, rfl, rfl⟩

variable (scope) in
/-- A call that is linked in a precondition is a call of a fact, with an argument for each
parameter. -/
def CallFitsFact (u : Tree) : Prop :=
  ∀ c d, u.content = .call c → c.decl = some d →
    ∃ f ∈ scope.declarations.facts, f.id = d ∧ u.children.length = f.arity

theorem callFitsFact_of_kind (other : u.kind ≠ .call) : scope.CallFitsFact u :=
  fun _ _ content _ => absurd (congrArg Content.kind content) other

theorem callsFit_of_raw (raw : t.IsRaw) : t.Throughout scope.CallFitsFact := by
  intro u visits c d content declared
  have unresolved := (raw u visits).2
  rw [content] at unresolved
  exact absurd (unresolved.1.symm.trans declared) (by simp)

/-- A node of a conjunct whose names are bound: what binds refers to nothing, and a call that is
linked fits a fact. -/
structure Prepared (scope : NameScope) (u : Tree) : Prop where
  binding : ∀ v, u.content = .var v → v.binding = true → v.definition = none
  call : scope.CallFitsFact u

theorem prepared_of_raw (raw : t.IsRaw) : t.Throughout (Prepared scope) := by
  refine fun u visits => ⟨fun v content _ => ?_, callsFit_of_raw raw u visits⟩
  have unresolved := (raw u visits).2
  rw [content] at unresolved
  exact unresolved.1

theorem prepared_of_kind (notVar : u.kind ≠ .var) (notCall : u.kind ≠ .call) :
    Prepared scope u :=
  ⟨fun _ content => absurd (congrArg Content.kind content) notVar, callFitsFact_of_kind notCall⟩

/-- A place of an unresolved literal where a name can be bound. -/
theorem BindsAt.raw (binds : BindsAt scope w t t' new) (raw : t.IsRaw) : Relabels Keeps t t' ∧
    t'.bindings = new ∧ t'.Throughout (Prepared scope) ∧ (t'.kind = .var ∨ t'.bindings = []) := by
  cases binds with
  | stays _ => exact ⟨.keeps_refl t, raw.bindings, prepared_of_raw raw, .inr raw.bindings⟩
  | @binds v content _ =>
    obtain ⟨n, cs⟩ := t
    have leaf := raw.isTerm.here
    rw [content] at leaf
    obtain rfl : cs = [] := length_eq_zero_iff.mp leaf
    have kind : n.kind = .var := congrArg Content.kind content
    refine ⟨.mk ⟨rfl, rfl, kind.symm⟩ .nil, ?_, ?_, .inl rfl⟩
    · rw [withContent, bindings_mk (by simp [Node.kind, Content.kind])]
      rfl
    · refine throughout_mk.mpr ⟨⟨fun w same _ => ?_, callFitsFact_of_kind ?_⟩, by simp⟩
      · cases same
        rfl
      · simp [Content.kind]

variable (scope) in
/-- A literal binds nothing, or the variables among the arguments of a fact, or the left side of an
assignment. -/
inductive BindsInPlace (l : Tree) : Prop
  | nothing (none : l.bindings = [])
  | arguments {c : Invocation} {d : Declaration} (content : l.content = .call c)
      (fact : d ∈ scope.declarations.facts) (linked : c.decl = some d.id)
      (each : ∀ a ∈ l.children, a.kind = .var ∨ a.bindings = [])
  | target {target : Tree} {rest : List Tree} (content : l.content = .op .assign)
      (children : l.children = target :: rest) (here : target.kind = .var ∨ target.bindings = [])
      (others : ∀ a ∈ rest, a.bindings = [])

/-- A literal that assigns to a variable binds it. -/
def BindsTarget (l : Tree) : Prop :=
  ∀ target rest v, l.content = .op .assign → l.children = target :: rest →
    target.content = .var v → v.binding = true

theorem bindsTarget_of_kind {l : Tree} (other : l.kind ≠ .op .assign) : BindsTarget l :=
  fun _ _ _ content => absurd (congrArg Content.kind content) other

/-- An unresolved literal, when nothing is reported. -/
theorem Marked.raw {l l' : Tree} (marked : Marked scope w l l' new []) (raw : l.IsRaw) :
    Relabels Keeps l l' ∧ l'.bindings = new ∧ l'.Throughout (Prepared scope) ∧
      scope.BindsInPlace l' ∧ BindsTarget l' := by
  -- the first operand of an operator becomes another, and the rest stays
  have operand : ∀ {o : Operator} {c c' : Tree} {rest : List Tree}, l.content = .op o →
      l.children = c :: rest → Relabels Keeps c c' →
      c'.bindings = new → c'.Throughout (Prepared scope) →
      Relabels Keeps l (l.withChildren (c' :: rest)) ∧
      (l.withChildren (c' :: rest)).bindings = new ∧
        (l.withChildren (c' :: rest)).Throughout (Prepared scope) := by
    intro o c c' rest content children keeps bindings prepared
    have kind : ∀ k, k ≠ .op o → l.node.kind ≠ k := fun k other same =>
      other (same.symm.trans (congrArg Content.kind content))
    have rawRest : ∀ d ∈ rest, d.IsRaw := fun d member => raw.below (by simp [children, member])
    refine ⟨relabels_iff.mpr ⟨⟨rfl, rfl, rfl⟩, ?_⟩, ?_, throughout_mk.mpr ⟨?_, fun _ => ?_⟩⟩
    · rw [children]
      exact .cons keeps (forall₂_same.mpr fun d _ => .keeps_refl d)
    · rw [withChildren, bindings_above (kind _ (by simp)) (kind _ (by simp)), flatMap_cons,
        bindings, flatMap_bindings_raw rawRest, append_nil]
    · exact prepared_of_kind (kind _ (by simp)) (kind _ (by simp))
    · exact forall_mem_cons.mpr ⟨prepared, fun d member => prepared_of_raw (rawRest d member)⟩
  cases marked with
  | stays nothing =>
    refine ⟨.keeps_refl l, raw.bindings, prepared_of_raw raw, .nothing raw.bindings, ?_⟩
    intro target rest v content children
    simp [places, content, children] at nothing
  | @arguments c d args _ _ _ content found each arity =>
    have places : List.Forall₂ (fun a a' => Relabels Keeps a a' ∧ a'.Throughout (Prepared scope) ∧
        (a'.kind = .var ∨ a'.bindings = [])) l.children args :=
      forall₂_imp_mem each.each fun a member a' step => by
        obtain ⟨_, _, _, _, binds, _⟩ := step
        exact (binds.raw (raw.below member)).imp_right And.right
    refine ⟨relabels_iff.mpr ⟨⟨rfl, rfl, (congrArg Content.kind content).symm⟩,
      places.imp fun _ _ place => place.1⟩, ?_,
      throughout_mk.mpr ⟨⟨fun _ same => (by cases same), ?_⟩, fun _ a' member => ?_⟩,
      .arguments rfl (mem_of_find?_eq_some found) rfl fun a' member => ?_, ?_⟩
    · rw [withChildren, bindings_above (by simp [withContent, Node.kind, Content.kind])
        (by simp [withContent, Node.kind, Content.kind])]
      exact (each.new_eq fun a member _ _ _ _ binds => (binds.raw (raw.below member)).2.1.symm).symm
    · intro c' x same declared
      cases same
      cases declared
      exact ⟨d, mem_of_find?_eq_some found, rfl, places.length_eq.symm.trans (arity rfl)⟩
    · obtain ⟨_, _, place⟩ := exists_of_forall₂ places member
      exact place.2.1
    · obtain ⟨_, _, place⟩ := exists_of_forall₂ places member
      exact place.2.2
    · exact bindsTarget_of_kind (by simp [withContent, withChildren, Content.kind])
  | @target target target' rest _ content children here binds =>
    obtain ⟨keeps, bindings, prepared, place⟩ := here.raw (raw.below (by simp [children]))
    obtain ⟨kept, all, throughout⟩ := operand content children keeps bindings prepared
    refine ⟨kept, all, throughout, .target content rfl place fun a member =>
      (raw.below (by simp [children, member])).bindings, ?_⟩
    intro left others v _ split isVar
    obtain ⟨rfl, _⟩ := List.cons.inj split
    cases here with
    | stays _ => exact absurd rfl (binds (congrArg Content.kind isVar))
    | binds _ _ =>
      cases isVar
      rfl
  | @negated t rest c d _ content children isCall found arity =>
    have rawCall : t.IsRaw := raw.below (by simp [children])
    have kind : t.kind = .call := congrArg Content.kind isCall
    obtain ⟨kept, all, throughout⟩ := @operand _ _
      (t.withContent (.call { c with decl := some d.id })) _
      content children (relabels_iff.mpr ⟨⟨rfl, rfl, kind.symm⟩,
      forall₂_same.mpr fun d _ => .keeps_refl d⟩) (by
        rw [withContent, bindings_above (by simp [Node.kind, Content.kind])
          (by simp [Node.kind, Content.kind])]
        exact flatMap_bindings_raw fun a member => rawCall.below member)
      (throughout_mk.mpr ⟨⟨fun _ same => (by cases same), fun c' x same declared => by
        cases same
        cases declared
        exact ⟨d, mem_of_find?_eq_some found, rfl, arity rfl⟩⟩,
        fun _ a member => prepared_of_raw (rawCall.below member)⟩)
    refine ⟨kept, all, throughout, .nothing all, bindsTarget_of_kind ?_⟩
    simp [withChildren, show l.node.content = _ from content, Content.kind]

section Rewriting

variable {t t' l l' : Tree} {w : List NodeRef}

/-- Linking an occurrence changes neither its name nor whether it binds. -/
theorem LinksInside.same {v v' : Variable} (links : LinksInside scope w v v') :
    v'.name = v.name ∧ v'.binding = v.binding := by
  cases links <;> exact ⟨rfl, rfl⟩

theorem bindingRef?_of_rewrites (rewritten : Relabels (Rewrites (LinksInside scope w)) t t') :
    t'.bindingRef? = t.bindingRef? := by
  have here := rewritten.node
  have same : t'.id = t.id := (rewrites_keeps here).id
  rw [Rewrites] at here
  split at here
  · next v content =>
    obtain ⟨w, links, changed⟩ := here
    rw [bindingRef?, bindingRef?, show t.content = _ from content,
      show t'.content = .var w from congrArg Node.content changed]
    simp only [links.same.1, links.same.2, same]
  · next notVar =>
    rw [bindingRef?, bindingRef?, show t'.content = t.content from congrArg Node.content here, same]

theorem bindings_of_rewrites (rewritten : Relabels (Rewrites (LinksInside scope w)) t t') :
    t'.bindings = t.bindings := by
  have visited := rewritten.visited fun _ _ => rewrites_keeps
  rw [bindings, bindings]
  generalize t.visited = us at visited
  generalize t'.visited = us' at visited
  induction visited with
  | nil => rfl
  | cons head _ ih => rw [filterMap_cons, filterMap_cons, bindingRef?_of_rewrites head, ih]

theorem content_of_rewrites (rewritten : Relabels (Rewrites (LinksInside scope w)) t t')
    (other : t'.kind ≠ .var) : t'.content = t.content := by
  have here := rewritten.node
  rw [Rewrites] at here
  split at here
  · obtain ⟨w, _, changed⟩ := here
    exact absurd (congrArg Node.kind changed) other
  · exact congrArg Node.content here

theorem CallFitsFact.rewritten (fits : scope.CallFitsFact t)
    (rewritten : Relabels (Rewrites (LinksInside scope w)) t t') : scope.CallFitsFact t' := by
  intro i d content declared
  have isCall : t'.kind = .call := congrArg Content.kind content
  rw [content_of_rewrites rewritten (by simp [isCall])] at content
  rw [← rewritten.children.length_eq]
  exact fits i d content declared

theorem BindsInPlace.rewritten (place : scope.BindsInPlace l)
    (rewritten : Relabels (Rewrites (LinksInside scope w)) l l') : scope.BindsInPlace l' := by
  have kept : ∀ {a a' : Tree}, Relabels (Rewrites (LinksInside scope w)) a a' →
      (a.kind = .var ∨ a.bindings = []) → a'.kind = .var ∨ a'.bindings = [] := by
    intro a a' step place
    rwa [bindings_of_rewrites step, show a'.kind = a.kind from (rewrites_keeps step.node).kind]
  have same : ∀ k, l.content = k → k.kind ≠ .var → l'.content = k := by
    intro k content other
    have kind : l'.kind = k.kind :=
      (rewrites_keeps rewritten.node).kind.trans (congrArg Content.kind content)
    exact (content_of_rewrites rewritten (by rwa [kind])).trans content
  cases place with
  | nothing none => exact .nothing ((bindings_of_rewrites rewritten).trans none)
  | arguments content fact linked each =>
    refine .arguments (same _ content (by simp [Content.kind])) fact linked fun a' member => ?_
    obtain ⟨a, inside, step⟩ := exists_of_forall₂ rewritten.children member
    exact kept step (each a inside)
  | @target _ rest content children here others =>
    have below := rewritten.children
    rw [children] at below
    generalize after : l'.children = ds at below
    cases below with
    | cons head tail =>
      refine .target (same _ content (by simp [Content.kind])) after (kept head here)
        fun a' member => ?_
      obtain ⟨a, inside, step⟩ := exists_of_forall₂ tail member
      exact (bindings_of_rewrites step).trans (others a inside)

theorem BindsTarget.rewritten (target : BindsTarget l)
    (rewritten : Relabels (Rewrites (LinksInside scope w)) l l') : BindsTarget l' := by
  intro left' rest' v' content' children' isVar'
  have kind : l'.kind = .op .assign := congrArg Content.kind content'
  have content : l.content = .op .assign :=
    (content_of_rewrites rewritten (by simp [kind])).symm.trans content'
  have below := rewritten.children
  rw [children'] at below
  obtain ⟨left, rest, head, _, children⟩ := forall₂_cons_right_iff.mp below
  have same := bindingRef?_of_rewrites head
  obtain ⟨v, isVar⟩ : ∃ v, left.content = .var v := content_of_var
    ((rewrites_keeps head.node).kind.symm.trans (congrArg Content.kind isVar'))
  rw [bindingRef?_eq_some.mpr ⟨v, isVar, target left rest v content children isVar, rfl⟩] at same
  obtain ⟨w, isVar'', binds, _⟩ := bindingRef?_eq_some.mp same
  obtain rfl : v' = w := by simpa [isVar'] using isVar''
  exact binds

end Rewriting

/-- A node of a conjunct is linked: what binds refers to nothing, and any other variable refers to
the parameter of its name, or else to what binds the name. -/
structure LinkedInside (scope : NameScope) (bound : List NodeRef) (m : Node) : Prop where
  binding : ∀ v, m.content = .var v → v.binding = true → v.definition = none
  other : ∀ v, m.content = .var v → v.binding = false →
    (∃ p, scope.param? v.name = some p ∧ v.definition = some p) ∨
      (scope.param? v.name = none ∧ ∃ b, v.definition = some b ∧ ⟨b, v.name⟩ ∈ bound)

/-- A conjunct whose names are resolved. -/
structure ConjunctLinked (scope : NameScope) (c : Tree) : Prop where
  nodup : (c.bindings.map NodeRef.name).Nodup
  free : ∀ r ∈ c.bindings, scope.param? r.name = none
  places : ∀ l ∈ c.children, scope.BindsInPlace l
  targets : ∀ l ∈ c.children, BindsTarget l
  linked : c.Throughout fun u => LinkedInside scope c.bindings u.node
  fits : c.Throughout scope.CallFitsFact

theorem linkedInside_of_rewrites (prepared : Prepared scope u)
    (rewrites : Rewrites (LinksInside scope w) u.node m) : LinkedInside scope w m := by
  rw [Rewrites] at rewrites
  split at rewrites
  · next v content =>
    obtain ⟨v', links, rfl⟩ := rewrites
    refine ⟨fun _ same binds => ?_, fun _ same other => ?_⟩
    all_goals cases same
    · cases links with
      | binding binds => exact prepared.binding v content binds
      | param other _ => exact absurd (other.symm.trans binds) (by simp)
      | bound other _ _ => exact absurd (other.symm.trans binds) (by simp)
    · cases links with
      | binding binds => exact absurd (other.symm.trans binds) (by simp)
      | param _ found => exact .inl ⟨_, found, rfl⟩
      | bound _ free found => exact .inr ⟨free, _, rfl, mem_of_bindingOf found⟩
  · next notVar =>
    subst rewrites
    exact ⟨fun v content => absurd content (notVar v), fun v content => absurd content (notVar v)⟩

variable (scope) in
/-- What a conjunct has bound: each name once, and no parameter. -/
def BoundOnce (w : List NodeRef) : Prop :=
  (w.map NodeRef.name).Nodup ∧ ∀ r ∈ w, scope.param? r.name = none

theorem BindsAt.once (binds : BindsAt scope w t t' new) (once : scope.BoundOnce w) :
    scope.BoundOnce (w ++ new) := by
  cases binds with
  | stays _ => rwa [append_nil]
  | @binds v content free =>
    obtain ⟨noParam, unbound⟩ := Bool.or_eq_false_iff.mp free
    refine ⟨?_, forall_mem_append.mpr ⟨once.2, by simpa using noParam⟩⟩
    rw [map_append, nodup_append]
    refine ⟨once.1, by simp, fun x member y last => ?_⟩
    obtain rfl : y = v.name := by simpa using last
    rintro rfl
    rw [isSome_bindingOf.mpr member] at unbound
    cases unbound

theorem Marked.once {l l' : Tree} {reports : List Diagnostic}
    (marked : Marked scope w l l' new reports)
    (once : scope.BoundOnce w) : scope.BoundOnce (w ++ new) := by
  cases marked with
  | arguments _ _ each _ => exact each.keeps (fun _ _ _ _ _ _ step => step.once) once
  | target _ _ here _ => exact here.once once
  | _ => rwa [append_nil]

/-- An unresolved conjunct, when nothing is reported: it keeps its shape, what it puts on the stack
is what binds in it, and its names are resolved. -/
theorem Conjoined.raw {ls : List Tree} {found : List Diagnostic}
    (conjoined : Conjoined scope t t' new [] ls found) (raw : t.IsRaw)
    (content : t.content = .op .and) :
    Relabels Keeps t t' ∧ t'.bindings = new ∧ scope.ConjunctLinked t' := by
  have kind : ∀ k, k ≠ .op .and → t.node.kind ≠ k := fun k other same =>
    other (same.symm.trans (congrArg Content.kind content))
  have marked := conjoined.marked.silent (append_eq_nil_iff.mp conjoined.reports_eq.symm).1
  have literals : List.Forall₂ (fun l l' => Relabels Keeps l l' ∧ l'.Throughout (Prepared scope) ∧
      scope.BindsInPlace l' ∧ BindsTarget l') t.children ls :=
    forall₂_imp_mem marked.each fun l member l' ⟨_, _, _, _, ⟨⟨step, _⟩, silent⟩, _⟩ =>
      ((silent ▸ step).raw (raw.below member)).imp_right And.right
  have literal : ∀ l' ∈ ls, l'.Throughout (Prepared scope) ∧ scope.BindsInPlace l' ∧
    BindsTarget l' :=
    fun l' member => by
      obtain ⟨_, _, _, literal⟩ := exists_of_forall₂ literals member
      exact literal
  have kept : Relabels Keeps t (t.withChildren ls) :=
    relabels_iff.mpr ⟨⟨rfl, rfl, rfl⟩, literals.imp fun _ _ => And.left⟩
  have rewritten := conjoined.linked (kept.isTerm (fun _ _ same => same) raw.isTerm).isClear rfl
  have prepared : (t.withChildren ls).Throughout (Prepared scope) := throughout_mk.mpr
    ⟨prepared_of_kind (kind _ (by simp)) (kind _ (by simp)),
    fun _ l' member => (literal l' member).1⟩
  have bindings : t'.bindings = new := by
    rw [bindings_of_rewrites rewritten, withChildren,
      bindings_above (kind _ (by simp)) (kind _ (by simp))]
    exact (marked.new_eq fun l member _ _ _ _ step =>
      ((step.2 ▸ step.1.1).raw (raw.below member)).2.1.symm).symm
  obtain ⟨nodup, free⟩ := conjoined.marked.keeps (I := scope.BoundOnce)
    (fun _ _ _ _ _ _ step => step.1.once) ⟨by simp, by simp⟩
  have inside := rewritten.visited fun _ _ => rewrites_keeps
  refine ⟨(kept.comp rewritten).imp ?_, bindings, bindings ▸ nodup, bindings ▸ free,
    fun l' member => ?_, fun l' member => ?_, fun u member => ?_, fun u member => ?_⟩
  · rintro n m ⟨k, first, second⟩
    exact first.trans (rewrites_keeps second)
  · obtain ⟨l, below, step⟩ := exists_of_forall₂ rewritten.children member
    exact (literal l below).2.1.rewritten step
  · obtain ⟨l, below, step⟩ := exists_of_forall₂ rewritten.children member
    exact (literal l below).2.2.rewritten step
  · obtain ⟨v, visits, step⟩ := exists_of_forall₂ inside member
    exact bindings ▸ linkedInside_of_rewrites (prepared v visits) step.node
  · obtain ⟨v, visits, step⟩ := exists_of_forall₂ inside member
    exact (prepared v visits).call.rewritten step

variable (scope) in
/-- A conjunct and the part of the stack that belongs to it, before and after its names are
resolved. -/
def ResolvesConjunct (refs : List NodeRef) (t : Tree) (x : Tree × Conjunct) (new : List NodeRef)
    (reports : List Diagnostic) : Prop :=
  x.2 = ⟨refs.length, refs.length + new.length⟩ ∧
    ∃ ls found, Conjoined scope t x.1 new reports ls found

variable (scope) in
theorem resolvePrecond_extends (t : Tree) : Extends 0 (scope.resolvePrecond t)
    fun refs x new reports => ∃ xs, x = (t.withChildren (xs.map Prod.fst), xs.map Prod.snd) ∧
      Threads (ResolvesConjunct scope) refs t.children xs new reports := by
  refine (Extends.mapM fun c _ => resolveConjunct_extends c).seq fun xs => .pure ?_
  rintro _ refs new reports rfl threads
  rw [append_nil, append_nil]
  exact ⟨xs, rfl, threads⟩

section Precondition

variable {refs : List NodeRef} {cs : List Tree} {xs : List (Tree × Conjunct)}
  {reports : List Diagnostic}

/-- Each part of the stack stays as it is while the conjuncts after it are resolved. -/
theorem conjoined_windows (threads : Threads (ResolvesConjunct scope) refs cs xs new reports) :
    List.Forall₂ (fun c x => ∃ r ls found,
      Conjoined scope c x.1 (x.2.window (refs ++ new)) r ls found ∧ r ⊆ reports) cs xs := by
  refine threads.each.imp fun c x ⟨before, n, later, r, ⟨place, ls, found, conjoined⟩,
    split, inside⟩ =>
    ⟨r, ls, found, ?_, inside⟩
  have window : x.2.window (refs ++ new) = n := by
    rw [place, split, append_assoc, ← append_assoc, Conjunct.window, drop_left,
      Nat.add_sub_cancel_left, take_left]
  exact window ▸ conjoined

/-- The conjuncts of an unresolved precondition, when nothing is reported. -/
theorem conjuncts_resolved (threads : Threads (ResolvesConjunct scope) refs cs xs new [])
    (raw : ∀ c ∈ cs, c.IsRaw) (conjunctions : ∀ c ∈ cs, c.content = .op .and) :
    List.Forall₂ (fun c x => Relabels Keeps c x.1 ∧ x.1.bindings = x.2.window (refs ++ new) ∧
      scope.ConjunctLinked x.1) cs xs := by
  refine forall₂_imp_mem (conjoined_windows threads)
    fun c member x ⟨r, ls, found, conjoined, silent⟩ => ?_
  rw [subset_nil.mp silent] at conjoined
  exact conjoined.raw (raw c member) (conjunctions c member)

end Precondition

end NameScope

/-- A tree has the binding occurrence that a reference names. -/
def Tree.Announces (t : Tree) (r : NodeRef) : Prop :=
  ∃ b ∈ t.visited, b.id = r.id ∧
    ∃ v, b.content = .var v ∧ v.name = r.name ∧ v.binding = true ∧ v.definition = none

def Tree.BindsFirst (pre : Tree) (name : String) (x : NodeId) : Prop :=
  ∃ c, pre.children.head? = some c ∧ ⟨x, name⟩ ∈ c.bindings

namespace NameScope

variable {scope : NameScope}

/-- The names of a node are linked: a variable to the parameter of its name or to what binds it, and
a call, if at all, to a fact. -/
structure Linked (scope : NameScope) (bound : String → NodeId → Prop) (m : Node) : Prop where
  var : ∀ v, m.content = .var v → scope.param? v.name = some (v.definition.getD m.id) ∨
    (scope.param? v.name = none ∧ bound v.name (v.definition.getD m.id))
  call : ∀ c d, m.content = .call c → c.decl = some d → ∃ f ∈ scope.declarations.facts, f.id = d

theorem ConjunctLinked.announces {pre c : Tree} (linked : scope.ConjunctLinked c)
    (member : c ∈ pre.children) (sound : pre.kind ≠ .error) {r : NodeRef} (binds : r ∈ c.bindings) :
    pre.Announces r := by
  obtain ⟨b, visits, v, content, binding, rfl⟩ := mem_bindings.mp binds
  exact ⟨b, mem_visited_child sound member visits, rfl, v, content, rfl, binding,
    (linked.linked b visits).binding v content binding⟩

/-- A node of a resolved conjunct is linked to a parameter, or to what binds in the conjunct. -/
theorem ConjunctLinked.node {c : Tree} (linked : scope.ConjunctLinked c) (visits : u ∈ c.visited) :
    Linked scope (fun name x => ⟨x, name⟩ ∈ c.bindings) u.node := by
  refine ⟨fun v content => ?_, fun i d content declared => ?_⟩
  · cases binding : v.binding with
    | true =>
      have listed : ⟨u.id, v.name⟩ ∈ c.bindings :=
        mem_bindings.mpr ⟨u, visits, v, content, binding, rfl⟩
      rw [(linked.linked u visits).binding v content binding]
      exact .inr ⟨linked.free _ listed, listed⟩
    | false =>
      rcases (linked.linked u visits).other v content binding with ⟨p, found, same⟩ | ⟨free,
        b, same, listed⟩
      · rw [same]
        exact .inl found
      · rw [same]
        exact .inr ⟨free, listed⟩
  · obtain ⟨f, fact, same, _⟩ := linked.fits u visits i d content declared
    exact ⟨f, fact, same⟩

end NameScope

end TaskNet
