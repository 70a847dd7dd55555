import TaskNet.Proofs.Macro.Locals

/-!
Trees that are the same under a renaming of variables, up to the identities and locations of their
nodes. Renaming goes through what macro expansion does to a tree: it commutes with putting arguments
in the places of parameters and with marking a node as an error.
-/

namespace TaskNet

open List

variable {t : Tree}

namespace Tree

/-- A tree without the identities and the locations of its nodes. -/
def bare (t : Tree) : Tree :=
  t.mapNodes fun n => { n with id := 0, loc := .nowhere }

theorem bare_mk (n : Node) (cs : List Tree) :
    (mk n cs).bare = mk { n with id := 0, loc := .nowhere } (cs.map bare) :=
  mapNodes_mk n cs

@[simp] theorem bare_anonymous (t : Tree) : t.anonymous.bare = t.bare :=
  mapNodes_mapNodes _ _ t

theorem eachContent_bare {P : Content → Prop} : t.bare.EachContent P ↔ t.EachContent P :=
  eachContent_mapNodes fun _ => rfl

theorem renameVariables_bare (f : String → String) (t : Tree) :
    (t.renameVariables f).bare = t.bare.renameVariables f := by
  rw [bare, renameVariables, mapNodes_mapNodes, bare, renameVariables, mapNodes_mapNodes]

/-- Putting trees in places commutes with a change of nodes that leads to the places of the changed
trees. -/
theorem subst_mapNodes {g : Node → Node} {env env' : String → Option Tree}
    (kinds : ∀ n, (g n).kind = n.kind)
    (places : ∀ n, (g n).content.place? env' = (n.content.place? env).map (mapNodes g)) (t : Tree) :
    (t.mapNodes g).subst env' = (t.subst env).mapNodes g := by
  induction t with
  | mk n cs ih =>
    rw [mapNodes_mk]
    by_cases error : n.kind = .error
    · rw [subst_error error, subst_error ((kinds n).trans error), mapNodes_mk]
    rw [subst_mk error, subst_mk (kinds n ▸ error), map_map, places]
    cases n.content.place? env with
    | some a => rfl
    | none =>
      rw [Option.map_none, Option.getD_none, Option.getD_none, mapNodes_mk, map_map]
      congr 1
      exact map_congr_left ih

theorem subst_bare (env : String → Option Tree) (t : Tree) :
    (t.subst env).bare = t.bare.subst fun x => (env x).map bare := by
  refine (subst_mapNodes ?_ (fun n => ?_) t).symm
  · exact fun _ => rfl
  · change n.content.place? _ = _
    cases n.content <;> rfl

theorem renameVariables_self (t : Tree) : (t.renameVariables fun name => name) = t := by
  induction t with
  | mk n cs ih =>
    have content : (n.content.renameVariable fun name => name) =
      n.content := by cases n.content <;> rfl
    rw [renameVariables_mk, content, map_congr_left ih, map_id']

theorem renameVariables_renameVariables (f g : String → String) (t : Tree) :
    (t.renameVariables g).renameVariables f = t.renameVariables fun x => f (g x) := by
  refine (mapNodes_mapNodes _ _ t).trans (congrArg (mapNodes · t) (funext fun n => ?_))
  obtain ⟨_, _, _, content⟩ := n
  cases content <;> rfl

theorem renameVariables_congr {f g : String → String}
    (agree : t.EachVariable fun v => f v.name = g v.name) :
    t.renameVariables f = t.renameVariables g := by
  induction t with
  | mk n cs ih =>
    obtain ⟨here, below⟩ := eachContent_mk.mp agree
    have content : n.content.renameVariable f = n.content.renameVariable g := by
      cases isVar : n.content with
      | var v => rw [Content.renameVariable, Content.renameVariable, here v isVar]
      | _ => rfl
    rw [renameVariables_mk, renameVariables_mk, content]
    congr 1
    exact map_congr_left fun c member => ih c member (below c member)

theorem subst_renameVariables {env env' : String → Option Tree}
    (places : ∀ x, env' (f x) = (env x).map (renameVariables f)) (t : Tree) :
    (t.renameVariables f).subst env' = (t.subst env).renameVariables f := by
  refine subst_mapNodes (fun n => ?_) (fun n => ?_) t
  · change Content.kind _ = Content.kind _
    cases n.content <;> rfl
  · change (n.content.renameVariable f).place? env' = _
    cases n.content with
    | var v => exact places v.name
    | _ => rfl

/-- Two trees are the same under a renaming of the variables of the first, up to identities and
locations. -/
def SameUnder (f : String → String) (t u : Tree) : Prop :=
  u.bare = t.bare.renameVariables f

variable {f g : String → String} {t u : Tree}

theorem sameUnder_list {ts us : List Tree} :
    List.Forall₂ (SameUnder f) ts us ↔ us.map bare = (ts.map bare).map (renameVariables f) := by
  rw [map_map, ← forall₂_eq_eq_eq, forall₂_map_left_iff, forall₂_map_right_iff]
  exact ⟨List.Forall₂.flip, List.Forall₂.flip⟩

theorem sameUnder_mk {n n' : Node} {cs cs' : List Tree} :
    SameUnder f (mk n cs) (mk n' cs') ↔ n'.type = n.type ∧ n'.content = n.content.renameVariable f ∧
      List.Forall₂ (SameUnder f) cs cs' := by
  rw [SameUnder, bare_mk, bare_mk, renameVariables_mk, sameUnder_list]
  simp [and_assoc]

theorem SameUnder.congr (same : SameUnder f t u)
    (agree : t.EachVariable fun v => f v.name = g v.name) : SameUnder g t u := by
  rw [SameUnder, ← renameVariables_congr (eachContent_bare.mpr agree)]
  exact same

theorem SameUnder.content (same : SameUnder f t u) : u.content = t.content.renameVariable f := by
  cases t with
  | mk n cs =>
    cases u with
    | mk n' cs' => exact (sameUnder_mk.mp same).2.1

theorem SameUnder.kind (same : SameUnder f t u) : u.kind = t.kind := by
  change u.content.kind = t.content.kind
  rw [same.content]
  cases t.content <;> rfl

theorem SameUnder.children (same : SameUnder f t u) :
    List.Forall₂ (SameUnder f) t.children u.children := by
  cases t with
  | mk n cs =>
    cases u with
    | mk n' cs' => exact (sameUnder_mk.mp same).2.2

theorem SameUnder.markError (same : SameUnder f t u) (problem : Problem) :
    SameUnder f (t.markError problem) (u.markError problem) := by
  have sameKind := same.kind
  cases t with
  | mk n cs =>
    cases u with
    | mk n' cs' =>
      obtain ⟨type, _, children⟩ := sameUnder_mk.mp same
      exact sameUnder_mk.mpr ⟨type, congrArg (Content.error · problem) sameKind, children⟩

end Tree

end TaskNet
