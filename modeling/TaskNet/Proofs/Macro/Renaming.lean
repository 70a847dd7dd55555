import TaskNet.Macro.Expansion
import TaskNet.Proofs.Macro.NewNames
import TaskNet.Proofs.Tree.Form

/-!
New names for the local variables of a macro body. The local variables of a body are the names in it
that are not kept, each listed where it first occurs; the supply gives one name for each of them, in
that order, and the instance is the body under the renaming that pairs the two lists.
-/

namespace TaskNet

open List

variable {name : String} {body : Tree}

namespace Renaming

variable {keep : String → Bool} {start : NameSupply} {r r' r'' : Renaming}

/-- A later state knows all new names of an earlier one. -/
def Extends (r r' : Renaming) : Prop :=
  ∀ x y, r.renamed.lookup x = some y → r'.renamed.lookup x = some y

def apply (r : Renaming) (keep : String → Bool) (name : String) : String :=
  if keep name then name else (r.renamed.lookup name).getD name

theorem Extends.refl (r : Renaming) : Extends r r :=
  fun _ _ found => found

theorem Extends.trans (first : Extends r r') (second : Extends r' r'') : Extends r r'' :=
  fun x y found => second x y (first x y found)

/-- All new names of a renaming were given since a state of the supply, in the order in which their
variables were met. -/
structure Since (start : NameSupply) (r : Renaming) : Prop where
  gives : NameSupply.Gives (r.renamed.map Prod.fst).reverse start (r.renamed.map Prod.snd).reverse
    r.supply
  distinct : (r.renamed.map Prod.fst).Nodup

/-- Names were met in order, and those that are not kept were renamed. -/
structure Meets (keep : String → Bool) (start : NameSupply) (r : Renaming) (names : List String)
    (r' : Renaming) : Prop where
  grows : Extends r r'
  met : r'.renamed.map Prod.fst = names.foldl (meet keep) (r.renamed.map Prod.fst)
  since : r.Since start → r'.Since start

theorem Meets.refl (r : Renaming) : Meets keep start r [] r :=
  ⟨.refl r, rfl, id⟩

theorem Meets.trans {names names' : List String} (first : Meets keep start r names r')
    (second : Meets keep start r' names' r'') : Meets keep start r (names ++ names') r'' :=
  ⟨first.grows.trans second.grows, by rw [foldl_append, ← first.met, second.met],
    second.since ∘ first.since⟩

theorem Meets.kept (kept : keep name = true) (r : Renaming) :
    Meets keep start r [name] r :=
  ⟨.refl r, by simp [meet, kept], id⟩

/-- A variable that is not kept is met. -/
theorem rename_meets (isLocal : keep name = false) (r : Renaming) :
    Meets keep start r [name] ((rename name).run r).2 ∧
      ((rename name).run r).2.renamed.lookup name = some ((rename name).run r).1 := by
  cases known : r.renamed.lookup name with
  | some new =>
    have run : (rename name).run r = (new, r) := by
      rw [rename, run_modifyGet]
      simp only [known]
    have met : name ∈ r.renamed.map Prod.fst :=
      mem_map.mpr ⟨(name, new), mem_of_lookup known, rfl⟩
    rw [run]
    exact ⟨⟨.refl r, by simp [meet, met], id⟩, known⟩
  | none =>
    have run : (rename name).run r = ((r.supply.fresh name).1,
        ⟨(r.supply.fresh name).2, (name, (r.supply.fresh name).1) :: r.renamed⟩) := by
      rw [rename, run_modifyGet]
      simp only [known]
    have unmet : name ∉ r.renamed.map Prod.fst := by
      intro met
      obtain ⟨⟨x, y⟩, member, rfl⟩ := mem_map.mp met
      have differs := lookup_eq_none_iff.mp known (x, y) member
      simp at differs
    rw [run]
    refine ⟨⟨fun x y found => ?_, by simp [meet, isLocal, unmet], fun since => ⟨?_, ?_⟩⟩, by simp⟩
    · have other : x ≠ name := by
        rintro rfl
        rw [known] at found
        cases found
      rw [lookup_cons, beq_eq_false_iff_ne.mpr other]
      exact found
    · rw [map_cons, map_cons, reverse_cons, reverse_cons]
      exact Chain.append since.gives (.cons rfl (.nil _))
    · exact nodup_cons.mpr ⟨unmet, since.distinct⟩

end Renaming

def Content.renameVariable (f : String → String) : Content → Content
  | .var v => .var { v with name := f v.name }
  | c => c

theorem Content.renameVariable_other {f : String → String} {c : Content}
    (other : ¬ ∃ v, c = .var v) : c.renameVariable f = c := by
  cases c with
  | var v => exact absurd ⟨v, rfl⟩ other
  | _ => rfl

namespace Tree

open Renaming

def renameVariables (f : String → String) (t : Tree) : Tree :=
  t.mapNodes fun n => { n with content := n.content.renameVariable f }

/-- Every variable of a tree has a name that satisfies a condition. -/
def VariablesIn (P : String → Prop) (t : Tree) : Prop :=
  t.Throughout fun s => ∀ v, s.content = .var v → P v.name

def variableNames (t : Tree) : List String :=
  t.visited.filterMap fun s => s.content.varName?

variable {keep : String → Bool} {start : NameSupply} {n : Node} {cs : List Tree} {t : Tree}

theorem renameVariables_mk (f : String → String) (n : Node) (cs : List Tree) :
    renameVariables f (mk n cs) =
      mk { n with content := n.content.renameVariable f } (cs.map (renameVariables f)) :=
  mapNodes_mk n cs

theorem renameVariables_anonymous (f : String → String) (t : Tree) :
    (t.renameVariables f).anonymous = t.anonymous.renameVariables f := by
  rw [anonymous, renameVariables, mapNodes_mapNodes, anonymous, renameVariables, mapNodes_mapNodes]

theorem IsRaw.renameVariables (raw : t.IsRaw) (f : String → String) :
    (t.renameVariables f).IsRaw := by
  induction t with
  | mk n cs ih =>
    obtain ⟨takes, unresolved, below⟩ := isRaw_mk.mp raw
    rw [renameVariables_mk]
    refine isRaw_mk.mpr ⟨?_, ?_, forall_mem_map.mpr fun c member => ih c member (below c member)⟩
    · rw [length_map]
      generalize n.content = c at takes
      cases c <;> exact takes
    · generalize n.content = c at unresolved
      cases c <;> exact unresolved

theorem mem_variableNames {s : Tree} {v : Variable} (visits : s ∈ t.visited)
    (content : s.content = .var v) : v.name ∈ t.variableNames :=
  mem_filterMap.mpr ⟨s, visits, by rw [content, Content.varName?]⟩

theorem variableNames_mk (sound : n.kind ≠ .error) :
    variableNames (mk n cs) = n.content.varName?.toList ++ cs.flatMap variableNames := by
  rw [variableNames, visited, if_neg (by simpa using sound), visitedList_eq, filterMap_cons]
  have below : (cs.flatMap visited).filterMap (fun s => s.content.varName?) =
      cs.flatMap variableNames := filterMap_flatMap
  cases found : n.content.varName? with
  | none => simp [found, below]
  | some x => simp [found, below]

theorem variableNames_anonymous (t : Tree) : t.anonymous.variableNames = t.variableNames := by
  simp only [variableNames, visited_anonymous, filterMap_map, Function.comp_def,
    anonymous_content]

theorem renameLocalsList_eq (keep : String → Bool) (ts : List Tree) :
    renameLocalsList keep ts = ts.mapM (renameLocals keep) := by
  induction ts with
  | nil => rfl
  | cons t ts ih => rw [renameLocalsList, ih, mapM_cons]

/-- What renaming a tree does to it and to the new names. -/
structure Renames (keep : String → Bool) (start : NameSupply) (t : Tree) (r : Renaming) (t' : Tree)
    (r' : Renaming) : Prop where
  meets : Meets keep start r t.variableNames r'
  result : ∀ r'', Extends r' r'' → t' = t.renameVariables (r''.apply keep)

theorem Renames.list {ds : List Tree} {r r' : Renaming}
    (chain : Chain (Renames keep start) cs r ds r') :
    Meets keep start r (cs.flatMap variableNames) r' ∧
      ∀ r'', Extends r' r'' → ds = cs.map (renameVariables (r''.apply keep)) := by
  induction chain with
  | nil r => exact ⟨.refl r, fun _ _ => rfl⟩
  | cons head _ ih =>
    refine ⟨head.meets.trans ih.1, fun r'' further => ?_⟩
    rw [map_cons, ← head.result r'' (ih.1.grows.trans further), ← ih.2 r'' further]

/-- Renaming meets the variables of a tree in order and gives each local one a new name. -/
theorem renameLocals_run (keep : String → Bool) (start : NameSupply) (raw : t.IsRaw) :
    Clean (fun _ => 0) (renameLocals keep t) (Renames keep start t) := by
  induction t with
  | mk n cs ih =>
    obtain ⟨takes, _, below⟩ := isRaw_mk.mp raw
    have sound := takes_sound takes
    rw [renameLocals, if_neg (by simpa using sound), renameLocalsList_eq]
    -- All variables of the node and below it are renamed by what is known in the end.
    have finish : ∀ content : Content, Clean (fun _ => 0) (do
        let ds ← cs.mapM (renameLocals keep)
        pure (mk { n with content := content } ds))
        (fun r t' r' => ∀ r₀, Meets keep start r₀ n.content.varName?.toList r →
          (∀ r'', Extends r r'' → content = n.content.renameVariable (r''.apply keep)) →
          Renames keep start (mk n cs) r₀ t' r') := by
      refine fun content => .seq (.mapM fun c member => ih c member (below c member)) fun ds =>
        .pure fun r' r chain r₀ here same => ?_
      obtain ⟨meets, result⟩ := Renames.list chain
      refine ⟨variableNames_mk sound ▸ here.trans meets, fun r'' further => ?_⟩
      rw [renameVariables_mk, ← result r'' further, ← same r'' (meets.grows.trans further)]
    cases content : n.content with
    | var v =>
      dsimp only
      rw [content] at finish
      by_cases kept : keep v.name = true
      · rw [if_pos kept, pure_bind]
        refine (finish _).imp fun r _ r' whole => whole r (.kept kept r) fun r'' _ => ?_
        simp [Content.renameVariable, Renaming.apply, kept]
      · have renamed : Clean (fun _ => 0) (Renaming.rename v.name) (fun r new r' =>
            Meets keep start r [v.name] r' ∧ r'.renamed.lookup v.name = some new) :=
          fun r => ⟨Nat.le_refl _, fun _ => rename_meets (by simpa using kept) r⟩
        rw [if_neg kept]
        refine .seq renamed fun new => ?_
        rw [pure_bind]
        refine (finish _).imp fun r _ r' whole r₀ here => whole r₀ here.1 fun r'' further => ?_
        simp [Content.renameVariable, Renaming.apply, kept, further _ _ here.2]
    | _ =>
      dsimp only
      rw [pure_bind]
      rw [content] at finish
      exact (finish _).imp fun r _ r' whole => whole r (.refl r) fun _ _ => rfl

end Tree

open Tree

namespace MacroTable

def locals (table : MacroTable) (m : Template) (body : Tree) : List String :=
  (body.variableNames.foldl (meet (table.isKept m)) []).reverse

theorem mem_locals {table : MacroTable} {m : Template} {x : String} :
    x ∈ table.locals m body ↔ x ∈ body.variableNames ∧ table.isKept m x = false := by
  rw [locals, mem_reverse, mem_foldl_meet]
  simp

/-- An instance of a macro body: its local variables are paired with names that the supply gave for
them, and renamed so; nothing else is different, and nothing else was done. -/
structure Instance (table : MacroTable) (m : Template) (body : Tree) (s : Expander)
    (pairs : List (String × String)) (t : Tree) (s' : Expander) : Prop where
  locals : pairs.map Prod.fst = table.locals m body
  distinct : (pairs.map Prod.fst).Nodup
  gives : NameSupply.Gives (pairs.map Prod.fst) s.supply (pairs.map Prod.snd) s'.supply
  renamed : t.anonymous = (body.renameVariables (renameBy pairs)).anonymous
  frame : s' = { s with pool := s'.pool, supply := s'.supply }

/-- An instance of a body is its copy under the renaming of its local variables. -/
theorem instantiate_eq (table : MacroTable) (m : Template) (raw : body.IsRaw)
    (s : Expander) : ∃ pairs supply, table.Instance m body s pairs
        ((instantiate table m body).run s).1 ((instantiate table m body).run s).2 ∧
      (instantiate table m body).run s = ((body.copyIn s.pool).1.renameVariables (renameBy pairs),
        { s with pool := (body.copyIn s.pool).2, supply := supply }) := by
  let copy := (body.copyIn s.pool).1
  have copied : copy.anonymous = body.anonymous := copy_anonymous body s.pool.next
  have rawCopy : copy.IsRaw := raw.copy s.pool.next
  obtain ⟨⟨_, met, since⟩, result⟩ :=
    (renameLocals_run (table.isKept m) s.supply rawCopy ⟨s.supply, []⟩).2 rfl
  have run : (instantiate table m body).run s =
      (((renameLocals (table.isKept m) copy).run ⟨s.supply, []⟩).1,
        { s with
          pool := (body.copyIn s.pool).2
          supply := ((renameLocals (table.isKept m) copy).run ⟨s.supply, []⟩).2.supply }) := rfl
  rw [run]
  generalize (renameLocals (table.isKept m) copy).run ⟨s.supply, []⟩ = renamed at *
  obtain ⟨t, r⟩ := renamed
  have since := since ⟨.nil _, nodup_nil⟩
  have listed : r.renamed.map Prod.fst =
      body.variableNames.foldl (meet (table.isKept m)) [] := by
    rw [← variableNames_anonymous body, ← copied, variableNames_anonymous]
    exact met
  have reversed : (r.renamed.reverse.map Prod.fst).Nodup := by
    rw [map_reverse]
    exact nodup_reverse.mpr since.distinct
  -- only names that are not kept are paired
  have apply : r.apply (table.isKept m) = renameBy r.renamed.reverse := by
    funext x
    rw [renameBy_reverse since.distinct, Renaming.apply]
    split
    · next kept =>
      refine (renameBy_of_not_mem fun paired => ?_).symm
      rw [listed, mem_foldl_meet] at paired
      simp [kept] at paired
    · rfl
  obtain rfl : t = copy.renameVariables (renameBy r.renamed.reverse) := apply ▸ result r (.refl r)
  refine ⟨r.renamed.reverse, r.supply, ⟨?_, reversed, ?_, ?_, rfl⟩, rfl⟩
  · rw [map_reverse, listed, locals]
  · rw [map_reverse, map_reverse]
    exact since.gives
  · rw [renameVariables_anonymous, renameVariables_anonymous, copied]

namespace Instance

variable {table : MacroTable} {m : Template} {body t : Tree} {s s' : Expander}
  {pairs : List (String × String)}

/-- A name in a body is paired with the name that takes its place, or is left. -/
theorem renameBy_cases (inst : table.Instance m body s pairs t s') (a : String) :
    (a, renameBy pairs a) ∈ pairs ∨ renameBy pairs a = a := by
  by_cases paired : a ∈ pairs.map Prod.fst
  · exact .inl (mem_renameBy inst.distinct paired)
  · exact .inr (renameBy_of_not_mem paired)

/-- A name that is kept in a body stays. -/
theorem kept (inst : table.Instance m body s pairs t s') {a : String}
    (isKept : table.isKept m a = true) : renameBy pairs a = a := by
  refine renameBy_of_not_mem fun paired => ?_
  rw [inst.locals, mem_locals, isKept] at paired
  cases paired.2

/-- Different names that are paired are paired with different names. -/
theorem apart (inst : table.Instance m body s pairs t s') {a b c : String} (first : (a, c) ∈ pairs)
    (second : (b, c) ∈ pairs) : a = b :=
  congrArg Prod.fst (inj_on_of_nodup_map inst.gives.grows.distinct first second rfl)

end Instance

end MacroTable

end TaskNet
