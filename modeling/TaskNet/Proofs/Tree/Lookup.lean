import TaskNet.Proofs.Tree.Form
import TaskNet.Proofs.Tree.Identity
import TaskNet.Typing.Global

/-!
Looking nodes up by their identities. When every identity is in at most one place of a program and
lies below the next free one, the tables of the program find each node by its identity and nothing
else.
-/

namespace TaskNet

variable {s : Site} {x : Nat}

section Table

variable {α β : Type} (key : α → Nat) (value : α → β)
variable {table : Array β} {l : List α}

/-- Writes the values of a list into a table by their keys. -/
def fillTable (table : Array β) (l : List α) : Array β :=
  l.foldl (fun table a => table.setIfInBounds (key a) (value a)) table

theorem fillTable_size (table : Array β) (l : List α) :
    (fillTable key value table l).size = table.size := by
  induction l generalizing table with
  | nil => rfl
  | cons a l ih =>
    rw [fillTable, List.foldl_cons]
    exact (ih _).trans Array.size_setIfInBounds

theorem fillTable_absent (absent : ∀ a ∈ l, key a ≠ x) :
    (fillTable key value table l)[x]? = table[x]? := by
  induction l generalizing table with
  | nil => rfl
  | cons a l ih =>
    rw [fillTable, List.foldl_cons]
    refine (ih fun b member => absent b (by simp [member])).trans ?_
    exact Array.getElem?_setIfInBounds_ne (absent a (by simp))

theorem fillTable_present (distinct : (l.map key).Nodup) {a : α} (member : a ∈ l)
    (inside : key a < table.size) : (fillTable key value table l)[key a]? = some (value a) := by
  induction l generalizing table with
  | nil => simp at member
  | cons b l ih =>
    rw [List.map_cons, List.nodup_cons] at distinct
    rw [fillTable, List.foldl_cons]
    rcases List.mem_cons.mp member with rfl | later
    · have absent : ∀ c ∈ l, key c ≠ key a := fun c inside same =>
        distinct.1 (List.mem_map.mpr ⟨c, inside, same⟩)
      refine (fillTable_absent key value absent).trans ?_
      simp [inside]
    · exact ih distinct.2 later (by simpa using inside)

/-- What a table holds was there before or is a value of the list. -/
theorem fillTable_source {b : β} (found : (fillTable key value table l)[x]? = some b) :
    table[x]? = some b ∨ ∃ a ∈ l, key a = x ∧ value a = b := by
  induction l generalizing table with
  | nil => exact .inl found
  | cons a l ih =>
    rw [fillTable, List.foldl_cons] at found
    rcases ih found with before | ⟨c, member, same, val⟩
    · by_cases here : key a = x
      · subst here
        rw [Array.getElem?_setIfInBounds_self] at before
        split at before
        · exact .inr ⟨a, by simp, rfl, Option.some.inj before⟩
        · cases before
      · rw [Array.getElem?_setIfInBounds_ne here] at before
        exact .inl before
    · exact .inr ⟨c, by simp [member], same, val⟩

end Table

namespace Tree

variable {parent : Option Node} {ts : List Tree} {t c : Tree}

mutual

/-- The nodes of a tree with what is below and above each, in pre-order. -/
def siteList (parent : Option Node) : Tree → List Site
  | mk n cs => ⟨mk n cs, parent⟩ :: siteLists (some n) cs

def siteLists (parent : Option Node) : List Tree → List Site
  | [] => []
  | t :: ts => siteList parent t ++ siteLists parent ts

end

theorem siteLists_eq (parent : Option Node) (ts : List Tree) :
    siteLists parent ts = ts.flatMap (siteList parent) := by
  induction ts with
  | nil => rfl
  | cons t ts ih => rw [siteLists, ih, List.flatMap_cons]

theorem mem_siteLists (member : t ∈ ts) (site : s ∈ siteList parent t) :
    s ∈ siteLists parent ts := by
  rw [siteLists_eq]
  exact List.mem_flatMap.mpr ⟨t, member, site⟩

theorem mem_siteList_self (parent : Option Node) (t : Tree) : ⟨t, parent⟩ ∈ siteList parent t := by
  cases t with
  | mk n cs => simp [siteList]

theorem mem_siteList_below (member : c ∈ t.children)
    (site : s ∈ siteList (some t.node) c) : s ∈ siteList parent t := by
  cases t with
  | mk n cs =>
    rw [siteList]
    exact List.mem_cons_of_mem _ (mem_siteLists member site)

theorem mem_siteList_child (member : c ∈ t.children) : ⟨c, some t.node⟩ ∈ siteList parent t :=
  mem_siteList_below member (mem_siteList_self _ c)

/-- What a traversal visits is among the sites. -/
theorem mem_siteList_visited {u : Tree} (member : u ∈ t.visited) :
    ∃ above, ⟨u, above⟩ ∈ siteList parent t := by
  induction t generalizing parent with
  | mk n cs ih =>
    rw [visited] at member
    rcases List.mem_cons.mp member with rfl | below
    · exact ⟨parent, mem_siteList_self parent _⟩
    · split at below
      · cases below
      · rw [visitedList_eq] at below
        obtain ⟨c, inside, visits⟩ := List.mem_flatMap.mp below
        obtain ⟨above, site⟩ : ∃ above, ⟨u, above⟩ ∈ siteList (some n) c := ih c inside visits
        exact ⟨above, mem_siteList_below (t := mk n cs) inside site⟩

theorem mem_siteList_of_site (site : s ∈ siteList parent t)
    (member : c ∈ s.tree.children) : ⟨c, some s.tree.node⟩ ∈ siteList parent t := by
  induction t generalizing parent with
  | mk n cs ih =>
    rw [siteList] at site
    rcases List.mem_cons.mp site with rfl | below
    · exact mem_siteList_child member
    · rw [siteLists_eq] at below
      obtain ⟨d, inside, deeper⟩ := List.mem_flatMap.mp below
      exact mem_siteList_below (t := mk n cs) inside (ih d inside deeper)

theorem siteLists_nodes_of
    (each : ∀ t ∈ ts, ∀ parent, (siteList parent t).map (fun s => s.tree.node) = t.nodes)
    (parent : Option Node) : (siteLists parent ts).map (fun s => s.tree.node) = nodesList ts := by
  rw [siteLists_eq, List.map_flatMap, nodesList_eq]
  exact List.flatMap_congr fun t member => each t member parent

theorem siteList_nodes (parent : Option Node) (t : Tree) :
    (siteList parent t).map (fun s => s.tree.node) = t.nodes := by
  induction t generalizing parent with
  | mk n cs ih =>
    rw [siteList, List.map_cons, siteLists_nodes_of (fun c m p => ih c m p), nodes_mk]
    rfl

theorem siteLists_nodes (parent : Option Node) (ts : List Tree) :
    (siteLists parent ts).map (fun s => s.tree.node) = nodesList ts :=
  siteLists_nodes_of (fun t _ parent => siteList_nodes parent t) parent

/-- Sites are entered into a table one after the other. -/
abbrev fillSites (table : Array (Option Site)) (l : List Site) : Array (Option Site) :=
  fillTable (fun s : Site => s.tree.id) some table l

theorem fillSites_append (table : Array (Option Site)) (l k : List Site) :
    fillSites table (l ++ k) = fillSites (fillSites table l) k :=
  List.foldl_append

theorem sitesList_of
    (each : ∀ t ∈ ts, ∀ parent table, sites parent table t = fillSites table (siteList parent t))
    (parent : Option Node) (table : Array (Option Site)) :
    sitesList parent table ts = fillSites table (siteLists parent ts) := by
  induction ts generalizing table with
  | nil => rfl
  | cons t ts ih =>
    rw [sitesList, each t (by simp), ih fun s member => each s (by simp [member]), siteLists,
      fillSites_append]

theorem sites_eq (parent : Option Node) (table : Array (Option Site)) (t : Tree) :
    sites parent table t = fillSites table (siteList parent t) := by
  induction t generalizing parent table with
  | mk n cs ih =>
    rw [sites, sitesList_of fun c member parent table => ih c member parent table, siteList]
    rfl

theorem sitesList_eq (parent : Option Node) (table : Array (Option Site)) (ts : List Tree) :
    sitesList parent table ts = fillSites table (siteLists parent ts) :=
  sitesList_of (fun t _ parent table => sites_eq parent table t) parent table

end Tree

namespace Program

open Tree

variable {s : Site} {B B' : Tree → Prop} {task : Tree}

/-- Every identity is in at most one place of the program, and lies below the next free one. -/
def Accounted (p : Program) : Prop :=
  ∀ x, tallies x (p.root :: p.loose) ≤ span 0 p.next x

/-- The nodes of a program with what is below and above each. -/
def siteList (p : Program) : List Site :=
  siteLists none (p.root :: p.loose)

theorem siteList_ids (p : Program) :
    p.siteList.map (fun s => s.tree.id) = (nodesList (p.root :: p.loose)).map Node.id := by
  rw [← siteLists_nodes none (p.root :: p.loose), List.map_map]
  rfl

variable {p : Program}

theorem Accounted.distinct (accounted : p.Accounted) :
    (p.siteList.map fun s => s.tree.id).Nodup := by
  rw [siteList_ids, List.nodup_iff_count_le_one]
  intro x
  have once := accounted x
  rw [tallies, span] at once
  split at once <;> omega

theorem Accounted.lt_next (accounted : p.Accounted) {n : Node}
    (member : n ∈ nodesList (p.root :: p.loose)) : n.id < p.next := by
  have present : 0 < ((nodesList (p.root :: p.loose)).map Node.id).count n.id :=
    List.count_pos_iff.mpr (List.mem_map_of_mem member)
  have once := accounted n.id
  rw [tallies, span] at once
  split at once
  · next inside => exact inside.2
  · omega

/-- Two sites with one identity are the same site. -/
theorem Accounted.unique (accounted : p.Accounted) {r : Site} (inside : s ∈ p.siteList)
    (other : r ∈ p.siteList) (same : s.tree.id = r.tree.id) : s = r :=
  List.inj_on_of_nodup_map accounted.distinct inside other same

theorem mem_nodes_of_mem_siteList (inside : s ∈ p.siteList) :
    s.tree.node ∈ nodesList (p.root :: p.loose) := by
  rw [← siteLists_nodes none]
  exact List.mem_map_of_mem (f := fun s : Site => s.tree.node) inside

theorem child_mem_siteList (inside : s ∈ p.siteList) {c : Tree} (member : c ∈ s.tree.children) :
    ⟨c, some s.tree.node⟩ ∈ p.siteList := by
  rw [siteList, siteLists_eq] at inside
  obtain ⟨t, top, site⟩ := List.mem_flatMap.mp inside
  exact mem_siteLists top (mem_siteList_of_site site member)

/-- The table of a program finds each of its nodes. -/
theorem Accounted.find?_eq (accounted : p.Accounted) (inside : s ∈ p.siteList) :
    p.sites.find? s.tree.id = some s := by
  have bound : s.tree.id < (Array.replicate p.next (none : Option Site)).size := by
    rw [Array.size_replicate]
    exact accounted.lt_next (mem_nodes_of_mem_siteList inside)
  have found :=
    fillTable_present (fun s : Site => s.tree.id) some accounted.distinct inside bound
  rw [SiteTable.find?, Program.sites, sitesList_eq]
  exact congrArg Option.join found

/-- What the table of a program finds is a node of the program with the identity asked for. -/
theorem mem_of_find? {x : NodeId} (found : p.sites.find? x = some s) :
    s ∈ p.siteList ∧ s.tree.id = x := by
  rw [SiteTable.find?, Option.join_eq_some_iff, Program.sites, sitesList_eq] at found
  rcases fillTable_source (fun s : Site => s.tree.id) some found with before | ⟨r,
    member, same, val⟩
  · rw [Array.getElem?_replicate] at before
    split at before <;> cases before
  · cases val
    exact ⟨member, same⟩

theorem types_size (p : Program) : p.types.size = p.next := by
  rw [Program.types]
  refine (fillTable_size Node.id Node.type _ _).trans ?_
  rw [Array.size_replicate]

/-- The types of a program are known when those of its nodes are. -/
theorem types_known (known : EachKnown (p.root :: p.loose)) (x : NodeId) :
    ((p.types[x]?).getD .any).Known := by
  cases found : p.types[x]? with
  | none => exact .inl rfl
  | some type =>
    rcases fillTable_source Node.id Node.type found with before | ⟨n, member, _, rfl⟩
    · rw [Array.getElem?_replicate] at before
      split at before
      · exact .inl (Option.some.inj before).symm
      · cases before
    · exact known n member

/-- A program whose form, identities and types are in order. -/
structure Sound (B : Tree → Prop) (p : Program) : Prop where
  form : IsProgram B p.root
  accounted : p.Accounted
  known : EachKnown (p.root :: p.loose)

theorem Sound.strengthen (sound : p.Sound B)
    (each : ∀ task branch, (task, branch) ∈ p.root.branches → B branch → B' branch) : p.Sound B' :=
  ⟨sound.form.strengthen each, sound.accounted, sound.known⟩

section Moved

variable {stop : Option Stop} {root : Tree} {q : Pool} {ds : Declarations}
variable (moves : Moves True [p.root] ⟨p.next, p.loose, stop⟩ [root] q)
include moves

/-- A move of the whole program keeps every node in one place. -/
theorem Accounted.of_moves (accounted : p.Accounted) : Accounted ⟨root, q.loose, q.next, ds⟩ := by
  intro x
  have kept := moves.kept x
  have before := accounted x
  have whole := span_add (Nat.zero_le p.next) moves.next_le x
  simp only [tallies_cons, tallies_nil] at kept before ⊢
  omega

/-- A move of the whole program keeps it in order. -/
theorem Sound.of_moves (sound : p.Sound B) (form : IsProgram B' root) :
    Sound B' ⟨root, q.loose, q.next, ds⟩ := by
  obtain ⟨knownRoot, knownLoose⟩ := eachOf_cons.mp sound.known
  obtain ⟨known, loose⟩ := moves.known trivial (by simpa using knownRoot) knownLoose
  exact ⟨form, .of_moves moves sound.accounted, eachOf_cons.mpr ⟨(eachOf_cons.mp known).1, loose⟩⟩

end Moved

/-- What a block of a program declares is among its sites. -/
theorem mem_siteList_block {k : Kind} {block c : Tree} (found : p.root.findChild? k = some block)
    (inside : c ∈ block.children) : ⟨c, some block.node⟩ ∈ p.siteList :=
  mem_siteLists (by simp) (mem_siteList_below (mem_of_findChild? found).1
    (mem_siteList_child inside))

/-- The tasks are among the sites of a program. -/
theorem mem_siteList_task (isTask : task ∈ p.root.tasks) : ∃ above, ⟨task, above⟩ ∈ p.siteList := by
  obtain ⟨d, found, member⟩ := mem_tasks.mp isTask
  exact ⟨some d.node, mem_siteList_block found (mem_childrenOf.mp member).1⟩

/-- The sites of a case and of its task. -/
theorem mem_siteList_branch {branch : Tree} (member : (task, branch) ∈ p.root.branches) :
    (∃ parent, ⟨task, parent⟩ ∈ p.siteList) ∧
      ∀ s ∈ Tree.siteList (some task.node) branch, s ∈ p.siteList := by
  obtain ⟨domain, found, inside, below⟩ := mem_branches.mp member
  have atDomain := (mem_of_findChild? found).1
  have atTask := (mem_childrenOf.mp inside).1
  have atBranch := (mem_childrenOf.mp below).1
  have top : ∀ s ∈ Tree.siteList none p.root, s ∈ p.siteList :=
    fun s site => mem_siteLists (by simp) site
  exact ⟨⟨_, top _ (mem_siteList_below atDomain (mem_siteList_child atTask))⟩, fun s site =>
    top s (mem_siteList_below atDomain
    (mem_siteList_below atTask (mem_siteList_below atBranch site)))⟩

theorem Accounted.root_distinct (accounted : p.Accounted) : p.root.Distinct := by
  refine List.nodup_iff_count_le_one.mpr fun x => ?_
  have once := accounted x
  rw [tallies_cons, span] at once
  have here : (p.root.nodes.map Node.id).count x = tally x p.root := rfl
  rw [here]
  split at once <;> omega

theorem Accounted.branch_distinct (accounted : p.Accounted) {task branch : Tree}
    (member : (task, branch) ∈ p.root.branches) : branch.Distinct := by
  obtain ⟨domain, found, inside, below⟩ := mem_branches.mp member
  exact ((accounted.root_distinct.child (mem_of_findChild? found).1).child
    (mem_childrenOf.mp inside).1).child (mem_childrenOf.mp below).1

end Program

namespace Tree

variable {branch t : Tree}

/-- A part of a case is found by its identity. -/
theorem part?_of_distinct (distinct : (branch.children.map id).Nodup) (member : t ∈ branch.children)
    (loose : List Tree) : branch.part? loose t.id = some t := by
  rw [Tree.part?]
  cases found : branch.children.find? fun c => c.id == t.id with
  | none => simpa using List.find?_eq_none.mp found t member
  | some c =>
    have same : c.id = t.id := by simpa using List.find?_some found
    rw [List.inj_on_of_nodup_map distinct (List.mem_of_find?_eq_some found) member same]
    rfl

/-- A part of a case is replaced in its place. -/
theorem putPart_of_distinct {before after : List Tree}
    (children : branch.children = before ++ t :: after)
    (distinct : (branch.children.map id).Nodup) (loose : List Tree) (new : Tree) :
    branch.putPart loose t.id new = (branch.withChildren (before ++ new :: after), loose) := by
  have inside : t ∈ branch.children := by simp [children]
  rw [children, List.map_append, List.map_cons, List.nodup_append, List.nodup_cons] at distinct
  obtain ⟨_, ⟨notAfter, _⟩, notBefore⟩ := distinct
  have kept : ∀ ts : List Tree, (∀ c ∈ ts, c.id ≠ t.id) →
      ts.map (fun c => if c.id == t.id then new else c) = ts := by
    intro ts apart
    refine (List.map_congr_left fun c member => ?_).trans (List.map_id ts)
    rw [if_neg (by simpa using apart c member)]
    rfl
  rw [Tree.putPart, if_pos (List.any_eq_true.mpr ⟨t, inside, by simp⟩), children, List.map_append,
    List.map_cons, kept before, kept after]
  · simp
  · intro c member same
    exact notAfter (List.mem_map.mpr ⟨c, member, same⟩)
  · intro c member same
    exact notBefore c.id (List.mem_map_of_mem member) t.id (by simp) same

end Tree

end TaskNet
