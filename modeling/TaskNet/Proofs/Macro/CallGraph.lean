import Mathlib.Logic.Relation
import TaskNet.Macro.CallGraph
import TaskNet.Proofs.Lists

/-!
The search for recursive macros misses none. It follows the chains of calls in which no macro stands
twice, and a macro that leads to another one does so by such a chain. Where nothing is found, the
calls between macros are well founded: every macro can be given a rank above those that it calls.
-/

namespace TaskNet

open List Relation

variable {content : Content} {m : Template} {chain : List NodeId} {base : Nat}

namespace Stack

variable {α : Type}

theorem since_eq (s : Stack α) (base : Nat) : s.since base = s.items.toList.drop base := by
  rw [since, between, Array.toList_extract, extract_eq_take_drop, size,
    ← Array.length_toList, ← length_drop, take_length]

theorem since_size (s : Stack α) : s.since s.size = [] := by
  simp [since_eq, size]

theorem since_push (s : Stack α) (a : α) (below : base ≤ s.size) :
    (s.push a).since base = s.since base ++ [a] := by
  rw [since_eq, since_eq, push, Array.toList_push, drop_append_of_le_length below]

theorem le_size_push (s : Stack α) (a : α) (below : base ≤ s.size) :
    base ≤ (s.push a).size := by
  rw [size, push, Array.size_push]
  exact Nat.le_succ_of_le below

theorem pop_push (s : Stack α) (a : α) : (s.push a).pop = s := by
  simp [pop, pop?, push, settle, Except.map]

theorem settle_release (s : Stack α) : s.settle (s.release s.size) = s := by
  simp [release, settle, shrinkTo, size]

end Stack

namespace MacroTable

variable {t : MacroTable} {target : NodeId} {base : Nat}
variable {m c : Template}

section References

variable {scope : Option NodeId} {name : String}

def FirstIn (t : MacroTable) (scope : Option NodeId) (name : String) (m : Template) : Prop :=
  ∃ before after, t.declared = before ++ m :: after ∧ m.scope = scope ∧ m.name = name ∧
    ∀ d ∈ before, d.scope = scope → d.name ≠ name

def NoneIn (t : MacroTable) (scope : Option NodeId) (name : String) : Prop :=
  ∀ d ∈ t.declared, d.scope = scope → d.name ≠ name

/-- A name means a macro in a scope: it is no name of a fact or primitive, and the macro is the
first of the name in the scope, or else the first of the domain. -/
def Means (t : MacroTable) (scope : Option NodeId) (name : String) (m : Template) : Prop :=
  name ∉ t.reserved ∧ (t.FirstIn scope name m ∨ t.NoneIn scope name ∧ t.FirstIn none name m)

theorem declaredIn?_eq_some : t.declaredIn? scope name = some m ↔ t.FirstIn scope name m := by
  rw [declaredIn?, find?_eq_some_iff_append, FirstIn]
  constructor
  · rintro ⟨here, before, after, declared, others⟩
    obtain ⟨inScope, named⟩ : m.scope = scope ∧ m.name = name := by simpa using here
    refine ⟨before, after, declared, inScope, named, fun d member => ?_⟩
    simpa [imp_iff_not_or] using others d member
  · rintro ⟨before, after, declared, inScope, named, others⟩
    refine ⟨by simp [inScope, named], before, after, declared, fun d member => ?_⟩
    simpa [imp_iff_not_or] using others d member

theorem declaredIn?_eq_none : t.declaredIn? scope name = none ↔ t.NoneIn scope name := by
  simp [declaredIn?, NoneIn]

theorem NoneIn.not_firstIn (absent : t.NoneIn scope name) : ¬ t.FirstIn scope name m := by
  rintro ⟨before, after, declared, inScope, named, _⟩
  exact absent m (by simp [declared]) inScope named

/-- Looking a name up finds what it means. -/
theorem lookup?_eq_some : t.lookup? scope name = some m ↔ t.Means scope name m := by
  rw [lookup?, Means]
  by_cases reserved : name ∈ t.reserved
  · simp [reserved]
  · rw [if_neg (by simpa using reserved)]
    cases found : t.declaredIn? scope name with
    | some d =>
      have present : ¬ t.NoneIn scope name := fun absent =>
        absent.not_firstIn (declaredIn?_eq_some.mp found)
      rw [← declaredIn?_eq_some, found]
      simp [reserved, present]
    | none =>
      have absent := declaredIn?_eq_none.mp found
      simp only [declaredIn?_eq_some, reserved, not_false_eq_true, true_and, absent]
      exact ⟨.inr, fun first => first.resolve_left absent.not_firstIn⟩

theorem refer?_eq_some : t.refer? scope content = some m ↔
    (∃ f, content = .call f ∧ t.Means scope f.name m) ∨
      ∃ v, content = .var v ∧ t.Means scope v.name m ∧ m.formals = [] := by
  cases content with
  | call f => simp [refer?, lookup?_eq_some]
  | var v => simp [refer?, Option.filter_eq_some_iff, lookup?_eq_some]
  | _ => simp [refer?]

/-- A macro that is referred to is declared, in the scope or in the domain, with the name referred
to. -/
theorem refer?_spec (found : t.refer? scope content = some m) :
    m ∈ t.declared ∧ (m.scope = scope ∨ m.scope = none) ∧ m.name = content.name := by
  have means : t.Means scope content.name m := by
    rcases refer?_eq_some.mp found with ⟨f, rfl, means⟩ | ⟨v, rfl, means, _⟩
    · exact means
    · exact means
  rcases means.2 with ⟨_, _, declared, inScope, named, _⟩ | ⟨_, _, _, declared, inScope, named, _⟩
  · exact ⟨by simp [declared], .inl inScope, named⟩
  · exact ⟨by simp [declared], .inr inScope, named⟩

theorem mem_of_refer? (found : t.refer? scope content = some m) : m ∈ t.declared :=
  (refer?_spec found).1

end References

/-- The body of a macro refers to another macro. -/
def Calls (t : MacroTable) (m c : Template) : Prop :=
  c ∈ t.callees m

theorem Calls.declared (calls : t.Calls m c) : c ∈ t.declared := by
  rw [Calls, callees] at calls
  split at calls
  · cases calls
  · obtain ⟨_, _, refers⟩ := mem_filterMap.mp calls
    exact mem_of_refer? refers

section Search

variable {visit : Stack NodeRef → Template → Bool × Stack NodeRef} {s : Stack NodeRef}

theorem someLeads_restores (restores : ∀ s m, (visit s m).2 = s) (cs : List Template) :
    (someLeads visit target base s cs).2 = s := by
  induction cs with
  | nil => rfl
  | cons c cs ih =>
    rw [someLeads]
    split
    · rfl
    · split
      · exact ih
      · have same := restores s c
        generalize visit s c = result at same
        obtain ⟨found, s'⟩ := result
        obtain rfl : s' = s := same
        cases found
        · exact ih
        · rfl

/-- The search finds a macro in a list that is the target or is seen to lead to it. -/
theorem someLeads_of_mem (restores : ∀ s m, (visit s m).2 = s) {cs : List Template} {c : Template}
    (member : c ∈ cs)
    (leads : c.id = target ∨
      (c.id ∉ (s.since base).map NodeRef.id ∧ (visit s c).1 = true)) :
    (someLeads visit target base s cs).1 = true := by
  induction cs with
  | nil => cases member
  | cons d cs ih =>
    rw [someLeads]
    split
    · rfl
    · next miss =>
      have later : c ≠ d → (someLeads visit target base s cs).1 = true := fun other =>
        ih ((mem_cons.mp member).resolve_left other)
      split
      · next onChain =>
        refine later ?_
        rintro rfl
        obtain ⟨r, inside, same⟩ := any_eq_true.mp onChain
        rcases leads with hit | ⟨offChain, _⟩
        · simp [hit] at miss
        · exact offChain (mem_map.mpr ⟨r, inside, by simpa using same⟩)
      · have same := restores s d
        cases visited : (visit s d).1 with
        | true =>
          rw [← Prod.eta (visit s d), visited]
        | false =>
          rw [← Prod.eta (visit s d), visited, same]
          refine later ?_
          rintro rfl
          rcases leads with hit | ⟨_, seen⟩
          · simp [hit] at miss
          · simp [visited] at seen

end Search

theorem leads_restores (n : Nat) (s : Stack NodeRef) (m : Template) :
    (t.leads target base n s m).2 = s := by
  induction n generalizing s m with
  | zero => rfl
  | succ n ih =>
    have inner : (someLeads (t.leads target base n) target base (s.push ⟨m.id, m.name⟩)
        (t.callees m)).2 = s.push ⟨m.id, m.name⟩ := someLeads_restores ih (t.callees m)
    rw [leads]
    dsimp only
    rw [inner, Stack.pop_push]

theorem isRecursive_restores (s : Stack NodeRef) (m : Template) : (t.isRecursive s m).2 = s := by
  rw [isRecursive]
  dsimp only
  rw [leads_restores, Stack.settle_release]

theorem recursiveOf_restores (s : Stack NodeRef) (ms : List Template) :
    (t.recursiveOf s ms).2 = s := by
  induction ms with
  | nil => rfl
  | cons m ms ih =>
    rw [recursiveOf]
    dsimp only
    rw [isRecursive_restores, ih]

/-- A macro that is put on the stack is the last one of the chain above `base`. -/
theorem chain_push (s : Stack NodeRef) (m : Template) (inside : base ≤ s.size) :
    ((s.push ⟨m.id, m.name⟩).since base).map NodeRef.id = (s.since base).map NodeRef.id ++
      [m.id] := by
  rw [Stack.since_push s _ inside, map_append]
  rfl

/-- A macro leads to the target through macros that are not on a chain. -/
inductive Leads (t : MacroTable) (target : NodeId) (chain : List NodeId) : Template → Prop
  | direct {m c : Template} (calls : t.Calls m c) (hit : c.id = target) : Leads t target chain m
  | through {m c : Template} (calls : t.Calls m c) (off : c.id ∉ chain)
      (leads : Leads t target chain c) : Leads t target chain m

def Identified (t : MacroTable) : Prop :=
  ∀ m ∈ t.declared, ∀ c ∈ t.declared, m.id = c.id → m = c

/-- What leads to the target need not come back to a macro on the way. -/
theorem Leads.avoid (identified : t.Identified)
    (declared : m ∈ t.declared) (leads : t.Leads target chain m) :
    t.Leads target (chain ++ [m.id]) m := by
  have either : ∀ d, t.Leads target chain d →
      t.Leads target (chain ++ [m.id]) d ∨ t.Leads target (chain ++ [m.id]) m := by
    intro d leads
    induction leads with
    | direct calls hit => exact .inl (.direct calls hit)
    | @through d e calls off _ ih =>
      refine ih.elim (fun further => ?_) .inr
      by_cases same : e.id = m.id
      · obtain rfl := identified e calls.declared m declared same
        exact .inr further
      · exact .inl (.through calls (by simp [same, off]) further)
  exact (either m leads).elim id id

def offChain (t : MacroTable) (chain : List NodeId) : Nat :=
  t.declared.countP fun d => d.id ∉ chain

theorem offChain_lt (declared : m ∈ t.declared) (off : m.id ∉ chain) :
    t.offChain (chain ++ [m.id]) < t.offChain chain := by
  refine countP_lt declared (fun d _ => ?_) (by simpa using off) (by simp)
  simp only [decide_eq_true_eq, mem_append, not_or]
  exact And.left

/-- The search finds every way to the target that meets no macro twice. -/
theorem leads_of_reaches (identified : t.Identified) {n : Nat} {s : Stack NodeRef}
    (declared : m ∈ t.declared) (inside : base ≤ s.size)
    (off : m.id ∉ (s.since base).map NodeRef.id)
    (room : t.offChain ((s.since base).map NodeRef.id) ≤ n)
    (reaches : t.Leads target ((s.since base).map NodeRef.id ++ [m.id]) m) :
    (t.leads target base n s m).1 = true := by
  have fewer := offChain_lt declared off
  induction n generalizing s m with
  | zero => omega
  | succ n ih =>
    have pushed := chain_push s m inside
    have above := s.le_size_push ⟨m.id, m.name⟩ inside
    rw [leads]
    show (someLeads (t.leads target base n) target base (s.push ⟨m.id, m.name⟩) (t.callees m)).1 =
      true
    cases reaches with
    | direct calls hit => exact someLeads_of_mem (leads_restores n) calls (.inl hit)
    | @through _ c calls offNext further =>
      have next := further.avoid identified calls.declared
      refine someLeads_of_mem (leads_restores n) calls (.inr ?_)
      rw [pushed]
      refine ⟨offNext, ih calls.declared above ?_ ?_ ?_ ?_⟩
      all_goals rw [pushed]
      · exact offNext
      · omega
      · exact next
      · exact offChain_lt calls.declared offNext

/-- A macro that comes back to itself is found to be recursive. -/
theorem isRecursive_of_cycle (identified : t.Identified) (s : Stack NodeRef)
    (declared : m ∈ t.declared) (cycle : TransGen t.Calls m m) :
    (t.isRecursive s m).1 = true := by
  have reaches : ∀ c, TransGen t.Calls c m → t.Leads m.id [] c := by
    intro c leads
    induction leads using TransGen.head_induction_on with
    | single calls => exact .direct calls rfl
    | head calls _ ih => exact .through calls (by simp) ih
  show (t.leads m.id s.size t.declared.length s m).1 = true
  refine leads_of_reaches identified declared (Nat.le_refl _) ?_ ?_ ?_
  all_goals rw [Stack.since_size]
  · simp
  · exact countP_le_length
  · exact (reaches m cycle).avoid identified declared

open Classical in
/-- How many macros a macro leads to. -/
noncomputable def rank (t : MacroTable) (m : Template) : Nat :=
  t.declared.countP fun c => TransGen t.Calls m c

/-- A macro has a greater rank than those that it calls, unless they come back to themselves. -/
theorem rank_lt_of_acyclic (calls : t.Calls m c) (acyclic : ¬ TransGen t.Calls c c) :
    t.rank c < t.rank m := by
  refine countP_lt calls.declared (fun d _ reaches => ?_) ?_ ?_
  · simp only [decide_eq_true_eq] at reaches ⊢
    exact .head calls reaches
  · simp only [decide_eq_true_eq]
    exact .single calls
  · simp only [decide_eq_false_iff_not]
    exact acyclic

theorem rank_lt_length_of_acyclic (declared : m ∈ t.declared)
    (acyclic : ¬ TransGen t.Calls m m) : t.rank m < t.declared.length := by
  rw [rank, countP_lt_length_iff]
  refine ⟨m, declared, ?_⟩
  simp only [decide_eq_false_iff_not]
  exact acyclic

end MacroTable

end TaskNet
