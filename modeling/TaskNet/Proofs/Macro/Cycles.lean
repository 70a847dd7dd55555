import TaskNet.Proofs.Macro.Declarations

/-!
The search for recursive macros is exact. A macro refers to another one by a call, or by a variable
if the other one has no parameters; the name is looked up where the macro is declared. For every
program that comes from sources, the search finds the declarations that lead back to themselves by
such references, each once and no others, ends without a bound on how far it goes, and leaves the
scratch stack as it was.
-/

namespace TaskNet

open List Relation Tree

variable {m : Template} {n : Nat}

/-- A traversal visits all nodes of an expression: there are no errors in it. -/
theorem Tree.IsRaw.visited_nodes {t : Tree} (raw : t.IsRaw) : t.visited.map node = t.nodes :=
  Tree.visited_nodes (raw.imp fun _ here => takes_sound here.1)

namespace MacroTable

section References

variable {t : MacroTable} {m c : Template}

/-- The body of a macro refers to a macro: by a call, or by a variable if that macro has no
parameters. -/
def RefersTo (t : MacroTable) (m c : Template) : Prop :=
  ∃ body, m.body = some body ∧ ∃ n ∈ body.nodes,
    (∃ f, n.content = .call f ∧ t.Means m.scope f.name c) ∨
      ∃ v, n.content = .var v ∧ t.Means m.scope v.name c ∧ c.formals = []

/-- The macros that are found in an expression are those that it refers to. -/
theorem calls_iff_refersTo (raw : ∀ body, m.body = some body → body.IsRaw) :
    t.Calls m c ↔ t.RefersTo m c := by
  rw [Calls, callees, RefersTo]
  cases isBody : m.body with
  | none => simp
  | some body =>
    simp only [mem_filterMap, refer?_eq_some, Option.some.injEq, exists_eq_left',
      ← (raw body isBody).visited_nodes, mem_map]
    constructor
    · rintro ⟨s, visits, refers⟩
      exact ⟨s.node, ⟨s, visits, rfl⟩, refers⟩
    · rintro ⟨_, ⟨s, visits, rfl⟩, refers⟩
      exact ⟨s, visits, refers⟩

/-- The bodies of the macros are expressions whose names are not resolved. -/
theorem Bodied.leads_iff (bodied : t.Bodied) (declared : m ∈ t.declared) :
    TransGen t.Calls m c ↔ TransGen t.RefersTo m c := by
  have edge : ∀ {d e}, d ∈ t.declared → (t.Calls d e ↔ t.RefersTo d e) := fun declared =>
    calls_iff_refersTo fun body isBody => (bodied _ declared body isBody).1
  constructor
  · intro leads
    induction leads with
    | single calls => exact .single ((edge declared).mp calls)
    | tail before calls ih =>
      obtain ⟨_, last⟩ := TransGen.tail'_iff.mp before
      exact .tail ih ((edge last.2.declared).mp calls)
  · intro leads
    induction leads with
    | single refers => exact .single ((edge declared).mpr refers)
    | tail _ refers ih =>
      obtain ⟨_, last⟩ := TransGen.tail'_iff.mp ih
      exact .tail ih ((edge last.2.declared).mpr refers)

end References

section Search

variable {t : MacroTable} {target : NodeId} {base : Nat}
variable {visit : Stack NodeRef → Template → Bool × Stack NodeRef} {s : Stack NodeRef}
  {cs : List Template} {m : Template}

/-- What the search finds in a list is the target, or was seen to lead to it. -/
theorem exists_of_someLeads (found : (someLeads visit target base s cs).1 = true) :
    ∃ c ∈ cs, c.id = target ∨ ∃ s', (visit s' c).1 = true := by
  induction cs generalizing s with
  | nil => cases found
  | cons c cs ih =>
    have later : ∀ {s}, (someLeads visit target base s cs).1 = true →
        ∃ d ∈ c :: cs, d.id = target ∨ ∃ s', (visit s' d).1 = true := by
      intro s found
      obtain ⟨d, member, leads⟩ := ih found
      exact ⟨d, mem_cons_of_mem c member, leads⟩
    rw [someLeads] at found
    split at found
    · next hit => exact ⟨c, mem_cons_self, .inl (by simpa using hit)⟩
    · split at found
      · exact later found
      · cases visited : visit s c with
        | mk answer s' =>
          rw [visited] at found
          cases answer with
          | true => exact ⟨c, mem_cons_self, .inr ⟨s, by rw [visited]⟩⟩
          | false => exact later found

/-- The search finds only macros that lead to the target. -/
theorem reaches_of_leads (found : (t.leads target base n s m).1 = true) :
    ∃ c, TransGen t.Calls m c ∧ c.id = target := by
  induction n generalizing s m with
  | zero => cases found
  | succ n ih =>
    rw [leads] at found
    obtain ⟨c, calls, hit | ⟨s', further⟩⟩ := exists_of_someLeads found
    · exact ⟨c, .single calls, hit⟩
    · obtain ⟨d, leads, hit⟩ := ih further
      exact ⟨d, .head calls leads, hit⟩

/-- A macro is found to be recursive if and only if it leads back to itself. -/
theorem isRecursive_iff (identified : t.Identified) (s : Stack NodeRef)
    (declared : m ∈ t.declared) :
    (t.isRecursive s m).1 = true ↔ TransGen t.Calls m m := by
  constructor
  · intro found
    obtain ⟨c, leads, same⟩ := reaches_of_leads found
    obtain ⟨_, _, last⟩ := TransGen.tail'_iff.mp leads
    obtain rfl := identified c last.declared m declared same
    exact leads
  · exact isRecursive_of_cycle identified s declared

open Classical in
/-- The search over some macros finds those that lead back to themselves, in order. -/
theorem recursiveOf_eq (identified : t.Identified) (s : Stack NodeRef) {ms : List Template}
    (declared : ∀ m ∈ ms, m ∈ t.declared) :
    t.recursiveOf s ms = (ms.filter fun m => TransGen t.Calls m m, s) := by
  induction ms with
  | nil => rfl
  | cons m ms ih =>
    have answer := isRecursive_iff identified s (declared m (by simp))
    have restored : (t.isRecursive s m).2 = s := isRecursive_restores s m
    have rest := ih (forall_mem_cons.mp declared).2
    rw [recursiveOf, filter_cons]
    cases result : t.isRecursive s m with
    | mk found s' =>
      rw [result] at answer restored
      obtain rfl : s' = s := restored
      simp only [rest, answer, decide_eq_true_eq]

/-- A macro is among those that the search finds if and only if it leads back to itself. -/
theorem id_mem_recursiveOf_iff (identified : t.Identified) (s : Stack NodeRef)
    (declared : m ∈ t.declared) :
    m.id ∈ (t.recursiveOf s t.declared).1.map Template.id ↔ TransGen t.Calls m m := by
  rw [recursiveOf_eq identified s fun m declared => declared]
  constructor
  · intro found
    obtain ⟨c, member, same⟩ := mem_map.mp found
    obtain ⟨declaredC, cycle⟩ := mem_filter.mp member
    obtain rfl := identified c declaredC m declared same
    simpa using cycle
  · intro cycle
    exact mem_map_of_mem (mem_filter.mpr ⟨declared, by simpa using cycle⟩)

/-- The search for the target in a list of macros ends with an answer. There is no bound on how far
it goes: it stops at the target and at a macro that leads to it, does not enter a macro that is on
the chain, and enters any other one by putting it on the chain, which stands on the stack above
`base`. -/
inductive Searches (t : MacroTable) (target : NodeId) (base : Nat) :
    Stack NodeRef → List Template → Bool → Stack NodeRef → Prop
  | nil {s : Stack NodeRef} : Searches t target base s [] false s
  | hit {s : Stack NodeRef} {c : Template} {cs : List Template} (same : c.id = target) :
      Searches t target base s (c :: cs) true s
  | onChain {s s' : Stack NodeRef} {c : Template} {cs : List Template} {found : Bool}
      (other : c.id ≠ target) (onChain : c.id ∈ (s.since base).map NodeRef.id)
      (rest : Searches t target base s cs found s') : Searches t target base s (c :: cs) found s'
  | leads {s s' : Stack NodeRef} {c : Template} {cs : List Template}
      (other : c.id ≠ target) (offChain : c.id ∉ (s.since base).map NodeRef.id)
      (inner : Searches t target base (s.push ⟨c.id, c.name⟩) (t.callees c) true s') :
      Searches t target base s (c :: cs) true s'.pop
  | misses {s s' s'' : Stack NodeRef} {c : Template} {cs : List Template} {found : Bool}
      (other : c.id ≠ target) (offChain : c.id ∉ (s.since base).map NodeRef.id)
      (inner : Searches t target base (s.push ⟨c.id, c.name⟩) (t.callees c) false s')
      (rest : Searches t target base s'.pop cs found s'') :
      Searches t target base s (c :: cs) found s''

/-- The search for the target from a macro ends with an answer. -/
def Visits (t : MacroTable) (target : NodeId) (base : Nat) (s : Stack NodeRef) (m : Template)
    (found : Bool) (s' : Stack NodeRef) : Prop :=
  ∃ inner, t.Searches target base (s.push ⟨m.id, m.name⟩) (t.callees m) found inner ∧
    s' = inner.pop

theorem mem_since_iff {x : NodeId} :
    ((s.since base).any fun r => r.id == x) = true ↔ x ∈ (s.since base).map NodeRef.id := by
  simp

/-- The search in a list ends if that from its members does. -/
theorem someLeads_searches (restores : ∀ s m, (visit s m).2 = s)
    (ends : ∀ c ∈ cs, c.id ∉ (s.since base).map NodeRef.id →
      t.Visits target base s c (visit s c).1 (visit s c).2) :
    t.Searches target base s cs (someLeads visit target base s cs).1
      (someLeads visit target base s cs).2 := by
  induction cs with
  | nil => exact .nil
  | cons c cs ih =>
    have rest := ih fun d member => ends d (mem_cons_of_mem c member)
    rw [someLeads]
    split
    · next hit => exact .hit (by simpa using hit)
    · next miss =>
      have other : c.id ≠ target := by simpa using miss
      split
      · next onChain => exact .onChain other (mem_since_iff.mp onChain) rest
      · next free =>
        have off := fun onChain => free (mem_since_iff.mpr onChain)
        obtain ⟨inner, searches, result⟩ := ends c mem_cons_self off
        cases visited : visit s c with
        | mk answer s' =>
          have same := restores s c
          rw [visited] at searches result same
          obtain rfl : s' = inner.pop := result
          cases answer with
          | true => exact .leads other off searches
          | false =>
            refine .misses other off searches ?_
            rw [show inner.pop = s from same]
            exact rest

/-- The search from a macro that is not on the chain ends: every macro that it enters is one more on
the chain. -/
theorem leads_visits (declared : m ∈ t.declared) (inside : base ≤ s.size)
    (off : m.id ∉ (s.since base).map NodeRef.id)
    (room : t.offChain ((s.since base).map NodeRef.id) ≤ n) :
    t.Visits target base s m (t.leads target base n s m).1 (t.leads target base n s m).2 := by
  have fewer := offChain_lt declared off
  induction n generalizing s m with
  | zero => omega
  | succ n ih =>
    have pushed := chain_push s m inside
    have above := s.le_size_push ⟨m.id, m.name⟩ inside
    rw [leads]
    -- only macros off the chain are entered, and `m` is on it now
    refine ⟨_, someLeads_searches (leads_restores n) fun c calls offNext => ?_, rfl⟩
    have declared : c ∈ t.declared := Calls.declared calls
    refine ih declared above offNext ?_ (offChain_lt declared offNext)
    rw [pushed]
    omega

/-- The search for a macro from itself ends on every graph, with the answer and the stack of the
bounded search. -/
theorem isRecursive_visits (s : Stack NodeRef) (declared : m ∈ t.declared) :
    t.Visits m.id s.size s m (t.isRecursive s m).1 s := by
  have restored : (t.leads m.id s.size t.declared.length s m).2 = s := leads_restores _ s m
  have ends : t.Visits m.id s.size s m (t.isRecursive s m).1
      (t.leads m.id s.size t.declared.length s m).2 := by
    refine leads_visits declared (Nat.le_refl _) ?_ ?_
    all_goals rw [Stack.since_size]
    · simp
    · exact countP_le_length
  rwa [restored] at ends

/-- The search has one answer. -/
theorem Searches.unique {s' s'' : Stack NodeRef} {found found' : Bool}
    (first : t.Searches target base s cs found s')
    (second : t.Searches target base s cs found' s'') : found = found' ∧ s' = s'' := by
  induction first generalizing found' s'' with
  | nil =>
    cases second
    exact ⟨rfl, rfl⟩
  | hit same =>
    cases second with
    | hit => exact ⟨rfl, rfl⟩
    | _ => contradiction
  | onChain other onChain _ ih =>
    cases second with
    | onChain _ _ rest => exact ih rest
    | _ => contradiction
  | leads other offChain _ ih =>
    cases second with
    | leads _ _ inner =>
      obtain ⟨_, rfl⟩ := ih inner
      exact ⟨rfl, rfl⟩
    | misses _ _ inner _ => exact absurd (ih inner).1 (by simp)
    | _ => contradiction
  | misses other offChain _ _ ihInner ihRest =>
    cases second with
    | leads _ _ inner => exact absurd (ihInner inner).1 (by simp)
    | misses _ _ inner rest =>
      obtain ⟨_, rfl⟩ := ihInner inner
      exact ihRest rest
    | _ => contradiction

open Classical in
/-- The search for a macro from itself ends on every graph, says whether the macro leads back to
itself, and leaves the stack as it was. -/
theorem visits_iff (identified : t.Identified) {s s' : Stack NodeRef} {found : Bool}
    (declared : m ∈ t.declared) :
    t.Visits m.id s.size s m found s' ↔ found = decide (TransGen t.Calls m m) ∧ s' = s := by
  have ends := isRecursive_visits s declared
  rw [Bool.eq_iff_iff.mpr ((isRecursive_iff identified s declared).trans decide_eq_true_iff.symm)]
    at ends
  constructor
  · rintro ⟨inner, searches, rfl⟩
    obtain ⟨inner', searches', result⟩ := ends
    obtain ⟨rfl, rfl⟩ := searches.unique searches'
    exact ⟨rfl, result.symm⟩
  · rintro ⟨rfl, rfl⟩
    exact ends

end Search

end MacroTable

end TaskNet
