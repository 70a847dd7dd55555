import TaskNet.Proofs.Macro.Trace

/-!
What macro expansion reports. Recursive macros are reported before any call is expanded, and
expanding calls reports none: so the reports of a whole pass name exactly the declarations that lead
back to themselves, each once.
-/

namespace TaskNet

open List MacroTable Tree

namespace Session

open Classical in
/-- For every program that comes from sources, a macro declaration is reported as recursive exactly
once if it leads back to itself by references, and not at all otherwise. The search for that ends
without a bound on how far it goes, has one answer, and leaves the scratch stack as it was. -/
theorem expandMacros_reports_cycles {s : Session} (sources : s.program.FromSources) :
    (s.program.root.findChild? .domain = none → s.expandMacros.2 = s) ∧
    ∀ domain, s.program.root.findChild? .domain = some domain →
      let table := ofTree s.program.root domain
      let cyclic := table.declared.filter fun m => Relation.TransGen table.RefersTo m m
      (table.declared.map Template.id).Nodup ∧
      (∀ stack, table.recursiveOf stack table.declared = (cyclic, stack)) ∧
      (∀ m ∈ table.declared, ∀ stack answer stack',
        table.Visits m.id stack.size stack m answer stack' ↔
          answer = decide (Relation.TransGen table.RefersTo m m) ∧ stack' = stack) ∧
      s.expandMacros.2.scratch = s.scratch ∧
      ∃ others, s.expandMacros.2.diagnostics.recorded =
          s.diagnostics.recorded ++ cyclic.map cycleReport ++ others ∧
        ∀ d ∈ others, d.problem ≠ .recursiveMacro := by
  refine ⟨fun absent => by rw [expandMacros, absent], fun domain found => ?_⟩
  intro table cyclic
  have sound := sources.sound
  have distinct := sound.accounted.root_distinct
  have identified : table.Identified := identified_ofTree distinct found
  have bodied : table.Bodied := bodied_ofTree sound found
  have search : ∀ stack, table.recursiveOf stack table.declared = (cyclic, stack) := by
    intro stack
    rw [recursiveOf_eq identified stack fun m declared => declared]
    congr 1
    exact filter_congr fun m declared => by rw [bodied.leads_iff declared]
  have found' : s.recursiveMacros domain = cyclic := congrArg Prod.fst (search s.scratch.nodes)
  obtain ⟨_, e, _, ⟨others, recorded, noCycle⟩, _, redefined, diagnostics, isRedefinition⟩ :=
    s.expandMacros_steps sound (fun _ => And.left) found
  refine ⟨declared_nodup distinct found, search, fun m declared stack answer stack' => ?_, ?_,
    others ++ redefined, ?_, fun d member => ?_⟩
  · rw [visits_iff identified declared, bodied.leads_iff declared]
  · exact s.expandMacros_scratch
  · rw [diagnostics, ← append_assoc, ← found']
    exact congrArg (· ++ redefined) recorded
  · rcases mem_append.mp member with other | isRedefined
    · exact noCycle d other
    · simp [isRedefinition d isRedefined]

/-- Two sources, the second with a syntax error at its end. The first `a`, `b` and the first `s`
lead back to themselves; `c` and `w` only call such macros, `f` is the name of a fact, the second
`s` is never meant, `p` has a parameter, and the second `a` is the one that `w` means. -/
def shadowedCycles : Session :=
  ((Session.start.read "facts" (Text.bytesOf "fact { f(id32) }")).2.read "rules" (Text.bytesOf
    "domain d \x7b macro a() = b() macro b() = a macro c() = a() & b() macro f() = f()
      macro s() = s() macro s() = c() macro p(x) = p
      task t(x) \x7b macro a() = f(x) macro w() = a() & s() case w() -> [] \x7d task u(")).2

open Classical in
theorem expandMacros_reports_cycles_shadowed :
    ∃ (s : Session) (domain : Tree), s.program.FromSources ∧
      s.program.root.findChild? .domain = some domain ∧
      (ofTree s.program.root domain).declared.map Template.name =
        ["a", "b", "c", "f", "s", "s", "p", "a", "w"] ∧
      ((ofTree s.program.root domain).declared.filter fun m =>
        Relation.TransGen (ofTree s.program.root domain).RefersTo m m).map
          (fun m => (m.name, m.loc.column)) = [("a", 18), ("b", 34), ("s", 13)] := by
  let s := shadowedCycles
  have sources : s.program.FromSources := .more (.more .empty _ _) _ _
  have facts : ((s.program.root.findChild? .domain).any fun domain =>
      let table := ofTree s.program.root domain
      table.declared.map Template.name == ["a", "b", "c", "f", "s", "s", "p", "a", "w"] &&
        (table.recursiveOf .empty table.declared).1.map (fun m => (m.name, m.loc.column)) ==
          [("a", 18), ("b", 34), ("s", 13)]) = true := by decide +kernel
  simp only [Option.any_eq_true, Bool.and_eq_true, beq_iff_eq] at facts
  obtain ⟨domain, found, names, recursive⟩ := facts
  obtain ⟨_, search, _⟩ := (expandMacros_reports_cycles sources).2 domain found
  rw [search .empty] at recursive
  exact ⟨s, domain, sources, found, names, recursive⟩

end Session

end TaskNet
