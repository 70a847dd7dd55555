import TaskNet.Compile
import TaskNet.Proofs.Grammar.Reader

/-!
Programs that come from sources. A source is read into what the sources before it declared, and one
with a syntax error leaves the declarations that were complete before the error. Whatever was read,
the program is in order.
-/

namespace TaskNet

variable {r : Reader} {p : Program}

namespace Grammar

open Tree

variable (file : String)

/-- A complete macro is put where it is declared. -/
theorem addTemplate_sound {scope : Scope} {m : Tree} (program : IsProgram ReadCase r.root)
    (has : Has r.root .domain) (sound : scope.Sound) (template : IsTemplate m) :
    (r.addTemplate scope m).Sound := by
  cases scope with
  | domain => exact ⟨addTo_domain program (.inl template), has_addTo.mpr has, trivial⟩
  | task task =>
    have grown : IsTask ReadCase (addChild task m) :=
      ⟨sound.1, forall_addChild sound.2 (.inr (.inl template))⟩
    exact ⟨program, has, grown, by simp [AttrsSound]⟩

/-- What a reader keeps at a token that it refuses is in order, and no tree is lost. -/
theorem settle_reads (t : Token) (sound : r.Sound) :
    Draws r.held r.next (r.settle file t).held (r.settle file t).next ∧
      (r.settle file t).Sound := by
  obtain ⟨root, next, mode⟩ := r
  cases mode with
  | templateBody scope m p =>
    obtain ⟨program, has, scopeSound, template, pending⟩ := sound
    have complete : ∀ {body : Tree} {after : NodeId}, body.IsRaw →
        Draws p.held next [body] after →
        let r' := Reader.addTemplate ⟨root, after, .templateBody scope m p⟩ scope (addChild m body)
        Draws (root :: m :: scope.held ++ p.held) next r'.held r'.next ∧
          r'.Sound := by
      intro body after raw moves
      refine ⟨?_, addTemplate_sound program has scopeSound (isTemplate_addChild template raw)⟩
      have filled := ((MovesWith.refl (root :: m :: scope.held) _).append moves).trans
        (addBody_moves root m body scope after)
      exact filled.trans (addTemplate_moves ⟨root, after, .templateBody scope m p⟩ has)
    cases read : p.step file t next with
    | error e =>
      simp only [Reader.settle, read]
      exact ⟨.refl _ _, program, has, scopeSound, template, pending⟩
    | ok result =>
      obtain ⟨progress, after⟩ := result
      obtain ⟨moves, progressSound⟩ := step_reads file t next p progress after read pending
      cases progress with
      | reading q =>
        simp only [Reader.settle, read]
        exact ⟨.refl _ _, program, has, scopeSound, template, pending⟩
      | closed body =>
        obtain ⟨_, ⟨⟩, _⟩ := progressSound
      | ended body =>
        simp only [Reader.settle, read]
        exact complete progressSound.2 moves
  | _ => exact ⟨.refl _ _, sound⟩

/-- Reading tokens keeps the reader well formed and loses no tree, also when one is refused. -/
theorem run_reads (ts : List Token) (sound : r.Sound) :
    Draws r.held r.next (r.run file ts).1.held (r.run file ts).1.next ∧
      (r.run file ts).1.Sound := by
  induction ts generalizing r with
  | nil => exact ⟨.refl _ _, sound⟩
  | cons t ts ih =>
    rw [Reader.run]
    cases read : r.step file t with
    | error e => exact settle_reads file t sound
    | ok mid =>
      obtain ⟨first, midSound⟩ := reader_step file t r mid read sound
      obtain ⟨rest, endSound⟩ := ih midSound
      exact ⟨first.trans rest, endSound⟩

end Grammar

open Tree

/-- A program in order is in order after another source, with or without a syntax error, and its
nodes are as they were read. -/
theorem Session.read_sound {s : Session} (sound : s.program.Sound ReadCase)
    (asRead : s.program.root.AllOf Node.AsRead) (file : String) (src : Text.Bytes) :
    (s.read file src).2.program.Sound ReadCase ∧
      (s.read file src).2.program.root.AllOf Node.AsRead := by
  have start : Grammar.Reader.Sound ⟨s.program.root, s.program.next, .blocks⟩ :=
    ⟨sound.form, trivial, trivial⟩
  obtain ⟨moves, readerSound⟩ := Grammar.run_reads file (Token.scan src) start
  rw [Session.read, Grammar.parse]
  generalize Grammar.Reader.run file ⟨s.program.root, s.program.next, .blocks⟩ (Token.scan src) =
    result at *
  obtain ⟨r, error⟩ := result
  have read := (moves.known trivial (by simpa [Grammar.Reader.held, Grammar.Mode.held] using asRead)
    (by simp [Pool.start])).1
  have root := (eachOf_cons.mp read).1
  refine ⟨⟨readerSound.program, fun x => ?_, ?_⟩, root⟩
  · have kept := moves.kept x
    have before := sound.accounted x
    have whole := span_add (Nat.zero_le s.program.next) moves.next_le x
    simp only [Grammar.Reader.held, Grammar.Mode.held, Pool.start, tallies_cons, tallies_nil]
      at kept before whole ⊢
    omega
  · exact eachOf_cons.mpr ⟨root.imp fun _ => And.left, (eachOf_cons.mp sound.known).2⟩

namespace Program

/-- The programs that come from sources, read one after the other. -/
inductive FromSources : Program → Prop
  | empty : FromSources .empty
  | more {s : Session} (before : FromSources s.program) (file : String) (src : Text.Bytes) :
      FromSources (s.read file src).2.program

theorem FromSources.read (sources : p.FromSources) :
    p.Sound ReadCase ∧ p.root.AllOf Node.AsRead := by
  induction sources with
  | empty =>
    refine ⟨⟨⟨rfl, by simp [Program.empty], by simp [Program.empty],
      by simp [Program.empty, findChild?]⟩, fun x => ?_, ?_⟩, Grammar.empty_asRead⟩
    · simp only [Program.empty, tallies_cons, tally_mk, tallies_nil, Nat.add_zero]
      exact Nat.le_of_eq (span_succ 0 x).symm
    · exact eachOf_cons.mpr ⟨Grammar.empty_asRead.imp fun _ => And.left, eachOf_nil⟩
  | more _ file src ih => exact Session.read_sound ih.1 ih.2 file src

theorem FromSources.sound (sources : p.FromSources) : p.Sound ReadCase :=
  sources.read.1

end Program

end TaskNet
