import TaskNet.Proofs.Grammar.Completion
import TaskNet.Proofs.Grammar.Refusal
import TaskNet.Proofs.Grammar.Unplaced
import TaskNet.Proofs.Token.Lossless

/-!
A syntax error is at the first token that is wrong. Every source that has the same tokens up to it
is refused there for the same cause, and the tokens before it begin some source that is accepted.
-/

namespace TaskNet

open List Text Token

variable {e : SyntaxError} {file : String} {src : Bytes}

theorem Token.unplaced_eq (t : Token) : t.unplaced = t.toLexeme.token := rfl

namespace Grammar

/-- A reader that has not read anything, into a tree without declarations. -/
def Reader.fresh : Reader :=
  ⟨.emptyRoot, 1, .blocks⟩

theorem Reader.fresh_sound : Reader.fresh.Sound :=
  ⟨⟨rfl, by simp [fresh, Tree.emptyRoot], by simp [fresh, Tree.emptyRoot],
    by simp [fresh, Tree.emptyRoot, Tree.findChild?]⟩, trivial, trivial⟩

theorem parse_error_eq (file : String) (src : Bytes) :
    (parse .emptyRoot 1 file src).error = (Reader.fresh.run file (scan src)).2 :=
  rfl

section Runs

variable {file : String} {r s : Reader} {ts : List Token}

theorem run_append (run : r.run file ts = (s, none)) (us : List Token) :
    r.run file (ts ++ us) = s.run file us := by
  induction ts generalizing r with
  | nil =>
    cases run
    rfl
  | cons t ts ih =>
    rw [Reader.run] at run
    rw [cons_append, Reader.run]
    cases read : r.step file t with
    | error e =>
      rw [read] at run
      cases run
    | ok next =>
      rw [read] at run
      exact ih run

/-- A run that ends with an error has read all tokens up to one that is refused. -/
theorem run_refused (run : r.run file ts = (s, some e)) :
    ∃ front t back mid, ts = front ++ t :: back ∧ r.run file front = (mid, none) ∧
      mid.step file t = .error e := by
  induction ts generalizing r with
  | nil => cases run
  | cons t ts ih =>
    rw [Reader.run] at run
    cases read : r.step file t with
    | error e' =>
      rw [read] at run
      cases run
      exact ⟨[], t, ts, r, rfl, rfl, read⟩
    | ok next =>
      rw [read] at run
      obtain ⟨front, u, back, mid, rfl, before, refused⟩ := ih run
      refine ⟨t :: front, u, back, mid, rfl, ?_, refused⟩
      rw [run_token read]
      exact before

/-- What has been read holds no illegal token. -/
theorem run_legal (run : r.run file ts = (s, none)) (sound : r.Sound) :
    ∀ t ∈ ts, t.kind ≠ .illegal := by
  induction ts generalizing r with
  | nil => simp
  | cons t ts ih =>
    rw [Reader.run] at run
    cases read : r.step file t with
    | error e =>
      rw [read] at run
      cases run
    | ok next =>
      rw [read] at run
      have later := ih run (reader_step file t r next read sound).2
      refine forall_mem_cons.mpr ⟨fun illegal => ?_, later⟩
      exact Reader.step_illegal illegal sound read

end Runs

section Agreement

/-- Two lists of tokens have the same classes and bytes up to an index. -/
def AgreeThrough (k : Nat) (ts us : List Token) : Prop :=
  ∀ i ≤ k, (us[i]?).map toLexeme = (ts[i]?).map toLexeme

/-- Tokens that agree up to a token split there. -/
theorem AgreeThrough.split {front back us : List Token} {t : Token}
    (agree : AgreeThrough front.length (front ++ t :: back) us) :
    ∃ front' t' back', us = front' ++ t' :: back' ∧
      front'.map toLexeme = front.map toLexeme ∧ t'.toLexeme = t.toLexeme := by
  have heads : (us.take (front.length + 1)).map toLexeme =
      front.map toLexeme ++ [t.toLexeme] := by
    have taken : (front ++ t :: back).take (front.length + 1) = front ++ [t] := by
      rw [take_length_add_append]
      rfl
    rw [← map_singleton (f := toLexeme), ← map_append, ← taken]
    apply ext_getElem?
    intro i
    rw [getElem?_map, getElem?_map, getElem?_take, getElem?_take]
    split
    · exact agree i (by omega)
    · rfl
  obtain ⟨front', last, taken, fronts, lasts⟩ := map_eq_append_iff.mp heads
  obtain ⟨t', rfl, same⟩ := map_eq_singleton_iff.mp lasts
  refine ⟨front', t', us.drop (front.length + 1), ?_, fronts, same⟩
  have whole := take_append_drop (front.length + 1) us
  rw [taken, append_assoc] at whole
  exact whole.symm

theorem map_unplaced_eq {ts us : List Token}
    (same : us.map toLexeme = ts.map toLexeme) :
    us.map unplaced = ts.map Token.unplaced := by
  have tokens := congrArg (List.map Lexeme.token) same
  rwa [map_map, map_map] at tokens

/-- Tokens of the same classes and bytes are read alike. -/
theorem run_agrees (file' : String) {r mid : Reader} {ts us : List Token}
    (run : r.run file ts = (mid, none)) (same : us.map toLexeme = ts.map toLexeme) :
    ∃ mid', r.run file' us = (mid', none) ∧ mid'.unplaced = mid.unplaced := by
  obtain ⟨error, reader⟩ := Reader.run_unplaced file ts r
  obtain ⟨error', reader'⟩ := Reader.run_unplaced file' us r
  rw [run] at error reader
  rw [map_unplaced_eq same, error] at error'
  have none : (r.run file' us).2 = none := by
    cases found : (r.run file' us).2 with
    | none => rfl
    | some e =>
      rw [found] at error'
      cases error'
  refine ⟨(r.run file' us).1, ?_, ?_⟩
  · rw [← none]
  · rw [← reader' none, map_unplaced_eq same, reader rfl]

/-- Readers that differ in places only refuse tokens of the same class and bytes for the same cause.
-/
theorem step_agrees (file' : String) {r r' : Reader} {t t' : Token}
    (refused : r.step file t = .error e) (same : r'.unplaced = r.unplaced)
    (lexeme : t'.toLexeme = t.toLexeme) :
    ∃ e', r'.step file' t' = .error e' ∧ e'.message = e.message := by
  have places : t'.unplaced = t.unplaced := by
    rw [unplaced_eq, unplaced_eq, lexeme]
  have first := Reader.step_copies file t r
  have second := Reader.step_copies file' t' r'
  rw [refused] at first
  rw [same, places] at second
  obtain ⟨shape, without⟩ := first.error
  refine ⟨_, second.of_refuse without, ?_⟩
  rw [← unplaced_message, ← unplaced_message e, shape]
  rw [SyntaxError.unplaced, SyntaxError.unplaced, places]

end Agreement

/-- A source that is refused at a token: what is in front of the token is read, and the token is
not. -/
structure RefusedAt (file : String) (src : Bytes) (e : SyntaxError) (front : List Token)
    (t : Token) : Prop where
  tokens : ∃ back, scan src = front ++ t :: back
  reads : ∃ mid, Reader.fresh.run file front = (mid, none) ∧ mid.step file t = .error e

theorem refusedAt_of_error
    (fails : (parse .emptyRoot 1 file src).error = some e) :
    ∃ front t, RefusedAt file src e front t := by
  rw [parse_error_eq] at fails
  have run : Reader.fresh.run file (scan src) =
      ((Reader.fresh.run file (scan src)).1, some e) := by
    rw [← fails]
  obtain ⟨front, t, back, mid, tokens, before, refused⟩ := run_refused run
  exact ⟨front, t, ⟨back, tokens⟩, mid, before, refused⟩

section Refused

variable {file : String} {src : Bytes} {e : SyntaxError} {front : List Token} {t : Token}
variable (refused : RefusedAt file src e front t)
include refused

theorem RefusedAt.token : (scan src)[front.length]? = some t := by
  obtain ⟨back, tokens⟩ := refused.tokens
  rw [tokens]
  simp

theorem RefusedAt.loc : e.loc = locate file t := by
  obtain ⟨mid, _, error⟩ := refused.reads
  exact mid.loc_of_error file t error

/-- The place of the error is the place of no other token. -/
theorem RefusedAt.unique {j : Nat} {u : Token} (other : (scan src)[j]? = some u)
    (located : e.loc = locate file u) : j = front.length := by
  have places : locate file u = locate file t := located.symm.trans refused.loc
  obtain ⟨_, lines, columns⟩ := Location.mk.inj places
  exact (scan_covers src).place_unique other refused.token (Int.ofNat.inj lines)
    (Int.ofNat.inj columns)

/-- A source with the same tokens up to the error is refused there for the same cause. -/
theorem RefusedAt.agrees {src' : Bytes} (file' : String)
    (agree : AgreeThrough front.length (scan src) (scan src')) :
    ∃ e' t', (parse .emptyRoot 1 file' src').error = some e' ∧ e'.message = e.message ∧
      (scan src')[front.length]? = some t' ∧ e'.loc = locate file' t' := by
  obtain ⟨back, tokens⟩ := refused.tokens
  obtain ⟨mid, reads, error⟩ := refused.reads
  rw [tokens] at agree
  obtain ⟨front', t', back', tokens', fronts, lexeme⟩ := agree.split
  obtain ⟨mid', reads', same⟩ := run_agrees file' reads fronts
  obtain ⟨e', error', message⟩ := step_agrees file' error same lexeme
  have length : front'.length = front.length := by
    have lengths := congrArg List.length fronts
    rwa [length_map, length_map] at lengths
  refine ⟨e', t', ?_, message, ?_, mid'.loc_of_error file' t' error'⟩
  · rw [parse_error_eq, tokens', run_append reads', Reader.run, error']
  · rw [tokens', ← length]
    simp

/-- The tokens in front of the error are lexemes of the language. -/
theorem RefusedAt.valid : ∀ u ∈ front, u.toLexeme.Valid := by
  obtain ⟨back, tokens⟩ := refused.tokens
  obtain ⟨mid, reads, _⟩ := refused.reads
  obtain ⟨others, last, split, _, _, each⟩ := (scan_covers src).ends
  intro u inside
  have legal := run_legal reads Reader.fresh_sound u inside
  have early : u ∈ others := by
    -- The end of the file is behind the token that is refused, or is that token.
    have shorter : front.length ≤ others.length := by
      have lengths := congrArg List.length (tokens.symm.trans split)
      simp only [length_append, length_cons, length_nil] at lengths
      omega
    have start : front <+: others := by
      apply prefix_of_prefix_length_le _ (prefix_append others [last]) shorter
      rw [← split, tokens]
      exact prefix_append front _
    exact start.subset inside
  exact (each u early).2.2 legal

/-- The tokens in front of the error begin a source that is accepted. -/
theorem RefusedAt.extends :
    ∃ src', (parse .emptyRoot 1 file src').error = none ∧
      ((scan src').take front.length).map toLexeme = front.map Token.toLexeme := by
  obtain ⟨mid, reads, _⟩ := refused.reads
  have bareLexemes : (front.map unplaced).map toLexeme = front.map Token.toLexeme := by
    rw [map_map]
    rfl
  obtain ⟨start, bare, _⟩ := run_agrees "" reads bareLexemes
  obtain ⟨ls, valids, done, completed, between⟩ :=
    (reader_run bare Reader.fresh_sound).2.completes
  have valid : ∀ l ∈ front.map toLexeme ++ ls, l.Valid := by
    intro l inside
    rcases mem_append.mp inside with early | late
    · obtain ⟨u, member, rfl⟩ := mem_map.mp early
      exact refused.valid u member
    · exact valids l late
  obtain ⟨ts, line, column, scanned, lexemes⟩ :=
    Scanner.scanFrom_laidOut (laidOut_write (front.map toLexeme ++ ls)) valid ⟨1, 1⟩
  have whole : Reader.fresh.run "" (front.map unplaced ++ ls.map Lexeme.token) = (done, none) := by
    rw [run_append bare, completed]
  have same : ts.map toLexeme =
      (front.map unplaced ++ ls.map Lexeme.token).map Token.toLexeme := by
    rw [lexemes, map_append, map_map, map_map]
    congr 1
    exact (map_id ls).symm
  obtain ⟨last, accepted, unplaced⟩ := run_agrees file whole same
  refine ⟨Lexeme.write (front.map toLexeme ++ ls), ?_, ?_⟩
  · have ends : last.mode = .blocks := by
      have modes : last.mode.unplaced = done.mode.unplaced := congrArg Reader.mode unplaced
      rw [between] at modes
      exact Mode.eq_blocks_of_unplaced modes
    rw [parse_error_eq, scan, scanned, run_append accepted, Reader.run, Reader.step, ends]
    rfl
  · rw [scan, scanned, map_take, map_append, lexemes, append_assoc,
      take_left' (by rw [length_map])]

end Refused

/-- A syntax error is at one token of the source. Every source that agrees with it up to this token
is refused at its own token there with the same message, and the tokens before it can be extended to
a source that is accepted. So it is the first token that no accepted source has in its place. -/
theorem parse_error_at_first_wrong_token
    (fails : (parse .emptyRoot 1 file src).error = some e) :
    ∃ k t, ((scan src)[k]? = some t ∧ e.loc = locate file t) ∧
      (∀ j u, (scan src)[j]? = some u → e.loc = locate file u → j = k) ∧
      (∀ file' src', (∀ i ≤ k, ((scan src')[i]?).map toLexeme =
          ((scan src)[i]?).map toLexeme) →
        ∃ e' t', (parse .emptyRoot 1 file' src').error = some e' ∧ e'.message = e.message ∧
          (scan src')[k]? = some t' ∧ e'.loc = locate file' t') ∧
      ∃ src', (parse .emptyRoot 1 file src').error = none ∧
        ((scan src').take k).map toLexeme =
          ((scan src).take k).map Token.toLexeme := by
  obtain ⟨front, t, refused⟩ := refusedAt_of_error fails
  refine ⟨front.length, t, ⟨refused.token, refused.loc⟩, fun j u => refused.unique,
    fun file' src' => refused.agrees file', ?_⟩
  obtain ⟨src', accepted, lexemes⟩ := refused.extends
  refine ⟨src', accepted, ?_⟩
  obtain ⟨back, tokens⟩ := refused.tokens
  rw [lexemes, tokens, take_left]

/-- A macro whose body assigns to a sum: the cause is the operand on the left, and the error is at
the sign behind it. -/
def sumAssigned : Bytes :=
  bytesOf "domain d \x7b macro m(a) = f(a) & x + y = 3 \x7d"

theorem parse_error_at_first_wrong_token_assignment :
    ∃ e, (parse .emptyRoot 1 "rules" sumAssigned).error = some e ∧
      e.message = "left side of '=' must be a variable" ∧ e.loc = ⟨"rules", 1, 38⟩ ∧
      ∃ k t, ((scan sumAssigned)[k]? = some t ∧ e.loc = locate "rules" t) ∧
        (∀ j u, (scan sumAssigned)[j]? = some u → e.loc = locate "rules" u → j = k) ∧
        (∀ file' src', (∀ i ≤ k, ((scan src')[i]?).map toLexeme =
            ((scan sumAssigned)[i]?).map toLexeme) →
          ∃ e' t', (parse .emptyRoot 1 file' src').error = some e' ∧ e'.message = e.message ∧
            (scan src')[k]? = some t' ∧ e'.loc = locate file' t') ∧
        ∃ src', (parse .emptyRoot 1 "rules" src').error = none ∧
          ((scan src').take k).map toLexeme =
            ((scan sumAssigned).take k).map Token.toLexeme := by
  have error : (parse .emptyRoot 1 "rules" sumAssigned).error.map
      (fun e => (e.message, e.loc)) =
        some ("left side of '=' must be a variable", ⟨"rules", 1, 38⟩) := by decide +kernel
  obtain ⟨e, fails, same⟩ := Option.map_eq_some_iff.mp error
  obtain ⟨message, loc⟩ := Prod.mk.inj same
  exact ⟨e, fails, message, loc, parse_error_at_first_wrong_token fails⟩

end Grammar

end TaskNet
