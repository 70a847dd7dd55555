import TaskNet.Proofs.Typing.Rule

/-!
The types of the variables of one case. The steps of the work on its slots only widen them. A walk
over the assignments that moves a slot widens it, and a slot can be widened four times, so the walks
end with one that moves none: then the type of every right side joins into the slot of the left side
without changing it. When nothing is reported, all variables of a name in the precondition get one
type, and where the name is bound that type is concrete.
-/

namespace TaskNet

open List Slots Tree TypeTag Typing

variable {ts : List Tree} {accept : Site → Bool} {es : List VarEntry} {j : Nat} {v : Variable}

namespace Slots

variable {slots : Slots}
variable {name : String} {i : Nat}

def places (slots : Slots) : List Nat :=
  (List.range slots.names.length).map (slots.base + ·)

theorem climbed_le (slots : Slots) (table : Array TypeTag) :
    climbed slots.places table ≤ 4 * slots.names.length := by
  have total := TypeTag.climbed_le slots.places table
  rwa [places, length_map, length_range] at total

theorem mem_places (found : slots.find? name = some i) : i ∈ slots.places := by
  obtain ⟨k, rfl, named⟩ := find?_eq_some found
  obtain ⟨inside, _⟩ := List.getElem?_eq_some_iff.mp named
  exact mem_map_of_mem (mem_range.mpr inside)

/-- Names have slots of their own. -/
theorem find?_inj {name' : String} (found : slots.find? name = some i)
    (found' : slots.find? name' = some i) : name = name' := by
  obtain ⟨k, rfl, named⟩ := find?_eq_some found
  obtain ⟨k', same, named'⟩ := find?_eq_some found'
  obtain rfl : k = k' := by omega
  exact Option.some.inj (named.symm.trans named')

theorem exists_find? (listed : name ∈ slots.names) : ∃ i, slots.find? name = some i := by
  obtain ⟨k, place⟩ := Option.isSome_iff_exists.mp (isSome_idxOf?.mpr listed)
  exact ⟨slots.base + k, by rw [find?, place]; rfl⟩

theorem typeIn_of_find? (found : slots.find? name = some i) (s : Typing) :
    slots.typeIn s name = s.slotAt i := by
  rw [typeIn, found]

end Slots

namespace Typing

/-- Slots are widened, and only certain ones; nothing else of the types changes. -/
structure Lifts (P : Nat → Prop) (s s' : Typing) : Prop where
  types : s'.types = s.types
  signatures : s'.signatures = s.signatures
  reported : s'.reported = s.reported
  slots : Raised P s.tags.items s'.tags.items

namespace Lifts

variable {P P' : Nat → Prop} {s s' s'' : Typing}
variable {t : TypeTag}

theorem refl (s : Typing) : Lifts P s s :=
  ⟨rfl, rfl, rfl, .refl _⟩

theorem trans (first : Lifts P s s') (second : Lifts P s' s'') : Lifts P s s'' :=
  ⟨second.types.trans first.types, second.signatures.trans first.signatures,
    second.reported.trans first.reported, first.slots.trans second.slots⟩

theorem mono (wider : ∀ i, P i → P' i) (lifts : Lifts P s s') : Lifts P' s s' :=
  ⟨lifts.types, lifts.signatures, lifts.reported, lifts.slots.mono wider⟩

theorem putSlot (inside : P i) (rises : (s.slotAt i).Below t) (typed : t ≠ .notAType) :
    Lifts P s (s.putSlot i t) :=
  ⟨rfl, rfl, rfl, .set inside rises typed⟩

theorem room (lifts : Lifts P s s') : s'.tags.size = s.tags.size :=
  lifts.slots.size

theorem others (lifts : Lifts P s s') (outside : ¬ P i) : s'.slotAt i = s.slotAt i :=
  lifts.slots.others i outside

theorem typeIn (lifts : Lifts P s s') (slots : Slots) (name : String) :
    (slots.typeIn s name).Below (slots.typeIn s' name) := by
  rw [Slots.typeIn, Slots.typeIn]
  split
  · exact lifts.slots.rises _
  · exact .refl _

theorem advances (lifts : Lifts P s s') {I : Typing → Prop} {S : NodeId → Prop}
    (keeps : I s → I s') : Advances I S s s' :=
  ⟨congrArg Array.size lifts.types, lifts.signatures, lifts.reported,
    fun x _ => by rw [typeAt, typeAt, lifts.types], keeps⟩

end Lifts

end Typing

namespace Infer

variable {T : Prop} {S : NodeId → Prop} {env : TypingContext} {mark k : Nat} {P : Nat → Prop}
variable {slots before : Slots} {s s' : Typing} {u : TypeTag} {t : Tree} {name : String}
  {ts : List Tree} {start r : Walked} {σ : String → TypeTag}

theorem find?_above {s : Slots} (above : mark ≤ s.base) {name : String}
    (found : s.find? name = some i) : mark ≤ i :=
  Nat.le_trans above (find?_lt found).1

theorem typeIn_known (above : mark ≤ slots.base) {s : Typing} (sane : s.Sane mark) (name : String) :
    (slots.typeIn s name).Known := by
  rw [Slots.typeIn]
  split
  · next found => exact sane.2 _ (find?_above above found)
  · exact .inl rfl

/-- Slots are widened to known types. -/
structure Joins (mark : Nat) (P : Nat → Prop) (s s' : Typing) : Prop where
  lifts : Lifts P s s'
  keeps : s.Sane mark → s'.Sane mark

theorem Joins.refl (s : Typing) : Joins mark P s s :=
  ⟨.refl s, id⟩

theorem Joins.mono {P' : Nat → Prop} (wider : ∀ i, P i → P' i) (joins : Joins mark P s s') :
    Joins mark P' s s' :=
  ⟨joins.lifts.mono wider, joins.keeps⟩

theorem Joins.trans {s'' : Typing} (first : Joins mark P s s') (second : Joins mark P s' s'') :
    Joins mark P s s'' :=
  ⟨first.lifts.trans second.lifts, fun sane => second.keeps (first.keeps sane)⟩

def OfArguments (slots : Slots) (pairs : List (Tree × Tree)) (i : Nat) : Prop :=
  ∃ pair ∈ pairs, ∃ v, pair.1.content = .var v ∧ slots.find? v.name = some i

/-- The types in slots are at most those that their names have. -/
def Within (slots : Slots) (σ : String → TypeTag) (s : Typing) : Prop :=
  ∀ name i, slots.find? name = some i → (s.slotAt i).Below (σ name)

theorem Within.putSlot (within : Within slots σ s)
    (below : ∀ name, slots.find? name = some i → u.Below (σ name)) :
    Within slots σ (s.putSlot i u) := by
  intro name j found
  rw [slotAt_putSlot]
  split
  · next here => exact below name (here.1 ▸ found)
  · exact within name j found

/-- What joining the types of parameters into slots comes to: the slots of the variables that are
passed are widened to those types, and no further than that makes necessary. -/
structure Gathers (mark : Nat) (slots : Slots) (pairs : List (Tree × Tree)) (s s' : Typing) : Prop
    extends Joins mark (OfArguments slots pairs) s s' where
  reaches : ∀ pair ∈ pairs, ∀ v i, pair.1.content = .var v → slots.find? v.name = some i →
    (s.typeAt pair.2.id).Below (s'.slotAt i)
  bounded : ∀ σ, (∀ pair ∈ pairs, ∀ v, pair.1.content = .var v →
    (s.typeAt pair.2.id).Below (σ v.name)) → Within slots σ s → Within slots σ s'

theorem joinArguments_gathers (above : mark ≤ slots.base)
    (fits : slots.base + slots.names.length ≤ k)
    (pairs : List (Tree × Tree)) :
    Attempts T k S (joinArguments slots pairs) (Gathers mark slots pairs) := by
  induction pairs with
  | nil => exact .pure fun s => ⟨.refl s, by simp, fun _ _ => id⟩
  | cons pair rest ih =>
    obtain ⟨arg, param⟩ := pair
    have wider : ∀ i, OfArguments slots rest i → OfArguments slots ((arg, param) :: rest) i :=
      fun i ⟨pair, member, inside⟩ => ⟨pair, by simp [member], inside⟩
    -- an argument that takes no part
    have later : (∀ v i, arg.content = .var v → slots.find? v.name ≠ some i) →
        Attempts T k S (joinArguments slots rest) (Gathers mark slots ((arg, param) :: rest)) :=
      fun out => ih.imp fun s s' run => ⟨run.toJoins.mono wider, forall_mem_cons.mpr
        ⟨fun v i content found => absurd found (out v i content), run.reaches⟩,
        fun σ below => run.bounded σ (forall_mem_cons.mp below).2⟩
    rw [joinArguments.eq_def]
    dsimp only
    split
    · next v content =>
      have only : ∀ {w}, arg.content = .var w → w = v := fun same => by
        simpa [content] using same.symm
      split
      · next missing =>
        refine later fun w i same found => ?_
        rw [only same, missing] at found
        cases found
      · next i found =>
        have inside := Nat.lt_of_lt_of_le (find?_lt found).2 fits
        refine .typeOf fun want => .slot inside fun known => .join rfl fun joins =>
          .setSlot inside (ih.imp ?_)
        rintro _ s' run s rfl here rfl rfl
        have lifts : Lifts (OfArguments slots ((arg, param) :: rest)) s _ :=
          .putSlot ⟨_, mem_cons_self, v, content, found⟩ (below_unify_left _ _) joins
        have sane : s.Sane mark → Sane mark _ := fun sane => sane.putSlot i
          (unify_known (sane.2 i (find?_above above found)) (.inl (sane.1 _)) joins)
        refine ⟨.trans ⟨lifts, sane⟩ (run.toJoins.mono wider), forall_mem_cons.mpr
          ⟨fun w j same place => ?_, run.reaches⟩, fun σ below within => ?_⟩
        · obtain rfl : j = i := by simpa [only same, found] using place.symm
          have rises := run.lifts.slots.rises j
          refine Below.trans ?_ rises
          rw [show entry _ j = _ from slotAt_putSlot _ _ _ _, if_pos ⟨rfl, here⟩]
          exact below_unify_right _ _
        · obtain ⟨here, others⟩ := forall_mem_cons.mp below
          refine run.bounded σ others (within.putSlot fun name place => ?_)
          rw [find?_inj place found]
          exact unify_below (within _ _ found) (here v content)
    · next notVar => exact later fun v _ content => absurd content (notVar v)

/-- The arguments of a call of certain declarations, with the parameters that they are passed for.
-/
def argumentsOf (env : TypingContext) (accept : Site → Bool) (call : Tree) : List (Tree × Tree) :=
  match (env.declaration? call.content).filter accept with
  | some d => call.children.zip d.params
  | none => []

theorem mem_argumentsOf {call : Tree} {pair : Tree × Tree} :
    pair ∈ argumentsOf env accept call ↔ ∃ d, env.declaration? call.content = some d ∧
      accept d = true ∧ pair ∈ call.children.zip d.params := by
  rw [argumentsOf]
  cases found : (env.declaration? call.content).filter accept with
  | some d =>
    obtain ⟨declared, accepted⟩ := Option.filter_eq_some_iff.mp found
    refine ⟨fun member => ⟨d, declared, accepted, member⟩, ?_⟩
    rintro ⟨e, declared', _, member⟩
    obtain rfl := Option.some.inj (declared.symm.trans declared')
    exact member
  | none =>
    refine ⟨fun member => (by cases member), ?_⟩
    rintro ⟨d, declared, accepted, _⟩
    rw [declared, Option.filter_some, if_pos accepted] at found
    cases found

/-- Only calls have a declaration. -/
theorem kind_of_declaration? {content : Content} {site : Site}
    (declared : env.declaration? content = some site) : content.kind = .call := by
  cases content with
  | call => rfl
  | _ => cases declared

/-- A variable that is passed to a declaration is met by a traversal. -/
theorem visited_of_argumentsOf {call arg param : Tree}
    (member : (arg, param) ∈ argumentsOf env accept call) : arg ∈ call.visited := by
  obtain ⟨d, declared, _, zipped⟩ := mem_argumentsOf.mp member
  have isCall : call.kind = .call := kind_of_declaration? declared
  exact mem_visited_child (by simp [isCall]) (of_mem_zip zipped).1 (mem_visited_self arg)

theorem joinArguments_append (xs ys : List (Tree × Tree)) :
    joinArguments slots (xs ++ ys) = joinArguments slots xs >>= fun ok =>
      if ok = true then joinArguments slots ys else pure false := by
  induction xs with
  | nil =>
    rw [joinArguments, pure_bind]
    rfl
  | cons pair rest ih =>
    obtain ⟨arg, param⟩ := pair
    rw [cons_append, joinArguments.eq_def, joinArguments.eq_def slots ((arg, param) :: rest)]
    simp only [ih]
    split
    · split
      · rfl
      · rw [bind_assoc]
        congr 1
        funext want
        rw [bind_assoc]
        congr 1
        funext known
        rw [bind_assoc]
        congr 1
        funext joined
        cases joined with
        | none => rw [pure_bind, if_neg Bool.false_ne_true]
        | some u => rw [bind_assoc]
    · rfl

theorem joinCalls_eq (accept : Site → Bool) (ts : List Tree) :
    joinCalls env accept slots ts = joinArguments slots (ts.flatMap (argumentsOf env accept)) := by
  induction ts with
  | nil => rfl
  | cons t ts ih =>
    rw [joinCalls, flatMap_cons, joinArguments_append, ← ih]
    split
    · next missing =>
      rw [argumentsOf, missing, joinArguments, pure_bind]
      rfl
    · next d found => rw [argumentsOf, found]

theorem joinCalls_gathers (accept : Site → Bool) (above : mark ≤ slots.base)
    (fits : slots.base + slots.names.length ≤ k) (ts : List Tree) :
    Attempts T k S (joinCalls env accept slots ts)
      (Gathers mark slots (ts.flatMap (argumentsOf env accept))) := by
  rw [joinCalls_eq]
  exact joinArguments_gathers above fits _

theorem kind_of_var (content : t.content = .var v) : t.kind = .var :=
  congrArg Content.kind content

/-- An assignment that inference can work on: its target is a variable if that is asked for. -/
def IsAssignment (T : Prop) (t : Tree) : Prop :=
  t.content = .op .assign ∧ t.IsTerm ∧ (T → TargetsVariable t)

/-- The type of a right side, as it is found from the types of names, joins into that of the left
side without changing it. -/
def WidensTo (env : TypingContext) (σ : String → TypeTag) (value : Tree) (name : String) : Prop :=
  ∀ τ, (∀ u ∈ value.visited, ∀ v, u.content = .var v → σ v.name = τ (v.definition.getD u.id)) →
    typeFrom env τ value = .any ∨ (typeFrom env τ value).Below (σ name)

/-- The type of the left side may rise, but those on the right side stay. -/
theorem WidensTo.mono {σ' : String → TypeTag} {value : Tree} (widens : WidensTo env σ value name)
    (rises : (σ name).Below (σ' name))
    (stays : ∀ u ∈ value.visited, ∀ v, u.content = .var v → σ' v.name = σ v.name) :
    WidensTo env σ' value name := by
  intro τ reads
  refine (widens τ fun u visits v content => ?_).imp_right fun below => below.trans rises
  rw [← stays u visits v content]
  exact reads u visits v content

/-- An assignment to a variable whose slot has at least the type of the right side. -/
def SlotFits (env : TypingContext) (slots : Slots) (s : Typing) (t : Tree) : Prop :=
  ∀ target value, t.children = [target, value] → ∃ v, target.content = .var v ∧
    (v.name ∈ slots.names → WidensTo env (slots.typeIn s) value v.name)

/-- A condition on names goes from the right side of an assignment to the left one, if an atom of
the right side is no variable, or a variable whose name satisfies it. -/
def PassesOn (G : String → Prop) (t : Tree) : Prop :=
  ∀ target value v, t.children = [target, value] → target.content = .var v →
    (∃ w ∈ value.atoms, ∀ x, w.content = .var x → G x.name) → G v.name

def KnownOnly (slots : Slots) (G : String → Prop) (s : Typing) : Prop :=
  ∀ name, slots.typeIn s name ≠ .any → G name

theorem KnownOnly.putSlot {G : String → Prop} (only : KnownOnly slots G s)
    (found : slots.find? name = some i) (holds : G name) : KnownOnly slots G (s.putSlot i u) := by
  intro other known
  by_cases own : slots.find? other = some i
  · rwa [find?_inj own found]
  · refine only other fun unknown => known ?_
    rw [Slots.typeIn] at unknown ⊢
    split
    · next j place =>
      rw [place] at unknown own
      rwa [slotAt_putSlot, if_neg]
      rintro ⟨rfl, _⟩
      exact own rfl
    · rfl

/-- What a walk over assignments comes to: it widens slots and says whether it did, and if it did
not, the assignments fit. A slot gets a type from an atom of a right side. A walk fails when a join
does not exist. -/
structure Walks (env : TypingContext) (slots : Slots) (ts : List Tree) (start : Walked) (s : Typing)
    (r : Walked) (s' : Typing) : Prop where
  outcome : start ≠ .failed →
    (r ≠ .failed ∧ s'.diagnostics = s.diagnostics) ∨ (r = .failed ∧ Refused (fun _ => False) s s')
  lifts : Lifts (fun i => ∃ name, slots.find? name = some i) s s'
  sane : env.functions.Concrete → ∀ mark ≤ slots.base, s.Sane mark → s'.Sane mark
  climbs : r = .changed → start = .changed ∨
    climbed slots.places s.tags.items < climbed slots.places s'.tags.items
  fits : r = .unchanged → start = .unchanged ∧ s' = s ∧ ∀ t ∈ ts, SlotFits env slots s t
  known : ∀ G, (∀ t ∈ ts, PassesOn G t) → KnownOnly slots G s → KnownOnly slots G s'
  idle : ts = [] → r = start

/-- A join that does not exist ends the walk. -/
theorem Walks.fail {loc : Location} {args : List Subject} :
    Walks env slots (t :: ts) start s .failed
    { s with diagnostics := s.diagnostics.add .failedToUnifyType loc args } :=
  ⟨fun _ => .inr ⟨rfl, ⟨_, rfl, rfl⟩, fun _ _ => rfl⟩, ⟨rfl, rfl, rfl, .refl _⟩,
    fun _ _ _ sane => sane, nofun, nofun, fun _ _ only => only, nofun⟩

/-- An assignment that moves no slot, and the rest of the walk. -/
theorem Walks.stay (rest : Walks env slots ts start s r s') (fits : SlotFits env slots s t) :
    Walks env slots (t :: ts) start s r s' :=
  ⟨rest.outcome, rest.lifts, rest.sane, rest.climbs, fun unchanged => by
    obtain ⟨begun, same, others⟩ := rest.fits unchanged
    exact ⟨begun, same, forall_mem_cons.mpr ⟨fits, others⟩⟩,
    fun G passes => rest.known G (forall_mem_cons.mp passes).2, nofun⟩

/-- An assignment that widens a slot, and the rest of the walk. -/
theorem Walks.move (rest : Walks env slots ts .changed (s.putSlot i u) r s')
    (found : slots.find? name = some i) (inside : i < s.tags.size) (rises : (s.slotAt i).Below u)
    (typed : u ≠ .notAType) (wider : (s.slotAt i).height < u.height)
    (known : env.functions.Concrete → ∀ mark ≤ slots.base, s.Sane mark → u.Known)
    (source : ∀ G, PassesOn G t → KnownOnly slots G s → G name) :
    Walks env slots (t :: ts) start s r s' := by
  have lifts : Lifts (fun i => ∃ name, slots.find? name = some i) s (s.putSlot i u) :=
    .putSlot ⟨name, found⟩ rises typed
  refine ⟨fun _ => (rest.outcome (by simp)).imp_right fun failed => ⟨failed.1, failed.2.report,
    failed.2.others⟩, lifts.trans rest.lifts,
    fun concrete mark above sane => rest.sane concrete mark above
      (sane.putSlot i (known concrete mark above sane)),
    fun _ => .inr ?_, fun unchanged => ?_, fun G passes only => ?_, nofun⟩
  · exact Nat.lt_of_lt_of_le (lifts.slots.climbed_lt (mem_places found) inside wider)
      (rest.lifts.slots.climbed_le _)
  · cases (rest.fits unchanged).1
  · exact rest.known G (forall_mem_cons.mp passes).2
      (only.putSlot found (source G (passes t (by simp)) only))

theorem walkAssignments_walks (fits : slots.base + slots.names.length ≤ k)
    (each : ∀ t ∈ ts, IsAssignment T t) (start : Walked) :
    Runs T k (walkAssignments env slots start ts) (Walks env slots ts start) := by
  induction ts generalizing start with
  | nil =>
    exact .pure fun s => ⟨fun going => .inl ⟨going, rfl⟩, .refl s, fun _ _ _ sane => sane,
      fun changed => .inl changed, fun unchanged => ⟨unchanged, rfl, by simp⟩, fun _ _ only => only,
      fun _ => rfl⟩
  | cons t ts ih =>
    have later := fun start => ih (forall_mem_cons.mp each).2 start
    obtain ⟨content, term, targets⟩ := each t (by simp)
    have takes := term.here
    rw [content] at takes
    obtain ⟨target, value, children⟩ := length_eq_two.mp takes
    have widened : ∀ {s : Typing} {v : Variable}, target.content = .var v →
        (v.name ∈ slots.names → WidensTo env (slots.typeIn s) value v.name) →
        SlotFits env slots s t := by
      intro s v isVar widens target' value' same
      rw [children] at same
      cases same
      exact ⟨v, isVar, widens⟩
    rw [walkAssignments.eq_def]
    dsimp only
    rw [children]
    dsimp only
    split
    · next v isVar =>
      have valueTerm : value.IsTerm := term.below (by simp [children])
      have looked : ∀ {s : Typing} {τ : NodeId → TypeTag}, ReadsAs (.slots slots) s τ value →
          typeBy env (readTypes (.slots slots) s) value = typeFrom env τ value :=
          typeBy_readTypes valueTerm
      refine .seq (.look fun _ room => exprType_run valueTerm (Nat.le_trans fits room))
        fun type => ?_
      split
      · next missing =>
        refine (later start).imp ?_
        rintro s r s' _ rest _ ⟨rfl, _⟩
        refine rest.stay (widened isVar fun listed => ?_)
        obtain ⟨i, found⟩ := exists_find? listed
        rw [missing] at found
        cases found
      · next i found =>
        split
        · next unknown =>
          refine (later start).imp ?_
          rintro s r s' _ rest _ ⟨rfl, rfl⟩
          exact rest.stay (widened isVar fun _ τ reads => .inl ((looked reads).symm.trans unknown))
        · next given =>
          have inside := Nat.lt_of_lt_of_le (find?_lt found).2 fits
          refine .seq (.look (f := slot i) fun _ room => slot_run (Nat.lt_of_lt_of_le inside room))
            fun known =>
            .seq (join_runs target.loc v.name known type) fun joined => ?_
          split
          · refine .pure ?_
            rintro s' _ (⟨_, some, _⟩ | ⟨_, _, rfl⟩) s ⟨rfl, _⟩ _ ⟨rfl, _⟩
            · cases some
            · exact .fail
          · next u =>
            split
            · next same =>
              refine (later start).imp ?_
              rintro s r s' _ rest _ (⟨rfl, joined, _⟩ | ⟨none, _⟩) _ ⟨rfl, rfl⟩ _ ⟨rfl, rfl⟩
              · refine rest.stay (widened isVar fun _ τ reads => .inr ?_)
                rw [← looked reads, typeIn_of_find? found]
                exact (Option.some.inj joined).symm.trans same
              · cases none
            · next moves =>
              refine .seq (setSlot_runs inside) fun _ => (later .changed).imp ?_
              rintro _ r s' _ rest _ ⟨rfl, here⟩ s (⟨rfl, same, joins⟩ | ⟨none, _⟩) _ ⟨rfl, rfl⟩
                _ ⟨rfl, rfl⟩
              · obtain rfl := Option.some.inj same
                refine Walks.move rest found here (below_unify_left _ _) joins
                  (height_lt_unify joins moves) (fun concrete mark above sane => ?_)
                  fun G passes only => passes target value v children isVar ?_
                · exact unify_known (sane.2 i (find?_above above found))
                    (typeBy_known concrete value fun n w content => by
                      rw [readTypes_var content]
                      exact typeIn_known above sane w.name) joins
                · obtain ⟨w, atom, source⟩ := exists_atom_of_typeBy given
                  refine ⟨w, atom, fun x content => only x.name ?_⟩
                  have known := source (congrArg Content.kind content)
                  rwa [readTypes_var content] at known
              · cases none
    · next notVar =>
      refine .throw fun holds => ?_
      obtain ⟨c, first, kind⟩ := targets holds content
      rw [children] at first
      cases first
      obtain ⟨v, isVar⟩ := content_of_var kind
      exact notVar v isVar

theorem Walks.proceeds (walks : Walks env slots ts .unchanged s r s') (goes : r ≠ .failed) :
    Proceeds S s s' :=
  ⟨((walks.outcome (by simp)).resolve_right fun stops => goes stops.1).2,
    fun x _ => by rw [typeAt, typeAt, walks.lifts.types]⟩

/-- What the walks over assignments come to. They end with one that moves no slot when there are as
many as slots can be widened, and one more. -/
structure SlotsSettle (env : TypingContext) (mark : Nat) (slots : Slots) (ts : List Tree)
    (fuel : Nat)
    (s s' : Typing) : Prop extends Joins mark (fun i => ∃ name, slots.find? name = some i) s s'
    where
  fits : 4 * slots.names.length < climbed slots.places s.tags.items + fuel →
    ∀ t ∈ ts, SlotFits env slots s' t
  known : ∀ G, (∀ t ∈ ts, PassesOn G t) → KnownOnly slots G s → KnownOnly slots G s'
  plain : ts = [] → s' = s

theorem settleAssignments_settles (concrete : env.functions.Concrete) (above : mark ≤ slots.base)
    (fits : slots.base + slots.names.length ≤ k) (each : ∀ t ∈ ts, IsAssignment T t) (fuel : Nat) :
    Attempts T k S (settleAssignments env slots ts fuel) (SlotsSettle env mark slots ts fuel) := by
  induction fuel with
  | zero =>
    refine .pure fun s => ⟨.refl s, fun short => ?_, fun _ _ only => only, fun _ => rfl⟩
    have most := slots.climbed_le s.tags.items
    omega
  | succ fuel ih =>
    rw [settleAssignments]
    refine Runs.seq (walkAssignments_walks fits each .unchanged) fun walked => ?_
    cases walked with
    | failed =>
      refine Runs.pure fun s' s run => .inr ⟨rfl, ?_⟩
      have refused := ((run.outcome (by simp)).resolve_left fun goes => goes.1 rfl).2
      exact refused.mono fun _ never => never.elim
    | unchanged =>
      refine Runs.pure fun s' s run => .inl ⟨rfl, run.proceeds (by simp), ?_⟩
      obtain ⟨_, rfl, fits⟩ := run.fits rfl
      exact ⟨⟨run.lifts, run.sane concrete mark above⟩, fun _ => fits, run.known, fun _ => rfl⟩
    | changed =>
      refine Runs.imp ih fun s' _ s'' _ later s run => ?_
      have first : Proceeds S s s' := run.proceeds (by simp)
      rcases later with ⟨ok, second, joins, fits, known, _⟩ | ⟨stops, refused⟩
      · refine .inl ⟨ok, first.trans second, .trans ⟨run.lifts, run.sane concrete mark above⟩ joins,
          fun enough => ?_, fun G passes only => known G passes (run.known G passes only),
          fun none => ?_⟩
        · have progress := (run.climbs rfl).resolve_left (by simp)
          exact fits (by omega)
        · -- a walk over no assignments changes nothing
          subst none
          exact absurd (run.idle rfl) (by simp)
      · exact .inr ⟨stops, first.refused refused⟩

/-- An entry of a table of variables that stands for a variable of its name. -/
def IsOccurrence (env : TypingContext) (e : VarEntry) : Prop :=
  ∃ s v, env.site? e.node = some s ∧ s.tree.content = .var v ∧ v.name = e.name

/-- A condition on the entries of a table of variables and the places of their slots, from one place
on. -/
def AtEntries (i : Nat) (es : List VarEntry) (P : Nat → VarEntry → Prop) : Prop :=
  ∀ k e, es[k]? = some e → P (i + k) e

theorem atEntries_cons {e : VarEntry} {P : Nat → VarEntry → Prop} :
    AtEntries i (e :: es) P ↔ P i e ∧ AtEntries (i + 1) es P := by
  constructor
  · intro each
    refine ⟨each 0 e rfl, fun k e' entry => ?_⟩
    rw [Nat.add_right_comm]
    exact each (k + 1) e' (by simpa using entry)
  · rintro ⟨first, rest⟩ k e' entry
    cases k with
    | zero => exact Option.some.inj entry ▸ first
    | succ k =>
      rw [Nat.add_comm k 1, ← Nat.add_assoc]
      exact rest k e' (by simpa using entry)

/-- What joining the slots of the precondition with those of the task list comes to. A slot of the
precondition stays if nothing is known from the task list. Both slots of a name are widened to what
the other was, and no further than that makes necessary. -/
structure Shares (mark : Nat) (before : Slots) (i : Nat) (es : List VarEntry) (s s' : Typing) : Prop
    extends Joins mark (fun m => (∃ name, before.find? name = some m) ∨ i ≤ m) s s' where
  stays : ∀ name j, before.find? name = some j →
    AtEntries i es (fun m e => e.name = name → s.slotAt m = .any) → s'.slotAt j = s.slotAt j
  reaches : AtEntries i es fun m e => ∀ j, before.find? e.name = some j →
    (s.slotAt m).Below (s'.slotAt j) ∧ (s.slotAt j).Below (s'.slotAt m)
  bounded : ∀ σ, Within before σ s → AtEntries i es (fun m e => (s.slotAt m).Below (σ e.name)) →
    Within before σ s' ∧ AtEntries i es fun m e => (s'.slotAt m).Below (σ e.name)

/-- Two slots get the join of what they hold. -/
structure JoinsBoth (mark j i : Nat) (s s' : Typing) : Prop
    extends Joins mark (fun m => m = j ∨ m = i) s s' where
  both : ∀ m, m = j ∨ m = i → s'.slotAt m = (s.slotAt j).unify (s.slotAt i)

theorem JoinsBoth.putSlot (low : mark ≤ j) (apart : j < i) (room : i < s.tags.size)
    (same : (s.slotAt j).unify (s.slotAt i) = u) (joins : u ≠ .notAType) :
    JoinsBoth mark j i s ((s.putSlot j u).putSlot i u) := by
  have fromFirst : (s.slotAt j).Below u := same ▸ below_unify_left _ _
  have fromSecond : ((s.putSlot j u).slotAt i).Below u := by
    rw [slotAt_putSlot, if_neg (by omega)]
    exact same ▸ below_unify_right _ _
  have known : s.Sane mark → u.Known := fun sane => same ▸ unify_known (sane.2 j low)
    (.inl (sane.2 i (by omega))) (same ▸ joins)
  refine ⟨⟨.trans (.putSlot (.inl rfl) fromFirst joins) (.putSlot (.inr rfl) fromSecond joins),
    fun sane => (sane.putSlot j (known sane)).putSlot i (known sane)⟩, fun m here => ?_⟩
  have size : (s.putSlot j u).tags.items.size = s.tags.items.size := by simp [Typing.putSlot]
  rw [same, slotAt_putSlot, slotAt_putSlot, size]
  have room : i < s.tags.items.size := room
  grind

theorem JoinsBoth.below (joined : JoinsBoth mark j i s s') (first : (s.slotAt j).Below u)
    (second : (s.slotAt i).Below u) {m : Nat} (here : m = j ∨ m = i) : (s'.slotAt m).Below u := by
  rw [joined.both m here]
  exact unify_below first second

section Entry

variable {i : Nat} {e : VarEntry} {es : List VarEntry}
  (apart : before.base + before.names.length ≤ i)
include apart

/-- The rest of a table leaves the slot of its first entry alone. -/
theorem Shares.first (rest : Shares mark before (i + 1) es s s') : s'.slotAt i = s.slotAt i := by
  refine rest.lifts.others ?_
  rintro (⟨name, found⟩ | next)
  · have := (find?_lt found).2
    omega
  · omega

/-- An entry that the precondition has no slot for, and the rest. -/
theorem Shares.skip (rest : Shares mark before (i + 1) es s s')
    (missing : before.find? e.name = none) : Shares mark before i (e :: es) s s' := by
  refine ⟨rest.toJoins.mono fun m place => place.imp_right (by omega), fun name j slot unknown =>
    rest.stays name j slot (atEntries_cons.mp unknown).2, ?_, fun σ within entries => ?_⟩
  · refine atEntries_cons.mpr ⟨fun j shared => ?_, rest.reaches⟩
    rw [missing] at shared
    cases shared
  · obtain ⟨here, others⟩ := atEntries_cons.mp entries
    obtain ⟨within', others'⟩ := rest.bounded σ within others
    exact ⟨within', atEntries_cons.mpr ⟨rest.first apart ▸ here, others'⟩⟩

/-- An entry whose two slots are joined, and the rest. -/
theorem Shares.join {s₁ : Typing} (rest : Shares mark before (i + 1) es s₁ s')
    (joined : JoinsBoth mark j i s s₁) (shared : before.find? e.name = some j) :
    Shares mark before i (e :: es) s s' := by
  have others : ∀ {m}, m ≠ j → m ≠ i → s₁.slotAt m = s.slotAt m := fun notFirst notSecond =>
    joined.lifts.others (by simp [notFirst, notSecond])
  have low := (find?_lt shared).2
  refine ⟨.trans (joined.toJoins.mono ?_) (rest.toJoins.mono fun m place =>
    place.imp_right (by omega)), fun name k slot unknown => ?_, ?_, fun σ within entries => ?_⟩
  · rintro m (rfl | rfl)
    · exact .inl ⟨_, shared⟩
    · exact .inr (Nat.le_refl _)
  · have upper := (find?_lt slot).2
    obtain ⟨nothing, later⟩ := atEntries_cons.mp unknown
    rw [rest.stays name k slot fun k e' entry same => by
      rw [others (by omega) (by omega)]
      exact later k e' entry same]
    by_cases own : k = j
    · -- the entry is one of this name, and its slot is unknown
      subst own
      rw [joined.both k (.inl rfl), nothing (find?_inj shared slot)]
      exact Below.any _
    · exact others own (by omega)
  · refine atEntries_cons.mpr ⟨fun k place => ?_, fun k e' entry m place => ?_⟩
    · obtain rfl : j = k := Option.some.inj (shared.symm.trans place)
      have first : (s.slotAt i).Below (s₁.slotAt j) := by
        rw [joined.both j (.inl rfl)]
        exact below_unify_right _ _
      have second : (s.slotAt j).Below (s₁.slotAt i) := by
        rw [joined.both i (.inr rfl)]
        exact below_unify_left _ _
      exact ⟨first.trans (rest.lifts.slots.rises j), second.trans (rest.lifts.slots.rises i)⟩
    · obtain ⟨one, two⟩ := rest.reaches k e' entry m place
      exact ⟨(joined.lifts.slots.rises _).trans one, (joined.lifts.slots.rises _).trans two⟩
  · obtain ⟨here, later⟩ := atEntries_cons.mp entries
    have most := fun m => joined.below (m := m) (within _ _ shared) here
    have bound : Within before σ s₁ := by
      intro name k found
      by_cases own : k = j
      · rw [find?_inj found (own ▸ shared)]
        exact most k (.inl own)
      · have := (find?_lt found).2
        rw [others own (by omega)]
        exact within name k found
    obtain ⟨within', later'⟩ := rest.bounded σ bound fun k e' entry => by
      dsimp only
      rw [others (by omega) (by omega)]
      exact later k e' entry
    exact ⟨within', atEntries_cons.mpr ⟨rest.first apart ▸ most i (.inr rfl), later'⟩⟩

end Entry

theorem joinShared_shares (above : mark ≤ before.base)
    (sites : ∀ e ∈ es, IsOccurrence env e) (apart : before.base + before.names.length ≤ i)
    (fits : i + es.length ≤ k) :
    Attempts T k S (joinShared env before i es) (Shares mark before i es) := by
  induction es generalizing i with
  | nil =>
    exact .pure fun s => ⟨.refl s, fun _ _ _ _ => rfl, fun _ _ none => (by cases none),
      fun _ within entries => ⟨within, entries⟩⟩
  | cons e es ih =>
    rw [length_cons] at fits
    have later := ih (forall_mem_cons.mp sites).2 (i := i + 1) (by omega) (by omega)
    obtain ⟨site, v, found, content, named⟩ := sites e (by simp)
    rw [joinShared.eq_def]
    dsimp only
    rw [found]
    dsimp only [Option.map]
    rw [show site.tree.node.content = .var v from content]
    dsimp only
    rw [named]
    split
    · next missing => exact later.imp fun s s' rest => rest.skip apart missing
    · next j shared =>
      have low := (find?_lt shared).2
      refine .slot (by omega) fun p => .slot (by omega) fun q => .join rfl fun joins =>
        .setSlot (by omega) (.setSlot (by omega) (later.imp ?_))
      rintro _ s' rest _ rfl here s rfl _ rfl rfl
      exact rest.join apart (.putSlot (find?_above above shared) (by omega) (size_putSlot s j _ ▸
        here) rfl joins) shared

/-- Joining slots into the types of parameters: these rise, to the types of their slots at least. -/
theorem joinParams_joins (above : mark ≤ before.base) (fits : before.base + before.names.length ≤ k)
    {ps : List Tree} (inside : ∀ q ∈ ps, S q.id) :
    Attempts T k S (joinParams before ps) fun s s' =>
      Advances (Sane mark) S s s' ∧ s'.tags = s.tags ∧ (∀ x, (s.typeAt x).Below (s'.typeAt x)) ∧
      ∀ q ∈ ps, q.id < s.types.size → (before.typeIn s q.name).Below (s'.typeAt q.id) := by
  induction ps with
  | nil => exact .pure fun s => ⟨.refl s, rfl, fun _ => .refl _, by simp⟩
  | cons p ps ih =>
    obtain ⟨own, rest⟩ := forall_mem_cons.mp inside
    have ih := ih rest
    rw [joinParams.eq_def]
    dsimp only
    split
    · next missing =>
      refine ih.imp fun s s' ⟨run, tags, rises, below⟩ => ⟨run, tags, rises, ?_⟩
      refine forall_mem_cons.mpr ⟨fun _ => ?_, below⟩
      rw [Slots.typeIn, missing]
      exact .any _
    · next i found =>
      refine .slot (Nat.lt_of_lt_of_le (find?_lt found).2 fits) fun known => ?_
      split
      · next unknown =>
        refine ih.imp fun s s' ⟨run, tags, rises, below⟩ same => ⟨run, tags, rises, ?_⟩
        refine forall_mem_cons.mpr ⟨fun _ => ?_, below⟩
        rw [typeIn_of_find? found, ← same, unknown]
        exact .any _
      · refine .typeOf fun type => .join rfl fun joins => .setType own (ih.imp ?_)
        rintro _ s' ⟨run, tags, rises, below⟩ s rfl rfl rfl
        have bounds : (s.putType p.id ((s.typeAt p.id).unify (s.slotAt i))).types.size =
          s.types.size :=
          Array.size_setIfInBounds
        refine ⟨.trans (.putType own fun sane => sane.putType _ ?_) run, tags,
          fun x => .trans ?_ (rises x),
          forall_mem_cons.mpr ⟨fun inside => .trans ?_ (rises p.id), fun q member inside => ?_⟩⟩
        · exact unify_known (sane.1 _) (.inl (sane.2 i (find?_above above found))) joins
        · rw [typeAt_putType]
          split
          · next here => exact here.1 ▸ below_unify_left _ _
          · exact .refl _
        · rw [typeIn_of_find? found, typeAt_putType, if_pos ⟨rfl, inside⟩]
          exact below_unify_right _ _
        · exact below q member (by rw [bounds]; exact inside)

def OfVariables (ts : List Tree) (x : NodeId) : Prop :=
  ∃ t ∈ ts, t.kind = .var ∧ t.id = x

theorem OfVariables.cons {x : NodeId} (inside : OfVariables ts x) :
    OfVariables (t :: ts) x := by
  obtain ⟨u, member, rest⟩ := inside
  exact ⟨u, by simp [member], rest⟩

/-- The variables of a list of nodes have the types of their names, and those that bind have got
one. -/
def Holds (σ : String → TypeTag) (ts : List Tree) (s : Typing) : Prop :=
  ∀ t ∈ ts, ∀ v, t.content = .var v →
    s.typeAt t.id = σ v.name ∧ (v.binding = true → σ v.name ≠ .any)

/-- What storing the types of slots on the variables of a list of nodes comes to. -/
structure Stores (mark : Nat) (slots : Slots) (ts : List Tree) (s s' : Typing) : Prop where
  advances : Advances (Sane mark) (OfVariables ts) s s'
  tags : s'.tags = s.tags
  grows : s.diagnostics.recorded <+: s'.diagnostics.recorded
  stored : (∀ t ∈ ts, t.id < s.types.size) → ∀ t ∈ ts, ∀ v, t.content = .var v →
    s'.typeAt t.id = slots.typeIn s v.name

theorem Stores.nil (s : Typing) : Stores mark slots [] s s :=
  ⟨.refl s, rfl, prefix_refl _, by simp⟩

/-- A node that is no variable, and the rest. -/
theorem Stores.skip (rest : Stores mark slots ts s s') (other : ∀ v, t.content ≠ .var v) :
    Stores mark slots (t :: ts) s s' :=
  ⟨rest.advances.mono fun _ => .cons, rest.tags, rest.grows, fun bounds => forall_mem_cons.mpr
    ⟨fun v content => absurd content (other v), rest.stored (forall_mem_cons.mp bounds).2⟩⟩

/-- A variable, perhaps with a report, and the rest. -/
theorem Stores.cons {d : Collector} (above : mark ≤ slots.base)
    (rest : Stores mark slots ts { s.putType t.id (slots.typeIn s v.name) with diagnostics := d }
    s') (content : t.content = .var v) (fresh : t.id ∉ ts.map Tree.id)
    (more : s.diagnostics.recorded <+: d.recorded) : Stores mark slots (t :: ts) s s' := by
  have own : OfVariables (t :: ts) t.id := ⟨t, by simp, kind_of_var content, rfl⟩
  have put : Advances (Sane mark) (OfVariables (t :: ts)) s
    (s.putType t.id (slots.typeIn s v.name)) :=
    .putType own fun sane => sane.putType _ (typeIn_known above sane v.name)
  have here : Advances (Sane mark) (OfVariables (t :: ts)) s
      { s.putType t.id (slots.typeIn s v.name) with diagnostics := d } :=
    ⟨put.size, rfl, rfl, put.others, put.keeps⟩
  refine ⟨here.trans (rest.advances.mono fun _ => .cons), rest.tags, more.trans rest.grows,
    fun bounds => forall_mem_cons.mpr ⟨fun w same => ?_, ?_⟩⟩
  · -- the rest of the list has no variable of this identity
    obtain rfl : v = w := by simpa [content] using same
    rw [rest.advances.others t.id fun ⟨q, inside, _, same⟩ => fresh (mem_map.mpr ⟨q, inside, same⟩)]
    exact (typeAt_putType s t.id _ t.id).trans (if_pos ⟨rfl, bounds t (by simp)⟩)
  · exact rest.stored fun q inside => here.size ▸ bounds q (by simp [inside])

theorem storePrecond_stores (above : mark ≤ slots.base) (fits : slots.base + slots.names.length ≤ k)
    (distinct : (ts.map Tree.id).Nodup) :
    Runs T k (storePrecond slots ts) fun s _ s' => Stores mark slots ts s s' ∧
      (s'.problems = s.problems → ∀ t ∈ ts, ∀ v, t.content = .var v → v.binding = true →
        slots.typeIn s v.name ≠ .any) := by
  induction ts with
  | nil => exact .pure fun s => ⟨.nil s, by simp⟩
  | cons t ts ih =>
    rw [map_cons, nodup_cons] at distinct
    have later := ih distinct.2
    rw [storePrecond.eq_def]
    dsimp only
    split
    · next v content =>
      have only : ∀ {w}, t.content = .var w → w = v :=
        fun same => by simpa [content] using same.symm
      refine .seq (.look fun _ room => slotType_run (Nat.le_trans fits room) v.name) fun u =>
        .seq (.step (f := setType t.id u) (fun _ _ => rfl) fun _ => rfl) fun _ => ?_
      split
      · refine .seq (.step (f := report _ _ _) (fun _ _ => rfl) fun _ => rfl) fun _ => later.imp ?_
        rintro _ _ s' _ ⟨run, _⟩ _ ⟨rfl, _⟩ s ⟨rfl, _⟩ _ ⟨rfl, rfl⟩
        refine ⟨.cons above run content distinct.1 (prefix_append _ _), fun same => ?_⟩
        have more := run.grows.length_le
        simp [Collector.add, Collector.append] at more
        have same : s'.diagnostics.recorded.length = s.diagnostics.recorded.length := same
        omega
      · next given =>
        refine later.imp ?_
        rintro _ _ s' _ ⟨run, bound⟩ s ⟨rfl, _⟩ _ ⟨rfl, rfl⟩
        refine ⟨.cons above run content distinct.1 (prefix_refl _), fun same => ?_⟩
        refine forall_mem_cons.mpr ⟨fun w isVar binds unknown => given ?_, bound same⟩
        rw [only isVar] at binds unknown
        simp [binds, unknown]
    · next notVar =>
      refine later.imp ?_
      rintro s _ s' _ ⟨run, bound⟩
      refine ⟨run.skip notVar, fun same => ?_⟩
      exact forall_mem_cons.mpr ⟨fun w isVar => absurd isVar (notVar w), bound same⟩

theorem storeTasks_stores (above : mark ≤ slots.base) (fits : slots.base + slots.names.length ≤ k)
    (distinct : (ts.map Tree.id).Nodup) :
    Runs T k (storeTasks slots ts) fun s _ s' =>
      Stores mark slots ts s s' ∧ s'.diagnostics = s.diagnostics := by
  induction ts with
  | nil => exact .pure fun s => ⟨.nil s, rfl⟩
  | cons t ts ih =>
    rw [map_cons, nodup_cons] at distinct
    have later := ih distinct.2
    rw [storeTasks.eq_def]
    dsimp only
    split
    · next v content =>
      refine .seq (.look fun _ room => slotType_run (Nat.le_trans fits room) v.name) fun u =>
        .seq (.step (f := setType t.id u) (fun _ _ => rfl) fun _ => rfl) fun _ => later.imp ?_
      rintro _ _ s' _ ⟨run, silent⟩ s ⟨rfl, _⟩ _ ⟨rfl, rfl⟩
      exact ⟨.cons above run content distinct.1 (prefix_refl _), silent⟩
    · next notVar => exact later.imp fun s _ s' _ ⟨run, silent⟩ => ⟨run.skip notVar, silent⟩

/-- What inference needs of a case: its parts are found by their identities, and in them the
assignments and the variables that the tables of the case list. -/
structure Workable (T : Prop) (env : TypingContext) (info : Guarded) (pre list : Tree) : Prop where
  precond : env.tree? info.precond = some pre
  tasks : env.tree? info.tasks = some list
  assignments : ∀ t ∈ pre.assignments, IsAssignment T t
  listed : ∀ t ∈ pre.visited, ∀ v, t.content = .var v → v.name ∈ info.precondVars.map VarEntry.name
  shared : ∀ e ∈ info.taskVars, IsOccurrence env e
  listedAfter : ∀ t ∈ list.visited,
    ∀ v, t.content = .var v → v.name ∈ info.taskVars.map VarEntry.name
  distinct : (pre.visited.map Tree.id).Nodup
  sound : list.kind ≠ .error
  distinctAfter : (list.visited.map Tree.id).Nodup
  apart : ∀ t ∈ pre.visited, ∀ u ∈ list.visited, t.id ≠ u.id

def Touches (task pre list : Tree) (x : NodeId) : Prop :=
  (∃ p ∈ task.childrenOf .param, p.id = x) ∨ OfVariables pre.visited x ∨ OfVariables list.visited x

/-- New slots are unknown. -/
theorem slotAt_pushMany (room : Nat) (above : s.tags.size ≤ i) :
    slotAt { s with tags := s.tags.pushMany room .any } i = .any := by
  rw [slotAt, Stack.pushMany, Array.getElem?_append_right above, Array.getElem?_replicate]
  split <;> rfl

theorem sane_pushMany (known : s.TypesKnown) (room : Nat) :
    Sane s.tags.size { s with tags := s.tags.pushMany room .any } :=
  ⟨known, fun _ above => .inl (slotAt_pushMany room above)⟩

end Infer

end TaskNet
