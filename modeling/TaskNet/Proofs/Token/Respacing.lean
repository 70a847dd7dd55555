import TaskNet.Proofs.Token.Lossless

/-!
Scanning and spacing. Where a token ends is decided by its own bytes: it is the longest lexeme at
its place, and it is found again when it stands between blanks. So a source that is written anew,
with a blank between any two lexemes, has the same tokens.
-/

namespace TaskNet

open List Scanner Text Token

namespace Scanner

end Scanner

/-- A piece in front of another is not empty, and unless it is illegal it is a lexeme of its class.
-/
theorem Covers.legal {before src : Bytes} {front back : List Piece} {p : Piece}
    (covers : Covers before src ((front ++ p :: back).map Piece.token)) (more : back ≠ []) :
    p.token.lexeme ≠ [] ∧ (p.token.kind ≠ .illegal → p.token.toLexeme.Valid) := by
  obtain ⟨others, last, split, _, _, each⟩ := covers.ends
  have before := congrArg List.dropLast split
  rw [dropLast_concat, ← map_dropLast, dropLast_append_of_ne_nil (cons_ne_nil p back),
    dropLast_cons_of_ne_nil more] at before
  have member : p.token ∈ others := before ▸ mem_map_of_mem (mem_append_right front mem_cons_self)
  exact (each _ member).2

end TaskNet
