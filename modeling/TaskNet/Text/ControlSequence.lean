import TaskNet.Text.Bytes

/-!
Terminal control sequences, after the grammar of ECMA-48. Stripping keeps what a terminal would
print or execute and drops escape sequences, control strings and bytes that begin nothing.
-/

namespace TaskNet.Text

/-- Where a reader of terminal output stands. -/
inductive ControlState where
  | ground
  | escape
  | escapeIntermediate
  | sequenceEntry
  | sequenceParam
  | sequenceIntermediate
  | deviceEntry
  | deviceParam
  | deviceIntermediate
  | deviceText
  | commandText
  | otherText
  /-- Inside a character of several bytes, with this many still to come. -/
  | character (rest : Nat)
  deriving DecidableEq, Repr

namespace ControlState

/-- Control characters that act inside every sequence without ending it. -/
def isExecuted (b : Nat) : Bool :=
  b ≤ 0x17 || b == 0x19 || (0x1C ≤ b && b ≤ 0x1F)

/-- The number of bytes that follow the first byte of a character. -/
def following (b : Nat) : Nat :=
  if b < 0xE0 then 1 else if b < 0xF0 then 2 else 3

/-- What a byte does in every state that does not take it for itself: the next state, and whether
the byte is kept. -/
def anywhere (b : Nat) : ControlState × Bool :=
  if b == 0x18 || b == 0x1A || b == 0x99 || b == 0x9A || b == 0x9C then (ground, true)
  else if b == 0x1B then (escape, false)
  else if b == 0x90 then (deviceEntry, false)
  else if b == 0x98 || b == 0x9E || b == 0x9F then (otherText, false)
  else if b == 0x9B then (sequenceEntry, false)
  else if b == 0x9D then (commandText, false)
  else if 0x80 ≤ b && b ≤ 0x97 then (ground, true)
  else if 0xC2 ≤ b && b ≤ 0xF4 then (character (following b), true)
  else (ground, false)

def step (state : ControlState) (byte : UInt8) : ControlState × Bool :=
  let b := byte.toNat
  match state with
  | character n => (if n ≤ 1 then ground else character (n - 1), true)
  | ground =>
    if isExecuted b || (0x20 ≤ b && b ≤ 0x7F) then (ground, true) else anywhere b
  | escape =>
    if isExecuted b then (escape, true)
    else if b == 0x7F then (escape, false)
    else if 0x20 ≤ b && b ≤ 0x2F then (escapeIntermediate, false)
    else if b == 0x58 || b == 0x5E || b == 0x5F then (otherText, false)
    else if b == 0x50 then (deviceEntry, false)
    else if b == 0x5B then (sequenceEntry, false)
    else if b == 0x5D then (commandText, false)
    else if 0x30 ≤ b && b ≤ 0x7E then (ground, false)
    else anywhere b
  | escapeIntermediate =>
    if isExecuted b then (escapeIntermediate, true)
    else if b == 0x7F || (0x20 ≤ b && b ≤ 0x2F) then (escapeIntermediate, false)
    else if 0x30 ≤ b && b ≤ 0x7E then (ground, false)
    else anywhere b
  | sequenceEntry =>
    if isExecuted b then (sequenceEntry, true)
    else if b == 0x7F then (sequenceEntry, false)
    else if 0x20 ≤ b && b ≤ 0x2F then (sequenceIntermediate, false)
    else if 0x30 ≤ b && b ≤ 0x3F then (sequenceParam, false)
    else if 0x40 ≤ b && b ≤ 0x7E then (ground, false)
    else anywhere b
  | sequenceParam =>
    if isExecuted b then (sequenceParam, true)
    else if b == 0x7F || (0x30 ≤ b && b ≤ 0x3F) then (sequenceParam, false)
    else if 0x20 ≤ b && b ≤ 0x2F then (sequenceIntermediate, false)
    else if 0x40 ≤ b && b ≤ 0x7E then (ground, false)
    else anywhere b
  | sequenceIntermediate =>
    if isExecuted b then (sequenceIntermediate, true)
    else if b == 0x7F || (0x20 ≤ b && b ≤ 0x2F) then (sequenceIntermediate, false)
    else if 0x30 ≤ b && b ≤ 0x7E then (ground, false)
    else anywhere b
  | deviceEntry =>
    if (0x08 ≤ b && b ≤ 0x0D) || b == 0x1B || (0x40 ≤ b && b ≤ 0x7E) then (deviceText, false)
    else if isExecuted b || b == 0x7F then (deviceEntry, false)
    else if 0x20 ≤ b && b ≤ 0x2F then (deviceIntermediate, false)
    else if 0x30 ≤ b && b ≤ 0x3F then (deviceParam, false)
    else anywhere b
  | deviceParam =>
    if isExecuted b || b == 0x7F || (0x30 ≤ b && b ≤ 0x3F) then (deviceParam, false)
    else if 0x20 ≤ b && b ≤ 0x2F then (deviceIntermediate, false)
    else if 0x40 ≤ b && b ≤ 0x7E then (deviceText, false)
    else anywhere b
  | deviceIntermediate =>
    if isExecuted b || b == 0x7F || (0x20 ≤ b && b ≤ 0x2F) then (deviceIntermediate, false)
    else if 0x30 ≤ b && b ≤ 0x7E then (deviceText, false)
    else anywhere b
  | deviceText =>
    if b == 0x1B then (escape, false)
    else if b == 0x9C || b == 0x18 || b == 0x1A then (ground, false)
    else (deviceText, false)
  | commandText =>
    if b == 0x1B then (escape, false)
    else if b == 0x07 || b == 0x9C || b == 0x18 || b == 0x1A then (ground, false)
    else (commandText, false)
  | otherText =>
    if b == 0x1B then (escape, false)
    else if b == 0x9C || b == 0x18 || b == 0x1A then (ground, false)
    else if b < 0x80 then (otherText, false)
    else anywhere b

end ControlState

/-- What is left of a text after its control sequences, read from a given state. -/
def stripFrom (state : ControlState) : Bytes → Bytes
  | [] => []
  | b :: rest =>
    let (next, kept) := state.step b
    if kept then b :: stripFrom next rest else stripFrom next rest

def stripControls (bs : Bytes) : Bytes :=
  stripFrom .ground bs

end TaskNet.Text
