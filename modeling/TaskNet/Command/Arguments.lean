import TaskNet.Text.Bytes
import TaskNet.Text.Quoted

/-!
Arguments of a command: switches and operands in any order. A switch is written `--name`,
`--name=value` or by its letter in a group such as `-abc`; two dashes alone end the switches. What
follows `-test.` is meant for a test runner and passed over.
-/

namespace TaskNet.Command

structure Switch where
  name : String
  /-- The letter that may stand for it. -/
  letter : Option Char
  deriving DecidableEq, Repr

inductive ArgumentError where
  | badForm (argument : String)
  | unknownSwitch (name : String)
  | unknownLetter (byte : UInt8) (group : Text.Bytes)
  | badValue (switch : Switch) (value : String)
  | tooFew (wanted received : Nat)
  | wrongNumber (wanted received : Nat)
  deriving DecidableEq, Repr

def Switch.title (s : Switch) : String :=
  match s.letter with
  | some c => "-" ++ String.singleton c ++ ", --" ++ s.name
  | none => "--" ++ s.name

/-- A byte as a character between single quotes. A byte beyond ASCII is shown by the byte that
introduces it in UTF-8. -/
def quotedLetter (b : UInt8) : String :=
  let c := if b < 0x80 then Char.ofNat b.toNat else if b < 0xC0 then '\u00c2' else '\u00c3'
  let body :=
    if c == '\x27' || c == '\\' then ['\\', c]
    else if c == '"' then [c]
    else Text.quotedChar c
  String.ofList (['\x27'] ++ body ++ ['\x27'])

/-- Bytes as text; what is no text is left out. -/
def textOf (bs : Text.Bytes) : String :=
  (String.fromUTF8? (ByteArray.mk bs.toArray)).getD ""

def ArgumentError.message : ArgumentError → String
  | badForm argument => "bad flag syntax: " ++ argument
  | unknownSwitch name => "unknown flag: --" ++ name
  | unknownLetter byte group =>
    "unknown shorthand flag: " ++ quotedLetter byte ++ " in -" ++ textOf group
  | badValue switch value =>
    "invalid argument " ++ Text.quoted value ++ " for " ++ Text.quoted switch.title ++
    " flag: strconv.ParseBool: parsing " ++ Text.quoted value ++ ": invalid syntax"
  | tooFew wanted received =>
    "requires at least " ++ toString wanted ++ " arg(s), only received " ++ toString received
  | wrongNumber wanted received =>
    "accepts " ++ toString wanted ++ " arg(s), received " ++ toString received

def truth? (word : String) : Option Bool :=
  if ["1", "t", "T", "TRUE", "true", "True"].contains word then some true
  else if ["0", "f", "F", "FALSE", "false", "False"].contains word then some false
  else none

structure Arguments where
  /-- The settings of switches in order. -/
  switches : List (String × Bool)
  operands : List String
  deriving DecidableEq, Repr

namespace Arguments

def empty : Arguments := ⟨[], []⟩

/-- Whether a switch is on; the last setting counts. -/
def isOn (a : Arguments) (name : String) : Bool :=
  (a.switches.reverse.lookup name).getD false

def set (a : Arguments) (s : Switch) (word : String) : Except ArgumentError Arguments :=
  match truth? word with
  | some b => .ok { a with switches := a.switches ++ [(s.name, b)] }
  | none => .error (.badValue s word)

/-- Takes in `--name` or `--name=value`, without the dashes. -/
def takeLong (known : List Switch) (a : Arguments) (body : List Char) :
    Except ArgumentError Arguments :=
  if body.head? == some '-' || body.head? == some '=' then
    .error (.badForm ("--" ++ .ofList body))
  else
    let name := String.ofList (body.takeWhile (· != '='))
    match known.find? fun s => s.name == name with
    | none => .error (.unknownSwitch name)
    | some s =>
      match body.dropWhile (· != '=') with
      | [] => a.set s "true"
      | _ :: value => a.set s (.ofList value)

/-- What a group of letters starts with that is meant for a test runner. -/
def testPrefix : Text.Bytes := Text.bytesOf "test."

/-- Takes in a group of letters, without the dash. -/
def takeGroup (known : List Switch) (a : Arguments) : Text.Bytes → Except ArgumentError Arguments
  | [] => .ok a
  | b :: rest =>
    if testPrefix.isPrefixOf (b :: rest) then .ok a
    else match known.find? fun s => s.letter == some (Char.ofNat b.toNat) with
      | none => .error (.unknownLetter b (b :: rest))
      | some s =>
        match rest with
        | 61 :: c :: value => a.set s (textOf (c :: value))
        | _ => do
          let a ← a.set s "true"
          takeGroup known a rest

def takeAll (known : List Switch) (a : Arguments) : List String → Except ArgumentError Arguments
  | [] => .ok a
  | arg :: rest =>
    match arg.toList with
    | ['-', '-'] => .ok { a with operands := a.operands ++ rest }
    | '-' :: '-' :: body => do
      let a ← a.takeLong known body
      takeAll known a rest
    | '-' :: c :: body => do
      let a ← a.takeGroup known (Text.bytesOf (.ofList (c :: body)))
      takeAll known a rest
    | _ => takeAll known { a with operands := a.operands ++ [arg] } rest

def parse (known : List Switch) (args : List String) : Except ArgumentError Arguments :=
  takeAll known empty args

end Arguments

/-- The switch that asks for an explanation of a command. -/
def helpSwitch : Switch := ⟨"help", some 'h'⟩

/-- The switch for writing a tree out field by field. -/
def rawSwitch : Switch := ⟨"raw", none⟩

end TaskNet.Command
