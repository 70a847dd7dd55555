/-!
Source text as bytes. Positions and lexemes of the language are counted in bytes, and a source need
not be valid UTF-8, so everything up to the tokens works on lists of bytes.
-/

namespace TaskNet.Text

/-- A text given by its bytes. -/
abbrev Bytes := List UInt8

def bytesOf (s : String) : Bytes :=
  s.toUTF8.toList

/-- The string with these bytes as code points. It is the text itself when all bytes are ASCII. -/
def ofAscii (bs : Bytes) : String :=
  String.ofList (bs.map fun b => Char.ofNat b.toNat)

def byte (c : Char) : UInt8 :=
  c.toNat.toUInt8

/-- Splits at every occurrence of `sep`; there is one piece more than there are separators. -/
def splitOn (sep : UInt8) : Bytes → List Bytes
  | [] => [[]]
  | b :: rest =>
    if b == sep then [] :: splitOn sep rest
    else
      match splitOn sep rest with
      | [] => [[b]]
      | piece :: more => (b :: piece) :: more

def spaces (n : Nat) : Bytes :=
  List.replicate n 32

end TaskNet.Text
