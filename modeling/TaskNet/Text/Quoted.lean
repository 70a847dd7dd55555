import TaskNet.Text.Printable

/-!
Quoted text. A quoted text stands between double quotes on one line; a quote and a backslash are
escaped, printable characters stand for themselves, and every other character is written by its
short escape or by its code point in hexadecimal.
-/

namespace TaskNet.Text

def hexDigit (n : Nat) : Char :=
  if n < 10 then Char.ofNat (48 + n) else Char.ofNat (87 + n)

/-- The last `width` hexadecimal digits of `n`, highest first. -/
def hexDigits (width n : Nat) : List Char :=
  match width with
  | 0 => []
  | w + 1 => hexDigits w (n / 16) ++ [hexDigit (n % 16)]

def escaped (c : Char) : List Char :=
  match c.toNat with
  | 7 => ['\\', 'a']
  | 8 => ['\\', 'b']
  | 12 => ['\\', 'f']
  | 10 => ['\\', 'n']
  | 13 => ['\\', 'r']
  | 9 => ['\\', 't']
  | 11 => ['\\', 'v']
  | n =>
    if n < 0x20 || n == 0x7F then ['\\', 'x'] ++ hexDigits 2 n
    else if n < 0x10000 then ['\\', 'u'] ++ hexDigits 4 n
    else ['\\', 'U'] ++ hexDigits 8 n

def quotedChar (c : Char) : List Char :=
  if c == '"' || c == '\\' then ['\\', c]
  else if isPrintable c then [c]
  else escaped c

def quoted (s : String) : String :=
  String.ofList (['"'] ++ s.toList.flatMap quotedChar ++ ['"'])

/-- A single byte between double quotes. A byte outside ASCII is no character of its own and is
written in hexadecimal. -/
def quotedByte (b : UInt8) : String :=
  if b.toNat < 0x80 then quoted (String.singleton (Char.ofNat b.toNat))
  else String.ofList (['"', '\\', 'x'] ++ hexDigits 2 b.toNat ++ ['"'])

end TaskNet.Text
