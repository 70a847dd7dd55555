/-!
Names without regard to case. Only names of ASCII letters are looked up this way, so that the
letters that fold to an ASCII letter are all that matters: the capitals, the long s and the sign of
the kelvin.
-/

namespace TaskNet.Text

/-- The letter that stands for all cases of a letter. -/
def foldChar (c : Char) : Char :=
  if c == '\u017f' then 's'
  else if c == '\u212a' then 'k'
  else c.toLower

/-- Whether two names differ in case only. -/
def equalFold (a b : String) : Bool :=
  a.toList.map foldChar == b.toList.map foldChar

end TaskNet.Text
