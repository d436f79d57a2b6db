import SoftTyping.Text.Casing

/-!
# Lower case

`lowerCase` is the full lower-casing of Unicode, without a locale: each upper-case letter is replaced by its lower-case
form, a capital sigma by the final form when it ends a word, and the dotted capital I by two code points. Names that
are compared without regard to case are compared by their lower case.
-/

namespace SoftTyping.Text

/-- The lower-case form of a letter that has one of a single code point, and any other character itself. -/
def lowerChar (c : Char) : Char :=
  if c.toNat < 128 then c.toLower
  else match lowerCode? c.toNat with
    | some code => Char.ofNat code
    | none => c

/-- Whether the first character that is not passed over is a letter with a case. -/
def meetsCased (cs : List Char) : Bool :=
  match cs.dropWhile (fun c => caseIgnorable.contains c.toNat) with
  | c :: _ => cased.contains c.toNat
  | [] => false

/-- The lower case of `c` between `before`, nearest character first, and `after`. A sigma is final when a letter comes
before it and none after it. -/
def lowerCharBetween (before after : List Char) (c : Char) : List Char :=
  if c = 'Σ' then [if meetsCased before && !meetsCased after then 'ς' else 'σ']
  else if c = 'İ' then ['i', '\u0307']
  else [lowerChar c]

/-- The lower case of a text that follows `before`, nearest character first. -/
def lowerAfter (before : List Char) : List Char → List Char
  | [] => []
  | c :: rest => lowerCharBetween before rest c ++ lowerAfter (c :: before) rest

/-- The lower case of a text. -/
def lowerCase (s : String) : String :=
  String.ofList (lowerAfter [] s.toList)

end SoftTyping.Text
