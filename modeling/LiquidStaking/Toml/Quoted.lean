/-
Texts in TOML.

A text stands in double quotes, with escapes, or in single quotes, as it is.  Three quotes open a
text that may run over several lines; a line break right after them is dropped, and one or two
quotes may stand before the three that close it.
-/
import LiquidStaking.Text.Digits

namespace LiquidStaking
namespace Toml

def isLineChar (c : Char) : Bool :=
  c == '\t' || (0x20 ≤ c.toNat && c.toNat ≤ 0x7E) || 0x80 ≤ c.toNat

def isSpace (c : Char) : Bool := c == ' ' || c == '\t'

def skipSpace (cs : List Char) : List Char := cs.dropWhile isSpace

def lineBreak? : List Char → Option (List Char)
  | '\n' :: r => some r
  | '\r' :: '\n' :: r => some r
  | _ => none

def unescape? (c : Char) : Option Char :=
  if c = 'b' then some (Char.ofNat 8)
  else if c = 't' then some '\t'
  else if c = 'n' then some '\n'
  else if c = 'f' then some (Char.ofNat 12)
  else if c = 'r' then some '\r'
  else if c = '"' then some '"'
  else if c = '\\' then some '\\'
  else none

def scalar? (digits : List Char) : Option Char :=
  match Text.ofDigits? 16 digits with
  | some n => if n.isValidChar then some (Char.ofNat n) else none
  | none => none

def put (c : Char) (p : Option (List Char × List Char)) : Option (List Char × List Char) :=
  p.map (fun p => (c :: p.1, p.2))

/-- The quotes before the three that close a text over several lines, given what follows three. -/
def closing (quote : Char) : List Char → List Char × List Char
  | a :: b :: r =>
    if a = quote then
      if b = quote then ([quote, quote], r) else ([quote], b :: r)
    else
      ([], a :: b :: r)
  | [a] => if a = quote then ([quote], []) else ([], [a])
  | [] => ([], [])

/-- The text up to its closing double quote, over several lines if `multi`.  After a backslash at
the end of a line, `skip` passes over all blanks and line breaks. -/
def readBasic (multi skip : Bool) : List Char → Option (List Char × List Char)
  | [] => none
  | c :: r =>
    if c = '"' then
      if multi then
        match r with
        | a :: b :: t =>
          if a = '"' ∧ b = '"' then some (closing '"' t)
          else put '"' (readBasic multi false (a :: b :: t))
        | r => put '"' (readBasic multi false r)
      else
        some ([], r)
    else if c = '\\' then
      if multi && (lineBreak? (skipSpace r)).isSome then
        readBasic multi true r
      else
        match r with
        | 'u' :: a :: b :: c :: d :: t =>
          match scalar? [a, b, c, d] with
          | some x => put x (readBasic multi false t)
          | none => none
        | 'U' :: a :: b :: c :: d :: e :: f :: g :: h :: t =>
          match scalar? [a, b, c, d, e, f, g, h] with
          | some x => put x (readBasic multi false t)
          | none => none
        | e :: t =>
          match unescape? e with
          | some x => put x (readBasic multi false t)
          | none => none
        | [] => none
    else if c = '\n' then
      if skip then readBasic multi true r
      else if multi then put '\n' (readBasic multi false r)
      else none
    else if c = '\r' then
      match r with
      | d :: t => if d = '\n' ∧ multi then readBasic multi skip (d :: t) else none
      | [] => none
    else if skip && isSpace c then
      readBasic multi true r
    else if isLineChar c then
      put c (readBasic multi false r)
    else
      none

/-- The text up to its closing single quote, over several lines if `multi`. -/
def readLiteral (multi : Bool) : List Char → Option (List Char × List Char)
  | [] => none
  | c :: r =>
    if c = '\'' then
      if multi then
        match r with
        | a :: b :: t =>
          if a = '\'' ∧ b = '\'' then some (closing '\'' t)
          else put '\'' (readLiteral multi (a :: b :: t))
        | r => put '\'' (readLiteral multi r)
      else
        some ([], r)
    else if c = '\n' then
      if multi then put '\n' (readLiteral multi r) else none
    else if c = '\r' then
      match r with
      | d :: t => if d = '\n' ∧ multi then readLiteral multi (d :: t) else none
      | [] => none
    else if isLineChar c then
      put c (readLiteral multi r)
    else
      none

def dropLineBreak (cs : List Char) : List Char := (lineBreak? cs).getD cs

def readQuoted : List Char → Option (List Char × List Char)
  | '"' :: '"' :: '"' :: r => readBasic true false (dropLineBreak r)
  | '"' :: r => readBasic false false r
  | '\'' :: '\'' :: '\'' :: r => readLiteral true (dropLineBreak r)
  | '\'' :: r => readLiteral false r
  | _ => none

def isBareChar (c : Char) : Bool := c.isAlphanum || c == '-' || c == '_'

def readName : List Char → Option (List Char × List Char)
  | '"' :: r => readBasic false false r
  | '\'' :: r => readLiteral false r
  | cs =>
    match cs.span isBareChar with
    | ([], _) => none
    | (name, r) => some (name, r)

end Toml
end LiquidStaking
