/-
Reading JSON.

A text is read in one pass over its characters.  Every function answers what it read and the
characters that are left.  Names and texts may hold escapes that leave one half of a surrogate pair
alone; such a text is well formed and denotes nothing, so that it can be passed over.
-/
import LiquidStaking.Json.Basic
import LiquidStaking.Text.Digits

namespace LiquidStaking
namespace Json

def isBlank (c : Char) : Bool := c == ' ' || c == '\n' || c == '\t' || c == '\r'

def skipBlank (cs : List Char) : List Char := cs.dropWhile isBlank

/-- A part of a text: a character, or a code unit that an escape gives. -/
inductive Piece
  | char (c : Char)
  | code (n : Nat)

def unescape? (c : Char) : Option Char :=
  if c = '"' then some '"'
  else if c = '\\' then some '\\'
  else if c = '/' then some '/'
  else if c = 'b' then some (Char.ofNat 8)
  else if c = 'f' then some (Char.ofNat 12)
  else if c = 'n' then some '\n'
  else if c = 'r' then some '\r'
  else if c = 't' then some '\t'
  else none

def readPieces : List Char → Option (List Piece × List Char)
  | [] => none
  | c :: r =>
    if c = '"' then
      some ([], r)
    else if c = '\\' then
      match r with
      | [] => none
      | e :: r =>
        if e = 'u' then
          match r with
          | d₁ :: d₂ :: d₃ :: d₄ :: r =>
            match Text.ofDigits? 16 [d₁, d₂, d₃, d₄], readPieces r with
            | some n, some (ps, r) => some (.code n :: ps, r)
            | _, _ => none
          | _ => none
        else
          match unescape? e, readPieces r with
          | some c, some (ps, r) => some (.char c :: ps, r)
          | _, _ => none
    else if c.toNat < 32 then
      none
    else
      match readPieces r with
      | some (ps, r) => some (.char c :: ps, r)
      | none => none

/-- Whether a code unit is the first half of a surrogate pair. -/
def isHighHalf (n : Nat) : Bool := 0xD800 ≤ n && n < 0xDC00

def isLowHalf (n : Nat) : Bool := 0xDC00 ≤ n && n < 0xE000

/-- The text that pieces denote, if no half of a surrogate pair stands alone. -/
def joinPieces : List Piece → Option (List Char)
  | [] => some []
  | .char c :: r => (joinPieces r).map (c :: ·)
  | .code n :: r =>
    if isHighHalf n then
      match r with
      | .code m :: r =>
        if isLowHalf m then
          (joinPieces r).map (Char.ofNat (0x10000 + (n - 0xD800) * 0x400 + (m - 0xDC00)) :: ·)
        else
          none
      | _ => none
    else if isLowHalf n then
      none
    else
      (joinPieces r).map (Char.ofNat n :: ·)

/-- A text after its opening quote; `none` stands for one that denotes nothing. -/
def readText (cs : List Char) : Option (Option String × List Char) :=
  match readPieces cs with
  | some (ps, r) => some ((joinPieces ps).map String.ofList, r)
  | none => none

def readDigits (cs : List Char) : List Char × List Char := cs.span Text.isDigit

/-- The characters after at least one digit. -/
def skipDigits (cs : List Char) : Option (List Char) :=
  match readDigits cs with
  | ([], _) => none
  | (_ :: _, r) => some r

def skipExponent : List Char → Option (List Char)
  | [] => some []
  | c :: r =>
    if c = 'e' ∨ c = 'E' then
      match r with
      | [] => none
      | s :: t => if s = '+' ∨ s = '-' then skipDigits t else skipDigits (s :: t)
    else
      some (c :: r)

def skipFraction : List Char → Option (List Char)
  | [] => some []
  | c :: r =>
    if c = '.' then
      match skipDigits r with
      | some r => skipExponent r
      | none => none
    else
      skipExponent (c :: r)

def startsFraction : List Char → Bool
  | [] => false
  | c :: _ => c == '.' || c == 'e' || c == 'E'

/-- A number without its sign.  Leading zeros are refused. -/
def readMagnitude (negative : Bool) (cs : List Char) : Option (Json × List Char) :=
  match readDigits cs with
  | ([], _) => none
  | (d :: ds, r) =>
    if d = '0' ∧ ds ≠ [] then
      none
    else if startsFraction r then
      (skipFraction r).map (fun r => (other, r))
    else
      (Text.ofDigits? 10 (d :: ds)).map (fun n => (int negative n, r))

def readNumber : List Char → Option (Json × List Char)
  | [] => none
  | c :: r => if c = '-' then readMagnitude true r else readMagnitude false (c :: r)

def readWord (word : List Char) (j : Json) (cs : List Char) : Option (Json × List Char) :=
  if word.isPrefixOf cs then some (j, cs.drop word.length) else none

/-- The record of fields whose names are known, or `other` if one of them denotes nothing. -/
def ofFields (fields : List (Option String × Json)) : Json :=
  match fields.mapM (fun f => f.1.map (fun name => (name, f.2))) with
  | some fields => record fields
  | none => other

mutual

/-- A value.  Each step takes one unit of `fuel`. -/
def readValue : Nat → List Char → Option (Json × List Char)
  | 0, _ => none
  | fuel + 1, cs =>
    match skipBlank cs with
    | [] => none
    | c :: r =>
      if c = '"' then
        match readText r with
        | some (some s, r) => some (text s, r)
        | some (none, r) => some (other, r)
        | none => none
      else if c = '[' then
        match skipBlank r with
        | [] => none
        | d :: r =>
          if d = ']' then
            some (list [], r)
          else
            (readItems fuel (d :: r)).map (fun p => (list p.1, p.2))
      else if c = '\x7b' then
        match skipBlank r with
        | [] => none
        | d :: r =>
          if d = '\x7d' then
            some (record [], r)
          else
            (readFields fuel (d :: r)).map (fun p => (ofFields p.1, p.2))
      else if c = 'n' then
        readWord ['u', 'l', 'l'] null r
      else if c = 't' then
        readWord ['r', 'u', 'e'] (bool true) r
      else if c = 'f' then
        readWord ['a', 'l', 's', 'e'] (bool false) r
      else
        readNumber (c :: r)

/-- The items of a list up to its closing bracket; there is at least one. -/
def readItems : Nat → List Char → Option (List Json × List Char)
  | 0, _ => none
  | fuel + 1, cs =>
    match readValue fuel cs with
    | none => none
    | some (x, r) =>
      match skipBlank r with
      | [] => none
      | c :: r =>
        if c = ',' then
          (readItems fuel r).map (fun p => (x :: p.1, p.2))
        else if c = ']' then
          some ([x], r)
        else
          none

def readField : Nat → List Char → Option ((Option String × Json) × List Char)
  | 0, _ => none
  | fuel + 1, cs =>
    match skipBlank cs with
    | [] => none
    | c :: r =>
      if c = '"' then
        match readText r with
        | none => none
        | some (name, r) =>
          match skipBlank r with
          | [] => none
          | d :: r =>
            if d = ':' then
              (readValue fuel r).map (fun p => ((name, p.1), p.2))
            else
              none
      else
        none

def readFields : Nat → List Char → Option (List (Option String × Json) × List Char)
  | 0, _ => none
  | fuel + 1, cs =>
    match readField fuel cs with
    | none => none
    | some (f, r) =>
      match skipBlank r with
      | [] => none
      | c :: r =>
        if c = ',' then
          (readFields fuel r).map (fun p => (f :: p.1, p.2))
        else if c = '\x7d' then
          some ([f], r)
        else
          none

end

/-- The value that a list of characters denotes, with nothing but blanks around it.  A value of `n`
characters takes fewer than `3 * n + 3` steps. -/
def ofChars? (cs : List Char) : Option Json :=
  match readValue (3 * cs.length + 3) cs with
  | some (j, r) => if (skipBlank r).isEmpty then some j else none
  | none => none

end Json
end LiquidStaking
