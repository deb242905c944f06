/-
Numbers, truth values and dates in TOML.

These are written without quotes, as a run of letters, digits and the signs `+ - _ . :`.  The run
decides what it is: a truth value, an integer in one of four bases, a floating-point number, or a
date or a time or both.
-/
import LiquidStaking.Bounded
import LiquidStaking.Text.Digits
import LiquidStaking.Toml.Basic

namespace LiquidStaking
namespace Toml

def isRunChar (c : Char) : Bool :=
  c.isAlphanum || c == '+' || c == '-' || c == '_' || c == '.' || c == ':'

def splitRun (cs : List Char) : List Char × List Char := cs.span isRunChar

/-- The digits of a group without its underscores, each of which stands between two digits. -/
def ungroup (base : Nat) : List Char → Option (List Char)
  | [] => none
  | c :: r =>
    if (Text.digitValue? base c).isSome then
      match r with
      | [] => some [c]
      | d :: t =>
        if d = '_' then (ungroup base t).map (c :: ·) else (ungroup base (d :: t)).map (c :: ·)
    else
      none

def grouped? (base : Nat) (cs : List Char) : Option Nat :=
  (ungroup base cs).bind (Text.ofDigits? base)

def splitSign : List Char → Bool × List Char
  | '-' :: r => (true, r)
  | '+' :: r => (false, r)
  | cs => (false, cs)

/-- A group of decimal digits without a leading zero. -/
def plain? (cs : List Char) : Option Nat :=
  match cs with
  | '0' :: _ :: _ => none
  | _ => grouped? 10 cs

/-- An integer, if it fits in 64 bits with its sign. -/
def integer (i : Int) : Option Toml :=
  if -(Bounded.bound 63 : Int) ≤ i ∧ i < (Bounded.bound 63 : Int) then some (int i) else none

def decimal? (cs : List Char) : Option Toml :=
  let (negative, digits) := splitSign cs
  (plain? digits).bind (fun n => integer (if negative then -n else n))

/-- An integer, in base ten or after the mark of another base. -/
def integer? : List Char → Option Toml
  | '0' :: 'x' :: r => (grouped? 16 r).bind (fun n => integer n)
  | '0' :: 'o' :: r => (grouped? 8 r).bind (fun n => integer n)
  | '0' :: 'b' :: r => (grouped? 2 r).bind (fun n => integer n)
  | cs => decimal? cs

/-- The bound above which a number has no finite double: the largest double and half a step. -/
def doubleBound : Nat := Bounded.bound 1024 - Bounded.bound 970

/-- Whether `digits`, moved `exponent` places to the left, is less than the bound of doubles. -/
def isFinite (digits : Nat) (exponent : Int) : Bool :=
  let width := (Text.decimal digits).length + exponent
  if digits = 0 ∨ width < 300 then true
  else if 320 < width then false
  else if 0 ≤ exponent then digits * Nat.pow 10 exponent.toNat < doubleBound
  else digits < doubleBound * Nat.pow 10 (-exponent).toNat

def exponent? (cs : List Char) : Option Int :=
  let (negative, digits) := splitSign cs
  (grouped? 10 digits).map (fun n => if negative then -n else n)

def splitAt? (isMark : Char → Bool) (cs : List Char) : List Char × Option (List Char) :=
  match cs.span (fun c => !isMark c) with
  | (before, []) => (before, none)
  | (before, _ :: after) => (before, some after)

/-- A floating-point number with an exponent or a fraction.  One that is too large is refused,
one that is too small is zero. -/
def finite? (cs : List Char) : Option Toml := do
  let (negative, body) := splitSign cs
  let (mantissa, exponentText) := splitAt? (fun c => c == 'e' || c == 'E') body
  let (whole, fractionText) := splitAt? (fun c => c == '.') mantissa
  if exponentText.isNone && fractionText.isNone then
    none
  else
    let exponent ← exponentText.elim (some 0) exponent?
    let _ ← plain? whole
    let fraction ← fractionText.elim (some []) (ungroup 10)
    let digits ← Text.ofDigits? 10 (whole.filter (· ≠ '_') ++ fraction)
    if negative || isFinite digits (exponent - fraction.length) then some float else none

def float? (cs : List Char) : Option Toml :=
  match (splitSign cs).2 with
  | ['i', 'n', 'f'] | ['n', 'a', 'n'] => some float
  | _ => finite? cs

def twoDigits? (low high : Nat) (a b : Char) : Option Nat :=
  match Text.ofDigits? 10 [a, b] with
  | some n => if low ≤ n ∧ n ≤ high then some n else none
  | none => none

def daysOfMonth (year month : Nat) : Nat :=
  if month = 2 then
    if year % 4 = 0 ∧ (year % 100 ≠ 0 ∨ year % 400 = 0) then 29 else 28
  else if month = 4 ∨ month = 6 ∨ month = 9 ∨ month = 11 then
    30
  else
    31

def date? : List Char → Option (List Char)
  | y₁ :: y₂ :: y₃ :: y₄ :: '-' :: m₁ :: m₂ :: '-' :: d₁ :: d₂ :: r => do
    let year ← Text.ofDigits? 10 [y₁, y₂, y₃, y₄]
    let month ← twoDigits? 1 12 m₁ m₂
    let _ ← twoDigits? 1 (daysOfMonth year month) d₁ d₂
    return r
  | _ => none

def skipSecondFraction : List Char → Option (List Char)
  | '.' :: r =>
    match r.span Text.isDigit with
    | ([], _) => none
    | (_, r) => some r
  | r => some r

def time? : List Char → Option (List Char)
  | h₁ :: h₂ :: ':' :: m₁ :: m₂ :: ':' :: s₁ :: s₂ :: r => do
    let _ ← twoDigits? 0 23 h₁ h₂
    let _ ← twoDigits? 0 59 m₁ m₂
    let _ ← twoDigits? 0 60 s₁ s₂
    skipSecondFraction r
  | _ => none

def isOffset : List Char → Bool
  | [] | ['Z'] | ['z'] => true
  | [sign, h₁, h₂, ':', m₁, m₂] =>
    (sign == '+' || sign == '-') && (twoDigits? 0 23 h₁ h₂).isSome && (twoDigits? 0 59 m₁ m₂).isSome
  | _ => false

def isOffsetTime (cs : List Char) : Bool := (time? cs).any isOffset

/-- A date, a time, or a date and a time with a letter between them. -/
def dateTime? (cs : List Char) : Option Toml :=
  match date? cs with
  | some [] => some dateTime
  | some (c :: r) => if (c == 'T' || c == 't') && isOffsetTime r then some dateTime else none
  | none => if time? cs = some [] then some dateTime else none

def ofRun? (cs : List Char) : Option Toml :=
  if cs = ['t', 'r', 'u', 'e'] then some (bool true)
  else if cs = ['f', 'a', 'l', 's', 'e'] then some (bool false)
  else (dateTime? cs).or ((integer? cs).or (float? cs))

/-- A value written without quotes, and what follows it.  A date may be followed by a blank and a
time. -/
def readScalar (cs : List Char) : Option (Toml × List Char) :=
  let (run, rest) := splitRun cs
  match ofRun? run with
  | none => none
  | some v =>
    match date? run, rest with
    | some [], ' ' :: r =>
      let (run, after) := splitRun r
      if isOffsetTime run then some (v, after) else some (v, rest)
    | _, _ => some (v, rest)

end Toml
end LiquidStaking
