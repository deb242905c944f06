/-
Reading TOML.

Every function answers what it read and the characters that are left.  Lists, inline tables and
dotted keys are refused from a depth of `maxDepth` on.
-/
import LiquidStaking.Toml.Quoted
import LiquidStaking.Toml.Scalar
import LiquidStaking.Toml.Tree

namespace LiquidStaking
namespace Toml

/-- The depth from which nesting is refused. -/
def maxDepth : Nat := 80

/-- The characters after blanks, line breaks and comments, as they may stand inside a list. -/
def skipFiller (inComment : Bool) : List Char → Option (List Char)
  | [] => some []
  | c :: r =>
    if c = '\n' then
      skipFiller false r
    else if c = '\r' then
      match r with
      | d :: t => if d = '\n' then skipFiller false (d :: t) else none
      | [] => none
    else if inComment then
      if isLineChar c then skipFiller true r else none
    else if isSpace c then
      skipFiller false r
    else if c = '#' then
      skipFiller true r
    else
      some (c :: r)

def endLine (cs : List Char) : Option (List Char) :=
  match skipSpace cs with
  | [] => some []
  | c :: r =>
    match if c = '#' then r.dropWhile isLineChar else c :: r with
    | [] => some []
    | rest => lineBreak? rest

def readNames : Nat → List Char → Option (List String × List Char)
  | 0, _ => none
  | fuel + 1, cs =>
    match readName (skipSpace cs) with
    | none => none
    | some (name, r) =>
      match skipSpace r with
      | '.' :: r => (readNames fuel r).map (fun p => (String.ofList name :: p.1, p.2))
      | r => some ([String.ofList name], r)

/-- A key: the names before the last one, and the last one. -/
def readKey (cs : List Char) : Option ((List String × String) × List Char) :=
  match readNames (cs.length + 1) cs with
  | none => none
  | some (names, r) =>
    if maxDepth ≤ names.length then
      none
    else
      names.getLast?.map (fun name => ((names.dropLast, name), r))

mutual

/-- A value inside `depth` lists and inline tables.  Each step takes one unit of `fuel`. -/
def readValue (depth : Nat) : Nat → List Char → Option (Toml × List Char)
  | 0, _ => none
  | _ + 1, [] => none
  | fuel + 1, c :: r =>
    if c = '"' ∨ c = '\'' then
      (readQuoted (c :: r)).map (fun p => (text (String.ofList p.1), p.2))
    else if c = '[' then
      if maxDepth ≤ depth + 1 then
        none
      else
        (readItems (depth + 1) fuel r).map (fun p => (list p.1, p.2))
    else if c = '\x7b' then
      if maxDepth ≤ depth + 1 then
        none
      else
        match skipSpace r with
        | '\x7d' :: r => some (table [], r)
        | r =>
          match readPairs (depth + 1) fuel r with
          | none => none
          | some (kvs, r) => (KeyValue.toTable? kvs).map (fun t => (t, r))
    else
      readScalar (c :: r)

/-- The items of a list up to its closing bracket; a comma may stand after the last one. -/
def readItems (depth : Nat) : Nat → List Char → Option (List Toml × List Char)
  | 0, _ => none
  | fuel + 1, cs =>
    match skipFiller false cs with
    | none => none
    | some (']' :: r) => some ([], r)
    | some cs =>
      match readValue depth fuel cs with
      | none => none
      | some (v, r) =>
        match skipFiller false r with
        | some (',' :: r) => (readItems depth fuel r).map (fun p => (v :: p.1, p.2))
        | some (']' :: r) => some ([v], r)
        | _ => none

def readPair (depth : Nat) : Nat → List Char → Option (KeyValue × List Char)
  | 0, _ => none
  | fuel + 1, cs =>
    match readKey cs with
    | some ((path, name), '=' :: r) =>
      (readValue depth fuel (skipSpace r)).map (fun p => (⟨path, name, p.1⟩, p.2))
    | _ => none

/-- The values of an inline table up to its closing brace; there is at least one. -/
def readPairs (depth : Nat) : Nat → List Char → Option (List KeyValue × List Char)
  | 0, _ => none
  | fuel + 1, cs =>
    match readPair depth fuel cs with
    | none => none
    | some (kv, r) =>
      match skipSpace r with
      | ',' :: r => (readPairs depth fuel r).map (fun p => (kv :: p.1, p.2))
      | '\x7d' :: r => some ([kv], r)
      | _ => none

end

def steps (cs : List Char) : Nat := 3 * cs.length + 3

inductive Line
  | pair (kv : KeyValue)
  | header (isItem : Bool) (path : List String) (name : String)

def readHeader : List Char → Option (Line × List Char)
  | '[' :: '[' :: r => do
    match ← readKey r with
    | ((path, name), ']' :: ']' :: r) => return (.header true path name, ← endLine r)
    | _ => none
  | '[' :: r => do
    match ← readKey r with
    | ((path, name), ']' :: r) => return (.header false path name, ← endLine r)
    | _ => none
  | _ => none

def readLine (cs : List Char) : Option (Line × List Char) :=
  match cs with
  | '[' :: _ => readHeader cs
  | _ => do
    let (kv, r) ← readPair 0 (steps cs) cs
    return (.pair kv, ← endLine r)

def readLines : Nat → List Char → Option (List Line)
  | 0, _ => none
  | fuel + 1, cs =>
    match skipFiller false cs with
    | none => none
    | some [] => some []
    | some cs =>
      match readLine cs with
      | none => none
      | some (line, r) => (readLines fuel r).map (line :: ·)

/-- The values before the first header, and the sections. -/
def ofLines : List Line → List KeyValue × List Section
  | [] => ([], [])
  | .pair kv :: ls => let (kvs, ss) := ofLines ls; (kv :: kvs, ss)
  | .header isItem path name :: ls =>
    let (kvs, ss) := ofLines ls
    ([], ⟨isItem, path, name, kvs⟩ :: ss)

def dropMark : List Char → List Char
  | '\uFEFF' :: r => r
  | cs => cs

def ofText? (s : String) : Option Toml := do
  let cs := dropMark s.toList
  let lines ← readLines (cs.length + 1) cs
  let (kvs, sections) := ofLines lines
  ofSections? kvs sections

end Toml
end LiquidStaking
