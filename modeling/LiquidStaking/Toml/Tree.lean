/-
Tables under construction.

A document names its tables piece by piece, in headers and in dotted keys.  A table that only a
longer header has named so far may still get a header of its own; one that dotted keys have named may
get more of them; any other table is closed to both.  Plain values, inline tables among them, are
never extended.
-/
import LiquidStaking.Toml.Basic

namespace LiquidStaking
namespace Toml

inductive Origin
  /-- By a header of its own. -/
  | header
  /-- By the header of a table inside it. -/
  | implied
  /-- By a dotted key. -/
  | dotted
deriving DecidableEq

/-- A part of a document under construction. -/
inductive Node
  | value (v : Toml)
  | table (origin : Origin) (entries : List (String × Node))
  /-- A list of tables, each with a header of its own. -/
  | tables (items : List (List (String × Node)))

abbrev Entries := List (String × Node)

namespace Node

def put (es : Entries) (name : String) (n : Node) : Entries :=
  if es.any (fun e => e.1 == name) then
    es.map (fun e => if e.1 == name then (name, n) else e)
  else
    es ++ [(name, n)]

def changeLast (f : Entries → Option Entries) (items : List Entries) : Option (List Entries) :=
  match items.getLast? with
  | some last => (f last).map (fun last => items.dropLast ++ [last])
  | none => none

/-- Add a value under the last name of a dotted key.  `origin` is how the table came to be. -/
def addValue (origin : Origin) (top : Bool) (name : String) (v : Toml) (es : Entries) :
    Option Entries :=
  if !top && origin != .dotted then none
  else if es.any (fun e => e.1 == name) then none
  else some (es ++ [(name, .value v)])

def addDotted (origin : Origin) (top : Bool) (name : String) (v : Toml) :
    List String → Entries → Option Entries
  | [], es => addValue origin top name v es
  | step :: path, es =>
    match es.lookup step with
    | none => (addDotted .dotted false name v path []).map (fun sub => put es step (.table .dotted sub))
    | some (.value _) => none
    | some (.table .header _) => none
    | some (.table origin sub) =>
      (addDotted origin false name v path sub).map (fun sub => put es step (.table origin sub))
    | some (.tables items) =>
      (changeLast (addDotted .header false name v path) items).map
        (fun items => put es step (.tables items))

/-- Change the table that a header's path leads to, which may have to be made. -/
def changeAt (f : Entries → Option Entries) : List String → Entries → Option Entries
  | [], es => f es
  | step :: path, es =>
    match es.lookup step with
    | none => (changeAt f path []).map (fun sub => put es step (.table .implied sub))
    | some (.value _) => none
    | some (.table origin sub) =>
      (changeAt f path sub).map (fun sub => put es step (.table origin sub))
    | some (.tables items) =>
      (changeLast (changeAt f path) items).map (fun items => put es step (.tables items))

mutual

def finish : Node → Toml
  | value v => v
  | table _ entries => .table (finishEntries entries)
  | tables items => .list (finishTables items)

def finishEntries : List (String × Node) → List (String × Toml)
  | [] => []
  | (name, n) :: es => (name, finish n) :: finishEntries es

def finishTables : List (List (String × Node)) → List Toml
  | [] => []
  | es :: items => .table (finishEntries es) :: finishTables items

end

end Node

structure KeyValue where
  /-- All names of the key but the last. -/
  path : List String
  name : String
  value : Toml

namespace KeyValue

def addTo (es : Entries) (kv : KeyValue) : Option Entries :=
  Node.addDotted .header true kv.name kv.value kv.path es

def toTable? (kvs : List KeyValue) : Option Toml :=
  (kvs.foldlM addTo []).map (fun es => .table (Node.finishEntries es))

end KeyValue

structure Section where
  /-- Whether the header opens another table of a list. -/
  isItem : Bool
  path : List String
  name : String
  values : List KeyValue

namespace Section

def addHere (s : Section) (es : Entries) : Option Entries :=
  match es.lookup s.name, s.isItem with
  | none, true => do return es ++ [(s.name, .tables [← s.values.foldlM KeyValue.addTo []])]
  | none, false => do return es ++ [(s.name, .table .header (← s.values.foldlM KeyValue.addTo []))]
  | some (.tables items), true => do
    return Node.put es s.name (.tables (items ++ [← s.values.foldlM KeyValue.addTo []]))
  | some (.table .implied sub), false => do
    return Node.put es s.name (.table .header (← s.values.foldlM KeyValue.addTo sub))
  | _, _ => none

def addTo (es : Entries) (s : Section) : Option Entries := Node.changeAt s.addHere s.path es

end Section

def ofSections? (values : List KeyValue) (sections : List Section) : Option Toml := do
  let es ← values.foldlM KeyValue.addTo []
  let es ← sections.foldlM Section.addTo es
  return .table (Node.finishEntries es)

end Toml
end LiquidStaking
