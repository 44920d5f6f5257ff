/-!
# TOML tables

The tree that a TOML document stands for, and how its lines grow it. A table
remembers where it came from, since that decides who may still add to it:
headers may complete a table that a longer header implied, dotted keys may add
to what dotted keys made, and what is written between brackets is closed.
-/

namespace Munch.Toml

abbrev Key := String

inductive Origin
  /-- A header of its own. -/
  | header
  /-- A longer header. -/
  | implied
  | dotted
  | braces
  deriving DecidableEq

inductive Node
  | string (s : List Char)
  | integer (n : Int)
  | boolean (b : Bool)
  /-- A float, a date or a time. -/
  | other
  /-- Made of array headers, which may add to it, if `growing`. -/
  | array (growing : Bool) (items : List Node)
  | table (origin : Origin) (entries : List (Key × Node))

abbrev Entries := List (Key × Node)

namespace Entries

def set (entries : Entries) (k : Key) (v : Node) : Entries :=
  match entries with
  | [] => [(k, v)]
  | (l, w) :: rest => if l = k then (k, v) :: rest else (l, w) :: set rest k v

/-- Changes the table at the end of a path by `f`, and makes tables that are not
there. A path of headers enters every open table, and of an array of tables the
last; dotted keys do not enter a table that has a header. -/
def alter (made : Origin) (f : Origin → Entries → Option Entries) :
    List Key → Origin → Entries → Option Entries
  | [], origin, entries => f origin entries
  | k :: path, _, entries =>
    match entries.lookup k with
    | none => do return entries.set k (.table made (← alter made f path made []))
    | some (.table origin inner) =>
      if origin = .braces ∨ (made = .dotted ∧ origin = .header) then none
      else do return entries.set k (.table origin (← alter made f path origin inner))
    | some (.array true items) =>
      match items.getLast? with
      | some (.table origin inner) => do
        let inner ← alter made f path origin inner
        return entries.set k (.array true (items.dropLast ++ [.table origin inner]))
      | _ => none
    | some _ => none

/-- Adds a value under a dotted key, which may end only in a table of dotted keys. -/
def add (path : List Key) (k : Key) (v : Node) : Origin → Entries → Option Entries :=
  alter .dotted
    (fun origin entries =>
      if (path ≠ [] ∧ origin ≠ .dotted) ∨ (entries.lookup k).isSome then none
      else some (entries.set k v))
    path

/-- The table of a header, which may have been implied but not defined. -/
def openTable (path : List Key) (k : Key) : Entries → Option Entries :=
  alter .implied
    (fun _ entries =>
      match entries.lookup k with
      | none => some (entries.set k (.table .header []))
      | some (.table .implied inner) => some (entries.set k (.table .header inner))
      | some _ => none)
    path .header

def openElement (path : List Key) (k : Key) : Entries → Option Entries :=
  alter .implied
    (fun _ entries =>
      match entries.lookup k with
      | none => some (entries.set k (.array true [.table .header []]))
      | some (.array true items) =>
        some (entries.set k (.array true (items ++ [.table .header []])))
      | some _ => none)
    path .header

end Entries

end Munch.Toml
