import Munch.Toml.Node
import Munch.Toml.Numbers
import Munch.Toml.Strings

/-!
# TOML documents

A document is read line by line into the entries of its root table. Every line
adds to the table of the header before it; whatever breaks the rules of TOML
leaves the document without a meaning.
-/

namespace Munch.Toml

/-! ## Values -/

/-- The values of an array behind its bracket, each read by `value?`. A comma may
follow the last. -/
def items? (value? : List Char → Option (Node × List Char)) :
    Nat → List Char → Option (List Node × List Char)
  | 0, _ => none
  | fuel + 1, cs =>
    match skipLines false cs with
    | ']' :: r => some ([], r)
    | cs => do
      let (v, r) ← value? cs
      match skipLines false r with
      | ']' :: r => return ([v], r)
      | ',' :: r => do
        let (vs, r) ← items? value? fuel r
        return (v :: vs, r)
      | _ => none

def pair? (value? : List Char → Option (Node × List Char)) (cs : List Char) :
    Option ((List Key × Node) × List Char) := do
  let (path, r) ← key? (limit - 1) cs
  let r ← word? ['='] r
  let (v, r) ← value? (skipBlanks r)
  return ((path, v), r)

def addPair (p : List Key × Node) (origin : Origin) (entries : Entries) : Option Entries := do
  Entries.add p.1.dropLast (← p.1.getLast?) p.2 origin entries

def pairs? (value? : List Char → Option (Node × List Char)) (entries : Entries) :
    Nat → List Char → Option (Entries × List Char)
  | 0, _ => none
  | fuel + 1, cs => do
    let (p, r) ← pair? value? cs
    let entries ← addPair p .braces entries
    match skipBlanks r with
    | '\x7d' :: r => return (entries, r)
    | ',' :: r => pairs? value? entries fuel r
    | _ => none

def scalar? (cs : List Char) : Option (Node × List Char) :=
  match cs with
  | 't' :: r => (word? ['r', 'u', 'e'] r).map fun r => (.boolean true, r)
  | 'f' :: r => (word? ['a', 'l', 's', 'e'] r).map fun r => (.boolean false, r)
  | '"' :: _ | '\x27' :: _ => (string? cs).map fun (s, r) => (.string s, r)
  | _ =>
    match moment? cs, float? cs with
    | some r, _ => some (.other, r)
    | _, some r => some (.other, r)
    | none, none => (integer? cs).map fun (n, r) => (.integer n, r)

/-- A value with at most so many brackets and braces around one another. -/
def value? : Nat → List Char → Option (Node × List Char)
  | 0, cs => scalar? cs
  | depth + 1, cs =>
    match cs with
    | '[' :: r => (items? (value? depth) (r.length + 1) r).map fun (vs, r) => (.array false vs, r)
    | '\x7b' :: r =>
      match skipBlanks r with
      | '\x7d' :: r => some (.table .braces [], r)
      | _ =>
        (pairs? (value? depth) [] (r.length + 1) r).map fun (es, r) => (.table .braces es, r)
    | _ => scalar? cs

/-! ## Lines -/

structure Draft where
  root : Entries
  header : List Key

/-- A header's key up to the words `close`, at the end of its line. -/
def header? (close cs : List Char) : Option (List Key × List Char) := do
  let (path, r) ← key? (limit - 1) cs
  let r ← word? close r
  return (path, ← lineEnd? r)

/-- One line with something on it. -/
def line? (d : Draft) (cs : List Char) : Option (Draft × List Char) :=
  match cs with
  | '[' :: '[' :: r => do
    let (path, r) ← header? [']', ']'] r
    return (⟨← Entries.openElement path.dropLast (← path.getLast?) d.root, path⟩, r)
  | '[' :: r => do
    let (path, r) ← header? [']'] r
    return (⟨← Entries.openTable path.dropLast (← path.getLast?) d.root, path⟩, r)
  | _ => do
    let (p, r) ← pair? (value? (limit - 1)) cs
    let root ← Entries.alter .implied (addPair p) d.header .header d.root
    return (⟨root, d.header⟩, ← lineEnd? r)

/-- The lines of a document, at most so many. -/
def lines? : Nat → Draft → List Char → Option Entries
  | 0, _, _ => none
  | fuel + 1, d, cs =>
    match skipBlanks cs with
    | [] => some d.root
    | c :: r =>
      if c = '#' ∨ c = '\n' ∨ c = '\r' then do lines? fuel d (← lineEnd? (c :: r))
      else do
        let (d, r) ← line? d (c :: r)
        lines? fuel d r

/-- A byte order mark may stand in front. -/
def document? (cs : List Char) : Option Entries :=
  let cs := match cs with
    | '\uFEFF' :: r => r
    | cs => cs
  lines? (cs.length + 1) ⟨[], []⟩ cs

end Munch.Toml
