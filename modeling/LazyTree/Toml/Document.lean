import LazyTree.Toml.Expression

/-!
A TOML document read as one table.
-/
namespace LazyTree.Toml

/-- A document so far: its table, and the path of the header that assignments belong to. -/
structure Draft where
  entries : Entries
  header : List String

namespace Draft

def empty : Draft := ⟨[], []⟩

def withHeader (draft : Draft) (path : List String)
    (act : String → Entries → Option Entries) : Option Draft :=
  match path.getLast? with
  | none => none
  | some key =>
    (underHeader (act key) path.dropLast draft.entries).map (fun entries => ⟨entries, path⟩)

def take (draft : Draft) : Expression → Option Draft
  | .openTable path => draft.withHeader path openIn
  | .addElement path => draft.withHeader path addElementIn
  | .assign path value =>
    (underHeader (addIn path value) draft.header draft.entries).map (fun entries =>
      { draft with entries := entries })

def takeAll : List Expression → Draft → Option Draft
  | [], draft => some draft
  | first :: rest, draft => (draft.take first).bind (takeAll rest)

end Draft

/-- A byte order mark at the very start does not count. -/
def dropMark : List Char → List Char
  | '\ufeff' :: rest => rest
  | input => input

def parse? (text : String) : Option Entries :=
  let input := dropMark text.toList
  ((expressions (input.length + 1) input).bind (fun es => Draft.empty.takeAll es)).map
    Draft.entries

end LazyTree.Toml
