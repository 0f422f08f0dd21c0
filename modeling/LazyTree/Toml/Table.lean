import LazyTree.Toml.Value

/-!
Adding to tables. A table may be extended by the means that made it: headers lead through any table
but an inline one, dotted keys only through tables that were never opened.
-/
namespace LazyTree.Toml

/-- Changes the table a header path leads to, inside the last element where it leads through an
array of tables. Tables missing on the way are implied. -/
def underHeader (f : Entries → Option Entries) : List String → Entries → Option Entries
  | [], entries => f entries
  | key :: path, entries =>
    match entries.lookup key with
    | none => (underHeader f path []).map (fun sub => append key (.table .implied sub) entries)
    | some (.table .inlined _) => none
    | some (.table style sub) =>
      (underHeader f path sub).map (fun sub' => replace key (.table style sub') entries)
    | some (.tables elements) =>
      match elements.getLast? with
      | none => none
      | some last =>
        (underHeader f path last).map (fun last' =>
          replace key (.tables (elements.dropLast ++ [last'])) entries)
    | some _ => none

/-- Opens a table for assignments, once. -/
def openIn (key : String) (entries : Entries) : Option Entries :=
  match entries.lookup key with
  | none => some (append key (.table .opened []) entries)
  | some (.table .implied sub) => some (replace key (.table .opened sub) entries)
  | some _ => none

def addElementIn (key : String) (entries : Entries) : Option Entries :=
  match entries.lookup key with
  | none => some (append key (.tables [[]]) entries)
  | some (.tables elements) => some (replace key (.tables (elements ++ [[]])) entries)
  | some _ => none

/-- Adds a value under a dotted key. `dotted` says whether a dotted key made the table at hand; only
such a table takes the last part of a longer key, and only another takes a key of one part. -/
def addDotted (dotted : Bool) (value : Toml) : List String → Bool → Entries → Option Entries
  | [], _, _ => none
  | [key], isStart, entries =>
    if dotted = isStart then none
    else
      match entries.lookup key with
      | none => some (append key value entries)
      | some _ => none
  | key :: path, _, entries =>
    match entries.lookup key with
    | none =>
      (addDotted true value path false []).map (fun sub =>
        append key (.table .dotted sub) entries)
    | some (.table .implied sub) =>
      (addDotted false value path false sub).map (fun sub' =>
        replace key (.table .implied sub') entries)
    | some (.table .dotted sub) =>
      (addDotted true value path false sub).map (fun sub' =>
        replace key (.table .dotted sub') entries)
    | some (.tables elements) =>
      match elements.getLast? with
      | none => none
      | some last =>
        (addDotted false value path false last).map (fun last' =>
          replace key (.tables (elements.dropLast ++ [last'])) entries)
    | some _ => none

/-- Assigns a value to a key in a table. -/
def addIn (path : List String) (value : Toml) (entries : Entries) : Option Entries :=
  addDotted false value path true entries

def addAll : List (List String × Toml) → Entries → Option Entries
  | [], entries => some entries
  | (path, value) :: rest, entries => (addIn path value entries).bind (addAll rest)

end LazyTree.Toml
