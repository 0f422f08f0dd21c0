/-!
Values of a TOML document.
-/
namespace LazyTree

/-- How a table came about, which decides what may still be added to it. -/
inductive TableStyle where
  /-- Only named on the way to another table. -/
  | implied
  /-- Made by a dotted key. -/
  | dotted
  /-- Opened by its own header. -/
  | opened
  /-- Written as a value; complete. -/
  | inlined
deriving DecidableEq, Repr, Inhabited

inductive Toml where
  | string (text : String)
  | integer (value : Int)
  | float
  | boolean (value : Bool)
  | datetime
  | array (elements : List Toml)
  | table (style : TableStyle) (entries : List (String × Toml))
  /-- The elements of an array of tables. -/
  | tables (elements : List (List (String × Toml)))
deriving Repr, Inhabited

namespace Toml

abbrev Entries := List (String × Toml)

def replace (key : String) (value : Toml) (entries : Entries) : Entries :=
  entries.map (fun entry => if entry.1 = key then (key, value) else entry)

def append (key : String) (value : Toml) (entries : Entries) : Entries :=
  entries ++ [(key, value)]

end Toml

/-- Takes a value off the front of a text and hands on what is left. -/
abbrev Reader (α : Type) := List Char → Option (α × List Char)

end LazyTree
