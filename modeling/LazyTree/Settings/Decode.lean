import LazyTree.Settings
import LazyTree.Toml.Document

/-!
Reading settings from a TOML document. Keys without a meaning are passed over. A section, and a
search root, may also be written as an array of its fields in order; fields left out at the end of
a section are unset. The outer `Option` of a decoder says whether the value has the right form.
-/
namespace LazyTree.Settings

def boolean? : Toml → Option Bool
  | .boolean b => some b
  | _ => none

def text? : Toml → Option String
  | .string s => some s
  | _ => none

def count? : Toml → Option Nat
  | .integer n => if 0 ≤ n then some n.toNat else none
  | _ => none

/-- The elements of an array; an array of tables is one too. -/
def elements? : Toml → Option (List Toml)
  | .array elements => some elements
  | .tables elements => some (elements.map (.table .opened))
  | _ => none

def list? {α : Type} (element? : Toml → Option α) (value : Toml) : Option (List α) :=
  (elements? value).bind (fun elements => elements.mapM element?)

/-- The fields of a section, by name or by place. A date counts as a section that sets nothing. -/
inductive Fields where
  | named (entries : Toml.Entries)
  | placed (elements : List Toml)

def Fields.of? : Toml → Option Fields
  | .table _ entries => some (.named entries)
  | .array elements => some (.placed elements)
  | .tables elements => some (.placed (elements.map (.table .opened)))
  | .datetime => some (.named [])
  | _ => none

def Fields.get? (fields : Fields) (place : Nat) (name : String) : Option Toml :=
  match fields with
  | named entries => entries.lookup name
  | placed elements => elements[place]?

def Fields.optional {α : Type} (fields : Fields) (place : Nat) (name : String)
    (read? : Toml → Option α) : Option (Option α) :=
  match fields.get? place name with
  | none => some none
  | some value => (read? value).map some

def Fields.required {α : Type} (fields : Fields) (place : Nat) (name : String)
    (read? : Toml → Option α) : Option α :=
  (fields.get? place name).bind read?

def searchRoot? (value : Toml) : Option SearchRoot := do
  let fields ← Fields.of? value
  let path ← fields.required 0 "path" text?
  let label ← fields.required 1 "label" text?
  return ⟨path, label⟩

def filter? (value : Toml) : Option FilterSettings := do
  let fields ← Fields.of? value
  let showHidden ← fields.optional 0 "show_hidden" boolean?
  let ignore ← fields.optional 1 "ignore" (list? text?)
  return ⟨showHidden, ignore⟩

def volumes? (value : Toml) : Option VolumeSettings := do
  let fields ← Fields.of? value
  let remoteRoot ← fields.optional 0 "remote_root" text?
  let remoteHidden ← fields.optional 1 "remote_hidden" (list? text?)
  let myDrive ← fields.optional 2 "my_drive" text?
  let myDriveLabel ← fields.optional 3 "my_drive_label" text?
  let searchRoots ← fields.optional 4 "search_roots" (list? searchRoot?)
  let nestedParents ← fields.optional 5 "nested_parents" (list? text?)
  return ⟨remoteRoot, remoteHidden, myDrive, myDriveLabel, searchRoots, nestedParents⟩

def watcher? (value : Toml) : Option WatchSettings := do
  let fields ← Fields.of? value
  let enabled ← fields.optional 0 "enabled" boolean?
  let debounceMs ← fields.optional 1 "debounce_ms" count?
  let floodThreshold ← fields.optional 2 "flood_threshold" count?
  return ⟨enabled, debounceMs, floodThreshold⟩

/-- A section that is left out sets nothing. -/
def section? {α : Type} (unset : α) (read? : Toml → Option α) (name : String)
    (document : Toml.Entries) : Option α :=
  match document.lookup name with
  | none => some unset
  | some value => read? value

/-- The layer that a text describes; none where the text or one of its settings is malformed. -/
def ofToml? (text : String) : Option Settings := do
  let document ← Toml.parse? text
  let filter ← section? .unset filter? "filter" document
  let volumes ← section? .unset volumes? "volumes" document
  let watcher ← section? .unset watcher? "watcher" document
  return ⟨filter, volumes, watcher⟩

end LazyTree.Settings
