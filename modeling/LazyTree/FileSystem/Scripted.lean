import LazyTree.FileSystem

/-!
A filesystem held in memory whose listings, failures and resolutions are set directory by directory,
and which records every request made of it.
-/
namespace LazyTree

inductive Request where
  | enumerate (path : String)
  | resolve (path : String)
  | check (path : String)
deriving DecidableEq, Repr

structure Scripted where
  listings : List (String × List Entry)
  /-- Directories whose listing fails. -/
  failures : List (String × IoErrorKind)
  /-- Directories whose check for sub-directories fails. -/
  checkFailures : List String
  resolveFailures : List (String × IoErrorKind)
  /-- Placeholders that stay placeholders. -/
  unresolved : List String
  resolutions : List (String × Handle)
  /-- Second names of directories. -/
  aliases : List (String × String)
  /-- The requests so far, newest first. -/
  requests : List Request
deriving Inhabited

namespace Scripted

def empty : Scripted := ⟨[], [], [], [], [], [], [], []⟩

def put {α : Type} (key : String) (value : α) (table : List (String × α)) : List (String × α) :=
  (key, value) :: table.filter (fun row => row.1 ≠ key)

def drop {α : Type} (key : String) (table : List (String × α)) : List (String × α) :=
  table.filter (fun row => row.1 ≠ key)

def injected (kind : IoErrorKind) : IoError := .described kind "injected failure"

def missing (path : String) : IoError := .described .notFound path

def note (s : Scripted) (request : Request) : Scripted :=
  { s with requests := request :: s.requests }

def listing (s : Scripted) (path : String) : Except IoError (List Entry) :=
  match s.failures.lookup path with
  | some kind => .error (injected kind)
  | none =>
    match s.listings.lookup path with
    | some entries => .ok entries
    | none => .error (missing path)

def resolution (s : Scripted) (path : String) : Except IoError Handle :=
  match s.resolveFailures.lookup path with
  | some kind => .error (injected kind)
  | none =>
    if s.unresolved.contains path then .ok (.placeholder path)
    else
      match s.resolutions.lookup path with
      | some handle => .ok handle
      | none =>
        match s.listings.lookup path with
        | some _ => .ok (.real path)
        | none => .error (missing path)

def subdirectories (s : Scripted) (path : String) (filter : NameFilter) : Except IoError Bool :=
  if s.checkFailures.contains path then .error (injected .other)
  else
    match s.listings.lookup path with
    | some entries => .ok (entries.any filter.shows)
    | none => .error (missing path)

/-- The path behind an alias, followed once. -/
def unalias (s : Scripted) (path : String) : String :=
  (s.aliases.lookup path).getD path

def enumerate (s : Scripted) (path : String) : Except IoError (List Entry) × Scripted :=
  (s.listing path, s.note (.enumerate path))

def resolve (s : Scripted) (path : String) : Except IoError Handle × Scripted :=
  (s.resolution path, s.note (.resolve path))

def fileSystem : FileSystem Scripted where
  enumerate := enumerate
  resolve := resolve
  holdsDirectory s path filter := (s.subdirectories path filter, s.note (.check path))
  sameDirectory s a b := (s.unalias a.path = s.unalias b.path, s)

/-- Answers by listing and resolving alone: no aliases, and checks that list. -/
def plainFileSystem : FileSystem Scripted := .ofListing enumerate resolve

/-- Takes back every failure and every special resolution of a directory. -/
def heal (s : Scripted) (path : String) : Scripted :=
  { s with
    failures := drop path s.failures
    checkFailures := s.checkFailures.filter (fun p => p ≠ path)
    resolveFailures := drop path s.resolveFailures
    unresolved := s.unresolved.filter (fun p => p ≠ path)
    resolutions := drop path s.resolutions }

end Scripted

end LazyTree
