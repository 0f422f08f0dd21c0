import LazyTree.Failure
import LazyTree.NameFilter

/-!
The filesystem a tree is kept in step with. Every request reads and leaves a state of type `σ`, so
the answers may change from one request to the next.
-/
namespace LazyTree

structure FileSystem (σ : Type) where
  /-- Everything directly below a directory, files included. -/
  enumerate : σ → String → Except IoError (List Entry) × σ
  /-- The directory a placeholder stands for; another placeholder while it is unavailable. -/
  resolve : σ → String → Except IoError Handle × σ
  /-- Whether a directory has a sub-directory that the filter shows. -/
  holdsDirectory : σ → String → NameFilter → Except IoError Bool × σ
  /-- Whether two handles denote one directory. -/
  sameDirectory : σ → Handle → Handle → Bool × σ

namespace FileSystem

variable {σ : Type}

def holdsDirectoryByListing (enumerate : σ → String → Except IoError (List Entry) × σ)
    (s : σ) (path : String) (filter : NameFilter) : Except IoError Bool × σ :=
  match enumerate s path with
  | (.ok entries, s') => (.ok (entries.any filter.shows), s')
  | (.error e, s') => (.error e, s')

def samePath (s : σ) (a b : Handle) : Bool × σ :=
  (a.path = b.path, s)

/-- The filesystem that answers every request by listing and resolving alone. -/
def ofListing (enumerate : σ → String → Except IoError (List Entry) × σ)
    (resolve : σ → String → Except IoError Handle × σ) : FileSystem σ where
  enumerate := enumerate
  resolve := resolve
  holdsDirectory := holdsDirectoryByListing enumerate
  sameDirectory := samePath

end FileSystem

end LazyTree
