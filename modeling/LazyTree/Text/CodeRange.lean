/-!
Ranges of code points, the form in which properties of characters are tabulated.
-/
namespace LazyTree.Text

/-- Every `step`-th code point from `first` to `last`, mapped in order from `target` on. -/
structure CaseRow where
  first : Nat
  last : Nat
  step : Nat
  target : Nat
deriving Repr

def CaseRow.covers (row : CaseRow) (code : Nat) : Bool :=
  row.first ≤ code && code ≤ row.last && (code - row.first) % row.step == 0

def CaseRow.apply (row : CaseRow) (code : Nat) : Nat :=
  row.target + (code - row.first)

def inRanges (ranges : Array (Nat × Nat)) (c : Char) : Bool :=
  ranges.any (fun r => r.1 ≤ c.toNat && c.toNat ≤ r.2)

end LazyTree.Text
