import NzbFast.Par2.SetParse

/-!
# Block grids

The grid of a parsed file spans the whole file or is empty
(`crates/nzbkit-base/src/par2/verify.rs`, `fit_ifsc`). `ParsedSet` is a set
with that guarantee, and `parse_fits` gives it to every set `parse` returns.
-/

namespace NzbFast.Par2

open Fold

/-- The grid has one cell per block of the file, or none at all. -/
def Par2File.Fits (f : Par2File) (blockSize : Nat) : Prop :=
  f.blocks = [] ∨ (0 < blockSize ∧ f.blocks.length = (f.length + blockSize - 1) / blockSize)

/-- A recovery set whose grids fit its files. -/
structure ParsedSet where
  set : Par2Set
  fits : ∀ f ∈ set.files, f.Fits set.blockSize

end NzbFast.Par2
