import DepScope.Manifest.Kind
import DepScope.Proofs.GoMod.Entries
import DepScope.Proofs.Manifest.Requirements
import DepScope.Proofs.Scan.Go
import DepScope.Proofs.Scan.Python

/-!
# DepScope.Proofs.Ranges

What the ranges of a document cover, for the readers that work on its characters alone: lists of
requirements, files of modules, and the scans of Go and Python sources. Each of them counts offsets in
its own way; that a range is one of the text and covers what it is recorded for is the same statement
for all of them (`References.Cover`, `ranges_cover_names`).
-/

namespace DepScope

open Package Text

end DepScope
