import Rmdb.Theorems.Recovery.Idempotent

/-! When `undo` ends: at a record of a table that is not in the catalog the loop goes on without taking the record from its
list. -/

namespace Rmdb.Store
variable {T I : Type} [DecidableEq T] [DecidableEq I] (db : Schema T I) (tableOf : Bytes → Option T)

end Rmdb.Store
