import Rmdb.Sql.Executor

/-! The copies that `ProjectionExecutor::Next` makes into its buffer (`execution/executor_projection.h`). -/

namespace Rmdb.Sql

/-- `ProjectionRun`. -/
structure CopyRun where
  srcOffset : Nat
  dstOffset : Nat
  len : Nat

/-- `memcpy(buf + dst_offset, data + src_offset, len)`. -/
def CopyRun.copy (data buf : Bytes) (run : CopyRun) : Bytes :=
  buf.take run.dstOffset ++ (data.drop run.srcOffset).take run.len ++ buf.drop (run.dstOffset + run.len)

/-- The copy of one column: `src` is the column of the operator below, `dst` the one of the result. -/
def columnRun (src dst : Catalog.ColMeta) : CopyRun := ⟨src.offset, dst.offset, src.len⟩

/-- The loop that builds `runs_`, from the open run `cur` on. `prev` is the column before. -/
def runsFrom (prev : Catalog.ColMeta) (cur : CopyRun) : List (Catalog.ColMeta × Catalog.ColMeta) → List CopyRun
  | [] => [cur]
  | p :: rest =>
    let prevEnd := prev.offset + prev.len
    if prevEnd = p.1.offset then runsFrom p.1 { cur with len := cur.len + p.1.len } rest
    else cur :: runsFrom p.1 (columnRun p.1 p.2) rest

/-- `runs_`, for the selected columns and those of the result. -/
def copyRuns : List (Catalog.ColMeta × Catalog.ColMeta) → List CopyRun
  | [] => []
  | p :: rest => runsFrom p.1 (columnRun p.1 p.2) rest

/-- `Next`: the runs are copied into the buffer one after the other. -/
def copyAll (data : Bytes) (runs : List CopyRun) (buf : Bytes) : Bytes := runs.foldl (CopyRun.copy data) buf

end Rmdb.Sql
