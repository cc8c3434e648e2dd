import Rmdb.Defs
import Mathlib.Data.List.AList
import Mathlib.Algebra.GroupWithZero.Nat

/-! The pools of the open files and their budget (`BufferPool` in `storage/disk_buffer_pool.h`).

A pool is given by its size in frames. `latch_` is locked and unlocked by hand in `get_pool` and `adjust_pool`; a call that
finds it locked waits for ever. -/

namespace Rmdb

/-- `BufferPool`, with its latch. -/
structure DiskBufferPool where
  totNum : UInt64
  useNum : UInt64
  buffers : AList fun _ : String => UInt64
  latch : Bool

/-- What the surroundings of a call decide: whether memory for pages is granted, and whether `get_file_fd` and
    `flush_all_pages` return. -/
structure PoolEnv where
  memory : Bool
  flushes : Bool
deriving DecidableEq, Repr

inductive PoolError where
  /-- `InternalError("No Pool")`. -/
  | noPool
  | badAlloc
  | disk
deriving DecidableEq, Repr

/-- How a call ends. -/
inductive PoolReply where
  | returned
  | raised (e : PoolError)
  | blocked
deriving DecidableEq, Repr

namespace DiskBufferPool

/-- The frames of all pools. -/
def total (s : DiskBufferPool) : Nat := (s.buffers.entries.map (·.2.toNat)).sum

def create (poolSize : UInt64) : DiskBufferPool := ⟨poolSize, 0, ∅, false⟩

variable (s : DiskBufferPool)

/-- What is left of a size within the budget. -/
def clip (size : UInt64) : UInt64 := if s.useNum + size > s.totNum then s.totNum - s.useNum else size

/-- `new BufferPoolManager(size)`: all pages together fit into the address space. -/
def allocates (env : PoolEnv) (size : UInt64) : Prop := (s.total + size.toNat) * pageSize < 2 ^ 63 ∧ env.memory

instance (env : PoolEnv) (size : UInt64) : Decidable (s.allocates env size) := inferInstanceAs (Decidable (_ ∧ _))

/-- `get_pool`. `adjust` is its call of `adjust_pool`. -/
def getPoolWith (adjust : DiskBufferPool → String → UInt64 → DiskBufferPool × PoolReply) (env : PoolEnv) (name : String)
    (size : UInt64) : DiskBufferPool × PoolReply :=
  let size := s.clip size
  if size = 0 then (s, .raised .noPool)
  else if s.latch then (s, .blocked)
  else
    let s := { s with latch := true }
    match s.buffers.lookup name with
    | some old =>
      -- a pool that is large enough is returned under the latch
      if old ≥ size then (s, .returned)
      else adjust { s with latch := false } name size
    | none =>
      if s.allocates env size then
        ({ s with buffers := s.buffers.insert name size, useNum := s.useNum + size, latch := false }, .returned)
      else (s, .raised .badAlloc)

/-- `adjust_pool`. `get` is its call of `get_pool`. -/
def adjustPoolWith (get : DiskBufferPool → String → UInt64 → DiskBufferPool × PoolReply) (env : PoolEnv) (name : String)
    (size : UInt64) : DiskBufferPool × PoolReply :=
  let size := s.clip size
  if size = 0 then (s, .raised .noPool)
  else if s.latch then (s, .blocked)
  else
    let s := { s with latch := true }
    match s.buffers.lookup name with
    | none => get { s with latch := false } name size
    | some old =>
      -- a pool that has the size already is left alone under the latch
      if old = size then (s, .returned)
      else if s.allocates env size then
        if env.flushes then
          ({ s with buffers := s.buffers.insert name size, useNum := s.useNum - old + size, latch := false }, .returned)
        else (s, .raised .disk)
      else (s, .raised .badAlloc)

/-- The calls within a call: a third one is never made. -/
def noCall (s : DiskBufferPool) (_ : String) (_ : UInt64) : DiskBufferPool × PoolReply := (s, .blocked)

/-- `get_pool`. -/
def getPool (env : PoolEnv) (name : String) (size : UInt64) : DiskBufferPool × PoolReply :=
  s.getPoolWith (fun s => s.adjustPoolWith noCall env) env name size

/-- `adjust_pool`. -/
def adjustPool (env : PoolEnv) (name : String) (size : UInt64) : DiskBufferPool × PoolReply :=
  s.adjustPoolWith (fun s => s.getPoolWith noCall env) env name size

/-- `fetch_pool`. -/
def fetchPool (name : String) : DiskBufferPool × PoolReply :=
  if s.latch then (s, .blocked)
  else if (s.buffers.lookup name).isSome then (s, .returned)
  else (s, .raised .noPool)

/-- `delete_pool`. -/
def deletePool (env : PoolEnv) (name : String) : DiskBufferPool × PoolReply :=
  if s.latch then (s, .blocked)
  else match s.buffers.lookup name with
    | none => (s, .returned)
    | some size =>
      if env.flushes then ({ s with buffers := s.buffers.erase name, useNum := s.useNum - size }, .returned)
      else (s, .raised .disk)

end DiskBufferPool

/-- A call of an operation of the pools. -/
inductive PoolCall where
  | getPool (name : String) (size : UInt64) (env : PoolEnv)
  | fetchPool (name : String)
  | adjustPool (name : String) (size : UInt64) (env : PoolEnv)
  | deletePool (name : String) (env : PoolEnv)

namespace DiskBufferPool

def call (s : DiskBufferPool) : PoolCall → DiskBufferPool × PoolReply
  | .getPool name size env => s.getPool env name size
  | .fetchPool name => s.fetchPool name
  | .adjustPool name size env => s.adjustPool env name size
  | .deletePool name env => s.deletePool env name

/-- A call as a step, without its reply. -/
def step (s : DiskBufferPool) (c : PoolCall) : Except Empty DiskBufferPool := .ok (s.call c).1

end DiskBufferPool
end Rmdb
