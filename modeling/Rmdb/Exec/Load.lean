import Rmdb.Exec.Scan
import Rmdb.Record.File
import Rmdb.Index.Handle

/-! `LOAD` (`execution/executor_load.h`): the lines of a CSV file are parsed into records, placed on the pages of the table
    file and put into the first index of the table. -/

namespace Rmdb

/-! ### The parser -/

/-- The leading decimal digits, and the digits before them. -/
def decimal (acc : Nat) : Bytes → Nat
  | [] => acc
  | b :: bs => if 0x30 ≤ b ∧ b ≤ 0x39 then decimal (acc * 10 + (b.toNat - 0x30)) bs else acc

def isSpace (b : UInt8) : Bool := b = 0x20 || (0x09 ≤ b && b ≤ 0x0d)

/-- `strtol` in base 10: it stops at the largest and the smallest `long`. -/
def strtol (s : Bytes) : Int :=
  match s.dropWhile isSpace with
  | 0x2d :: ds => max (-(decimal 0 ds : Int)) (-0x8000000000000000)
  | 0x2b :: ds => min (decimal 0 ds : Int) 0x7fffffffffffffff
  | ds => min (decimal 0 ds : Int) 0x7fffffffffffffff

/-- `atoi`: `strtol`, cast to `int`. -/
def atoi (s : Bytes) : Int := toSigned ((strtol s) % 0x100000000).toNat

/-- The bits of `static_cast<float>` of an `int`. -/
def floatBits (n : Int) : Nat :=
  if n = 0 then 0
  else
    let m := floatOfNat n.natAbs
    (if n < 0 then 0x80000000 else 0) + ((m.log2 + 127) <<< 23) + ((m <<< 23) >>> m.log2) - 0x800000

/-- A field in the record: `memcpy` of the bytes of a number, or of a string with NUL bytes behind it. -/
def fieldBytes (c : ColMeta) (line : Bytes) (fieldLen : Nat) : Bytes :=
  match c.type with
  | .int => writeInt (atoi line)
  | .float => writeInt (floatBits (atoi line))
  | .string =>
    let copyLen := min fieldLen c.len
    line.take copyLen ++ List.replicate (c.len - copyLen) 0

/-- `memcpy(rec + offset, bs, bs.length)`. -/
def writeAt (rec : Bytes) (offset : Nat) (bs : Bytes) : Bytes := rec.take offset ++ bs ++ rec.drop (offset + bs.length)

/-- The loop of `ultra_fast_parse` over the columns that are left, from a position in the line on. -/
def parseFields : List ColMeta → Bytes → Bytes → Option Bytes
  | [], _, rec => some rec
  | c :: cs, line, rec =>
    if line = [] then none
    else
      let fieldLen := (line.takeWhile (· ≠ 0x2c)).length
      parseFields cs (line.drop (fieldLen + 1)) (writeAt rec c.offset (fieldBytes c line fieldLen))

/-- `ultra_fast_parse`: the record of a line, if it has a field for every column. The columns cover the record, so the
    bytes that the buffer held before do not matter. -/
def ultraFastParse (tab : TabMeta) (recordSize : Nat) (line : Bytes) : Option Bytes :=
  parseFields tab.cols line (List.replicate recordSize 0)

/-! ### The table file -/

/-- The bytes of `bufs` in the slots from `pos` on. -/
def overwrite : List (Option Bytes) → Nat → List Bytes → List (Option Bytes)
  | slots, _, [] => slots
  | slots, pos, buf :: bufs => overwrite (slots.set pos (some buf)) (pos + 1) bufs

namespace RmFile

/-- The loop of `LoadExecutor::insert_records`: the records go behind the first `num_records` slots of the page, and on to a
    new page when the page is full. -/
def loadPages : Nat → RmFile → Int → List Bytes → Except RmError (RmFile × List Rid)
  | _, f, _, [] => .ok (f, [])
  | 0, _, _, _ :: _ => .error .diverged
  | fuel + 1, f, p, buf :: bufs => do
    let page ← f.fetchPageHandle p
    if page.numRecords < 0 ∨ f.perPage < page.numRecords then .error .outOfPage
    else do
      let pos := page.numRecords.toNat
      let toLoad := min (f.perPage - pos) (buf :: bufs).length
      let page := { page with
        slots := overwrite page.slots pos ((buf :: bufs).take toLoad)
        numRecords := page.numRecords + toLoad }
      let f := f.setPage p page
      let rids := (List.range toLoad).map fun (i : Nat) => (⟨p, (pos + i : Nat)⟩ : Rid)
      let (f, p) := if f.perPage ≤ page.numRecords then (f.createNewPageHandle.1, f.createNewPageHandle.2.1) else (f, p)
      let (f, rest) ← loadPages fuel f p ((buf :: bufs).drop toLoad)
      .ok (f, rids ++ rest)

/-- `LoadExecutor::insert_records`. -/
def loadRecords (f : RmFile) (bufs : List Bytes) : Except RmError (RmFile × List Rid) :=
  let (f, p) := if f.firstFreePageNo = rmNoPage then (f.createNewPageHandle.1, f.createNewPageHandle.2.1)
    else (f, f.firstFreePageNo)
  loadPages (bufs.length + 1) f p bufs

end RmFile

/-! ### The index -/

namespace IxIndexHandle
variable {K : Type} [DecidableEq K]

/-- `can_insert_to_cached_node`. -/
def canInsertToCachedNode (f : IxFormat K) (s : IxIndexHandle K) (p : Int) (key : K) : Except IxError Bool := do
  let leaf ← s.fetchNode p
  if leaf.isFull f then .ok false
  else if leaf.size = 0 then .ok true
  else .ok (decide (leaf.lowerBound f key ≤ leaf.size))

/-- The leaf that `optimized_insert_entry` inserts into: the cached one, or the one it finds. -/
def cachedLeaf (f : IxFormat K) (s : IxIndexHandle K) (cache : Option Int) (key : K) : Except IxError Int :=
  match cache with
  | none => s.findLeafPage f key
  | some p => do
    if ← s.canInsertToCachedNode f p key then .ok p else s.findLeafPage f key

/-- The end of `optimized_insert_entry`: a full leaf is split and no longer cached. -/
def splitIfFull (f : IxFormat K) (s : IxIndexHandle K) (p : Int) : Except IxError (IxIndexHandle K × Option Int) := do
  let leaf ← s.fetchNode p
  if leaf.isFull f then do
    let (s, q) ← s.split f p
    let s := if p = s.lastLeaf then { s with lastLeaf := q } else s
    let w ← s.fetchNode q
    let wKey ← w.keyAt 0
    let s ← insertIntoParent f (s.filePages + 1) s p wKey q
    .ok (s, none)
  else .ok (s, some p)

/-- `optimized_insert_entry` from the leaf on. -/
def insertIntoLeaf (f : IxFormat K) (s : IxIndexHandle K) (p : Int) (key : K) (value : Rid) :
    Except IxError (IxIndexHandle K × Option Int) := do
  let leaf ← s.fetchNode p
  let oldSize := leaf.size
  let (leaf, pos) ← leaf.insert f key value
  if leaf.size = oldSize then .ok (s, none)
  else do
    let s := s.putNode p leaf
    let s ← if pos = 0 then s.maintainParent p else .ok s
    s.splitIfFull f p

/-- `optimized_insert_entry`: the index and the leaf that is cached behind it. -/
def optimizedInsertEntry (f : IxFormat K) (s : IxIndexHandle K) (cache : Option Int) (key : K) (value : Rid) :
    Except IxError (IxIndexHandle K × Option Int) := do
  let p ← s.cachedLeaf f cache key
  s.insertIntoLeaf f p key value

/-- `optimized_insert_entry` as a step. -/
def loadStep (f : IxFormat K) (s : IxIndexHandle K × Option Int) (e : K × Rid) : Except IxError (IxIndexHandle K × Option Int) :=
  s.1.optimizedInsertEntry f s.2 e.1 e.2

end IxIndexHandle

/-! ### The executor -/

inductive LoadError where
  /-- The `InternalError` of a file without a header line. -/
  | emptyFile
  | record (e : RmError)
  | index (e : IxError)
deriving DecidableEq, Repr

/-- A row that was loaded: its position and its bytes. -/
abbrev Loaded := Rid × Bytes

namespace LoadExecutor

/-- `max_batch_size`: as many records as 128 MB hold, and at least 16 pages. -/
def maxBatchSize (recordSize perPage : Nat) : Nat := max (134217728 / recordSize) (perPage * 16)

/-- The loop over the batches. `feed` takes the rows of a batch after they were placed. -/
def loadBatches {S : Type} (parse : Bytes → Option Bytes) (batchSize : Nat) (feed : S → List Loaded → Except IxError S) :
    Nat → RmFile → S → List Bytes → Except LoadError (RmFile × S × List Loaded)
  | 0, _, _, _ => .error (.record .diverged)
  | fuel + 1, f, s, lines =>
    match (lines.take batchSize).filterMap parse with
    | [] => .ok (f, s, [])
    | row :: rows =>
      match f.loadRecords (row :: rows) with
      | .error e => .error (.record e)
      | .ok (f, rids) =>
        match feed s (rids.zip (row :: rows)) with
        | .error e => .error (.index e)
        | .ok s =>
          if lines.length < batchSize then .ok (f, s, rids.zip (row :: rows))
          else do
            let (f, s, loaded) ← loadBatches parse batchSize feed fuel f s (lines.drop batchSize)
            .ok (f, s, rids.zip (row :: rows) ++ loaded)

section
variable {tab : TabMeta}

/-- `batch_insert_index`: the rows of a batch, one after another. -/
def batchInsertIndex (ix : IndexMeta tab) : IxIndexHandle (IxKey ix.ixCols) × Option Int → List Loaded →
    Except IxError (IxIndexHandle (IxKey ix.ixCols) × Option Int)
  | s, [] => .ok s
  | s, r :: rows => do
    let key ← ixKey ix.ixCols (ix.keyBytes r.2)
    let s ← s.1.optimizedInsertEntry (ixFormat ix.ixCols) s.2 key r.1
    batchInsertIndex ix s rows

/-- An open index of the table. -/
abbrev OpenIndex (tab : TabMeta) := (ix : IndexMeta tab) × IxIndexHandle (IxKey ix.ixCols)

/-- `LoadExecutor::Next` on the lines of a file. The constructor takes the first index of the table and no other. -/
def next (recordSize : Nat) (f : RmFile) (indexes : List (OpenIndex tab)) (csv : List Bytes) :
    Except LoadError (RmFile × List (OpenIndex tab) × List Loaded) :=
  let parse := ultraFastParse tab recordSize
  let batchSize := maxBatchSize recordSize f.perPage
  match csv with
  | [] => .error .emptyFile
  | _ :: lines =>
    match indexes with
    | [] => do
      let (f, _, loaded) ← loadBatches parse batchSize (fun _ _ => .ok ()) (lines.length + 1) f () lines
      .ok (f, [], loaded)
    | ⟨ix, s⟩ :: rest => do
      let (f, s, loaded) ← loadBatches parse batchSize (batchInsertIndex ix) (lines.length + 1) f (s, none) lines
      .ok (f, ⟨ix, s.1⟩ :: rest, loaded)

end
end LoadExecutor
end Rmdb
