import Rmdb.Index.Node
import Rmdb.System.Catalog
import Rmdb.Recovery.Log

/-! The header of an index file (`IxFileHdr` in `index/ix_defs.h`) as `IxManager::create_index` makes it. -/

namespace Rmdb
open Catalog (typeCode)

/-- `IxFileHdr`. -/
structure IxFileHdr where
  firstFreePageNo : Int
  numPages : Int
  rootPage : Int
  colNum : Int
  colTypes : List ColType
  colLens : List Int
  colTotLen : Int
  btreeOrder : Int
  keysSize : Int
  firstLeaf : Int
  lastLeaf : Int
  totLen : Int
deriving DecidableEq, Repr

namespace IxFileHdr

/-- `update_tot_len`. -/
def updateTotLen (h : IxFileHdr) : IxFileHdr := { h with totLen := 4 * 4 + 4 * 6 + (4 * h.colNum + 4 * h.colNum) }

/-- What `serialize` writes. -/
def serialize (h : IxFileHdr) : Bytes :=
  putInt h.totLen ++ (putInt h.firstFreePageNo ++ (putInt h.numPages ++ (putInt h.rootPage ++ (putInt h.colNum ++
    ((h.colTypes.take h.colNum.toNat).flatMap (fun t => putInt (typeCode t)) ++
      ((h.colLens.take h.colNum.toNat).flatMap putInt ++
        (putInt h.colTotLen ++ (putInt h.btreeOrder ++ (putInt h.keysSize ++ (putInt h.firstLeaf ++ putInt h.lastLeaf))))))))))

/-- The first numbers of an array of `int`s. -/
def readInts : Nat → Bytes → List Int
  | 0, _ => []
  | n + 1, a => readInt a :: readInts n (a.drop 4)

/-- The enumerator of a number. -/
def colTypeOf (n : Int) : Option ColType := [ColType.int, .float, .string].find? fun t => (typeCode t : Int) = n

/-- `deserialize` into a new header. It fails on a number that is no `ColType` and where the assertion at its end does. -/
def deserialize (src : Bytes) : Option IxFileHdr := do
  let colNum := readInt (src.drop 16)
  let n := colNum.toNat
  let colTypes ← (readInts n (src.drop 20)).mapM colTypeOf
  let rest := src.drop (20 + 4 * n + 4 * n)
  let h : IxFileHdr := {
    firstFreePageNo := readInt (src.drop 4)
    numPages := readInt (src.drop 8)
    rootPage := readInt (src.drop 12)
    colNum
    colTypes
    colLens := readInts n (src.drop (20 + 4 * n))
    colTotLen := readInt rest
    btreeOrder := readInt (rest.drop 4)
    keysSize := readInt (rest.drop 8)
    firstLeaf := readInt (rest.drop 12)
    lastLeaf := readInt (rest.drop 16)
    totLen := readInt src }
  if h.totLen = 20 + 4 * n + 4 * n + 20 then some h else none

/-- The header that `create_index` writes for columns that it accepts. -/
def create (cols : List IxCol) : IxFileHdr :=
  updateTotLen {
    firstFreePageNo := ixNoPage
    numPages := ixInitNumPages
    rootPage := ixInitRootPage
    colNum := cols.length
    colTypes := cols.map (·.type)
    colLens := cols.map (·.len)
    colTotLen := Rmdb.colTotLen cols
    btreeOrder := Rmdb.btreeOrder cols
    keysSize := (Rmdb.btreeOrder cols + 1) * Rmdb.colTotLen cols
    firstLeaf := ixInitRootPage
    lastLeaf := ixInitRootPage
    totLen := 0 }

end IxFileHdr
end Rmdb
