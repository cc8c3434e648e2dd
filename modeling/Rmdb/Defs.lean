import Mathlib.Data.List.Basic
import Mathlib.Order.Basic

/-! Data that the record, index and execution layers share (`defs.h`, `common/config.h`). -/

namespace Rmdb

/-- Bytes of a page, a record or a key. -/
abbrev Bytes := List UInt8

/-- The position of a record in a table file: a page and a slot in it. -/
structure Rid where
  pageNo : Int
  slotNo : Int
deriving DecidableEq, Repr

inductive ColType where
  | int
  | float
  | string
deriving DecidableEq, Repr

/-- `PAGE_SIZE`. -/
def pageSize : Nat := 4096

/-- A 32-bit two's complement number from its unsigned value. -/
def toSigned (n : Nat) : Int := if n < 0x80000000 then n else (n : Int) - 0x100000000

/-- `*(uint32_t *)a`: the first four bytes, least significant first. -/
def readWord : Bytes → Nat
  | a :: b :: c :: d :: _ => a.toNat + 0x100 * b.toNat + 0x10000 * c.toNat + 0x1000000 * d.toNat
  | _ => 0

/-- `*(int *)a`. -/
def readInt (a : Bytes) : Int := toSigned (readWord a)

/-- The four bytes of a `uint32_t`. -/
def putWord (n : Nat) : Bytes :=
  [UInt8.ofNat n, UInt8.ofNat (n / 0x100), UInt8.ofNat (n / 0x10000), UInt8.ofNat (n / 0x1000000)]

theorem readWord_putWord {n : Nat} (h : n < 0x100000000) (l : Bytes) : readWord (putWord n ++ l) = n := by
  simp only [putWord, readWord, List.cons_append, List.nil_append, UInt8.toNat_ofNat']
  omega

/-- The four bytes of an `int`. -/
def putInt (n : Int) : Bytes := putWord (n % 0x100000000).toNat

/-- The bytes of a `Rid`. -/
def putRid (rid : Rid) : Bytes := putInt rid.pageNo ++ putInt rid.slotNo

/-- `*(Rid *)a`. -/
def readRid (a : Bytes) : Rid := ⟨readInt a, readInt (a.drop 4)⟩

/-- `memcmp(a, b, len)`: the difference of the first two bytes that differ, as unsigned numbers. -/
def memcmp : Bytes → Bytes → Nat → Int
  | _, _, 0 => 0
  | x :: xs, y :: ys, n + 1 => if x = y then memcmp xs ys n else (x.toNat : Int) - y.toNat
  | _, _, _ => 0

end Rmdb
