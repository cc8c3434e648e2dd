import Rmdb.Index.Scan

/-! Runs of the operations of one index: what a client calls, what it gets back, and the history of both. -/

namespace Rmdb

/-- A call of an index operation. -/
inductive IxCall (K : Type) where
  | insertEntry (key : K) (value : Rid)
  | deleteEntry (key : K)
  | getValue (key : K)
  | isUnique (key : K)

/-- What a call returns. -/
inductive IxReply where
  /-- The page that `insert_entry` returns. -/
  | page (p : Int)
  /-- Whether `delete_entry` removed the key. -/
  | removed (b : Bool)
  /-- The value of `get_value`, if it found one. -/
  | value (v : Option Rid)
  /-- The answer of `is_unique` and the value it found. -/
  | unique (b : Bool) (v : Option Rid)
deriving DecidableEq, Repr

/-- Calls and their replies, oldest first. -/
abbrev IxHistory (K : Type) := List (IxCall K × IxReply)

namespace IxIndexHandle
variable {K : Type}

/-- One call. -/
def call [DecidableEq K] (f : IxFormat K) (s : IxIndexHandle K) : IxCall K → Except IxError (IxIndexHandle K × IxReply)
  | .insertEntry key value => do
    let (s, p) ← s.insertEntry f key value
    .ok (s, .page p)
  | .deleteEntry key => do
    let (s, b) ← s.deleteEntry f key
    .ok (s, .removed b)
  | .getValue key => do
    let v ← s.getValue f key
    .ok (s, .value v)
  | .isUnique key => do
    let (b, v) ← s.isUnique f key
    .ok (s, .unique b v)

/-- A run of calls. -/
def run [DecidableEq K] (f : IxFormat K) (s : IxIndexHandle K) : List (IxCall K) → Except IxError (IxIndexHandle K × IxHistory K)
  | [] => .ok (s, [])
  | c :: cs => do
    let (s, r) ← s.call f c
    let (s, h) ← s.run f cs
    .ok (s, (c, r) :: h)

/-- A call as a step, without its reply. -/
def step [DecidableEq K] (f : IxFormat K) (s : IxIndexHandle K) (c : IxCall K) : Except IxError (IxIndexHandle K) := do
  let (s, _) ← s.call f c
  .ok s

/-- A step of a session: a call, or the file closed and opened again. -/
inductive Session (K : Type) where
  | call (c : IxCall K)
  | reopen

def sessionStep [DecidableEq K] (f : IxFormat K) (s : IxIndexHandle K) : Session K → Except IxError (IxIndexHandle K)
  | .call c => s.step f c
  | .reopen => .ok s.reopen

/-- What a call and its reply say about the value of `key`, when it was `old` before. -/
def record (f : IxFormat K) (key : K) (old : Option Rid) : IxCall K × IxReply → Option Rid
  | (.insertEntry k v, .page p) => if p ≠ ixNoPage ∧ f.compare k key = 0 then some v else old
  | (.deleteEntry k, .removed true) => if f.compare k key = 0 then none else old
  | _ => old

/-- The value of `key` after a history: that of the last successful `insert_entry` of the key, unless a successful
    `delete_entry` of it came later. -/
def recorded (f : IxFormat K) (key : K) (h : IxHistory K) : Option Rid := h.foldl (record f key) none

end IxIndexHandle
end Rmdb
