import Rmdb.Storage.BufferPool

/-! Clients of the buffer pool: they hold pins, and write to the frames that `fetch_page` and `new_page` gave them. -/

namespace Rmdb

/-- A pin that a client holds on a page, and the `Page *` that it got with it. -/
structure Pin (C : Type) where
  client : C
  id : PageId
  frame : Nat
deriving DecidableEq

/-- The pool with the pins of its clients, and the pages that a client wrote or created and has not unpinned since. -/
structure PoolSession (C : Type) where
  pool : BufferPool
  pins : List (Pin C)
  wrote : List (C × PageId)

/-- What a client does. It writes to a page by the pointer of a pin that it holds. -/
inductive ClientAct (C : Type) where
  | fetchPage (c : C) (id : PageId)
  | newPage (c : C) (fd : Int)
  | write (c : C) (id : PageId) (data : Bytes)
  | unpinPage (c : C) (id : PageId) (isDirty : Bool)
  | flushPage (id : PageId)
  | flushAllPages (fd : Int)

namespace PoolSession
variable {C : Type} [DecidableEq C]

def start (poolSize : Nat) (fds : Nat → Int) (disk : Disk) : PoolSession C := ⟨.create poolSize fds disk, [], []⟩

def isPin (c : C) (id : PageId) (p : Pin C) : Bool := p.client = c ∧ p.id = id

/-- An action. A call that raises leaves the pool as it is at the exception. -/
def step (s : PoolSession C) : ClientAct C → Except Empty (PoolSession C)
  | .fetchPage c id =>
    let (pool, r) := s.pool.fetchPage id
    match r with
    | .ok (some fr) => .ok { s with pool := pool, pins := ⟨c, id, fr⟩ :: s.pins }
    | .ok none => .ok { s with pool := pool }
    | .error _ => .ok { s with pool := pool }
  | .newPage c fd =>
    let (pool, r) := s.pool.newPage fd
    match r with
    | .ok (some (id, fr)) => .ok { pool := pool, pins := ⟨c, id, fr⟩ :: s.pins, wrote := (c, id) :: s.wrote }
    | .ok none => .ok { s with pool := pool }
    | .error _ => .ok { s with pool := pool }
  | .write c id data =>
    match s.pins.find? (isPin c id) with
    | some p => .ok { s with
        pool := s.pool.setPage p.frame { s.pool.pages p.frame with data := data }
        wrote := (c, id) :: s.wrote }
    | none => .ok s
  | .unpinPage c id isDirty =>
    let (pool, released) := s.pool.unpinPage id isDirty
    if released then .ok ⟨pool, s.pins.eraseP (isPin c id), s.wrote.filter (· ≠ (c, id))⟩ else .ok { s with pool := pool }
  | .flushPage id => .ok { s with pool := (s.pool.flushPage id).1 }
  | .flushAllPages fd => .ok { s with pool := (s.pool.flushAllPages fd).1 }

/-- The client holds a pin on the page. -/
def Holds (s : PoolSession C) (c : C) (id : PageId) : Prop := ∃ p ∈ s.pins, isPin c id p = true

instance (s : PoolSession C) (c : C) (id : PageId) : Decidable (s.Holds c id) :=
  inferInstanceAs (Decidable (∃ p ∈ s.pins, isPin c id p = true))

/-- A client writes only to a page that it holds, and releases only a pin of its own (or none at all). A page that it wrote or
    created it unpins as dirty. -/
def Disciplined (s : PoolSession C) : ClientAct C → Prop
  | .write c id _ => s.Holds c id
  | .unpinPage c id isDirty => (s.Holds c id ∨ ∀ p ∈ s.pins, p.id ≠ id) ∧ ((c, id) ∈ s.wrote → isDirty = true)
  | .fetchPage _ _ | .newPage _ _ | .flushPage _ | .flushAllPages _ => True

instance (s : PoolSession C) (a : ClientAct C) : Decidable (s.Disciplined a) :=
  match a with
  | .write c id _ => inferInstanceAs (Decidable (s.Holds c id))
  | .unpinPage c id isDirty =>
    inferInstanceAs (Decidable ((s.Holds c id ∨ ∀ p ∈ s.pins, p.id ≠ id) ∧ ((c, id) ∈ s.wrote → isDirty = true)))
  | .fetchPage _ _ | .newPage _ _ | .flushPage _ | .flushAllPages _ => inferInstanceAs (Decidable True)

end PoolSession

/-- The contents of the pages of the files. What was never written is zeros. -/
def Disk.contents (d : Disk) (id : PageId) : Bytes := (d.pages id).getD zeroPage

/-- The flat store: the contents that a client has written last, for each page. -/
def FlatStore := PageId → Bytes

namespace FlatStore
variable {C : Type}

def write (f : FlatStore) (id : PageId) (data : Bytes) : FlatStore := Function.update f id data

/-- The flat store after an action of the clients on the pool. A new page is zeros. -/
def after (s : PoolSession C) (a : ClientAct C) (_ : PoolSession C) (f : FlatStore) : FlatStore :=
  match a with
  | .write _ id data => f.write id data
  | .newPage _ fd =>
    match (s.pool.newPage fd).2 with
    | .ok (some (id, _)) => f.write id zeroPage
    | .ok none => f
    | .error _ => f
  | .fetchPage _ _ | .unpinPage _ _ _ | .flushPage _ | .flushAllPages _ => f

end FlatStore

namespace BufferPool

/-- Every frame is pinned. -/
def AllPinned (s : BufferPool) : Prop := ∀ fr, fr < s.poolSize → 0 < (s.pages fr).pinCount

/-- What the call returns is what the flat store has. -/
def Answers {C : Type} (s : BufferPool) (f : FlatStore) : ClientAct C → Prop
  | .fetchPage _ id =>
    (∀ fr, (s.fetchPage id).2 = .ok (some fr) → ((s.fetchPage id).1.pages fr).data = f id) ∧
      ((s.fetchPage id).2 = .ok none → s.AllPinned)
  | .newPage _ fd =>
    (∀ id fr, (s.newPage fd).2 = .ok (some (id, fr)) → ((s.newPage fd).1.pages fr).data = zeroPage) ∧
      ((s.newPage fd).2 = .ok none → s.AllPinned)
  | .write _ _ _ | .unpinPage _ _ _ | .flushPage _ | .flushAllPages _ => True

end BufferPool
end Rmdb
