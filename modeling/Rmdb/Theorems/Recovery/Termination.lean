import Rmdb.Theorems.Recovery.Analyze
import Mathlib.Data.Finset.Card
import Mathlib.Logic.Relation

/-! When `analyze` ends.

The lengths in the headers lead from record to record of a chunk, and from a full chunk to the next one at the record that does
not end in it. The two loops end if and only if they can go on at every record to which they come: its type has a case, the
lengths do not lead back to it, and it is not longer than a chunk. -/

namespace Rmdb
open Relation

/-! ### Records of a chunk -/

section
variable {chunk : Bytes} {o o' a c n m f : Nat}

/-- The record at a position of a chunk is taken for a whole one. The end of the record is a 32-bit number. -/
def Complete (chunk : Bytes) (o : Nat) : Prop :=
  o + 12 < chunk.length ∧ (readTotLen (chunk.drop o) + o) % 0x100000000 ≤ chunk.length

/-- The type of the record at a position has a case. -/
def Known (chunk : Bytes) (o : Nat) : Prop := readWord (chunk.drop o) ≤ 5

/-- The length of a record leads to another position. -/
def Leads (chunk : Bytes) (o o' : Nat) : Prop :=
  Complete chunk o ∧ Known chunk o ∧ o' = (o + readTotLen (chunk.drop o)) % 0x100000000

theorem deserialize_isSome (a : Bytes) : (LogEntry.deserialize a).isSome ↔ readWord a ≤ 5 := by
  have hbody : ∀ (t : Nat) (b : Bytes), (LogBody.deserialize t b).isSome ↔ t ≤ 5 := by
    intro t b
    unfold LogBody.deserialize
    repeat' split
    all_goals simp only [Option.isSome_some, Option.isSome_none, Bool.false_eq_true, true_iff, false_iff]
    all_goals omega
  rw [LogEntry.deserialize, Option.isSome_map, hbody]

theorem Leads.le (h : Leads chunk o o') : o' ≤ chunk.length := by
  obtain ⟨⟨-, hend⟩, -, rfl⟩ := h
  rwa [Nat.add_comm]

theorem scanChunk_stop (h : ¬Complete chunk o) : scanChunk chunk (n + 1) o f = .ok ([], f) := by
  rw [scanChunk]
  by_cases hhead : chunk.length ≤ o + 12
  · rw [if_pos hhead]
  · rw [if_neg hhead]
    refine if_pos ?_
    by_contra hend
    exact h ⟨by omega, by omega⟩

theorem scanChunk_stuck (h : Complete chunk o) (hknown : ¬Known chunk o) : scanChunk chunk n o f = .error .diverged := by
  have hnone : LogEntry.deserialize (chunk.drop o) = none := by
    rw [← Option.not_isSome_iff_eq_none, deserialize_isSome]
    exact hknown
  induction n with
  | zero => rfl
  | succ n ih =>
    unfold scanChunk
    rw [if_neg (by have := h.1; omega), if_neg (by have := h.2; omega)]
    simp only [hnone]
    exact ih

theorem scanChunk_next (h : Leads chunk o o') : ∃ r, ∀ n f, scanChunk chunk (n + 1) o f =
    (scanChunk chunk n o' ((f + readTotLen (chunk.drop o)) % 0x100000000)).map fun p => (⟨f, readTotLen (chunk.drop o), r⟩ :: p.1, p.2) := by
  obtain ⟨⟨hhead, hend⟩, hknown, rfl⟩ := h
  obtain ⟨r, hr⟩ := Option.isSome_iff_exists.mp ((deserialize_isSome _).mpr hknown)
  refine ⟨r, fun n f => ?_⟩
  rw [scanChunk, if_neg (by omega), if_neg (by omega)]
  simp only [hr]
  cases scanChunk chunk n ((o + readTotLen (chunk.drop o)) % 0x100000000) ((f + readTotLen (chunk.drop o)) % 0x100000000) <;> rfl

theorem scanChunk_error {d : RecoveryError} (h : scanChunk chunk n o f = .error d) : d = .diverged := by
  induction n generalizing o f with
  | zero =>
    cases h
    rfl
  | succ n ih =>
    by_cases hcomplete : Complete chunk o
    · by_cases hknown : Known chunk o
      · obtain ⟨r, hnext⟩ := scanChunk_next ⟨hcomplete, hknown, rfl⟩
        rw [hnext] at h
        cases hrest : scanChunk chunk n ((o + readTotLen (chunk.drop o)) % 0x100000000)
            ((f + readTotLen (chunk.drop o)) % 0x100000000) with
        | error e =>
          rw [hrest] at h
          cases h
          exact ih hrest
        | ok q =>
          rw [hrest] at h
          cases h
      · rw [scanChunk_stuck hcomplete hknown] at h
        cases h
        rfl
    · rw [scanChunk_stop hcomplete] at h
      cases h

/-- The inner loop ends from a position in so many turns. -/
def EndsIn (chunk : Bytes) (n o : Nat) : Prop := ∃ f p, scanChunk chunk n o f = .ok p

theorem EndsIn.next (h : EndsIn chunk n o) (hleads : Leads chunk o o') : ∃ m < n, EndsIn chunk m o' := by
  obtain ⟨f, p, h⟩ := h
  cases n with
  | zero => cases h
  | succ n =>
    obtain ⟨r, hnext⟩ := scanChunk_next hleads
    rw [hnext] at h
    cases hrest : scanChunk chunk n o' ((f + readTotLen (chunk.drop o)) % 0x100000000) with
    | error e =>
      rw [hrest] at h
      cases h
    | ok q => exact ⟨n, Nat.lt_succ_self n, _, q, hrest⟩

theorem EndsIn.reach (h : EndsIn chunk n o) (hreach : ReflTransGen (Leads chunk) o o') : ∃ m ≤ n, EndsIn chunk m o' := by
  induction hreach with
  | refl => exact ⟨n, Nat.le_refl n, h⟩
  | tail _ hleads ih =>
    obtain ⟨m, hm, hends⟩ := ih
    obtain ⟨k, hk, hends⟩ := hends.next hleads
    exact ⟨k, by omega, hends⟩

/-- The inner loop ends where the lengths end. -/
theorem scanChunk_end {seen : List SeenRecord} {e : Nat} (hreach : ReflTransGen (Leads chunk) a o) (hend : ¬Complete chunk o)
    (hsize : c + chunk.length < 0x80000000) (h : scanChunk chunk n a (c + a) = .ok (seen, e)) : e = c + o := by
  induction hreach using ReflTransGen.head_induction_on generalizing n seen with
  | refl =>
    cases n with
    | zero => cases h
    | succ n =>
      rw [scanChunk_stop hend] at h
      cases h
      rfl
  | @head a b hleads _ ih =>
    cases n with
    | zero => cases h
    | succ n =>
      have hle := hleads.le
      obtain ⟨r, hnext⟩ := scanChunk_next hleads
      have hpos : (c + a + readTotLen (chunk.drop a)) % 0x100000000 = c + b := by
        obtain ⟨-, -, rfl⟩ := hleads
        omega
      rw [hnext, hpos] at h
      cases hrest : scanChunk chunk n b (c + b) with
      | error d =>
        rw [hrest] at h
        cases h
      | ok q =>
        rw [hrest] at h
        obtain ⟨seen', e'⟩ := q
        cases h
        exact ih hrest

theorem reach_le (hreach : ReflTransGen (Leads chunk) 0 o) : o ≤ chunk.length := by
  cases hreach with
  | refl => exact Nat.zero_le _
  | tail _ hleads => exact hleads.le

end

/-! ### The outer loop -/

section
variable {file : Bytes} {c e o turns fuel : Nat}

/-- What is read at a position of the file. -/
def chunkAt (file : Bytes) (c : Nat) : Bytes := ((readable file).drop c).take logBufferSize

/-- The chunks that are read: behind a full one, the next one starts at the record that does not end in it. -/
inductive ChunkStart (file : Bytes) : Nat → Prop
  | zero : ChunkStart file 0
  | next {c o : Nat} : ChunkStart file c → ¬(chunkAt file c).length < logBufferSize →
      ReflTransGen (Leads (chunkAt file c)) 0 o → ¬Complete (chunkAt file c) o → ChunkStart file (c + o)

theorem chunkAt_length (file : Bytes) (c : Nat) : (chunkAt file c).length ≤ (readable file).length - c := by
  rw [chunkAt, List.length_take, List.length_drop]
  omega

theorem ChunkStart.le (h : ChunkStart file c) : c ≤ (readable file).length := by
  cases h with
  | zero => exact Nat.zero_le _
  | @next c o hstart hfull hreach hend =>
    have hle := reach_le hreach
    have hlen := chunkAt_length file c
    have hpos : 0 < logBufferSize := by decide
    omega

theorem readable_lt (hfile : 0 ≤ wrapInt file.length) : (readable file).length < 0x80000000 := by
  have hint := (inInt_wrapInt file.length).2
  have hread := readable_length hfile
  omega

theorem scanLoop_eq (hfile : 0 ≤ wrapInt file.length) (hc : c ≤ (readable file).length) :
    scanLoop file turns (fuel + 1) c = (do
      let p ← scanChunk (chunkAt file c) turns 0 c
      if (chunkAt file c).length < logBufferSize then .ok p.1
      else
        let rest ← scanLoop file turns fuel p.2
        .ok (p.1 ++ rest)) := by
  rw [scanLoop, readLog_eq hfile hc]
  rfl

/-- A turn of the outer loop that ends. -/
theorem scanLoop_turn (hfile : 0 ≤ wrapInt file.length) (hc : c ≤ (readable file).length)
    (h : scanLoop file turns fuel c ≠ .error .diverged) :
    EndsIn (chunkAt file c) turns 0 ∧ ∀ o, ReflTransGen (Leads (chunkAt file c)) 0 o → ¬Complete (chunkAt file c) o →
      ¬(chunkAt file c).length < logBufferSize → ∃ fuel' < fuel, scanLoop file turns fuel' (c + o) ≠ .error .diverged := by
  cases fuel with
  | zero => exact absurd rfl h
  | succ fuel =>
    rw [scanLoop_eq hfile hc] at h
    cases hscan : scanChunk (chunkAt file c) turns 0 c with
    | error d =>
      rw [hscan] at h
      refine absurd ?_ h
      rw [scanChunk_error hscan]
      rfl
    | ok p =>
      obtain ⟨seen, e⟩ := p
      refine ⟨⟨c, _, hscan⟩, fun o hreach hend hfull => ⟨fuel, Nat.lt_succ_self fuel, ?_⟩⟩
      have hsize : c + (chunkAt file c).length < 0x80000000 := by
        have hlen := chunkAt_length file c
        have hlt := readable_lt hfile
        omega
      obtain rfl := scanChunk_end hreach hend hsize hscan
      intro hdiverged
      refine h ?_
      rw [hscan]
      show (if (chunkAt file c).length < logBufferSize then Except.ok seen
        else scanLoop file turns fuel (c + o) >>= fun rest => .ok (seen ++ rest)) = _
      rw [if_neg hfull, hdiverged]
      rfl

theorem ChunkStart.scanned (hfile : 0 ≤ wrapInt file.length) (h : scanLoop file turns fuel 0 ≠ .error .diverged)
    (hstart : ChunkStart file c) : ∃ fuel', scanLoop file turns fuel' c ≠ .error .diverged := by
  induction hstart with
  | zero => exact ⟨fuel, h⟩
  | next hstart hfull hreach hend ih =>
    obtain ⟨fuel', h'⟩ := ih
    obtain ⟨fuel'', -, h''⟩ := (scanLoop_turn hfile hstart.le h').2 _ hreach hend hfull
    exact ⟨fuel'', h''⟩

end

end Rmdb
