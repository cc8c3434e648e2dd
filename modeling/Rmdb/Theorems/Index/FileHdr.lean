import Rmdb.Index.FileHdr
import Rmdb.Theorems.Recovery.Analyze

/-! The header of an index file is read back as it was written, if its columns leave it on one page. -/

namespace Rmdb.IxFileHdr
open Catalog (typeCode)

/-! ### Arrays -/

theorem flatMap_putInt_length {α : Type} (f : α → Int) (l : List α) : (l.flatMap fun x => putInt (f x)).length = 4 * l.length := by
  induction l with
  | nil => rfl
  | cons x xs ih =>
    rw [List.flatMap_cons, List.length_append, putInt_length, ih, List.length_cons]
    omega

theorem readInts_flatMap {α : Type} (f : α → Int) {l : List α} (h : ∀ x ∈ l, InInt (f x)) (rest : Bytes) :
    readInts l.length ((l.flatMap fun x => putInt (f x)) ++ rest) = l.map f := by
  induction l with
  | nil => rfl
  | cons x xs ih =>
    rw [List.flatMap_cons, List.append_assoc, List.length_cons, readInts, readInt_putInt (h x (List.mem_cons_self ..)), drop_putInt,
      ih fun y hy => h y (List.mem_cons_of_mem x hy), List.map_cons]

theorem typeCode_inInt (t : ColType) : InInt (typeCode t) := by
  cases t <;> exact ⟨by decide, by decide⟩

theorem mapM_colTypeOf (ts : List ColType) : (ts.map fun t => (typeCode t : Int)).mapM colTypeOf = some ts := by
  induction ts with
  | nil => rfl
  | cons t ts ih =>
    have ht : colTypeOf (typeCode t) = some t := by
      cases t <;> decide
    rw [List.map_cons, List.mapM_cons, ht, ih]
    rfl

/-! ### Headers -/

/-- A header with as many types and lengths as it says, whose numbers fit an `int`. -/
structure Sound (h : IxFileHdr) : Prop where
  types : (h.colTypes.length : Int) = h.colNum
  lens : (h.colLens.length : Int) = h.colNum
  total : h.totLen = 40 + 8 * h.colNum
  total_fits : InInt h.totLen
  firstFreePageNo_fits : InInt h.firstFreePageNo
  numPages_fits : InInt h.numPages
  rootPage_fits : InInt h.rootPage
  lens_fit : ∀ n ∈ h.colLens, InInt n
  colTotLen_fits : InInt h.colTotLen
  btreeOrder_fits : InInt h.btreeOrder
  keysSize_fits : InInt h.keysSize
  firstLeaf_fits : InInt h.firstLeaf
  lastLeaf_fits : InInt h.lastLeaf

variable {h : IxFileHdr}

/-- `serialize` ends with its assertion. -/
theorem Sound.length (hs : h.Sound) : (h.serialize.length : Int) = h.totLen := by
  have htypes : h.colTypes.take h.colNum.toNat = h.colTypes := List.take_of_length_le (by have := hs.types; omega)
  have hlens : h.colLens.take h.colNum.toNat = h.colLens := List.take_of_length_le (by have := hs.lens; omega)
  have hputs : (h.colLens.flatMap putInt).length = 4 * h.colLens.length := flatMap_putInt_length id h.colLens
  have := hs.types
  have := hs.lens
  have := hs.total
  simp only [serialize, htypes, hlens, List.length_append, putInt_length, hputs, flatMap_putInt_length]
  omega

theorem Sound.deserialize (hs : h.Sound) (l : Bytes) : IxFileHdr.deserialize (h.serialize ++ l) = some h := by
  have htypes : h.colTypes.take h.colNum.toNat = h.colTypes := List.take_of_length_le (by have := hs.types; omega)
  have hlens : h.colLens.take h.colNum.toNat = h.colLens := List.take_of_length_le (by have := hs.lens; omega)
  have hnum : InInt h.colNum := by
    have hfits := hs.total_fits
    rw [hs.total] at hfits
    have := hs.types
    exact ⟨by omega, by have := hfits.2; omega⟩
  have hn : h.colNum.toNat = h.colTypes.length := by have := hs.types; omega
  have hn' : h.colTypes.length = h.colLens.length := by have := hs.types; have := hs.lens; omega
  -- what stands behind the arrays, and the arrays before it
  let R := putInt h.colTotLen ++ (putInt h.btreeOrder ++ (putInt h.keysSize ++ (putInt h.firstLeaf ++ (putInt h.lastLeaf ++ l))))
  let L := h.colLens.flatMap putInt ++ R
  let T := (h.colTypes.flatMap fun t => putInt (typeCode t)) ++ L
  have hsrc : h.serialize ++ l = putInt h.totLen ++ (putInt h.firstFreePageNo ++ (putInt h.numPages ++ (putInt h.rootPage ++
      (putInt h.colNum ++ T)))) := by
    simp only [serialize, htypes, hlens, List.append_assoc, T, L, R]
  have hT : (h.serialize ++ l).drop 20 = T := by rw [hsrc]; rfl
  have hL : (h.serialize ++ l).drop (20 + 4 * h.colTypes.length) = L := by
    rw [← List.drop_drop, hT, ← flatMap_putInt_length (fun t => (typeCode t : Int)) h.colTypes]
    exact List.drop_left
  have hR : (h.serialize ++ l).drop (20 + 4 * h.colTypes.length + 4 * h.colTypes.length) = R := by
    have hlen : (h.colLens.flatMap putInt).length = 4 * h.colTypes.length := hn' ▸ flatMap_putInt_length id h.colLens
    rw [← List.drop_drop, hL, ← hlen]
    exact List.drop_left
  have hnumRead : readInt ((h.serialize ++ l).drop 16) = h.colNum := by rw [hsrc]; exact readInt_putInt hnum _
  have htypesRead : (readInts h.colTypes.length T).mapM colTypeOf = some h.colTypes := by
    rw [readInts_flatMap (fun t => (typeCode t : Int)) (fun t _ => typeCode_inInt t), mapM_colTypeOf]
  have hlensRead : readInts h.colTypes.length L = h.colLens := by
    rw [hn']
    exact (readInts_flatMap id hs.lens_fit R).trans (List.map_id _)
  have htot : readInt (h.serialize ++ l) = h.totLen := by rw [hsrc]; exact readInt_putInt hs.total_fits _
  have hfree : readInt ((h.serialize ++ l).drop 4) = h.firstFreePageNo := by
    rw [hsrc]; exact readInt_putInt hs.firstFreePageNo_fits _
  have hpages : readInt ((h.serialize ++ l).drop 8) = h.numPages := by rw [hsrc]; exact readInt_putInt hs.numPages_fits _
  have hroot : readInt ((h.serialize ++ l).drop 12) = h.rootPage := by rw [hsrc]; exact readInt_putInt hs.rootPage_fits _
  have hcols : readInt R = h.colTotLen := readInt_putInt hs.colTotLen_fits _
  have horder : readInt (R.drop 4) = h.btreeOrder := readInt_putInt hs.btreeOrder_fits _
  have hkeys : readInt (R.drop 8) = h.keysSize := readInt_putInt hs.keysSize_fits _
  have hfirst : readInt (R.drop 12) = h.firstLeaf := readInt_putInt hs.firstLeaf_fits _
  have hlast : readInt (R.drop 16) = h.lastLeaf := readInt_putInt hs.lastLeaf_fits _
  have hassert : h.totLen = 20 + 4 * (h.colTypes.length : Int) + 4 * h.colTypes.length + 20 := by
    have := hs.types
    have := hs.total
    omega
  unfold IxFileHdr.deserialize
  simp only [hnumRead, hn, hT, hL, hR, htypesRead, hlensRead, htot, hfree, hpages, hroot, hcols, horder, hkeys, hfirst, hlast,
    Option.bind_eq_bind, Option.bind_some, if_pos hassert]

/-! ### The headers of an index -/

end Rmdb.IxFileHdr
