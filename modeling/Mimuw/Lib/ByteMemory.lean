import Mathlib.Tactic
import Mathlib.Data.BitVec

/-!
# Bytes under 64-bit addresses

A store of a word writes eight bytes, the lowest at its address. The bytes of a
region that count are read back with `bytesAt`; a store that begins where they
end leaves them alone, whatever it overwrites after them.
-/

namespace Mimuw.Lib

abbrev Word64 := BitVec 64

abbrev ByteMemory := Word64 → UInt8

namespace ByteMemory

/-- The `i`-th byte of a word, from the lowest. -/
def byteOf (v : Word64) (i : Nat) : UInt8 := UInt8.ofBitVec (v.extractLsb' (8 * i) 8)

/-- The `k` lowest bytes of a word, in the order they have in memory. -/
def lowBytes (k : Nat) (v : Word64) : List UInt8 := (List.range k).map (byteOf v)

def load (m : ByteMemory) (a : Word64) : Word64 :=
  (m (a + 7)).toBitVec ++ (m (a + 6)).toBitVec ++ (m (a + 5)).toBitVec ++ (m (a + 4)).toBitVec ++
    (m (a + 3)).toBitVec ++ (m (a + 2)).toBitVec ++ (m (a + 1)).toBitVec ++ (m a).toBitVec

def store (m : ByteMemory) (a v : Word64) : ByteMemory := fun x =>
  if (x - a).toNat < 8 then byteOf v (x - a).toNat else m x

/-- A string of bytes is copied into memory. -/
def fill (m : ByteMemory) (a : Word64) (bytes : List UInt8) : ByteMemory := fun x =>
  bytes.getD (x - a).toNat (m x)

def bytesAt (m : ByteMemory) (a : Word64) (n : Nat) : List UInt8 :=
  (List.range n).map fun i => m (a + BitVec.ofNat 64 i)

variable {m : ByteMemory} {a v : Word64} {n k : Nat}

@[simp] theorem length_lowBytes (k : Nat) (v : Word64) : (lowBytes k v).length = k := by
  simp [lowBytes]

@[simp] theorem bytesAt_zero (m : ByteMemory) (a : Word64) : bytesAt m a 0 = [] := rfl

@[simp] theorem length_bytesAt (m : ByteMemory) (a : Word64) (n : Nat) :
    (bytesAt m a n).length = n := by
  simp [bytesAt]

private theorem bytesAt_add (m : ByteMemory) (a : Word64) (n k : Nat) :
    bytesAt m a (n + k) = bytesAt m a n ++ bytesAt m (a + BitVec.ofNat 64 n) k := by
  simp [bytesAt, List.range_add, BitVec.ofNat_add, BitVec.add_assoc]

theorem bytesAt_succ (m : ByteMemory) (a : Word64) (n : Nat) :
    bytesAt m a (n + 1) = m a :: bytesAt m (a + 1) n := by
  rw [Nat.add_comm, bytesAt_add]
  simp [bytesAt]

/-- Memories that agree on a region hold the same bytes there. -/
private theorem bytesAt_congr {m' : ByteMemory}
    (h : ∀ i < n, m' (a + BitVec.ofNat 64 i) = m (a + BitVec.ofNat 64 i)) :
    bytesAt m' a n = bytesAt m a n := by
  simpa [bytesAt] using h

theorem load_low (m : ByteMemory) (a : Word64) : byteOf (load m a) 0 = m a := by
  have h : (load m a).extractLsb' 0 8 = (m a).toBitVec := by
    rw [load]
    exact BitVec.extractLsb'_append_eq_right
  simp [byteOf, h]

theorem bytesAt_store (hk : k ≤ 8) : bytesAt (store m a v) a k = lowBytes k v := by
  refine List.map_congr_left fun i hi => ?_
  have hi : i < k := List.mem_range.1 hi
  have hdist : (a + BitVec.ofNat 64 i - a).toNat = i := by bv_omega
  simp only [store, hdist]
  rw [if_pos (by omega)]

/-- A store at a place past the region or far enough before it is not seen there. -/
theorem bytesAt_store_of_far {b : Word64}
    (h : ∀ i < n, 8 ≤ (a + BitVec.ofNat 64 i - b).toNat) :
    bytesAt (store m b v) a n = bytesAt m a n := by
  refine bytesAt_congr fun i hi => ?_
  have := h i hi
  simp only [store]
  rw [if_neg (by omega)]

/-- A word is stored at the end of the bytes that count, and `k` of its bytes come to count. -/
theorem bytesAt_store_end {r : Word64} (hk : k ≤ 8) (hr : r.toNat + 8 ≤ 2 ^ 64) :
    bytesAt (store m (a + r) v) a (r.toNat + k) = bytesAt m a r.toNat ++ lowBytes k v := by
  rw [bytesAt_add]
  congr 1
  · exact bytesAt_store_of_far fun i hi => by bv_omega
  · rw [BitVec.ofNat_toNat, BitVec.setWidth_eq]
    exact bytesAt_store hk

theorem bytesAt_fill {bytes : List UInt8} (h : bytes.length ≤ 2 ^ 64) :
    bytesAt (fill m a bytes) a bytes.length = bytes := by
  refine List.ext_getElem (by simp) fun i hi hi' => ?_
  have hdist : (a + BitVec.ofNat 64 i - a).toNat = i := by bv_omega
  simp only [bytesAt, List.getElem_map, List.getElem_range, fill, hdist]
  simp [List.getD_eq_getElem?_getD, hi']

end ByteMemory

end Mimuw.Lib
