import Faastr.Lib.LittleEndian

/-!
Byte-addressed memory and accesses of several bytes.

A memory gives every address a byte. `loadLe w` and `storeLe w` access `w` bytes
as one little-endian number. What a program relies on is how they act on single
bytes: storing what was loaded moves the bytes (`storeLe_loadLe`), storing a
number made of one byte repeated fills (`storeLe_replicate`), and two loads
agree exactly when all their bytes do (`loadLe_eq_iff`).
-/

namespace Faastr.Lib

/-- A byte for every address. -/
abbrev ByteMemory := Nat → UInt8

namespace ByteMemory

/-- The `w` bytes from `a` on, lowest address first. -/
def bytesAt (w : Nat) (m : ByteMemory) (a : Nat) : List UInt8 :=
  (List.range w).map fun k => m (a + k)

/-- Read `w` bytes at `a` as one number. -/
def loadLe (w : Nat) (m : ByteMemory) (a : Nat) : Nat := leNat (bytesAt w m a)

/-- Write the `w` low bytes of `v` at `a`. -/
def storeLe (w : Nat) (m : ByteMemory) (a v : Nat) : ByteMemory :=
  fun x => if a ≤ x ∧ x < a + w then (leBytes w v).getD (x - a) 0 else m x

variable {w a : Nat} {m : ByteMemory}

@[simp] theorem length_bytesAt : (bytesAt w m a).length = w := by simp [bytesAt]

theorem getD_bytesAt {k : Nat} (h : k < w) : (bytesAt w m a).getD k 0 = m (a + k) := by
  simp [bytesAt, h]

/-- A store that puts down the bytes of a list of its own width. -/
theorem storeLe_leNat {bs : List UInt8} (hlen : bs.length = w) (x : Nat) :
    storeLe w m a (leNat bs) x = if a ≤ x ∧ x < a + w then bs.getD (x - a) 0 else m x := by
  subst hlen
  rw [storeLe, leBytes_leNat]

/-- **Storing what was loaded moves the bytes.** -/
theorem storeLe_loadLe (b x : Nat) :
    storeLe w m a (loadLe w m b) x = if a ≤ x ∧ x < a + w then m (b + (x - a)) else m x := by
  rw [loadLe, storeLe_leNat length_bytesAt]
  split
  · rename_i hx
    exact getD_bytesAt (by omega)
  · rfl

/-- Storing a number made of one byte repeated fills. -/
theorem storeLe_replicate (b : UInt8) (x : Nat) :
    storeLe w m a (leNat (List.replicate w b)) x = if a ≤ x ∧ x < a + w then b else m x := by
  rw [storeLe_leNat List.length_replicate]
  split
  · rename_i hx
    have hk : x - a < w := by omega
    simp [hk]
  · rfl

theorem leNat_injective {bs cs : List UInt8} (hlen : bs.length = cs.length)
    (h : leNat bs = leNat cs) : bs = cs := by
  rw [← leBytes_leNat bs, ← leBytes_leNat cs, hlen, h]

/-- **Two loads agree exactly when all their bytes do.** -/
theorem loadLe_eq_iff {b : Nat} :
    loadLe w m a = loadLe w m b ↔ ∀ k, k < w → m (a + k) = m (b + k) := by
  constructor
  · intro h k hk
    have hbytes : bytesAt w m a = bytesAt w m b := leNat_injective (by simp) h
    calc m (a + k) = (bytesAt w m a).getD k 0 := (getD_bytesAt hk).symm
      _ = (bytesAt w m b).getD k 0 := by rw [hbytes]
      _ = m (b + k) := getD_bytesAt hk
  · intro h
    have hbytes : bytesAt w m a = bytesAt w m b := by
      apply List.map_congr_left
      intro k hk
      exact h k (List.mem_range.mp hk)
    rw [loadLe, loadLe, hbytes]

end ByteMemory

end Faastr.Lib
