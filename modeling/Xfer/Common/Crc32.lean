import Xfer.Data.Bytes

/-! # CRC-32C

The byte-at-a-time table implementation of `common/crc32`.
-/

namespace Xfer.Common

/-- One step of `BuildTable`'s inner loop. -/
def shiftBit (c : UInt32) : UInt32 :=
  if c &&& 1 ≠ 0 then (0x82F63B78 : UInt32) ^^^ (c >>> 1) else c >>> 1

/-- `g_table[i]` as `BuildTable` fills it. -/
def tableEntry (i : UInt32) : UInt32 := (List.range 8).foldl (fun c _ => shiftBit c) i

def table : Vector UInt32 256 := Vector.ofFn fun i => tableEntry (UInt32.ofNat i)

structure Crc32 where
  state : UInt32 := 0xFFFFFFFF
  deriving DecidableEq

namespace Crc32

theorem index_lt (s : UInt32) : (s &&& 0xFF).toNat < 256 := by
  rw [UInt32.toNat_and]
  exact Nat.lt_succ_of_le Nat.and_le_right

/-- What one byte does to the state. -/
def step (s : UInt32) (b : UInt8) : UInt32 :=
  table.get ⟨((s ^^^ b.toUInt32) &&& 0xFF).toNat, index_lt _⟩ ^^^ (s >>> 8)

theorem step_eq (s : UInt32) (b : UInt8) :
    step s b = tableEntry ((s ^^^ b.toUInt32) &&& 0xFF) ^^^ (s >>> 8) := by
  have hentry : ∀ {i : ℕ} (h : i < 256), table.get ⟨i, h⟩ = tableEntry (UInt32.ofNat i) :=
    fun h => Vector.getElem_ofFn h
  rw [step, hentry, UInt32.ofNat_toNat]

def reset (_ : Crc32) : Crc32 := { state := 0xFFFFFFFF }

def update (c : Crc32) (data : Bytes) : Crc32 := { state := data.foldl step c.state }

def final (c : Crc32) : UInt32 := c.state ^^^ 0xFFFFFFFF

def compute (data : Bytes) : UInt32 := (({} : Crc32).update data).final

/-- The checksum without the table, which takes long to be filled. -/
theorem compute_eq (data : Bytes) : compute data = data.foldl
    (fun s b => tableEntry ((s ^^^ b.toUInt32) &&& 0xFF) ^^^ (s >>> 8)) 0xFFFFFFFF ^^^
      0xFFFFFFFF := by
  simp only [compute, final, update, ← step_eq]

@[simp] theorem update_nil (c : Crc32) : c.update [] = c := rfl

@[simp] theorem update_append (c : Crc32) (xs ys : Bytes) :
    c.update (xs ++ ys) = (c.update xs).update ys := by
  simp [update, List.foldl_append]

end Crc32

end Xfer.Common
