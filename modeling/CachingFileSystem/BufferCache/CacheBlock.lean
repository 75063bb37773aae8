import Mathlib.Data.Int.Notation
import Mathlib.Data.ENat.Basic
import Mathlib.Order.Defs.LinearOrder

/-! Blocks of the buffer cache (CacheBlock.h, CacheBlock.cpp).
`Count` is the reading of the `int` reference counts: `Int32` wraps around as the machine
does, `ℕ∞` takes them as unbounded. `Buf` is what a non-null buffer pointer refers to.
-/

namespace CachingFileSystem.BufferCache

/-- A C string, without its terminating NUL. -/
abbrev Path := List Char

/-- Machine reference counts are ordered by value. -/
instance int32LinearOrder : LinearOrder Int32 where
  le_refl := Int32.le_refl
  le_trans _ _ _ := Int32.le_trans
  le_antisymm _ _ := Int32.le_antisymm
  le_total := Int32.le_total
  lt_iff_le_not_ge a b := by
    rw [Int32.not_le]
    exact ⟨fun less => ⟨Int32.le_of_lt less, less⟩, fun both => both.2⟩
  toDecidableLE := inferInstance

/-- `std::numeric_limits<int>::max()` in the machine reading. -/
instance int32OrderTop : OrderTop Int32 where
  top := Int32.maxValue
  le_top := Int32.le_maxValue

inductive Section where
  | newSection
  | middleSection
  | oldSection
  deriving DecidableEq, Repr

/-- The file id and the block number. -/
abbrev BlockID := ℤ × ℤ

structure CacheBlock (Count Buf : Type) where
  refCount : Count
  blockNumber : ℤ
  fileId : ℤ
  buff : Option Buf
  sectionType : Section
  path : Path

namespace CacheBlock

variable {Count Buf : Type}

/-- The constructor starts the count at one and the block in the new section; a null path
leaves the stored path empty.
-/
def new [One Count] (fileId blockNumber : ℤ) (buff : Option Buf) (path : Option Path)
    : CacheBlock Count Buf where
  refCount := 1
  blockNumber := blockNumber
  fileId := fileId
  buff := buff
  sectionType := .newSection
  path := path.getD []

def incrementRefCount [One Count] [Add Count] (block : CacheBlock Count Buf)
    : CacheBlock Count Buf :=
  { block with refCount := block.refCount + 1 }

def getBlockId (block : CacheBlock Count Buf) : BlockID := (block.fileId, block.blockNumber)

def setSection (sectionType : Section) (block : CacheBlock Count Buf)
    : CacheBlock Count Buf :=
  { block with sectionType := sectionType }

def setPath (path : Path) (block : CacheBlock Count Buf) : CacheBlock Count Buf :=
  { block with path := path }

end CacheBlock

end CachingFileSystem.BufferCache
