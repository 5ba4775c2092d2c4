import PagedStorage.Layout

/-!
# Page images

The image of a page is its `pageSize` bytes, and the size is part of the type, so an image is
never checked for its length again. The operations are the ones on blocks, restated for a block
whose size is fixed.
-/

namespace PagedStorage

/-- The bytes of one page. -/
abbrev Image := Vector UInt8 pageSize

namespace Image

/-- The image of zeros. -/
def zero : Image := Vector.replicate pageSize 0

/-- The image held by a block of the right size. -/
def ofBytes? (bytes : Array UInt8) : Option Image :=
  if h : bytes.size = pageSize then some ⟨bytes, h⟩ else none

/-- The `len` bytes from position `start`, fewer where the page ends before. -/
def slice (image : Image) (start len : Nat) : List UInt8 := Bytes.slice image.toArray start len

/-- The image with a list written over it from position `start`. -/
def overwrite (image : Image) (start : Nat) (bs : List UInt8) : Image :=
  ⟨Bytes.overwrite image.toArray start bs, by simp⟩

@[simp] theorem length_slice {start len : Nat} (image : Image) (h : start + len ≤ pageSize) :
    (image.slice start len).length = len := by
  have hsize : image.toArray.size = pageSize := image.size_toArray
  rw [slice, Bytes.length_slice, hsize]
  omega

/-- Inside the written stretch the image holds the list, elsewhere what it held before. -/
@[simp] theorem getElem?_overwrite (image : Image) (start : Nat) (bs : List UInt8) (i : Nat) :
    (image.overwrite start bs)[i]? =
      if start ≤ i ∧ i < start + bs.length ∧ i < pageSize then bs[i - start]? else image[i]? := by
  simp [overwrite]

end Image

end PagedStorage
