import BBView.FileView
import BBView.Foundation.ByteFile
import BBView.Header

/-!
# Datatypes and the views made of them

A datatype is the list of its data segments in packing order with its extent; as memory layout it
says which bytes `pack` gathers, and as etype or filetype it becomes the segment list of a file
view.  How Open MPI describes a datatype in bytes is a parameter.
-/

namespace BBView

/-- A committed datatype. -/
structure Datatype where
  /-- The data segments of one element in packing order. -/
  iov : List Segment
  /-- The distance between consecutive elements. -/
  extent : ℤ
  deriving DecidableEq

namespace Datatype

/-- `ompi_datatype_type_size` -/
def size (type : Datatype) : ℕ := Segment.total type.iov

/-- Where the bytes of consecutive elements lie in memory, from the buffer's address on. -/
def layout (type : Datatype) : Tiling := ⟨0, type.iov, type.extent⟩

/-- The packed bytes of `count` elements in memory. -/
def pack (type : Datatype) (count : ℕ) (memory : ℤ → UInt8) : Bytes :=
  (List.range (count * type.size)).map fun position => memory (type.layout.place position)

@[simp]
theorem length_pack (type : Datatype) (count : ℕ) (memory : ℤ → UInt8) :
    (type.pack count memory).length = count * type.size := by
  simp [pack]

end Datatype

/-- A datatype handle; the code compares handles with `&ompi_mpi_byte.dt`, not what they describe. -/
inductive TypeHandle
  | mpiByte
  | other (type : Datatype)
  deriving DecidableEq

/-- The datatype behind a handle. -/
def TypeHandle.datatype : TypeHandle → Datatype
  | mpiByte => ⟨[⟨0, 1⟩], 1⟩
  | other type => type

/-- How Open MPI packs the description of a datatype and rebuilds a datatype from it. -/
structure Codec where
  /-- `ompi_datatype_get_pack_description` -/
  describe : TypeHandle → Bytes
  /-- `ompi_datatype_create_from_packed_description` -/
  unpack : Bytes → Option Datatype
  roundTrip : ∀ handle, unpack (describe handle) = some handle.datatype

/-- A datatype as a number. -/
def Datatype.code (type : Datatype) : ℕ :=
  Encodable.encode (type.iov.map fun segment => (segment.base, segment.len), type.extent)

/-- The datatype with a number. -/
def Datatype.ofCode (code : ℕ) : Option Datatype :=
  (Encodable.decode code : Option (List (ℤ × ℕ) × ℤ)).map fun type =>
    ⟨type.1.map fun segment => ⟨segment.1, segment.2⟩, type.2⟩

/-- Descriptions that state a datatype's number by their length. -/
def Codec.unary : Codec where
  describe handle := List.replicate handle.datatype.code 0
  unpack description := Datatype.ofCode description.length
  roundTrip handle := by
    rw [List.length_replicate, Datatype.ofCode, Datatype.code, Encodable.encodek]
    simp [Function.comp_def]

namespace FileView

/-- The view that ompio installs for a displacement, an etype and a filetype. -/
def ofTypes (disp : ℤ) (etype filetype : Datatype) : FileView :=
  { disp, decodedIov := filetype.iov, viewExtent := filetype.extent, etypeSize := etype.size }

/-- The file offset of a logical byte, where that is not negative. -/
def byteAt (view : FileView) (position : ℕ) : ℕ := (view.address position).toNat

/-- The assignments that put bytes at consecutive logical positions. -/
def placed (view : FileView) (position : ℕ) (bytes : Bytes) : List (ℕ × UInt8) :=
  (bytes.zipIdx position).map fun entry => (view.byteAt entry.2, entry.1)

@[simp]
theorem placed_nil (view : FileView) (position : ℕ) : view.placed position [] = [] := rfl

theorem placed_append (view : FileView) (position : ℕ) (first second : Bytes) :
    view.placed position (first ++ second) =
      view.placed position first ++ view.placed (position + first.length) second := by
  rw [placed, List.zipIdx_append, List.map_append]
  rfl

/-- A run of positions with a byte for each of them. -/
theorem placed_map_range (view : FileView) (position count : ℕ) (byte : ℕ → UInt8) :
    view.placed position ((List.range count).map byte) =
      (List.range count).map fun shift => (view.byteAt (position + shift), byte shift) := by
  induction count with
  | zero => rfl
  | succ count ih =>
      rw [List.range_succ, List.map_append, placed_append, ih, List.map_append]
      simp [placed]

end FileView

end BBView
