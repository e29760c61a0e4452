import BBView.Foundation.Packing
import BBView.Header

/-!
# Direct input and output

`enable_directio` walks down the constructors of a filetype and looks at the block lengths over a
named type, as `PMPI_Type_get_envelope` and `PMPI_Type_get_contents` report them.  `TypeTree` is a
datatype by its constructors, and `TypeTree.blocks` are the blocks that the constructor over a named
type lays out.
-/

namespace BBView

/-- The values of the constants of `mpi.h` that occur in the contents of a datatype. -/
structure MpiConstants where
  orderC : ℤ
  orderFortran : ℤ
  distributeBlock : ℤ
  distributeCyclic : ℤ
  distributeNone : ℤ
  distributeDfltDarg : ℤ
  orders_ne : orderFortran ≠ orderC
  block_ne_none : distributeBlock ≠ distributeNone
  cyclic_ne_none : distributeCyclic ≠ distributeNone
  cyclic_ne_block : distributeCyclic ≠ distributeBlock
  dfltDarg_ne : ∀ darg : ℕ+, (darg : ℤ) ≠ distributeDfltDarg

/-- The order of an array in memory. -/
inductive ArrayOrder
  | c
  | fortran
  deriving DecidableEq

/-- The dimension in which neighbours are adjacent. -/
def ArrayOrder.fastest {α : Type*} : ArrayOrder → α → List α → α
  | .c, first, others => others.getLastD first
  | .fortran, first, _ => first

def ArrayOrder.code (constants : MpiConstants) : ArrayOrder → ℤ
  | .c => constants.orderC
  | .fortran => constants.orderFortran

structure SubarrayDim where
  size : ℕ
  subsize : ℕ
  start : ℕ

/-- How a dimension is distributed; a distribution argument is missing where it is the default. -/
inductive Distribution
  | none
  | block (darg : Option ℕ+)
  | cyclic (darg : Option ℕ+)

structure DarrayDim where
  gsize : ℕ
  distrib : Distribution
  psize : ℕ+

/-- A datatype by its constructors. -/
inductive TypeTree
  | named (size : ℕ)
  | dup (inner : TypeTree)
  | contiguous (count : ℕ) (inner : TypeTree)
  | vector (count blocklength : ℕ) (stride : ℤ) (inner : TypeTree)
  | hvector (count blocklength : ℕ) (inner : TypeTree)
  | indexed (blocks : List (ℕ × ℤ)) (inner : TypeTree)
  | hindexed (blocklengths : List ℕ) (inner : TypeTree)
  | indexedBlock (blocklength : ℕ) (displacements : List ℤ) (inner : TypeTree)
  | hindexedBlock (count blocklength : ℕ) (inner : TypeTree)
  | struct (blocklengths : List ℕ) (inner : Fin blocklengths.length → TypeTree)
  | subarray (first : SubarrayDim) (others : List SubarrayDim) (order : ArrayOrder)
      (inner : TypeTree)
  | darray (size rank : ℕ) (first : DarrayDim) (others : List DarrayDim) (order : ArrayOrder)
      (inner : TypeTree)
  | f90Real (size : ℕ)
  | f90Complex (size : ℕ)
  | f90Integer (size : ℕ)
  | resized (inner : TypeTree)
  /-- Any other combiner, with the blocks that it lays out. -/
  | other (blocks : List ℕ)

/-! ## What a datatype lays out -/

namespace DarrayDim

/-- The length of the blocks that are dealt out. -/
def blockSize (dim : DarrayDim) : ℕ :=
  match dim.distrib with
  | .none => dim.gsize
  | .block .none => (dim.gsize + dim.psize - 1) / dim.psize
  | .block (.some darg) => darg
  | .cyclic .none => 1
  | .cyclic (.some darg) => darg

/-- The lengths of the blocks that the process at a coordinate gets. -/
def own (dim : DarrayDim) (coord : ℕ) : List ℕ :=
  match dim.distrib with
  | .none => [dim.gsize]
  | .block _ => [min dim.blockSize (dim.gsize - dim.blockSize * coord)]
  | .cyclic _ => (List.range dim.gsize).map fun turn =>
      min dim.blockSize (dim.gsize - dim.blockSize * (coord + dim.psize * turn))

/-- The coordinates of a process in the grid. -/
def coords : ℕ → List DarrayDim → List ℕ
  | _, [] => []
  | rank, _ :: dims =>
      let procs := (dims.map fun dim => (dim.psize : ℕ)).prod
      rank / procs :: coords (rank % procs) dims

/-- The lengths in the fastest dimension, unless the process has no part in some dimension. -/
def ownLengths (rank : ℕ) (first : DarrayDim) (others : List DarrayDim) (order : ArrayOrder) :
    List ℕ :=
  let parts := List.zipWith own (first :: others) (coords rank (first :: others))
  if parts.any fun part => part.all (· = 0) then []
  else order.fastest (parts.headD []) parts.tail

/-- The block length that the code assumes, where it does not refuse the distribution. -/
def assumed (dim : DarrayDim) : Option ℕ :=
  match dim.distrib with
  | .none => some dim.gsize
  | .block .none => some (dim.gsize / dim.psize)
  | .block (.some darg) => some darg
  | .cyclic _ => none

end DarrayDim

namespace SubarrayDim

/-- The length of a run in the fastest dimension, unless the subarray is empty. -/
def ownLengths (first : SubarrayDim) (others : List SubarrayDim) (order : ArrayOrder) : List ℕ :=
  if (first :: others).any fun dim => dim.subsize = 0 then []
  else [(order.fastest first others).subsize]

end SubarrayDim

namespace TypeTree

/-- The size of a named type. -/
def asNamed : TypeTree → Option ℕ
  | named size => some size
  | _ => none

/-- The blocks of a constructor with these block lengths. -/
def laid (inner : TypeTree) (innerBlocks lengths : List ℕ) : List ℕ :=
  match inner.asNamed with
  | some size => lengths.map (· * size)
  | none => if lengths.all (· = 0) then [] else innerBlocks

/-- The byte lengths of the blocks of data. -/
def blocks : TypeTree → List ℕ
  | named size => [size]
  | dup inner => inner.blocks
  | contiguous count inner => inner.laid inner.blocks [count]
  | vector count blocklength _ inner => inner.laid inner.blocks (List.replicate count blocklength)
  | hvector count blocklength inner => inner.laid inner.blocks (List.replicate count blocklength)
  | indexed parts inner => inner.laid inner.blocks (parts.map Prod.fst)
  | hindexed blocklengths inner => inner.laid inner.blocks blocklengths
  | indexedBlock blocklength displacements inner =>
      inner.laid inner.blocks (List.replicate displacements.length blocklength)
  | hindexedBlock count blocklength inner =>
      inner.laid inner.blocks (List.replicate count blocklength)
  | struct blocklengths inner =>
      (List.finRange blocklengths.length).flatMap fun c =>
        (inner c).laid (inner c).blocks [blocklengths.get c]
  | subarray first others order inner =>
      inner.laid inner.blocks (SubarrayDim.ownLengths first others order)
  | darray _ rank first others order inner =>
      inner.laid inner.blocks (DarrayDim.ownLengths rank first others order)
  | f90Real size => [size]
  | f90Complex size => [size]
  | f90Integer size => [size]
  | resized inner => inner.blocks
  | other parts => parts

end TypeTree

/-! ## What the code is told -/

namespace Distribution

def code (constants : MpiConstants) : Distribution → ℤ
  | none => constants.distributeNone
  | block _ => constants.distributeBlock
  | cyclic _ => constants.distributeCyclic

def darg (constants : MpiConstants) : Distribution → ℤ
  | block (some darg) => darg
  | cyclic (some darg) => darg
  | _ => constants.distributeDfltDarg

end Distribution

namespace TypeTree

/-- The array `i` of `PMPI_Type_get_contents`. -/
def integers (constants : MpiConstants) : TypeTree → List ℤ
  | contiguous count _ => [count]
  | vector count blocklength stride _ => [count, blocklength, stride]
  | hvector count blocklength _ => [count, blocklength]
  | indexed parts _ =>
      (parts.length : ℤ) :: parts.map (fun part => (part.1 : ℤ)) ++ parts.map Prod.snd
  | hindexed blocklengths _ => blocklengths.length :: blocklengths.map (↑)
  | indexedBlock blocklength displacements _ =>
      displacements.length :: blocklength :: displacements
  | hindexedBlock count blocklength _ => [count, blocklength]
  | struct blocklengths _ => blocklengths.length :: blocklengths.map (↑)
  | subarray first others order _ =>
      let dims := first :: others
      [(dims.length : ℤ)] ++
        [dims.map fun dim => (dim.size : ℤ), dims.map fun dim => (dim.subsize : ℤ),
          dims.map fun dim => (dim.start : ℤ)].flatten ++ [order.code constants]
  | darray size rank first others order _ =>
      let dims := first :: others
      [(size : ℤ), (rank : ℤ), (dims.length : ℤ)] ++
        [dims.map fun dim => (dim.gsize : ℤ), dims.map fun dim => dim.distrib.code constants,
          dims.map fun dim => dim.distrib.darg constants,
          dims.map fun dim => ((dim.psize : ℕ) : ℤ)].flatten ++ [order.code constants]
  | _ => []

end TypeTree

/-- The calls of `enable_directio` to MPI. -/
inductive TypeCall
  | getEnvelope
  | getContents
  | size

/-- What `enable_directio` works with. -/
structure DirectIo where
  constants : MpiConstants
  /-- Whether a call about a datatype returns `MPI_SUCCESS`. -/
  succeeds : TypeCall → TypeTree → Bool
  pagesize : ℤ
  threshold : ℤ

namespace DirectIo

variable (env : DirectIo)

/-- A length that does not lead to `disable`. -/
def accepts (bytes : ℤ) : Bool :=
  !(decide (bytes.tmod env.pagesize ≠ 0) || decide (bytes < env.threshold))

/-- The way from the recursion for `d[c]` to the test of a block length, with the size of `d[c]`. -/
def enableOver (inner : TypeTree) (enabled : Bool) (test : ℤ → Bool) : Bool :=
  enabled ||
    match inner.asNamed with
    | some size =>
        env.succeeds .getEnvelope inner && env.succeeds .size inner && decide (size ≠ 0) &&
          test size
    | none => false

/-- The envelope and the contents of a datatype are there. -/
def opens (type : TypeTree) : Bool :=
  env.succeeds .getEnvelope type && env.succeeds .getContents type

/-- Entry `k` of the array `i`. -/
def entry (type : TypeTree) (k : ℤ) : ℤ := (type.integers env.constants).getD k.toNat 0

/-- The test of `size * i[k]`. -/
def acceptsEntry (type : TypeTree) (k size : ℤ) : Bool :=
  env.accepts (toInt (size * env.entry type k))

/-- The test behind `MPI_COMBINER_SUBARRAY`. -/
def testSubarray (type : TypeTree) (size : ℤ) : Bool :=
  let ndims := env.entry type 0
  let order := env.entry type (3 * ndims + 1)
  if order = env.constants.orderC then env.acceptsEntry type (2 * ndims) size
  else if order = env.constants.orderFortran then env.acceptsEntry type (ndims + 1) size
  else false

/-- The test behind `MPI_COMBINER_DARRAY` in dimension `dim`. -/
def testDistribution (type : TypeTree) (dim size : ℤ) : Bool :=
  let ndims := env.entry type 2
  let distrib := env.entry type (ndims + 3 + dim)
  if distrib = env.constants.distributeNone then env.acceptsEntry type (3 + dim) size
  else if distrib = env.constants.distributeBlock then
    let darg := env.entry type (2 * ndims + 3 + dim)
    let blockSize :=
      if darg = env.constants.distributeDfltDarg then
        (env.entry type (3 + dim)).tdiv (env.entry type (3 * ndims + 3 + dim))
      else darg
    env.accepts (toInt (size * blockSize))
  else false

/-- The test behind `MPI_COMBINER_DARRAY`. -/
def testDarray (type : TypeTree) (size : ℤ) : Bool :=
  let ndims := env.entry type 2
  let order := env.entry type (4 * ndims + 3)
  if order = env.constants.orderC then env.testDistribution type (ndims - 1) size
  else if order = env.constants.orderFortran then env.testDistribution type 0 size
  else false

/-- `enable_directio` -/
def enableDirectio : TypeTree → Bool
  | type@(.named size) =>
      env.succeeds .getEnvelope type && env.succeeds .size type && decide (size ≠ 0) &&
        env.accepts size
  | type@(.dup inner) => env.opens type && enableDirectio inner
  | type@(.contiguous _ inner) =>
      env.opens type && decide (env.entry type 0 ≠ 0) &&
        env.enableOver inner (enableDirectio inner) (env.acceptsEntry type 0)
  | type@(.vector _ _ _ inner) | type@(.hvector _ _ inner) =>
      env.opens type && decide (env.entry type 0 ≠ 0) &&
        env.enableOver inner (enableDirectio inner) (env.acceptsEntry type 1)
  | type@(.indexed _ inner) | type@(.hindexed _ inner) =>
      env.opens type && decide (env.entry type 0 ≠ 0) &&
        env.enableOver inner (enableDirectio inner) fun size =>
          (List.range (env.entry type 0).toNat).all fun c => env.acceptsEntry type (c + 1) size
  | type@(.indexedBlock _ _ inner) | type@(.hindexedBlock _ _ inner) =>
      env.opens type && decide (env.entry type 0 ≠ 0) &&
        env.enableOver inner (enableDirectio inner) (env.acceptsEntry type 1)
  | type@(.struct blocklengths inner) =>
      env.opens type && decide (env.entry type 0 ≠ 0) &&
        (List.finRange blocklengths.length).all fun c =>
          env.enableOver (inner c) (enableDirectio (inner c)) (env.acceptsEntry type (c + 1))
  | type@(.subarray _ _ _ inner) =>
      env.opens type && decide (env.entry type 0 ≠ 0) &&
        env.enableOver inner (enableDirectio inner) (env.testSubarray type)
  | type@(.darray _ _ _ _ _ inner) =>
      env.opens type && decide (env.entry type 0 ≠ 0) &&
        env.enableOver inner (enableDirectio inner) (env.testDarray type)
  | .f90Real _ | .f90Complex _ | .f90Integer _ | .resized _ => false
  | type@(.other _) => env.succeeds .getEnvelope type

/-! ## What the code reads -/

theorem entry_natCast (type : TypeTree) (k : ℕ) :
    env.entry type k = (type.integers env.constants).getD k 0 := rfl

section Reading

variable {env} {size : ℤ}

/-- `indexed` and `struct` read the block lengths behind their number. -/
theorem entry_of_cons {type : TypeTree} {header : ℤ} {lengths : List ℕ} {rest : List ℤ}
    (integers_eq : type.integers env.constants = header :: lengths.map (↑) ++ rest) {c : ℕ}
    (inside : c < lengths.length) : env.entry type (c + 1) = lengths[c] := by
  rw [← Nat.cast_succ, entry_natCast, integers_eq, List.cons_append, List.getD_cons_succ,
    List.getD_append _ _ _ _ (by simpa using inside)]
  simp [inside]

section Table

variable {type : TypeTree} {header : List ℤ} {columns : List (List ℤ)} {last : ℤ} {width : ℕ}
  (integers_eq : type.integers env.constants = header ++ columns.flatten ++ [last])
  (uniform : ∀ column ∈ columns, column.length = width)

include integers_eq uniform

/-- An entry of the columns that describe the dimensions. -/
theorem entry_column (index : ℕ) (inside : index < columns.length) (shift : ℕ)
    (short : shift < width) {k : ℤ} (k_eq : k = (header.length + (index * width + shift) : ℕ)) :
    env.entry type k = columns[index].getD shift 0 := by
  rw [k_eq, entry_natCast, integers_eq, List.append_assoc,
    List.getD_append_right _ _ _ _ (Nat.le_add_right _ _), Nat.add_sub_cancel_left,
    Packing.getD_flatten_append uniform inside short]

/-- The entry behind them. -/
theorem entry_last {k : ℤ} (k_eq : k = (header.length + columns.length * width : ℕ)) :
    env.entry type k = last := by
  rw [k_eq, entry_natCast, integers_eq, List.append_assoc,
    List.getD_append_right _ _ _ _ (Nat.le_add_right _ _), Nat.add_sub_cancel_left,
    Packing.getD_flatten_append_length uniform]
  rfl

end Table

/-- The last entry of a column. -/
theorem getD_map_last {α : Type*} (f : α → ℤ) (first : α) (others : List α) :
    ((first :: others).map f).getD others.length 0 = f (others.getLastD first) := by
  induction others generalizing first with
  | nil => rfl
  | cons next others ih =>
      rw [List.map_cons, List.length_cons, List.getD_cons_succ, ih, List.getLastD_cons]

theorem testSubarray_eq (first : SubarrayDim) (others : List SubarrayDim) (order : ArrayOrder)
    (inner : TypeTree) :
    env.testSubarray (.subarray first others order inner) size =
      env.accepts (toInt (size * (order.fastest first others).subsize)) := by
  have integers_eq : (TypeTree.subarray first others order inner).integers env.constants =
      [((others.length + 1 : ℕ) : ℤ)] ++
        [(first :: others).map fun dim => (dim.size : ℤ),
          (first :: others).map fun dim => (dim.subsize : ℤ),
          (first :: others).map fun dim => (dim.start : ℤ)].flatten ++
        [order.code env.constants] := rfl
  have uniform : ∀ column ∈ [(first :: others).map fun dim => (dim.size : ℤ),
      (first :: others).map fun dim => (dim.subsize : ℤ),
      (first :: others).map fun dim => (dim.start : ℤ)], column.length = others.length + 1 := by
    simp
  have order_eq : env.entry (.subarray first others order inner)
      (3 * ((others.length + 1 : ℕ) : ℤ) + 1) = order.code env.constants := by
    apply entry_last integers_eq uniform
    push_cast [List.length_cons, List.length_nil]
    ring
  have ndims_eq : env.entry (.subarray first others order inner) 0 = (others.length + 1 : ℕ) := rfl
  simp only [testSubarray, ndims_eq, order_eq]
  cases order with
  | c =>
      rw [ArrayOrder.code, if_pos rfl, acceptsEntry,
        entry_column integers_eq uniform 1 (by simp) others.length
          (Nat.lt_succ_self _) (by push_cast [List.length_singleton]; ring)]
      rw [List.getElem_cons_succ, List.getElem_cons_zero, getD_map_last]
      rfl
  | fortran =>
      rw [ArrayOrder.code, if_neg env.constants.orders_ne, if_pos rfl, acceptsEntry,
        entry_column integers_eq uniform 1 (by simp) 0
          (Nat.succ_pos _) (by push_cast [List.length_singleton]; ring)]
      rfl

/-- The test of a distribution, with what the code reads about the dimension. -/
theorem testDistribution_eq {type : TypeTree} {position : ℤ} (dim : DarrayDim)
    (gsize_eq : env.entry type (3 + position) = dim.gsize)
    (distrib_eq : env.entry type (env.entry type 2 + 3 + position) =
      dim.distrib.code env.constants)
    (darg_eq : env.entry type (2 * env.entry type 2 + 3 + position) =
      dim.distrib.darg env.constants)
    (psize_eq : env.entry type (3 * env.entry type 2 + 3 + position) = (dim.psize : ℕ)) :
    env.testDistribution type position size =
      dim.assumed.any fun length : ℕ => env.accepts (toInt (size * (length : ℤ))) := by
  simp only [testDistribution, distrib_eq, darg_eq, psize_eq, acceptsEntry, gsize_eq]
  cases distrib : dim.distrib with
  | none =>
      rw [Distribution.code, if_pos rfl, DarrayDim.assumed, distrib]
      rfl
  | block darg =>
      rw [Distribution.code, if_neg env.constants.block_ne_none, if_pos rfl, DarrayDim.assumed,
        distrib]
      cases darg with
      | none =>
          have default : (Distribution.block none).darg env.constants =
              env.constants.distributeDfltDarg := rfl
          rw [if_pos default]
          rfl
      | some darg =>
          have given : (Distribution.block (some darg)).darg env.constants ≠
              env.constants.distributeDfltDarg := env.constants.dfltDarg_ne darg
          rw [if_neg given]
          rfl
  | cyclic darg =>
      rw [Distribution.code, if_neg env.constants.cyclic_ne_none,
        if_neg env.constants.cyclic_ne_block, DarrayDim.assumed, distrib]
      rfl

theorem testDarray_eq (procs rank : ℕ) (first : DarrayDim) (others : List DarrayDim)
    (order : ArrayOrder) (inner : TypeTree) :
    env.testDarray (.darray procs rank first others order inner) size =
      (order.fastest first others).assumed.any fun length : ℕ =>
        env.accepts (toInt (size * (length : ℤ))) := by
  have integers_eq : (TypeTree.darray procs rank first others order inner).integers env.constants =
      [(procs : ℤ), (rank : ℤ), ((others.length + 1 : ℕ) : ℤ)] ++
        [(first :: others).map fun dim => (dim.gsize : ℤ),
          (first :: others).map fun dim => dim.distrib.code env.constants,
          (first :: others).map fun dim => dim.distrib.darg env.constants,
          (first :: others).map fun dim => ((dim.psize : ℕ) : ℤ)].flatten ++
        [order.code env.constants] := rfl
  have uniform : ∀ column ∈ [(first :: others).map fun dim => (dim.gsize : ℤ),
      (first :: others).map fun dim => dim.distrib.code env.constants,
      (first :: others).map fun dim => dim.distrib.darg env.constants,
      (first :: others).map fun dim => ((dim.psize : ℕ) : ℤ)],
        column.length = others.length + 1 := by
    simp
  have ndims_eq : env.entry (.darray procs rank first others order inner) 2 =
      (others.length + 1 : ℕ) := rfl
  have order_eq : env.entry (.darray procs rank first others order inner)
      (4 * ((others.length + 1 : ℕ) : ℤ) + 3) = order.code env.constants := by
    apply entry_last integers_eq uniform
    push_cast [List.length_cons, List.length_nil]
    ring
  have read (index : ℕ) (inside : index < 4) (shift : ℕ) (short : shift < others.length + 1)
      {k : ℤ} (k_eq : k = 3 + (index * (others.length + 1) + shift)) :=
    entry_column integers_eq uniform index inside shift short
      (show k = _ by rw [k_eq]; push_cast [List.length_cons, List.length_nil]; ring)
  simp only [testDarray, ndims_eq, order_eq]
  cases order with
  | c =>
      rw [ArrayOrder.code, if_pos rfl]
      apply testDistribution_eq (others.getLastD first)
      · rw [read 0 (by decide) others.length (Nat.lt_succ_self _) (by push_cast; ring)]
        exact getD_map_last (fun dim : DarrayDim => (dim.gsize : ℤ)) first others
      · rw [read 1 (by decide) others.length (Nat.lt_succ_self _)
          (by rw [ndims_eq]; push_cast; ring)]
        exact getD_map_last (fun dim : DarrayDim => dim.distrib.code env.constants) first others
      · rw [read 2 (by decide) others.length (Nat.lt_succ_self _)
          (by rw [ndims_eq]; push_cast; ring)]
        exact getD_map_last (fun dim : DarrayDim => dim.distrib.darg env.constants) first others
      · rw [read 3 (by decide) others.length (Nat.lt_succ_self _)
          (by rw [ndims_eq]; push_cast; ring)]
        exact getD_map_last (fun dim : DarrayDim => ((dim.psize : ℕ) : ℤ)) first others
  | fortran =>
      rw [ArrayOrder.code, if_neg env.constants.orders_ne, if_pos rfl]
      apply testDistribution_eq first
      · rw [read 0 (by decide) 0 (Nat.succ_pos _) (by push_cast; ring)]
        rfl
      · rw [read 1 (by decide) 0 (Nat.succ_pos _) (by rw [ndims_eq]; push_cast; ring)]
        rfl
      · rw [read 2 (by decide) 0 (Nat.succ_pos _) (by rw [ndims_eq]; push_cast; ring)]
        rfl
      · rw [read 3 (by decide) 0 (Nat.succ_pos _) (by rw [ndims_eq]; push_cast; ring)]
        rfl

end Reading

end DirectIo

/-! ## Constructors over named types -/

/-- Where the recursion ends. -/
inductive Leaf
  /-- The code looks no further. -/
  | refused
  /-- Blocks of a named type: the lengths that the code tests, if any, and those laid out. -/
  | blocks (size : ℕ) (tested : Option (List ℕ)) (own : List ℕ)
  /-- A combiner that the code does not know. -/
  | unknown (own : List ℕ)

namespace Leaf

/-- The byte lengths of the blocks. -/
def laidOut : Leaf → List ℕ
  | refused => []
  | blocks size _ own => own.map (· * size)
  | unknown own => own

/-- A constructor over a named type has its own lengths. -/
def withLengths (tested : Option (List ℕ)) (own : List ℕ) : Leaf → Leaf
  | blocks size _ _ => blocks size tested own
  | leaf => leaf

/-- A constructor that is not used. -/
def emptied : Leaf → Leaf
  | refused => refused
  | blocks size tested _ => blocks size tested []
  | unknown _ => unknown []

/-- The tests of the code succeed. -/
def Passes (env : DirectIo) : Leaf → Prop
  | refused => False
  | blocks size tested _ =>
      size ≠ 0 ∧ (env.accepts size = true ∨
        ∃ lengths ∈ tested, ∀ length ∈ lengths, env.accepts (toInt (size * length)) = true)
  | unknown _ => True

/-- The code tests other lengths than those laid out. -/
def Misread : Leaf → Prop
  | refused => False
  | blocks _ tested own => ∃ lengths ∈ tested, ∃ length ∈ own, length ≠ 0 ∧ length ∉ lengths
  | unknown _ => True

end Leaf

/-- Every block that is not empty is aligned and long enough. -/
def DirectIo.Aligned (env : DirectIo) (lengths : List ℕ) : Prop :=
  ∀ bytes ∈ lengths, bytes ≠ 0 → env.pagesize ∣ bytes ∧ env.threshold ≤ bytes

namespace TypeTree

variable (env : DirectIo)

/-- The leaves of a constructor with these lengths. -/
def leavesOver (inner : TypeTree) (leaves : List Leaf) (tested : Option (List ℕ))
    (own : List ℕ) : List Leaf :=
  match inner.asNamed with
  | some _ => leaves.map (Leaf.withLengths tested own)
  | none => if own.all (· = 0) then leaves.map Leaf.emptied else leaves

/-- The leaves that the recursion gets to. -/
def leaves : TypeTree → List Leaf
  | type@(named size) =>
      if env.succeeds .getEnvelope type && env.succeeds .size type then
        [.blocks size none [1]]
      else [.refused]
  | type@(dup inner) => if env.opens type then inner.leaves else [.refused]
  | type@(contiguous count inner) =>
      if env.opens type ∧ count ≠ 0 then
        inner.leavesOver inner.leaves (some [count]) [count]
      else [.refused]
  | type@(vector count blocklength _ inner) | type@(hvector count blocklength inner) =>
      if env.opens type ∧ count ≠ 0 then
        inner.leavesOver inner.leaves (some [blocklength]) (List.replicate count blocklength)
      else [.refused]
  | type@(indexed parts inner) =>
      if env.opens type ∧ parts.length ≠ 0 then
        inner.leavesOver inner.leaves (some (parts.map Prod.fst)) (parts.map Prod.fst)
      else [.refused]
  | type@(hindexed blocklengths inner) =>
      if env.opens type ∧ blocklengths.length ≠ 0 then
        inner.leavesOver inner.leaves (some blocklengths) blocklengths
      else [.refused]
  | type@(indexedBlock blocklength displacements inner) =>
      if env.opens type ∧ displacements.length ≠ 0 then
        inner.leavesOver inner.leaves (some [blocklength])
          (List.replicate displacements.length blocklength)
      else [.refused]
  | type@(hindexedBlock count blocklength inner) =>
      if env.opens type ∧ count ≠ 0 then
        inner.leavesOver inner.leaves (some [blocklength]) (List.replicate count blocklength)
      else [.refused]
  | type@(struct blocklengths inner) =>
      if env.opens type ∧ blocklengths.length ≠ 0 then
        (List.finRange blocklengths.length).flatMap fun c =>
          (inner c).leavesOver (inner c).leaves (some [blocklengths.get c]) [blocklengths.get c]
      else [.refused]
  | type@(subarray first others order inner) =>
      if env.opens type ∧ (first :: others).length ≠ 0 then
        inner.leavesOver inner.leaves (some [(order.fastest first others).subsize])
          (SubarrayDim.ownLengths first others order)
      else [.refused]
  | type@(darray procs rank first others order inner) =>
      if env.opens type ∧ procs ≠ 0 then
        inner.leavesOver inner.leaves
          ((order.fastest first others).assumed.map fun length => [length])
          (DarrayDim.ownLengths rank first others order)
      else [.refused]
  | f90Real _ | f90Complex _ | f90Integer _ | resized _ => [.refused]
  | type@(other parts) => if env.succeeds .getEnvelope type then [.unknown parts] else [.refused]

/-- No conversion or reading of the code leads to a wrong answer: either it is refused for some
leaf, or the leaves that the code reads otherwise than MPI are aligned all the same. -/
def Harmless (type : TypeTree) : Prop :=
  (∃ leaf ∈ type.leaves env, ¬ leaf.Passes env) ∨
    ∀ leaf ∈ type.leaves env, leaf.Misread → env.Aligned leaf.laidOut

variable {env}

theorem asNamed_eq_some {type : TypeTree} {size : ℕ} (named : type.asNamed = some size) :
    type = .named size := by
  cases type <;> simp_all [asNamed]

theorem passes_emptied_iff (leaf : Leaf) : leaf.emptied.Passes env ↔ leaf.Passes env := by
  cases leaf <;> rfl

/-- The code goes on to a constructor over `inner` as the leaves say. -/
theorem enableOver_iff {inner : TypeTree}
    (ih : env.enableDirectio inner = true ↔ ∀ leaf ∈ inner.leaves env, leaf.Passes env)
    {test : ℤ → Bool} {tested : Option (List ℕ)}
    (test_iff : ∀ size : ℕ, test size = true ↔
      ∃ lengths ∈ tested, ∀ length ∈ lengths, env.accepts (toInt (size * (length : ℕ))) = true)
    (own : List ℕ) :
    env.enableOver inner (env.enableDirectio inner) test = true ↔
      ∀ leaf ∈ inner.leavesOver (inner.leaves env) tested own, leaf.Passes env := by
  rw [DirectIo.enableOver, leavesOver]
  cases named : inner.asNamed with
  | some size =>
      obtain rfl := asNamed_eq_some named
      rw [DirectIo.enableDirectio, leaves]
      by_cases told : (env.succeeds .getEnvelope (.named size) &&
          env.succeeds .size (.named size)) = true
      · simp only [told, if_true, Bool.true_and, List.map_singleton, List.forall_mem_singleton,
          Leaf.withLengths, Leaf.Passes, Bool.or_eq_true, Bool.and_eq_true, decide_eq_true_eq,
          test_iff size]
        exact and_or_left.symm
      · simp [told, Leaf.withLengths, Leaf.Passes]
  | none =>
      dsimp only
      rw [Bool.or_false, ih]
      split
      · simp only [List.forall_mem_map, passes_emptied_iff]
      · rfl

theorem forall_guarded_iff {guard : Prop} [Decidable guard] {leaves : List Leaf} :
    (∀ leaf ∈ if guard then leaves else [.refused], leaf.Passes env) ↔
      guard ∧ ∀ leaf ∈ leaves, leaf.Passes env := by
  by_cases holds : guard
  · rw [if_pos holds]
    exact (and_iff_right holds).symm
  · rw [if_neg holds]
    simp [holds, Leaf.Passes]

/-- The cases of the switch that test block lengths over `inner`. -/
theorem case_iff {type inner : TypeTree} {header : ℕ} (header_eq : env.entry type 0 = header)
    (ih : env.enableDirectio inner = true ↔ ∀ leaf ∈ inner.leaves env, leaf.Passes env)
    {test : ℤ → Bool} {tested : Option (List ℕ)}
    (test_iff : ∀ size : ℕ, test size = true ↔
      ∃ lengths ∈ tested, ∀ length ∈ lengths, env.accepts (toInt (size * (length : ℕ))) = true)
    (own : List ℕ) :
    (env.opens type && decide (env.entry type 0 ≠ 0) &&
        env.enableOver inner (env.enableDirectio inner) test) = true ↔
      ∀ leaf ∈ if env.opens type ∧ header ≠ 0 then
          inner.leavesOver (inner.leaves env) tested own
        else [.refused], leaf.Passes env := by
  rw [forall_guarded_iff, ← enableOver_iff ih test_iff own, Bool.and_eq_true, Bool.and_eq_true,
    decide_eq_true_eq, header_eq, Nat.cast_ne_zero]

theorem acceptsEntry_iff {type : TypeTree} {k : ℤ} {length : ℕ}
    (entry_eq : env.entry type k = length) (size : ℕ) :
    env.acceptsEntry type k size = true ↔
      ∃ lengths ∈ some [length], ∀ length ∈ lengths,
        env.accepts (toInt (size * (length : ℕ))) = true := by
  rw [DirectIo.acceptsEntry, entry_eq]
  simp

theorem allAccepted_iff {type : TypeTree} {lengths : List ℕ} (rest : List ℤ)
    (integers_eq : type.integers env.constants =
      (lengths.length : ℤ) :: lengths.map (↑) ++ rest) (size : ℕ) :
    ((List.range (env.entry type 0).toNat).all fun c => env.acceptsEntry type (c + 1) size) =
        true ↔
      ∃ tested ∈ some lengths, ∀ length ∈ tested,
        env.accepts (toInt (size * (length : ℕ))) = true := by
  have header_eq : (env.entry type 0).toNat = lengths.length := by
    rw [DirectIo.entry, integers_eq]
    rfl
  have read {c : ℕ} (inside : c < lengths.length) :
      env.acceptsEntry type (c + 1) size = env.accepts (toInt (size * lengths[c])) := by
    rw [DirectIo.acceptsEntry, DirectIo.entry_of_cons integers_eq inside]
  rw [header_eq, List.all_eq_true]
  constructor
  · intro all
    refine ⟨lengths, rfl, fun length member => ?_⟩
    obtain ⟨c, inside, rfl⟩ := List.getElem_of_mem member
    rw [← read inside]
    exact all c (List.mem_range.mpr inside)
  · rintro ⟨tested, ⟨⟩, all⟩ c member
    have inside := List.mem_range.mp member
    rw [read inside]
    exact all _ (List.getElem_mem inside)

theorem testDarray_iff (procs rank : ℕ) (first : DarrayDim) (others : List DarrayDim)
    (order : ArrayOrder) (inner : TypeTree) (size : ℕ) :
    env.testDarray (.darray procs rank first others order inner) size = true ↔
      ∃ lengths ∈ (order.fastest first others).assumed.map fun length => [length],
        ∀ length ∈ lengths, env.accepts (toInt (size * (length : ℕ))) = true := by
  rw [DirectIo.testDarray_eq, Option.any_eq_true]
  simp only [Option.mem_def, Option.map_eq_some_iff]
  constructor
  · rintro ⟨length, assumed, accepted⟩
    refine ⟨[length], ⟨length, assumed, rfl⟩, ?_⟩
    rw [List.forall_mem_singleton]
    exact accepted
  · rintro ⟨lengths, ⟨length, assumed, rfl⟩, accepted⟩
    exact ⟨length, assumed, accepted length (List.mem_singleton_self length)⟩

/-- `enable_directio` says yes where the tests of all leaves succeed. -/
theorem enableDirectio_iff (type : TypeTree) :
    env.enableDirectio type = true ↔ ∀ leaf ∈ type.leaves env, leaf.Passes env := by
  induction type with
  | named size =>
      rw [DirectIo.enableDirectio, leaves, forall_guarded_iff, List.forall_mem_singleton]
      simp [Leaf.Passes, and_assoc]
  | dup inner ih =>
      rw [DirectIo.enableDirectio, leaves, forall_guarded_iff, Bool.and_eq_true, ih]
  | contiguous count inner ih =>
      rw [DirectIo.enableDirectio, leaves]
      exact case_iff rfl ih (acceptsEntry_iff rfl) _
  | vector count blocklength stride inner ih =>
      rw [DirectIo.enableDirectio, leaves]
      exact case_iff rfl ih (acceptsEntry_iff rfl) _
  | hvector count blocklength inner ih =>
      rw [DirectIo.enableDirectio, leaves]
      exact case_iff rfl ih (acceptsEntry_iff rfl) _
  | indexed parts inner ih =>
      rw [DirectIo.enableDirectio, leaves]
      refine case_iff rfl ih (allAccepted_iff (parts.map Prod.snd) ?_) _
      simp [integers, Function.comp_def]
  | hindexed blocklengths inner ih =>
      rw [DirectIo.enableDirectio, leaves]
      exact case_iff rfl ih (allAccepted_iff [] (List.append_nil _).symm) _
  | indexedBlock blocklength displacements inner ih =>
      rw [DirectIo.enableDirectio, leaves]
      exact case_iff rfl ih (acceptsEntry_iff rfl) _
  | hindexedBlock count blocklength inner ih =>
      rw [DirectIo.enableDirectio, leaves]
      exact case_iff rfl ih (acceptsEntry_iff rfl) _
  | struct blocklengths inner ih =>
      have entry_eq (c : Fin blocklengths.length) :
          env.entry (.struct blocklengths inner) (c + 1) = blocklengths.get c :=
        DirectIo.entry_of_cons (List.append_nil _).symm c.isLt
      have header_eq : env.entry (.struct blocklengths inner) 0 = blocklengths.length := rfl
      rw [DirectIo.enableDirectio, leaves, forall_guarded_iff, Bool.and_eq_true, Bool.and_eq_true,
        decide_eq_true_eq, header_eq, Nat.cast_ne_zero, List.all_eq_true]
      refine and_congr_right fun _ => ?_
      rw [List.forall_mem_flatMap]
      refine forall_congr' fun c => forall_congr' fun _ => ?_
      exact enableOver_iff (ih c) (acceptsEntry_iff (entry_eq c)) _
  | subarray first others order inner ih =>
      rw [DirectIo.enableDirectio, leaves]
      refine case_iff rfl ih (fun size => ?_) _
      rw [DirectIo.testSubarray_eq]
      simp
  | darray procs rank first others order inner ih =>
      rw [DirectIo.enableDirectio, leaves]
      exact case_iff rfl ih (testDarray_iff procs rank first others order inner) _
  | f90Real size => simp [DirectIo.enableDirectio, leaves, Leaf.Passes]
  | f90Complex size => simp [DirectIo.enableDirectio, leaves, Leaf.Passes]
  | f90Integer size => simp [DirectIo.enableDirectio, leaves, Leaf.Passes]
  | resized inner ih => simp [DirectIo.enableDirectio, leaves, Leaf.Passes]
  | other parts =>
      rw [DirectIo.enableDirectio, leaves, forall_guarded_iff]
      simp [Leaf.Passes]

/-! ## The leaves hold the blocks -/

theorem not_refused_of_guarded {guard : Prop} [Decidable guard] {leaves : List Leaf}
    (clean : ∀ leaf ∈ if guard then leaves else [.refused], leaf ≠ .refused) : guard := by
  by_contra fails
  rw [if_neg fails] at clean
  exact clean _ (List.mem_singleton_self _) rfl

theorem laid_eq {inner : TypeTree} {tested : Option (List ℕ)} {own : List ℕ}
    (ih : (∀ leaf ∈ inner.leaves env, leaf ≠ .refused) →
      inner.blocks = (inner.leaves env).flatMap Leaf.laidOut)
    (clean : ∀ leaf ∈ inner.leavesOver (inner.leaves env) tested own, leaf ≠ .refused) :
    inner.laid inner.blocks own =
      (inner.leavesOver (inner.leaves env) tested own).flatMap Leaf.laidOut := by
  rw [leavesOver] at clean ⊢
  rw [laid]
  cases named : inner.asNamed with
  | some size =>
      obtain rfl := asNamed_eq_some named
      simp only [named] at clean
      dsimp only
      rw [leaves] at clean ⊢
      by_cases told : (env.succeeds .getEnvelope (.named size) &&
          env.succeeds .size (.named size)) = true
      · rw [if_pos told]
        simp [Leaf.withLengths, Leaf.laidOut]
      · rw [if_neg told] at clean
        exact absurd rfl (clean _ (List.mem_singleton_self _))
  | none =>
      simp only [named] at clean
      dsimp only
      split
      · rw [List.flatMap_map]
        symm
        rw [List.flatMap_eq_nil_iff]
        intro leaf _
        cases leaf <;> rfl
      · rename_i used
        rw [if_neg used] at clean
        exact ih clean

theorem case_blocks_eq {guard : Prop} [Decidable guard] {inner : TypeTree}
    {tested : Option (List ℕ)} {own : List ℕ}
    (ih : (∀ leaf ∈ inner.leaves env, leaf ≠ .refused) →
      inner.blocks = (inner.leaves env).flatMap Leaf.laidOut)
    (clean : ∀ leaf ∈ if guard then inner.leavesOver (inner.leaves env) tested own else [.refused],
      leaf ≠ .refused) :
    inner.laid inner.blocks own =
      (if guard then inner.leavesOver (inner.leaves env) tested own else [.refused]).flatMap
        Leaf.laidOut := by
  have holds := not_refused_of_guarded clean
  rw [if_pos holds] at clean ⊢
  exact laid_eq ih clean

/-- Where the code refuses no leaf, the leaves hold the blocks of the datatype. -/
theorem blocks_eq (type : TypeTree) (clean : ∀ leaf ∈ type.leaves env, leaf ≠ .refused) :
    type.blocks = (type.leaves env).flatMap Leaf.laidOut := by
  induction type with
  | named size =>
      rw [leaves] at clean ⊢
      rw [if_pos (not_refused_of_guarded clean)]
      simp [blocks, Leaf.laidOut]
  | dup inner ih =>
      rw [leaves] at clean ⊢
      have holds := not_refused_of_guarded clean
      rw [if_pos holds] at clean ⊢
      exact ih clean
  | contiguous count inner ih =>
      rw [leaves] at clean ⊢
      exact case_blocks_eq ih clean
  | vector count blocklength stride inner ih =>
      rw [leaves] at clean ⊢
      exact case_blocks_eq ih clean
  | hvector count blocklength inner ih =>
      rw [leaves] at clean ⊢
      exact case_blocks_eq ih clean
  | indexed parts inner ih =>
      rw [leaves] at clean ⊢
      exact case_blocks_eq ih clean
  | hindexed blocklengths inner ih =>
      rw [leaves] at clean ⊢
      exact case_blocks_eq ih clean
  | indexedBlock blocklength displacements inner ih =>
      rw [leaves] at clean ⊢
      exact case_blocks_eq ih clean
  | hindexedBlock count blocklength inner ih =>
      rw [leaves] at clean ⊢
      exact case_blocks_eq ih clean
  | struct blocklengths inner ih =>
      rw [leaves] at clean ⊢
      have holds := not_refused_of_guarded clean
      rw [if_pos holds] at clean ⊢
      rw [List.forall_mem_flatMap] at clean
      rw [blocks, List.flatMap_assoc]
      apply List.flatMap_congr
      intro c member
      exact laid_eq (ih c) (clean c member)
  | subarray first others order inner ih =>
      rw [leaves] at clean ⊢
      exact case_blocks_eq ih clean
  | darray procs rank first others order inner ih =>
      rw [leaves] at clean ⊢
      exact case_blocks_eq ih clean
  | f90Real size => simp [leaves] at clean
  | f90Complex size => simp [leaves] at clean
  | f90Integer size => simp [leaves] at clean
  | resized inner ih => simp [leaves] at clean
  | other parts =>
      rw [leaves] at clean ⊢
      rw [if_pos (not_refused_of_guarded clean)]
      simp [blocks, Leaf.laidOut]

end TypeTree

/-! ## What the tests are worth -/

theorem DirectIo.accepts_iff {env : DirectIo} {bytes : ℤ} :
    env.accepts bytes = true ↔ env.pagesize ∣ bytes ∧ env.threshold ≤ bytes := by
  rw [accepts, Int.dvd_iff_tmod_eq_zero]
  simp

/-- A conversion to `int` keeps the remainder. -/
theorem dvd_of_dvd_toInt {page value : ℤ} (page_dvd : page ∣ 2 ^ 32) (divides : page ∣ toInt value) :
    page ∣ value := by
  have turns : value = toInt value + 2 ^ 32 * Int.bdiv value (2 ^ 32) := by
    rw [toInt, Int.bmod_eq_self_sub_mul_bdiv]
    push_cast
    ring
  rw [turns]
  exact dvd_add divides (page_dvd.mul_right _)

/-- Lengths that are tested are good. -/
theorem Leaf.Passes.aligned {env : DirectIo} (page_dvd : env.pagesize ∣ 2 ^ 32) {leaf : Leaf}
    (passes : leaf.Passes env) (read : ¬ leaf.Misread) : env.Aligned leaf.laidOut := by
  cases leaf with
  | refused => exact passes.elim
  | unknown own => exact absurd trivial read
  | blocks size tested own =>
      intro bytes member some_bytes
      obtain ⟨length, length_mem, rfl⟩ := List.mem_map.mp member
      have length_pos : 0 < length := Nat.pos_of_ne_zero (left_ne_zero_of_mul some_bytes)
      obtain ⟨-, whole | ⟨lengths, tested_eq, accepted⟩⟩ := passes
      · obtain ⟨divides, long⟩ := DirectIo.accepts_iff.mp whole
        have more : size ≤ length * size := Nat.le_mul_of_pos_left size length_pos
        refine ⟨?_, long.trans (by exact_mod_cast more)⟩
        rw [Nat.cast_mul]
        exact divides.mul_left _
      · have tested_mem : length ∈ lengths := by
          by_contra missed
          exact read ⟨lengths, tested_eq, length, length_mem, length_pos.ne', missed⟩
        obtain ⟨divides, long⟩ := DirectIo.accepts_iff.mp (accepted length tested_mem)
        have bytes_eq : ((length * size : ℕ) : ℤ) = (size : ℤ) * (length : ℤ) := by
          rw [Nat.cast_mul, mul_comm]
        have nonneg : 0 ≤ (size : ℤ) * (length : ℤ) := Int.mul_nonneg (Int.natCast_nonneg _)
          (Int.natCast_nonneg _)
        have converted := toInt_le nonneg
        rw [bytes_eq]
        refine ⟨dvd_of_dvd_toInt page_dvd divides, ?_⟩
        exact long.trans converted

/-- Where `enable_directio` says yes, the blocks of the datatype are aligned and long enough if and
only if each leaf that the code reads otherwise than MPI is, or the code refuses some leaf. -/
theorem enableDirectio_aligned_iff (env : DirectIo) {exponent : ℕ}
    (page : env.pagesize = 2 ^ exponent) (width : exponent < 31) (type : TypeTree) :
    (env.enableDirectio type = true →
        ∀ bytes ∈ type.blocks, bytes ≠ 0 → env.pagesize ∣ bytes ∧ env.threshold ≤ bytes) ↔
      type.Harmless env := by
  have page_dvd : env.pagesize ∣ 2 ^ 32 := by
    rw [page]
    exact pow_dvd_pow 2 (by omega)
  rw [TypeTree.enableDirectio_iff]
  by_cases passes : ∀ leaf ∈ type.leaves env, leaf.Passes env
  · have clean : ∀ leaf ∈ type.leaves env, leaf ≠ .refused := by
      rintro leaf member rfl
      exact passes _ member
    rw [type.blocks_eq clean]
    constructor
    · intro aligned
      right
      intro leaf member _ bytes bytes_mem
      exact aligned passes bytes (List.mem_flatMap.mpr ⟨leaf, member, bytes_mem⟩)
    · rintro (⟨leaf, member, fails⟩ | misread) - bytes bytes_mem
      · exact absurd (passes leaf member) fails
      · obtain ⟨leaf, member, laid_out⟩ := List.mem_flatMap.mp bytes_mem
        by_cases read : leaf.Misread
        · exact misread leaf member read bytes laid_out
        · exact (passes leaf member).aligned page_dvd read bytes laid_out
  · refine iff_of_true (fun all => absurd all passes) (.inl ?_)
    simpa only [not_forall, exists_prop] using passes

theorem dfltDarg_ne_sample (darg : ℕ+) : (darg : ℤ) ≠ -1 := by
  have positive := darg.pos
  omega

/-- The environment of `mca_io_bbview_file_set_view`, with calls that succeed. -/
def sampleDirectIo : DirectIo where
  constants :=
    { orderC := 0
      orderFortran := 1
      distributeBlock := 0
      distributeCyclic := 1
      distributeNone := 2
      distributeDfltDarg := -1
      orders_ne := one_ne_zero
      block_ne_none := two_ne_zero.symm
      cyclic_ne_none := OfNat.one_ne_ofNat 2
      cyclic_ne_block := one_ne_zero
      dfltDarg_ne := dfltDarg_ne_sample }
  succeeds _ _ := true
  pagesize := 4096
  threshold := 512 * 1024

/-- A vector of three blocks of 512 KiB. -/
theorem enableDirectio_aligned_iff_vector :
    sampleDirectIo.enableDirectio (.vector 3 524288 1000000 (.named 1)) = true ∧
      ∀ bytes ∈ (TypeTree.vector 3 524288 1000000 (.named 1)).blocks, bytes ≠ 0 →
        sampleDirectIo.pagesize ∣ bytes ∧ sampleDirectIo.threshold ≤ bytes := by
  have enabled : sampleDirectIo.enableDirectio (.vector 3 524288 1000000 (.named 1)) = true := by
    decide
  have harmless : (TypeTree.vector 3 524288 1000000 (.named 1)).Harmless sampleDirectIo := by
    have leaves_eq : (TypeTree.vector 3 524288 1000000 (.named 1)).leaves sampleDirectIo =
        [.blocks 1 (some [524288]) [524288, 524288, 524288]] := rfl
    right
    rw [leaves_eq, List.forall_mem_singleton]
    rintro ⟨lengths, ⟨⟩, length, member, -, missed⟩
    simp_all
  have page : sampleDirectIo.pagesize = 2 ^ 12 := rfl
  exact ⟨enabled, (enableDirectio_aligned_iff sampleDirectIo page (by decide) _).mpr harmless
    enabled⟩

/-- One byte more than two blocks of 512 KiB, dealt out to two processes: the code rounds the block
size down, and the first process has a byte more. -/
theorem enableDirectio_darray :
    sampleDirectIo.enableDirectio (.darray 2 0 ⟨1048577, .block none, 2⟩ [] .c (.named 1)) = true ∧
      (TypeTree.darray 2 0 ⟨1048577, .block none, 2⟩ [] .c (.named 1)).blocks = [524289] := by
  constructor <;> decide

end BBView
