import Mathlib.Logic.Function.Basic
import KernelC.Lib.ByteMem
import KernelC.Lib.Run
import KernelC.Libc.String

/-!
# The file system: `fat16/fs.c` over `ramdisk/ramdisk.c`

The state is the three static objects of the source: the FAT, the entry table
and the bytes of the ramdisk. Tables are functions from indices; only indices
below `fatEntries` and `fsMaxEntries` are ever used. A function returns its
C result next to the new state. `none` marks a read through a NULL `ext`, which
`fs_create_file` makes when it compares extensions.

A `for` loop that returns at its first hit is `List.find?` over the range of
its counter. The loops along a chain are recursive in a number of iterations
that is never exhausted: `free_cluster_chain` zeroes one entry of the table
per iteration, `fs_read` and `fs_write` move at least one byte.
-/

namespace KernelC.Fat16

def bytesPerSector : Nat := 512
def sectorsPerCluster : Nat := 1
def reservedSectors : Nat := 1
def numFats : Nat := 2
def sectorsPerFat : Nat := 32
def fatEntries : Nat := bytesPerSector * sectorsPerFat
def clusterSize : Nat := bytesPerSector * sectorsPerCluster

/-- The FAT value of the last cluster of a chain. -/
def eof : Nat := 0xFFFF

def fsNameMax : Nat := 64
def fsExtMax : Nat := 64
def fsMaxEntries : Nat := 512
def fsRootIdx : Nat := 0

/-- `fs_entry_t`. -/
structure Entry where
  name : List UInt8
  ext : List UInt8
  parent : Int
  firstCluster : Nat
  size : Nat
  used : Bool
  isDir : Bool
deriving DecidableEq

/-- An entry after `memset` to zero. -/
def Entry.zero : Entry where
  name := List.replicate fsNameMax 0
  ext := List.replicate fsExtMax 0
  parent := 0
  firstCluster := 0
  size := 0
  used := false
  isDir := false

/-- The static state of `fs.c` and `ramdisk.c`. The size of the ramdisk (`RAMDISK_SIZE`) is not
modelled: the clusters of the table take the first 8 of its 64 MiB. -/
structure FS where
  fat : Nat → Nat
  entries : Nat → Entry
  disk : Mem

/-! ## Clusters -/

/-- The offset of a cluster in the ramdisk. The subtraction comes last, as the
difference `cluster - 2` is a signed number in the source. -/
def getCluster (cluster : Nat) : Nat :=
  (reservedSectors + numFats * sectorsPerFat) * bytesPerSector +
    cluster * sectorsPerCluster * bytesPerSector - 2 * sectorsPerCluster * bytesPerSector

/-- The first free cluster, marked as the end of a chain; 0 when there is none. -/
def allocCluster (fat : Nat → Nat) : Nat × (Nat → Nat) :=
  match (List.range' 2 (fatEntries - 2)).find? fun i => fat i == 0 with
  | some i => (i, Function.update fat i eof)
  | none => (0, fat)

def freeClusterLoop : Nat → (Nat → Nat) → Nat → (Nat → Nat)
  | 0, fat, _ => fat
  | fuel + 1, fat, cur =>
    if cur ≠ 0 ∧ cur < fatEntries ∧ fat cur ≠ 0 then
      let next := fat cur
      let fat := Function.update fat cur 0
      if next = eof then fat else freeClusterLoop fuel fat next
    else fat

def freeClusterChain (fat : Nat → Nat) (first : Nat) : Nat → Nat :=
  if first < 2 ∨ first ≥ fatEntries then fat else freeClusterLoop fatEntries fat first

/-! ## Entries -/

/-- `strncpy(field, s, max - 1); field[max - 1] = 0`. -/
def storeField (max : Nat) (field : List UInt8) (s : CStr) : List UInt8 :=
  (strncpy field s (max - 1)).set (max - 1) 0

/-- The name of the root directory. -/
def rootName : CStr := ⟨[47], by simp⟩

/-- `fs_init`. The ramdisk keeps the bytes it has. -/
def fsInit (disk : Mem) : FS where
  fat := fun _ => 0
  entries := Function.update (fun _ => Entry.zero) fsRootIdx
    { Entry.zero with
      used := true
      isDir := true
      parent := -1
      name := storeField fsNameMax Entry.zero.name rootName
      ext := Entry.zero.ext.set 0 0 }
  disk := disk

/-- The first unused slot after the root; `none` for the result -1. -/
def findFreeEntry (entries : Nat → Entry) : Option Nat :=
  (List.range' 1 (fsMaxEntries - 1)).find? fun i => !(entries i).used

def hasChildren (entries : Nat → Entry) (idx : Int) : Bool :=
  if idx < 0 ∨ idx ≥ fsMaxEntries then false
  else (List.range fsMaxEntries).any fun i => (entries i).used && (entries i).parent == idx

/-- The duplicate test of `fs_mkdir` at slot `i`. -/
def dupDirAt (fs : FS) (name : CStr) (parent : Int) (i : Nat) : Bool :=
  let e := fs.entries i
  e.used && e.parent == parent && e.isDir && nameeq e.name name fsNameMax

def fsMkdir (fs : FS) (name : Option CStr) (parent : Int) : Int × FS :=
  match name with
  | none => (-1, fs)
  | some name =>
    if parent < 0 ∨ parent ≥ fsMaxEntries then (-1, fs)
    else if !(fs.entries parent.toNat).used || !(fs.entries parent.toNat).isDir then (-2, fs)
    else if (List.range fsMaxEntries).any (dupDirAt fs name parent) then (-3, fs)
    else
      match findFreeEntry fs.entries with
      | none => (-4, fs)
      | some idx =>
        let e := { Entry.zero with
          name := storeField fsNameMax Entry.zero.name name
          ext := Entry.zero.ext.set 0 0
          parent := parent
          isDir := true
          used := true }
        (idx, { fs with entries := Function.update fs.entries idx e })

/-- Clear the `used` flag of slot `idx`; everything else of the slot stays. -/
def clearUsed (fs : FS) (idx : Nat) : FS :=
  { fs with entries := Function.update fs.entries idx { fs.entries idx with used := false } }

def fsRmdir (fs : FS) (dirIdx : Int) : Int × FS :=
  if dirIdx ≤ 0 ∨ dirIdx ≥ fsMaxEntries then (-1, fs)
  else if !(fs.entries dirIdx.toNat).used || !(fs.entries dirIdx.toNat).isDir then (-2, fs)
  else if hasChildren fs.entries dirIdx then (-3, fs)
  else (0, clearUsed fs dirIdx.toNat)

/-- The duplicate test of `fs_create_file` at slot `i`. With `ext = NULL` it is
the test whether the comparison of extensions, and with it the read through
NULL, is reached. -/
def dupFileAt (fs : FS) (name : CStr) (ext : Option CStr) (parent : Int) (i : Nat) : Bool :=
  let e := fs.entries i
  e.used && e.parent == parent && !e.isDir && nameeq e.name name fsNameMax &&
    (match ext with
      | none => true
      | some ext => nameeq e.ext ext fsExtMax)

/-- The result, what is written to `*out_cluster`, and the new state. -/
def fsCreateFile (fs : FS) (name ext : Option CStr) (parent : Int) :
    Option (Int × Option Nat × FS) :=
  match name with
  | none => some (-1, none, fs)
  | some name =>
    if parent < 0 ∨ parent ≥ fsMaxEntries then some (-1, none, fs)
    else if !(fs.entries parent.toNat).used || !(fs.entries parent.toNat).isDir then
      some (-2, none, fs)
    else
      match (List.range fsMaxEntries).find? (dupFileAt fs name ext parent) with
      | some _ => if ext.isNone then none else some (-3, none, fs)
      | none =>
        match findFreeEntry fs.entries with
        | none => some (-4, none, fs)
        | some idx =>
          let (c, fat) := allocCluster fs.fat
          if c = 0 then some (-5, none, { fs with fat := fat })
          else
            let e := { Entry.zero with
              name := storeField fsNameMax Entry.zero.name name
              ext := match ext with
                | some ext => storeField fsExtMax Entry.zero.ext ext
                | none => Entry.zero.ext.set (fsExtMax - 1) 0
              parent := parent
              isDir := false
              used := true
              firstCluster := c
              size := 0 }
            some (idx, some c,
              { fs with
                fat := Function.update fat c eof
                entries := Function.update fs.entries idx e })

def fsRemoveEntry (fs : FS) (idx : Int) : Int × FS :=
  if idx ≤ 0 ∨ idx ≥ fsMaxEntries then (-1, fs)
  else if !(fs.entries idx.toNat).used then (-2, fs)
  else if (fs.entries idx.toNat).isDir then
    if hasChildren fs.entries idx then (-3, fs) else (0, clearUsed fs idx.toNat)
  else
    let first := (fs.entries idx.toNat).firstCluster
    (0, clearUsed { fs with fat := freeClusterChain fs.fat first } idx.toNat)

/-- The match condition of `fs_find_in_dir` at slot `i`. A directory matches
only when the wanted extension is NULL or empty. -/
def matchAt (fs : FS) (name : CStr) (ext : Option CStr) (parent : Int) (i : Nat) : Bool :=
  let e := fs.entries i
  e.used && e.parent == parent &&
    (if e.isDir then
      (match ext with
        | none => true
        | some ext => ext.at 0 == 0) && nameeq e.name name fsNameMax
    else
      nameeq e.name name fsNameMax && nameeq e.ext (ext.getD CStr.empty) fsExtMax)

/-- The index (-1 when nothing matches) and the record copied to `*out`. -/
def fsFindInDir (fs : FS) (name ext : Option CStr) (parent : Int) : Int × Option Entry :=
  match name with
  | none => (-1, none)
  | some name =>
    if parent < 0 ∨ parent ≥ fsMaxEntries then (-1, none)
    else
      match (List.range fsMaxEntries).find? (matchAt fs name ext parent) with
      | some i => (i, some (fs.entries i))
      | none => (-1, none)

/-! ## Reading and writing a chain -/

/-- The loop of `fs_read`; the result is what `memcpy` puts at `out + read`. -/
def fsReadLoop (fat : Nat → Nat) (disk : Mem) (size : Nat) : Nat → Nat → Nat → List UInt8
  | 0, _, _ => []
  | fuel + 1, cur, read =>
    if cur ≠ 0 ∧ cur < fatEntries ∧ read < size then
      let toCopy := min (size - read) clusterSize
      let bytes := load disk (getCluster cur) toCopy
      if fat cur = eof then bytes
      else bytes ++ fsReadLoop fat disk size fuel (fat cur) (read + toCopy)
    else []

/-- `fs_read`: the bytes put at the start of `buf`; their number is the C
result. -/
def fsRead (fs : FS) (firstCluster size : Nat) : List UInt8 :=
  if firstCluster < 2 ∨ firstCluster ≥ fatEntries then []
  else fsReadLoop fs.fat fs.disk size size firstCluster 0

/-- The loop of `fs_write`. Returns `written`, the FAT and the ramdisk. -/
def fsWriteLoop (data : List UInt8) :
    Nat → (Nat → Nat) → Mem → Nat → Nat → Nat × (Nat → Nat) × Mem
  | 0, fat, disk, _, written => (written, fat, disk)
  | fuel + 1, fat, disk, cur, written =>
    if written < data.length then
      let toWrite := min (data.length - written) clusterSize
      let disk := store disk (getCluster cur) ((data.drop written).take toWrite)
      let written := written + toWrite
      if written < data.length then
        if fat cur = eof then
          let (nc, fat) := allocCluster fat
          if nc = 0 then (written, Function.update fat cur eof, disk)
          else fsWriteLoop data fuel (Function.update fat cur nc) disk nc written
        else fsWriteLoop data fuel fat disk (fat cur) written
      else (written, Function.update fat cur eof, disk)
    else (written, fat, disk)

def fsWrite (fs : FS) (firstCluster : Nat) (data : List UInt8) : Nat × FS :=
  if firstCluster < 2 ∨ firstCluster ≥ fatEntries then (0, fs)
  else
    let (written, fat, disk) := fsWriteLoop data data.length fs.fat fs.disk firstCluster 0
    (written, { fs with fat := fat, disk := disk })

/-! ## Files by name -/

def setSize (fs : FS) (idx size : Nat) : FS :=
  { fs with entries := Function.update fs.entries idx { fs.entries idx with size := size } }

/-- The second half of `fs_write_file_in_dir`, once the entry `idx` has its
start cluster. -/
def writeContents (fs : FS) (idx : Nat) (data : List UInt8) : Int × FS :=
  if data.length = 0 then
    let fs := setSize fs idx 0
    (0, { fs with fat := Function.update fs.fat (fs.entries idx).firstCluster eof })
  else
    let (written, fs) := fsWrite fs (fs.entries idx).firstCluster data
    if written ≠ data.length then (-6, setSize fs idx (written % 2 ^ 32))
    else (0, setSize fs idx (data.length % 2 ^ 32))

/-- The branch of `fs_write_file_in_dir` for an entry that exists: the old
chain is freed and a new start cluster taken. `none` is the result -5. -/
def restartChain (fs : FS) (idx : Nat) : Option FS × FS :=
  let fat := freeClusterChain fs.fat (fs.entries idx).firstCluster
  let (cluster, fat) := allocCluster fat
  if cluster = 0 then (none, { fs with fat := fat })
  else
    let fs' : FS := { fs with
      fat := Function.update fat cluster eof
      entries := Function.update fs.entries idx
        { fs.entries idx with firstCluster := cluster } }
    (some fs', fs')

def fsWriteFileInDir (fs : FS) (name ext : Option CStr) (parent : Int) (data : List UInt8) :
    Option (Int × FS) :=
  if name.isNone then some (-1, fs)
  else if parent < 0 ∨ parent ≥ fsMaxEntries then some (-2, fs)
  else if !(fs.entries parent.toNat).used || !(fs.entries parent.toNat).isDir then some (-3, fs)
  else
    let idx := (fsFindInDir fs name ext parent).1
    if idx < 0 then
      match fsCreateFile fs name ext parent with
      | none => none
      | some (cidx, _, fs) =>
        if cidx < 0 then some (-4, fs) else some (writeContents fs cidx.toNat data)
    else
      match restartChain fs idx.toNat with
      | (none, fs) => some (-5, fs)
      | (some fs, _) => some (writeContents fs idx.toNat data)

/-- The result, the bytes put at the start of `buf`, and `*out_size`. -/
def fsReadFileInDir (fs : FS) (name ext : Option CStr) (parent : Int) (bufsize : Nat) :
    Int × List UInt8 × Option Nat :=
  match fsFindInDir fs name ext parent with
  | (_, none) => (-1, [], none)
  | (_, some f) =>
    if bufsize < f.size then (-2, [], none)
    else
      let bytes := fsRead fs f.firstCluster f.size
      (0, bytes, some bytes.length)

/-! ## Runs -/

/-- The calls that change the file system. -/
inductive Op
  | mkdir (name : Option CStr) (parent : Int)
  | rmdir (idx : Int)
  | createFile (name ext : Option CStr) (parent : Int)
  | removeEntry (idx : Int)
  | writeFileInDir (name ext : Option CStr) (parent : Int) (data : List UInt8)
  | write (firstCluster : Nat) (data : List UInt8)

/-- The state after a call; `none` after a read through NULL. -/
def step (fs : FS) : Op → Option FS
  | .mkdir name parent => some (fsMkdir fs name parent).2
  | .rmdir idx => some (fsRmdir fs idx).2
  | .createFile name ext parent => (fsCreateFile fs name ext parent).map (·.2.2)
  | .removeEntry idx => some (fsRemoveEntry fs idx).2
  | .writeFileInDir name ext parent data => (fsWriteFileInDir fs name ext parent data).map (·.2)
  | .write c data => some (fsWrite fs c data).2

/-- `e` is an entry in use of the table. -/
def Used (fs : FS) (i : Nat) : Prop := i < fsMaxEntries ∧ (fs.entries i).used = true

/-- `i` is a file in use. -/
def IsFile (fs : FS) (i : Nat) : Prop := Used fs i ∧ (fs.entries i).isDir = false

/-- `i` is a directory in use. -/
def IsDirectory (fs : FS) (i : Nat) : Prop := Used fs i ∧ (fs.entries i).isDir = true

/-- The calls by name and index, with any arguments but a NULL extension. -/
def NameCall : Op → Prop
  | .createFile _ ext _ | .writeFileInDir _ ext _ _ => ext ≠ none
  | .write _ _ => False
  | _ => True

/-- Any call by name and index, and `fs_write` on the first cluster of a file in
use. -/
def FileCall (fs : FS) : Op → Prop
  | .write c _ => ∃ i, IsFile fs i ∧ (fs.entries i).firstCluster = c
  | _ => True

end KernelC.Fat16
