import KernelC.Fat16.Listing
import Mathlib.Algebra.BigOperators.Group.List.Basic

/-!
# What the file system is for

The abstract model: a table of nodes, each with a name and, unless it is a plain
directory, its bytes; and how many clusters are free. There is no FAT, no ramdisk, no
start cluster and nothing left over in an unused slot. A write keeps as much of the data
as the room allows, all of it or none being special cases.

A node has the clusters for its bytes, one if it has contents and these are empty
(`Node.cost`). The one call that gives up bytes without giving back their clusters is the
removal of a directory (`Store.lostBy`, `Store.call_balance`).
-/

namespace KernelC.Fat16

/-- The calls of `fs.h` by name and index. -/
inductive Request
  | mkdir (name : Option CStr) (parent : Int)
  | rmdir (idx : Int)
  | createFile (name ext : Option CStr) (parent : Int)
  | removeEntry (idx : Int)
  | findInDir (name ext : Option CStr) (parent : Int)
  | getAllInDir (maxFiles parent : Int)
  | writeFileInDir (name ext : Option CStr) (parent : Int) (data : List UInt8)
  | readFileInDir (name ext : Option CStr) (parent : Int) (bufsize : Nat)

/-- What a call hands back: the C result, with the records and bytes it copies out. -/
inductive Answer
  | code (ret : Int)
  | found (ret : Int) (entry : Option Shown)
  | listing (entries : List Shown)
  | bytes (ret : Int) (buf : List UInt8) (outSize : Option Nat)
deriving DecidableEq

/-- An entry in use. `data = none` stands for no contents, not even an empty chain. -/
structure Node where
  parent : Int
  name : CStr
  ext : CStr
  isDir : Bool
  data : Option (List UInt8)
deriving DecidableEq

/-- The clusters that contents take. -/
def clustersOf (data : List UInt8) : Nat := max 1 (clustersFor data.length)

def Node.cost (n : Node) : Nat := (n.data.map clustersOf).getD 0

def Node.contents (n : Node) : List UInt8 := n.data.getD []

def Node.shown (n : Node) : Shown where
  name := n.name
  ext := n.ext
  parent := n.parent
  isDir := n.isDir
  size := n.contents.length

def Node.listed (n : Node) : Shown := { n.shown with name := listedName n.name n.isDir }

/-- The node has the name that a lookup asks for. -/
def Node.answers (n : Node) (name : CStr) (ext : Option CStr) (parent : Int) : Bool :=
  n.parent == parent && n.name == name &&
    (if n.isDir then lookupExt ext == CStr.empty else n.ext == lookupExt ext)

/-- The nodes, by slot, and the number of free clusters. -/
structure Store where
  nodes : Nat → Option Node
  free : Nat

namespace Store

variable (s : Store)

/-! ## Asking -/

def isDirectory (p : Int) : Bool := (s.nodes p.toNat).any Node.isDir

/-- The first slot with a node that meets `p`. -/
def first (p : Node → Bool) : Option Nat :=
  (List.range fsMaxEntries).find? fun i => (s.nodes i).any p

/-- The first slot, after the root's, without a node. -/
def slot : Option Nat :=
  (List.range' 1 (fsMaxEntries - 1)).find? fun i => (s.nodes i).isNone

def hasChildren (idx : Int) : Bool := (s.first fun n => n.parent == idx).isSome

def lookup (name ext : Option CStr) (parent : Int) : Option Nat :=
  match name with
  | none => none
  | some name =>
    if parent < 0 ∨ parent ≥ fsMaxEntries then none
    else s.first fun n => n.answers name ext parent

def find (name ext : Option CStr) (parent : Int) : Answer :=
  match s.lookup name ext parent with
  | none => .found (-1) none
  | some i => .found i ((s.nodes i).map Node.shown)

def read (name ext : Option CStr) (parent : Int) (bufsize : Nat) : Answer :=
  match s.lookup name ext parent with
  | none => .bytes (-1) [] none
  | some i =>
    let data := ((s.nodes i).map Node.contents).getD []
    if bufsize < data.length then .bytes (-2) [] none else .bytes 0 data (some data.length)

def getAll (maxFiles parent : Int) : Answer :=
  if parent < 0 ∨ parent ≥ fsMaxEntries then .listing []
  else .listing (((((List.range fsMaxEntries).filterMap s.nodes).filter fun n =>
    n.parent == parent).take maxFiles.toNat).map Node.listed)

/-! ## Changing -/

/-- A change of slot `i`, and of the number of free clusters. -/
def put (i : Nat) (n : Option Node) (free : Nat) : Store where
  nodes := Function.update s.nodes i n
  free := free

def mkdir (name : Option CStr) (parent : Int) : Int × Store :=
  match name with
  | none => (-1, s)
  | some name =>
    if parent < 0 ∨ parent ≥ fsMaxEntries then (-1, s)
    else if !s.isDirectory parent then (-2, s)
    else if (s.first fun n => n.parent == parent && n.isDir && n.name == name).isSome then (-3, s)
    else
      match s.slot with
      | none => (-4, s)
      | some i =>
        (i, s.put i (some ⟨parent, name.take (fsNameMax - 1), CStr.empty, true, none⟩) s.free)

def rmdir (idx : Int) : Int × Store :=
  if idx ≤ 0 ∨ idx ≥ fsMaxEntries then (-1, s)
  else if !s.isDirectory idx then (-2, s)
  else if s.hasChildren idx then (-3, s)
  else (0, s.put idx.toNat none s.free)

/-- Without an extension to compare, the call does not survive a file of that name. -/
def create (name ext : Option CStr) (parent : Int) : Option (Int × Store) :=
  match name with
  | none => some (-1, s)
  | some name =>
    if parent < 0 ∨ parent ≥ fsMaxEntries then some (-1, s)
    else if !s.isDirectory parent then some (-2, s)
    else if (s.first fun n => n.parent == parent && !n.isDir && n.name == name &&
        ext.all fun x => n.ext == x).isSome then
      if ext.isNone then none else some (-3, s)
    else
      match s.slot with
      | none => some (-4, s)
      | some i =>
        if s.free = 0 then some (-5, s)
        else some (i, s.put i (some ⟨parent, name.take (fsNameMax - 1),
          (lookupExt ext).take (fsExtMax - 1), false, some []⟩) (s.free - 1))

/-- A file gives its clusters back, a directory does not. -/
def remove (idx : Int) : Int × Store :=
  if idx ≤ 0 ∨ idx ≥ fsMaxEntries then (-1, s)
  else
    match s.nodes idx.toNat with
    | none => (-2, s)
    | some n =>
      if n.isDir then if s.hasChildren idx then (-3, s) else (0, s.put idx.toNat none s.free)
      else (0, s.put idx.toNat none (s.free + n.cost))

/-- The node of slot `i` gets the contents `data`, as much of them as there is room for in
its own clusters and the free ones. -/
def rewrite (i : Nat) (data : List UInt8) : Int × Store :=
  match s.nodes i with
  | none => (-5, s)
  | some n =>
    let room := s.free + n.cost
    if room = 0 then (-5, s)
    else
      let kept := data.take (clusterSize * room)
      (if kept.length = data.length then 0 else -6,
        s.put i (some { n with data := some kept }) (room - clustersOf kept))

def write (name ext : Option CStr) (parent : Int) (data : List UInt8) : Option (Int × Store) :=
  if name.isNone then some (-1, s)
  else if parent < 0 ∨ parent ≥ fsMaxEntries then some (-2, s)
  else if !s.isDirectory parent then some (-3, s)
  else
    match s.lookup name ext parent with
    | some i => some (s.rewrite i data)
    | none =>
      match s.create name ext parent with
      | none => none
      | some (idx, s') => if idx < 0 then some (-4, s') else some (s'.rewrite idx.toNat data)

def call : Request → Option (Answer × Store)
  | .mkdir name parent => some (Prod.map .code id (s.mkdir name parent))
  | .rmdir idx => some (Prod.map .code id (s.rmdir idx))
  | .createFile name ext parent => (s.create name ext parent).map (Prod.map .code id)
  | .removeEntry idx => some (Prod.map .code id (s.remove idx))
  | .findInDir name ext parent => some (s.find name ext parent, s)
  | .getAllInDir maxFiles parent => some (s.getAll maxFiles parent, s)
  | .writeFileInDir name ext parent data =>
    (s.write name ext parent data).map (Prod.map .code id)
  | .readFileInDir name ext parent bufsize => some (s.read name ext parent bufsize, s)

end Store

/-- The store after `fs_init`: the root, and every cluster of the data area free. -/
def Store.init : Store where
  nodes := Function.update (fun _ => none) fsRootIdx (some ⟨-1, rootName, CStr.empty, true, none⟩)
  free := fatEntries - 2

end KernelC.Fat16
