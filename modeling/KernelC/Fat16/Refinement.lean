import KernelC.Fat16.Store
import KernelC.Lib.Play

/-!
# The file system is the store

`storeOf` reads a store off the tables of `fs.c`: the bytes of a node are those that
`fs_read` finds in the chain of its entry. In a state that calls by name and index reach
(`StoreInv`) every call returns what the abstract call returns and leaves the store that
the abstract call leaves (`refines_store`); so whole sequences of calls are answered
alike (`file_system_is_store`).

An answer is the result, the bytes and the records without their start clusters. Two
states that stand for one store answer alike from then on (`equal_stores_answer_alike`),
whatever is in the ramdisk and in unused slots. The start clusters are not part of this:
`fs.h` hands them out, in `first_cluster` and `*out_cluster`, and they show where the
files lie.
-/

namespace KernelC.Fat16

/-! ## The store in the tables -/

/-- The node that an entry stands for. -/
def nodeOf (fs : FS) (e : Entry) : Node where
  parent := e.parent
  name := arrayStr e.name
  ext := arrayStr e.ext
  isDir := e.isDir
  data := if e.firstCluster = 0 then none else some (fsRead fs e.firstCluster e.size)

def nodeAt (fs : FS) (i : Nat) : Option Node :=
  if i < fsMaxEntries ∧ (fs.entries i).used = true then some (nodeOf fs (fs.entries i)) else none

def storeOf (fs : FS) : Store where
  nodes := nodeAt fs
  free := freeClusters fs.fat

/-- The calls of `fs.c` by name and index, with their answers. What is left out of these are the
start clusters: `first_cluster` of a record and `*out_cluster`. -/
def FS.call (fs : FS) : Request → Option (Answer × FS)
  | .mkdir name parent => some (Prod.map .code id (fsMkdir fs name parent))
  | .rmdir idx => some (Prod.map .code id (fsRmdir fs idx))
  | .createFile name ext parent =>
    (fsCreateFile fs name ext parent).map fun r => (.code r.1, r.2.2)
  | .removeEntry idx => some (Prod.map .code id (fsRemoveEntry fs idx))
  | .findInDir name ext parent =>
    let r := fsFindInDir fs name ext parent
    some (.found r.1 (r.2.map Entry.shown), fs)
  | .getAllInDir maxFiles parent =>
    some (.listing ((fsGetAllInDir fs maxFiles parent).map Entry.shown), fs)
  | .writeFileInDir name ext parent data =>
    (fsWriteFileInDir fs name ext parent data).map (Prod.map .code id)
  | .readFileInDir name ext parent bufsize =>
    let r := fsReadFileInDir fs name ext parent bufsize
    some (.bytes r.1 r.2.1 r.2.2, fs)

/-! ## The invariant -/

/-- The entry has no cluster, and is a directory without size, or has the clusters for
its size. -/
def Backed (fs : FS) (i : Nat) : Prop :=
  ((fs.entries i).firstCluster = 0 ∧ (fs.entries i).isDir = true ∧ (fs.entries i).size = 0) ∨
    Sized fs i

structure StoreInv (fs : FS) : Prop extends ChainInv fs where
  named : ∀ i, WellNamed (fs.entries i)
  backed : ∀ i, Used fs i → Backed fs i

theorem Sized.firstCluster_ne {fs : FS} {i : Nat} (h : Sized fs i) :
    (fs.entries i).firstCluster ≠ 0 := by
  obtain ⟨l, hl, -⟩ := h
  have := hl.start.1
  omega

theorem IsFile.sized {fs : FS} (h : StoreInv fs) {i : Nat} (hf : IsFile fs i) : Sized fs i := by
  rcases h.backed i hf.1 with ⟨-, hdir, -⟩ | hs
  · exact absurd (hdir.symm.trans hf.2) (by decide)
  · exact hs

section

variable {fs fs' : FS} {i : Nat}

/-- A call with target `i`: only slot `i` is left to check. -/
theorem StoreInv.of_confined (h : StoreInv fs) (hc : Confined fs fs' i)
    (hname : WellNamed (fs'.entries i)) (hself : Used fs' i → Backed fs' i) : StoreInv fs' := by
  refine ⟨hc.inv, fun j => ?_, fun j hj => ?_⟩
  · by_cases hji : j = i
    · exact hji ▸ hname
    · rw [hc.frame.entries j hji]
      exact h.named j
  · by_cases hji : j = i
    · subst hji
      exact hself hj
    · have hu := (used_of_entries_eq (hc.frame.entries j hji)).mp hj
      unfold Backed Sized
      rw [hc.frame.entries j hji]
      rcases h.backed j hu with hnone | ⟨l, hl, hlen⟩
      · exact .inl hnone
      · have hl' := hc.frame.chain hji hu hl
        rw [hc.frame.entries j hji] at hl'
        exact .inr ⟨l, hl', hlen⟩

/-- Of the nodes, such a call changes the one in slot `i`. -/
theorem nodeAt_frame (h : StoreInv fs) (hf : Frame fs fs' i) {j : Nat} (hj : j ≠ i) :
    nodeAt fs' j = nodeAt fs j := by
  unfold nodeAt
  rw [hf.entries j hj]
  by_cases hu : j < fsMaxEntries ∧ (fs.entries j).used = true
  · rw [if_pos hu, if_pos hu]
    unfold nodeOf
    by_cases h0 : (fs.entries j).firstCluster = 0
    · rw [if_pos h0, if_pos h0]
    · obtain ⟨l, hl⟩ := h.chain j hu h0
      have hl' := hf.chain hj hu hl
      rw [hf.entries j hj] at hl'
      rw [if_neg h0, if_neg h0, fsRead_eq hl', fsRead_eq hl, content_congr (hf.disk j l hj hu hl)]
  · rw [if_neg hu, if_neg hu]

theorem storeOf_frame (h : StoreInv fs) (hf : Frame fs fs' i) :
    storeOf fs' = (storeOf fs).put i (nodeAt fs' i) (freeClusters fs'.fat) := by
  simp only [storeOf, Store.put, Store.mk.injEq, and_true]
  funext j
  by_cases hj : j = i
  · rw [hj, Function.update_self]
  · rw [Function.update_of_ne hj, nodeAt_frame h hf hj]

theorem nodeAt_used (hu : Used fs i) : nodeAt fs i = some (nodeOf fs (fs.entries i)) := if_pos hu

theorem nodeAt_unused (hu : ¬ Used fs i) : nodeAt fs i = none := if_neg hu

theorem nodeAt_any (hi : i < fsMaxEntries) (p : Node → Bool) :
    (nodeAt fs i).any p = ((fs.entries i).used && p (nodeOf fs (fs.entries i))) := by
  unfold nodeAt
  by_cases hu : (fs.entries i).used = true
  · simp [hi, hu]
  · simp [hi, hu]

/-- A file in use: its bytes, and the clusters they take. -/
theorem Sized.node (hs : Sized fs i) :
    (nodeOf fs (fs.entries i)).data = some (fsRead fs (fs.entries i).firstCluster
      (fs.entries i).size) ∧
    (fsRead fs (fs.entries i).firstCluster (fs.entries i).size).length = (fs.entries i).size := by
  have h0 := hs.firstCluster_ne
  obtain ⟨l, hl, hsize⟩ := hs.covered
  refine ⟨if_neg h0, ?_⟩
  rw [fsRead_eq hl, List.length_take, content_length]
  omega

theorem Backed.size_eq (hb : Backed fs i) :
    (nodeOf fs (fs.entries i)).contents.length = (fs.entries i).size := by
  rcases hb with ⟨h0, -, hsize⟩ | hs
  · simp [Node.contents, nodeOf, h0, hsize]
  · rw [Node.contents, hs.node.1, Option.getD_some, hs.node.2]

/-- The cost of a node is the length of its chain. -/
theorem Sized.cost_eq (hs : Sized fs i) {l : List Nat}
    (hl : Chain fs.fat (fs.entries i).firstCluster l) :
    (nodeOf fs (fs.entries i)).cost = l.length := by
  obtain ⟨l', hl', hlen⟩ := id hs
  rw [hl.unique hl', hlen, Node.cost, hs.node.1, Option.map_some, Option.getD_some, clustersOf,
    hs.node.2]

end

/-! ## Questions are answered alike -/

section

variable {fs : FS} (h : StoreInv fs)

theorem isDirectory_storeOf {p : Int} (hp : ¬ (p < 0 ∨ p ≥ fsMaxEntries)) :
    (!(fs.entries p.toNat).used || !(fs.entries p.toNat).isDir) =
      !(storeOf fs).isDirectory p := by
  have hlt : p.toNat < fsMaxEntries := by omega
  rw [Store.isDirectory, storeOf, nodeAt_any hlt, Bool.not_and]
  rfl

theorem first_storeOf {p : Node → Bool} {t : Nat → Bool}
    (ht : ∀ i, i < fsMaxEntries → t i = (nodeAt fs i).any p) :
    (List.range fsMaxEntries).find? t = (storeOf fs).first p := by
  unfold Store.first storeOf
  generalize hl : List.range fsMaxEntries = l
  have hmem : ∀ i ∈ l, i < fsMaxEntries := fun i hi => List.mem_range.mp (hl ▸ hi)
  clear hl
  induction l with
  | nil => rfl
  | cons i l ih =>
    rw [List.find?_cons, List.find?_cons, ht i (hmem i List.mem_cons_self),
      ih fun j hj => hmem j (List.mem_cons_of_mem _ hj)]

theorem any_storeOf {p : Node → Bool} {t : Nat → Bool}
    (ht : ∀ i, i < fsMaxEntries → t i = (nodeAt fs i).any p) :
    (List.range fsMaxEntries).any t = ((storeOf fs).first p).isSome := by
  rw [← first_storeOf ht, List.any_eq, Bool.eq_iff_iff]
  simp [List.find?_isSome]

theorem hasChildren_storeOf {i : Int} (hi : ¬ (i < 0 ∨ i ≥ fsMaxEntries)) :
    hasChildren fs.entries i = (storeOf fs).hasChildren i := by
  rw [hasChildren, if_neg hi, Store.hasChildren]
  exact any_storeOf fun j hj => (nodeAt_any hj fun n => n.parent == i).symm

theorem slot_storeOf : findFreeEntry fs.entries = (storeOf fs).slot := by
  unfold findFreeEntry Store.slot storeOf
  have hend : 1 + (fsMaxEntries - 1) = fsMaxEntries := by decide
  have hmem : ∀ i ∈ List.range' 1 (fsMaxEntries - 1), i < fsMaxEntries := fun i hi => by
    have := (List.mem_range'_1.mp hi).2
    omega
  generalize List.range' 1 (fsMaxEntries - 1) = l at hmem
  induction l with
  | nil => rfl
  | cons i l ih =>
    have hone : (!(fs.entries i).used) = (nodeAt fs i).isNone := by
      unfold nodeAt
      by_cases hu : (fs.entries i).used = true
      · simp [hmem i List.mem_cons_self, hu]
      · simp [hmem i List.mem_cons_self, hu]
    rw [List.find?_cons, List.find?_cons, hone, ih fun j hj => hmem j (List.mem_cons_of_mem _ hj)]

include h

theorem nameeq_name (i : Nat) (t : CStr) :
    nameeq (fs.entries i).name t fsNameMax = (arrayStr (fs.entries i).name == t) := by
  rw [Bool.eq_iff_iff, nameeq_arrayStr (by decide) (h.named i).nameEnds, beq_iff_eq]
  exact eq_comm

theorem nameeq_ext (i : Nat) (t : CStr) :
    nameeq (fs.entries i).ext t fsExtMax = (arrayStr (fs.entries i).ext == t) := by
  rw [Bool.eq_iff_iff, nameeq_arrayStr (by decide) (h.named i).extEnds, beq_iff_eq]
  exact eq_comm

theorem dupDirAt_storeOf (name : CStr) (parent : Int) :
    (List.range fsMaxEntries).any (dupDirAt fs name parent) =
      ((storeOf fs).first fun n => n.parent == parent && n.isDir && n.name == name).isSome := by
  refine any_storeOf fun i hi => ?_
  rw [nodeAt_any hi, dupDirAt]
  simp only [nodeOf, nameeq_name h, Bool.and_assoc]

theorem dupFileAt_storeOf (name : CStr) (ext : Option CStr) (parent : Int) :
    (List.range fsMaxEntries).find? (dupFileAt fs name ext parent) =
      (storeOf fs).first fun n => n.parent == parent && !n.isDir && n.name == name &&
        ext.all fun x => n.ext == x := by
  refine first_storeOf fun i hi => ?_
  rw [nodeAt_any hi]
  unfold dupFileAt
  cases ext with
  | none => simp only [nodeOf, nameeq_name h, Bool.and_assoc, Option.all_none]
  | some ext => simp only [nodeOf, nameeq_name h, nameeq_ext h, Bool.and_assoc, Option.all_some]

theorem matchAt_storeOf (name : CStr) (ext : Option CStr) (parent : Int) :
    (List.range fsMaxEntries).find? (matchAt fs name ext parent) =
      (storeOf fs).first fun n => n.answers name ext parent := by
  refine first_storeOf fun i hi => ?_
  rw [nodeAt_any hi, Bool.eq_iff_iff, matchAt_iff, nameeq_name h, nameeq_ext h]
  by_cases hd : (fs.entries i).isDir = true
  · simp [Node.answers, nodeOf, hd, and_assoc]
  · simp [Node.answers, nodeOf, hd, and_assoc]

/-- The lookup by index. -/
theorem fsFindInDir_storeOf (name ext : Option CStr) (parent : Int) :
    fsFindInDir fs name ext parent =
      match (storeOf fs).lookup name ext parent with
      | none => (-1, none)
      | some i => ((i : Int), some (fs.entries i)) := by
  unfold fsFindInDir Store.lookup
  cases name with
  | none => rfl
  | some name =>
    dsimp only
    by_cases hp : parent < 0 ∨ parent ≥ fsMaxEntries
    · rw [if_pos hp, if_pos hp]
    · rw [if_neg hp, if_neg hp, matchAt_storeOf h]
      cases (storeOf fs).first fun n => n.answers name ext parent with
      | none => rfl
      | some i => rfl

theorem lookup_storeOf {name ext : Option CStr} {parent : Int} {i : Nat}
    (hi : (storeOf fs).lookup name ext parent = some i) :
    Used fs i ∧ (fsFindInDir fs name ext parent).1 = i := by
  have hfind : (fsFindInDir fs name ext parent).1 = i := by rw [fsFindInDir_storeOf h, hi]
  exact ⟨used_of_find hfind, hfind⟩

theorem find_refines (name ext : Option CStr) (parent : Int) :
    Answer.found (fsFindInDir fs name ext parent).1
      ((fsFindInDir fs name ext parent).2.map Entry.shown) =
      (storeOf fs).find name ext parent := by
  rw [fsFindInDir_storeOf h, Store.find]
  cases hi : (storeOf fs).lookup name ext parent with
  | none => rfl
  | some i =>
    have hu := (lookup_storeOf h hi).1
    have hsize := (h.backed i hu).size_eq
    simp only [storeOf, nodeAt_used hu, Option.map_some, Node.shown, hsize]
    rfl

theorem read_refines (name ext : Option CStr) (parent : Int) (bufsize : Nat) :
    Answer.bytes (fsReadFileInDir fs name ext parent bufsize).1
      (fsReadFileInDir fs name ext parent bufsize).2.1
      (fsReadFileInDir fs name ext parent bufsize).2.2 =
      (storeOf fs).read name ext parent bufsize := by
  unfold fsReadFileInDir Store.read
  rw [fsFindInDir_storeOf h]
  cases hi : (storeOf fs).lookup name ext parent with
  | none => rfl
  | some i =>
    have hu := (lookup_storeOf h hi).1
    have hnode : (storeOf fs).nodes i = some (nodeOf fs (fs.entries i)) := nodeAt_used hu
    simp only [hnode, Option.map_some, Option.getD_some, (h.backed i hu).size_eq]
    by_cases hbuf : bufsize < (fs.entries i).size
    · rw [if_pos hbuf, if_pos hbuf]
    · rw [if_neg hbuf, if_neg hbuf]
      rcases h.backed i hu with ⟨h0, -, hsize⟩ | hs
      · -- no cluster, and nothing is read
        have hnil : fsRead fs 0 0 = [] := rfl
        simp [Node.contents, nodeOf, h0, hsize, hnil]
      · simp only [Node.contents, hs.node.1, Option.getD_some, hs.node.2]

theorem listed_nodeOf {i : Nat} (hu : Used fs i) :
    (nodeOf fs (fs.entries i)).listed = (listedEntry (fs.entries i)).shown := by
  rw [shown_listedEntry (h.named i), Node.listed, Node.shown, (h.backed i hu).size_eq]
  rfl

omit h in
/-- The nodes with a parent, by the slots that have them. -/
theorem filterMap_nodeAt {l : List Nat} (hl : ∀ i ∈ l, i < fsMaxEntries) (parent : Int) :
    (l.filterMap (nodeAt fs)).filter (fun n => n.parent == parent) =
      (l.filter fun i => (fs.entries i).used && (fs.entries i).parent == parent).map
        fun i => nodeOf fs (fs.entries i) := by
  induction l with
  | nil => rfl
  | cons i l ih =>
    have hrest := ih fun j hj => hl j (List.mem_cons_of_mem _ hj)
    by_cases hu : (fs.entries i).used = true
    · have hparent : (nodeOf fs (fs.entries i)).parent = (fs.entries i).parent := rfl
      rw [List.filterMap_cons_some (nodeAt_used ⟨hl i List.mem_cons_self, hu⟩), List.filter_cons,
        List.filter_cons, hrest, hu, Bool.true_and, hparent]
      split
      · rw [List.map_cons]
      · rfl
    · rw [List.filterMap_cons_none (nodeAt_unused fun hu' => hu hu'.2), List.filter_cons, hrest]
      simp [hu]

theorem getAll_refines (maxFiles parent : Int) :
    Answer.listing ((fsGetAllInDir fs maxFiles parent).map Entry.shown) =
      (storeOf fs).getAll maxFiles parent := by
  unfold Store.getAll
  by_cases hp : parent < 0 ∨ parent ≥ fsMaxEntries
  · rw [if_pos hp, fsGetAllInDir, if_pos hp]
    rfl
  · have hmem : ∀ i ∈ List.range fsMaxEntries, i < fsMaxEntries := fun i => List.mem_range.mp
    rw [if_neg hp, fsGetAllInDir_eq hp, storeOf, filterMap_nodeAt hmem, List.filter_map,
      ← List.map_take, ← List.map_take, List.map_map, List.map_map, List.map_map]
    refine congrArg Answer.listing (List.map_congr_left fun i hi => ?_)
    have hin := List.mem_filter.mp (List.mem_of_mem_take hi)
    simp only [Function.comp_apply, Bool.and_eq_true] at hin
    exact (listed_nodeOf h ⟨hmem i hin.1, hin.2.1⟩).symm

end

/-! ## Changes are the abstract changes -/

theorem arrayStr_storeField {max : Nat} {field : List UInt8} (s : CStr) (hmax : 0 < max)
    (hlen : field.length = max) : arrayStr (storeField max field s) = s.take (max - 1) :=
  (nameeq_storeField_iff hlen hmax).mp
    ((nameeq_arrayStr hmax (storeField_terminated s hlen hmax)).mpr rfl)

theorem storeField_length {max : Nat} {field : List UInt8} (s : CStr) (hlen : field.length = max) :
    (storeField max field s).length = max := by
  rw [storeField, List.length_set, strncpy_length (by omega), hlen]

theorem wellNamed_dirEntry (nm : CStr) (parent : Int) : WellNamed (dirEntry nm parent) where
  nameLength := storeField_length nm List.length_replicate
  extLength := (by decide : (Entry.zero.ext.set 0 0).length = fsExtMax)
  nameEnds := storeField_terminated nm List.length_replicate (by decide)
  extEnds := (by decide : (Entry.zero.ext.set 0 0).getD (fsExtMax - 1) 0 = 0)

theorem wellNamed_fileEntry (nm : CStr) (ext : Option CStr) (parent : Int) (c : Nat) :
    WellNamed (fileEntry nm ext parent c) where
  nameLength := storeField_length nm List.length_replicate
  extLength := by
    cases ext with
    | none => exact (by decide : (Entry.zero.ext.set (fsExtMax - 1) 0).length = fsExtMax)
    | some x => exact storeField_length x List.length_replicate
  nameEnds := storeField_terminated nm List.length_replicate (by decide)
  extEnds := by
    cases ext with
    | none => exact (by decide : (Entry.zero.ext.set (fsExtMax - 1) 0).getD (fsExtMax - 1) 0 = 0)
    | some x => exact storeField_terminated x List.length_replicate (by decide)

theorem nodeOf_dirEntry (fs : FS) (nm : CStr) (parent : Int) :
    nodeOf fs (dirEntry nm parent) =
      ⟨parent, nm.take (fsNameMax - 1), CStr.empty, true, none⟩ := by
  have hname : arrayStr (dirEntry nm parent).name = nm.take (fsNameMax - 1) :=
    arrayStr_storeField nm (by decide) List.length_replicate
  have hext : arrayStr (Entry.zero.ext.set 0 0) = CStr.empty := by decide +kernel
  rw [nodeOf, hname, show (dirEntry nm parent).ext = Entry.zero.ext.set 0 0 from rfl, hext]
  rfl

theorem nodeOf_fileEntry (fs : FS) (nm : CStr) (ext : Option CStr) (parent : Int) {c : Nat}
    (hc : c ≠ 0) :
    nodeOf fs (fileEntry nm ext parent c) =
      ⟨parent, nm.take (fsNameMax - 1), (lookupExt ext).take (fsExtMax - 1), false, some []⟩ := by
  have hname : arrayStr (fileEntry nm ext parent c).name = nm.take (fsNameMax - 1) :=
    arrayStr_storeField nm (by decide) List.length_replicate
  have hext : arrayStr (fileEntry nm ext parent c).ext = (lookupExt ext).take (fsExtMax - 1) := by
    cases ext with
    | none =>
      exact (by decide +kernel : arrayStr (Entry.zero.ext.set (fsExtMax - 1) 0) =
        CStr.empty.take (fsExtMax - 1))
    | some x => exact arrayStr_storeField x (by decide) List.length_replicate
  have hread : fsRead fs c 0 = [] := by
    unfold fsRead
    split
    · rfl
    · rfl
  simp only [nodeOf, hname, hext]
  simp [fileEntry, hc, hread, Entry.zero]

section

variable {fs fs' : FS} {i : Nat} (h : StoreInv fs)

theorem storeOf_dropped (hf : Frame fs fs' i) (h : StoreInv fs) (hu : ¬ Used fs' i) :
    storeOf fs' = (storeOf fs).put i none (freeClusters fs'.fat) := by
  rw [storeOf_frame h hf, nodeAt_unused hu]

theorem not_used_clearUsed (fs : FS) (i : Nat) : ¬ Used (clearUsed fs i) i := by
  intro hu
  simp only [Used, clearUsed, Function.update_self] at hu
  exact absurd hu.2 Bool.false_ne_true

include h

theorem storeInv_clearUsed {fat : Nat → Nat}
    (hc : Confined fs (clearUsed { fs with fat := fat } i) i) :
    StoreInv (clearUsed { fs with fat := fat } i) := by
  refine h.of_confined hc ((h.named i).of_names ?_ ?_) fun hu => absurd hu (not_used_clearUsed _ i)
  · simp only [clearUsed, Function.update_self]
  · simp only [clearUsed, Function.update_self]

theorem mkdir_refines (name : Option CStr) (parent : Int) :
    Prod.map id storeOf (fsMkdir fs name parent) = (storeOf fs).mkdir name parent ∧
      StoreInv (fsMkdir fs name parent).2 := by
  rcases name with - | name
  · exact ⟨rfl, h⟩
  unfold fsMkdir Store.mkdir
  dsimp only
  by_cases hp : parent < 0 ∨ parent ≥ fsMaxEntries
  · rw [if_pos hp, if_pos hp]
    exact ⟨rfl, h⟩
  rw [if_neg hp, if_neg hp, isDirectory_storeOf hp, dupDirAt_storeOf h, ← slot_storeOf]
  split
  · exact ⟨rfl, h⟩
  split
  · exact ⟨rfl, h⟩
  cases hslot : findFreeEntry fs.entries with
  | none => exact ⟨rfl, h⟩
  | some i =>
    have hlt := (findFreeEntry_some hslot).2.1
    have hc : Confined fs
        { fs with entries := Function.update fs.entries i (dirEntry name parent) } i :=
      confined_putEntry h.toChainInv (.inr rfl)
    generalize hfs :
      ({ fs with entries := Function.update fs.entries i (dirEntry name parent) } : FS) = fs' at hc
    have hself : fs'.entries i = dirEntry name parent := by
      rw [← hfs]
      exact Function.update_self _ _ _
    have hfat : fs'.fat = fs.fat := by rw [← hfs]
    have hu : Used fs' i := ⟨hlt, by rw [hself]; rfl⟩
    constructor
    · have hst := storeOf_frame h hc.frame
      rw [nodeAt_used hu, hself, nodeOf_dirEntry, hfat] at hst
      exact Prod.ext rfl ((congrArg storeOf hfs).trans hst)
    · have hinv : StoreInv fs' := by
        refine h.of_confined hc ?_ fun _ => .inl ?_
        · rw [hself]
          exact wellNamed_dirEntry name parent
        · rw [hself]
          exact ⟨rfl, rfl, rfl⟩
      rw [← hfs] at hinv
      exact hinv

/-- A directory is given up, with whatever it holds. -/
theorem dropDir_refines (i : Nat) :
    storeOf (clearUsed fs i) = (storeOf fs).put i none (storeOf fs).free ∧
      StoreInv (clearUsed fs i) := by
  have hc : Confined fs (clearUsed { fs with fat := fs.fat } i) i :=
    confined_putEntry h.toChainInv (.inl rfl)
  exact ⟨storeOf_dropped hc.frame h (not_used_clearUsed fs i), storeInv_clearUsed h hc⟩

/-- A file is given up, with its clusters. -/
theorem dropFile_refines (hf : IsFile fs i) :
    storeOf (clearUsed { fs with fat := freeClusterChain fs.fat (fs.entries i).firstCluster } i) =
      (storeOf fs).put i none ((storeOf fs).free + (nodeOf fs (fs.entries i)).cost) ∧
    StoreInv (clearUsed
      { fs with fat := freeClusterChain fs.fat (fs.entries i).firstCluster } i) := by
  have hc := confined_removeFile h.toChainInv hf.1
  have hs := hf.sized h
  obtain ⟨l, hl, -⟩ := id hs
  have hfree : freeClusters (freeClusterChain fs.fat (fs.entries i).firstCluster) =
      freeClusters fs.fat + (nodeOf fs (fs.entries i)).cost := by
    rw [freeClusterChain_eq hl, freeClusters_clear hl, hs.cost_eq hl, Nat.add_comm]
  refine ⟨?_, storeInv_clearUsed h hc⟩
  rw [storeOf_dropped hc.frame h (not_used_clearUsed _ i)]
  exact congrArg (Store.mk _) hfree

theorem rmdir_refines (idx : Int) :
    Prod.map id storeOf (fsRmdir fs idx) = (storeOf fs).rmdir idx ∧
      StoreInv (fsRmdir fs idx).2 := by
  unfold fsRmdir Store.rmdir
  by_cases hidx : idx ≤ 0 ∨ idx ≥ fsMaxEntries
  · rw [if_pos hidx, if_pos hidx]
    exact ⟨rfl, h⟩
  have hp : ¬ (idx < 0 ∨ idx ≥ fsMaxEntries) := by omega
  rw [if_neg hidx, if_neg hidx, isDirectory_storeOf hp, hasChildren_storeOf hp]
  split
  · exact ⟨rfl, h⟩
  split
  · exact ⟨rfl, h⟩
  · obtain ⟨hst, hinv⟩ := dropDir_refines h idx.toNat
    exact ⟨Prod.ext rfl hst, hinv⟩

theorem remove_refines (idx : Int) :
    Prod.map id storeOf (fsRemoveEntry fs idx) = (storeOf fs).remove idx ∧
      StoreInv (fsRemoveEntry fs idx).2 := by
  unfold fsRemoveEntry Store.remove
  by_cases hidx : idx ≤ 0 ∨ idx ≥ fsMaxEntries
  · rw [if_pos hidx, if_pos hidx]
    exact ⟨rfl, h⟩
  have hp : ¬ (idx < 0 ∨ idx ≥ fsMaxEntries) := by omega
  rw [if_neg hidx, if_neg hidx, hasChildren_storeOf hp]
  by_cases hu : (fs.entries idx.toNat).used = true
  · have husd : Used fs idx.toNat := ⟨by omega, hu⟩
    have hnode : (storeOf fs).nodes idx.toNat = some (nodeOf fs (fs.entries idx.toNat)) :=
      nodeAt_used husd
    rw [hnode, hu]
    dsimp only
    by_cases hd : (fs.entries idx.toNat).isDir = true
    · have hd' : (nodeOf fs (fs.entries idx.toNat)).isDir = true := hd
      rw [if_neg (by decide), if_pos hd, if_pos hd']
      split
      · exact ⟨rfl, h⟩
      · obtain ⟨hst, hinv⟩ := dropDir_refines h idx.toNat
        exact ⟨Prod.ext rfl hst, hinv⟩
    · have hd' : ¬ (nodeOf fs (fs.entries idx.toNat)).isDir = true := hd
      rw [if_neg (by decide), if_neg hd, if_neg hd']
      obtain ⟨hst, hinv⟩ := dropFile_refines h ⟨husd, by simpa using hd⟩
      exact ⟨Prod.ext rfl hst, hinv⟩
  · have hnode : (storeOf fs).nodes idx.toNat = none := nodeAt_unused fun hu' => hu hu'.2
    rw [Bool.not_eq_true] at hu
    rw [hnode, hu]
    exact ⟨rfl, h⟩

omit h in
/-- The clusters that a write takes are the free ones that are missing afterwards. -/
theorem Stored.room {w : Nat} {data : List UInt8} {l' : List Nat} (hst : Stored fs fs' i w data l')
    (hch : Chain fs.fat (fs.entries i).firstCluster [(fs.entries i).firstCluster]) :
    l'.length + freeClusters fs'.fat = 1 + freeClusters fs.fat := by
  have hmem := hst.chain.start_mem
  have hself : fs.fat (fs.entries i).firstCluster ≠ 0 :=
    hch.fat_ne_zero _ (List.mem_singleton_self _)
  have hadd : freeClusters fs.fat =
      (l'.erase (fs.entries i).firstCluster).length + freeClusters fs'.fat := by
    refine freeClusters_add (hst.chain.nodup.erase _) (fun x hx => ?_) fun x _ => ?_
    · have hx' := List.mem_of_mem_erase hx
      exact ⟨hst.chain.inTable x hx', hst.chain.fat_ne_zero x hx'⟩
    · rw [hst.chain.nodup.mem_erase_iff]
      by_cases hx : x ∈ l'
      · have hne := hst.chain.fat_ne_zero x hx
        rcases hst.mem x hx with rfl | hz
        · exact iff_of_false hself (by simp [hne])
        · exact iff_of_true hz (.inl ⟨fun heq => hself (heq ▸ hz), hx⟩)
      · rw [hst.fatFrame x hx]
        simp [hx]
  have hpos := List.length_pos_of_mem hmem
  rw [hadd, List.length_erase_of_mem hmem]
  omega

omit h in
/-- As much is written as there is room for. -/
theorem Stored.written {w : Nat} {data : List UInt8} {l' : List Nat}
    (hst : Stored fs fs' i w data l')
    (hch : Chain fs.fat (fs.entries i).firstCluster [(fs.entries i).firstCluster]) :
    w = min data.length (clusterSize * (1 + freeClusters fs.fat)) := by
  have hroom := hst.room hch
  have hcount := hst.count
  by_cases hall : w < data.length
  · have hzero := freeClusters_eq_zero (hst.full hall)
    rw [hzero, Nat.add_zero] at hroom
    rw [← hroom]
    exact hcount
  · have hle : clustersFor w ≤ 1 + freeClusters fs.fat := by
      have := hst.length
      omega
    have := clustersFor_le_iff.mp hle
    omega

omit h in
/-- The contents of an entry that starts with a cluster of its own. -/
theorem writeContents_node (data : List UInt8) (hu : Used fs i)
    (hch : Chain fs.fat (fs.entries i).firstCluster [(fs.entries i).firstCluster]) {room : Nat}
    (hroom : room = 1 + freeClusters fs.fat) :
    (writeContents fs i data).1 =
      (if (data.take (clusterSize * room)).length = data.length then 0 else -6) ∧
    nodeAt (writeContents fs i data).2 i = some { nodeOf fs (fs.entries i) with
      data := some (data.take (clusterSize * room)) } ∧
    freeClusters (writeContents fs i data).2.fat =
      room - clustersOf (data.take (clusterSize * room)) ∧
    Sized (writeContents fs i data).2 i := by
  obtain ⟨w, l', hst, hret⟩ := writeContents_spec data hch
  generalize writeContents fs i data = r at hst hret
  have hw := hst.written hch
  rw [← hroom] at hw
  have hlen : (data.take (clusterSize * room)).length = w := by
    rw [List.length_take, hw, Nat.min_comm]
  have hself : r.2.entries i = { fs.entries i with size := w % 2 ^ 32 } := by
    rw [hst.entries, Function.update_self]
  have hl' : Chain r.2.fat (r.2.entries i).firstCluster l' := by
    rw [hself]
    exact hst.chain
  have hsized : Sized r.2 i := ⟨l', hl', by rw [hst.size_eq]; exact hst.length⟩
  refine ⟨by rw [hret, hlen], ?_, ?_, hsized⟩
  · have hread : fsRead r.2 (r.2.entries i).firstCluster (r.2.entries i).size =
        data.take (clusterSize * room) := by
      rw [fsRead_eq hl', hst.size_eq, hst.bytes, hw, List.take_eq_take_iff]
      omega
    have hu' : Used r.2 i := ⟨hu.1, by rw [hself]; exact hu.2⟩
    have hdata := hsized.node.1
    rw [hread] at hdata
    rw [nodeAt_used hu', Option.some.injEq]
    unfold nodeOf at hdata ⊢
    simp only at hdata
    rw [hdata, hself]
  · have hcount := hst.room hch
    rw [hst.length] at hcount
    rw [clustersOf, hlen, hroom]
    omega

/-- Contents are written to a slot whose chain was just started, as part of one call. -/
theorem writeContents_refines (data : List UInt8) {n : Node} (hc : Confined fs fs' i)
    (hname : WellNamed (fs'.entries i)) (hu : Used fs' i)
    (hch : Chain fs'.fat (fs'.entries i).firstCluster [(fs'.entries i).firstCluster])
    (hnode : ∀ d, { nodeOf fs' (fs'.entries i) with data := some d } = { n with data := some d })
    (hs : (storeOf fs).nodes i = some n)
    (hroom : (storeOf fs).free + n.cost = 1 + freeClusters fs'.fat) :
    Prod.map id storeOf (writeContents fs' i data) = (storeOf fs).rewrite i data ∧
      StoreInv (writeContents fs' i data).2 := by
  obtain ⟨hret, hat, hfree, hsized⟩ := writeContents_node data hu hch hroom
  have hkey := writeContents_sameKey fs' i data i
  obtain ⟨w, l', hst, -⟩ := writeContents_spec data hch
  have hc' : Confined fs (writeContents fs' i data).2 i :=
    hc.trans (confined_stored hc.inv hu hch hst)
  have hinv : StoreInv (writeContents fs' i data).2 :=
    h.of_confined hc' (hname.of_names hkey.name hkey.ext) fun _ => .inr hsized
  refine ⟨?_, hinv⟩
  have hpos : ¬ (storeOf fs).free + n.cost = 0 := by omega
  rw [Store.rewrite, hs]
  dsimp only
  rw [if_neg hpos]
  refine Prod.ext hret ?_
  rw [Prod.map_snd, storeOf_frame h hc'.frame, hat, hfree, hnode]

theorem storeInv_addFile {c : Nat} {nm : CStr} {ext : Option CStr} {parent : Int}
    (hnew : NewFile fs i c (fileEntry nm ext parent c)) :
    StoreInv (addFile fs i c (fileEntry nm ext parent c)) := by
  refine h.of_confined (confined_addFile h.toChainInv hnew) ?_ fun _ =>
    .inr ⟨_, chain_addFile hnew, ?_⟩
  · simp only [addFile, Function.update_self]
    exact wellNamed_fileEntry nm ext parent c
  · simp only [addFile, Function.update_self, List.length_singleton, fileEntry, Entry.zero]
    decide

theorem create_refines (name ext : Option CStr) (parent : Int) :
    (fsCreateFile fs name ext parent).map (fun r => (r.1, storeOf r.2.2)) =
      (storeOf fs).create name ext parent ∧
    ∀ r, fsCreateFile fs name ext parent = some r → StoreInv r.2.2 := by
  have hkept : ∀ {ret : Int} {out : Option Nat} (r : Int × Option Nat × FS),
      some (ret, out, fs) = some r → StoreInv r.2.2 := by
    intro ret out r hr
    rw [← Option.some.inj hr]
    exact h
  rcases name with - | name
  · exact ⟨rfl, hkept⟩
  unfold fsCreateFile Store.create
  dsimp only
  by_cases hp : parent < 0 ∨ parent ≥ fsMaxEntries
  · rw [if_pos hp, if_pos hp]
    exact ⟨rfl, hkept⟩
  rw [if_neg hp, if_neg hp, isDirectory_storeOf hp, dupFileAt_storeOf h, ← slot_storeOf]
  by_cases hdir : (!(storeOf fs).isDirectory parent) = true
  · rw [if_pos hdir, if_pos hdir]
    exact ⟨rfl, hkept⟩
  rw [if_neg hdir, if_neg hdir]
  cases hdup : (storeOf fs).first fun n => n.parent == parent && !n.isDir && n.name == name &&
      ext.all fun x => n.ext == x with
  | some j =>
    cases ext with
    | none => exact ⟨rfl, fun r hr => by cases hr⟩
    | some ext => exact ⟨rfl, hkept⟩
  | none =>
    cases hslot : findFreeEntry fs.entries with
    | none => exact ⟨rfl, hkept⟩
    | some i =>
      obtain ⟨hpos, hlt, hunused⟩ := findFreeEntry_some hslot
      rw [← isDirectory_storeOf hp] at hdir
      obtain ⟨hparent, hisdir⟩ := isDirectory_of_tests hp hdir
      rcases allocCluster_cases fs.fat with ⟨c, hc, hz, ha⟩ | ⟨hfull, ha⟩
      · have hc0 : c ≠ 0 := by have := hc.1; omega
        have hnew : NewFile fs i c (fileEntry name ext parent c) :=
          ⟨⟨hpos, hlt, hunused, rfl, _, hparent, hisdir⟩, rfl, rfl, hc, hz⟩
        have hfree := freeClusters_update hc hz
        have hsome : ¬ (storeOf fs).free = 0 := by
          have : (storeOf fs).free = freeClusters fs.fat := rfl
          omega
        simp only [ha, if_neg hc0, Function.update_idem, Option.isSome_none, Bool.false_eq_true,
          if_false, if_neg hsome]
        refine ⟨?_, fun r hr => ?_⟩
        · have hfr := (confined_addFile h.toChainInv hnew).frame
          have hst := storeOf_frame h hfr
          have hself : (addFile fs i c (fileEntry name ext parent c)).entries i =
              fileEntry name ext parent c := Function.update_self _ _ _
          have hcount : freeClusters (addFile fs i c (fileEntry name ext parent c)).fat =
              (storeOf fs).free - 1 := by
            simp only [addFile, storeOf]
            omega
          rw [nodeAt_used (isFile_addFile hnew).1, hself, nodeOf_fileEntry _ _ _ _ hc0, hcount]
            at hst
          rw [Option.map_some, ← hst]
          rfl
        · rw [← Option.some.inj hr]
          exact storeInv_addFile h hnew
      · have hzero : (storeOf fs).free = 0 := freeClusters_eq_zero hfull
        simp only [ha, if_pos, Option.isSome_none, Bool.false_eq_true, if_false, hzero]
        exact ⟨rfl, hkept⟩

/-- The free clusters, once the chain of an entry is freed and a start cluster taken. -/
theorem room_restart (hu : Used fs i) {c : Nat} (hc : InTable c)
    (hz : freeClusterChain fs.fat (fs.entries i).firstCluster c = 0) :
    (storeOf fs).free + (nodeOf fs (fs.entries i)).cost = 1 + freeClusters
      (restart fs i c (freeClusterChain fs.fat (fs.entries i).firstCluster)).fat := by
  simp only [restart, storeOf]
  rw [← freeClusters_update hc hz]
  rcases h.backed i hu with ⟨h0, -, -⟩ | hs
  · have hcost : (nodeOf fs (fs.entries i)).cost = 0 := by simp [Node.cost, nodeOf, h0]
    rw [hcost, h0, freeClusterChain_zero, Nat.add_zero]
  · obtain ⟨l, hl, -⟩ := id hs
    rw [hs.cost_eq hl, freeClusterChain_eq hl, freeClusters_clear hl, Nat.add_comm]

/-- The write to an entry that the lookup found. -/
theorem rewrite_refines (hu : Used fs i) (data : List UInt8) :
    ∃ r, (match restartChain fs i with
      | (none, fs) => some (-5, fs)
      | (some fs, _) => some (writeContents fs i data)) = some r ∧
      Prod.map id storeOf r = (storeOf fs).rewrite i data ∧ StoreInv r.2 := by
  have hnode : (storeOf fs).nodes i = some (nodeOf fs (fs.entries i)) := nodeAt_used hu
  rcases restartChain_cases fs i with ⟨c, hc, hz, hr⟩ | ⟨hfull, hr⟩
  · rw [hr]
    refine ⟨_, rfl, writeContents_refines h data (confined_restart h.toChainInv hu hc hz) ?_
      (used_restart hu _ _) (chain_restart fs i _ hc) ?_ hnode (room_restart h hu hc hz)⟩
    · have hkey := restart_sameKey fs i c
        (freeClusterChain fs.fat (fs.entries i).firstCluster) i
      exact (h.named i).of_names hkey.name hkey.ext
    · intro d
      simp only [nodeOf, restart, Function.update_self]
  · have hsame := noSpace_eq h.toChainInv hu hfull
    have h0 : (fs.entries i).firstCluster = 0 := by
      by_contra hne
      obtain ⟨l, hl⟩ := h.chain i hu hne
      refine hfull _ hl.start ?_
      rw [freeClusterChain_eq hl, clear, if_pos hl.start_mem]
    have hcost : (nodeOf fs (fs.entries i)).cost = 0 := by simp [Node.cost, nodeOf, h0]
    have hfree : (storeOf fs).free = 0 := by
      rw [hsame] at hfull
      exact freeClusters_eq_zero hfull
    rw [hr, hsame]
    refine ⟨_, rfl, ?_, h⟩
    rw [Store.rewrite, hnode]
    dsimp only
    rw [hcost, hfree, if_pos rfl]
    rfl

theorem write_refines (name ext : Option CStr) (parent : Int) (data : List UInt8) :
    (fsWriteFileInDir fs name ext parent data).map (Prod.map id storeOf) =
      (storeOf fs).write name ext parent data ∧
    ∀ r, fsWriteFileInDir fs name ext parent data = some r → StoreInv r.2 := by
  have hkept : ∀ {ret : Int} (r : Int × FS), some (ret, fs) = some r → StoreInv r.2 := by
    intro ret r hr
    rw [← Option.some.inj hr]
    exact h
  unfold fsWriteFileInDir Store.write
  by_cases hname : name.isNone = true
  · rw [if_pos hname, if_pos hname]
    exact ⟨rfl, hkept⟩
  rw [if_neg hname, if_neg hname]
  by_cases hp : parent < 0 ∨ parent ≥ fsMaxEntries
  · rw [if_pos hp, if_pos hp]
    exact ⟨rfl, hkept⟩
  rw [if_neg hp, if_neg hp, isDirectory_storeOf hp]
  by_cases hdir : (!(storeOf fs).isDirectory parent) = true
  · rw [if_pos hdir, if_pos hdir]
    exact ⟨rfl, hkept⟩
  rw [if_neg hdir, if_neg hdir, fsFindInDir_storeOf h]
  cases hlook : (storeOf fs).lookup name ext parent with
  | some i =>
    obtain ⟨r, hr, hst, hinv⟩ := rewrite_refines h (lookup_storeOf h hlook).1 data
    simp only [Int.toNat_natCast, if_neg (show ¬ ((i : Int) < 0) by omega)]
    refine ⟨(congrArg (Option.map (Prod.map id storeOf)) hr).trans (congrArg some hst),
      fun r' hr' => ?_⟩
    rw [← Option.some.inj (hr.symm.trans hr')]
    exact hinv
  | none =>
    obtain ⟨hst, hinv⟩ := create_refines h name ext parent
    dsimp only
    rw [if_pos (by omega), ← hst]
    rcases fsCreateFile_cases fs name ext parent with
      ⟨-, hc⟩ | ⟨ret, out, hneg, hc⟩ | ⟨i, c, nm, -, hnew, hc⟩
    · rw [hc]
      exact ⟨rfl, fun r hr => by cases hr⟩
    · rw [hc]
      simp only [if_pos hneg, Option.map_some]
      exact ⟨rfl, hkept⟩
    · have hinv' := hinv _ hc
      have hu := (isFile_addFile hnew).1
      obtain ⟨hrw, hfin⟩ := writeContents_refines hinv' data
        (.refl hinv'.toChainInv i) (hinv'.named i) hu (chain_addFile hnew) (fun _ => rfl)
        (nodeAt_used hu) (by
          have hs := (isFile_addFile hnew).sized hinv'
          rw [hs.cost_eq (chain_addFile hnew), List.length_singleton]
          exact Nat.add_comm _ _)
      rw [hc]
      simp only [if_neg (show ¬ ((i : Int) < 0) by omega), Int.toNat_natCast, Option.map_some, hrw,
        true_and]
      intro r hr
      rw [← Option.some.inj hr]
      exact hfin

end

/-! ## Whole runs -/

theorem storeInv_fsInit (disk : Mem) : StoreInv (fsInit disk) := by
  have hblank : WellNamed Entry.zero := by
    constructor <;> decide
  refine ⟨chainInv_fsInit disk, fun i => ?_, fun i hu => ?_⟩
  · by_cases hi : i = fsRootIdx
    · simp only [fsInit, hi, Function.update_self]
      exact ⟨storeField_length _ List.length_replicate, by decide,
        storeField_terminated _ List.length_replicate (by decide), by decide⟩
    · simp only [fsInit, Function.update_of_ne hi]
      exact hblank
  · by_cases hi : i = fsRootIdx
    · refine .inl ?_
      simp only [fsInit, hi, Function.update_self]
      exact ⟨rfl, trivial, rfl⟩
    · have hno := hu.2
      simp only [fsInit, Function.update_of_ne hi, Entry.zero] at hno
      exact absurd hno Bool.false_ne_true

theorem storeOf_fsInit (disk : Mem) : storeOf (fsInit disk) = Store.init := by
  have hname : arrayStr (storeField fsNameMax Entry.zero.name rootName) = rootName :=
    arrayStr_storeField rootName (show 0 < fsNameMax by decide) List.length_replicate
  have hext : arrayStr (Entry.zero.ext.set 0 0) = CStr.empty := by decide +kernel
  unfold storeOf Store.init
  rw [Store.mk.injEq]
  constructor
  · funext i
    by_cases hi : i = fsRootIdx
    · rw [hi, Function.update_self, nodeAt_used ⟨by decide, rfl⟩]
      simp only [fsInit, Function.update_self, nodeOf, hname, hext]
      rfl
    · rw [Function.update_of_ne hi]
      refine nodeAt_unused fun hu => ?_
      have hno := hu.2
      simp only [fsInit, Function.update_of_ne hi, Entry.zero] at hno
      exact absurd hno Bool.false_ne_true
  · simp [freeClusters, freeList, fsInit]

/-- The calls of the file system are those of the store. -/
theorem refines_store : Refines FS.call Store.call StoreInv storeOf where
  keeps fs o r h hcall := by
    cases o with
    | mkdir name parent =>
      rw [← Option.some.inj hcall]
      exact (mkdir_refines h name parent).2
    | rmdir idx =>
      rw [← Option.some.inj hcall]
      exact (rmdir_refines h idx).2
    | createFile name ext parent =>
      obtain ⟨r', hr', rfl⟩ := Option.map_eq_some_iff.mp hcall
      exact (create_refines h name ext parent).2 r' hr'
    | removeEntry idx =>
      rw [← Option.some.inj hcall]
      exact (remove_refines h idx).2
    | writeFileInDir name ext parent data =>
      obtain ⟨r', hr', rfl⟩ := Option.map_eq_some_iff.mp hcall
      exact (write_refines h name ext parent data).2 r' hr'
    | findInDir _ _ _ | getAllInDir _ _ | readFileInDir _ _ _ _ =>
      rw [← Option.some.inj hcall]
      exact h
  same fs o h := by
    cases o with
    | mkdir name parent =>
      simp only [FS.call, Store.call, Option.map_some, ← (mkdir_refines h name parent).1]
      rfl
    | rmdir idx =>
      simp only [FS.call, Store.call, Option.map_some, ← (rmdir_refines h idx).1]
      rfl
    | createFile name ext parent =>
      simp only [FS.call, Store.call, ← (create_refines h name ext parent).1, Option.map_map]
      rfl
    | removeEntry idx =>
      simp only [FS.call, Store.call, Option.map_some, ← (remove_refines h idx).1]
      rfl
    | findInDir name ext parent =>
      simp only [FS.call, Store.call, Option.map_some, ← find_refines h]
      rfl
    | getAllInDir maxFiles parent =>
      simp only [FS.call, Store.call, Option.map_some, ← getAll_refines h]
      rfl
    | writeFileInDir name ext parent data =>
      simp only [FS.call, Store.call, ← (write_refines h name ext parent data).1, Option.map_map]
      rfl
    | readFileInDir name ext parent bufsize =>
      simp only [FS.call, Store.call, Option.map_some, ← read_refines h]
      rfl

/-- From `fs_init` on, any sequence of calls by name and index, whatever their arguments,
gets the answers of the store, call by call, does not return where the store does not,
and ends in tables that stand for the store's last state. -/
theorem file_system_is_store (disk : Mem) (calls : List Request) :
    (play FS.call (fsInit disk) calls).map (Prod.map id storeOf) =
      play Store.call Store.init calls := by
  rw [← storeOf_fsInit disk]
  exact refines_store.play (storeInv_fsInit disk) calls

/-- Two states that were reached in different ways, on disks with different bytes, but stand for
one store: every further sequence of calls gets the same answers in both, or returns in
neither. The order of the clusters in a chain, which clusters are free and the bytes of what was
removed do not show in an answer. (They do show in the start clusters, which are no part of it.) -/
theorem equal_stores_answer_alike {disk disk' : Mem} {calls calls' : List Request}
    {as as' : List Answer} {fs fs' : FS}
    (h : play FS.call (fsInit disk) calls = some (as, fs))
    (h' : play FS.call (fsInit disk') calls' = some (as', fs')) (heq : storeOf fs = storeOf fs')
    (more : List Request) :
    (play FS.call fs more).map Prod.fst = (play FS.call fs' more).map Prod.fst := by
  have hinv := play_invariant refines_store.keeps h (storeInv_fsInit disk)
  have hinv' := play_invariant refines_store.keeps h' (storeInv_fsInit disk')
  exact refines_store.answers_eq hinv hinv' heq more

/-- A store is its free clusters and the nodes in the slots of the table. -/
theorem storeOf_ext {fs fs' : FS} (hfree : (storeOf fs).free = (storeOf fs').free)
    (hnodes : (List.range fsMaxEntries).map (storeOf fs).nodes =
      (List.range fsMaxEntries).map (storeOf fs').nodes) : storeOf fs = storeOf fs' := by
  rw [storeOf, storeOf, Store.mk.injEq]
  refine ⟨funext fun i => ?_, hfree⟩
  by_cases hi : i < fsMaxEntries
  · exact List.map_inj_left.mp hnodes i (List.mem_range.mpr hi)
  · rw [nodeAt_unused fun hu => hi hu.1, nodeAt_unused fun hu => hi hu.1]

/-- The store after calls on a new disk, slot by slot, is that of the abstract calls. -/
theorem slots_of_played {disk : Mem} {calls : List Request} {as : List Answer} {fs : FS}
    (h : play FS.call (fsInit disk) calls = some (as, fs)) :
    (play Store.call Store.init calls).map
      (fun r => (r.2.free, (List.range fsMaxEntries).map r.2.nodes)) =
        some ((storeOf fs).free, (List.range fsMaxEntries).map (storeOf fs).nodes) := by
  have hplay := refines_store.play (storeInv_fsInit disk) calls
  rw [h, storeOf_fsInit, Option.map_some] at hplay
  rw [← hplay]
  rfl

/-- Two files, one after the other. -/
def filesInOrder : List Request :=
  [.createFile (some nameA) (some nameB) 0, .createFile (some nameB) (some nameB) 0]

/-- The same files in the same slots, but the second is made first. -/
def filesReversed : List Request :=
  [.mkdir (some nameA) 0, .createFile (some nameB) (some nameB) 0, .rmdir 1,
    .createFile (some nameA) (some nameB) 0]

/-- The start cluster of the first file shows the way it was made. Whatever is asked further, the
answers do not. -/
theorem equal_stores_answer_alike_order : ∃ as fs as' fs',
    play FS.call (fsInit fun _ => 0) filesInOrder = some (as, fs) ∧
    play FS.call (fsInit fun _ => 255) filesReversed = some (as', fs') ∧
    (fsFindInDir fs (some nameA) (some nameB) 0).2.map Entry.firstCluster = some 2 ∧
    (fsFindInDir fs' (some nameA) (some nameB) 0).2.map Entry.firstCluster = some 3 ∧
    ∀ more, (play FS.call fs more).map Prod.fst = (play FS.call fs' more).map Prod.fst := by
  have hfirst : (play FS.call (fsInit fun _ => 0) filesInOrder).map (fun r =>
      (fsFindInDir r.2 (some nameA) (some nameB) 0).2.map Entry.firstCluster) =
        some (some 2) := by
    decide +kernel
  have hsecond : (play FS.call (fsInit fun _ => 255) filesReversed).map (fun r =>
      (fsFindInDir r.2 (some nameA) (some nameB) 0).2.map Entry.firstCluster) =
        some (some 3) := by
    decide +kernel
  have hsame : (play Store.call Store.init filesInOrder).map
      (fun r => (r.2.free, (List.range fsMaxEntries).map r.2.nodes)) =
        (play Store.call Store.init filesReversed).map
          (fun r => (r.2.free, (List.range fsMaxEntries).map r.2.nodes)) := by
    decide +kernel
  obtain ⟨⟨as, fs⟩, hplay, hat⟩ := Option.map_eq_some_iff.mp hfirst
  obtain ⟨⟨as', fs'⟩, hplay', hat'⟩ := Option.map_eq_some_iff.mp hsecond
  have heq : storeOf fs = storeOf fs' := by
    rw [slots_of_played hplay, slots_of_played hplay', Option.some.injEq, Prod.mk.injEq] at hsame
    exact storeOf_ext hsame.1 hsame.2
  exact ⟨as, fs, as', fs', hplay, hplay', hat, hat',
    equal_stores_answer_alike hplay hplay' heq⟩

end KernelC.Fat16
