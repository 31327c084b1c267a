import KernelC.Fat16.Capacity
import KernelC.Fat16.Tree

/-!
# Directories without data

By `fs.h` a directory has first cluster 0 and size 0. `fs_mkdir` makes it so, and
`fs_write_file_in_dir` breaks it: the lookup matches a directory when the extension
is empty or NULL, and the call then gives the entry it found a chain, whatever its
kind (`directory_with_data`). Without a free cluster it returns -5 first. These are
all the calls that do (`directories_empty`).
-/

namespace KernelC.Fat16

/-- The directories in use have no cluster and no size. -/
def DirsEmpty (fs : FS) : Prop :=
  ∀ i, IsDirectory fs i → (fs.entries i).firstCluster = 0 ∧ (fs.entries i).size = 0

/-- A write does not go to a directory, unless no cluster is free. -/
def KeepsDirs (fs : FS) : Op → Prop
  | .writeFileInDir name ext parent _ =>
    ∀ i : Nat, (fsFindInDir fs name ext parent).1 = i → (fs.entries i).isDir = true →
      freeClusters fs.fat = 0
  | _ => True

section

variable {fs fs' : FS} {i : Nat}

/-- A change of slot `i` alone. -/
theorem DirsEmpty.of_slot (h : DirsEmpty fs) (hent : ∀ j, j ≠ i → fs'.entries j = fs.entries j)
    (hself : IsDirectory fs' i → (fs'.entries i).firstCluster = 0 ∧ (fs'.entries i).size = 0) :
    DirsEmpty fs' := by
  intro j hj
  by_cases hji : j = i
  · subst hji
    exact hself hj
  · unfold IsDirectory Used at hj
    rw [hent j hji] at hj ⊢
    exact h j hj

/-- Slot `i` gets a record that is not a directory in use. -/
theorem DirsEmpty.of_notDir (h : DirsEmpty fs) (hent : ∀ j, j ≠ i → fs'.entries j = fs.entries j)
    (hnot : (fs'.entries i).used = false ∨ (fs'.entries i).isDir = false) : DirsEmpty fs' := by
  refine h.of_slot hent fun hd => ?_
  rcases hnot with hunused | hfile
  · exact absurd (hd.1.2.symm.trans hunused) (by decide)
  · exact absurd (hd.2.symm.trans hfile) (by decide)

theorem DirsEmpty.clearUsed (h : DirsEmpty fs) (fat : Nat → Nat) (i : Nat) :
    DirsEmpty (Fat16.clearUsed { fs with fat := fat } i) := by
  refine h.of_notDir (i := i) (fun j hj => ?_) (.inl ?_)
  · simp only [Fat16.clearUsed, Function.update_of_ne hj]
  · simp only [Fat16.clearUsed, Function.update_self]

/-- Contents are written to an entry that is a file. -/
theorem DirsEmpty.writeContents (h : DirsEmpty fs)
    (hent : ∀ j, j ≠ i → fs'.entries j = fs.entries j) (hfile : (fs'.entries i).isDir = false)
    (data : List UInt8) : DirsEmpty (writeContents fs' i data).2 := by
  obtain ⟨n, hn⟩ := writeContents_entries fs' i data
  refine h.of_notDir (i := i) (fun j hj => ?_) (.inr ?_)
  · rw [hn, Function.update_of_ne hj, hent j hj]
  · rw [hn, Function.update_self]
    exact hfile

end

theorem DirsEmpty.writeCase {fs : FS} (h : DirsEmpty fs) {name ext : Option CStr} {parent : Int}
    {data : List UInt8} {r : Int × FS} (hc : WriteCase fs name ext parent data r)
    (hk : KeepsDirs fs (.writeFileInDir name ext parent data)) : DirsEmpty r.2 := by
  cases hc with
  | refused ret _ => exact h
  | created i c nm _ _ hnew =>
    refine h.writeContents (fun j hj => Function.update_of_ne hj _ _) ?_ data
    simp only [addFile, Function.update_self, hnew.file]
  | noSpace i _ _ _ => exact h
  | restarted i c hfind hu hc hz =>
    refine h.writeContents (fun j hj => Function.update_of_ne hj _ _) ?_ data
    simp only [restart, Function.update_self]
    by_contra hdir
    rw [Bool.not_eq_false] at hdir
    -- a directory has no chain to free, so the cluster `c` was free before
    rw [(h i ⟨hu, hdir⟩).1, freeClusterChain_zero] at hz
    have hpos := freeClusters_pos hc hz
    rw [hk i hfind hdir] at hpos
    exact absurd hpos (Nat.lt_irrefl 0)

theorem DirsEmpty.step {fs fs' : FS} (h : DirsEmpty fs) {op : Op} (hop : ByName op)
    (hk : KeepsDirs fs op) (hstep : Fat16.step fs op = some fs') : DirsEmpty fs' := by
  cases step_cases hstep with
  | kept op => exact h
  | @addDir i nm parent _ _ =>
    refine h.of_slot (i := i) (fun j hj => Function.update_of_ne hj _ _) fun _ => ?_
    simp only [Function.update_self, dirEntry, Entry.zero, and_self]
  | dropDir _ _ => exact h.clearUsed fs.fat _
  | @addFile i c nm ext parent hnew _ =>
    refine h.of_notDir (i := i) (fun j hj => Function.update_of_ne hj _ _) (.inr ?_)
    simp only [Fat16.addFile, Function.update_self, hnew.file]
  | dropFile _ _ => exact h.clearUsed _ _
  | wrote hcase => exact h.writeCase hcase hk
  | raw c data => exact absurd hop id

theorem dirsEmpty_fsInit (disk : Mem) : DirsEmpty (fsInit disk) := by
  intro i _
  by_cases hi : i = fsRootIdx
  · simp only [fsInit, hi, Function.update_self, Entry.zero, and_self]
  · simp only [fsInit, Function.update_of_ne hi, Entry.zero, and_self]

/-! ## The calls that break it -/

/-- What a lookup finds lies in a directory in use. -/
theorem TreeInv.isDirectory_of_find {fs : FS} (h : TreeInv fs) {name ext : Option CStr} {p i : Nat}
    (hfind : (fsFindInDir fs name ext p).1 = i) : IsDirectory fs p := by
  rcases fsFindInDir_cases fs name ext p with hf | ⟨k, nm, -, hk, hm, -, hf⟩
  · rw [hf] at hfind
    exact absurd hfind (by simp only; omega)
  rw [hf] at hfind
  obtain rfl : k = i := Int.ofNat.inj hfind
  have hparent : (fs.entries k).parent = p := by
    simp only [matchAt, Bool.and_eq_true, beq_iff_eq] at hm
    exact hm.1.2
  cases h.rooted k (used_of_matchAt hk hm) with
  | root =>
    rw [h.rootParent] at hparent
    exact absurd hparent (by omega)
  | child _ _ hq hdir _ =>
    rw [hparent] at hq
    rwa [Int.ofNat.inj hq]

/-- A write to a directory, with a cluster free, gives it a first cluster. -/
theorem directory_written {fs fs' : FS} (ht : TreeInv fs) (hd : DirsEmpty fs)
    {name ext : Option CStr} {parent : Int} {data : List UInt8} {i : Nat}
    (hfind : (fsFindInDir fs name ext parent).1 = i) (hdir : (fs.entries i).isDir = true)
    (hfree : freeClusters fs.fat ≠ 0)
    (hstep : step fs (.writeFileInDir name ext parent data) = some fs') :
    IsDirectory fs' i ∧ (fs'.entries i).firstCluster ≠ 0 := by
  have hu := used_of_find hfind
  obtain ⟨p, rfl, -⟩ := parent_of_find hfind
  cases name with
  | none => exact absurd hfind (by simp only [fsFindInDir]; omega)
  | some name =>
  have hfreed : freeClusterChain fs.fat (fs.entries i).firstCluster = fs.fat := by
    rw [(hd i ⟨hu, hdir⟩).1, freeClusterChain_zero]
  rw [step, fsWriteFileInDir_found (ht.isDirectory_of_find hfind) hfind] at hstep
  rcases restartChain_cases fs i with ⟨c, hc, -, hr⟩ | ⟨hfull, -⟩
  · rw [hr] at hstep
    obtain rfl := Option.some.inj hstep
    obtain ⟨n, hn⟩ := writeContents_entries
      (restart fs i c (freeClusterChain fs.fat (fs.entries i).firstCluster)) i data
    have hself : ((writeContents
        (restart fs i c (freeClusterChain fs.fat (fs.entries i).firstCluster)) i data).2.entries i) =
        { fs.entries i with firstCluster := c, size := n } := by
      rw [hn, Function.update_self]
      simp only [restart, Function.update_self]
    have hc0 : c ≠ 0 := by have := hc.1; omega
    unfold IsDirectory Used
    rw [hself]
    exact ⟨⟨hu, hdir⟩, hc0⟩
  · rw [hfreed] at hfull
    exact absurd (freeClusters_eq_zero hfull) hfree

/-- Directories carry no data: they have first cluster 0 and size 0 in every run
of calls by name and index in which no write goes to a directory while a cluster
is free; and after such a run every call for which this is not so breaks it. -/
theorem directories_empty {disk : Mem} {ops : List Op} {fs : FS}
    (hr : Run step (fun fs op => ByName op ∧ KeepsDirs fs op) (fsInit disk) ops fs) :
    DirsEmpty fs ∧
    ∀ (op : Op) (fs' : FS), ByName op → step fs op = some fs' →
      (DirsEmpty fs' ↔ KeepsDirs fs op) := by
  have hinv : DirsEmpty fs :=
    hr.invariant (fun _ _ _ hs ho hstep => hs.step ho.1 ho.2 hstep) (dirsEmpty_fsInit disk)
  have htree : TreeInv fs :=
    hr.invariant (fun _ _ _ hs _ hstep => hs.step hstep) (treeInv_fsInit disk)
  refine ⟨hinv, fun op fs' hop hstep => ⟨fun hempty => ?_, fun hk => hinv.step hop hk hstep⟩⟩
  cases op with
  | writeFileInDir name ext parent data =>
    intro i hfind hdir
    by_contra hfree
    obtain ⟨hd, hne⟩ := directory_written htree hinv hfind hdir hfree hstep
    exact hne (hempty i hd).1
  | _ => exact trivial

/-- A write under a new name. -/
theorem keepsDirs_of_absent {fs : FS} {name ext : Option CStr} {parent : Int}
    (h : (fsFindInDir fs name ext parent).1 = -1) (data : List UInt8) :
    KeepsDirs fs (.writeFileInDir name ext parent data) := by
  intro i hi
  rw [h] at hi
  omega

/-- The directory `a`, a file `a.b` beside it and a file `b.b` in it. -/
def besideAndInside : List Op :=
  [.mkdir (some nameA) fsRootIdx, writeAB,
    .writeFileInDir (some nameB) (some nameB) 1 (List.replicate 600 1)]

theorem directories_empty_besideAndInside : ∃ fs,
    Run step (fun fs op => ByName op ∧ KeepsDirs fs op) (fsInit fun _ => 0) besideAndInside fs ∧
    IsDirectory fs 1 ∧ IsFile fs 2 ∧ IsFile fs 3 ∧ (fs.entries 3).parent = 1 ∧ DirsEmpty fs := by
  have hr : Run step (fun fs op => ByName op ∧ KeepsDirs fs op) (fsInit fun _ => 0)
      besideAndInside _ :=
    .cons ⟨trivial, trivial⟩ (step_getD (by decide +kernel))
      (.cons ⟨trivial, keepsDirs_of_absent (by decide +kernel) _⟩ (step_getD (by decide +kernel))
        (.cons ⟨trivial, keepsDirs_of_absent (by decide +kernel) _⟩ (step_getD (by decide +kernel))
          (.nil _)))
  refine ⟨_, hr, ?_, ?_, ?_, by decide +kernel, (directories_empty hr).1⟩
  · exact ⟨⟨by decide, by decide +kernel⟩, by decide +kernel⟩
  · exact ⟨⟨by decide, by decide +kernel⟩, by decide +kernel⟩
  · exact ⟨⟨by decide, by decide +kernel⟩, by decide +kernel⟩

/-- The directory `a`, then one byte written under its name: the directory has
first cluster 2. -/
theorem directory_with_data :
    ¬ ∀ (disk : Mem) (ops : List Op) (fs : FS),
      Run step (fun _ op => ByName op) (fsInit disk) ops fs → DirsEmpty fs := by
  intro hall
  have hexec : (exec step (fun _ op => ByName op) (fsInit fun _ => 0)
      [.mkdir (some nameA) fsRootIdx,
        .writeFileInDir (some nameA) (some CStr.empty) fsRootIdx [1]]).map
      (fun fs => ((fs.entries 1).used, (fs.entries 1).isDir, (fs.entries 1).firstCluster)) =
      some (true, true, 2) := by
    decide +kernel
  obtain ⟨fs, hfs, hval⟩ := Option.map_eq_some_iff.mp hexec
  simp only [Prod.mk.injEq] at hval
  have hempty := (hall _ _ fs (Run.of_exec hfs) 1 ⟨⟨by decide, hval.1⟩, hval.2.1⟩).1
  rw [hval.2.2] at hempty
  exact absurd hempty (by decide)

end KernelC.Fat16
