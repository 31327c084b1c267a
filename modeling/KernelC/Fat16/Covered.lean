import KernelC.Fat16.Ownership

/-!
# Every file has the clusters for its size

`fs_write` changes a chain and no size, but its only caller,
`fs_write_file_in_dir`, records how many bytes it wrote, also when it wrote only
some. So in every run of the calls by name and index (`ByName`) the chain of a
file has exactly the clusters for the size of its entry, one if that is 0, and a
read of that many bytes returns all of them.

Results: `recorded_size`, `SizeInv.file_bytes`.
-/

namespace KernelC.Fat16

/-- The calls by name and index. -/
def ByName : Op → Prop
  | .write _ _ => False
  | _ => True

instance : (op : Op) → Decidable (ByName op)
  | .mkdir _ _ => inferInstanceAs (Decidable True)
  | .rmdir _ => inferInstanceAs (Decidable True)
  | .createFile _ _ _ => inferInstanceAs (Decidable True)
  | .removeEntry _ => inferInstanceAs (Decidable True)
  | .writeFileInDir _ _ _ _ => inferInstanceAs (Decidable True)
  | .write _ _ => inferInstanceAs (Decidable False)

theorem NameCall.byName {op : Op} (h : NameCall op) : ByName op := by
  cases op with
  | write c data => exact absurd h id
  | _ => exact trivial

/-- The file `i` has a chain that holds as many bytes as its size says. -/
def Covered (fs : FS) (i : Nat) : Prop :=
  ∃ l, Chain fs.fat (fs.entries i).firstCluster l ∧
    (fs.entries i).size ≤ clusterSize * l.length

/-- The file `i` has a chain of the clusters that its size needs, and of one if it
is empty. -/
def Sized (fs : FS) (i : Nat) : Prop :=
  ∃ l, Chain fs.fat (fs.entries i).firstCluster l ∧
    l.length = max 1 (clustersFor (fs.entries i).size)

theorem Sized.covered {fs : FS} {i : Nat} (h : Sized fs i) : Covered fs i := by
  obtain ⟨l, hl, hlen⟩ := h
  refine ⟨l, hl, ?_⟩
  simp only [clustersFor, clusterSize_eq] at hlen ⊢
  omega

structure SizeInv (fs : FS) : Prop extends ChainInv fs where
  sized : ∀ i, IsFile fs i → Sized fs i

section

variable {fs fs' : FS} {i c : Nat} {e : Entry}

/-- A call with target `i`: the other files keep their chains and sizes. -/
theorem SizeInv.of_confined (h : SizeInv fs) (hc : Confined fs fs' i)
    (hself : IsFile fs' i → Sized fs' i) : SizeInv fs' := by
  refine ⟨hc.inv, fun j hj => ?_⟩
  by_cases hji : j = i
  · subst hji
    exact hself hj
  · unfold IsFile Used at hj
    rw [hc.frame.entries j hji] at hj
    obtain ⟨l, hl, hsize⟩ := h.sized j hj
    refine ⟨l, hc.frame.chain hji hj.1 hl, ?_⟩
    rwa [hc.frame.entries j hji]

/-- The slot `i` gets a record that is not a file in use. -/
theorem SizeInv.of_notFile (h : SizeInv fs) (hc : Confined fs fs' i)
    (hnot : (fs'.entries i).used = false ∨ (fs'.entries i).isDir = true) : SizeInv fs' := by
  refine h.of_confined hc fun hf => ?_
  rcases hnot with hunused | hdir
  · exact absurd (hf.1.2.symm.trans hunused) (by decide)
  · exact absurd (hdir.symm.trans hf.2) (by decide)

theorem SizeInv.addFile (h : SizeInv fs) (hnew : NewFile fs i c e) (hsize : e.size = 0) :
    SizeInv (addFile fs i c e) := by
  refine h.of_confined (confined_addFile h.toChainInv hnew) fun _ => ⟨_, chain_addFile hnew, ?_⟩
  simp only [Fat16.addFile, Function.update_self, hsize, List.length_singleton]
  decide

/-- The contents are written to a new chain of one cluster. -/
theorem SizeInv.writeContents (h : SizeInv fs) (hnew : Confined fs fs' i) (hu : Used fs' i)
    (hch : Chain fs'.fat (fs'.entries i).firstCluster [(fs'.entries i).firstCluster])
    (data : List UInt8) : SizeInv (writeContents fs' i data).2 := by
  obtain ⟨w, l', hst, -⟩ := writeContents_spec data hch
  refine h.of_confined (hnew.trans (confined_stored hnew.inv hu hch hst)) fun _ => ⟨l', ?_, ?_⟩
  · rw [hst.entries, Function.update_self]
    exact hst.chain
  · rw [hst.size_eq, hst.length]

end

theorem SizeInv.writeCase {fs : FS} (h : SizeInv fs) {name ext : Option CStr} {parent : Int}
    {data : List UInt8} {r : Int × FS} (hcase : WriteCase fs name ext parent data r) :
    SizeInv r.2 := by
  cases hcase with
  | refused ret _ => exact h
  | created i c nm _ _ hnew =>
    exact h.writeContents (confined_addFile h.toChainInv hnew) (isFile_addFile hnew).1
      (chain_addFile hnew) data
  | noSpace i _ hu hfull =>
    rw [noSpace_eq h.toChainInv hu hfull]
    exact h
  | restarted i c _ hu hc hz =>
    -- the old size stays until the contents are written
    exact h.writeContents (confined_restart h.toChainInv hu hc hz) (used_restart hu _ _)
      (chain_restart _ _ _ hc) data

theorem SizeInv.step {fs fs' : FS} (h : SizeInv fs) {op : Op} (hop : ByName op)
    (hstep : Fat16.step fs op = some fs') : SizeInv fs' := by
  have hinv := h.toChainInv
  cases step_cases hstep with
  | kept op => exact h
  | addDir _ _ =>
    refine h.of_notFile (confined_putEntry hinv (.inr rfl)) (.inr ?_)
    simp only [Function.update_self, dirEntry]
  | dropDir _ _ =>
    refine h.of_notFile (confined_putEntry hinv (.inl rfl)) (.inl ?_)
    simp only [clearUsed, Function.update_self]
  | addFile hnew _ => exact h.addFile hnew rfl
  | dropFile _ hf =>
    refine h.of_notFile (confined_removeFile hinv hf.1) (.inl ?_)
    simp only [clearUsed, Function.update_self]
  | wrote hcase => exact h.writeCase hcase
  | raw c data => exact absurd hop id

theorem sizeInv_fsInit (disk : Mem) : SizeInv (fsInit disk) := by
  refine ⟨chainInv_fsInit disk, fun i hf => ?_⟩
  -- the root is the only entry in use, and a directory
  by_cases hi : i = fsRootIdx
  · have hdir := hf.2
    simp only [fsInit, hi, Function.update_self] at hdir
    exact absurd hdir (by decide)
  · have hused := hf.1.2
    simp only [fsInit, Function.update_of_ne hi, Entry.zero] at hused
    exact absurd hused (by decide)

theorem content_length (disk : Mem) (l : List Nat) :
    (content disk l).length = clusterSize * l.length := by
  induction l with
  | nil => rfl
  | cons c l ih =>
    rw [content_cons, List.length_append, clusterBytes_length, ih, List.length_cons,
      Nat.mul_succ, Nat.add_comm]

theorem sizeInv_of_run {disk : Mem} {ops : List Op} {fs : FS}
    (hr : Run step (fun _ op => ByName op) (fsInit disk) ops fs) : SizeInv fs :=
  hr.invariant (fun _ _ _ hs ho hstep => hs.step ho hstep) (sizeInv_fsInit disk)

/-- A read of a file returns as many bytes as its size says; no file is larger than the disk. -/
theorem SizeInv.file_bytes {fs : FS} (h : SizeInv fs) {i : Nat} (hf : IsFile fs i) :
    (fsRead fs (fs.entries i).firstCluster (fs.entries i).size).length = (fs.entries i).size ∧
      (fs.entries i).size ≤ clusterSize * fatEntries := by
  obtain ⟨l, hl, hsize⟩ := (h.sized i hf).covered
  constructor
  · rw [fsRead_eq hl, List.length_take, content_length]
    omega
  · exact Nat.le_trans hsize (Nat.mul_le_mul_left _ hl.length_le)

/-- Size and chain agree: after any run of the calls by name and index, every
file in use has a chain of the clusters that its recorded size needs, one if it is
empty; so reading an entry that is a file is refused where the buffer is too
small for that size, and otherwise returns as many bytes as it says. -/
theorem recorded_size {disk : Mem} {ops : List Op} {fs : FS}
    (hr : Run step (fun _ op => ByName op) (fsInit disk) ops fs) :
    (∀ i, IsFile fs i → ∃ l, Chain fs.fat (fs.entries i).firstCluster l ∧
      l.length = max 1 (clustersFor (fs.entries i).size)) ∧
    ∀ (name ext : Option CStr) (parent : Int) (bufsize i : Nat),
      (fsFindInDir fs name ext parent).1 = i → (fs.entries i).isDir = false →
      ∃ bytes, bytes.length = (fs.entries i).size ∧
        fsReadFileInDir fs name ext parent bufsize =
          if bufsize < (fs.entries i).size then (-2, [], none)
          else (0, bytes, some (fs.entries i).size) := by
  refine ⟨(sizeInv_of_run hr).sized, fun name ext parent bufsize i hfind hfile => ?_⟩
  rcases fsFindInDir_cases fs name ext parent with hno | ⟨k, nm, -, hk, hm, -, hf⟩
  · rw [hno] at hfind
    exact absurd hfind (by omega)
  · rw [hf] at hfind
    obtain rfl : k = i := Int.ofNat.inj hfind
    have hlen := ((sizeInv_of_run hr).file_bytes ⟨used_of_matchAt hk hm, hfile⟩).1
    refine ⟨_, hlen, ?_⟩
    unfold fsReadFileInDir
    simp only [hf, hlen]

/-- The first file has 1200 bytes in three clusters. A buffer of 1000 bytes is refused. -/
theorem recorded_size_interleaved : ∃ fs, Run step (fun _ op => ByName op) (fsInit fun _ => 0)
    interleaved fs ∧
    (∃ l, Chain fs.fat (fs.entries 1).firstCluster l ∧ l.length = 3) ∧
    fsReadFileInDir fs (some nameA) (some nameB) fsRootIdx 1000 = (-2, [], none) ∧
    ∃ bytes : List UInt8, bytes.length = 1200 ∧
      fsReadFileInDir fs (some nameA) (some nameB) fsRootIdx 2048 = (0, bytes, some 1200) := by
  have hexec : (exec step (fun _ _ => True) (fsInit fun _ => 0) interleaved).map (fun fs =>
      ((fsFindInDir fs (some nameA) (some nameB) fsRootIdx).1, (fs.entries 1).size)) =
      some (1, 1200) := by
    decide +kernel
  obtain ⟨fs, hfs, hval⟩ := Option.map_eq_some_iff.mp hexec
  obtain ⟨hfind, hsize⟩ := Prod.mk.inj hval
  have hr : Run step (fun _ op => ByName op) (fsInit fun _ => 0) interleaved fs :=
    ((Run.of_exec hfs).restrict interleaved_nameCalls).mono fun _ _ ho => ho.2.byName
  have hfile := (interleaved_chains hfs).1.1
  obtain ⟨hchain, hread⟩ := recorded_size hr
  obtain ⟨l, hl, hlength⟩ := hchain 1 hfile
  obtain ⟨_, -, hrefused⟩ := hread (some nameA) (some nameB) fsRootIdx 1000 1 hfind hfile.2
  obtain ⟨bytes, hlen, hwhole⟩ := hread (some nameA) (some nameB) fsRootIdx 2048 1 hfind hfile.2
  rw [hsize] at hlength hrefused hlen hwhole
  exact ⟨fs, hr, ⟨l, hl, hlength⟩, hrefused, bytes, hlen, hwhole⟩

end KernelC.Fat16
