import KernelC.Fat16.Capacity

/-!
# Lost clusters

A cluster whose FAT entry is not 0 should be in the chain of one file
(`NoLostClusters`). Two calls break this for good:

* `fs_write` with fewer bytes than the chain holds marks the last cluster it
  wrote as the end and does not free the clusters after it;
* `fs_write_file_in_dir` under the name of a directory, with an empty
  extension, gives the directory a chain if a cluster is free, and removing a
  directory frees nothing.

`clusters_lost` is the run that shows it, `no_lost_clusters` that in every run
whose calls keep clear of the two cases (`KeepsClusters`) no cluster is lost.
-/

namespace KernelC.Fat16

/-- Every allocated cluster is in the chain of exactly one file, and without a
file the whole table is free. -/
def NoLostClusters (fs : FS) : Prop :=
  (∀ c, InTable c → fs.fat c ≠ 0 →
    ∃! i, IsFile fs i ∧ ∃ l, Chain fs.fat (fs.entries i).firstCluster l ∧ c ∈ l) ∧
  ((∀ i, ¬ IsFile fs i) → ∀ c, c < fatEntries → fs.fat c = 0)

/-- The call does not write to a directory by its name, unless no cluster is free, and
does not cut a chain: the data of `fs_write` needs at least the clusters the chain has. -/
def KeepsClusters (fs : FS) : Op → Prop
  | .writeFileInDir name ext parent _ =>
    ∀ i : Nat, (fsFindInDir fs name ext parent).1 = i → (fs.entries i).isDir = true →
      freeClusters fs.fat = 0
  | .write c data =>
    data.length = 0 ∨ ∀ l, Chain fs.fat c l → l.length ≤ clustersFor data.length
  | _ => True

/-- What a run of such calls keeps: chains as before, each allocated cluster in
the chain of a file, no directory with a chain, nothing outside the data area. -/
structure OwnInv (fs : FS) : Prop extends ChainInv fs where
  owner : ∀ x, InTable x → fs.fat x ≠ 0 →
    ∃ i l, IsFile fs i ∧ Chain fs.fat (fs.entries i).firstCluster l ∧ x ∈ l
  dirs : ∀ i, IsDirectory fs i → (fs.entries i).firstCluster = 0
  outside : ∀ x, ¬ InTable x → fs.fat x = 0

/-- A call with target `i`: what is allocated afterwards is in the chain of the
file `i`, or was allocated before and not to `i`. -/
theorem OwnInv.of_confined {fs fs' : FS} {i : Nat} (h : OwnInv fs) (hc : Confined fs fs' i)
    (hdir : IsDirectory fs' i → (fs'.entries i).firstCluster = 0)
    (hout : ∀ x, ¬ InTable x → fs'.fat x = fs.fat x)
    (halloc : ∀ x, InTable x → fs'.fat x ≠ 0 →
      (IsFile fs' i ∧ ∃ l, Chain fs'.fat (fs'.entries i).firstCluster l ∧ x ∈ l) ∨
      (fs.fat x ≠ 0 ∧
        ∀ l, IsFile fs i → Chain fs.fat (fs.entries i).firstCluster l → x ∉ l)) :
    OwnInv fs' := by
  refine ⟨hc.inv, fun x hx hne => ?_, fun j hj => ?_, fun x hx => ?_⟩
  · rcases halloc x hx hne with ⟨hf, l, hl, hxl⟩ | ⟨hold, hnot⟩
    · exact ⟨i, l, hf, hl, hxl⟩
    · obtain ⟨j, l, hf, hl, hxl⟩ := h.owner x hx hold
      have hji : j ≠ i := fun he => hnot l (he ▸ hf) (he ▸ hl) hxl
      refine ⟨j, l, ?_, hc.frame.chain hji hf.1 hl, hxl⟩
      unfold IsFile Used
      rw [hc.frame.entries j hji]
      exact hf
  · by_cases hji : j = i
    · rw [hji] at hj ⊢
      exact hdir hj
    · rw [hc.frame.entries j hji]
      unfold IsDirectory Used at hj
      rw [hc.frame.entries j hji] at hj
      exact h.dirs j hj
  · rw [hout x hx, h.outside x hx]

theorem OwnInv.addDir {fs : FS} (h : OwnInv fs) {i : Nat} {e : Entry} (he : NewEntry fs i e)
    (hz : e.firstCluster = 0) :
    OwnInv { fs with entries := Function.update fs.entries i e } := by
  refine h.of_confined (confined_putEntry h.toChainInv (.inr hz)) (fun _ => ?_) (fun _ _ => rfl) ?_
  · simp only [Function.update_self, hz]
  · intro x _ hne
    refine .inr ⟨hne, fun l hf _ _ => ?_⟩
    exact absurd (hf.1.2.symm.trans he.free) (by decide)

theorem OwnInv.dropDir {fs : FS} (h : OwnInv fs) {i : Nat} (hd : IsDirectory fs i) :
    OwnInv (clearUsed fs i) := by
  refine h.of_confined (confined_putEntry h.toChainInv (.inl rfl)) (fun hd' => ?_)
    (fun _ _ => rfl) ?_
  · simp only [IsDirectory, Used, clearUsed, Function.update_self] at hd'
    exact absurd hd'.1.2 Bool.false_ne_true
  · intro x _ hne
    refine .inr ⟨hne, fun l hf _ _ => ?_⟩
    exact absurd (hd.2.symm.trans hf.2) (by decide)

theorem OwnInv.addFile {fs : FS} (h : OwnInv fs) {i c : Nat} {e : Entry} (he : NewFile fs i c e) :
    OwnInv (addFile fs i c e) := by
  have hfile := isFile_addFile he
  refine h.of_confined (confined_addFile h.toChainInv he) (fun hd => ?_) ?_ ?_
  · exact absurd (hd.2.symm.trans hfile.2) (by decide)
  · intro x hx
    exact Function.update_of_ne (fun hxc : x = c => hx (hxc ▸ he.inTable)) _ _
  · intro x hx hne
    by_cases hxc : x = c
    · refine .inl ⟨hfile, _, chain_addFile he, ?_⟩
      simp only [Fat16.addFile, Function.update_self, he.first, hxc, List.mem_singleton]
    · simp only [Fat16.addFile, Function.update_of_ne hxc] at hne
      refine .inr ⟨hne, fun l hf _ _ => ?_⟩
      exact absurd (hf.1.2.symm.trans he.free) (by decide)

theorem OwnInv.dropFile {fs : FS} (h : OwnInv fs) {i : Nat} (hf : IsFile fs i) :
    OwnInv (clearUsed
      { fs with fat := freeClusterChain fs.fat (fs.entries i).firstCluster } i) := by
  obtain ⟨l, hfree, hmine, hl, hnil⟩ := freeChain_touches h.toChainInv hf.1
  refine h.of_confined (confined_removeFile h.toChainInv hf.1) (fun hd' => ?_) ?_ ?_
  · simp only [IsDirectory, Used, clearUsed, Function.update_self] at hd'
    exact absurd hd'.1.2 Bool.false_ne_true
  · intro x hx
    exact (hfree x).trans (if_neg fun hxl => hx (hmine x hxl).2)
  · intro x _ hne
    change freeClusterChain fs.fat (fs.entries i).firstCluster x ≠ 0 at hne
    rw [hfree x] at hne
    have hxl : x ∉ l := fun hm => hne (if_pos hm)
    rw [if_neg hxl] at hne
    refine .inr ⟨hne, fun l' _ hl' hx' => ?_⟩
    have h0 : (fs.entries i).firstCluster ≠ 0 := by
      have := hl'.start.1
      omega
    exact hxl (hl'.unique (hl h0) ▸ hx')

theorem OwnInv.restart {fs : FS} (h : OwnInv fs) {i c : Nat} (hf : IsFile fs i) (hc : InTable c)
    (hz : freeClusterChain fs.fat (fs.entries i).firstCluster c = 0) :
    OwnInv (restart fs i c (freeClusterChain fs.fat (fs.entries i).firstCluster)) := by
  obtain ⟨l, hfree, hmine, hl, hnil⟩ := freeChain_touches h.toChainInv hf.1
  have hfile := isFile_restart hf c (freeClusterChain fs.fat (fs.entries i).firstCluster)
  refine h.of_confined (confined_restart h.toChainInv hf.1 hc hz) (fun hd => ?_) ?_ ?_
  · exact absurd (hd.2.symm.trans hfile.2) (by decide)
  · intro x hx
    simp only [Fat16.restart, Function.update_of_ne (fun hxc : x = c => hx (hxc ▸ hc))]
    exact (hfree x).trans (if_neg fun hxl => hx (hmine x hxl).2)
  · intro x _ hne
    by_cases hxc : x = c
    · refine .inl ⟨hfile, _, chain_restart _ _ _ hc, ?_⟩
      simp only [Fat16.restart, Function.update_self, hxc, List.mem_singleton]
    · simp only [Fat16.restart, Function.update_of_ne hxc, hfree x] at hne
      have hxl : x ∉ l := fun hm => hne (if_pos hm)
      rw [if_neg hxl] at hne
      refine .inr ⟨hne, fun l' _ hl' hx' => ?_⟩
      have h0 : (fs.entries i).firstCluster ≠ 0 := by
        have := hl'.start.1
        omega
      exact hxl (hl'.unique (hl h0) ▸ hx')

/-- A chain of the file `i` that is rewritten and keeps its old clusters. -/
theorem OwnInv.relink {fs fs' : FS} (h : OwnInv fs) {i : Nat} {l l' : List Nat}
    (hc : Confined fs fs' i) (hfile : IsFile fs' i)
    (hl : Chain fs.fat (fs.entries i).firstCluster l)
    (hl' : Chain fs'.fat (fs'.entries i).firstCluster l') (hsub : ∀ x ∈ l, x ∈ l')
    (hframe : ∀ x, x ∉ l' → fs'.fat x = fs.fat x) : OwnInv fs' := by
  refine h.of_confined hc (fun hd => ?_) ?_ ?_
  · exact absurd (hd.2.symm.trans hfile.2) (by decide)
  · exact fun x hx => hframe x fun hxl => hx (hl'.inTable x hxl)
  · intro x _ hne
    by_cases hxl : x ∈ l'
    · exact .inl ⟨hfile, l', hl', hxl⟩
    · rw [hframe x hxl] at hne
      exact .inr ⟨hne, fun l₀ _ hl₀ hx₀ => hxl (hsub x (hl.unique hl₀ ▸ hx₀))⟩

theorem OwnInv.writeContents {fs : FS} (h : OwnInv fs) {i : Nat} (hf : IsFile fs i)
    (hch : Chain fs.fat (fs.entries i).firstCluster [(fs.entries i).firstCluster])
    (data : List UInt8) : OwnInv (writeContents fs i data).2 := by
  obtain ⟨w, l', hst, -⟩ := writeContents_spec data hch
  have hself : (Fat16.writeContents fs i data).2.entries i =
      { fs.entries i with size := w % 2 ^ 32 } := by
    rw [hst.entries, Function.update_self]
  have hl' : Chain (Fat16.writeContents fs i data).2.fat
      ((Fat16.writeContents fs i data).2.entries i).firstCluster l' := by
    rw [hself]
    exact hst.chain
  refine h.relink (confined_stored h.toChainInv hf.1 hch hst) ?_ hch hl' ?_ hst.fatFrame
  · unfold IsFile Used
    rw [hself]
    exact hf
  · intro x hx
    rw [List.mem_singleton.mp hx]
    exact hst.chain.start_mem

theorem OwnInv.write {fs : FS} (h : OwnInv fs) {i : Nat} (hf : IsFile fs i)
    (hne : (fs.entries i).firstCluster ≠ 0) {data : List UInt8}
    (hk : KeepsClusters fs (.write (fs.entries i).firstCluster data)) :
    OwnInv (fsWrite fs (fs.entries i).firstCluster data).2 := by
  by_cases hd : data.length = 0
  · rw [List.eq_nil_of_length_eq_zero hd, fsWrite_nil]
    exact h
  · obtain ⟨l, hl⟩ := h.chain i hf.1 hne
    obtain ⟨l', hw, hframe, hre⟩ := fsWrite_spec data hl (by omega)
    have hlen : l.length ≤ clustersFor data.length := by
      rcases hk with hk | hk
      · exact absurd hk hd
      · exact hk l hl
    have hsub : ∀ x ∈ l, x ∈ l' := by
      rcases hre with ⟨hpre, hl'⟩ | ⟨fr, rfl, -⟩
      · intro x hx
        rw [hpre.eq_of_length_le (by omega)]
        exact hx
      · exact fun x hx => List.mem_append_left _ hx
    have hent := fsWrite_entries fs (fs.entries i).firstCluster data
    have hl' : Chain (fsWrite fs (fs.entries i).firstCluster data).2.fat
        ((fsWrite fs (fs.entries i).firstCluster data).2.entries i).firstCluster l' := by
      rw [hent]
      exact hw.chain
    refine h.relink (confined_fsWrite h.toChainInv hf.1 hne data) ?_ hl hl' hsub hframe
    unfold IsFile Used
    rw [hent]
    exact hf

theorem OwnInv.writeCase {fs : FS} (h : OwnInv fs) {name ext : Option CStr} {parent : Int}
    {data : List UInt8} {r : Int × FS} (hc : WriteCase fs name ext parent data r)
    (hk : KeepsClusters fs (.writeFileInDir name ext parent data)) : OwnInv r.2 := by
  cases hc with
  | refused ret _ => exact h
  | created i c nm _ _ hnew =>
    exact (h.addFile hnew).writeContents (isFile_addFile hnew) (chain_addFile hnew) data
  | noSpace i _ hu hfull =>
    rw [noSpace_eq h.toChainInv hu hfull]
    exact h
  | restarted i c hfind hu hc hz =>
    have hf : IsFile fs i := by
      refine ⟨hu, ?_⟩
      by_contra hdir
      rw [Bool.not_eq_false] at hdir
      -- a directory has no chain to free, so the cluster `c` was free before
      rw [h.dirs i ⟨hu, hdir⟩, freeClusterChain_zero] at hz
      have hpos := freeClusters_pos hc hz
      rw [hk i hfind hdir] at hpos
      exact absurd hpos (Nat.lt_irrefl 0)
    exact (h.restart hf hc hz).writeContents (isFile_restart hf _ _) (chain_restart _ _ _ hc) data

theorem OwnInv.step {fs fs' : FS} (h : OwnInv fs) {op : Op} (hop : FileCall fs op)
    (hk : KeepsClusters fs op) (hstep : Fat16.step fs op = some fs') : OwnInv fs' := by
  cases step_cases hstep with
  | kept op => exact h
  | addDir he _ => exact h.addDir he rfl
  | dropDir _ he => exact h.dropDir he.dir
  | addFile he _ => exact h.addFile he
  | dropFile _ hf => exact h.dropFile hf
  | wrote hcase => exact h.writeCase hcase hk
  | raw c data =>
    obtain ⟨i, hf, rfl⟩ := hop
    by_cases h0 : (fs.entries i).firstCluster = 0
    · rw [h0, fsWrite_zero]
      exact h
    · exact h.write hf h0 hk

theorem ownInv_fsInit (disk : Mem) : OwnInv (fsInit disk) := by
  refine ⟨chainInv_fsInit disk, fun x _ hne => absurd rfl hne, fun i _ => ?_, fun _ _ => rfl⟩
  by_cases hi : i = fsRootIdx
  · simp only [fsInit, hi, Function.update_self, Entry.zero]
  · simp only [fsInit, Function.update_of_ne hi, Entry.zero]

/-- No cluster is lost in a run whose calls neither write to a directory by its
name while a cluster is free nor cut a chain. -/
theorem no_lost_clusters {disk : Mem} {ops : List Op} {fs : FS}
    (h : Run step (fun fs op => FileCall fs op ∧ KeepsClusters fs op) (fsInit disk) ops fs) :
    NoLostClusters fs := by
  have hinv : OwnInv fs :=
    h.invariant (fun _ _ _ hs ho hstep => hs.step ho.1 ho.2 hstep) (ownInv_fsInit disk)
  refine ⟨fun c hc hne => ?_, fun hno c _ => ?_⟩
  · obtain ⟨i, l, hf, hl, hcl⟩ := hinv.owner c hc hne
    refine ⟨i, ⟨hf, l, hl, hcl⟩, ?_⟩
    rintro j ⟨hj, l', hl', hcl'⟩
    by_contra hji
    exact hinv.disjoint j i hj.1 hf.1 hji l' l hl' hl hcl' hcl
  · by_contra hne
    by_cases hc : InTable c
    · obtain ⟨i, -, hf, -⟩ := hinv.owner c hc hne
      exact hno i hf
    · exact hne (hinv.outside c hc)

theorem no_lost_clusters_interleaved : ∃ fs,
    Run step (fun fs op => FileCall fs op ∧ KeepsClusters fs op) (fsInit fun _ => 0)
      interleaved fs ∧ fs.fat 7 ≠ 0 ∧ NoLostClusters fs := by
  -- neither name is that of a directory
  have hexec : (exec step (fun fs _ => ∀ n ∈ [nameA, nameB],
      (fsFindInDir fs (some n) (some nameB) fsRootIdx).1 < 0 ∨ (fs.entries
        (fsFindInDir fs (some n) (some nameB) fsRootIdx).1.toNat).isDir = false)
      (fsInit fun _ => 0) interleaved).map (fun fs => fs.fat 7) = some eof := by
    decide +kernel
  obtain ⟨fs, hfs, h7⟩ := Option.map_eq_some_iff.mp hexec
  have hnames : ∀ o ∈ interleaved, ∃ n ∈ [nameA, nameB], ∃ data,
      o = .writeFileInDir (some n) (some nameB) fsRootIdx data := by
    simp only [interleaved, List.forall_mem_cons]
    exact ⟨⟨nameA, by simp, _, rfl⟩, ⟨nameB, by simp, _, rfl⟩, ⟨nameA, by simp, _, rfl⟩, by simp⟩
  have hr : Run step (fun fs op => FileCall fs op ∧ KeepsClusters fs op) (fsInit fun _ => 0)
      interleaved fs := by
    refine ((Run.of_exec hfs).restrict hnames).mono ?_
    rintro fs _ ⟨hfind, n, hn, data, rfl⟩
    refine ⟨trivial, fun i hi hdir => ?_⟩
    rcases hfind n hn with hlt | hfile
    · omega
    · rw [hi, Int.toNat_natCast, hdir] at hfile
      exact absurd hfile (by decide)
  exact ⟨fs, hr, by rw [h7]; decide, no_lost_clusters hr⟩

/-- Make the directory `a`, write one byte under its name, remove it. -/
def lossyRun : List Op :=
  [.mkdir (some nameA) fsRootIdx,
    .writeFileInDir (some nameA) (some CStr.empty) fsRootIdx [1],
    .rmdir 1]

/-- After the three calls of `lossyRun`, all successful, no file exists and
cluster 2 is allocated. -/
theorem clusters_lost : ∃ fs, Run step FileCall (fsInit fun _ => 0) lossyRun fs ∧
    ¬ NoLostClusters fs := by
  have hr : Run step FileCall (fsInit fun _ => 0) lossyRun _ :=
    .cons trivial (step_getD (by decide +kernel))
      (.cons trivial (step_getD (by decide +kernel))
        (.cons trivial (step_getD (by decide +kernel)) (.nil _)))
  refine ⟨_, hr, fun hno => ?_⟩
  generalize hfs : (step ((step ((step (fsInit fun _ => 0) _).getD _) _).getD _) _).getD _ = fs
    at hr hno
  have hdirs : (List.range fsMaxEntries).all
      (fun i => !(fs.entries i).used || (fs.entries i).isDir) = true := by
    rw [← hfs]
    decide +kernel
  have halloc : fs.fat 2 = eof := by
    rw [← hfs]
    decide +kernel
  have hzero := hno.2 (fun i hi => ?_) 2 (by decide)
  · rw [halloc] at hzero
    exact absurd hzero (by decide)
  · have hi' := List.all_eq_true.mp hdirs i (List.mem_range.mpr hi.1.1)
    rw [hi.1.2, hi.2] at hi'
    exact absurd hi' (by decide)

end KernelC.Fat16
