import KernelC.Fat16.Covered
import KernelC.Fat16.ReadBack

/-!
# How much fits

`fs_write` reuses the clusters of the chain, then takes free ones, and stops
when there is none. So a chain of `L` clusters beside `F` free ones takes
`512 * (L + F)` bytes and no more (`fsWrite_fits`), and whether
`fs_write_file_in_dir` returns 0 is a matter of counting (`write_outcome`).
-/

namespace KernelC.Fat16

/-! ## Free clusters -/

/-- The free clusters of the data area. -/
def freeList (fat : Nat → Nat) : List Nat :=
  (List.range' 2 (fatEntries - 2)).filter fun x => fat x == 0

def freeClusters (fat : Nat → Nat) : Nat := (freeList fat).length

theorem mem_freeList {fat : Nat → Nat} {x : Nat} :
    x ∈ freeList fat ↔ InTable x ∧ fat x = 0 := by
  have hend : 2 + (fatEntries - 2) = fatEntries := by decide
  simp only [freeList, List.mem_filter, List.mem_range'_1, beq_iff_eq, hend, InTable]

theorem freeList_nodup (fat : Nat → Nat) : (freeList fat).Nodup :=
  List.filter_sublist.nodup List.nodup_range'

theorem freeClusters_pos {fat : Nat → Nat} {c : Nat} (hc : InTable c) (hz : fat c = 0) :
    0 < freeClusters fat :=
  List.length_pos_of_mem (mem_freeList.mpr ⟨hc, hz⟩)

theorem freeClusters_eq_zero {fat : Nat → Nat} (h : ∀ x, InTable x → fat x ≠ 0) :
    freeClusters fat = 0 := by
  refine List.length_eq_zero_iff.mpr (List.eq_nil_iff_forall_not_mem.mpr fun x hx => ?_)
  exact h x (mem_freeList.mp hx).1 (mem_freeList.mp hx).2

/-- Clusters that become free beside those that are. -/
theorem freeClusters_add {fat fat' : Nat → Nat} {l : List Nat} (hnd : l.Nodup)
    (hnew : ∀ x ∈ l, InTable x ∧ fat x ≠ 0)
    (hfree : ∀ x, InTable x → (fat' x = 0 ↔ x ∈ l ∨ fat x = 0)) :
    freeClusters fat' = l.length + freeClusters fat := by
  have hdis : l.Disjoint (freeList fat) := fun x hx hx' =>
    (hnew x hx).2 (mem_freeList.mp hx').2
  have hperm : List.Perm (freeList fat') (l ++ freeList fat) := by
    refine (List.perm_ext_iff_of_nodup (freeList_nodup _)
      (List.nodup_append'.mpr ⟨hnd, freeList_nodup _, hdis⟩)).mpr fun x => ?_
    rw [mem_freeList, List.mem_append, mem_freeList]
    constructor
    · rintro ⟨hx, hz⟩
      rcases (hfree x hx).mp hz with hl | hz
      · exact .inl hl
      · exact .inr ⟨hx, hz⟩
    · rintro (hl | ⟨hx, hz⟩)
      · exact ⟨(hnew x hl).1, (hfree x (hnew x hl).1).mpr (.inl hl)⟩
      · exact ⟨hx, (hfree x hx).mpr (.inr hz)⟩
  rw [freeClusters, hperm.length_eq, List.length_append, freeClusters]

/-- Freeing a chain frees as many clusters as it has. -/
theorem freeClusters_clear {fat : Nat → Nat} {c : Nat} {l : List Nat} (h : Chain fat c l) :
    freeClusters (clear fat l) = l.length + freeClusters fat := by
  refine freeClusters_add h.nodup (fun x hx => ⟨h.inTable x hx, h.fat_ne_zero x hx⟩) fun x _ => ?_
  unfold clear
  split
  · next hx => simp [hx]
  · next hx => simp [hx]

/-- Taking a free cluster. -/
theorem freeClusters_update {fat : Nat → Nat} {c : Nat} (hc : InTable c) (hz : fat c = 0) :
    freeClusters fat = 1 + freeClusters (Function.update fat c eof) := by
  have heof : eof ≠ 0 := by decide
  refine freeClusters_add (l := [c]) (List.nodup_singleton c) (fun x hx => ?_) fun x _ => ?_
  · rw [List.mem_singleton.mp hx, Function.update_self]
    exact ⟨hc, heof⟩
  · by_cases hx : x = c
    · simp [hx, hz]
    · simp [hx]

/-! ## Writing a chain -/

/-- The clusters after a write are those before it and free ones. When nothing
was free at the end, all of them were used. -/
theorem Relinked.length_le {fat : Nat → Nat} {n : Nat} {l l' : List Nat}
    (h : Relinked fat n l l') (hnd : l'.Nodup) (hin : ∀ x ∈ l', InTable x) :
    l'.length ≤ l.length + freeClusters fat := by
  rcases h with ⟨hpre, -⟩ | ⟨fr, rfl, hfr⟩
  · have := hpre.length_le
    omega
  · have hsub : fr ⊆ freeList fat := fun x hx =>
      mem_freeList.mpr ⟨hin x (List.mem_append_right _ hx), hfr x hx⟩
    have hle := (List.subperm_of_subset (List.nodup_append.mp hnd).2.1 hsub).length_le
    rw [List.length_append]
    exact Nat.add_le_add_left hle _

theorem Relinked.le_length {fat fat' : Nat → Nat} {n : Nat} {l l' : List Nat}
    (h : Relinked fat n l l') (hshort : l'.length < clustersFor n)
    (hframe : ∀ x, x ∉ l' → fat' x = fat x) (hne : ∀ x ∈ l, fat x ≠ 0)
    (hfull : ∀ x, InTable x → fat' x ≠ 0) : l.length + freeClusters fat ≤ l'.length := by
  rcases h with ⟨-, hlen⟩ | ⟨fr, rfl, -⟩
  · omega
  · have hsub : freeList fat ⊆ fr := by
      intro x hx
      obtain ⟨hin, hz⟩ := mem_freeList.mp hx
      by_contra hno
      refine hfull x hin ((hframe x fun hm => ?_).trans hz)
      rcases List.mem_append.mp hm with hm | hm
      · exact hne x hm hz
      · exact hno hm
    have hle := (List.subperm_of_subset (freeList_nodup fat) hsub).length_le
    rw [List.length_append]
    exact Nat.add_le_add_left hle _

/-- How many bytes `fs_write` writes. -/
theorem fsWrite_count {fs : FS} {c : Nat} {l : List Nat} {data : List UInt8}
    (h : Chain fs.fat c l) (hdata : 0 < data.length) :
    (fsWrite fs c data).1 =
      min data.length (clusterSize * (l.length + freeClusters fs.fat)) := by
  obtain ⟨l', hw, hframe, hre⟩ := fsWrite_spec data h hdata
  have hcount := hw.count
  simp only [Nat.zero_add, Nat.sub_zero] at hcount
  have hle := hre.length_le hw.chain.nodup hw.chain.inTable
  by_cases hall : (fsWrite fs c data).1 < data.length
  · have hshort : l'.length < clustersFor data.length := by
      simp only [clustersFor, clusterSize_eq] at hcount ⊢
      omega
    have hge := hre.le_length hshort hframe h.fat_ne_zero (hw.full hall)
    rw [hcount, Nat.le_antisymm hge hle]
  · have hmul := Nat.mul_le_mul_left clusterSize hle
    omega

theorem fsRead_length {fs : FS} {c : Nat} {l : List Nat} (h : Chain fs.fat c l) (m : Nat) :
    (fsRead fs c m).length = min m (clusterSize * l.length) := by
  rw [fsRead_eq h, List.length_take, content_length]

/-- Write and read: `fs_write` on a chain of `l.length` clusters writes all of the
data or fills the chain and every free cluster, leaves a chain of the clusters
it needs, and reading any number of the bytes written returns them. A read
returns as many bytes as asked for or as the chain has. -/
theorem fsWrite_fits {fs : FS} {c : Nat} {l : List Nat} {data : List UInt8}
    (h : Chain fs.fat c l) (hdata : 0 < data.length) :
    (fsWrite fs c data).1 =
      min data.length (clusterSize * (l.length + freeClusters fs.fat)) ∧
    (∃ l', Chain (fsWrite fs c data).2.fat c l' ∧
      l'.length = clustersFor (fsWrite fs c data).1 ∧
      ∀ m, (fsRead (fsWrite fs c data).2 c m).length = min m (clusterSize * l'.length)) ∧
    (∀ m, m ≤ (fsWrite fs c data).1 →
      (fsRead (fsWrite fs c data).2 c m).length = m ∧
      fsRead (fsWrite fs c data).2 c m = data.take m) ∧
    ∀ m, (fsRead fs c m).length = min m (clusterSize * l.length) := by
  obtain ⟨l', hw, -, -⟩ := fsWrite_spec data h hdata
  have hchain : Chain (fsWrite fs c data).2.fat c l' := hw.chain
  have hcount := hw.count
  have hbytes := hw.bytes
  simp only [Nat.zero_add, Nat.sub_zero, List.drop_zero] at hcount hbytes
  have hread : ∀ m, m ≤ (fsWrite fs c data).1 →
      fsRead (fsWrite fs c data).2 c m = data.take m := by
    intro m hm
    calc fsRead (fsWrite fs c data).2 c m
        = ((content (fsWrite fs c data).2.disk l').take (fsWrite fs c data).1).take m := by
          rw [fsRead_eq hchain, List.take_take, Nat.min_eq_left hm]
      _ = data.take m := by rw [hbytes, List.take_take, Nat.min_eq_left hm]
  refine ⟨fsWrite_count h hdata, ⟨l', hchain, hw.length, fsRead_length hchain⟩, ?_, fsRead_length h⟩
  intro m hm
  refine ⟨?_, hread m hm⟩
  rw [hread m hm, List.length_take]
  omega

/-- The chain from 2 has two clusters, and the cluster behind it is taken. More data makes the
chain longer, around that cluster; less data cuts it. -/
theorem fsWrite_fits_grown :
    let fs : FS :=
      ⟨Function.update (Function.update (Function.update (fun _ => 0) 2 3) 3 eof) 4 eof,
        fun _ => Entry.zero, fun _ => 0⟩
    Chain fs.fat 2 [2, 3] ∧
    (∃ l, Chain (fsWrite fs 2 (List.replicate 1300 7)).2.fat 2 l ∧ l.length = 3 ∧
      fsRead (fsWrite fs 2 (List.replicate 1300 7)).2 2 1200 = List.replicate 1200 7) ∧
    ∃ l, Chain (fsWrite fs 2 [1, 2, 3, 4, 5, 6, 7]).2.fat 2 l ∧ l.length = 1 ∧
      fsRead (fsWrite fs 2 [1, 2, 3, 4, 5, 6, 7]).2 2 5 = [1, 2, 3, 4, 5] := by
  intro fs
  have hl : Chain fs.fat 2 [2, 3] := by
    have hlink : fs.fat 2 = 3 ∧ fs.fat 3 = eof := by decide +kernel
    refine ⟨by decide, ⟨rfl, hlink⟩, ?_⟩
    unfold InTable
    decide
  have hlong : (fsWrite fs 2 (List.replicate 1300 7)).1 = 1300 := by decide +kernel
  have hshort : (fsWrite fs 2 [1, 2, 3, 4, 5, 6, 7]).1 = 7 := by decide +kernel
  obtain ⟨-, ⟨l₁, hl₁, hlen₁, -⟩, hread₁, -⟩ :=
    fsWrite_fits hl (show 0 < (List.replicate 1300 (7 : UInt8)).length by
      rw [List.length_replicate]; decide)
  obtain ⟨-, ⟨l₂, hl₂, hlen₂, -⟩, hread₂, -⟩ :=
    fsWrite_fits hl (show 0 < [(1 : UInt8), 2, 3, 4, 5, 6, 7].length by decide)
  rw [hlong] at hlen₁ hread₁
  rw [hshort] at hlen₂ hread₂
  refine ⟨hl, ⟨l₁, hl₁, hlen₁, ?_⟩, l₂, hl₂, hlen₂, (hread₂ 5 (by decide)).2⟩
  rw [(hread₁ 1200 (by decide)).2, List.take_replicate]
  rfl

/-! ## Writing a file by name -/

theorem clustersFor_le_iff {n k : Nat} : clustersFor n ≤ k ↔ n ≤ clusterSize * k := by
  simp only [clustersFor, clusterSize_eq]
  omega

/-- Beside the cluster that the entry starts with, the free ones are there for the
contents. -/
theorem writeContents_result {fs : FS} {i : Nat} (data : List UInt8)
    (h : Chain fs.fat (fs.entries i).firstCluster [(fs.entries i).firstCluster]) :
    (writeContents fs i data).1 =
      if max 1 (clustersFor data.length) ≤ 1 + freeClusters fs.fat then 0 else -6 := by
  have hfit : max 1 (clustersFor data.length) ≤ 1 + freeClusters fs.fat ↔
      data.length ≤ clusterSize * (1 + freeClusters fs.fat) := by
    rw [← clustersFor_le_iff]
    omega
  rw [if_congr hfit rfl rfl]
  unfold writeContents
  by_cases hd : data.length = 0
  · rw [if_pos hd, if_pos (by omega)]
  · have hcount := fsWrite_count h (show 0 < data.length by omega)
    rw [List.length_singleton] at hcount
    rw [if_neg hd]
    dsimp only
    by_cases hall : data.length ≤ clusterSize * (1 + freeClusters fs.fat)
    · rw [if_pos hall, if_neg (by omega)]
    · rw [if_neg hall, if_pos (by omega)]

/-- What a write that returned -6 has stored: full clusters, and no cluster is
free. -/
theorem Stored.partial {fs fs' : FS} {i w : Nat} {data : List UInt8} {l' : List Nat}
    (h : Stored fs fs' i w data l') (hw : w ≠ data.length) :
    0 < w ∧ clusterSize ∣ w ∧ w < data.length ∧ ∀ x, InTable x → fs'.fat x ≠ 0 := by
  have hcount := h.count
  have hlt : w < data.length := by omega
  have hfull : w = clusterSize * l'.length := by omega
  have hpos : 0 < l'.length := List.length_pos_of_ne_nil h.chain.nonempty
  refine ⟨?_, ⟨_, hfull⟩, hlt, h.full hlt⟩
  rw [hfull]
  exact Nat.mul_pos (by decide) hpos

/-- The entry that a write by name goes to, with a start cluster of its own. -/
theorem fsCreateFile_succeeds {fs : FS} {name : CStr} {ext : Option CStr} {p k : Nat}
    (hp : IsDirectory fs p) (hno : ∀ j, j < fsMaxEntries → dupFileAt fs name ext p j = false)
    (hk : 0 < k ∧ k < fsMaxEntries ∧ (fs.entries k).used = false)
    (hfree : 0 < freeClusters fs.fat) :
    ∃ i c, NewFile fs i c (fileEntry name ext p c) ∧ fsCreateFile fs (some name) ext p =
      some ((i : Int), some c, addFile fs i c (fileEntry name ext p c)) := by
  have hslot : ∃ i, findFreeEntry fs.entries = some i := by
    refine Option.isSome_iff_exists.mp (List.find?_isSome.mpr ⟨k, ?_, by simp [hk.2.2]⟩)
    have hend : 1 + (fsMaxEntries - 1) = fsMaxEntries := by decide
    exact List.mem_range'_1.mpr ⟨hk.1, by omega⟩
  obtain ⟨i, hi⟩ := hslot
  obtain ⟨hpos, hmax, hunused⟩ := findFreeEntry_some hi
  have hnone : (List.range fsMaxEntries).find? (dupFileAt fs name ext p) = none :=
    List.find?_eq_none.mpr fun j hj => by simp [hno j (List.mem_range.mp hj)]
  rcases allocCluster_cases fs.fat with ⟨c, hc, hz, ha⟩ | ⟨hfull, -⟩
  · have hc0 : c ≠ 0 := by have := hc.1; omega
    have hlt := hp.1.1
    refine ⟨i, c, ⟨⟨hpos, hmax, hunused, rfl, p, rfl, hp⟩, rfl, rfl, hc, hz⟩, ?_⟩
    unfold fsCreateFile
    dsimp only
    rw [if_neg (by omega), if_neg (by simp [hp.1.2, hp.2])]
    simp only [hnone, hi, ha, if_neg hc0, Function.update_idem]
    rfl
  · rw [freeClusters_eq_zero hfull] at hfree
    exact absurd hfree (Nat.lt_irrefl 0)

/-- A write to a name that is there. -/
theorem fsWriteFileInDir_found {fs : FS} {name : CStr} {ext : Option CStr} {p i : Nat}
    (hp : IsDirectory fs p) (hfind : (fsFindInDir fs (some name) ext p).1 = i)
    (data : List UInt8) :
    fsWriteFileInDir fs (some name) ext p data =
      match restartChain fs i with
      | (none, fs) => some (-5, fs)
      | (some fs, _) => some (writeContents fs i data) := by
  have hlt := hp.1.1
  unfold fsWriteFileInDir
  rw [if_neg (by simp), if_neg (by omega), if_neg (by simp [hp.1.2, hp.2])]
  simp only [hfind]
  exact (if_neg (by omega)).trans rfl

/-- A write to a name that is not there. -/
theorem fsWriteFileInDir_absent {fs : FS} {name : CStr} {ext : Option CStr} {p : Nat}
    (hp : IsDirectory fs p) (hfind : (fsFindInDir fs (some name) ext p).1 = -1)
    (data : List UInt8) :
    fsWriteFileInDir fs (some name) ext p data =
      match fsCreateFile fs (some name) ext p with
      | none => none
      | some (cidx, _, fs) =>
        if cidx < 0 then some (-4, fs) else some (writeContents fs cidx.toNat data) := by
  have hlt := hp.1.1
  unfold fsWriteFileInDir
  rw [if_neg (by simp), if_neg (by omega), if_neg (by simp [hp.1.2, hp.2])]
  simp only [hfind]
  exact (if_pos (by omega)).trans rfl

theorem write_found_result {fs : FS} {name : CStr} {ext : Option CStr} {p i : Nat} {l : List Nat}
    (hp : IsDirectory fs p) (hfind : (fsFindInDir fs (some name) ext p).1 = i)
    (hl : Chain fs.fat (fs.entries i).firstCluster l) (data : List UInt8) :
    ∃ fs', fsWriteFileInDir fs (some name) ext p data =
      some (if max 1 (clustersFor data.length) ≤ l.length + freeClusters fs.fat then 0 else -6,
        fs') := by
  have hfreed := freeClusterChain_eq hl
  rw [fsWriteFileInDir_found hp hfind]
  rcases restartChain_cases fs i with ⟨c, hc, hz, hr⟩ | ⟨hfull, -⟩
  · -- the start cluster is one of those that are free once the old chain is
    have hch := chain_restart fs i (freeClusterChain fs.fat (fs.entries i).firstCluster) hc
    have hcount : 1 + freeClusters
        (restart fs i c (freeClusterChain fs.fat (fs.entries i).firstCluster)).fat =
        l.length + freeClusters fs.fat := by
      rw [hfreed] at hz
      simp only [restart, hfreed]
      rw [← freeClusters_update hc hz, freeClusters_clear hl]
    have hres := writeContents_result data hch
    rw [hcount] at hres
    rw [hr, ← hres]
    exact ⟨_, rfl⟩
  · refine absurd ?_ (hfull _ hl.start)
    rw [hfreed, clear, if_pos hl.start_mem]

/-- A duplicate would have been found. -/
theorem dupFileAt_of_noMatch {fs : FS} {name ext : CStr} {parent : Int} {j : Nat}
    (h : matchAt fs name (some ext) parent j = false) :
    dupFileAt fs name (some ext) parent j = false := by
  by_contra hdup
  rw [Bool.not_eq_false] at hdup
  simp only [dupFileAt, Bool.and_eq_true, Bool.not_eq_true', beq_iff_eq] at hdup
  obtain ⟨⟨⟨⟨hu, hp⟩, hd⟩, hn⟩, hx⟩ := hdup
  simp [matchAt, hu, hp, hd, hn, hx] at h

theorem write_absent_result {fs : FS} {name ext : CStr} {p : Nat} (hp : IsDirectory fs p)
    (hfind : (fsFindInDir fs (some name) (some ext) p).1 = -1) (data : List UInt8) :
    ∃ ret fs', fsWriteFileInDir fs (some name) (some ext) p data = some (ret, fs') ∧
      (ret = 0 ↔ (∃ k, 0 < k ∧ k < fsMaxEntries ∧ (fs.entries k).used = false) ∧
        max 1 (clustersFor data.length) ≤ freeClusters fs.fat) := by
  have hno := matchAt_eq_false_of_find hp.1.1 hfind
  rcases fsWriteFileInDir_cases fs (some name) (some ext) p data with ⟨he, -⟩ | ⟨r, hr, hcase⟩
  · cases he
  refine ⟨r.1, r.2, hr, ?_⟩
  by_cases hroom : (∃ k, 0 < k ∧ k < fsMaxEntries ∧ (fs.entries k).used = false) ∧
      0 < freeClusters fs.fat
  · obtain ⟨⟨k, hk⟩, hfree⟩ := hroom
    obtain ⟨i, c, hnew, hcreate⟩ := fsCreateFile_succeeds hp
      (fun j hj => dupFileAt_of_noMatch (hno j hj)) hk hfree
    have hres := writeContents_result data (chain_addFile hnew)
    have hcount : 1 + freeClusters (addFile fs i c (fileEntry name (some ext) p c)).fat =
        freeClusters fs.fat := (freeClusters_update hnew.inTable hnew.freeCluster).symm
    simp only [hcount] at hres
    rw [fsWriteFileInDir_absent hp hfind, hcreate] at hr
    simp only [if_neg (show ¬ ((i : Int) < 0) by omega), Int.toNat_natCast] at hr
    obtain rfl := Option.some.inj hr
    rw [hres]
    constructor
    · intro h0
      refine ⟨⟨k, hk⟩, ?_⟩
      by_contra hmax
      rw [if_neg hmax] at h0
      exact absurd h0 (by decide)
    · exact fun h => if_pos h.2
  · have hnot : ¬ ((∃ k, 0 < k ∧ k < fsMaxEntries ∧ (fs.entries k).used = false) ∧
        max 1 (clustersFor data.length) ≤ freeClusters fs.fat) :=
      fun h => hroom ⟨h.1, by have := h.2; omega⟩
    refine ⟨fun h0 => ?_, fun h => absurd h hnot⟩
    cases hcase with
    | refused ret hneg => exact absurd h0 (by simp only; omega)
    | created i c nm _ _ hnew =>
      exact absurd ⟨⟨i, hnew.pos, hnew.lt, hnew.free⟩,
        freeClusters_pos hnew.inTable hnew.freeCluster⟩ hroom
    | noSpace i hf _ _ => exact absurd (hfind.symm.trans hf) (by omega)
    | restarted i c hf _ _ _ => exact absurd (hfind.symm.trans hf) (by omega)

/-- Part of the data is stored under the name: no cluster is free, the size of the
entry is the number of bytes written, a positive multiple of the cluster size, and
reading the name returns exactly these bytes. -/
def PartlyWritten (fs : FS) (name ext : Option CStr) (parent : Int) (data : List UInt8) : Prop :=
  freeClusters fs.fat = 0 ∧
  ∃ i w : Nat, fsFindInDir fs name ext parent = ((i : Int), some (fs.entries i)) ∧
    (fs.entries i).size = w ∧ 0 < w ∧ clusterSize ∣ w ∧ w < data.length ∧
    ∀ bufsize, w ≤ bufsize →
      fsReadFileInDir fs name ext parent bufsize = (0, data.take w, some w)

/-- Once the contents are written, the only failure is a partial write. -/
theorem Stored.failed {fs fs' : FS} {name : CStr} {ext : Option CStr} {p i w : Nat} {ret : Int}
    {data : List UInt8} {l' : List Nat} (hst : Stored fs fs' i w data l')
    (hret : ret = if w = data.length then 0 else -6)
    (hfind : fsFindInDir fs' (some name) ext p = ((i : Int), some (fs'.entries i))) :
    (ret = -6 → PartlyWritten fs' (some name) ext p data) ∧ (ret < 0 → ret = -6) := by
  by_cases hall : w = data.length
  · rw [if_pos hall] at hret
    exact ⟨fun h => absurd (h.symm.trans hret) (by decide), fun h => absurd h (by omega)⟩
  · rw [if_neg hall] at hret
    obtain ⟨hpos, hdvd, hlt, hfull⟩ := hst.partial hall
    refine ⟨fun _ => ⟨freeClusters_eq_zero hfull, i, w, hfind, hst.size_eq, hpos, hdvd, hlt, ?_⟩,
      fun _ => hret⟩
    exact fun bufsize hbuf => fsReadFileInDir_of_stored hst hbuf hfind

/-- After -6 the name is partly written; after any other negative result nothing has
changed. -/
theorem write_failed {fs fs' : FS} (hinv : ChainInv fs) {name ext : CStr} {parent ret : Int}
    {data : List UInt8} (hn : name.length < fsNameMax) (hx : ext.length < fsExtMax)
    (hw : fsWriteFileInDir fs (some name) (some ext) parent data = some (ret, fs')) :
    (ret = -6 → PartlyWritten fs' (some name) (some ext) parent data) ∧
    (ret < 0 → ret ≠ -6 → fs' = fs) := by
  rcases fsWriteFileInDir_cases fs (some name) (some ext) parent data with ⟨he, -⟩ | ⟨r, hr, hcase⟩
  · cases he
  rw [hw] at hr
  obtain rfl := Option.some.inj hr
  generalize hres : (ret, fs') = r at hcase
  cases hcase with
  | refused ret' hneg =>
    cases hres
    exact ⟨fun h => absurd h (by omega), fun _ _ => rfl⟩
  | created i c nm hnm hfind hnew =>
    cases hnm
    obtain ⟨p, hp, hdir⟩ := hnew.parent
    change parent = (p : Int) at hp
    subst hp
    obtain ⟨w, l', hst, hret⟩ := writeContents_spec data (chain_addFile hnew)
    rw [← hres] at hst hret
    obtain ⟨hpart, honly⟩ := hst.failed hret (find_created hn hx hdir.1.1 hnew.lt hfind hst)
    exact ⟨hpart, fun hneg hne => absurd (honly hneg) hne⟩
  | noSpace i hfind hu hfull =>
    cases hres
    refine ⟨fun h => absurd h (by decide), fun _ _ => ?_⟩
    rw [noSpace_eq hinv hu hfull]
  | restarted i c hfind hu hc hz =>
    obtain ⟨p, rfl, hp⟩ := parent_of_find hfind
    obtain ⟨w, l', hst, hret⟩ := writeContents_spec data
      (chain_restart fs i (freeClusterChain fs.fat (fs.entries i).firstCluster) hc)
    rw [← hres] at hst hret
    obtain ⟨hpart, honly⟩ := hst.failed hret (find_restarted hp hfind hst)
    exact ⟨hpart, fun hneg hne => absurd (honly hneg) hne⟩

/-- The outcome of a write by name in any state that calls by name and index
reach. Where the name is a file's, the write succeeds exactly when its chain and
the free clusters are enough, and is partial otherwise; where nothing has the
name, exactly when there is a free slot and enough clusters are free. Any failure
that is not a partial write leaves everything as it was. -/
theorem write_outcome {disk : Mem} {ops : List Op} {fs : FS}
    (hr : Run step (fun _ op => ByName op) (fsInit disk) ops fs) {name ext : CStr}
    (hn : name.length < fsNameMax) (hx : ext.length < fsExtMax) (data : List UInt8) :
    (∀ p i : Nat, IsDirectory fs p → (fsFindInDir fs (some name) (some ext) p).1 = i →
      (fs.entries i).isDir = false →
      ∃ l fs', Chain fs.fat (fs.entries i).firstCluster l ∧
        fsWriteFileInDir fs (some name) (some ext) p data = some
          (if max 1 (clustersFor data.length) ≤ l.length + freeClusters fs.fat then 0 else -6,
            fs')) ∧
    (∀ p : Nat, IsDirectory fs p → (fsFindInDir fs (some name) (some ext) p).1 = -1 →
      ∃ ret fs', fsWriteFileInDir fs (some name) (some ext) p data = some (ret, fs') ∧
        (ret = 0 ↔ (∃ k, 0 < k ∧ k < fsMaxEntries ∧ (fs.entries k).used = false) ∧
          max 1 (clustersFor data.length) ≤ freeClusters fs.fat)) ∧
    ∀ (parent ret : Int) (fs' : FS),
      fsWriteFileInDir fs (some name) (some ext) parent data = some (ret, fs') →
      (ret = -6 → PartlyWritten fs' (some name) (some ext) parent data) ∧
      (ret < 0 → ret ≠ -6 → fs' = fs) := by
  have hinv := sizeInv_of_run hr
  refine ⟨fun p i hp hfind hfile => ?_, fun p hp hfind => write_absent_result hp hfind data,
    fun parent ret fs' hw => write_failed hinv.toChainInv hn hx hw⟩
  obtain ⟨l, hl, -⟩ := hinv.sized i ⟨used_of_find hfind, hfile⟩
  obtain ⟨fs', hres⟩ := write_found_result hp hfind hl data
  exact ⟨l, fs', hl, hres⟩

/-- After `interleaved`: 2000 bytes to the first file, which takes one cluster more, and three
bytes under a new name. -/
theorem write_outcome_interleaved : ∃ fs,
    Run step (fun _ op => ByName op) (fsInit fun _ => 0) interleaved fs ∧
    (∃ fs', fsWriteFileInDir fs (some nameA) (some nameB) fsRootIdx (List.replicate 2000 7) =
      some (0, fs')) ∧
    ∃ ret fs', fsWriteFileInDir fs (some nameB) (some nameA) fsRootIdx [1, 2, 3] =
      some (ret, fs') ∧
      (ret = 0 ↔ (∃ k, 0 < k ∧ k < fsMaxEntries ∧ (fs.entries k).used = false) ∧
        1 ≤ freeClusters fs.fat) := by
  have hexec : (exec step (fun _ _ => True) (fsInit fun _ => 0) interleaved).map (fun fs =>
      ((fsFindInDir fs (some nameA) (some nameB) fsRootIdx).1,
        (fsFindInDir fs (some nameB) (some nameA) fsRootIdx).1,
        (fs.entries fsRootIdx).used && (fs.entries fsRootIdx).isDir, fs.fat 8)) =
      some (1, -1, true, 0) := by
    decide +kernel
  obtain ⟨fs, hfs, hval⟩ := Option.map_eq_some_iff.mp hexec
  simp only [Prod.mk.injEq, Bool.and_eq_true] at hval
  obtain ⟨hfound, habsent, ⟨hu, hd⟩, hfree⟩ := hval
  obtain ⟨⟨hfile, hfirst, hchain⟩, -⟩ := interleaved_chains hfs
  have hroot : IsDirectory fs fsRootIdx := ⟨⟨by decide, hu⟩, hd⟩
  have hr : Run step (fun _ op => ByName op) (fsInit fun _ => 0) interleaved fs :=
    ((Run.of_exec hfs).restrict interleaved_nameCalls).mono fun _ _ ho => ho.2.byName
  obtain ⟨l, fs', hl, hret⟩ := (write_outcome hr (by decide) (by decide)
    (List.replicate 2000 7)).1 fsRootIdx 1 hroot hfound hfile.2
  rw [hfirst] at hl
  obtain rfl := hl.unique hchain
  have hpos := freeClusters_pos ⟨by decide, by decide⟩ hfree
  have hneed : max 1 (clustersFor (List.replicate 2000 (7 : UInt8)).length) = 4 := by
    rw [List.length_replicate]
    decide
  have hroom : 4 ≤ [2, 3, 7].length + freeClusters fs.fat := Nat.add_le_add_left hpos 3
  rw [hneed, if_pos hroom] at hret
  exact ⟨fs, hr, ⟨fs', hret⟩,
    (write_outcome hr (by decide) (by decide) [1, 2, 3]).2.1 fsRootIdx hroot habsent⟩

end KernelC.Fat16
