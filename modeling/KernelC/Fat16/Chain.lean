import Mathlib.Data.List.Perm.Subperm
import KernelC.Fat16.Basic
import KernelC.Lib.Path

/-!
# Cluster chains

What each function that follows or relinks a chain does to a well-formed one.

* `allocCluster_cases`: a free cluster, marked as an end, or a full table.
* `freeClusterChain_eq`: exactly the clusters of the chain become free.
* `fsRead_eq`: reading returns a prefix of the bytes of the chain's clusters.
* `fsWrite_spec`: writing keeps a chain from the same start. It is a prefix of
  the old chain, or the old chain followed by clusters that were free; its
  clusters hold the written part of the data, and nothing else is touched.
-/

namespace KernelC.Fat16

/-- A cluster of the data area. -/
def InTable (c : Nat) : Prop := 2 ≤ c ∧ c < fatEntries

/-- The chain from `c` is `l`: it starts at `c`, follows the table, stays in
the data area and ends in `eof`. -/
structure Chain (fat : Nat → Nat) (c : Nat) (l : List Nat) : Prop where
  nonempty : l ≠ []
  path : Path fat c l eof
  inTable : ∀ x ∈ l, InTable x

theorem not_inTable_eof : ¬ InTable eof := by
  unfold InTable
  decide

namespace Chain

variable {fat fat' : Nat → Nat} {c : Nat} {l l' : List Nat}

theorem eof_not_mem (h : Chain fat c l) : eof ∉ l :=
  fun hm => not_inTable_eof (h.inTable _ hm)

theorem nodup (h : Chain fat c l) : l.Nodup := h.path.nodup h.eof_not_mem

theorem unique (h : Chain fat c l) (h' : Chain fat c l') : l = l' :=
  h.path.unique h'.path h.eof_not_mem h'.eof_not_mem

theorem start_mem (h : Chain fat c l) : c ∈ l := by
  cases l with
  | nil => exact absurd rfl h.nonempty
  | cons x l => exact h.path.1 ▸ List.mem_cons_self

theorem start (h : Chain fat c l) : InTable c := h.inTable c h.start_mem

theorem congr (h : Chain fat c l) (hag : ∀ x ∈ l, fat' x = fat x) : Chain fat' c l :=
  ⟨h.nonempty, h.path.congr hag, h.inTable⟩

/-- Either the chain ends at its start, or the rest is the chain of the next
cluster. -/
theorem tail {x : Nat} (h : Chain fat c (x :: l)) :
    c = x ∧ InTable c ∧ ((fat c = eof ∧ l = []) ∨ (fat c ≠ eof ∧ Chain fat (fat c) l)) := by
  obtain ⟨rfl, hl⟩ := h.path
  refine ⟨rfl, h.start, ?_⟩
  have hin : ∀ y ∈ l, InTable y := fun y hy => h.inTable y (List.mem_cons_of_mem _ hy)
  cases l with
  | nil => exact .inl ⟨hl, rfl⟩
  | cons y l =>
    refine .inr ⟨fun he => ?_, List.cons_ne_nil _ _, hl, hin⟩
    have hy := hin y List.mem_cons_self
    rw [← hl.1, he] at hy
    exact not_inTable_eof hy

theorem fat_ne_zero (h : Chain fat c l) : ∀ x ∈ l, fat x ≠ 0 := by
  induction l generalizing c with
  | nil => exact absurd rfl h.nonempty
  | cons y l ih =>
    obtain ⟨rfl, -, ⟨he, rfl⟩ | ⟨-, hl⟩⟩ := h.tail
    · intro x hx
      rw [List.mem_singleton.mp hx, he]
      decide
    · intro x hx
      rcases List.mem_cons.mp hx with rfl | hx
      · have := hl.start.1
        omega
      · exact ih hl x hx

theorem length_le (h : Chain fat c l) : l.length ≤ fatEntries := by
  have hsub : l ⊆ List.range fatEntries := fun x hx => List.mem_range.mpr (h.inTable x hx).2
  simpa using (List.subperm_of_subset h.nodup hsub).length_le

end Chain

/-! ## Allocating and freeing -/

theorem allocCluster_cases (fat : Nat → Nat) :
    (∃ c, InTable c ∧ fat c = 0 ∧ allocCluster fat = (c, Function.update fat c eof)) ∨
    ((∀ x, InTable x → fat x ≠ 0) ∧ allocCluster fat = (0, fat)) := by
  unfold allocCluster
  cases hf : (List.range' 2 (fatEntries - 2)).find? fun i => fat i == 0 with
  | some c =>
    obtain ⟨hz, hm, -⟩ := List.find?_range'_eq_some.mp hf
    have hr := List.mem_range'_1.mp hm
    refine .inl ⟨c, ⟨hr.1, ?_⟩, by simpa using hz, rfl⟩
    have : 2 + (fatEntries - 2) = fatEntries := by decide
    omega
  | none =>
    refine .inr ⟨fun x hx => ?_, rfl⟩
    have hn := List.find?_eq_none.mp hf x (List.mem_range'_1.mpr ⟨hx.1, ?_⟩)
    · simpa using hn
    · have := hx.2
      have : 2 + (fatEntries - 2) = fatEntries := by decide
      omega

/-- The table with the clusters `l` free. -/
def clear (fat : Nat → Nat) (l : List Nat) : Nat → Nat := fun x => if x ∈ l then 0 else fat x

theorem clear_cons {fat : Nat → Nat} {x : Nat} {l : List Nat} :
    clear (Function.update fat x 0) l = clear fat (x :: l) := by
  funext y
  unfold clear
  by_cases hyx : y = x
  · simp [hyx]
  · simp [hyx]

theorem freeClusterLoop_eq {fat : Nat → Nat} {c : Nat} {l : List Nat} (h : Chain fat c l)
    {fuel : Nat} (hfuel : l.length ≤ fuel) : freeClusterLoop fuel fat c = clear fat l := by
  induction l generalizing fat c fuel with
  | nil => exact absurd rfl h.nonempty
  | cons x l ih =>
    have hnd := h.nodup
    have hne := h.fat_ne_zero
    obtain ⟨rfl, hc, hrest⟩ := h.tail
    obtain ⟨fuel, rfl⟩ : ∃ k, fuel = k + 1 := ⟨fuel - 1, by simp at hfuel; omega⟩
    have hgo : c ≠ 0 ∧ c < fatEntries ∧ fat c ≠ 0 :=
      ⟨by have := hc.1; omega, hc.2, hne c List.mem_cons_self⟩
    rw [freeClusterLoop, if_pos hgo]
    rcases hrest with ⟨he, rfl⟩ | ⟨he, hl⟩
    · rw [if_pos he, ← clear_cons]
      funext y
      simp [clear]
    · have hcl : c ∉ l := (List.nodup_cons.mp hnd).1
      have hl' : Chain (Function.update fat c 0) (fat c) l :=
        ⟨hl.nonempty, hl.path.update hcl, hl.inTable⟩
      rw [if_neg he, ih hl' (by simpa using hfuel), clear_cons]

/-- `free_cluster_chain` on a well-formed chain frees exactly that chain. -/
theorem freeClusterChain_eq {fat : Nat → Nat} {c : Nat} {l : List Nat} (h : Chain fat c l) :
    freeClusterChain fat c = clear fat l := by
  have hc := h.start
  unfold freeClusterChain
  rw [if_neg (by have := hc.1; have := hc.2; omega), freeClusterLoop_eq h h.length_le]

/-- `free_cluster_chain(0)` does nothing. -/
theorem freeClusterChain_zero (fat : Nat → Nat) : freeClusterChain fat 0 = fat := by
  unfold freeClusterChain
  rw [if_pos (.inl (by decide))]

/-! ## Reading -/

def clusterBytes (disk : Mem) (c : Nat) : List UInt8 := load disk (getCluster c) clusterSize

/-- The bytes of the clusters `l`, one after the other. -/
def content (disk : Mem) (l : List Nat) : List UInt8 := l.flatMap (clusterBytes disk)

@[simp] theorem content_cons (disk : Mem) (c : Nat) (l : List Nat) :
    content disk (c :: l) = clusterBytes disk c ++ content disk l := rfl

@[simp] theorem clusterBytes_length (disk : Mem) (c : Nat) :
    (clusterBytes disk c).length = clusterSize := load_length _ _ _

/-- Different clusters occupy disjoint ranges of the ramdisk. -/
theorem getCluster_disjoint {c d : Nat} (h : c ≠ d) :
    getCluster c + clusterSize ≤ getCluster d ∨ getCluster d + clusterSize ≤ getCluster c := by
  simp only [getCluster, clusterSize, reservedSectors, numFats, sectorsPerFat, bytesPerSector,
    sectorsPerCluster]
  omega

theorem fsReadLoop_eq {fat : Nat → Nat} {disk : Mem} {size c : Nat} {l : List Nat}
    (h : Chain fat c l) {fuel read : Nat} (hfuel : size - read ≤ fuel) :
    fsReadLoop fat disk size fuel c read = (content disk l).take (size - read) := by
  induction l generalizing c fuel read with
  | nil => exact absurd rfl h.nonempty
  | cons x l ih =>
    obtain ⟨rfl, hc, hrest⟩ := h.tail
    cases fuel with
    | zero =>
      rw [fsReadLoop, show size - read = 0 by omega, List.take_zero]
    | succ fuel =>
      by_cases hlt : read < size
      · have hgo : c ≠ 0 ∧ c < fatEntries ∧ read < size :=
          ⟨by have := hc.1; omega, hc.2, hlt⟩
        have hbytes : load disk (getCluster c) (min (size - read) clusterSize) =
            (clusterBytes disk c).take (size - read) := (load_take _ _ _ _).symm
        rw [fsReadLoop, if_pos hgo]
        simp only [hbytes]
        rcases hrest with ⟨he, rfl⟩ | ⟨he, hl⟩
        · rw [if_pos he, content_cons]
          simp [content]
        · have hrem : size - (read + min (size - read) clusterSize) =
              size - read - clusterSize := by omega
          have hpos : 0 < min (size - read) clusterSize := by
            have : 0 < clusterSize := by decide
            omega
          rw [if_neg he, ih hl (by omega), hrem, content_cons, List.take_append,
            clusterBytes_length]
      · rw [fsReadLoop, if_neg (by omega), show size - read = 0 by omega, List.take_zero]

/-- `fs_read` returns the first `size` bytes of the chain, or all of them. -/
theorem fsRead_eq {fs : FS} {c : Nat} {l : List Nat} (h : Chain fs.fat c l) (size : Nat) :
    fsRead fs c size = (content fs.disk l).take size := by
  have hc := h.start
  unfold fsRead
  rw [if_neg (by have := hc.1; have := hc.2; omega), fsReadLoop_eq h (by omega), Nat.sub_zero]

theorem content_congr {disk disk' : Mem} {l : List Nat}
    (h : ∀ c ∈ l, clusterBytes disk' c = clusterBytes disk c) :
    content disk' l = content disk l := by
  induction l with
  | nil => simp only [content, List.flatMap_nil]
  | cons c l ih =>
    rw [content_cons, content_cons, h c List.mem_cons_self,
      ih fun d hd => h d (List.mem_cons_of_mem _ hd)]

/-! ## Writing -/

theorem clusterSize_eq : clusterSize = 512 := rfl

/-- The number of clusters that hold `n` bytes. -/
def clustersFor (n : Nat) : Nat := (n + clusterSize - 1) / clusterSize

/-- What holds of the chain `l'` that the write loop, started at cluster `cur`
of the tables `fat` and `disk` with `written` bytes behind it, leaves. -/
structure Wrote (data : List UInt8) (disk : Mem) (cur written : Nat)
    (r : Nat × (Nat → Nat) × Mem) (l' : List Nat) : Prop where
  chain : Chain r.2.1 cur l'
  frame : ∀ c, c ∉ l' → clusterBytes r.2.2 c = clusterBytes disk c
  count : r.1 = written + min (data.length - written) (clusterSize * l'.length)
  bytes : (content r.2.2 l').take (r.1 - written) = (data.drop written).take (r.1 - written)
  full : r.1 < data.length → ∀ x, InTable x → r.2.1 x ≠ 0
  length : l'.length = clustersFor (r.1 - written)

theorem clusterBytes_store_ne {disk : Mem} {c d : Nat} {bs : List UInt8}
    (hcd : c ≠ d) (hlen : bs.length ≤ clusterSize) :
    clusterBytes (store disk (getCluster c) bs) d = clusterBytes disk d := by
  have hdis := getCluster_disjoint hcd
  unfold clusterBytes
  exact load_store_of_disjoint (by omega)

/-- A chain of one cluster that has just received its part of the data. -/
theorem Wrote.last {data : List UInt8} {cur written : Nat} (disk : Mem) (fat : Nat → Nat)
    (hcur : InTable cur) (he : fat cur = eof) (hlt : written < data.length)
    (hfull : written + clusterSize < data.length → ∀ x, InTable x → fat x ≠ 0) :
    Wrote data disk cur written
      (written + min (data.length - written) clusterSize, fat,
        store disk (getCluster cur)
          ((data.drop written).take (min (data.length - written) clusterSize))) [cur] := by
  have hlen : ((data.drop written).take (min (data.length - written) clusterSize)).length =
      min (data.length - written) clusterSize := by
    rw [List.length_take, List.length_drop]
    omega
  constructor
  · refine ⟨List.cons_ne_nil _ _, ⟨rfl, he⟩, fun x hx => ?_⟩
    rw [List.mem_singleton.mp hx]
    exact hcur
  · intro c hc
    have hne : cur ≠ c := fun h => hc (h ▸ List.mem_singleton_self cur)
    rw [clusterBytes_store_ne hne (by omega)]
  · simp only [List.length_singleton, Nat.mul_one]
  · have hpre := load_store_prefix (m := disk) (a := getCluster cur) (n := clusterSize)
      (by rw [hlen]; exact Nat.min_le_right _ _)
    rw [hlen] at hpre
    simp only [Nat.add_sub_cancel_left, content_cons]
    simpa only [content, clusterBytes, List.flatMap_nil, List.append_nil] using hpre
  · intro h
    exact hfull (by simp only at h; omega)
  · simp only [Nat.add_sub_cancel_left, List.length_singleton, clustersFor, clusterSize_eq]
    omega

/-- A full cluster in front of a chain that holds the rest of the data. -/
theorem Wrote.cons {data : List UInt8} {disk : Mem} {cur written nxt : Nat}
    {r : Nat × (Nat → Nat) × Mem} {l : List Nat} (hcur : InTable cur) (hcl : cur ∉ l)
    (hlt : written + clusterSize < data.length) (hnxt : r.2.1 cur = nxt)
    (h : Wrote data (store disk (getCluster cur) ((data.drop written).take clusterSize)) nxt
      (written + clusterSize) r l) : Wrote data disk cur written r (cur :: l) := by
  have hlen : ((data.drop written).take clusterSize).length = clusterSize := by
    rw [List.length_take, List.length_drop]
    omega
  have hcount := h.count
  have hhead : clusterBytes r.2.2 cur = (data.drop written).take clusterSize := by
    have hsame := load_store_same disk (getCluster cur) ((data.drop written).take clusterSize)
    rw [hlen] at hsame
    rw [h.frame cur hcl, clusterBytes, hsame]
  constructor
  · refine ⟨List.cons_ne_nil _ _, ⟨rfl, hnxt ▸ h.chain.path⟩, fun x hx => ?_⟩
    rcases List.mem_cons.mp hx with rfl | hx
    · exact hcur
    · exact h.chain.inTable x hx
  · intro c hc
    rw [List.mem_cons, not_or] at hc
    rw [h.frame c hc.2, clusterBytes_store_ne (Ne.symm hc.1) (by omega)]
  · rw [hcount, List.length_cons, Nat.mul_add_one]
    omega
  · have hsplit : r.1 - written = clusterSize + (r.1 - (written + clusterSize)) := by omega
    calc (content r.2.2 (cur :: l)).take (r.1 - written)
        = (data.drop written).take clusterSize ++
            (content r.2.2 l).take (r.1 - (written + clusterSize)) := by
          rw [content_cons, hhead, List.take_append, hlen, List.take_of_length_le (by omega),
            hsplit, Nat.add_sub_cancel_left]
      _ = (data.drop written).take clusterSize ++
            (data.drop (written + clusterSize)).take (r.1 - (written + clusterSize)) := by
          rw [h.bytes]
      _ = (data.drop written).take (r.1 - written) := by
          rw [hsplit, List.take_add, List.drop_drop]
  · exact h.full
  · have hl := h.length
    simp only [clustersFor, clusterSize_eq] at hl hcount ⊢
    rw [List.length_cons, hl]
    omega

/-- How the chain `l'` that a write leaves arises from the chain `l` before it:
cut where the data ends, or kept and extended by clusters that were free. -/
def Relinked (fat : Nat → Nat) (n : Nat) (l l' : List Nat) : Prop :=
  (l' <+: l ∧ l'.length = clustersFor n) ∨ ∃ fr, l' = l ++ fr ∧ ∀ x ∈ fr, fat x = 0

theorem Relinked.mem {fat : Nat → Nat} {n : Nat} {l l' : List Nat} (h : Relinked fat n l l')
    {x : Nat} (hx : x ∈ l') : x ∈ l ∨ fat x = 0 := by
  rcases h with ⟨hpre, -⟩ | ⟨fr, rfl, hfr⟩
  · exact .inl (hpre.subset hx)
  · rcases List.mem_append.mp hx with hx | hx
    · exact .inl hx
    · exact .inr (hfr x hx)

/-- A chain that goes on with the fresh cluster `nc` has only fresh clusters. -/
theorem Relinked.fresh {fat : Nat → Nat} {n cur nc : Nat} {l : List Nat} (hne : cur ≠ nc)
    (hnc : nc ≠ 0) (hfree : fat nc = 0)
    (h : Relinked (Function.update (Function.update fat nc eof) cur nc) n [nc] l) :
    ∀ x ∈ l, x ≠ cur ∧ fat x = 0 := by
  intro x hx
  rcases h.mem hx with hx | hx
  · rw [List.mem_singleton.mp hx]
    exact ⟨Ne.symm hne, hfree⟩
  · by_cases hxc : x = cur
    · rw [hxc, Function.update_self] at hx
      exact absurd hx hnc
    · rw [Function.update_of_ne hxc] at hx
      by_cases hxn : x = nc
      · rw [hxn]
        exact ⟨Ne.symm hne, hfree⟩
      · rw [Function.update_of_ne hxn] at hx
        exact ⟨hxc, hx⟩

/-- One more full cluster in front. -/
theorem Relinked.cons {fat : Nat → Nat} {n : Nat} {l l' : List Nat} (h : Relinked fat n l l')
    (c : Nat) : Relinked fat (n + clusterSize) (c :: l) (c :: l') := by
  rcases h with ⟨hpre, hlen⟩ | ⟨fr, rfl, hfr⟩
  · refine .inl ⟨List.cons_prefix_cons.mpr ⟨rfl, hpre⟩, ?_⟩
    rw [List.length_cons, hlen]
    simp only [clustersFor, clusterSize_eq]
    omega
  · exact .inr ⟨fr, rfl, hfr⟩

/-! The four ways in which a round of the write loop goes on, each with what holds of the chain,
of the table outside of it and of the chain before. -/

section Round

variable {data : List UInt8} {disk : Mem} {fat : Nat → Nat} {cur written nc : Nat}
  {r : Nat × (Nat → Nat) × Mem} {l' t : List Nat}

/-- The data ends in this cluster. -/
theorem Wrote.ends (disk : Mem) (fat : Nat → Nat) (t : List Nat) (hcur : InTable cur)
    (hlt : written < data.length)
    (hend : ¬ written + min (data.length - written) clusterSize < data.length) :
    Wrote data disk cur written
      (written + min (data.length - written) clusterSize, Function.update fat cur eof,
        store disk (getCluster cur)
          ((data.drop written).take (min (data.length - written) clusterSize))) [cur] ∧
    (∀ x, x ∉ [cur] → Function.update fat cur eof x = fat x) ∧
    Relinked fat (data.length - written) (cur :: t) [cur] := by
  refine ⟨Wrote.last disk (Function.update fat cur eof) hcur (Function.update_self _ _ _) hlt
    (fun hc => by omega), fun x hx => ?_,
    .inl ⟨List.cons_prefix_cons.mpr ⟨rfl, List.nil_prefix⟩, ?_⟩⟩
  · exact Function.update_of_ne (fun hc => hx (List.mem_singleton.mpr hc)) _ _
  · simp only [List.length_singleton, clustersFor, clusterSize_eq] at hend ⊢
    omega

/-- The chain ends here, and the table is full. -/
theorem Wrote.stuck (disk : Mem) (hcur : InTable cur) (he : fat cur = eof)
    (hlt : written < data.length) (hfull : ∀ x, InTable x → fat x ≠ 0) :
    Wrote data disk cur written
      (written + min (data.length - written) clusterSize, Function.update fat cur eof,
        store disk (getCluster cur)
          ((data.drop written).take (min (data.length - written) clusterSize))) [cur] ∧
    (∀ x, x ∉ [cur] → Function.update fat cur eof x = fat x) ∧
    Relinked fat (data.length - written) [cur] [cur] := by
  have hsame : Function.update fat cur eof = fat := by rw [← he, Function.update_eq_self]
  rw [hsame]
  exact ⟨Wrote.last disk fat hcur he hlt fun _ => hfull, fun x _ => rfl, .inr ⟨[], rfl, by simp⟩⟩

/-- The chain ends here, and the rest of the data goes to the free cluster `nc` and on. -/
theorem Wrote.grows (hcur : InTable cur) (hne : cur ≠ nc) (hnc : nc ≠ 0) (hfree : fat nc = 0)
    (hmore : written + clusterSize < data.length)
    (hw : Wrote data (store disk (getCluster cur) ((data.drop written).take clusterSize)) nc
      (written + clusterSize) r l')
    (hfr : ∀ x, x ∉ l' → r.2.1 x = Function.update (Function.update fat nc eof) cur nc x)
    (hre : Relinked (Function.update (Function.update fat nc eof) cur nc)
      (data.length - (written + clusterSize)) [nc] l') :
    Wrote data disk cur written r (cur :: l') ∧ (∀ x, x ∉ cur :: l' → r.2.1 x = fat x) ∧
      Relinked fat (data.length - written) [cur] (cur :: l') := by
  have hfresh := hre.fresh hne hnc hfree
  have hcl : cur ∉ l' := fun hc => (hfresh cur hc).1 rfl
  refine ⟨hw.cons hcur hcl hmore ?_, fun x hx => ?_, .inr ⟨l', rfl, fun x hx => (hfresh x hx).2⟩⟩
  · rw [hfr cur hcl, Function.update_self]
  · rw [List.mem_cons, not_or] at hx
    have hxn : x ≠ nc := fun hc => hx.2 (hc ▸ hw.chain.start_mem)
    rw [hfr x hx.2, Function.update_of_ne hx.1, Function.update_of_ne hxn]

/-- The chain goes on. -/
theorem Wrote.follows (h : Chain fat cur (cur :: t)) (hcur : InTable cur)
    (hmore : written + clusterSize < data.length)
    (hw : Wrote data (store disk (getCluster cur) ((data.drop written).take clusterSize)) (fat cur)
      (written + clusterSize) r l')
    (hfr : ∀ x, x ∉ l' → r.2.1 x = fat x)
    (hre : Relinked fat (data.length - (written + clusterSize)) t l') :
    Wrote data disk cur written r (cur :: l') ∧ (∀ x, x ∉ cur :: l' → r.2.1 x = fat x) ∧
      Relinked fat (data.length - written) (cur :: t) (cur :: l') := by
  have hcl : cur ∉ l' := by
    intro hc
    rcases hre.mem hc with hc | hc
    · exact (List.nodup_cons.mp h.nodup).1 hc
    · exact h.fat_ne_zero cur List.mem_cons_self hc
  have hrem : data.length - written = data.length - (written + clusterSize) + clusterSize := by
    omega
  refine ⟨hw.cons hcur hcl hmore (hfr cur hcl), fun x hx => ?_, ?_⟩
  · exact hfr x fun hm => hx (List.mem_cons_of_mem _ hm)
  · rw [hrem]
    exact hre.cons cur

end Round

theorem chain_fresh {fat : Nat → Nat} {cur nc : Nat} (hne : cur ≠ nc) (hnc : InTable nc) :
    Chain (Function.update (Function.update fat nc eof) cur nc) nc [nc] := by
  refine ⟨List.cons_ne_nil _ _, ⟨rfl, ?_⟩, fun x hx => ?_⟩
  · simp [Function.update_of_ne (Ne.symm hne)]
  · rw [List.mem_singleton.mp hx]
    exact hnc

theorem fsWriteLoop_spec {data : List UInt8} {fuel cur written : Nat} {fat : Nat → Nat}
    {l : List Nat} (disk : Mem) (h : Chain fat cur l) (hlt : written < data.length)
    (hfuel : data.length - written ≤ fuel) :
    ∃ l', Wrote data disk cur written (fsWriteLoop data fuel fat disk cur written) l' ∧
      (∀ x, x ∉ l' → (fsWriteLoop data fuel fat disk cur written).2.1 x = fat x) ∧
      Relinked fat (data.length - written) l l' := by
  induction fuel generalizing fat disk cur written l with
  | zero => omega
  | succ fuel ih =>
    cases l with
    | nil => exact absurd rfl h.nonempty
    | cons x t =>
    obtain ⟨rfl, hcur, hrest⟩ := h.tail
    rw [fsWriteLoop, if_pos hlt]
    by_cases hmore : written + min (data.length - written) clusterSize < data.length
    · have hmin : min (data.length - written) clusterSize = clusterSize := by omega
      have hpos : 0 < clusterSize := by decide
      rw [hmin] at hmore
      simp only [hmin, if_pos hmore]
      rcases hrest with ⟨he, rfl⟩ | ⟨he, ht⟩
      · rw [if_pos he]
        rcases allocCluster_cases fat with ⟨nc, hnc, hfree, ha⟩ | ⟨hfull, ha⟩
        · have hne : cur ≠ nc := fun hc => by
            rw [hc, hfree] at he
            exact absurd he (by decide)
          have hnc0 : nc ≠ 0 := by have := hnc.1; omega
          simp only [ha, if_neg hnc0]
          obtain ⟨l', hw, hfr, hre⟩ := ih (store disk (getCluster cur)
            ((data.drop written).take clusterSize)) (chain_fresh hne hnc) hmore (by omega)
          exact ⟨cur :: l', Wrote.grows hcur hne hnc0 hfree hmore hw hfr hre⟩
        · have hstuck := Wrote.stuck disk hcur he hlt hfull
          rw [hmin] at hstuck
          simp only [ha, if_pos]
          exact ⟨[cur], hstuck⟩
      · rw [if_neg he]
        obtain ⟨l', hw, hfr, hre⟩ := ih (store disk (getCluster cur)
          ((data.drop written).take clusterSize)) ht hmore (by omega)
        exact ⟨cur :: l', Wrote.follows h hcur hmore hw hfr hre⟩
    · simp only [if_neg hmore]
      exact ⟨[cur], Wrote.ends disk fat t hcur hlt hmore⟩

theorem fsWrite_entries (fs : FS) (c : Nat) (data : List UInt8) :
    (fsWrite fs c data).2.entries = fs.entries := by
  unfold fsWrite
  split <;> rfl

theorem fsWrite_zero (fs : FS) (data : List UInt8) : fsWrite fs 0 data = (0, fs) := by
  unfold fsWrite
  rw [if_pos (by omega)]

theorem fsWrite_nil (fs : FS) (c : Nat) : fsWrite fs c [] = (0, fs) := by
  unfold fsWrite
  split <;> rfl

/-- `fs_write` on a well-formed chain. -/
theorem fsWrite_spec {fs : FS} {c : Nat} {l : List Nat} (data : List UInt8)
    (h : Chain fs.fat c l) (hdata : 0 < data.length) :
    ∃ l', Wrote data fs.disk c 0 ((fsWrite fs c data).1, (fsWrite fs c data).2.fat,
        (fsWrite fs c data).2.disk) l' ∧
      (∀ x, x ∉ l' → (fsWrite fs c data).2.fat x = fs.fat x) ∧
      Relinked fs.fat data.length l l' := by
  have hc := h.start
  have heq : fsWrite fs c data =
      ((fsWriteLoop data data.length fs.fat fs.disk c 0).1,
        { fs with
          fat := (fsWriteLoop data data.length fs.fat fs.disk c 0).2.1
          disk := (fsWriteLoop data data.length fs.fat fs.disk c 0).2.2 }) := by
    unfold fsWrite
    rw [if_neg (by have := hc.1; have := hc.2; omega)]
  rw [heq]
  exact fsWriteLoop_spec fs.disk h hdata (Nat.le_refl _)

end KernelC.Fat16
