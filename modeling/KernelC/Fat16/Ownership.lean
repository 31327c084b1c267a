import KernelC.Fat16.Calls

/-!
# Every chain has one owner

The clusters of an entry's chain are not touched by a call with another
target. A cluster is `Mine` for entry `i` when it is free or in the chain of
`i`; every call touches only clusters that are `Mine` for its target, and that
is all the invariant needs. Clusters that no entry points to (they exist, see
`Fat16.Leaks`) are not free and are in nobody's chain, so no call touches them.

* `ChainInv`: the entries in use have well-formed, pairwise disjoint chains.
* `Frame fs fs' i`: between `fs` and `fs'` nothing of another entry changed.
* `step_confined`: every call keeps `ChainInv` and gives a `Frame` for its target.
* `chains_safe`, `file_isolation`: the results over whole runs.
-/

namespace KernelC.Fat16

/-- The chains of the entries in use are well formed and disjoint. -/
structure ChainInv (fs : FS) : Prop where
  chain : ∀ i, Used fs i → (fs.entries i).firstCluster ≠ 0 →
    ∃ l, Chain fs.fat (fs.entries i).firstCluster l
  disjoint : ∀ i j, Used fs i → Used fs j → i ≠ j → ∀ l l',
    Chain fs.fat (fs.entries i).firstCluster l → Chain fs.fat (fs.entries j).firstCluster l' →
    l.Disjoint l'

/-- Cluster `x` is free or in the chain of entry `i`. -/
def Mine (fs : FS) (i x : Nat) : Prop :=
  fs.fat x = 0 ∨ ∃ l, Used fs i ∧ Chain fs.fat (fs.entries i).firstCluster l ∧ x ∈ l

/-- Nothing that belongs to an entry in use other than `i` differs. -/
structure Frame (fs fs' : FS) (i : Nat) : Prop where
  entries : ∀ j, j ≠ i → fs'.entries j = fs.entries j
  fat : ∀ j l, j ≠ i → Used fs j → Chain fs.fat (fs.entries j).firstCluster l →
    ∀ x ∈ l, fs'.fat x = fs.fat x
  disk : ∀ j l, j ≠ i → Used fs j → Chain fs.fat (fs.entries j).firstCluster l →
    ∀ x ∈ l, clusterBytes fs'.disk x = clusterBytes fs.disk x

section

variable {fs fs' fs'' : FS} {i j : Nat}

theorem used_of_entries_eq (h : fs'.entries j = fs.entries j) : Used fs' j ↔ Used fs j := by
  unfold Used
  rw [h]

theorem Frame.refl (fs : FS) (i : Nat) : Frame fs fs i :=
  ⟨fun _ _ => rfl, fun _ _ _ _ _ _ _ => rfl, fun _ _ _ _ _ _ _ => rfl⟩

/-- Another entry has the same chain afterwards. -/
theorem Frame.chain (h : Frame fs fs' i) (hj : j ≠ i) (hu : Used fs j) {l : List Nat}
    (hl : Chain fs.fat (fs.entries j).firstCluster l) :
    Chain fs'.fat (fs'.entries j).firstCluster l := by
  rw [h.entries j hj]
  exact hl.congr (h.fat j l hj hu hl)

theorem Frame.trans (h : Frame fs fs' i) (h' : Frame fs' fs'' i) : Frame fs fs'' i := by
  have hu' : ∀ j, j ≠ i → Used fs j → Used fs' j := fun j hj hu =>
    (used_of_entries_eq (h.entries j hj)).mpr hu
  refine ⟨fun j hj => (h'.entries j hj).trans (h.entries j hj), ?_, ?_⟩
  · intro j l hj hu hl x hx
    rw [h'.fat j l hj (hu' j hj hu) (h.chain hj hu hl) x hx, h.fat j l hj hu hl x hx]
  · intro j l hj hu hl x hx
    rw [h'.disk j l hj (hu' j hj hu) (h.chain hj hu hl) x hx, h.disk j l hj hu hl x hx]

/-- What is `Mine` for `i` is in no other entry's chain. -/
theorem Mine.not_mem (hinv : ChainInv fs) {x : Nat} (hx : Mine fs i x) (hj : j ≠ i)
    (hu : Used fs j) {l : List Nat} (hl : Chain fs.fat (fs.entries j).firstCluster l) : x ∉ l := by
  intro hxl
  rcases hx with hz | ⟨l', hui, hl', hx'⟩
  · exact hl.fat_ne_zero x hxl hz
  · exact hinv.disjoint j i hu hui hj l l' hl hl' hxl hx'

/-- A change confined to entry `i` and clusters that are `Mine` for it. -/
theorem frame_of_touched (hinv : ChainInv fs) (touched : List Nat)
    (hent : ∀ j, j ≠ i → fs'.entries j = fs.entries j)
    (hfat : ∀ x, x ∉ touched → fs'.fat x = fs.fat x)
    (hdisk : ∀ x, x ∉ touched → clusterBytes fs'.disk x = clusterBytes fs.disk x)
    (hmine : ∀ x ∈ touched, Mine fs i x) : Frame fs fs' i := by
  refine ⟨hent, ?_, ?_⟩
  · intro j l hj hu hl x hx
    exact hfat x fun ht => Mine.not_mem hinv (hmine x ht) hj hu hl hx
  · intro j l hj hu hl x hx
    exact hdisk x fun ht => Mine.not_mem hinv (hmine x ht) hj hu hl hx

/-- The invariant after a framed change: only the target's own chain is left to
check. -/
theorem ChainInv.of_frame (hinv : ChainInv fs) (hfr : Frame fs fs' i)
    (hself : Used fs' i → (fs'.entries i).firstCluster ≠ 0 →
      ∃ l, Chain fs'.fat (fs'.entries i).firstCluster l ∧ ∀ x ∈ l, Mine fs i x) :
    ChainInv fs' := by
  have hu : ∀ j, j ≠ i → (Used fs' j ↔ Used fs j) := fun j hj =>
    used_of_entries_eq (hfr.entries j hj)
  have hne : ∀ {k : Nat} {l : List Nat}, Chain fs'.fat (fs'.entries k).firstCluster l →
      (fs'.entries k).firstCluster ≠ 0 := by
    intro k l hl h0
    have hst := hl.start.1
    omega
  -- the chain of another entry, read back in the state before the change
  have hback : ∀ j l, j ≠ i → Used fs j → Chain fs'.fat (fs'.entries j).firstCluster l →
      Chain fs.fat (fs.entries j).firstCluster l := by
    intro j l hj huj hl
    have hjne : (fs.entries j).firstCluster ≠ 0 := by
      rw [← hfr.entries j hj]
      exact hne hl
    obtain ⟨l₀, hl₀⟩ := hinv.chain j huj hjne
    rw [hl.unique (hfr.chain hj huj hl₀)]
    exact hl₀
  have hsep : ∀ j l l', j ≠ i → Used fs j → Used fs' i →
      Chain fs'.fat (fs'.entries j).firstCluster l →
      Chain fs'.fat (fs'.entries i).firstCluster l' → ∀ x, x ∈ l → x ∉ l' := by
    intro j l l' hj huj hui hl hl' x hx hx'
    obtain ⟨l₀, hl₀, hmine⟩ := hself hui (hne hl')
    rw [hl'.unique hl₀] at hx'
    exact Mine.not_mem hinv (hmine x hx') hj huj (hback j l hj huj hl) hx
  refine ⟨?_, ?_⟩
  · intro j huj hjne
    by_cases hj : j = i
    · subst hj
      obtain ⟨l, hl, -⟩ := hself huj hjne
      exact ⟨l, hl⟩
    · have huj' := (hu j hj).mp huj
      obtain ⟨l, hl⟩ := hinv.chain j huj' (by rw [← hfr.entries j hj]; exact hjne)
      exact ⟨l, hfr.chain hj huj' hl⟩
  · intro j k huj huk hjk l l' hl hl'
    by_cases hj : j = i
    · subst hj
      have hk : k ≠ j := Ne.symm hjk
      exact fun x hx hx' => hsep k l' l hk ((hu k hk).mp huk) huj hl' hl x hx' hx
    · by_cases hk : k = i
      · subst hk
        exact fun x hx hx' => hsep j l l' hj ((hu j hj).mp huj) huk hl hl' x hx hx'
      · have huj' := (hu j hj).mp huj
        have huk' := (hu k hk).mp huk
        exact hinv.disjoint j k huj' huk' hjk l l' (hback j l hj huj' hl) (hback k l' hk huk' hl')

end

/-! ## The calls -/

/-- A call with target `i` keeps the invariant and leaves other entries alone. -/
structure Confined (fs fs' : FS) (i : Nat) : Prop where
  frame : Frame fs fs' i
  inv : ChainInv fs'

theorem Confined.refl {fs : FS} (h : ChainInv fs) (i : Nat) : Confined fs fs i :=
  ⟨Frame.refl fs i, h⟩

theorem Confined.trans {fs fs' fs'' : FS} {i : Nat} (h : Confined fs fs' i)
    (h' : Confined fs' fs'' i) : Confined fs fs'' i :=
  ⟨Frame.trans h.frame h'.frame, h'.inv⟩

/-- A record without a chain in slot `i`. -/
theorem confined_putEntry {fs : FS} (hinv : ChainInv fs) {i : Nat} {e : Entry}
    (he : e.used = false ∨ e.firstCluster = 0) :
    Confined fs { fs with entries := Function.update fs.entries i e } i := by
  have hfr : Frame fs { fs with entries := Function.update fs.entries i e } i :=
    frame_of_touched hinv [] (fun j hj => Function.update_of_ne hj _ _) (fun _ _ => rfl)
      (fun _ _ => rfl) (fun x hx => absurd hx List.not_mem_nil)
  refine ⟨hfr, ChainInv.of_frame hinv hfr fun hu hne => ?_⟩
  simp only [Used, Function.update_self] at hu hne
  rcases he with he | he
  · rw [he] at hu
    exact absurd hu.2 Bool.false_ne_true
  · exact absurd he hne

theorem confined_addFile {fs : FS} (hinv : ChainInv fs) {i c : Nat} {e : Entry}
    (h : NewFile fs i c e) : Confined fs (addFile fs i c e) i := by
  have hmine : ∀ x ∈ [c], Mine fs i x := fun x hx => by
    rw [List.mem_singleton.mp hx]
    exact .inl h.freeCluster
  have hfr : Frame fs (addFile fs i c e) i :=
    frame_of_touched hinv [c] (fun j hj => Function.update_of_ne hj _ _)
      (fun x hx => Function.update_of_ne (fun hc => hx (List.mem_singleton.mpr hc)) _ _)
      (fun _ _ => rfl) hmine
  refine ⟨hfr, ChainInv.of_frame hinv hfr fun _ _ => ⟨[c], ?_, hmine⟩⟩
  simp only [addFile, Function.update_self, h.first]
  refine ⟨List.cons_ne_nil _ _, ⟨rfl, Function.update_self _ _ _⟩, fun x hx => ?_⟩
  rw [List.mem_singleton.mp hx]
  exact h.inTable

/-- Freeing the chain of an entry in use: the clusters freed, and what they were. -/
theorem freeChain_touches {fs : FS} (hinv : ChainInv fs) {i : Nat} (hu : Used fs i) :
    ∃ l, (∀ x, freeClusterChain fs.fat (fs.entries i).firstCluster x =
        if x ∈ l then 0 else fs.fat x) ∧
      (∀ x ∈ l, Mine fs i x ∧ InTable x) ∧
      ((fs.entries i).firstCluster ≠ 0 → Chain fs.fat (fs.entries i).firstCluster l) ∧
      ((fs.entries i).firstCluster = 0 → l = []) := by
  by_cases h0 : (fs.entries i).firstCluster = 0
  · refine ⟨[], fun x => ?_, fun x hx => absurd hx List.not_mem_nil, fun h => absurd h0 h,
      fun _ => rfl⟩
    rw [h0, freeClusterChain_zero, if_neg List.not_mem_nil]
  · obtain ⟨l, hl⟩ := hinv.chain i hu h0
    refine ⟨l, fun x => ?_, fun x hx => ⟨.inr ⟨l, hu, hl, hx⟩, hl.inTable x hx⟩, fun _ => hl,
      fun h => absurd h h0⟩
    rw [freeClusterChain_eq hl]
    rfl

theorem confined_removeFile {fs : FS} (hinv : ChainInv fs) {i : Nat} (hu : Used fs i) :
    Confined fs
      (clearUsed { fs with fat := freeClusterChain fs.fat (fs.entries i).firstCluster } i) i := by
  obtain ⟨l, hfree, hmine, -, -⟩ := freeChain_touches hinv hu
  have hfr : Frame fs
      (clearUsed { fs with fat := freeClusterChain fs.fat (fs.entries i).firstCluster } i) i :=
    frame_of_touched hinv l (fun j hj => Function.update_of_ne hj _ _)
      (fun x hx => (hfree x).trans (if_neg hx)) (fun _ _ => rfl) (fun x hx => (hmine x hx).1)
  refine ⟨hfr, ChainInv.of_frame hinv hfr fun hu' _ => ?_⟩
  simp only [Used, clearUsed, Function.update_self] at hu'
  exact absurd hu'.2 Bool.false_ne_true

/-- A cluster that is free once the chain of `i` is freed. -/
theorem mine_of_freed {fs : FS} (hinv : ChainInv fs) {i c : Nat} (hu : Used fs i)
    (hz : freeClusterChain fs.fat (fs.entries i).firstCluster c = 0) : Mine fs i c := by
  obtain ⟨l, hfree, hmine, -, -⟩ := freeChain_touches hinv hu
  by_cases hc : c ∈ l
  · exact (hmine c hc).1
  · rw [hfree c, if_neg hc] at hz
    exact .inl hz

theorem confined_restart {fs : FS} (hinv : ChainInv fs) {i c : Nat} (hu : Used fs i)
    (hc : InTable c) (hz : freeClusterChain fs.fat (fs.entries i).firstCluster c = 0) :
    Confined fs (restart fs i c (freeClusterChain fs.fat (fs.entries i).firstCluster)) i := by
  obtain ⟨l, hfree, hmine, -, -⟩ := freeChain_touches hinv hu
  have hcm := mine_of_freed hinv hu hz
  have hfr : Frame fs (restart fs i c (freeClusterChain fs.fat (fs.entries i).firstCluster)) i := by
    refine frame_of_touched hinv (c :: l) (fun j hj => Function.update_of_ne hj _ _) ?_
      (fun _ _ => rfl) ?_
    · intro x hx
      rw [List.mem_cons, not_or] at hx
      simp only [restart, Function.update_of_ne hx.1, hfree x, if_neg hx.2]
    · intro x hx
      rcases List.mem_cons.mp hx with rfl | hx
      · exact hcm
      · exact (hmine x hx).1
  refine ⟨hfr, ChainInv.of_frame hinv hfr fun _ _ => ⟨[c], ?_, ?_⟩⟩
  · simp only [restart, Function.update_self]
    refine ⟨List.cons_ne_nil _ _, ⟨rfl, Function.update_self _ _ _⟩, fun x hx => ?_⟩
    rw [List.mem_singleton.mp hx]
    exact hc
  · intro x hx
    rw [List.mem_singleton.mp hx]
    exact hcm

/-- The result -5 leaves the state as it was: a chain that was freed would have
left a free cluster. -/
theorem noSpace_eq {fs : FS} (hinv : ChainInv fs) {i : Nat} (hu : Used fs i)
    (hfull : ∀ x, InTable x → freeClusterChain fs.fat (fs.entries i).firstCluster x ≠ 0) :
    freeClusterChain fs.fat (fs.entries i).firstCluster = fs.fat := by
  by_cases h0 : (fs.entries i).firstCluster = 0
  · rw [h0, freeClusterChain_zero]
  · obtain ⟨l, hl⟩ := hinv.chain i hu h0
    refine absurd ?_ (hfull _ hl.start)
    rw [freeClusterChain_eq hl, clear, if_pos hl.start_mem]

/-- A write to the chain of entry `i` in use. -/
theorem confined_stored {fs fs' : FS} (hinv : ChainInv fs) {i w : Nat} {data : List UInt8}
    {l' : List Nat} (hu : Used fs i)
    (hc : Chain fs.fat (fs.entries i).firstCluster [(fs.entries i).firstCluster])
    (h : Stored fs fs' i w data l') : Confined fs fs' i := by
  have hmine : ∀ x ∈ l', Mine fs i x := by
    intro x hx
    rcases h.mem x hx with rfl | hx
    · exact .inr ⟨_, hu, hc, List.mem_singleton_self _⟩
    · exact .inl hx
  have hent : ∀ j, j ≠ i → fs'.entries j = fs.entries j := fun j hj => by
    rw [h.entries, Function.update_of_ne hj]
  have hfr := frame_of_touched hinv l' hent h.fatFrame h.diskFrame hmine
  refine ⟨hfr, ChainInv.of_frame hinv hfr fun _ _ => ⟨l', ?_, hmine⟩⟩
  rw [h.entries, Function.update_self]
  exact h.chain

/-- `fs_write` to the chain of entry `i` in use. -/
theorem confined_fsWrite {fs : FS} (hinv : ChainInv fs) {i : Nat} (hu : Used fs i)
    (hne : (fs.entries i).firstCluster ≠ 0) (data : List UInt8) :
    Confined fs (fsWrite fs (fs.entries i).firstCluster data).2 i := by
  by_cases hd : data.length = 0
  · rw [List.eq_nil_of_length_eq_zero hd, fsWrite_nil]
    exact Confined.refl hinv i
  · obtain ⟨l, hl⟩ := hinv.chain i hu hne
    obtain ⟨l', hw, hframe, hre⟩ := fsWrite_spec data hl (by omega)
    have hent := fsWrite_entries fs (fs.entries i).firstCluster data
    have hmine : ∀ x ∈ l', Mine fs i x := by
      intro x hx
      rcases hre.mem hx with hx | hx
      · exact .inr ⟨l, hu, hl, hx⟩
      · exact .inl hx
    have hfr := frame_of_touched hinv l' (fun j _ => congrFun hent j) hframe hw.frame hmine
    refine ⟨hfr, ChainInv.of_frame hinv hfr fun _ _ => ⟨l', ?_, hmine⟩⟩
    rw [hent]
    exact hw.chain

/-- The one-cluster chain that `fs_create_file` or a restart leaves. -/
theorem chain_single {fat : Nat → Nat} {c : Nat} (hc : InTable c) (he : fat c = eof) :
    Chain fat c [c] := by
  refine ⟨List.cons_ne_nil _ _, ⟨rfl, he⟩, fun x hx => ?_⟩
  rw [List.mem_singleton.mp hx]
  exact hc

theorem chain_addFile {fs : FS} {i c : Nat} {e : Entry} (h : NewFile fs i c e) :
    Chain (addFile fs i c e).fat ((addFile fs i c e).entries i).firstCluster
      [((addFile fs i c e).entries i).firstCluster] := by
  simp only [addFile, Function.update_self, h.first]
  exact chain_single h.inTable (Function.update_self _ _ _)

theorem chain_restart (fs : FS) {c : Nat} (i : Nat) (fat : Nat → Nat) (hc : InTable c) :
    Chain (restart fs i c fat).fat ((restart fs i c fat).entries i).firstCluster
      [((restart fs i c fat).entries i).firstCluster] := by
  simp only [restart, Function.update_self]
  exact chain_single hc (Function.update_self _ _ _)

theorem isFile_addFile {fs : FS} {i c : Nat} {e : Entry} (h : NewFile fs i c e) :
    IsFile (addFile fs i c e) i := by
  refine ⟨⟨h.lt, ?_⟩, ?_⟩
  · simp only [addFile, Function.update_self, h.used]
  · simp only [addFile, Function.update_self, h.file]

theorem used_restart {fs : FS} {i : Nat} (hu : Used fs i) (c : Nat) (fat : Nat → Nat) :
    Used (restart fs i c fat) i := by
  refine ⟨hu.1, ?_⟩
  simp only [restart, Function.update_self, hu.2]

theorem isFile_restart {fs : FS} {i : Nat} (hf : IsFile fs i) (c : Nat) (fat : Nat → Nat) :
    IsFile (restart fs i c fat) i := by
  refine ⟨used_restart hf.1 c fat, ?_⟩
  simp only [restart, Function.update_self, hf.2]

theorem confined_writeContents {fs : FS} (hinv : ChainInv fs) {i : Nat} (hu : Used fs i)
    (hch : Chain fs.fat (fs.entries i).firstCluster [(fs.entries i).firstCluster])
    (data : List UInt8) : Confined fs (writeContents fs i data).2 i := by
  obtain ⟨w, l', hst, -⟩ := writeContents_spec data hch
  exact confined_stored hinv hu hch hst

/-- Entry `j` is the entry that the call is about. A call that makes a new
entry is about no entry in use. -/
def Targets (fs : FS) (op : Op) (j : Nat) : Prop :=
  match op with
  | .mkdir _ _ | .createFile _ _ _ => False
  | .rmdir idx | .removeEntry idx => idx = j
  | .writeFileInDir name ext parent _ => (fsFindInDir fs name ext parent).1 = j
  | .write c _ => (fs.entries j).firstCluster = c

theorem confined_writeCase {fs : FS} (hinv : ChainInv fs) {name ext : Option CStr}
    {parent : Int} {data : List UInt8} {r : Int × FS}
    (h : WriteCase fs name ext parent data r) :
    ∃ i, Confined fs r.2 i ∧
      ∀ j, Used fs j → (fsFindInDir fs name ext parent).1 ≠ j → j ≠ i := by
  cases h with
  | refused ret _ =>
    exact ⟨fsMaxEntries, Confined.refl hinv _, fun j hj _ => Nat.ne_of_lt hj.1⟩
  | created i c nm hn _ hnew =>
    have hadd := confined_addFile hinv hnew
    refine ⟨i, hadd.trans (confined_writeContents hadd.inv (isFile_addFile hnew).1
      (chain_addFile hnew) data), fun j hj _ hji => ?_⟩
    rw [hji] at hj
    exact absurd (hj.2.symm.trans hnew.free) (by decide)
  | noSpace i hf hu hfull =>
    refine ⟨i, ?_, fun j _ hj hji => hj (by rw [hf, hji])⟩
    rw [noSpace_eq hinv hu hfull]
    exact Confined.refl hinv i
  | restarted i c hf hu hc hz =>
    have hrestart := confined_restart hinv hu hc hz
    exact ⟨i, hrestart.trans (confined_writeContents hrestart.inv (used_restart hu _ _)
      (chain_restart _ _ _ hc) data), fun j _ hj hji => hj (by rw [hf, hji])⟩

/-- Every call keeps the invariant and changes nothing of an entry in use that
it is not about. -/
theorem step_confined {fs fs' : FS} (hinv : ChainInv fs) {op : Op} (hop : FileCall fs op)
    (hstep : step fs op = some fs') :
    ∃ i, Confined fs fs' i ∧ ∀ j, Used fs j → ¬ Targets fs op j → j ≠ i := by
  have hnew : ∀ {i : Nat} {e : Entry}, NewEntry fs i e →
      ∀ j, Used fs j → ¬ Targets fs op j → j ≠ i := by
    intro i e he j hj _ hji
    rw [hji] at hj
    exact absurd (hj.2.symm.trans he.free) (by decide)
  cases step_cases hstep with
  | kept op => exact ⟨_, Confined.refl hinv fsMaxEntries, fun j hj _ => Nat.ne_of_lt hj.1⟩
  | addDir he _ => exact ⟨_, confined_putEntry hinv (.inr rfl), hnew he⟩
  | dropDir hidx _ =>
    refine ⟨_, confined_putEntry hinv (.inl rfl), fun j _ hj hji => hj ?_⟩
    rcases hidx with rfl | rfl
    · rw [hji]
      exact rfl
    · rw [hji]
      exact rfl
  | addFile he _ => exact ⟨_, confined_addFile hinv he, hnew he.toNewEntry⟩
  | dropFile _ hf =>
    refine ⟨_, confined_removeFile hinv hf.1, fun j _ hj hji => hj ?_⟩
    rw [hji]
    exact rfl
  | wrote hcase => exact confined_writeCase hinv hcase
  | raw c data =>
    obtain ⟨i, hf, hc⟩ := hop
    refine ⟨i, ?_, fun j _ hj hji => hj (by rw [hji]; exact hc)⟩
    by_cases h0 : c = 0
    · rw [h0, fsWrite_zero]
      exact Confined.refl hinv i
    · subst hc
      exact confined_fsWrite hinv hf.1 h0 data

/-! ## Whole runs -/

theorem NameCall.fileCall {op : Op} (h : NameCall op) (fs : FS) : FileCall fs op := by
  cases op with
  | write c data => exact absurd h id
  | _ => exact trivial

theorem chainInv_fsInit (disk : Mem) : ChainInv (fsInit disk) := by
  have hzero : ∀ i, ((fsInit disk).entries i).firstCluster = 0 := by
    intro i
    by_cases hi : i = fsRootIdx
    · simp only [fsInit, hi, Function.update_self, Entry.zero]
    · simp only [fsInit, Function.update_of_ne hi, Entry.zero]
  refine ⟨fun i _ hne => absurd (hzero i) hne, ?_⟩
  intro i j _ _ _ l l' hl _
  have := hl.start.1
  rw [hzero] at this
  omega

theorem chainInv_of_run {disk : Mem} {ops : List Op} {fs : FS}
    (h : Run step FileCall (fsInit disk) ops fs) : ChainInv fs := by
  refine h.invariant ?_ (chainInv_fsInit disk)
  intro s o s' hs ho hstep
  obtain ⟨i, hc, -⟩ := step_confined hs ho hstep
  exact hc.inv

/-- Chain safety: after any run of calls from `fs_init`, the chain of every
entry in use that has one stays in the data area, visits no free cluster and no
cluster twice and ends in `eof`, and the chains of two entries share no
cluster. -/
theorem chains_safe {disk : Mem} {ops : List Op} {fs : FS}
    (h : Run step FileCall (fsInit disk) ops fs) :
    (∀ i, Used fs i → (fs.entries i).firstCluster ≠ 0 →
      ∃ l, Chain fs.fat (fs.entries i).firstCluster l ∧ l.Nodup ∧ ∀ x ∈ l, fs.fat x ≠ 0) ∧
    (∀ i j, Used fs i → Used fs j → i ≠ j → ∀ l l',
      Chain fs.fat (fs.entries i).firstCluster l → Chain fs.fat (fs.entries j).firstCluster l' →
      l.Disjoint l') := by
  have hinv := chainInv_of_run h
  refine ⟨fun i hu hne => ?_, hinv.disjoint⟩
  obtain ⟨l, hl⟩ := hinv.chain i hu hne
  exact ⟨l, hl, hl.nodup, hl.fat_ne_zero⟩

/-- The names `a` and `b` of the example files. -/
def nameA : CStr := ⟨[97], by simp⟩
def nameB : CStr := ⟨[98], by simp⟩

/-- Write three bytes to `a.b` in the root directory. -/
def writeAB : Op := .writeFileInDir (some nameA) (some nameB) fsRootIdx [1, 2, 3]

theorem step_getD {fs : FS} {op : Op} (h : (step fs op).isSome = true) :
    step fs op = some ((step fs op).getD fs) := by
  obtain ⟨fs', hfs'⟩ := Option.isSome_iff_exists.mp h
  rw [hfs', Option.getD_some]

/-- Two files of several clusters. The first is written again with more bytes, so that its chain
leads around the second. -/
def interleaved : List Op :=
  [.writeFileInDir (some nameA) (some nameB) fsRootIdx (List.replicate 600 1),
    .writeFileInDir (some nameB) (some nameB) fsRootIdx (List.replicate 1100 2),
    .writeFileInDir (some nameA) (some nameB) fsRootIdx (List.replicate 1200 3)]

theorem interleaved_nameCalls : ∀ o ∈ interleaved, NameCall o := by
  have hsome : some nameB ≠ none := Option.some_ne_none nameB
  exact List.forall_mem_cons.mpr ⟨hsome, List.forall_mem_cons.mpr ⟨hsome,
    List.forall_mem_cons.mpr ⟨hsome, List.forall_mem_nil _⟩⟩⟩

/-- The two chains after `interleaved`. -/
theorem interleaved_chains {fs : FS}
    (h : exec step (fun _ _ => True) (fsInit fun _ => 0) interleaved = some fs) :
    (IsFile fs 1 ∧ (fs.entries 1).firstCluster = 2 ∧ Chain fs.fat 2 [2, 3, 7]) ∧
      IsFile fs 2 ∧ (fs.entries 2).firstCluster = 4 ∧ Chain fs.fat 4 [4, 5, 6] := by
  have hexec : (exec step (fun _ _ => True) (fsInit fun _ => 0) interleaved).map (fun fs =>
      ([1, 2].map fun i => ((fs.entries i).used, (fs.entries i).isDir, (fs.entries i).firstCluster),
        [2, 3, 7, 4, 5, 6].map fs.fat)) =
      some ([(true, false, 2), (true, false, 4)], [3, 7, eof, 5, 6, eof]) := by
    decide +kernel
  rw [h] at hexec
  simp only [Option.map_some, Option.some.injEq, Prod.mk.injEq, List.map_cons, List.map_nil,
    List.cons.injEq, and_true] at hexec
  obtain ⟨⟨⟨hu₁, hd₁, hc₁⟩, hu₂, hd₂, hc₂⟩, h2, h3, h7, h4, h5, h6⟩ := hexec
  refine ⟨⟨⟨⟨by decide, hu₁⟩, hd₁⟩, hc₁, by decide, ⟨rfl, h2, h3, h7⟩, ?_⟩,
    ⟨⟨by decide, hu₂⟩, hd₂⟩, hc₂, by decide, ⟨rfl, h4, h5, h6⟩, ?_⟩
  · unfold InTable
    decide
  · unfold InTable
    decide

theorem chains_safe_interleaved : ∃ fs, Run step FileCall (fsInit fun _ => 0) interleaved fs ∧
    Chain fs.fat 2 [2, 3, 7] ∧ Chain fs.fat 4 [4, 5, 6] ∧ [2, 3, 7].Disjoint [4, 5, 6] ∧
    ∀ x ∈ [2, 3, 7], fs.fat x ≠ 0 := by
  have hsome : (exec step (fun _ _ => True) (fsInit fun _ => 0) interleaved).isSome = true := by
    decide +kernel
  obtain ⟨fs, hfs⟩ := Option.isSome_iff_exists.mp hsome
  have hr : Run step FileCall (fsInit fun _ => 0) interleaved fs :=
    ((Run.of_exec hfs).restrict interleaved_nameCalls).mono fun fs o ho => ho.2.fileCall fs
  obtain ⟨⟨hf₁, hc₁, hl₁⟩, hf₂, hc₂, hl₂⟩ := interleaved_chains hfs
  obtain ⟨hchain, hdisjoint⟩ := chains_safe hr
  obtain ⟨l, hl, -, hne⟩ := hchain 1 hf₁.1 (by rw [hc₁]; decide)
  rw [hc₁] at hl
  obtain rfl := hl.unique hl₁
  exact ⟨fs, hr, hl₁, hl₂, hdisjoint 1 2 hf₁.1 hf₂.1 (by decide) _ _ (hc₁ ▸ hl₁) (hc₂ ▸ hl₂), hne⟩

/-- File isolation: in any state that a run of calls reaches, a call by name or
index that is not about the file `j` returns, and leaves the record of `j` and
the bytes that reading it returns as they were. -/
theorem file_isolation {disk : Mem} {ops : List Op} {fs : FS}
    (h : Run step FileCall (fsInit disk) ops fs) {j : Nat} (hj : IsFile fs j) (op : Op)
    (hop : NameCall op) (ht : ¬ Targets fs op j) :
    ∃ fs', step fs op = some fs' ∧ fs'.entries j = fs.entries j ∧
      fsRead fs' (fs'.entries j).firstCluster (fs'.entries j).size =
        fsRead fs (fs.entries j).firstCluster (fs.entries j).size := by
  have hinv := chainInv_of_run h
  obtain ⟨fs', hstep⟩ := step_returns fs hop
  obtain ⟨i, hc, hne⟩ := step_confined hinv (hop.fileCall fs) hstep
  have hji := hne j hj.1 ht
  refine ⟨fs', hstep, hc.frame.entries j hji, ?_⟩
  by_cases h0 : (fs.entries j).firstCluster = 0
  · rw [hc.frame.entries j hji, h0]
    unfold fsRead
    rw [if_pos (by omega), if_pos (by omega)]
  · obtain ⟨l, hl⟩ := hinv.chain j hj.1 h0
    rw [fsRead_eq hl, fsRead_eq (hc.frame.chain hji hj.1 hl), hc.frame.entries j hji,
      content_congr (hc.frame.disk j l hji hj.1 hl)]

/-- The second file is written again with less, and gives its clusters back. -/
theorem file_isolation_interleaved : ∃ fs fs',
    Run step FileCall (fsInit fun _ => 0) interleaved fs ∧
    step fs (.writeFileInDir (some nameB) (some nameB) fsRootIdx [4, 5]) = some fs' ∧
    fs.fat 5 ≠ 0 ∧ fs'.fat 5 = 0 ∧ fs'.entries 1 = fs.entries 1 ∧
    fsRead fs' (fs'.entries 1).firstCluster (fs'.entries 1).size =
      fsRead fs (fs.entries 1).firstCluster (fs.entries 1).size := by
  have hexec : (exec step (fun _ _ => True) (fsInit fun _ => 0) interleaved).map (fun fs =>
      ((fsFindInDir fs (some nameB) (some nameB) fsRootIdx).1, fs.fat 5,
        (step fs (.writeFileInDir (some nameB) (some nameB) fsRootIdx [4, 5])).map
          fun fs' => fs'.fat 5)) = some (2, 6, some 0) := by
    decide +kernel
  obtain ⟨fs, hfs, hval⟩ := Option.map_eq_some_iff.mp hexec
  simp only [Prod.mk.injEq] at hval
  obtain ⟨hfind, hbefore, hafter⟩ := hval
  have hr : Run step FileCall (fsInit fun _ => 0) interleaved fs :=
    ((Run.of_exec hfs).restrict interleaved_nameCalls).mono fun fs o ho => ho.2.fileCall fs
  have htargets : ¬ Targets fs (.writeFileInDir (some nameB) (some nameB) fsRootIdx [4, 5]) 1 := by
    unfold Targets
    dsimp only
    rw [hfind]
    decide
  obtain ⟨fs', hstep, hrest⟩ := file_isolation hr (interleaved_chains hfs).1.1
    (.writeFileInDir (some nameB) (some nameB) fsRootIdx [4, 5]) (by simp [NameCall]) htargets
  rw [hstep, Option.map_some, Option.some.injEq] at hafter
  exact ⟨fs, fs', hr, hstep, by rw [hbefore]; decide, hafter, hrest⟩

end KernelC.Fat16
