import KernelC.Fat16.Chain

/-!
# What each call can do

One inversion lemma per call of `fat16/fs.c`: the call leaves the state as it
is, or the state before it met the tests of the source and the change is the
stated one. `step_cases` puts them together; every invariant of the file system
is proved from it.

A file entry's chain is rewritten in one place, `writeContents`; `Stored` says
what that leaves (`writeContents_spec`).
-/

namespace KernelC.Fat16

/-- `e` is a record that the tests of `fs_mkdir` and `fs_create_file` allow in
slot `i`: the slot is free and not the root's, the parent is a directory. -/
structure NewEntry (fs : FS) (i : Nat) (e : Entry) : Prop where
  pos : 0 < i
  lt : i < fsMaxEntries
  free : (fs.entries i).used = false
  used : e.used = true
  parent : ∃ p : Nat, e.parent = p ∧ IsDirectory fs p

theorem findFreeEntry_some {entries : Nat → Entry} {i : Nat}
    (h : findFreeEntry entries = some i) :
    0 < i ∧ i < fsMaxEntries ∧ (entries i).used = false := by
  obtain ⟨hu, hm, -⟩ := List.find?_range'_eq_some.mp h
  have hr := List.mem_range'_1.mp hm
  have : 1 + (fsMaxEntries - 1) = fsMaxEntries := by decide
  exact ⟨by omega, by omega, by simpa using hu⟩

/-- The tests on `parent` that every call by name makes. -/
theorem isDirectory_of_tests {fs : FS} {parent : Int}
    (h1 : ¬ (parent < 0 ∨ parent ≥ fsMaxEntries))
    (h2 : ¬ ((!(fs.entries parent.toNat).used || !(fs.entries parent.toNat).isDir) = true)) :
    parent = (parent.toNat : Int) ∧ IsDirectory fs parent.toNat := by
  simp only [Bool.or_eq_true, Bool.not_eq_true', not_or, Bool.not_eq_false] at h2
  exact ⟨by omega, ⟨by omega, h2.1⟩, h2.2⟩

/-- The record that `fs_mkdir` writes. -/
def dirEntry (name : CStr) (parent : Int) : Entry :=
  { Entry.zero with
    name := storeField fsNameMax Entry.zero.name name
    ext := Entry.zero.ext.set 0 0
    parent := parent
    isDir := true
    used := true }

/-- `fs_mkdir` gives a negative result and an unchanged state, or the index of a
new directory whose name no directory beside it has. -/
theorem fsMkdir_made (fs : FS) (name : Option CStr) (parent : Int) :
    (∃ ret, ret < 0 ∧ fsMkdir fs name parent = (ret, fs)) ∨
    ∃ i nm, name = some nm ∧ NewEntry fs i (dirEntry nm parent) ∧
      (∀ j, j < fsMaxEntries → dupDirAt fs nm parent j = false) ∧
      fsMkdir fs name parent =
        ((i : Int), { fs with entries := Function.update fs.entries i (dirEntry nm parent) }) := by
  unfold fsMkdir
  cases name with
  | none => exact .inl ⟨-1, by omega, rfl⟩
  | some name =>
    dsimp only
    split
    · exact .inl ⟨-1, by omega, rfl⟩
    · next h1 =>
      split
      · exact .inl ⟨-2, by omega, rfl⟩
      · next h2 =>
        split
        · exact .inl ⟨-3, by omega, rfl⟩
        · next h3 =>
          cases hf : findFreeEntry fs.entries with
          | none => exact .inl ⟨-4, by omega, rfl⟩
          | some i =>
            obtain ⟨hpos, hlt, hfree⟩ := findFreeEntry_some hf
            obtain ⟨hp, hdir⟩ := isDirectory_of_tests h1 h2
            refine .inr ⟨i, name, rfl, ⟨hpos, hlt, hfree, rfl, _, hp, hdir⟩, fun j hj => ?_, rfl⟩
            by_contra hdup
            exact h3 (List.any_eq_true.mpr ⟨j, List.mem_range.mpr hj, by simpa using hdup⟩)

theorem hasChildren_eq_false {entries : Nat → Entry} {i : Nat} (hi : i < fsMaxEntries)
    (h : ¬ hasChildren entries i = true) :
    ∀ j, j < fsMaxEntries → (entries j).used = true → (entries j).parent ≠ i := by
  intro j hj hu hp
  refine h ?_
  unfold hasChildren
  rw [if_neg (by omega)]
  exact List.any_eq_true.mpr ⟨j, List.mem_range.mpr hj, by simp [hu, hp]⟩

/-- `i` is a directory other than the root, without entries in it. -/
structure EmptyDir (fs : FS) (i : Nat) : Prop where
  pos : 0 < i
  dir : IsDirectory fs i
  empty : ∀ j, j < fsMaxEntries → (fs.entries j).used = true → (fs.entries j).parent ≠ i

theorem fsRmdir_cases (fs : FS) (idx : Int) :
    (fsRmdir fs idx).2 = fs ∨
    ∃ i : Nat, idx = i ∧ EmptyDir fs i ∧ (fsRmdir fs idx).2 = clearUsed fs i := by
  unfold fsRmdir
  split
  · exact .inl rfl
  · next h1 =>
    split
    · exact .inl rfl
    · next h2 =>
      split
      · exact .inl rfl
      · next h3 =>
        obtain ⟨hi, hdir⟩ := isDirectory_of_tests (by omega) h2
        rw [hi] at h3
        exact .inr ⟨_, hi, ⟨by omega, hdir, hasChildren_eq_false hdir.1.1 h3⟩, rfl⟩

theorem fsRemoveEntry_cases (fs : FS) (idx : Int) :
    (fsRemoveEntry fs idx).2 = fs ∨
    (∃ i : Nat, idx = i ∧ EmptyDir fs i ∧ (fsRemoveEntry fs idx).2 = clearUsed fs i) ∨
    (∃ i : Nat, idx = i ∧ 0 < i ∧ IsFile fs i ∧ (fsRemoveEntry fs idx).2 =
      clearUsed { fs with fat := freeClusterChain fs.fat (fs.entries i).firstCluster } i) := by
  unfold fsRemoveEntry
  split
  · exact .inl rfl
  · next h1 =>
    have hi : idx = (idx.toNat : Int) := by omega
    split
    · exact .inl rfl
    · next h2 =>
      have hu : Used fs idx.toNat := ⟨by omega, by simpa using h2⟩
      split
      · next h3 =>
        split
        · exact .inl rfl
        · next h4 =>
          rw [hi] at h4
          exact .inr (.inl ⟨_, hi, ⟨by omega, ⟨hu, h3⟩, hasChildren_eq_false hu.1 h4⟩, rfl⟩)
      · next h3 => exact .inr (.inr ⟨_, hi, by omega, ⟨hu, by simpa using h3⟩, rfl⟩)

/-- The record and the table that a successful `fs_create_file` leaves. -/
structure NewFile (fs : FS) (i c : Nat) (e : Entry) : Prop extends NewEntry fs i e where
  file : e.isDir = false
  first : e.firstCluster = c
  inTable : InTable c
  freeCluster : fs.fat c = 0

def addFile (fs : FS) (i c : Nat) (e : Entry) : FS :=
  { fs with fat := Function.update fs.fat c eof, entries := Function.update fs.entries i e }

/-- The record that `fs_create_file` writes. -/
def fileEntry (name : CStr) (ext : Option CStr) (parent : Int) (c : Nat) : Entry :=
  { Entry.zero with
    name := storeField fsNameMax Entry.zero.name name
    ext := match ext with
      | some ext => storeField fsExtMax Entry.zero.ext ext
      | none => Entry.zero.ext.set (fsExtMax - 1) 0
    parent := parent
    used := true
    firstCluster := c }

/-- `fs_create_file` reads through NULL, or gives a negative result and an
unchanged state, or the index of a new file. -/
theorem fsCreateFile_cases (fs : FS) (name ext : Option CStr) (parent : Int) :
    (ext = none ∧ fsCreateFile fs name ext parent = none) ∨
    (∃ ret out, ret < 0 ∧ fsCreateFile fs name ext parent = some (ret, out, fs)) ∨
    ∃ i c nm, name = some nm ∧ NewFile fs i c (fileEntry nm ext parent c) ∧
      fsCreateFile fs name ext parent =
        some ((i : Int), some c, addFile fs i c (fileEntry nm ext parent c)) := by
  unfold fsCreateFile
  cases name with
  | none => exact .inr (.inl ⟨-1, none, by omega, rfl⟩)
  | some name =>
    dsimp only
    split
    · exact .inr (.inl ⟨-1, none, by omega, rfl⟩)
    · next h1 =>
      split
      · exact .inr (.inl ⟨-2, none, by omega, rfl⟩)
      · next h2 =>
        split
        · cases ext with
          | none => exact .inl ⟨rfl, rfl⟩
          | some ext => exact .inr (.inl ⟨-3, none, by omega, rfl⟩)
        · split
          · exact .inr (.inl ⟨-4, none, by omega, rfl⟩)
          · next i hf =>
            obtain ⟨hpos, hlt, hfree⟩ := findFreeEntry_some hf
            obtain ⟨hp, hdir⟩ := isDirectory_of_tests h1 h2
            rcases allocCluster_cases fs.fat with ⟨c, hc, hz, ha⟩ | ⟨-, ha⟩
            · have hc0 : c ≠ 0 := by have := hc.1; omega
              simp only [ha, if_neg hc0, Function.update_idem]
              exact .inr (.inr ⟨i, c, name, rfl,
                ⟨⟨hpos, hlt, hfree, rfl, _, hp, hdir⟩, rfl, rfl, hc, hz⟩, rfl⟩)
            · simp only [ha, if_pos]
              exact .inr (.inl ⟨-5, none, by omega, rfl⟩)

/-! ## Writing a file by name -/

/-- The chain of entry `i` after its contents were written: `w` bytes of
`data` are stored in the chain `l'`, and the size is recorded. -/
structure Stored (fs fs' : FS) (i w : Nat) (data : List UInt8) (l' : List Nat) : Prop where
  chain : Chain fs'.fat (fs.entries i).firstCluster l'
  fatFrame : ∀ x, x ∉ l' → fs'.fat x = fs.fat x
  mem : ∀ x ∈ l', x = (fs.entries i).firstCluster ∨ fs.fat x = 0
  diskFrame : ∀ c, c ∉ l' → clusterBytes fs'.disk c = clusterBytes fs.disk c
  entries : fs'.entries = Function.update fs.entries i { fs.entries i with size := w % 2 ^ 32 }
  count : w = min data.length (clusterSize * l'.length)
  bytes : (content fs'.disk l').take w = data.take w
  full : w < data.length → ∀ x, InTable x → fs'.fat x ≠ 0
  length : l'.length = max 1 (clustersFor w)

/-- No chain is so long that the recorded size is cut. -/
theorem Stored.size_eq {fs fs' : FS} {i w : Nat} {data : List UInt8} {l' : List Nat}
    (h : Stored fs fs' i w data l') : (fs'.entries i).size = w := by
  have hcount := h.count
  have hmax : clusterSize * l'.length ≤ clusterSize * fatEntries :=
    Nat.mul_le_mul_left _ h.chain.length_le
  have hbig : clusterSize * fatEntries < 2 ^ 32 := by decide
  rw [h.entries, Function.update_self]
  exact Nat.mod_eq_of_lt (by omega)

theorem writeContents_spec {fs : FS} {i : Nat} (data : List UInt8)
    (h : Chain fs.fat (fs.entries i).firstCluster [(fs.entries i).firstCluster]) :
    ∃ w l', Stored fs (writeContents fs i data).2 i w data l' ∧
      (writeContents fs i data).1 = if w = data.length then 0 else -6 := by
  by_cases hd : data.length = 0
  · have hnil := List.eq_nil_of_length_eq_zero hd
    subst hnil
    have he : fs.fat (fs.entries i).firstCluster = eof := h.path.2
    have heq : writeContents fs i [] = (0, setSize fs i 0) := by
      unfold writeContents setSize
      simp only [List.length_nil, if_pos, Function.update_self, ← he, Function.update_eq_self]
    rw [heq]
    refine ⟨0, [(fs.entries i).firstCluster], ⟨h, fun _ _ => rfl, ?_, fun _ _ => rfl, rfl, ?_, ?_,
      fun hlt => absurd hlt (by simp), ?_⟩, rfl⟩
    · exact fun x hx => .inl (List.mem_singleton.mp hx)
    · rw [List.length_nil, Nat.zero_min]
    · rw [List.take_zero, List.take_zero]
    · rw [List.length_singleton, show clustersFor 0 = 0 by decide]
      rfl
  · obtain ⟨l', hw, hframe, hre⟩ := fsWrite_spec data h (by omega)
    have hcount := hw.count
    simp only [Nat.zero_add, Nat.sub_zero] at hcount
    have hbytes := hw.bytes
    simp only [Nat.sub_zero, List.drop_zero] at hbytes
    have hmem : ∀ x ∈ l', x = (fs.entries i).firstCluster ∨ fs.fat x = 0 := by
      intro x hx
      rcases hre.mem hx with hx | hx
      · exact .inl (List.mem_singleton.mp hx)
      · exact .inr hx
    have hlen := hw.length
    simp only [Nat.sub_zero] at hlen
    have hent := fsWrite_entries fs (fs.entries i).firstCluster data
    unfold writeContents
    rw [if_neg hd]
    generalize fsWrite fs (fs.entries i).firstCluster data = r at *
    obtain ⟨w, fs'⟩ := r
    have hpos : l'.length ≠ 0 := fun h0 => hw.chain.nonempty (List.eq_nil_of_length_eq_zero h0)
    have hst : Stored fs (setSize fs' i (w % 2 ^ 32)) i w data l' := by
      refine ⟨hw.chain, hframe, hmem, hw.frame, ?_, hcount, hbytes, hw.full, ?_⟩
      · simp only [setSize]
        rw [show fs'.entries = fs.entries from hent]
      · simp only at hlen
        omega
    by_cases hall : w = data.length
    · refine ⟨w, l', ?_, ?_⟩
      · simp only [hall, ne_eq, not_true_eq_false, if_false]
        rw [hall] at hst
        exact hst
      · simp [hall]
    · refine ⟨w, l', ?_, ?_⟩
      · simpa only [ne_eq, hall, not_false_eq_true, if_true] using hst
      · simp [hall]

/-- Of the entries, writing contents changes one size. -/
theorem writeContents_entries (fs : FS) (i : Nat) (data : List UInt8) :
    ∃ n, (writeContents fs i data).2.entries =
      Function.update fs.entries i { fs.entries i with size := n } := by
  have hw := fsWrite_entries fs (fs.entries i).firstCluster data
  unfold writeContents
  split
  · exact ⟨0, rfl⟩
  · dsimp only
    split
    · exact ⟨_, by rw [setSize, hw]⟩
    · exact ⟨_, by rw [setSize, hw]⟩

/-- Entry `i` with the start cluster `c` in the table `fat`. -/
def restart (fs : FS) (i c : Nat) (fat : Nat → Nat) : FS :=
  { fs with
    fat := Function.update fat c eof
    entries := Function.update fs.entries i { fs.entries i with firstCluster := c } }

/-- The old chain is freed; then a start cluster is taken from what is free. -/
theorem restartChain_cases (fs : FS) (i : Nat) :
    (∃ c, InTable c ∧ freeClusterChain fs.fat (fs.entries i).firstCluster c = 0 ∧
      restartChain fs i =
        (some (restart fs i c (freeClusterChain fs.fat (fs.entries i).firstCluster)),
          restart fs i c (freeClusterChain fs.fat (fs.entries i).firstCluster))) ∨
    ((∀ x, InTable x → freeClusterChain fs.fat (fs.entries i).firstCluster x ≠ 0) ∧
      restartChain fs i =
        (none, { fs with fat := freeClusterChain fs.fat (fs.entries i).firstCluster })) := by
  unfold restartChain
  rcases allocCluster_cases (freeClusterChain fs.fat (fs.entries i).firstCluster) with
    ⟨c, hc, hz, ha⟩ | ⟨hfull, ha⟩
  · have hc0 : c ≠ 0 := by have := hc.1; omega
    refine .inl ⟨c, hc, hz, ?_⟩
    simp only [ha, if_neg hc0, Function.update_idem, restart]
  · refine .inr ⟨hfull, ?_⟩
    simp only [ha, if_pos]

theorem fsFindInDir_cases (fs : FS) (name ext : Option CStr) (parent : Int) :
    fsFindInDir fs name ext parent = (-1, none) ∨
    ∃ i nm, name = some nm ∧ i < fsMaxEntries ∧ matchAt fs nm ext parent i = true ∧
      (∀ j, j < i → matchAt fs nm ext parent j = false) ∧
      fsFindInDir fs name ext parent = ((i : Int), some (fs.entries i)) := by
  unfold fsFindInDir
  cases name with
  | none => exact .inl rfl
  | some name =>
    dsimp only
    split
    · exact .inl rfl
    · cases hf : (List.range fsMaxEntries).find? (matchAt fs name ext parent) with
      | none => exact .inl rfl
      | some i =>
        obtain ⟨hm, hi, hfirst⟩ := List.find?_range_eq_some.mp hf
        refine .inr ⟨i, name, rfl, List.mem_range.mp hi, hm, fun j hj => ?_, rfl⟩
        simpa using hfirst j hj

theorem used_of_matchAt {fs : FS} {name : CStr} {ext : Option CStr} {parent : Int} {i : Nat}
    (hi : i < fsMaxEntries) (h : matchAt fs name ext parent i = true) : Used fs i := by
  simp only [matchAt, Bool.and_eq_true] at h
  exact ⟨hi, h.1.1⟩

/-- What `fs_write_file_in_dir` does, unless it reads through NULL. In both
cases where the contents are written, entry `i` starts at a cluster that was
free and is now the end of a chain. -/
inductive WriteCase (fs : FS) (name ext : Option CStr) (parent : Int)
    (data : List UInt8) : Int × FS → Prop
  | refused (ret : Int) : -4 ≤ ret ∧ ret < 0 → WriteCase fs name ext parent data (ret, fs)
  | created (i c : Nat) (nm : CStr) : name = some nm →
      (fsFindInDir fs name ext parent).1 = -1 →
      NewFile fs i c (fileEntry nm ext parent c) →
      WriteCase fs name ext parent data
        (writeContents (addFile fs i c (fileEntry nm ext parent c)) i data)
  | noSpace (i : Nat) : (fsFindInDir fs name ext parent).1 = i → Used fs i →
      (∀ x, InTable x → freeClusterChain fs.fat (fs.entries i).firstCluster x ≠ 0) →
      WriteCase fs name ext parent data
        (-5, { fs with fat := freeClusterChain fs.fat (fs.entries i).firstCluster })
  | restarted (i c : Nat) : (fsFindInDir fs name ext parent).1 = i → Used fs i →
      InTable c → freeClusterChain fs.fat (fs.entries i).firstCluster c = 0 →
      WriteCase fs name ext parent data
        (writeContents
          (restart fs i c (freeClusterChain fs.fat (fs.entries i).firstCluster)) i data)

theorem fsWriteFileInDir_cases (fs : FS) (name ext : Option CStr) (parent : Int)
    (data : List UInt8) :
    (ext = none ∧ fsWriteFileInDir fs name ext parent data = none) ∨
    ∃ r, fsWriteFileInDir fs name ext parent data = some r ∧
      WriteCase fs name ext parent data r := by
  unfold fsWriteFileInDir
  split
  · exact .inr ⟨_, rfl, .refused (-1) (by omega)⟩
  · split
    · exact .inr ⟨_, rfl, .refused (-2) (by omega)⟩
    · split
      · exact .inr ⟨_, rfl, .refused (-3) (by omega)⟩
      · rcases fsFindInDir_cases fs name ext parent with hf | ⟨i, nm, -, hi, hm, -, hf⟩
        · simp only [hf]
          rw [if_pos (by omega)]
          rcases fsCreateFile_cases fs name ext parent with
            ⟨he, hc⟩ | ⟨ret, out, hret, hc⟩ | ⟨i, c, nm, hn, hnew, hc⟩
          · exact .inl ⟨he, by rw [hc]⟩
          · simp only [hc, if_pos hret]
            exact .inr ⟨_, rfl, .refused (-4) (by omega)⟩
          · simp only [hc, if_neg (show ¬ ((i : Int) < 0) by omega), Int.toNat_natCast]
            exact .inr ⟨_, rfl, .created i c nm hn (by rw [hf]) hnew⟩
        · simp only [hf]
          rw [if_neg (by omega)]
          rcases restartChain_cases fs i with ⟨c, hc, hz, hr⟩ | ⟨hfull, hr⟩
          · simp only [Int.toNat_natCast, hr]
            exact .inr ⟨_, rfl, .restarted i c (by rw [hf]) (used_of_matchAt hi hm) hc hz⟩
          · simp only [Int.toNat_natCast, hr]
            exact .inr ⟨_, rfl, .noSpace i (by rw [hf]) (used_of_matchAt hi hm) hfull⟩

/-- What one call does, unless it reads through NULL. -/
inductive StepCase (fs : FS) : Op → FS → Prop
  | kept (op : Op) : StepCase fs op fs
  | addDir {i : Nat} {nm : CStr} {parent : Int} : NewEntry fs i (dirEntry nm parent) →
      (∀ j, j < fsMaxEntries → dupDirAt fs nm parent j = false) →
      StepCase fs (.mkdir (some nm) parent)
        { fs with entries := Function.update fs.entries i (dirEntry nm parent) }
  | dropDir {op : Op} {i : Nat} : op = .rmdir i ∨ op = .removeEntry i → EmptyDir fs i →
      StepCase fs op (clearUsed fs i)
  | addFile {i c : Nat} {nm : CStr} {ext : Option CStr} {parent : Int} :
      NewFile fs i c (fileEntry nm ext parent c) →
      fsCreateFile fs (some nm) ext parent =
        some ((i : Int), some c, addFile fs i c (fileEntry nm ext parent c)) →
      StepCase fs (.createFile (some nm) ext parent) (addFile fs i c (fileEntry nm ext parent c))
  | dropFile {i : Nat} : 0 < i → IsFile fs i →
      StepCase fs (.removeEntry i)
        (clearUsed { fs with fat := freeClusterChain fs.fat (fs.entries i).firstCluster } i)
  | wrote {name ext : Option CStr} {parent : Int} {data : List UInt8} {r : Int × FS} :
      WriteCase fs name ext parent data r →
      StepCase fs (.writeFileInDir name ext parent data) r.2
  | raw (c : Nat) (data : List UInt8) : StepCase fs (.write c data) (fsWrite fs c data).2

theorem step_cases {fs fs' : FS} {op : Op} (hstep : step fs op = some fs') :
    StepCase fs op fs' := by
  cases op with
  | mkdir name parent =>
    obtain rfl := Option.some.inj hstep
    rcases fsMkdir_made fs name parent with ⟨ret, -, h⟩ | ⟨i, nm, rfl, hnew, hdup, h⟩
    · rw [h]
      exact .kept _
    · rw [h]
      exact .addDir hnew hdup
  | rmdir idx =>
    obtain rfl := Option.some.inj hstep
    rcases fsRmdir_cases fs idx with h | ⟨i, rfl, hempty, h⟩
    · rw [h]
      exact .kept _
    · rw [h]
      exact .dropDir (.inl rfl) hempty
  | createFile name ext parent =>
    rcases fsCreateFile_cases fs name ext parent with
      ⟨-, h⟩ | ⟨ret, out, -, h⟩ | ⟨i, c, nm, rfl, hnew, h⟩
    · rw [step, h] at hstep
      cases hstep
    · rw [step, h] at hstep
      cases hstep
      exact .kept _
    · have hret := h
      rw [step, h] at hstep
      cases hstep
      exact .addFile hnew hret
  | removeEntry idx =>
    obtain rfl := Option.some.inj hstep
    rcases fsRemoveEntry_cases fs idx with h | ⟨i, rfl, hempty, h⟩ | ⟨i, rfl, hpos, hfile, h⟩
    · rw [h]
      exact .kept _
    · rw [h]
      exact .dropDir (.inr rfl) hempty
    · rw [h]
      exact .dropFile hpos hfile
  | writeFileInDir name ext parent data =>
    rcases fsWriteFileInDir_cases fs name ext parent data with ⟨-, h⟩ | ⟨r, h, hcase⟩
    · rw [step, h] at hstep
      cases hstep
    · rw [step, h] at hstep
      cases hstep
      exact .wrote hcase
  | write c data =>
    obtain rfl := Option.some.inj hstep
    exact .raw c data

/-- A call by name or index with an extension returns. -/
theorem step_returns {op : Op} (fs : FS) (hop : NameCall op) : ∃ fs', step fs op = some fs' := by
  cases op with
  | mkdir name parent => exact ⟨_, rfl⟩
  | rmdir idx => exact ⟨_, rfl⟩
  | createFile name ext parent =>
    rcases fsCreateFile_cases fs name ext parent with ⟨he, -⟩ | ⟨_, _, -, h⟩ | ⟨_, _, _, -, -, h⟩
    · exact absurd he hop
    · exact ⟨_, by rw [step, h]; rfl⟩
    · exact ⟨_, by rw [step, h]; rfl⟩
  | removeEntry idx => exact ⟨_, rfl⟩
  | writeFileInDir name ext parent data =>
    rcases fsWriteFileInDir_cases fs name ext parent data with ⟨he, -⟩ | ⟨r, h, -⟩
    · exact absurd he hop
    · exact ⟨_, by rw [step, h]; rfl⟩
  | write c data => exact absurd hop id

end KernelC.Fat16
