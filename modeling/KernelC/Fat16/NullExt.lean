import KernelC.Fat16.Names

/-!
# `ext = NULL`

`fs_find_in_dir` takes a NULL extension for an empty one, and `fs_create_file` does
so when it stores the extension. Before that its duplicate test compares the
extension of each file of the same name with `ext` itself (`NullRead`), a read
through NULL. `null_ext_iff` says when the calls with NULL do what they do with the
empty extension.
-/

namespace KernelC.Fat16

/-- `fs_create_file` with `ext = NULL` gets to the comparison of extensions: the
parent is a directory in use, with a file of that name in it. -/
def NullRead (fs : FS) (name : Option CStr) (parent : Int) : Prop :=
  ∃ nm, name = some nm ∧ ∃ p : Nat, parent = p ∧ IsDirectory fs p ∧
    ∃ j, IsFile fs j ∧ (fs.entries j).parent = p ∧
      nameeq (fs.entries j).name nm fsNameMax = true

theorem matchAt_null (fs : FS) (name : CStr) (parent : Int) (i : Nat) :
    matchAt fs name none parent i = matchAt fs name (some CStr.empty) parent i := by
  rw [Bool.eq_iff_iff, matchAt_iff, matchAt_iff]
  rfl

theorem fsFindInDir_null (fs : FS) (name : Option CStr) (parent : Int) :
    fsFindInDir fs name none parent = fsFindInDir fs name (some CStr.empty) parent := by
  unfold fsFindInDir
  cases name with
  | none => rfl
  | some name =>
    dsimp only
    rw [funext (matchAt_null fs name parent)]

theorem fsReadFileInDir_null (fs : FS) (name : Option CStr) (parent : Int) (bufsize : Nat) :
    fsReadFileInDir fs name none parent bufsize =
      fsReadFileInDir fs name (some CStr.empty) parent bufsize := by
  unfold fsReadFileInDir
  rw [fsFindInDir_null]

theorem dupFileAt_null_iff {fs : FS} {nm : CStr} {p j : Nat} (hj : j < fsMaxEntries) :
    dupFileAt fs nm none p j = true ↔
      IsFile fs j ∧ (fs.entries j).parent = p ∧
        nameeq (fs.entries j).name nm fsNameMax = true := by
  simp only [dupFileAt, Bool.and_eq_true, Bool.not_eq_true', beq_iff_eq, and_true, IsFile, Used]
  tauto

/-- NULL is stored as the empty extension. -/
theorem ext_null : Entry.zero.ext.set (fsExtMax - 1) 0 =
    storeField fsExtMax Entry.zero.ext CStr.empty := by decide

/-- With a file of that name in the directory, NULL is read through. -/
theorem fsCreateFile_nullRead {fs : FS} {name : Option CStr} {parent : Int}
    (h : NullRead fs name parent) : fsCreateFile fs name none parent = none := by
  obtain ⟨nm, rfl, p, rfl, hp, j, hj⟩ := h
  have hlt := hp.1.1
  unfold fsCreateFile
  dsimp only
  rw [if_neg (by omega), if_neg (by simp [hp.1.2, hp.2])]
  cases hf : (List.range fsMaxEntries).find? (dupFileAt fs nm none p) with
  | some i => rfl
  | none =>
    refine absurd ((dupFileAt_null_iff hj.1.1.1).mpr hj) ?_
    exact List.find?_eq_none.mp hf j (List.mem_range.mpr hj.1.1.1)

/-- Without one, the two calls do the same. -/
theorem fsCreateFile_null {fs : FS} {name : Option CStr} {parent : Int}
    (h : ¬ NullRead fs name parent) :
    fsCreateFile fs name none parent = fsCreateFile fs name (some CStr.empty) parent := by
  unfold fsCreateFile
  cases name with
  | none => rfl
  | some nm =>
    dsimp only
    split
    · rfl
    · next h1 =>
      split
      · rfl
      · next h2 =>
        obtain ⟨hp, hdir⟩ := isDirectory_of_tests h1 h2
        have hno : ∀ j, j < fsMaxEntries → dupFileAt fs nm none parent j = false := by
          intro j hj
          by_contra hd
          rw [Bool.not_eq_false, hp, dupFileAt_null_iff hj] at hd
          exact h ⟨nm, rfl, _, hp, hdir, j, hd⟩
        have hno' : ∀ j, j < fsMaxEntries → dupFileAt fs nm (some CStr.empty) parent j = false := by
          intro j hj
          have hd := hno j hj
          simp only [dupFileAt, Bool.and_true] at hd
          simp only [dupFileAt, hd, Bool.false_and]
        have hnone : ∀ {f : Nat → Bool}, (∀ j, j < fsMaxEntries → f j = false) →
            (List.range fsMaxEntries).find? f = none := fun hf =>
          List.find?_eq_none.mpr fun j hj => by simp [hf j (List.mem_range.mp hj)]
        rw [hnone hno, hnone hno']
        simp only [ext_null]

theorem fsWriteFileInDir_nullRead {fs : FS} {name : Option CStr} {parent : Int}
    (hfind : (fsFindInDir fs name none parent).1 = -1) (h : NullRead fs name parent)
    (data : List UInt8) : fsWriteFileInDir fs name none parent data = none := by
  have hcreate := fsCreateFile_nullRead h
  obtain ⟨nm, rfl, p, rfl, hp, -⟩ := h
  rw [fsWriteFileInDir_absent hp hfind, hcreate]

theorem fsWriteFileInDir_null {fs : FS} {name : Option CStr} {parent : Int}
    (h : ¬ ((fsFindInDir fs name none parent).1 = -1 ∧ NullRead fs name parent))
    (data : List UInt8) :
    fsWriteFileInDir fs name none parent data =
      fsWriteFileInDir fs name (some CStr.empty) parent data := by
  unfold fsWriteFileInDir
  rw [← fsFindInDir_null]
  by_cases hread : NullRead fs name parent
  · have hfound : ¬ (fsFindInDir fs name none parent).1 < 0 := by
      rcases fsFindInDir_cases fs name none parent with hf | ⟨i, -, -, -, -, -, hf⟩
      · exact absurd ⟨by rw [hf], hread⟩ h
      · rw [hf]
        simp only
        omega
    simp only [if_neg hfound]
  · rw [fsCreateFile_null hread]

/-- NULL and the empty extension, in any state. Looking up and reading make no
difference between the two. `fs_create_file` with NULL reads through it exactly when
it gets to a file of that name in the directory, and otherwise does the same; so
does `fs_write_file_in_dir`, which creates a file only where the lookup found
nothing. -/
theorem null_ext_iff (fs : FS) (name : Option CStr) (parent : Int) :
    fsFindInDir fs name none parent = fsFindInDir fs name (some CStr.empty) parent ∧
    (∀ bufsize, fsReadFileInDir fs name none parent bufsize =
      fsReadFileInDir fs name (some CStr.empty) parent bufsize) ∧
    (fsCreateFile fs name none parent ≠ none ∧
      fsCreateFile fs name none parent = fsCreateFile fs name (some CStr.empty) parent ↔
      ¬ NullRead fs name parent) ∧
    ∀ data, (fsWriteFileInDir fs name none parent data ≠ none ∧
      fsWriteFileInDir fs name none parent data =
        fsWriteFileInDir fs name (some CStr.empty) parent data ↔
      ¬ ((fsFindInDir fs name none parent).1 = -1 ∧ NullRead fs name parent)) := by
  refine ⟨fsFindInDir_null fs name parent, fsReadFileInDir_null fs name parent, ?_, fun data => ?_⟩
  · constructor
    · exact fun h hread => h.1 (fsCreateFile_nullRead hread)
    · intro h
      have heq := fsCreateFile_null h
      refine ⟨?_, heq⟩
      rw [heq]
      rcases fsCreateFile_cases fs name (some CStr.empty) parent with
        ⟨he, -⟩ | ⟨_, _, -, hc⟩ | ⟨_, _, _, -, -, hc⟩
      · cases he
      · simp [hc]
      · simp [hc]
  · constructor
    · exact fun h hread => h.1 (fsWriteFileInDir_nullRead hread.1 hread.2 data)
    · intro h
      have heq := fsWriteFileInDir_null h data
      refine ⟨?_, heq⟩
      rw [heq]
      rcases fsWriteFileInDir_cases fs name (some CStr.empty) parent data with ⟨he, -⟩ | ⟨r, hr, -⟩
      · cases he
      · simp [hr]

/-- With the file `a.b` in the root, creating `a` with `ext = NULL` reads through
NULL. -/
theorem null_ext_read :
    ¬ ∀ (disk : Mem) (ops : List Op) (fs : FS),
      Run step (fun _ op => ByName op) (fsInit disk) ops fs →
      ∀ (name : Option CStr) (parent : Int), fsCreateFile fs name none parent ≠ none ∧
        fsCreateFile fs name none parent = fsCreateFile fs name (some CStr.empty) parent := by
  intro hall
  have hr : Run step (fun _ op => ByName op) (fsInit fun _ => 0) [writeAB] _ :=
    .single trivial (step_getD (by decide +kernel))
  have hnull : (fsCreateFile ((step (fsInit fun _ => 0) writeAB).getD (fsInit fun _ => 0))
      (some nameA) none fsRootIdx).isNone = true := by decide +kernel
  exact (hall _ _ _ hr (some nameA) fsRootIdx).1 (Option.isNone_iff_eq_none.mp hnull)

end KernelC.Fat16
