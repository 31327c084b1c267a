import KernelC.Fat16.Refinement

/-!
# Listing, lookup and removal agree

Three loops of `fs.c` ask the table the same question in their own ways:
`fs_get_all_in_dir` copies the entries of a directory, `fs_find_in_dir` looks for one by
name, `has_children` asks for any. In a state that the calls reach all three are about the
same list of records (`listing_agrees`). The lookup returns the first record that answers
to the name, so a listed entry is found under its own name unless an earlier one answers
to it as well: a directory answers to its name with an empty extension, which may be that
of a file.
-/

namespace KernelC.Fat16

/-- The records of a directory, in the order of the table. -/
def records (fs : FS) (d : Int) : List Shown :=
  (((List.range fsMaxEntries).map fs.entries).filter fun e =>
    e.used && e.parent == d).map Entry.shown

/-- The record as the listing has it. -/
def Shown.listed (x : Shown) : Shown := { x with name := listedName x.name x.isDir }

/-- The record is one that a lookup asks for. -/
def Shown.answers (x : Shown) (name : CStr) (ext : Option CStr) : Bool :=
  x.name == name && (if x.isDir then lookupExt ext == CStr.empty else x.ext == lookupExt ext)

/-- The extension to look the record up with. -/
def Shown.asked (x : Shown) : Option CStr := if x.isDir then none else some x.ext

theorem Shown.answers_self (x : Shown) : x.answers x.name x.asked = true := by
  cases hd : x.isDir with
  | true => simp [Shown.answers, Shown.asked, hd, lookupExt]
  | false => simp [Shown.answers, Shown.asked, hd, lookupExt]

section

variable {fs : FS} {d : Int}

theorem records_eq_nil_iff :
    records fs d = [] ↔
      ∀ i < fsMaxEntries, ¬ ((fs.entries i).used = true ∧ (fs.entries i).parent = d) := by
  rw [records, List.map_eq_nil_iff, List.filter_eq_nil_iff]
  simp only [List.mem_map, List.mem_range, forall_exists_index, and_imp,
    forall_apply_eq_imp_iff₂, Bool.and_eq_true, beq_iff_eq]

/-- `has_children` asks whether there is a record. -/
theorem hasChildren_eq_false_iff (hd : 0 ≤ d ∧ d < fsMaxEntries) :
    hasChildren fs.entries d = false ↔ records fs d = [] := by
  rw [records_eq_nil_iff, hasChildren, if_neg (by omega), List.any_eq_false]
  simp only [List.mem_range, Bool.and_eq_true, beq_iff_eq]

theorem fsRmdir_iff_records (hd : 0 ≤ d ∧ d < fsMaxEntries) :
    (fsRmdir fs d).1 = 0 ↔ 0 < d ∧ IsDirectory fs d.toNat ∧ records fs d = [] := by
  rw [← hasChildren_eq_false_iff hd]
  unfold fsRmdir
  by_cases hroot : d ≤ 0 ∨ d ≥ fsMaxEntries
  · rw [if_pos hroot]
    constructor
    · intro hret
      cases hret
    · rintro ⟨hpos, -⟩
      omega
  · rw [if_neg hroot]
    have hpos : 0 < d := by omega
    have hlt : d.toNat < fsMaxEntries := by omega
    cases hu : (fs.entries d.toNat).used <;> cases hdir : (fs.entries d.toNat).isDir <;>
      cases hc : hasChildren fs.entries d <;>
      simp [IsDirectory, Used, hu, hdir, hlt, hpos]

variable (h : StoreInv fs)

include h

theorem matchAt_eq_answers (name : CStr) (ext : Option CStr) (i : Nat) :
    matchAt fs name ext d i =
      (((fs.entries i).used && (fs.entries i).parent == d) &&
        (fs.entries i).shown.answers name ext) := by
  rw [Bool.eq_iff_iff, matchAt_iff, nameeq_name h, nameeq_ext h]
  cases hdir : (fs.entries i).isDir with
  | true => simp [Shown.answers, Entry.shown, hdir, and_assoc]
  | false => simp [Shown.answers, Entry.shown, hdir, and_assoc]

/-- The lookup returns the first record that answers. -/
theorem fsFindInDir_records (hd : 0 ≤ d ∧ d < fsMaxEntries) (name : CStr) (ext : Option CStr) :
    (fsFindInDir fs (some name) ext d).2.map Entry.shown =
      (records fs d).find? fun x => x.answers name ext := by
  have hmatch : (List.range fsMaxEntries).find? (matchAt fs name ext d) =
      (List.range fsMaxEntries).find? fun i =>
        ((fs.entries i).used && (fs.entries i).parent == d) &&
          (fs.entries i).shown.answers name ext :=
    congrArg (List.find? · _) (funext fun i => matchAt_eq_answers h name ext i)
  unfold fsFindInDir records
  dsimp only
  rw [if_neg (by omega), hmatch]
  simp only [List.find?_map, List.find?_filter, Option.map_map, Function.comp_def,
    Bool.decide_and, Bool.decide_eq_true]
  cases (List.range fsMaxEntries).find? _ with
  | none => rfl
  | some i => rfl

/-- A record is found under its own name if no earlier one answers to it. -/
theorem fsFindInDir_own (hd : 0 ≤ d ∧ d < fsMaxEntries) {u v : List Shown} {x : Shown}
    (hrec : records fs d = u ++ x :: v) (hfirst : ∀ y ∈ u, y.answers x.name x.asked = false) :
    (fsFindInDir fs (some x.name) x.asked d).2.map Entry.shown = some x := by
  have hnone : u.find? (fun y => y.answers x.name x.asked) = none := by
    rw [List.find?_eq_none]
    intro y hy
    rw [hfirst y hy]
    exact Bool.false_ne_true
  rw [fsFindInDir_records h hd, hrec, List.find?_append, hnone, Option.none_or,
    List.find?_cons_of_pos (by exact x.answers_self)]

theorem fsGetAllInDir_records (hd : 0 ≤ d ∧ d < fsMaxEntries) (maxFiles : Int) :
    (fsGetAllInDir fs maxFiles d).map Entry.shown =
      ((records fs d).take maxFiles.toNat).map Shown.listed := by
  rw [fsGetAllInDir_eq (by omega), records, ← List.map_take, List.map_map, List.map_map]
  refine List.map_congr_left fun e he => ?_
  obtain ⟨i, -, rfl⟩ := List.mem_map.mp (List.mem_of_mem_filter (List.mem_of_mem_take he))
  exact shown_listedEntry (h.named i)

end

/-- In every state that calls reach, every directory index has one list of records, in the
order of the table. `fs_get_all_in_dir` hands out its first `max_files` records, a directory
with a slash behind its name if that is shorter than 63; `fs_find_in_dir` hands out the first
record that answers to the name and extension, so it finds a listed entry under its own name
if no earlier one answers to the same; and `fs_rmdir` succeeds exactly on a directory, not the
root, that has no record. -/
theorem listing_agrees {disk : Mem} {calls : List Request} {as : List Answer} {fs : FS}
    (hplay : play FS.call (fsInit disk) calls = some (as, fs)) {d : Int}
    (hd : 0 ≤ d ∧ d < fsMaxEntries) :
    (∀ maxFiles, (fsGetAllInDir fs maxFiles d).map Entry.shown =
      ((records fs d).take maxFiles.toNat).map Shown.listed) ∧
    (∀ name ext, (fsFindInDir fs (some name) ext d).2.map Entry.shown =
      (records fs d).find? fun x => x.answers name ext) ∧
    (∀ u x v, records fs d = u ++ x :: v → (∀ y ∈ u, y.answers x.name x.asked = false) →
      (fsFindInDir fs (some x.name) x.asked d).2.map Entry.shown = some x) ∧
    ((fsRmdir fs d).1 = 0 ↔ 0 < d ∧ IsDirectory fs d.toNat ∧ records fs d = []) := by
  have h := play_invariant refines_store.keeps hplay (storeInv_fsInit disk)
  exact ⟨fsGetAllInDir_records h hd, fsFindInDir_records h hd,
    fun _ _ _ hrec hfirst => fsFindInDir_own h hd hrec hfirst, fsRmdir_iff_records hd⟩

/-- A directory `a`, a file `a` without an extension and a file `a.b`. -/
def namesakes : List Request :=
  [.mkdir (some nameA) 0, .createFile (some nameA) (some CStr.empty) 0,
    .createFile (some nameA) (some nameB) 0]

/-- All three are listed. The lookup of `a` without an extension returns the directory, as it
comes first, and that of `a.b` the last file. The directory can be removed, the root not. -/
theorem listing_agrees_namesakes : ∃ as fs,
    play FS.call (fsInit fun _ => 0) namesakes = some (as, fs) ∧
    (fsGetAllInDir fs 512 0).map Entry.shown =
      [⟨CStr.slash nameA, CStr.empty, 0, true, 0⟩, ⟨nameA, CStr.empty, 0, false, 0⟩,
        ⟨nameA, nameB, 0, false, 0⟩] ∧
    (fsFindInDir fs (some nameA) (some CStr.empty) 0).2.map Entry.shown =
      some ⟨nameA, CStr.empty, 0, true, 0⟩ ∧
    (fsFindInDir fs (some nameA) (some nameB) 0).2.map Entry.shown =
      some ⟨nameA, nameB, 0, false, 0⟩ ∧
    (fsRmdir fs 1).1 = 0 ∧ (fsRmdir fs 0).1 ≠ 0 := by
  have hexec : (play FS.call (fsInit fun _ => 0) namesakes).map
      (fun r => (records r.2 0, records r.2 1, (r.2.entries 1).used && (r.2.entries 1).isDir)) =
      some ([⟨nameA, CStr.empty, 0, true, 0⟩, ⟨nameA, CStr.empty, 0, false, 0⟩,
        ⟨nameA, nameB, 0, false, 0⟩], [], true) := by
    decide +kernel
  obtain ⟨⟨as, fs⟩, hplay, hval⟩ := Option.map_eq_some_iff.mp hexec
  simp only [Prod.mk.injEq, Bool.and_eq_true] at hval
  obtain ⟨hroot, hsub, hdir⟩ := hval
  obtain ⟨hlist, hfind, hown, hrootdir⟩ := listing_agrees hplay (d := 0) ⟨by decide, by decide⟩
  obtain ⟨-, -, -, hsubdir⟩ := listing_agrees hplay (d := 1) ⟨by decide, by decide⟩
  refine ⟨as, fs, hplay, ?_, ?_, ?_, hsubdir.mpr ⟨by decide, ⟨⟨by decide, hdir.1⟩, hdir.2⟩, hsub⟩,
    fun hzero => absurd (hrootdir.mp hzero).1 (by decide)⟩
  · rw [hlist, hroot]
    decide
  · rw [hfind, hroot]
    decide
  · exact hown [⟨nameA, CStr.empty, 0, true, 0⟩, ⟨nameA, CStr.empty, 0, false, 0⟩]
      ⟨nameA, nameB, 0, false, 0⟩ [] hroot (by decide)

end KernelC.Fat16
