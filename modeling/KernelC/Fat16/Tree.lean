import KernelC.Fat16.Ownership

/-!
# The directory tree

`Rooted fs i`: the parents of `i` lead to the root through directories in use.
A call adds or removes one slot. A slot that is added was unused, and a slot
that is removed is a file or an empty directory, so in both cases it is the
parent of no entry in use (`rooted_of_kept`); everything else keeps its `used`,
`parent` and `isDir` fields.

Result: `directory_tree`.
-/

namespace KernelC.Fat16

/-- The parents of the entry lead to the root. -/
inductive Rooted (fs : FS) : Nat → Prop
  | root : Rooted fs fsRootIdx
  | child {i p : Nat} : Used fs i → i ≠ fsRootIdx → (fs.entries i).parent = p →
      IsDirectory fs p → Rooted fs p → Rooted fs i

/-- The root is a directory and every entry in use is under it. -/
structure TreeInv (fs : FS) : Prop where
  rootDir : IsDirectory fs fsRootIdx
  rootParent : (fs.entries fsRootIdx).parent = -1
  rooted : ∀ i, Used fs i → Rooted fs i

/-- The fields of an entry that place it in the tree. -/
structure SamePlace (e e' : Entry) : Prop where
  used : e'.used = e.used
  parent : e'.parent = e.parent
  isDir : e'.isDir = e.isDir

theorem SamePlace.refl (e : Entry) : SamePlace e e := ⟨rfl, rfl, rfl⟩

theorem SamePlace.isDirectory {fs fs' : FS} {i : Nat}
    (h : SamePlace (fs.entries i) (fs'.entries i)) : IsDirectory fs' i ↔ IsDirectory fs i := by
  unfold IsDirectory Used
  rw [h.used, h.isDir]

theorem SamePlace.usedIff {fs fs' : FS} {i : Nat}
    (h : SamePlace (fs.entries i) (fs'.entries i)) : Used fs' i ↔ Used fs i := by
  unfold Used
  rw [h.used]

/-- `k` is the parent of no entry in use. -/
def Childless (fs : FS) (k : Nat) : Prop :=
  ∀ j (p : Nat), Used fs j → (fs.entries j).parent = p → IsDirectory fs p → p ≠ k

/-- A change of slot `k` alone keeps the way from every other entry to the root,
if no entry in use has the parent `k`. -/
theorem rooted_of_kept {fs fs' : FS} {k : Nat}
    (hsame : ∀ j, j ≠ k → SamePlace (fs.entries j) (fs'.entries j))
    (hleaf : Childless fs k)
    {i : Nat} (h : Rooted fs i) (hi : i ≠ k) : Rooted fs' i := by
  induction h with
  | root => exact .root
  | @child i p hu hne hp hdir _ ih =>
    have hpk := hleaf i p hu hp hdir
    refine .child ((hsame i hi).usedIff.mpr hu) hne ?_ ((hsame p hpk).isDirectory.mpr hdir) (ih hpk)
    rw [(hsame i hi).parent, hp]

theorem TreeInv.of_kept {fs fs' : FS} {k : Nat} (h : TreeInv fs) (hk : k ≠ fsRootIdx)
    (hsame : ∀ j, j ≠ k → SamePlace (fs.entries j) (fs'.entries j))
    (hleaf : Childless fs k)
    (hself : Used fs' k → Rooted fs' k) : TreeInv fs' := by
  refine ⟨(hsame _ hk.symm).isDirectory.mpr h.rootDir, ?_, fun i hu => ?_⟩
  · rw [(hsame _ hk.symm).parent, h.rootParent]
  · by_cases hi : i = k
    · subst hi
      exact hself hu
    · exact rooted_of_kept hsame hleaf (h.rooted i ((hsame i hi).usedIff.mp hu)) hi

/-- Nothing moved. -/
theorem TreeInv.of_samePlace {fs fs' : FS} (h : TreeInv fs)
    (hsame : ∀ j, SamePlace (fs.entries j) (fs'.entries j)) : TreeInv fs' := by
  refine h.of_kept (k := fsMaxEntries) (by decide) (fun j _ => hsame j) ?_ ?_
  · intro j p _ _ hdir
    exact Nat.ne_of_lt hdir.1.1
  · exact fun hu => absurd hu.1 (Nat.lt_irrefl _)

/-- A new entry in a free slot. -/
theorem TreeInv.add {fs fs' : FS} (h : TreeInv fs) {i : Nat} {e : Entry} (he : NewEntry fs i e)
    (hent : fs'.entries = Function.update fs.entries i e) : TreeInv fs' := by
  have hsame : ∀ j, j ≠ i → SamePlace (fs.entries j) (fs'.entries j) := fun j hj => by
    rw [hent, Function.update_of_ne hj]
    exact .refl _
  have hi : i ≠ fsRootIdx := Nat.ne_of_gt he.pos
  have hleaf : Childless fs i := by
    intro j p _ _ hdir hpi
    rw [hpi] at hdir
    exact absurd (hdir.1.2.symm.trans he.free) (by decide)
  obtain ⟨p, hp, hdir⟩ := he.parent
  have hpi : p ≠ i := fun hpi => by
    rw [hpi] at hdir
    exact absurd (hdir.1.2.symm.trans he.free) (by decide)
  refine h.of_kept hi hsame hleaf fun hu => .child hu hi ?_ ((hsame p hpi).isDirectory.mpr hdir)
    (rooted_of_kept hsame hleaf (h.rooted p hdir.1) hpi)
  rw [hent, Function.update_self, hp]

/-- A slot that no entry in use has as its parent is given up. -/
theorem TreeInv.clearUsed {fs : FS} (h : TreeInv fs) {fat : Nat → Nat} {i : Nat} (hi : 0 < i)
    (hleaf : Childless fs i) : TreeInv (Fat16.clearUsed { fs with fat := fat } i) := by
  refine h.of_kept (Nat.ne_of_gt hi) (fun j hj => ?_) hleaf fun hu => ?_
  · simp only [Fat16.clearUsed, Function.update_of_ne hj]
    exact .refl _
  · simp only [Used, Fat16.clearUsed, Function.update_self] at hu
    exact absurd hu.2 Bool.false_ne_true

theorem EmptyDir.childless {fs : FS} {i : Nat} (h : EmptyDir fs i) : Childless fs i := by
  intro j p hu hp _ hpi
  rw [hpi] at hp
  exact h.empty j hu.1 hu.2 hp

theorem IsFile.childless {fs : FS} {i : Nat} (h : IsFile fs i) : Childless fs i := by
  intro j p _ _ hdir hpi
  rw [hpi] at hdir
  exact absurd (hdir.2.symm.trans h.2) (by decide)

/-- Writing the contents of an entry moves nothing. -/
theorem writeContents_samePlace (fs : FS) (i : Nat) (data : List UInt8) (j : Nat) :
    SamePlace (fs.entries j) ((writeContents fs i data).2.entries j) := by
  obtain ⟨n, hn⟩ := writeContents_entries fs i data
  rw [hn]
  by_cases hj : j = i
  · subst hj
    rw [Function.update_self]
    exact ⟨rfl, rfl, rfl⟩
  · rw [Function.update_of_ne hj]
    exact .refl _

theorem TreeInv.writeCase {fs : FS} (h : TreeInv fs) {name ext : Option CStr} {parent : Int}
    {data : List UInt8} {r : Int × FS} (hc : WriteCase fs name ext parent data r) :
    TreeInv r.2 := by
  cases hc with
  | refused ret _ => exact h
  | created i c nm _ _ hnew =>
    exact (h.add hnew.toNewEntry rfl).of_samePlace (writeContents_samePlace _ i data)
  | noSpace i _ _ _ => exact h.of_samePlace fun j => .refl _
  | restarted i c _ _ _ _ =>
    refine TreeInv.of_samePlace (h.of_samePlace fun j => ?_) (writeContents_samePlace _ i data)
    by_cases hj : j = i
    · subst hj
      simp only [restart, Function.update_self]
      exact ⟨rfl, rfl, rfl⟩
    · simp only [restart, Function.update_of_ne hj]
      exact .refl _

/-- Every call keeps the tree. -/
theorem TreeInv.step {fs fs' : FS} (h : TreeInv fs) {op : Op}
    (hstep : Fat16.step fs op = some fs') : TreeInv fs' := by
  cases step_cases hstep with
  | kept op => exact h
  | addDir he _ => exact h.add he rfl
  | dropDir _ he => exact h.clearUsed he.pos he.childless
  | addFile he _ => exact h.add he.toNewEntry rfl
  | dropFile hpos hf => exact h.clearUsed hpos hf.childless
  | wrote hcase => exact h.writeCase hcase
  | raw c data =>
    refine h.of_samePlace fun j => ?_
    rw [fsWrite_entries]
    exact .refl _

theorem treeInv_fsInit (disk : Mem) : TreeInv (fsInit disk) := by
  have hroot : IsDirectory (fsInit disk) fsRootIdx := ⟨⟨by decide, rfl⟩, rfl⟩
  refine ⟨hroot, rfl, fun i hu => ?_⟩
  by_cases hi : i = fsRootIdx
  · exact hi ▸ .root
  · have hno := hu.2
    simp only [fsInit, Function.update_of_ne hi, Entry.zero] at hno
    exact absurd hno Bool.false_ne_true

/-! ## Whole runs -/

/-- The index of the parent. -/
def parentOf (fs : FS) (i : Nat) : Nat := (fs.entries i).parent.toNat

theorem Rooted.path {fs : FS} {i : Nat} (h : Rooted fs i) :
    ∃ l, Path (parentOf fs) i l fsRootIdx ∧ fsRootIdx ∉ l := by
  induction h with
  | root => exact ⟨[], rfl, List.not_mem_nil⟩
  | @child i p _ hne hp _ _ ih =>
    obtain ⟨l, hl, hno⟩ := ih
    refine ⟨i :: l, ⟨rfl, ?_⟩, ?_⟩
    · rw [parentOf, hp]
      exact hl
    · rw [List.mem_cons, not_or]
      exact ⟨Ne.symm hne, hno⟩

/-- The directory tree: after any run of calls from `fs_init`, the root is a
directory in use with parent -1, the parent of every other entry in use is a
directory in use, and following the parents from it visits no index twice and
reaches the root. -/
theorem directory_tree {disk : Mem} {ops : List Op} {fs : FS}
    (h : Run step FileCall (fsInit disk) ops fs) :
    IsDirectory fs fsRootIdx ∧ (fs.entries fsRootIdx).parent = -1 ∧
    ∀ i, Used fs i → i ≠ fsRootIdx →
      (∃ p : Nat, (fs.entries i).parent = p ∧ IsDirectory fs p) ∧
      ∃ l, Path (parentOf fs) i l fsRootIdx ∧ (l ++ [fsRootIdx]).Nodup := by
  have hinv : TreeInv fs :=
    h.invariant (fun _ _ _ hs _ hstep => hs.step hstep) (treeInv_fsInit disk)
  refine ⟨hinv.rootDir, hinv.rootParent, fun i hu hi => ⟨?_, ?_⟩⟩
  · cases hinv.rooted i hu with
    | root => exact absurd rfl hi
    | child _ _ hp hdir _ => exact ⟨_, hp, hdir⟩
  · obtain ⟨l, hl, hno⟩ := (hinv.rooted i hu).path
    refine ⟨l, hl, List.nodup_append.mpr ⟨hl.nodup hno, List.nodup_singleton _, ?_⟩⟩
    intro a ha b hb hab
    rw [List.mem_singleton.mp hb] at hab
    exact hno (hab ▸ ha)

theorem directory_tree_mkdir : ∃ fs,
    Run step FileCall (fsInit fun _ => 0) [.mkdir (some nameA) fsRootIdx] fs ∧
    ∃ l, Path (parentOf fs) 1 l fsRootIdx ∧ (l ++ [fsRootIdx]).Nodup := by
  have hr : Run step FileCall (fsInit fun _ => 0) [.mkdir (some nameA) fsRootIdx] _ :=
    .single trivial (step_getD (by decide +kernel))
  exact ⟨_, hr, ((directory_tree hr).2.2 1 ⟨by decide, by decide +kernel⟩ (by decide)).2⟩

end KernelC.Fat16
