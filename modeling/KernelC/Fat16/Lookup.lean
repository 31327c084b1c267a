import KernelC.Fat16.ReadBack
import Mathlib.Tactic.Tauto

/-!
# At most one entry for a name

`fs_mkdir` looks for a directory of the same name, `fs_create_file` for a file of
the same name and extension, and `fs_find_in_dir` for either: with an empty
extension a directory and a file both match. So the lookup is unambiguous as
long as the two kinds do not meet under one name with an empty extension
(`KindsApart`), and not otherwise (`lookup_ambiguous`).

Result: `unambiguous_lookup`.
-/

namespace KernelC.Fat16

/-! ## What the lookup compares -/

/-- The extension that the lookup uses: NULL stands for the empty one. -/
def lookupExt (ext : Option CStr) : CStr := ext.getD CStr.empty

theorem CStr.at_zero_iff {s : CStr} : s.at 0 = 0 ↔ s = CStr.empty := by
  rw [CStr.at_eq_zero_iff]
  constructor
  · intro h
    cases s
    simp only [CStr.empty, CStr.mk.injEq]
    exact List.eq_nil_of_length_eq_zero (Nat.le_zero.mp h)
  · rintro rfl
    exact Nat.le_refl _

/-- The match condition, by the kind of the entry. -/
theorem matchAt_iff {fs : FS} {name : CStr} {ext : Option CStr} {parent : Int} {i : Nat} :
    matchAt fs name ext parent i = true ↔
      (fs.entries i).used = true ∧ (fs.entries i).parent = parent ∧
      nameeq (fs.entries i).name name fsNameMax = true ∧
      (if (fs.entries i).isDir then lookupExt ext = CStr.empty
        else nameeq (fs.entries i).ext (lookupExt ext) fsExtMax = true) := by
  simp only [matchAt, Bool.and_eq_true, beq_iff_eq]
  by_cases hd : (fs.entries i).isDir = true
  · cases ext with
    | none => simp [hd, lookupExt, and_assoc]
    | some ext =>
      simp only [hd, if_true, Bool.and_eq_true, beq_iff_eq, CStr.at_zero_iff, lookupExt,
        Option.getD_some]
      tauto
  · simp only [hd, Bool.false_eq_true, if_false, Bool.and_eq_true, lookupExt]
    tauto

/-- At most one entry matches. -/
def Unambiguous (fs : FS) : Prop :=
  ∀ (name : CStr) (ext : Option CStr) (parent : Int) (i j : Nat),
    i < fsMaxEntries → j < fsMaxEntries →
    matchAt fs name ext parent i = true → matchAt fs name ext parent j = true → i = j

theorem Unambiguous.of_matchAt {fs fs' : FS} (h : Unambiguous fs)
    (hle : ∀ name ext parent i, matchAt fs' name ext parent i = true →
      matchAt fs name ext parent i = true) : Unambiguous fs' :=
  fun name ext parent i j hi hj h1 h2 =>
    h name ext parent i j hi hj (hle _ _ _ _ h1) (hle _ _ _ _ h2)

theorem Unambiguous.of_sameKey {fs fs' : FS} (h : Unambiguous fs)
    (hsame : ∀ j, SameKey (fs.entries j) (fs'.entries j)) : Unambiguous fs' :=
  h.of_matchAt fun _ _ _ i hm => by rwa [matchAt_congr (hsame i)] at hm

/-- A new entry keeps the lookup unambiguous if nothing that it matches was
matched before. -/
theorem Unambiguous.add {fs fs' : FS} {k : Nat} {e : Entry} (h : Unambiguous fs)
    (hent : fs'.entries = Function.update fs.entries k e)
    (hnew : ∀ name ext parent j, j < fsMaxEntries → j ≠ k →
      matchAt fs' name ext parent k = true → matchAt fs name ext parent j = false) :
    Unambiguous fs' := by
  have hold : ∀ {name ext parent j}, j ≠ k → matchAt fs' name ext parent j =
      matchAt fs name ext parent j := by
    intro name ext parent j hj
    exact matchAt_congr (.of_eq (by rw [hent, Function.update_of_ne hj]))
  intro name ext parent i j hi hj h1 h2
  by_cases hik : i = k
  · by_cases hjk : j = k
    · rw [hik, hjk]
    · rw [hik] at h1
      rw [hold hjk, hnew name ext parent j hj hjk h1] at h2
      cases h2
  · by_cases hjk : j = k
    · rw [hjk] at h2
      rw [hold hik, hnew name ext parent i hi hik h2] at h1
      cases h1
    · rw [hold hik] at h1
      rw [hold hjk] at h2
      exact h name ext parent i j hi hj h1 h2

/-! ## The calls -/

/-- Names and extensions of fewer than 64 characters. -/
def ShortNames : Op → Prop
  | .mkdir name _ => ∀ nm ∈ name, nm.length < fsNameMax
  | .createFile name ext _ | .writeFileInDir name ext _ _ =>
    (∀ nm ∈ name, nm.length < fsNameMax) ∧ ∀ x ∈ ext, x.length < fsExtMax
  | _ => True

/-- Every entry that the lookup matches is of the kind `dir`. -/
def MatchesKind (fs : FS) (name : CStr) (ext : Option CStr) (parent : Int) (dir : Bool) : Prop :=
  ∀ i, i < fsMaxEntries → matchAt fs name ext parent i = true → (fs.entries i).isDir = dir

/-- `fs_mkdir` gets no name of a file without extension, and `fs_create_file`
not the name of a directory together with an empty extension. -/
def KindsApart (fs : FS) : Op → Prop
  | .mkdir name parent => ∀ nm ∈ name, MatchesKind fs nm (some CStr.empty) parent true
  | .createFile name ext parent => ∀ nm ∈ name, MatchesKind fs nm ext parent false
  | _ => True

/-- Where `fs_create_file` makes a file, the duplicate test failed everywhere. -/
theorem dupFileAt_of_created {fs fs' : FS} {nm : CStr} {ext : Option CStr} {parent : Int}
    {i : Nat} {out : Option Nat}
    (h : fsCreateFile fs (some nm) ext parent = some ((i : Int), out, fs')) :
    ∀ j, j < fsMaxEntries → dupFileAt fs nm ext parent j = false := by
  intro j hj
  unfold fsCreateFile at h
  dsimp only at h
  split at h
  · cases h
  · split at h
    · cases h
    · cases hdup : (List.range fsMaxEntries).find? (dupFileAt fs nm ext parent) with
      | some _ =>
        rw [hdup] at h
        cases ext <;> cases h
      | none =>
        have hno := List.find?_eq_none.mp hdup j (List.mem_range.mpr hj)
        simpa using hno

/-- A directory that `fs_mkdir` made matches its own name only. -/
theorem matchAt_dirEntry {fs : FS} {nm name : CStr} {ext : Option CStr} {p parent : Int} {i : Nat}
    (hn : nm.length < fsNameMax) (he : fs.entries i = dirEntry nm p) :
    matchAt fs name ext parent i = true ↔
      parent = p ∧ name = nm ∧ lookupExt ext = CStr.empty := by
  have hname : nameeq (dirEntry nm p).name name fsNameMax = true ↔ name = nm :=
    nameeq_storeField List.length_replicate hn
  rw [matchAt_iff, he, hname]
  simp only [dirEntry, true_and, if_true]
  constructor
  · rintro ⟨rfl, rfl, hx⟩
    exact ⟨rfl, rfl, hx⟩
  · rintro ⟨rfl, rfl, hx⟩
    exact ⟨rfl, rfl, hx⟩

/-- A file that `fs_create_file` made matches its own name and extension only. -/
theorem matchAt_newFile {fs : FS} {nm name : CStr} {x ext : Option CStr} {p parent : Int}
    {i c n : Nat} (hn : nm.length < fsNameMax) (hx : ∀ e ∈ x, e.length < fsExtMax)
    (he : fs.entries i = { fileEntry nm x p c with size := n }) :
    matchAt fs name ext parent i = true ↔
      parent = p ∧ name = nm ∧ lookupExt ext = lookupExt x := by
  have hname : nameeq (fileEntry nm x p c).name name fsNameMax = true ↔ name = nm :=
    nameeq_storeField List.length_replicate hn
  have hext : nameeq (fileEntry nm x p c).ext (lookupExt ext) fsExtMax = true ↔
      lookupExt ext = lookupExt x := by
    cases x with
    | none =>
      refine nameeq_iff (s := CStr.empty) (by decide) fun j hj => ?_
      have hall : ∀ j < fsExtMax, (Entry.zero.ext.set (fsExtMax - 1) 0).getD j 0 = 0 := by decide
      exact (hall j hj).trans (CStr.at_eq_zero_iff.mpr (Nat.zero_le _)).symm
    | some x => exact nameeq_storeField List.length_replicate (hx x rfl)
  rw [matchAt_iff, he]
  simp only [hname, hext]
  simp only [fileEntry, Entry.zero, true_and, Bool.false_eq_true, if_false]
  constructor
  · rintro ⟨rfl, rfl, hx⟩
    exact ⟨rfl, rfl, hx⟩
  · rintro ⟨rfl, rfl, hx⟩
    exact ⟨rfl, rfl, hx⟩

/-- A new directory: a directory of that name would be a duplicate, and a file
of that name has an extension. -/
theorem Unambiguous.addDir {fs : FS} (h : Unambiguous fs) {i : Nat} {nm : CStr} {parent : Int}
    (hn : nm.length < fsNameMax) (hdup : ∀ j, j < fsMaxEntries → dupDirAt fs nm parent j = false)
    (hkind : MatchesKind fs nm (some CStr.empty) parent true) :
    Unambiguous { fs with entries := Function.update fs.entries i (dirEntry nm parent) } := by
  refine h.add rfl fun name ext p j hj _ hm => ?_
  obtain ⟨rfl, rfl, hx⟩ := (matchAt_dirEntry hn (Function.update_self _ _ _)).mp hm
  by_contra hold
  rw [Bool.not_eq_false] at hold
  have hmatch : matchAt fs name (some CStr.empty) p j = true := by
    rw [matchAt_iff] at hold ⊢
    rwa [hx] at hold
  have hdir := hkind j hj hmatch
  obtain ⟨hu, hp, hname, -⟩ := matchAt_iff.mp hold
  have hno := hdup j hj
  simp [dupDirAt, hu, hp, hname, hdir] at hno

/-- A new file: a file of that name and extension would be a duplicate, and a
directory is matched by no file with an extension. -/
theorem Unambiguous.addFile {fs : FS} (h : Unambiguous fs) {i c : Nat} {nm : CStr}
    {ext : Option CStr} {parent : Int} (hn : nm.length < fsNameMax)
    (hx : ∀ e ∈ ext, e.length < fsExtMax)
    (hno : ∀ j, j < fsMaxEntries → matchAt fs nm ext parent j = false) :
    Unambiguous (Fat16.addFile fs i c (fileEntry nm ext parent c)) := by
  refine h.add rfl fun name x p j hj _ hm => ?_
  obtain ⟨rfl, rfl, hext⟩ := (matchAt_newFile hn hx (n := 0) (Function.update_self _ _ _)).mp hm
  by_contra hold
  rw [Bool.not_eq_false] at hold
  refine absurd ?_ (ne_of_eq_of_ne (hno j hj) Bool.false_ne_true)
  rw [matchAt_iff] at hold ⊢
  rwa [hext] at hold

/-- A file that is no duplicate does not match. -/
theorem matchAt_file_of_noDup {fs : FS} {nm : CStr} {ext : Option CStr} {parent : Int} {j : Nat}
    (hdup : dupFileAt fs nm ext parent j = false) (hfile : (fs.entries j).isDir = false) :
    matchAt fs nm ext parent j = false := by
  by_contra hm
  rw [Bool.not_eq_false] at hm
  obtain ⟨hu, hp, hname, hext⟩ := matchAt_iff.mp hm
  rw [hfile, if_neg Bool.false_ne_true] at hext
  cases ext with
  | none => simp [dupFileAt, hu, hp, hname, hfile] at hdup
  | some ext =>
    have hext' : nameeq (fs.entries j).ext ext fsExtMax = true := hext
    simp [dupFileAt, hu, hp, hname, hfile, hext'] at hdup

/-- Where the duplicate test of `fs_create_file` fails everywhere and the name
is not a directory's, nothing matches. -/
theorem matchAt_of_noDup {fs : FS} {nm : CStr} {ext : Option CStr} {parent : Int}
    (hdup : ∀ j, j < fsMaxEntries → dupFileAt fs nm ext parent j = false)
    (hkind : MatchesKind fs nm ext parent false) :
    ∀ j, j < fsMaxEntries → matchAt fs nm ext parent j = false := by
  intro j hj
  by_contra hm
  rw [Bool.not_eq_false] at hm
  rw [matchAt_file_of_noDup (hdup j hj) (hkind j hj hm)] at hm
  cases hm

theorem Unambiguous.clearUsed {fs : FS} (h : Unambiguous fs) (fat : Nat → Nat) (i : Nat) :
    Unambiguous (Fat16.clearUsed { fs with fat := fat } i) := by
  refine h.of_matchAt fun name ext parent j hm => ?_
  by_cases hj : j = i
  · subst hj
    simp [matchAt, Fat16.clearUsed] at hm
  · simpa [matchAt, Fat16.clearUsed, Function.update_of_ne hj] using hm

theorem Unambiguous.writeCase {fs : FS} (h : Unambiguous fs) {name ext : Option CStr}
    {parent : Int} {data : List UInt8} {r : Int × FS}
    (hn : ∀ nm ∈ name, nm.length < fsNameMax) (hx : ∀ x ∈ ext, x.length < fsExtMax)
    (hc : WriteCase fs name ext parent data r) : Unambiguous r.2 := by
  cases hc with
  | refused ret _ => exact h
  | created i c nm hnm hfind hnew =>
    subst hnm
    obtain ⟨p, hp, hdir⟩ := hnew.parent
    change parent = (p : Int) at hp
    subst hp
    have hno := matchAt_eq_false_of_find hdir.1.1 hfind
    exact (h.addFile (hn nm rfl) hx hno).of_sameKey (writeContents_sameKey _ i data)
  | noSpace i _ _ _ => exact h
  | restarted i c _ _ _ _ =>
    exact (h.of_sameKey (restart_sameKey fs i c _)).of_sameKey (writeContents_sameKey _ i data)

/-- Every call with short names keeps the lookup unambiguous, if it does not
bring the two kinds together. -/
theorem Unambiguous.step {fs fs' : FS} (h : Unambiguous fs) {op : Op} (hs : ShortNames op)
    (hk : KindsApart fs op) (hstep : Fat16.step fs op = some fs') : Unambiguous fs' := by
  cases step_cases hstep with
  | kept op => exact h
  | @addDir i nm parent _ hdup => exact h.addDir (hs nm rfl) hdup (hk nm rfl)
  | dropDir _ _ => exact h.clearUsed fs.fat _
  | @addFile i c nm ext parent _ hret =>
    exact h.addFile (hs.1 nm rfl) hs.2 (matchAt_of_noDup (dupFileAt_of_created hret) (hk nm rfl))
  | dropFile _ _ => exact h.clearUsed _ _
  | wrote hcase => exact h.writeCase hs.1 hs.2 hcase
  | raw c data => exact h.of_sameKey fun j => .of_eq (by rw [fsWrite_entries])

theorem unambiguous_fsInit (disk : Mem) : Unambiguous (fsInit disk) := by
  have hroot : ∀ {name ext parent i}, matchAt (fsInit disk) name ext parent i = true →
      i = fsRootIdx := by
    intro name ext parent i hm
    by_contra hi
    simp [matchAt, fsInit, Function.update_of_ne hi, Entry.zero] at hm
  intro name ext parent i j _ _ h1 h2
  rw [hroot h1, hroot h2]

/-! ## Whole runs -/

/-- What the lookup finds is what matches. -/
theorem Unambiguous.find {fs : FS} (h : Unambiguous fs) {name : CStr} {ext : Option CStr}
    {p i : Nat} (hp : p < fsMaxEntries) (hi : i < fsMaxEntries)
    (hm : matchAt fs name ext p i = true) : (fsFindInDir fs (some name) ext p).1 = i := by
  rw [fsFindInDir_eq hp hi hm fun j hj => ?_]
  by_contra hother
  rw [Bool.not_eq_false] at hother
  exact absurd (h name ext p j i (by omega) hi hother hm) (Nat.ne_of_lt hj)

/-- After any run of calls with short names that keep the two kinds apart, at
most one entry in use matches a name, an extension and a parent; and the entry
that a further such call of `fs_mkdir` or `fs_create_file` makes is the one that
the lookup then finds. -/
theorem unambiguous_lookup {disk : Mem} {ops : List Op} {fs : FS}
    (h : Run step (fun fs op => ShortNames op ∧ KindsApart fs op) (fsInit disk) ops fs) :
    Unambiguous fs ∧
    (∀ (name : CStr) (parent idx : Int) (fs' : FS) (ext : Option CStr),
      ShortNames (.mkdir (some name) parent) → KindsApart fs (.mkdir (some name) parent) →
      fsMkdir fs (some name) parent = (idx, fs') → 0 ≤ idx → lookupExt ext = CStr.empty →
      (fsFindInDir fs' (some name) ext parent).1 = idx) ∧
    (∀ (name : CStr) (ext : Option CStr) (parent idx : Int) (out : Option Nat) (fs' : FS),
      ShortNames (.createFile (some name) ext parent) →
      KindsApart fs (.createFile (some name) ext parent) →
      fsCreateFile fs (some name) ext parent = some (idx, out, fs') → 0 ≤ idx →
      (fsFindInDir fs' (some name) ext parent).1 = idx) := by
  have hinv : Unambiguous fs :=
    h.invariant (fun _ _ _ hs ho hstep => hs.step ho.1 ho.2 hstep) (unambiguous_fsInit disk)
  refine ⟨hinv, ?_, ?_⟩
  · intro name parent idx fs' ext hs hk hret hidx hext
    rcases fsMkdir_made fs (some name) parent with ⟨ret, hneg, heq⟩ | ⟨i, nm, hnm, hnew, hdup, heq⟩
    · rw [hret] at heq
      cases heq
      omega
    · cases hnm
      rw [hret] at heq
      cases heq
      obtain ⟨p, hp, hdir⟩ := hnew.parent
      change parent = (p : Int) at hp
      subst hp
      refine (hinv.addDir (hs name rfl) hdup (hk name rfl)).find hdir.1.1 hnew.lt ?_
      exact (matchAt_dirEntry (hs name rfl) (Function.update_self _ _ _)).mpr ⟨rfl, rfl, hext⟩
  · intro name ext parent idx out fs' hs hk hret hidx
    rcases fsCreateFile_cases fs (some name) ext parent with
      ⟨-, heq⟩ | ⟨ret, out', hneg, heq⟩ | ⟨i, c, nm, hnm, hnew, heq⟩
    · rw [hret] at heq
      cases heq
    · rw [hret] at heq
      cases heq
      omega
    · cases hnm
      have hno := matchAt_of_noDup (dupFileAt_of_created heq) (hk name rfl)
      rw [hret] at heq
      cases heq
      obtain ⟨p, hp, hdir⟩ := hnew.parent
      change parent = (p : Int) at hp
      subst hp
      refine (hinv.addFile (hs.1 name rfl) hs.2 hno).find hdir.1.1 hnew.lt ?_
      exact (matchAt_newFile (hs.1 name rfl) hs.2 (n := 0) (Function.update_self _ _ _)).mpr
        ⟨rfl, rfl, rfl⟩

instance : (op : Op) → Decidable (ShortNames op)
  | .mkdir _ _ => inferInstanceAs (Decidable (∀ _ ∈ _, _))
  | .createFile _ _ _ => inferInstanceAs (Decidable ((∀ _ ∈ _, _) ∧ ∀ _ ∈ _, _))
  | .writeFileInDir _ _ _ _ => inferInstanceAs (Decidable ((∀ _ ∈ _, _) ∧ ∀ _ ∈ _, _))
  | .rmdir _ => inferInstanceAs (Decidable True)
  | .removeEntry _ => inferInstanceAs (Decidable True)
  | .write _ _ => inferInstanceAs (Decidable True)

instance (fs : FS) (name : CStr) (ext : Option CStr) (parent : Int) (dir : Bool) :
    Decidable (MatchesKind fs name ext parent dir) :=
  inferInstanceAs (Decidable (∀ i, i < fsMaxEntries → _))

instance (fs : FS) : (op : Op) → Decidable (KindsApart fs op)
  | .mkdir _ _ => inferInstanceAs (Decidable (∀ _ ∈ _, _))
  | .createFile _ _ _ => inferInstanceAs (Decidable (∀ _ ∈ _, _))
  | .writeFileInDir _ _ _ _ => inferInstanceAs (Decidable True)
  | .rmdir _ => inferInstanceAs (Decidable True)
  | .removeEntry _ => inferInstanceAs (Decidable True)
  | .write _ _ => inferInstanceAs (Decidable True)

/-- A directory `a` and beside it a file `a.b`: the two kinds share a name, but
not with an empty extension. -/
theorem unambiguous_lookup_dirAndFile : ∃ fs,
    Run step (fun fs op => ShortNames op ∧ KindsApart fs op) (fsInit fun _ => 0)
      [.mkdir (some nameA) fsRootIdx, .createFile (some nameA) (some nameB) fsRootIdx] fs ∧
    matchAt fs nameA (some CStr.empty) fsRootIdx 1 = true ∧
    matchAt fs nameA (some nameB) fsRootIdx 2 = true ∧ Unambiguous fs := by
  have hexec : (exec step (fun fs op => ShortNames op ∧ KindsApart fs op) (fsInit fun _ => 0)
      [.mkdir (some nameA) fsRootIdx, .createFile (some nameA) (some nameB) fsRootIdx]).map
      (fun fs => (matchAt fs nameA (some CStr.empty) fsRootIdx 1,
        matchAt fs nameA (some nameB) fsRootIdx 2)) = some (true, true) := by
    decide +kernel
  obtain ⟨fs, hfs, hval⟩ := Option.map_eq_some_iff.mp hexec
  obtain ⟨h1, h2⟩ := Prod.mk.inj hval
  exact ⟨fs, Run.of_exec hfs, h1, h2, (unambiguous_lookup (Run.of_exec hfs)).1⟩

/-- A directory `a`, then a file `a` without extension: both match, and the
lookup of the new file, slot 2, finds the directory, slot 1. -/
theorem lookup_ambiguous :
    ¬ ∀ (disk : Mem) (ops : List Op) (fs : FS),
      Run step (fun _ op => ShortNames op) (fsInit disk) ops fs →
      Unambiguous fs ∧
      ∀ (name : CStr) (ext : Option CStr) (parent idx : Int) (out : Option Nat) (fs' : FS),
        ShortNames (.createFile (some name) ext parent) →
        fsCreateFile fs (some name) ext parent = some (idx, out, fs') → 0 ≤ idx →
        (fsFindInDir fs' (some name) ext parent).1 = idx := by
  intro hall
  have hexec : (exec step (fun _ op => ShortNames op) (fsInit fun _ => 0)
      [.mkdir (some nameA) fsRootIdx]).map
      (fun fs => (fsCreateFile fs (some nameA) (some CStr.empty) fsRootIdx).map fun r =>
        (r.1, (fsFindInDir r.2.2 (some nameA) (some CStr.empty) fsRootIdx).1)) =
      some (some (2, 1)) := by
    decide +kernel
  obtain ⟨fs, hfs, hval⟩ := Option.map_eq_some_iff.mp hexec
  obtain ⟨⟨idx, out, fs'⟩, hcreate, hpair⟩ := Option.map_eq_some_iff.mp hval
  obtain ⟨hidx, hfind⟩ := Prod.mk.inj hpair
  simp only at hidx
  subst hidx
  have hsame := (hall _ _ fs (Run.of_exec hfs)).2 nameA (some CStr.empty) fsRootIdx 2 out fs'
    (by decide) hcreate (by decide)
  simp only [hsame] at hfind
  exact absurd hfind (by decide)

end KernelC.Fat16
