import KernelC.Fat16.Capacity
import KernelC.Fat16.Lookup
import KernelC.Fat16.Tree

/-!
# Long names and duplicates

A name is stored in a buffer of 64 bytes, cut to 63 characters, but compared as it
was given. So a name of 64 characters or more never compares equal to what was
stored for it, and the tests for duplicates, and the lookup, miss the entry
(`long_name_twice`). With shorter names the tests work: repeating a call that made
an entry is refused, and no two entries of one kind in a directory have the same
stored name and extension (`no_duplicate_names`).
-/

namespace KernelC.Fat16

theorem CStr.eq_take_iff {s : CStr} {n : Nat} (hn : 0 < n) :
    s = s.take (n - 1) ↔ s.length < n := by
  constructor
  · intro h
    have hlen := congrArg CStr.length h
    rw [CStr.length_take] at hlen
    omega
  · intro h
    rw [CStr.take_of_length_le (by omega)]

/-! ## The duplicate tests at a new entry -/

theorem dupDirAt_dirEntry {fs : FS} {nm : CStr} {parent : Int} {i : Nat}
    (he : fs.entries i = dirEntry nm parent) :
    dupDirAt fs nm parent i = true ↔ nm.length < fsNameMax := by
  have hname : nameeq (dirEntry nm parent).name nm fsNameMax = true ↔ nm.length < fsNameMax :=
    (nameeq_storeField_iff List.length_replicate (by decide)).trans
      (CStr.eq_take_iff (by decide))
  simp only [dupDirAt, he, Bool.and_eq_true, hname]
  simp [dirEntry]

theorem dupFileAt_fileEntry {fs : FS} {nm ext : CStr} {parent : Int} {i c : Nat}
    (he : fs.entries i = fileEntry nm (some ext) parent c) :
    dupFileAt fs nm (some ext) parent i = true ↔
      nm.length < fsNameMax ∧ ext.length < fsExtMax := by
  have hname : nameeq (fileEntry nm (some ext) parent c).name nm fsNameMax = true ↔
      nm.length < fsNameMax :=
    (nameeq_storeField_iff List.length_replicate (by decide)).trans
      (CStr.eq_take_iff (by decide))
  have hext : nameeq (fileEntry nm (some ext) parent c).ext ext fsExtMax = true ↔
      ext.length < fsExtMax :=
    (nameeq_storeField_iff List.length_replicate (by decide)).trans
      (CStr.eq_take_iff (by decide))
  simp only [dupFileAt, he, Bool.and_eq_true, hname, hext]
  simp [fileEntry, Entry.zero]

/-- A directory that was there before the call is one after it. -/
theorem NewEntry.isDirectory {fs fs' : FS} {i p : Nat} {e : Entry} (h : NewEntry fs i e)
    (hent : fs'.entries = Function.update fs.entries i e) (hp : IsDirectory fs p) :
    IsDirectory fs' p := by
  have hpi : p ≠ i := fun hpi => by
    rw [hpi] at hp
    exact absurd (hp.1.2.symm.trans h.free) (by decide)
  unfold IsDirectory Used
  rw [hent, Function.update_of_ne hpi]
  exact hp

/-- The same call of `fs_mkdir` after it made a directory. -/
theorem fsMkdir_again {fs fs' : FS} {nm : CStr} {parent idx : Int}
    (hret : fsMkdir fs (some nm) parent = (idx, fs')) (hidx : 0 ≤ idx) :
    fsMkdir fs' (some nm) parent = (-3, fs') ↔ nm.length < fsNameMax := by
  rcases fsMkdir_made fs (some nm) parent with ⟨ret, hneg, heq⟩ | ⟨i, nm', hnm, hnew, hdup, heq⟩
  · rw [hret] at heq
    cases heq
    omega
  cases hnm
  rw [hret] at heq
  cases heq
  obtain ⟨p, hp, hdir⟩ := hnew.parent
  change parent = (p : Int) at hp
  subst hp
  have hdir' : IsDirectory
      { fs with entries := Function.update fs.entries i (dirEntry nm p) } p :=
    hnew.isDirectory rfl hdir
  generalize hfs : ({ fs with entries := Function.update fs.entries i (dirEntry nm p) } : FS) = fs'
    at hdir'
  have hself : fs'.entries i = dirEntry nm p := by
    rw [← hfs]
    exact Function.update_self _ _ _
  -- only the new slot can be a duplicate
  have hany : (List.range fsMaxEntries).any (dupDirAt fs' nm p) = true ↔ nm.length < fsNameMax := by
    rw [← dupDirAt_dirEntry hself, List.any_eq_true]
    constructor
    · rintro ⟨j, hj, hd⟩
      by_cases hji : j = i
      · rwa [hji] at hd
      · have hold : dupDirAt fs' nm p j = dupDirAt fs nm p j := by
          simp only [dupDirAt, ← hfs, Function.update_of_ne hji]
        rw [hold, hdup j (List.mem_range.mp hj)] at hd
        cases hd
    · exact fun hd => ⟨i, List.mem_range.mpr hnew.lt, hd⟩
  have hlt := hdir'.1.1
  unfold fsMkdir
  dsimp only
  rw [if_neg (by omega), if_neg (by simp [hdir'.1.2, hdir'.2]), ← hany]
  by_cases hd : (List.range fsMaxEntries).any (dupDirAt fs' nm p) = true
  · rw [if_pos hd]
    exact ⟨fun _ => hd, fun _ => rfl⟩
  · rw [if_neg hd]
    refine ⟨fun h => ?_, fun h => absurd h hd⟩
    cases hf : findFreeEntry fs'.entries with
    | none =>
      rw [hf] at h
      exact absurd (congrArg Prod.fst h) (by simp)
    | some k =>
      rw [hf] at h
      exact absurd (congrArg Prod.fst h) (by simp only; omega)

/-- The same call of `fs_create_file` after it made a file. -/
theorem fsCreateFile_again {fs fs' : FS} {nm ext : CStr} {parent idx : Int} {out : Option Nat}
    (hret : fsCreateFile fs (some nm) (some ext) parent = some (idx, out, fs')) (hidx : 0 ≤ idx) :
    fsCreateFile fs' (some nm) (some ext) parent = some (-3, none, fs') ↔
      nm.length < fsNameMax ∧ ext.length < fsExtMax := by
  rcases fsCreateFile_cases fs (some nm) (some ext) parent with
    ⟨he, -⟩ | ⟨ret, out', hneg, heq⟩ | ⟨i, c, nm', hnm, hnew, heq⟩
  · cases he
  · rw [hret] at heq
    cases heq
    omega
  cases hnm
  have hdup := dupFileAt_of_created heq
  rw [hret] at heq
  cases heq
  obtain ⟨p, hp, hdir⟩ := hnew.parent
  change parent = (p : Int) at hp
  subst hp
  have hdir' : IsDirectory (addFile fs i c (fileEntry nm (some ext) p c)) p :=
    hnew.toNewEntry.isDirectory rfl hdir
  generalize hfs : addFile fs i c (fileEntry nm (some ext) p c) = fs' at hdir'
  have hself : fs'.entries i = fileEntry nm (some ext) p c := by
    rw [← hfs]
    exact Function.update_self _ _ _
  have hold : ∀ j, j ≠ i → dupFileAt fs' nm (some ext) p j = dupFileAt fs nm (some ext) p j := by
    intro j hj
    simp only [dupFileAt, ← hfs, addFile, Function.update_of_ne hj]
  have hlt := hdir'.1.1
  unfold fsCreateFile
  dsimp only
  rw [if_neg (by omega), if_neg (by simp [hdir'.1.2, hdir'.2]), ← dupFileAt_fileEntry hself]
  cases hf : (List.range fsMaxEntries).find? (dupFileAt fs' nm (some ext) p) with
  | some j =>
    have hd := List.find?_some hf
    by_cases hji : j = i
    · rw [hji] at hd
      exact ⟨fun _ => hd, fun _ => rfl⟩
    · have hj := List.mem_range.mp (List.mem_of_find?_eq_some hf)
      rw [hold j hji, hdup j hj] at hd
      cases hd
  | none =>
    have hno := List.find?_eq_none.mp hf i (List.mem_range.mpr hnew.lt)
    refine ⟨fun h => ?_, fun h => absurd h hno⟩
    dsimp only at h
    split at h
    · cases h
    · split at h
      · cases h
      · exact absurd (congrArg (·.map Prod.fst) h) (by simp only [Option.map_some]; simp)

/-! ## Stored names are terminated -/

/-- The last byte of every stored name and extension is 0. -/
def Terminated (fs : FS) : Prop :=
  ∀ i, (fs.entries i).name.getD (fsNameMax - 1) 0 = 0 ∧ (fs.entries i).ext.getD (fsExtMax - 1) 0 = 0

theorem storeField_terminated {max : Nat} {field : List UInt8} (s : CStr)
    (hlen : field.length = max) (hmax : 0 < max) :
    (storeField max field s).getD (max - 1) 0 = 0 := by
  rw [storeField_getD hlen (by omega), CStr.at_eq_zero_iff, CStr.length_take]
  omega

section

variable {fs fs' : FS} {i : Nat}

theorem Terminated.of_names (h : Terminated fs)
    (hsame : ∀ j, (fs'.entries j).name = (fs.entries j).name ∧
      (fs'.entries j).ext = (fs.entries j).ext) : Terminated fs' := by
  intro j
  rw [(hsame j).1, (hsame j).2]
  exact h j

theorem Terminated.of_sameKey (h : Terminated fs)
    (hsame : ∀ j, SameKey (fs.entries j) (fs'.entries j)) : Terminated fs' :=
  h.of_names fun j => ⟨(hsame j).name, (hsame j).ext⟩

/-- A new record in slot `i`. -/
theorem Terminated.add {e : Entry} (h : Terminated fs)
    (hent : fs'.entries = Function.update fs.entries i e)
    (he : e.name.getD (fsNameMax - 1) 0 = 0 ∧ e.ext.getD (fsExtMax - 1) 0 = 0) :
    Terminated fs' := by
  intro j
  rw [hent]
  by_cases hj : j = i
  · subst hj
    rw [Function.update_self]
    exact he
  · rw [Function.update_of_ne hj]
    exact h j

theorem Terminated.addFile (h : Terminated fs) (nm : CStr) (ext : Option CStr) (parent : Int)
    (i c : Nat) : Terminated (Fat16.addFile fs i c (fileEntry nm ext parent c)) := by
  refine h.add rfl ⟨storeField_terminated nm List.length_replicate (by decide), ?_⟩
  cases ext with
  | none => exact (by decide : (Entry.zero.ext.set (fsExtMax - 1) 0).getD (fsExtMax - 1) 0 = 0)
  | some ext => exact storeField_terminated ext List.length_replicate (by decide)

theorem Terminated.clearUsed (h : Terminated fs) (fat : Nat → Nat) (i : Nat) :
    Terminated (Fat16.clearUsed { fs with fat := fat } i) := by
  refine h.of_names fun j => ?_
  by_cases hj : j = i
  · subst hj
    simp only [Fat16.clearUsed, Function.update_self, and_self]
  · simp only [Fat16.clearUsed, Function.update_of_ne hj, and_self]

end

theorem Terminated.step {fs fs' : FS} (h : Terminated fs) {op : Op}
    (hstep : Fat16.step fs op = some fs') : Terminated fs' := by
  cases step_cases hstep with
  | kept op => exact h
  | addDir _ _ =>
    exact h.add rfl ⟨storeField_terminated _ List.length_replicate (by decide),
      (by decide : (Entry.zero.ext.set 0 0).getD (fsExtMax - 1) 0 = 0)⟩
  | dropDir _ _ => exact h.clearUsed fs.fat _
  | addFile _ _ => exact h.addFile _ _ _ _ _
  | dropFile _ _ => exact h.clearUsed _ _
  | wrote hcase =>
    cases hcase with
    | refused ret _ => exact h
    | created i c nm _ _ _ =>
      exact (h.addFile nm _ _ i c).of_sameKey (writeContents_sameKey _ i _)
    | noSpace i _ _ _ => exact h
    | restarted i c _ _ _ _ =>
      exact (h.of_sameKey (restart_sameKey fs i c _)).of_sameKey (writeContents_sameKey _ i _)
  | raw c data => exact h.of_sameKey fun j => .of_eq (by rw [fsWrite_entries])

theorem terminated_fsInit (disk : Mem) : Terminated (fsInit disk) := by
  have hblank : Entry.zero.name.getD (fsNameMax - 1) 0 = 0 ∧
      Entry.zero.ext.getD (fsExtMax - 1) 0 = 0 := by decide
  have hzero : Terminated { fsInit disk with entries := fun _ => Entry.zero } := fun _ => hblank
  exact hzero.add rfl ⟨storeField_terminated _ List.length_replicate (by decide), by decide⟩

/-- A name or extension that is too long matches nothing. -/
theorem Terminated.matchAt_long {fs : FS} (h : Terminated fs) {nm ext : CStr}
    (hlong : ¬ (nm.length < fsNameMax ∧ ext.length < fsExtMax)) (parent : Int) (j : Nat) :
    matchAt fs nm (some ext) parent j = false := by
  by_contra hm
  rw [Bool.not_eq_false] at hm
  obtain ⟨-, -, hname, hext⟩ := matchAt_iff.mp hm
  by_cases hn : nm.length < fsNameMax
  · have hx : fsExtMax ≤ ext.length := by
      by_contra hx
      exact hlong ⟨hn, by omega⟩
    by_cases hd : (fs.entries j).isDir = true
    · rw [if_pos hd] at hext
      have hlen : ext.length = 0 := congrArg CStr.length hext
      rw [hlen] at hx
      exact absurd hx (by decide)
    · rw [if_neg hd] at hext
      have hno : nameeq (fs.entries j).ext ext fsExtMax = false :=
        nameeq_long (h j).2 (by decide) hx
      exact absurd (hno.symm.trans hext) (by decide)
  · rw [nameeq_long (h j).1 (by decide) (by omega)] at hname
    cases hname

/-! ## Writing twice -/

/-- A write to a name that is there makes no entry. -/
theorem write_keeps_used {fs fs' : FS} {name ext : Option CStr} {parent ret : Int}
    {data : List UInt8} {i : Nat} (hfind : (fsFindInDir fs name ext parent).1 = i)
    (hw : fsWriteFileInDir fs name ext parent data = some (ret, fs')) (j : Nat) :
    (fs'.entries j).used = (fs.entries j).used := by
  rcases fsWriteFileInDir_cases fs name ext parent data with ⟨-, hr⟩ | ⟨r, hr, hcase⟩
  · rw [hw] at hr
    cases hr
  rw [hw] at hr
  obtain rfl := Option.some.inj hr
  generalize hres : (ret, fs') = r at hcase
  cases hcase with
  | refused ret' _ =>
    cases hres
    rfl
  | created k c nm _ hno _ => exact absurd (hno.symm.trans hfind) (by omega)
  | noSpace k _ _ _ =>
    cases hres
    rfl
  | restarted k c _ _ _ _ =>
    rw [show fs' = _ from congrArg Prod.snd hres]
    exact ((restart_sameKey fs k c _ j).trans (writeContents_sameKey _ k data j)).used

/-- After a write with a short name either nothing has changed, or the name is
there. -/
theorem write_found_after {fs fs' : FS} {nm ext : CStr} {parent ret : Int} {data : List UInt8}
    (hn : nm.length < fsNameMax) (hx : ext.length < fsExtMax)
    (hw : fsWriteFileInDir fs (some nm) (some ext) parent data = some (ret, fs')) :
    fs' = fs ∨ ∃ i : Nat, (fsFindInDir fs' (some nm) (some ext) parent).1 = i := by
  rcases fsWriteFileInDir_cases fs (some nm) (some ext) parent data with ⟨he, -⟩ | ⟨r, hr, hcase⟩
  · cases he
  rw [hw] at hr
  obtain rfl := Option.some.inj hr
  generalize hres : (ret, fs') = r at hcase
  cases hcase with
  | refused ret' _ =>
    cases hres
    exact .inl rfl
  | created i c nm' hnm hfind hnew =>
    cases hnm
    obtain ⟨p, hp, hdir⟩ := hnew.parent
    change parent = (p : Int) at hp
    subst hp
    obtain ⟨w, l', hst, -⟩ := writeContents_spec data (chain_addFile hnew)
    rw [← hres] at hst
    exact .inr ⟨i, by rw [find_created hn hx hdir.1.1 hnew.lt hfind hst]⟩
  | noSpace i hfind _ _ =>
    have hent : fs'.entries = fs.entries := by
      cases hres
      rfl
    exact .inr ⟨i, by rw [fsFindInDir_congr hent, hfind]⟩
  | restarted i c hfind _ hc _ =>
    obtain ⟨p, rfl, hp⟩ := parent_of_find hfind
    obtain ⟨w, l', hst, -⟩ := writeContents_spec data
      (chain_restart fs i (freeClusterChain fs.fat (fs.entries i).firstCluster) hc)
    rw [← hres] at hst
    exact .inr ⟨i, by rw [find_restarted hp hfind hst]⟩

/-- Repeating a write with a short name makes no entry. -/
theorem write_again_short {fs fs₁ fs₂ : FS} {nm ext : CStr} {parent ret ret' : Int}
    {data : List UInt8} (hn : nm.length < fsNameMax) (hx : ext.length < fsExtMax)
    (h₁ : fsWriteFileInDir fs (some nm) (some ext) parent data = some (ret, fs₁))
    (h₂ : fsWriteFileInDir fs₁ (some nm) (some ext) parent data = some (ret', fs₂)) (j : Nat) :
    (fs₂.entries j).used = (fs₁.entries j).used := by
  rcases write_found_after hn hx h₁ with rfl | ⟨i, hfind⟩
  · rw [h₁] at h₂
    cases h₂
    rfl
  · exact write_keeps_used hfind h₂ j

/-- A successful write was to a directory in use. -/
theorem isDirectory_of_write {fs fs' : FS} {name ext : Option CStr} {parent : Int}
    {data : List UInt8} (h : fsWriteFileInDir fs name ext parent data = some (0, fs')) :
    ∃ p : Nat, parent = p ∧ IsDirectory fs p := by
  unfold fsWriteFileInDir at h
  split at h
  · cases h
  · split at h
    · cases h
    · next h1 =>
      split at h
      · cases h
      · next h2 => exact ⟨_, isDirectory_of_tests h1 h2⟩

theorem SameKey.isDirectory {fs fs' : FS} {p : Nat}
    (h : SameKey (fs.entries p) (fs'.entries p)) (hp : IsDirectory fs p) : IsDirectory fs' p :=
  (SamePlace.isDirectory ⟨h.used, h.parent, h.isDir⟩).mpr hp

/-- A write leaves the directories. -/
theorem IsDirectory.write {fs fs' : FS} {p : Nat} (hp : IsDirectory fs p)
    {name ext : Option CStr} {parent ret : Int} {data : List UInt8}
    (hw : fsWriteFileInDir fs name ext parent data = some (ret, fs')) : IsDirectory fs' p := by
  rcases fsWriteFileInDir_cases fs name ext parent data with ⟨-, hr⟩ | ⟨r, hr, hcase⟩
  · rw [hw] at hr
    cases hr
  rw [hw] at hr
  obtain rfl := Option.some.inj hr
  generalize hres : (ret, fs') = r at hcase
  obtain rfl : fs' = r.2 := congrArg Prod.snd hres
  cases hcase with
  | refused ret' _ => exact hp
  | created i c nm _ _ hnew =>
    exact (writeContents_sameKey _ i data p).isDirectory (hnew.toNewEntry.isDirectory rfl hp)
  | noSpace i _ _ _ => exact hp
  | restarted i c _ _ _ _ =>
    exact ((restart_sameKey fs i c _ p).trans (writeContents_sameKey _ i data p)).isDirectory hp

/-- Repeating a successful write makes no entry exactly when the names are short, or
there is no room for one. -/
theorem write_again_iff {fs fs₁ fs₂ : FS} {nm ext : CStr} {parent ret : Int}
    {data : List UInt8} (hterm : Terminated fs₁)
    (h₁ : fsWriteFileInDir fs (some nm) (some ext) parent data = some (0, fs₁))
    (h₂ : fsWriteFileInDir fs₁ (some nm) (some ext) parent data = some (ret, fs₂)) :
    (∀ j, (fs₂.entries j).used = (fs₁.entries j).used) ↔
      (nm.length < fsNameMax ∧ ext.length < fsExtMax) ∨
      ¬ ((∃ k, 0 < k ∧ k < fsMaxEntries ∧ (fs₁.entries k).used = false) ∧
        0 < freeClusters fs₁.fat) := by
  obtain ⟨p, rfl, hp⟩ := isDirectory_of_write h₁
  constructor
  · intro hsame
    by_contra hno
    rw [not_or, not_not] at hno
    obtain ⟨hlong, ⟨k, hk⟩, hfree⟩ := hno
    have hp₁ := hp.write h₁
    have hmiss := fun j (_ : j < fsMaxEntries) => hterm.matchAt_long hlong p j
    have hfind : (fsFindInDir fs₁ (some nm) (some ext) p).1 = -1 := by
      rcases fsFindInDir_cases fs₁ (some nm) (some ext) p with hf | ⟨i, nm', hnm, hi, hm, -, -⟩
      · rw [hf]
      · cases hnm
        rw [hmiss i hi] at hm
        cases hm
    obtain ⟨i, c, hnew, hcreate⟩ := fsCreateFile_succeeds hp₁
      (fun j hj => dupFileAt_of_noMatch (hmiss j hj)) hk hfree
    rw [fsWriteFileInDir_absent hp₁ hfind, hcreate] at h₂
    simp only [if_neg (show ¬ ((i : Int) < 0) by omega), Int.toNat_natCast] at h₂
    have hused : (fs₂.entries i).used = true := by
      rw [← show (writeContents _ i data).2 = fs₂ from congrArg Prod.snd (Option.some.inj h₂),
        (writeContents_sameKey _ i data i).used]
      simp only [addFile, Function.update_self, hnew.used]
    rw [hsame i, hnew.free] at hused
    cases hused
  · rintro (⟨hn, hx⟩ | hfull) j
    · exact write_again_short hn hx h₁ h₂ j
    · rcases fsWriteFileInDir_cases fs₁ (some nm) (some ext) p data with ⟨he, -⟩ | ⟨r, hr, hcase⟩
      · cases he
      rw [h₂] at hr
      obtain rfl := Option.some.inj hr
      generalize hres : (ret, fs₂) = r at hcase
      cases hcase with
      | refused ret' _ =>
        cases hres
        rfl
      | created i c nm' _ _ hnew =>
        exact absurd ⟨⟨i, hnew.pos, hnew.lt, hnew.free⟩,
          freeClusters_pos hnew.inTable hnew.freeCluster⟩ hfull
      | noSpace i hfind _ _ => exact write_keeps_used hfind h₂ j
      | restarted i c hfind _ _ _ => exact write_keeps_used hfind h₂ j

/-! ## Twins -/

/-- No two entries in use of one kind and parent have the same stored name and
extension. -/
def NoTwins (fs : FS) : Prop :=
  ∀ i j, Used fs i → Used fs j → SameKey (fs.entries i) (fs.entries j) → i = j

section

variable {fs fs' : FS} {i : Nat}

theorem NoTwins.of_sameKey (h : NoTwins fs)
    (hsame : ∀ j, SameKey (fs.entries j) (fs'.entries j)) : NoTwins fs' := by
  intro a b ha hb hab
  refine h a b ⟨ha.1, ?_⟩ ⟨hb.1, ?_⟩ (((hsame a).trans hab).trans (hsame b).symm)
  · rw [← (hsame a).used, ha.2]
  · rw [← (hsame b).used, hb.2]

/-- A new record that no entry in use is a twin of. -/
theorem NoTwins.add {e : Entry} (h : NoTwins fs)
    (hent : fs'.entries = Function.update fs.entries i e)
    (hnew : ∀ j, Used fs j → ¬ SameKey e (fs.entries j)) : NoTwins fs' := by
  have hold : ∀ {j}, j ≠ i → Used fs' j → Used fs j ∧ fs'.entries j = fs.entries j := by
    intro j hj hu
    have he : fs'.entries j = fs.entries j := by rw [hent, Function.update_of_ne hj]
    exact ⟨(used_of_entries_eq he).mp hu, he⟩
  have hself : fs'.entries i = e := by rw [hent, Function.update_self]
  intro a b ha hb hab
  by_cases hai : a = i
  · by_cases hbi : b = i
    · rw [hai, hbi]
    · obtain ⟨hu, he⟩ := hold hbi hb
      rw [hai, hself, he] at hab
      exact absurd hab (hnew b hu)
  · obtain ⟨hu, he⟩ := hold hai ha
    by_cases hbi : b = i
    · rw [hbi, hself, he] at hab
      exact absurd hab.symm (hnew a hu)
    · obtain ⟨hu', he'⟩ := hold hbi hb
      rw [he, he'] at hab
      exact h a b hu hu' hab

theorem NoTwins.clearUsed (h : NoTwins fs) (fat : Nat → Nat) (i : Nat) :
    NoTwins (Fat16.clearUsed { fs with fat := fat } i) := by
  have hold : ∀ {j}, Used (Fat16.clearUsed { fs with fat := fat } i) j →
      Used fs j ∧ (Fat16.clearUsed { fs with fat := fat } i).entries j = fs.entries j := by
    intro j hu
    by_cases hj : j = i
    · subst hj
      simp only [Used, Fat16.clearUsed, Function.update_self] at hu
      exact absurd hu.2 Bool.false_ne_true
    · have he : (Fat16.clearUsed { fs with fat := fat } i).entries j = fs.entries j :=
        Function.update_of_ne hj _ _
      exact ⟨(used_of_entries_eq he).mp hu, he⟩
  intro a b ha hb hab
  rw [(hold ha).2, (hold hb).2] at hab
  exact h a b (hold ha).1 (hold hb).1 hab

/-- A new directory: its twin would be a duplicate. -/
theorem NoTwins.addDir (h : NoTwins fs) {nm : CStr} {parent : Int} (hn : nm.length < fsNameMax)
    (hdup : ∀ j, j < fsMaxEntries → dupDirAt fs nm parent j = false) :
    NoTwins { fs with entries := Function.update fs.entries i (dirEntry nm parent) } := by
  refine h.add rfl fun j hj htwin => ?_
  have hself : dupDirAt { fs with entries := fun _ => dirEntry nm parent } nm parent j = true :=
    (dupDirAt_dirEntry rfl).mpr hn
  have hd : dupDirAt fs nm parent j = true := by
    simp only [dupDirAt] at hself ⊢
    rwa [htwin.used, htwin.parent, htwin.isDir, htwin.name]
  rw [hdup j hj.1] at hd
  cases hd

/-- A new file: its twin, a file as well, would have matched. -/
theorem NoTwins.addFile (h : NoTwins fs) {c : Nat} {nm : CStr} {ext : Option CStr} {parent : Int}
    (hn : nm.length < fsNameMax) (hx : ∀ e ∈ ext, e.length < fsExtMax)
    (hno : ∀ j, j < fsMaxEntries → (fs.entries j).isDir = false →
      matchAt fs nm ext parent j = false) :
    NoTwins (Fat16.addFile fs i c (fileEntry nm ext parent c)) := by
  refine h.add rfl fun j hj htwin => ?_
  have hself : matchAt (Fat16.addFile fs i c (fileEntry nm ext parent c)) nm ext parent i = true :=
    (matchAt_newFile hn hx (n := 0) (Function.update_self _ _ _)).mpr ⟨rfl, rfl, rfl⟩
  have hkey : SameKey ((Fat16.addFile fs i c (fileEntry nm ext parent c)).entries i)
      (fs.entries j) := by
    simp only [Fat16.addFile, Function.update_self]
    exact htwin
  rw [← matchAt_congr hkey, hno j hj.1 htwin.isDir] at hself
  cases hself

end

theorem NoTwins.step {fs fs' : FS} (h : NoTwins fs) {op : Op} (hs : ShortNames op)
    (hstep : Fat16.step fs op = some fs') : NoTwins fs' := by
  cases step_cases hstep with
  | kept op => exact h
  | @addDir i nm parent _ hdup => exact h.addDir (hs nm rfl) hdup
  | dropDir _ _ => exact h.clearUsed fs.fat _
  | @addFile i c nm ext parent _ hret =>
    exact h.addFile (hs.1 nm rfl) hs.2 fun j hj hfile =>
      matchAt_file_of_noDup (dupFileAt_of_created hret j hj) hfile
  | dropFile _ _ => exact h.clearUsed _ _
  | wrote hcase =>
    cases hcase with
    | refused ret _ => exact h
    | created i c nm hnm hfind hnew =>
      subst hnm
      obtain ⟨p, hp, hdir⟩ := hnew.parent
      obtain rfl := hp
      have hno := matchAt_eq_false_of_find hdir.1.1 hfind
      exact (h.addFile (hs.1 nm rfl) hs.2 fun j hj _ => hno j hj).of_sameKey
        (writeContents_sameKey _ i _)
    | noSpace i _ _ _ => exact h
    | restarted i c _ _ _ _ =>
      exact (h.of_sameKey (restart_sameKey fs i c _)).of_sameKey (writeContents_sameKey _ i _)
  | raw c data => exact h.of_sameKey fun j => .of_eq (by rw [fsWrite_entries])

theorem noTwins_fsInit (disk : Mem) : NoTwins (fsInit disk) := by
  have hroot : ∀ {i}, Used (fsInit disk) i → i = fsRootIdx := by
    intro i hu
    by_contra hi
    have hused := hu.2
    simp only [fsInit, Function.update_of_ne hi, Entry.zero] at hused
    exact absurd hused (by decide)
  exact fun i j hi hj _ => (hroot hi).trans (hroot hj).symm

/-! ## Whole runs -/

/-- Duplicates, in any state that calls reach. Repeating a call of `fs_mkdir` or
`fs_create_file` that made an entry returns -3 and changes nothing exactly when the
name, and the extension, have fewer than 64 characters. Repeating a write with such
a name makes no entry; repeating a successful one with a longer name makes another,
as long as there is room. And as long as all names are that short, no two entries
of one kind in one directory have equal stored names and extensions. -/
theorem no_duplicate_names {disk : Mem} {ops : List Op} {fs : FS}
    (hr : Run step (fun _ _ => True) (fsInit disk) ops fs) :
    (∀ (nm : CStr) (parent idx : Int) (fs' : FS), fsMkdir fs (some nm) parent = (idx, fs') →
      0 ≤ idx → (fsMkdir fs' (some nm) parent = (-3, fs') ↔ nm.length < fsNameMax)) ∧
    (∀ (nm ext : CStr) (parent idx : Int) (out : Option Nat) (fs' : FS),
      fsCreateFile fs (some nm) (some ext) parent = some (idx, out, fs') → 0 ≤ idx →
      (fsCreateFile fs' (some nm) (some ext) parent = some (-3, none, fs') ↔
        nm.length < fsNameMax ∧ ext.length < fsExtMax)) ∧
    (∀ (nm ext : CStr) (parent ret ret' : Int) (data : List UInt8) (fs₁ fs₂ : FS),
      fsWriteFileInDir fs (some nm) (some ext) parent data = some (ret, fs₁) →
      fsWriteFileInDir fs₁ (some nm) (some ext) parent data = some (ret', fs₂) →
      (nm.length < fsNameMax ∧ ext.length < fsExtMax →
        ∀ j, (fs₂.entries j).used = (fs₁.entries j).used) ∧
      (ret = 0 → ((∀ j, (fs₂.entries j).used = (fs₁.entries j).used) ↔
        (nm.length < fsNameMax ∧ ext.length < fsExtMax) ∨
        ¬ ((∃ k, 0 < k ∧ k < fsMaxEntries ∧ (fs₁.entries k).used = false) ∧
          0 < freeClusters fs₁.fat)))) ∧
    ((∀ op ∈ ops, ShortNames op) →
      ∀ i j, Used fs i → Used fs j → (fs.entries i).isDir = (fs.entries j).isDir →
        (fs.entries i).parent = (fs.entries j).parent →
        (fs.entries i).name = (fs.entries j).name → (fs.entries i).ext = (fs.entries j).ext →
        i = j) := by
  have hterm : Terminated fs :=
    hr.invariant (fun _ _ _ hs _ hstep => hs.step hstep) (terminated_fsInit disk)
  refine ⟨fun nm parent idx fs' h hidx => fsMkdir_again h hidx,
    fun nm ext parent idx out fs' h hidx => fsCreateFile_again h hidx, ?_, ?_⟩
  · intro nm ext parent ret ret' data fs₁ fs₂ h₁ h₂
    refine ⟨fun hs => write_again_short hs.1 hs.2 h₁ h₂, ?_⟩
    rintro rfl
    have hstep : step fs (.writeFileInDir (some nm) (some ext) parent data) = some fs₁ := by
      rw [step, h₁]
      rfl
    exact write_again_iff (hterm.step hstep) h₁ h₂
  · intro hshort i j hi hj hdir hparent hname hext
    have htwins : NoTwins fs := (hr.restrict hshort).invariant
      (fun _ _ _ hs ho hstep => hs.step ho.2 hstep) (noTwins_fsInit disk)
    exact htwins i j hi hj
      ⟨hj.2.trans hi.2.symm, hparent.symm, hdir.symm, hname.symm, hext.symm⟩

/-- After `interleaved`: making the directory `a` twice, and the file `b.a` twice. -/
theorem no_duplicate_names_interleaved : ∃ fs,
    Run step (fun _ _ => True) (fsInit fun _ => 0) interleaved fs ∧
    (∃ fs', fsMkdir fs (some nameA) fsRootIdx = (3, fs') ∧
      fsMkdir fs' (some nameA) fsRootIdx = (-3, fs')) ∧
    (∃ out fs', fsCreateFile fs (some nameB) (some nameA) fsRootIdx = some (3, out, fs') ∧
      fsCreateFile fs' (some nameB) (some nameA) fsRootIdx = some (-3, none, fs')) ∧
    ∀ i j, Used fs i → Used fs j → (fs.entries i).isDir = (fs.entries j).isDir →
      (fs.entries i).parent = (fs.entries j).parent →
      (fs.entries i).name = (fs.entries j).name → (fs.entries i).ext = (fs.entries j).ext →
      i = j := by
  have hexec : (exec step (fun _ _ => True) (fsInit fun _ => 0) interleaved).map (fun fs =>
      ((fsMkdir fs (some nameA) fsRootIdx).1,
        (fsCreateFile fs (some nameB) (some nameA) fsRootIdx).map Prod.fst)) =
      some (3, some 3) := by
    decide +kernel
  obtain ⟨fs, hfs, hval⟩ := Option.map_eq_some_iff.mp hexec
  obtain ⟨hdir, hfile⟩ := Prod.mk.inj hval
  obtain ⟨⟨idx, out, fs'⟩, hcreate, hidx⟩ := Option.map_eq_some_iff.mp hfile
  obtain rfl : idx = 3 := hidx
  have hmkdir : fsMkdir fs (some nameA) fsRootIdx =
      (3, (fsMkdir fs (some nameA) fsRootIdx).2) := by
    rw [← hdir]
  obtain ⟨hdirs, hfiles, -, htwins⟩ := no_duplicate_names (Run.of_exec hfs)
  refine ⟨fs, Run.of_exec hfs, ⟨_, hmkdir, (hdirs _ _ _ _ hmkdir (by decide)).mpr (by decide)⟩,
    ⟨out, fs', hcreate, (hfiles _ _ _ _ _ _ hcreate (by decide)).mpr (by decide)⟩, htwins ?_⟩
  have hshort : (∀ nm ∈ some nameA, nm.length < fsNameMax) ∧
      ∀ nm ∈ some nameB, nm.length < fsNameMax := by
    decide
  exact List.forall_mem_cons.mpr ⟨hshort, List.forall_mem_cons.mpr ⟨⟨hshort.2, hshort.2⟩,
    List.forall_mem_cons.mpr ⟨hshort, List.forall_mem_nil _⟩⟩⟩

/-- A name of 64 characters. -/
def longName : CStr := ⟨List.replicate 64 97, by simp⟩

/-- On the empty disk, making a directory with a name of 64 characters succeeds
twice. -/
theorem long_name_twice :
    ¬ ∀ (disk : Mem) (ops : List Op) (fs : FS), Run step (fun _ _ => True) (fsInit disk) ops fs →
      ∀ (nm : CStr) (parent idx : Int) (fs' : FS), fsMkdir fs (some nm) parent = (idx, fs') →
        0 ≤ idx → fsMkdir fs' (some nm) parent = (-3, fs') := by
  intro hall
  have hret : (fsMkdir (fsInit fun _ => 0) (some longName) fsRootIdx).1 = 1 := by decide +kernel
  have hagain : (fsMkdir (fsMkdir (fsInit fun _ => 0) (some longName) fsRootIdx).2
      (some longName) fsRootIdx).1 = 2 := by decide +kernel
  have h := hall _ [] _ (.nil (fsInit fun _ => 0)) longName fsRootIdx 1 _
    (by rw [← hret]) (by decide)
  rw [h] at hagain
  exact absurd hagain (by decide)

end KernelC.Fat16
