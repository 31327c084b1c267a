import KernelC.Fat16.Ownership

/-!
# Reading back what was written

`fs_read_file_in_dir` after a successful `fs_write_file_in_dir` with the same
name returns the data (`read_your_write`). The write changes no field that the
lookup compares (`matchAt_congr`), so an entry that existed is found again; a
new entry matches its own name (`nameeq_storeField`) and nothing matched
before. The contents are those that `Stored` describes.
-/

namespace KernelC.Fat16

/-! ## The lookup -/

theorem storeField_getD {max : Nat} {field : List UInt8} {s : CStr}
    (hlen : field.length = max) {j : Nat} (hj : j < max) :
    (storeField max field s).getD j 0 = (s.take (max - 1)).at j := by
  have hcopy := strncpy_getD field s (show max - 1 ≤ field.length by omega) j
  unfold storeField
  rw [CStr.at_take]
  by_cases hlast : j = max - 1
  · rw [List.getD_eq_getElem _ _ (by rw [List.length_set, strncpy_length (by omega)]; omega)]
    simp only [hlast, List.getElem_set_self]
    rw [if_neg (by omega)]
  · rw [List.getD_eq_getElem?_getD, List.getElem?_set_ne (Ne.symm hlast),
      ← List.getD_eq_getElem?_getD, hcopy, if_pos (by omega), if_pos (by omega)]

/-- A stored name compares equal to its first `max - 1` characters and to no
other string. -/
theorem nameeq_storeField_iff {max : Nat} {field : List UInt8} {s t : CStr}
    (hlen : field.length = max) (hmax : 0 < max) :
    nameeq (storeField max field s) t max = true ↔ t = s.take (max - 1) := by
  refine nameeq_iff ?_ fun j hj => storeField_getD hlen hj
  rw [CStr.length_take]
  omega

/-- A name of at most `max - 1` characters, once stored, compares equal to
itself only. -/
theorem nameeq_storeField {max : Nat} {field : List UInt8} {s t : CStr}
    (hlen : field.length = max) (hs : s.length < max) :
    nameeq (storeField max field s) t max = true ↔ t = s := by
  rw [nameeq_storeField_iff hlen (by omega), CStr.take_of_length_le (by omega)]

/-- A name that is stored matches its first 63 characters, so itself if it has no more;
and the comparison is that of `strncmp`, on any array. -/
theorem stored_name_matching :
    (∀ a b : CStr,
      nameeq (storeField fsNameMax Entry.zero.name a) b fsNameMax = true ↔ b = a.take 63) ∧
    (∀ a : CStr,
      nameeq (storeField fsNameMax Entry.zero.name a) a fsNameMax = true ↔ a.length ≤ 63) ∧
    ∀ (x : List UInt8) (y : CStr) (n : Nat), nameeq x y n = true ↔ strncmp x y n = 0 := by
  have hstored : ∀ a b : CStr,
      nameeq (storeField fsNameMax Entry.zero.name a) b fsNameMax = true ↔ b = a.take 63 :=
    fun a b => nameeq_storeField_iff List.length_replicate (by decide)
  refine ⟨hstored, fun a => (hstored a a).trans ⟨fun h => ?_, fun h => ?_⟩, nameeq_iff_strncmp⟩
  · rw [h, CStr.length_take]
    exact Nat.min_le_left _ _
  · exact (CStr.take_of_length_le h).symm

/-- Two records agree in the fields that the lookup compares. -/
structure SameKey (e e' : Entry) : Prop where
  used : e'.used = e.used
  parent : e'.parent = e.parent
  isDir : e'.isDir = e.isDir
  name : e'.name = e.name
  ext : e'.ext = e.ext

theorem SameKey.of_eq {e e' : Entry} (h : e' = e) : SameKey e e' := by
  rw [h]
  exact ⟨rfl, rfl, rfl, rfl, rfl⟩

theorem SameKey.symm {e e' : Entry} (h : SameKey e e') : SameKey e' e :=
  ⟨h.used.symm, h.parent.symm, h.isDir.symm, h.name.symm, h.ext.symm⟩

theorem SameKey.trans {e e' e'' : Entry} (h : SameKey e e') (h' : SameKey e' e'') :
    SameKey e e'' :=
  ⟨h'.used.trans h.used, h'.parent.trans h.parent, h'.isDir.trans h.isDir, h'.name.trans h.name,
    h'.ext.trans h.ext⟩

theorem matchAt_congr {fs fs' : FS} {name : CStr} {ext : Option CStr} {parent : Int} {i j : Nat}
    (h : SameKey (fs.entries i) (fs'.entries j)) :
    matchAt fs' name ext parent j = matchAt fs name ext parent i := by
  simp only [matchAt, h.used, h.parent, h.isDir, h.name, h.ext]

/-- Sizes are not compared. -/
theorem writeContents_sameKey (fs : FS) (i : Nat) (data : List UInt8) (j : Nat) :
    SameKey (fs.entries j) ((writeContents fs i data).2.entries j) := by
  obtain ⟨n, hn⟩ := writeContents_entries fs i data
  rw [hn]
  by_cases hj : j = i
  · subst hj
    rw [Function.update_self]
    exact ⟨rfl, rfl, rfl, rfl, rfl⟩
  · rw [Function.update_of_ne hj]
    exact .of_eq rfl

/-- Nor are start clusters. -/
theorem restart_sameKey (fs : FS) (i c : Nat) (fat : Nat → Nat) (j : Nat) :
    SameKey (fs.entries j) ((restart fs i c fat).entries j) := by
  by_cases hj : j = i
  · subst hj
    simp only [restart, Function.update_self]
    exact ⟨rfl, rfl, rfl, rfl, rfl⟩
  · simp only [restart, Function.update_of_ne hj]
    exact .of_eq rfl

theorem fsFindInDir_eq {fs : FS} {name : CStr} {ext : Option CStr} {p i : Nat}
    (hp : p < fsMaxEntries) (hi : i < fsMaxEntries) (hm : matchAt fs name ext p i = true)
    (hfirst : ∀ j, j < i → matchAt fs name ext p j = false) :
    fsFindInDir fs (some name) ext p = ((i : Int), some (fs.entries i)) := by
  have hf : (List.range fsMaxEntries).find? (matchAt fs name ext p) = some i :=
    List.find?_range_eq_some.mpr
      ⟨hm, List.mem_range.mpr hi, fun j hj => by rw [hfirst j hj]; rfl⟩
  unfold fsFindInDir
  simp only [hf]
  rw [if_neg (by omega)]

/-- The lookup reads the entries only. -/
theorem fsFindInDir_congr {fs fs' : FS} (h : fs'.entries = fs.entries) (name ext : Option CStr)
    (parent : Int) : fsFindInDir fs' name ext parent = fsFindInDir fs name ext parent := by
  have hmatch : matchAt fs' = matchAt fs := by
    funext name ext parent i
    exact matchAt_congr (.of_eq (congrFun h i))
  unfold fsFindInDir
  rw [hmatch, h]

/-- What was found was looked for in a directory of the table, and is in use. -/
theorem parent_of_find {fs : FS} {name ext : Option CStr} {parent : Int} {i : Nat}
    (h : (fsFindInDir fs name ext parent).1 = i) :
    ∃ p : Nat, parent = p ∧ p < fsMaxEntries := by
  unfold fsFindInDir at h
  cases name with
  | none => exact absurd h (by simp only; omega)
  | some name =>
    dsimp only at h
    split at h
    · exact absurd h (by simp only; omega)
    · exact ⟨parent.toNat, by omega, by omega⟩

theorem used_of_find {fs : FS} {name ext : Option CStr} {parent : Int} {i : Nat}
    (h : (fsFindInDir fs name ext parent).1 = i) : Used fs i := by
  rcases fsFindInDir_cases fs name ext parent with hf | ⟨k, nm, -, hk, hm, -, hf⟩
  · rw [hf] at h
    exact absurd h (by simp only; omega)
  · rw [hf] at h
    obtain rfl : k = i := Int.ofNat.inj h
    exact used_of_matchAt hk hm

theorem matchAt_eq_false_of_find {fs : FS} {name : CStr} {ext : Option CStr} {p : Nat}
    (hp : p < fsMaxEntries) (h : (fsFindInDir fs (some name) ext p).1 = -1) :
    ∀ j, j < fsMaxEntries → matchAt fs name ext p j = false := by
  intro j hj
  unfold fsFindInDir at h
  simp only at h
  rw [if_neg (by omega)] at h
  cases hf : (List.range fsMaxEntries).find? (matchAt fs name ext p) with
  | some i =>
    rw [hf] at h
    simp only at h
    omega
  | none =>
    have := List.find?_eq_none.mp hf j (List.mem_range.mpr hj)
    simpa using this

/-- The new file matches the name it was created under. -/
theorem matchAt_fileEntry {fs : FS} {name ext : CStr} {p i c n : Nat}
    (hn : name.length < fsNameMax) (hx : ext.length < fsExtMax)
    (he : fs.entries i = { fileEntry name (some ext) p c with size := n }) :
    matchAt fs name (some ext) p i = true := by
  have h1 : nameeq (storeField fsNameMax Entry.zero.name name) name fsNameMax = true :=
    (nameeq_storeField List.length_replicate hn).mpr rfl
  have h2 : nameeq (storeField fsExtMax Entry.zero.ext ext) ext fsExtMax = true :=
    (nameeq_storeField List.length_replicate hx).mpr rfl
  have h3 : Entry.zero.isDir = false := rfl
  simp [matchAt, he, fileEntry, h1, h2, h3]

/-! ## Reading -/

/-- Reading an entry whose contents were stored, as far as they were. -/
theorem fsReadFileInDir_of_stored {fs fs' : FS} {name : CStr} {ext : Option CStr} {p i w : Nat}
    {data : List UInt8} {l' : List Nat} (hst : Stored fs fs' i w data l')
    {bufsize : Nat} (hbuf : w ≤ bufsize)
    (hfind : fsFindInDir fs' (some name) ext p = ((i : Int), some (fs'.entries i))) :
    fsReadFileInDir fs' (some name) ext p bufsize = (0, data.take w, some w) := by
  have hcount := hst.count
  have hfirst : (fs'.entries i).firstCluster = (fs.entries i).firstCluster := by
    rw [hst.entries, Function.update_self]
  have hread : fsRead fs' (fs'.entries i).firstCluster (fs'.entries i).size = data.take w := by
    rw [hfirst, fsRead_eq hst.chain, hst.size_eq, hst.bytes]
  have hlen : (data.take w).length = w := by
    rw [List.length_take]
    omega
  unfold fsReadFileInDir
  simp only [hfind]
  rw [if_neg (by rw [hst.size_eq]; omega), hread, hlen]

/-- The state after a successful write by name, whichever entry it went to. -/
theorem stored_of_write {fs fs' : FS} {i : Nat} {data : List UInt8}
    (hch : Chain fs.fat (fs.entries i).firstCluster [(fs.entries i).firstCluster])
    (h : writeContents fs i data = (0, fs')) :
    ∃ l', Stored fs fs' i data.length data l' := by
  obtain ⟨w, l', hst, hret⟩ := writeContents_spec data hch
  rw [h] at hst hret
  have hall : w = data.length := by
    by_contra hne
    simp [hne] at hret
  exact ⟨l', hall ▸ hst⟩

/-- A file that was created is the one that the lookup finds: there was none of
that name. -/
theorem find_created {fs fs' : FS} {name ext : CStr} {p i c w : Nat} {data : List UInt8}
    {l' : List Nat} (hn : name.length < fsNameMax) (hx : ext.length < fsExtMax)
    (hp : p < fsMaxEntries) (hi : i < fsMaxEntries)
    (hfind : (fsFindInDir fs (some name) (some ext) p).1 = -1)
    (hst : Stored (addFile fs i c (fileEntry name (some ext) p c)) fs' i w data l') :
    fsFindInDir fs' (some name) (some ext) p = ((i : Int), some (fs'.entries i)) := by
  have hself : fs'.entries i = { fileEntry name (some ext) p c with size := w % 2 ^ 32 } := by
    rw [hst.entries, Function.update_self]
    simp only [addFile, Function.update_self]
  have hno := matchAt_eq_false_of_find hp hfind
  refine fsFindInDir_eq hp hi (matchAt_fileEntry hn hx hself) fun j hj => ?_
  have hsame : fs'.entries j = fs.entries j := by
    rw [hst.entries, Function.update_of_ne (by omega)]
    exact Function.update_of_ne (by omega) _ _
  exact (matchAt_congr (.of_eq hsame)).trans (hno j (Nat.lt_trans hj hi))

/-- A file that was overwritten is found where it was: every field that the
lookup compares is as before. -/
theorem find_restarted {fs fs' : FS} {name ext : CStr} {p i c w : Nat} {fat : Nat → Nat}
    {data : List UInt8} {l' : List Nat} (hp : p < fsMaxEntries)
    (hfind : (fsFindInDir fs (some name) (some ext) p).1 = i)
    (hst : Stored (restart fs i c fat) fs' i w data l') :
    fsFindInDir fs' (some name) (some ext) p = ((i : Int), some (fs'.entries i)) := by
  have hsame : ∀ j, matchAt fs' name (some ext) p j = matchAt fs name (some ext) p j := by
    intro j
    by_cases hj : j = i
    · subst hj
      have hself : fs'.entries j = { fs.entries j with firstCluster := c, size := w % 2 ^ 32 } := by
        rw [hst.entries, Function.update_self]
        simp only [restart, Function.update_self]
      refine matchAt_congr ?_
      rw [hself]
      exact ⟨rfl, rfl, rfl, rfl, rfl⟩
    · have hj' : fs'.entries j = fs.entries j := by
        rw [hst.entries, Function.update_of_ne hj]
        exact Function.update_of_ne hj _ _
      exact matchAt_congr (.of_eq hj')
  rcases fsFindInDir_cases fs (some name) (some ext) p with hf | ⟨k, nm, hnm, hk, hm, hfirst, hf⟩
  · rw [hf] at hfind
    simp only at hfind
    omega
  · cases hnm
    rw [hf] at hfind
    obtain rfl : k = i := by simp only at hfind; omega
    exact fsFindInDir_eq hp hk (by rw [hsame]; exact hm) fun j hj => by rw [hsame]; exact hfirst j hj

/-- Read-your-write: in any state, reachable or not, if writing `data` under a
name in a directory returns 0, then reading that name with a buffer that is
large enough returns 0, the length and exactly `data`. -/
theorem read_your_write {fs : FS} {name ext : CStr} {p : Nat} {data : List UInt8}
    (hn : name.length < fsNameMax) (hx : ext.length < fsExtMax) (hp : IsDirectory fs p)
    {fs' : FS} (hw : fsWriteFileInDir fs (some name) (some ext) p data = some (0, fs'))
    {bufsize : Nat} (hbuf : data.length ≤ bufsize) :
    fsReadFileInDir fs' (some name) (some ext) p bufsize = (0, data, some data.length) := by
  have hpl := hp.1.1
  rcases fsWriteFileInDir_cases fs (some name) (some ext) p data with ⟨he, -⟩ | ⟨r, hr, hcase⟩
  · cases he
  · rw [hw] at hr
    obtain rfl := Option.some.inj hr
    generalize hres : ((0 : Int), fs') = r at hcase
    cases hcase with
    | refused ret hneg =>
      cases hres
      omega
    | created i c nm hnm hfind hnew =>
      cases hnm
      obtain ⟨l', hst⟩ := stored_of_write (chain_addFile hnew) hres.symm
      have hread := fsReadFileInDir_of_stored hst hbuf (find_created hn hx hpl hnew.lt hfind hst)
      rwa [List.take_length] at hread
    | noSpace i hfind hu hfull => cases hres
    | restarted i c hfind hu hc hz =>
      obtain ⟨l', hst⟩ := stored_of_write (chain_restart _ _ _ hc) hres.symm
      have hread := fsReadFileInDir_of_stored hst hbuf (find_restarted hpl hfind hst)
      rwa [List.take_length] at hread

/-- The second file is written again with 700 bytes. -/
theorem read_your_write_interleaved : ∃ fs fs',
    exec step (fun _ _ => True) (fsInit fun _ => 0) interleaved = some fs ∧
    fsWriteFileInDir fs (some nameB) (some nameB) fsRootIdx (List.replicate 700 9) =
      some (0, fs') ∧
    fsReadFileInDir fs' (some nameB) (some nameB) fsRootIdx 1024 =
      (0, List.replicate 700 9, some 700) := by
  have hexec : (exec step (fun _ _ => True) (fsInit fun _ => 0) interleaved).bind (fun fs =>
      (fsWriteFileInDir fs (some nameB) (some nameB) fsRootIdx (List.replicate 700 9)).map
        fun r => (r.1, (fs.entries 0).used, (fs.entries 0).isDir)) = some (0, true, true) := by
    decide +kernel
  obtain ⟨fs, hfs, hexec⟩ := Option.bind_eq_some_iff.mp hexec
  obtain ⟨⟨ret, fs'⟩, hw, hval⟩ := Option.map_eq_some_iff.mp hexec
  simp only [Prod.mk.injEq] at hval
  obtain ⟨rfl, hu, hd⟩ := hval
  have hbuf : (List.replicate 700 (9 : UInt8)).length ≤ 1024 := by
    rw [List.length_replicate]
    decide
  have hread := read_your_write (by decide) (by decide) ⟨⟨by decide, hu⟩, hd⟩ hw hbuf
  rw [List.length_replicate] at hread
  exact ⟨fs, fs', hfs, hw, hread⟩

end KernelC.Fat16
