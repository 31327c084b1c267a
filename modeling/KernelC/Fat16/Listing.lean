import KernelC.Fat16.Names

/-!
# What a caller sees of an entry

`fs_find_in_dir` and `fs_get_all_in_dir` copy records out. Such a copy has the name, the
extension, the parent, the kind and the size (`Shown`), and the start cluster, which is for
`fs_read` and `fs_write` and is left out here.

`fsGetAllInDir_eq`: the listing has the entries of the directory, in the order of the
table and no more than `max_files` of them. The slash behind the name of a directory is
in the copy only, and is left out where the name has no room for it (`shown_listedEntry`).
-/

namespace KernelC.Fat16

/-! ## The listing -/

/-- The copy of an entry that `fs_get_all_in_dir` hands out. -/
def listedEntry (e : Entry) : Entry :=
  if e.isDir then
    let len := strlen e.name
    if len < fsNameMax - 1 then { e with name := (e.name.set len 47).set (len + 1) 0 } else e
  else e

/-- The loop of `fs_get_all_in_dir`, with `k` slots left: what it puts behind the
`count` records of before. -/
def fsGetAllLoop (entries : Nat → Entry) (maxFiles parent : Int) :
    Nat → Nat → Nat → List Entry
  | 0, _, _ => []
  | k + 1, i, count =>
    if (count : Int) < maxFiles then
      if (entries i).used && (entries i).parent == parent then
        listedEntry (entries i) :: fsGetAllLoop entries maxFiles parent k (i + 1) (count + 1)
      else fsGetAllLoop entries maxFiles parent k (i + 1) count
    else []

/-- `fs_get_all_in_dir`: the records put at the start of `out_files`; their number is the
C result. -/
def fsGetAllInDir (fs : FS) (maxFiles parent : Int) : List Entry :=
  if parent < 0 ∨ parent ≥ fsMaxEntries then []
  else fsGetAllLoop fs.entries maxFiles parent fsMaxEntries 0 0

theorem fsGetAllLoop_eq (entries : Nat → Entry) (maxFiles parent : Int) (k i count : Nat) :
    fsGetAllLoop entries maxFiles parent k i count =
      ((((List.range' i k).map entries).filter fun e => e.used && e.parent == parent).take
        (maxFiles.toNat - count)).map listedEntry := by
  induction k generalizing i count with
  | zero => simp [fsGetAllLoop]
  | succ k ih =>
    rw [fsGetAllLoop, List.range'_succ, List.map_cons]
    by_cases hroom : (count : Int) < maxFiles
    · rw [if_pos hroom]
      have hsucc : maxFiles.toNat - count = maxFiles.toNat - (count + 1) + 1 := by omega
      by_cases hin : ((entries i).used && (entries i).parent == parent) = true
      · rw [if_pos hin, List.filter_cons, if_pos hin, hsucc, List.take_succ_cons, List.map_cons, ih]
      · rw [if_neg hin, List.filter_cons, if_neg hin, ih]
    · rw [if_neg hroom, show maxFiles.toNat - count = 0 by omega, List.take_zero, List.map_nil]

/-- The entries of the directory, in the order of the table. -/
theorem fsGetAllInDir_eq {fs : FS} {parent : Int} (h : ¬ (parent < 0 ∨ parent ≥ fsMaxEntries))
    (maxFiles : Int) :
    fsGetAllInDir fs maxFiles parent =
      ((((List.range fsMaxEntries).map fs.entries).filter fun e =>
        e.used && e.parent == parent).take maxFiles.toNat).map listedEntry := by
  rw [fsGetAllInDir, if_neg h, fsGetAllLoop_eq, ← List.range_eq_range', Nat.sub_zero]

/-! ## Records as a caller reads them -/

/-- A record without its start cluster, with the strings that its arrays hold. -/
structure Shown where
  name : CStr
  ext : CStr
  parent : Int
  isDir : Bool
  size : Nat
deriving DecidableEq

def Entry.shown (e : Entry) : Shown where
  name := arrayStr e.name
  ext := arrayStr e.ext
  parent := e.parent
  isDir := e.isDir
  size := e.size

/-- The names of a record fill their arrays and end inside of them. -/
structure WellNamed (e : Entry) : Prop where
  nameLength : e.name.length = fsNameMax
  extLength : e.ext.length = fsExtMax
  nameEnds : e.name.getD (fsNameMax - 1) 0 = 0
  extEnds : e.ext.getD (fsExtMax - 1) 0 = 0

theorem WellNamed.of_names {e e' : Entry} (h : WellNamed e) (hn : e'.name = e.name)
    (hx : e'.ext = e.ext) : WellNamed e' :=
  ⟨hn ▸ h.nameLength, hx ▸ h.extLength, hn ▸ h.nameEnds, hx ▸ h.extEnds⟩

/-- The string with a slash behind it. -/
def CStr.slash (s : CStr) : CStr where
  chars := s.chars ++ [47]
  noNul c hc := by
    rcases List.mem_append.mp hc with hc | hc
    · exact s.noNul c hc
    · rw [List.mem_singleton.mp hc]
      decide

theorem arrayStr_slash {a : List UInt8} (h : strlen a + 1 < a.length) :
    arrayStr ((a.set (strlen a) 47).set (strlen a + 1) 0) = CStr.slash (arrayStr a) := by
  suffices hchars : ((a.set (strlen a) 47).set (strlen a + 1) 0).takeWhile (fun c => c ≠ 0) =
      a.takeWhile (fun c => c ≠ 0) ++ [47] by
    simp only [arrayStr, CStr.slash, CStr.mk.injEq]
    exact hchars
  induction a with
  | nil => simp at h
  | cons c a ih =>
    by_cases hc : c = 0
    · subst hc
      obtain ⟨d, a, rfl⟩ : ∃ d a', a = d :: a' := by
        cases a with
        | nil => simp [strlen] at h
        | cons d a => exact ⟨d, a, rfl⟩
      simp [strlen]
    · have hrest := ih (by simpa [strlen, hc] using h)
      simpa [strlen, hc] using hrest

/-- The name under which an entry is listed. -/
def listedName (name : CStr) (isDir : Bool) : CStr :=
  if isDir && name.length < fsNameMax - 1 then CStr.slash name else name

theorem shown_listedEntry {e : Entry} (h : WellNamed e) :
    (listedEntry e).shown = { e.shown with name := listedName (arrayStr e.name) e.isDir } := by
  unfold listedEntry listedName
  rw [← strlen_eq]
  by_cases hd : e.isDir = true
  · by_cases hlen : strlen e.name < fsNameMax - 1
    · have hroom : strlen e.name + 1 < e.name.length := by
        rw [h.nameLength]
        omega
      simp [hd, hlen, Entry.shown, arrayStr_slash hroom]
    · simp [hd, hlen, Entry.shown]
  · simp [hd, Entry.shown]

end KernelC.Fat16
