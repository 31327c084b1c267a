import KernelC.Fat16.Balance

/-!
# The programs on the disk: `load_app_to_fs` of `kernel.c`

`kmain` puts the programs into one folder, which the first call makes. What a boot leaves
is known exactly (`bootStore`): the folder in slot 1, the files behind it in the order of
the calls. So every program that was loaded is read back as it was, the listing of the
folder is the list of the programs, and no other name is found (`boot_loads`).
-/

namespace KernelC.Fat16

/-- The arguments of a call, but for the folder. -/
structure App where
  name : CStr
  ext : CStr
  data : List UInt8

def loadAppToFs (fs : FS) (folder : CStr) (a : App) : Option FS :=
  let binIdx := (fsFindInDir fs (some folder) none fsRootIdx).1
  if binIdx < 0 then
    let (binIdx, fs) := fsMkdir fs (some folder) fsRootIdx
    if binIdx < 0 then some fs
    else (fsWriteFileInDir fs (some a.name) (some a.ext) binIdx a.data).map (·.2)
  else (fsWriteFileInDir fs (some a.name) (some a.ext) binIdx a.data).map (·.2)

/-- The calls of `kmain`, one after another. -/
def loadApps (fs : FS) (folder : CStr) (apps : List App) : Option FS :=
  apps.foldlM (fun fs a => loadAppToFs fs folder a) fs

/-! ## The store after a boot -/

def App.node (a : App) : Node := ⟨1, a.name, a.ext, false, some a.data⟩

def bootNodes (folder : CStr) (apps : List App) : Nat → Option Node
  | 0 => some ⟨-1, rootName, CStr.empty, true, none⟩
  | 1 => some ⟨0, folder, CStr.empty, true, none⟩
  | i + 2 => apps[i]?.map App.node

/-- The clusters for all of the programs. -/
def appClusters : List App → Nat
  | [] => 0
  | a :: rest => clustersOf a.data + appClusters rest

def bootStore (folder : CStr) (apps : List App) : Store where
  nodes := bootNodes folder apps
  free := fatEntries - 2 - appClusters apps

/-- Names that are stored whole and are distinct, a slot for each, and clusters for all. -/
structure Loadable (apps : List App) : Prop where
  short : ∀ a ∈ apps, a.name.length < fsNameMax ∧ a.ext.length < fsExtMax
  distinct : (apps.map fun a => (a.name, a.ext)).Nodup
  slots : apps.length + 2 ≤ fsMaxEntries
  room : appClusters apps ≤ fatEntries - 2

section

variable {folder : CStr} {apps : List App} {a : App}

theorem appClusters_append (apps rest : List App) :
    appClusters (apps ++ rest) = appClusters apps + appClusters rest := by
  induction apps with
  | nil => exact (Nat.zero_add _).symm
  | cons a apps ih => rw [List.cons_append, appClusters, appClusters, ih, Nat.add_assoc]

theorem appClusters_concat (apps : List App) (a : App) :
    appClusters (apps ++ [a]) = appClusters apps + clustersOf a.data :=
  appClusters_append apps [a]

theorem Loadable.left {rest : List App} (h : Loadable (apps ++ rest)) : Loadable apps where
  short b hb := h.short b (List.mem_append_left _ hb)
  distinct := by
    have hd := h.distinct
    rw [List.map_append] at hd
    exact (List.nodup_append.mp hd).1
  slots := by
    have := h.slots
    rw [List.length_append] at this
    omega
  room := by
    have := h.room
    rw [appClusters_append] at this
    omega

/-- The last program has a name of its own. -/
theorem Loadable.fresh (h : Loadable (apps ++ [a])) :
    ∀ b ∈ apps, ¬ (b.name = a.name ∧ b.ext = a.ext) := by
  intro b hb hsame
  have hd := h.distinct
  rw [List.map_append, List.nodup_append] at hd
  refine hd.2.2 (b.name, b.ext) (List.mem_map_of_mem hb) (a.name, a.ext) ?_ ?_
  · exact List.mem_singleton_self _
  · rw [hsame.1, hsame.2]

/-! ## Looking up -/

/-- In the folder there are the programs. -/
theorem answers_bootNodes (folder : CStr) (apps : List App) (name ext : CStr) (i : Nat) :
    ((bootNodes folder apps i).any fun n => n.answers name (some ext) 1) = true ↔
      ∃ k b, i = k + 2 ∧ apps[k]? = some b ∧ b.name = name ∧ b.ext = ext := by
  match i with
  | 0 => simp [bootNodes, Node.answers]
  | 1 => simp [bootNodes, Node.answers]
  | k + 2 =>
    cases hk : apps[k]? with
    | none =>
      simp only [bootNodes, hk, Option.map_none, Option.any_none, Bool.false_eq_true, false_iff]
      rintro ⟨k', b, hk', hb, -⟩
      obtain rfl : k' = k := by omega
      rw [hk] at hb
      cases hb
    | some b =>
      have hans : (App.node b).answers name (some ext) 1 = true ↔ b.name = name ∧ b.ext = ext := by
        simp [App.node, Node.answers, lookupExt]
      simp only [bootNodes, hk, Option.map_some, Option.any_some, hans]
      constructor
      · exact fun hb => ⟨k, b, rfl, hk, hb⟩
      · rintro ⟨k', b', hk', hb', hsame⟩
        obtain rfl : k' = k := by omega
        rw [hk, Option.some.injEq] at hb'
        exact hb' ▸ hsame

theorem lookup_bootStore (name ext : CStr) :
    (bootStore folder apps).lookup (some name) (some ext) 1 =
      (bootStore folder apps).first fun n => n.answers name (some ext) 1 := by
  unfold Store.lookup
  exact if_neg (by decide)

theorem lookup_absent {name ext : CStr} (h : ∀ b ∈ apps, ¬ (b.name = name ∧ b.ext = ext)) :
    (bootStore folder apps).lookup (some name) (some ext) 1 = none := by
  rw [lookup_bootStore]
  unfold Store.first
  refine List.find?_eq_none.mpr fun i _ hi => ?_
  obtain ⟨k, b, -, hk, hsame⟩ := (answers_bootNodes folder apps _ _ _).mp hi
  exact h b (List.mem_of_getElem? hk) hsame

theorem lookup_loaded (h : Loadable apps) {k : Nat} (hk : apps[k]? = some a) :
    (bootStore folder apps).lookup (some a.name) (some a.ext) 1 = some (k + 2) := by
  have hlt : k < apps.length := (List.getElem?_eq_some_iff.mp hk).1
  have hslots := h.slots
  rw [lookup_bootStore]
  unfold Store.first
  refine List.find?_range_eq_some.mpr ⟨(answers_bootNodes folder apps _ _ _).mpr
    ⟨k, a, rfl, hk, rfl, rfl⟩, List.mem_range.mpr (by omega), fun j hj => ?_⟩
  rw [Bool.not_eq_true', ← Bool.not_eq_true]
  intro hans
  -- an earlier program with the same name
  obtain ⟨k', b, rfl, hk', hn, hx⟩ := (answers_bootNodes folder apps _ _ _).mp hans
  have hkey : ∀ {m : Nat} {c : App}, apps[m]? = some c →
      (apps.map fun a => (a.name, a.ext))[m]? = some (c.name, c.ext) := fun hm => by
    rw [List.getElem?_map, hm, Option.map_some]
  have hsame := (List.getElem?_inj (i := k') (j := k)
    (by rw [List.length_map]; omega) h.distinct).mp
    (by rw [hkey hk', hkey hk, hn, hx])
  omega

/-! ## One program more -/

theorem bootNodes_concat (folder : CStr) (apps : List App) (a : App) :
    Function.update (bootNodes folder apps) (apps.length + 2) (some a.node) =
      bootNodes folder (apps ++ [a]) := by
  funext i
  by_cases hi : i = apps.length + 2
  · rw [hi, Function.update_self]
    simp [bootNodes]
  · rw [Function.update_of_ne hi]
    match i with
    | 0 => rfl
    | 1 => rfl
    | k + 2 =>
      have hk : k ≠ apps.length := fun hk => hi (by rw [hk])
      simp only [bootNodes]
      by_cases hlt : k < apps.length
      · rw [List.getElem?_append_left hlt]
      · rw [List.getElem?_eq_none (by omega), List.getElem?_eq_none (by simp; omega)]

theorem slot_bootStore (h : apps.length + 2 < fsMaxEntries) :
    (bootStore folder apps).slot = some (apps.length + 2) := by
  unfold Store.slot
  refine List.find?_range'_eq_some.mpr ⟨by simp [bootStore, bootNodes], ?_, fun j h1 h2 => ?_⟩
  · exact List.mem_range'_1.mpr ⟨by omega, by omega⟩
  · match j with
    | 1 => simp [bootStore, bootNodes]
    | k + 2 =>
      have hk : k < apps.length := by omega
      simp [bootStore, bootNodes, hk]

theorem create_bootStore (h : Loadable (apps ++ [a])) :
    (bootStore folder apps).create (some a.name) (some a.ext) 1 =
      some (((apps.length + 2 : Nat) : Int), (bootStore folder apps).put (apps.length + 2)
        (some ⟨1, a.name, a.ext, false, some []⟩) ((bootStore folder apps).free - 1)) := by
  have hslots := h.slots
  have hroom := h.room
  rw [List.length_append, List.length_singleton] at hslots
  have hpos : 1 ≤ clustersOf a.data := Nat.le_max_left _ _
  rw [appClusters_concat] at hroom
  have hfree : ¬ (bootStore folder apps).free = 0 := by
    simp only [bootStore]
    omega
  have hdup : ((bootStore folder apps).first fun n => n.parent == 1 && !n.isDir &&
      n.name == a.name && (some a.ext).all fun x => n.ext == x) = none := by
    unfold Store.first
    refine List.find?_eq_none.mpr fun i _ hi => ?_
    have hans : ((bootNodes folder apps i).any fun n => n.answers a.name (some a.ext) 1) = true := by
      change (bootNodes folder apps i).any _ = true at hi
      cases hn : bootNodes folder apps i with
      | none =>
        rw [hn] at hi
        cases hi
      | some n =>
        simp only [hn, Option.any_some, Bool.and_eq_true, Bool.not_eq_true', Option.all_some,
          beq_iff_eq] at hi
        simp [Node.answers, hi, lookupExt]
    obtain ⟨k, b, -, hk, hsame⟩ := (answers_bootNodes folder apps _ _ _).mp hans
    exact h.fresh b (List.mem_of_getElem? hk) hsame
  have hdir : (bootStore folder apps).isDirectory 1 = true := rfl
  obtain ⟨hname, hext⟩ := h.short a (List.mem_append_right _ (List.mem_singleton_self a))
  unfold Store.create
  dsimp only
  rw [if_neg (by decide), hdir, if_neg (by decide), hdup, if_neg (by decide),
    slot_bootStore (by omega)]
  dsimp only
  rw [if_neg hfree, CStr.take_of_length_le (by omega), lookupExt, Option.getD_some,
    CStr.take_of_length_le (by omega)]

theorem write_bootStore (h : Loadable (apps ++ [a])) :
    (bootStore folder apps).write (some a.name) (some a.ext) 1 a.data =
      some (0, bootStore folder (apps ++ [a])) := by
  have hdir : (bootStore folder apps).isDirectory 1 = true := rfl
  have hroom := h.room
  rw [appClusters_concat] at hroom
  have hpos : 1 ≤ clustersOf a.data := Nat.le_max_left _ _
  have hfree : (bootStore folder apps).free = fatEntries - 2 - appClusters apps := rfl
  -- all of the data is kept
  have hkept : a.data.take (clusterSize * ((bootStore folder apps).free - 1 + 1)) = a.data := by
    refine List.take_of_length_le (clustersFor_le_iff.mp ?_)
    have : clustersFor a.data.length ≤ clustersOf a.data := Nat.le_max_right _ _
    omega
  unfold Store.write
  rw [if_neg (by simp), if_neg (by decide), hdir, if_neg (by decide), lookup_absent h.fresh]
  dsimp only
  rw [create_bootStore h]
  dsimp only
  rw [if_neg (by omega), Int.toNat_natCast, Store.rewrite]
  have hnode : ((bootStore folder apps).put (apps.length + 2)
      (some ⟨1, a.name, a.ext, false, some []⟩)
      ((bootStore folder apps).free - 1)).nodes (apps.length + 2) =
      some ⟨1, a.name, a.ext, false, some []⟩ := Function.update_self _ _ _
  have hcost : (⟨1, a.name, a.ext, false, some []⟩ : Node).cost = 1 := rfl
  rw [hnode]
  dsimp only [Store.put]
  rw [hcost, if_neg (by omega), hkept, if_pos rfl, Function.update_idem]
  have hnodes := bootNodes_concat folder apps a
  simp only [bootStore, appClusters_concat] at hnodes hfree ⊢
  rw [← hnodes]
  refine congrArg some (congrArg (Prod.mk 0) ?_)
  rw [Store.mk.injEq]
  exact ⟨rfl, by omega⟩

theorem folder_bootStore : (bootStore folder apps).lookup (some folder) none fsRootIdx = some 1 := by
  unfold Store.lookup
  refine (if_neg (by decide)).trans ?_
  unfold Store.first
  refine List.find?_range_eq_some.mpr ⟨?_, List.mem_range.mpr (by decide), fun j hj => ?_⟩
  · simp [bootStore, bootNodes, Node.answers, lookupExt, fsRootIdx]
  · obtain rfl : j = 0 := by omega
    simp [bootStore, bootNodes, Node.answers, fsRootIdx]

theorem folder_init : Store.init.lookup (some folder) none fsRootIdx = none := by
  unfold Store.lookup
  refine (if_neg (by decide)).trans ?_
  unfold Store.first
  refine List.find?_eq_none.mpr fun i _ => ?_
  by_cases hi : i = fsRootIdx
  · simp [hi, Store.init, Node.answers, fsRootIdx]
  · simp [Store.init, Function.update_of_ne hi]

theorem mkdir_init (hfolder : folder.length < fsNameMax) :
    Store.init.mkdir (some folder) fsRootIdx = (1, bootStore folder []) := by
  have hdup : (Store.init.first fun n => n.parent == fsRootIdx && n.isDir && n.name == folder) =
      none := by
    unfold Store.first
    refine List.find?_eq_none.mpr fun i _ => ?_
    by_cases hi : i = fsRootIdx
    · simp [hi, Store.init, fsRootIdx]
    · simp [Store.init, Function.update_of_ne hi]
  have hslot : Store.init.slot = some 1 := by
    unfold Store.slot
    refine List.find?_range'_eq_some.mpr ⟨by simp [Store.init, fsRootIdx], by decide, ?_⟩
    intro j h1 h2
    omega
  have hdir : Store.init.isDirectory fsRootIdx = true := rfl
  have hnodes : Function.update Store.init.nodes 1
      (some ⟨fsRootIdx, folder, CStr.empty, true, none⟩) = bootNodes folder [] := by
    funext i
    rcases i with _ | _ | k
    · rfl
    · rfl
    · rfl
  unfold Store.mkdir
  dsimp only
  rw [if_neg (by decide), hdir, if_neg (by decide), hdup, if_neg (by decide), hslot]
  dsimp only [Store.put]
  rw [CStr.take_of_length_le (by omega), hnodes]
  rfl

/-! ## The calls of `kmain` -/

variable {fs : FS}

/-- The write of `load_app_to_fs`, once the folder is there. -/
theorem writeApp (h : StoreInv fs) (hst : storeOf fs = bootStore folder apps)
    (hl : Loadable (apps ++ [a])) :
    ∃ fs', (fsWriteFileInDir fs (some a.name) (some a.ext) 1 a.data).map (·.2) = some fs' ∧
      StoreInv fs' ∧ storeOf fs' = bootStore folder (apps ++ [a]) := by
  obtain ⟨hsame, hinv⟩ := write_refines h (some a.name) (some a.ext) 1 a.data
  rw [hst, write_bootStore hl] at hsame
  obtain ⟨r, hr, heq⟩ := Option.map_eq_some_iff.mp hsame
  exact ⟨r.2, by rw [hr]; rfl, hinv r hr, congrArg Prod.snd heq⟩

theorem loadAppToFs_next (h : StoreInv fs) (hst : storeOf fs = bootStore folder apps)
    (hl : Loadable (apps ++ [a])) :
    ∃ fs', loadAppToFs fs folder a = some fs' ∧ StoreInv fs' ∧
      storeOf fs' = bootStore folder (apps ++ [a]) := by
  have hidx : (fsFindInDir fs (some folder) none fsRootIdx).1 = 1 := by
    rw [fsFindInDir_storeOf h, hst, folder_bootStore]
    rfl
  unfold loadAppToFs
  dsimp only
  rw [hidx, if_neg (by decide)]
  exact writeApp h hst hl

theorem loadAppToFs_first (disk : Mem) (hfolder : folder.length < fsNameMax) (hl : Loadable [a]) :
    ∃ fs', loadAppToFs (fsInit disk) folder a = some fs' ∧ StoreInv fs' ∧
      storeOf fs' = bootStore folder [a] := by
  have h := storeInv_fsInit disk
  have hidx : (fsFindInDir (fsInit disk) (some folder) none fsRootIdx).1 = -1 := by
    rw [fsFindInDir_storeOf h, storeOf_fsInit, folder_init]
  obtain ⟨hsame, hinv⟩ := mkdir_refines h (some folder) fsRootIdx
  rw [storeOf_fsInit, mkdir_init hfolder, Prod.ext_iff, Prod.map_fst, Prod.map_snd, id_eq] at hsame
  unfold loadAppToFs
  dsimp only
  rw [hidx, if_pos (by decide), hsame.1, if_neg (show ¬ (1 : Int) < 0 by decide)]
  exact writeApp hinv hsame.2 hl

theorem loadApps_next (h : StoreInv fs) (hst : storeOf fs = bootStore folder apps)
    {rest : List App} (hl : Loadable (apps ++ rest)) :
    ∃ fs', loadApps fs folder rest = some fs' ∧ StoreInv fs' ∧
      storeOf fs' = bootStore folder (apps ++ rest) := by
  induction rest generalizing fs apps with
  | nil => exact ⟨fs, rfl, h, by rw [List.append_nil, hst]⟩
  | cons a rest ih =>
    rw [List.append_cons] at hl ⊢
    obtain ⟨fs', hload, hinv, hst'⟩ := loadAppToFs_next h hst hl.left
    rw [loadApps, List.foldlM_cons, hload]
    exact ih hinv hst' hl

theorem loadApps_store (disk : Mem) (hfolder : folder.length < fsNameMax) (hne : apps ≠ [])
    (hl : Loadable apps) :
    ∃ fs, loadApps (fsInit disk) folder apps = some fs ∧ StoreInv fs ∧
      storeOf fs = bootStore folder apps := by
  cases apps with
  | nil => exact absurd rfl hne
  | cons a rest =>
    have hl' : Loadable ([a] ++ rest) := hl
    obtain ⟨fs, hload, hinv, hst⟩ := loadAppToFs_first disk hfolder hl'.left
    rw [loadApps, List.foldlM_cons, hload]
    exact loadApps_next hinv hst hl'

/-! ## What is there afterwards -/

theorem read_bootStore (h : Loadable apps) {k bufsize : Nat} (hk : apps[k]? = some a)
    (hbuf : a.data.length ≤ bufsize) :
    (bootStore folder apps).read (some a.name) (some a.ext) 1 bufsize =
      .bytes 0 a.data (some a.data.length) := by
  have hnode : (bootStore folder apps).nodes (k + 2) = some a.node := by
    simp only [bootStore, bootNodes, hk, Option.map_some]
  have hdata : a.node.contents = a.data := rfl
  rw [Store.read, lookup_loaded h hk]
  dsimp only
  rw [hnode, Option.map_some, Option.getD_some, hdata, if_neg (by omega)]

theorem filterMap_range_getElem? (l : List App) (n : Nat) :
    (List.range n).filterMap (fun k => l[k]?) = l.take n := by
  induction n with
  | zero => rfl
  | succ n ih =>
    rw [List.range_succ, List.filterMap_append, ih, List.take_add_one]
    cases h : l[n]? with
    | none => simp [h]
    | some a => simp [h]

/-- The nodes in the folder, in the order of the table. -/
theorem nodes_bootStore (folder : CStr) (h : apps.length + 2 ≤ fsMaxEntries) :
    ((List.range fsMaxEntries).filterMap (bootNodes folder apps)).filter (fun n => n.parent == 1) =
      apps.map App.node := by
  have hend : fsMaxEntries = 2 + (fsMaxEntries - 2) := by decide
  have hfiles : (List.range (fsMaxEntries - 2)).filterMap
      (bootNodes folder apps ∘ fun k => 2 + k) = apps.map App.node := by
    have hnode : ∀ k, (bootNodes folder apps ∘ fun k => 2 + k) k = apps[k]?.map App.node := by
      intro k
      rw [Function.comp_apply, Nat.add_comm]
      rfl
    rw [funext hnode, ← List.map_filterMap, filterMap_range_getElem?,
      List.take_of_length_le (by omega)]
  have hin : ∀ n ∈ apps.map App.node, (n.parent == 1) = true := by
    intro n hn
    obtain ⟨a, -, rfl⟩ := List.mem_map.mp hn
    rfl
  have htwo : (List.range 2).filterMap (bootNodes folder apps) =
      [⟨-1, rootName, CStr.empty, true, none⟩, ⟨0, folder, CStr.empty, true, none⟩] := rfl
  rw [hend, List.range_add, List.filterMap_append, List.filterMap_map, hfiles,
    List.filter_append, htwo, List.filter_eq_self.mpr hin]
  rfl

end

/-- A boot. For any programs with short names, distinct as pairs of name and extension, and
with room for all: after the calls of `kmain` the folder is there, each program is read back
byte for byte, no other name is found in the folder, its listing is the list of the programs,
in order and cut to `max_files`, and every cluster that no program needs is free. -/
theorem boot_loads (disk : Mem) {folder : CStr} {apps : List App}
    (hfolder : folder.length < fsNameMax) (hne : apps ≠ []) (hl : Loadable apps) :
    ∃ fs, loadApps (fsInit disk) folder apps = some fs ∧
      (fsFindInDir fs (some folder) none fsRootIdx).1 = 1 ∧
      (∀ a ∈ apps, ∀ bufsize, a.data.length ≤ bufsize →
        fsReadFileInDir fs (some a.name) (some a.ext) 1 bufsize =
          (0, a.data, some a.data.length)) ∧
      (∀ name ext, (∀ a ∈ apps, ¬ (a.name = name ∧ a.ext = ext)) →
        (fsFindInDir fs (some name) (some ext) 1).1 = -1) ∧
      (∀ maxFiles, (fsGetAllInDir fs maxFiles 1).map Entry.shown =
        (apps.take maxFiles.toNat).map fun a => ⟨a.name, a.ext, 1, false, a.data.length⟩) ∧
      freeClusters fs.fat = fatEntries - 2 - appClusters apps := by
  obtain ⟨fs, hload, hinv, hst⟩ := loadApps_store disk hfolder hne hl
  refine ⟨fs, hload, ?_, fun a ha bufsize hbuf => ?_, fun name ext hno => ?_, fun maxFiles => ?_,
    congrArg Store.free hst⟩
  · rw [fsFindInDir_storeOf hinv, hst, folder_bootStore]
    rfl
  · obtain ⟨k, hk⟩ := List.mem_iff_getElem?.mp ha
    have hread := read_refines hinv (some a.name) (some a.ext) 1 bufsize
    rw [hst, read_bootStore hl hk hbuf, Answer.bytes.injEq] at hread
    exact Prod.ext hread.1 (Prod.ext hread.2.1 hread.2.2)
  · rw [fsFindInDir_storeOf hinv, hst, lookup_absent hno]
  · have hlist := getAll_refines hinv maxFiles 1
    rw [hst, Store.getAll, if_neg (by decide)] at hlist
    have hnodes := nodes_bootStore folder hl.slots
    simp only [bootStore, hnodes, Answer.listing.injEq, ← List.map_take, List.map_map] at hlist
    exact hlist

/-- Two programs, one of them empty. -/
def twoApps : List App := [⟨nameA, nameB, [1, 2, 3]⟩, ⟨nameB, nameB, []⟩]

theorem boot_loads_twoApps : ∃ fs, loadApps (fsInit fun _ => 0) nameA twoApps = some fs ∧
    fsReadFileInDir fs (some nameA) (some nameB) 1 512 = (0, [1, 2, 3], some 3) ∧
    (fsGetAllInDir fs 1 1).map Entry.shown = [⟨nameA, nameB, 1, false, 3⟩] := by
  have hl : Loadable twoApps := ⟨by decide, by decide, by decide, by decide⟩
  obtain ⟨fs, hload, -, hread, -, hlist, -⟩ :=
    boot_loads (fun _ => 0) (show nameA.length < fsNameMax by decide) (by decide) hl
  exact ⟨fs, hload, hread _ List.mem_cons_self 512 (by decide), hlist 1⟩

end KernelC.Fat16
