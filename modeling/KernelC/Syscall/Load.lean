import KernelC.Fat16.Covered
import KernelC.Fat16.Lookup
import KernelC.Malloc.Canonical
import KernelC.Malloc.Realloc
import KernelC.Multitask.Conservation

/-!
# Loading a program: `load_and_run_program` of `syscall/syscall.c`

The loader finds the program in `/bin`, takes a block of the user heap for its
image and 1024 bytes more for its `.bss`, reads the file into the block and
hands it to a new task. It clears as many bytes as the file has, and then reads
the file over them; the bytes behind the image stay as the last owner of the
memory left them.

Results: `load_spec` says what a successful call does, `loaded_image_iff` when
two runs over different leftovers hand out the same image; `leftovers_loaded`.
-/

namespace KernelC.Syscall

open Fat16 Multitask
open Malloc (Heap Holds alignUp userMagic userMalloc blockList)

/-- The name of the directory and the extension of the programs in it. -/
def binName : CStr := ⟨[98, 105, 110], by simp⟩

/-- The index of `/bin`, or -1. -/
def binIdx (fs : FS) : Int := (fsFindInDir fs (some binName) none fsRootIdx).1

/-- The result is the pid, 0 for a program that cannot be loaded and -1 for no name. The sum
`entry.size + 1024` is one of 32-bit numbers. -/
def loadAndRunProgram (R : HeapRegions) (fs : FS) (w : World) (str : Option CStr) :
    Option (World × Int) :=
  match str with
  | none => some (w, -1)
  | some str =>
    if str.at 0 = 0 then some (w, -1)
    else if binIdx fs < 0 then some (w, 0)
    else
      match (fsFindInDir fs (some str) (some binName) (binIdx fs)).2 with
      | none => some (w, 0)
      | some entry =>
        if entry.size = 0 then some (w, 0)
        else
          (userMalloc R.user w.user.heap ((entry.size + 1024) % 2 ^ 32)).bind fun r =>
            let userMem := r.2
            if userMem = 0 then some ({ w with user := ⟨r.1, w.user.live⟩ }, 0)
            else
              let m := memset r.1.mem userMem 0 entry.size
              let read := fsReadFileInDir fs (some str) (some binName) (binIdx fs) entry.size
              let m := store m userMem read.2.1
              let w := { w with user := ⟨{ r.1 with mem := m }, insert userMem w.user.live⟩ }
              (w.utaskCreate R userMem 16384 userMem entry.size).map fun r =>
                if r.2 = 0 then (r.1.userFree userMem, 0) else r

/-- The file `f` is the program `str`. -/
structure IsProgram (fs : FS) (str : CStr) (f : Entry) : Prop where
  named : str.at 0 ≠ 0
  bin : 0 ≤ binIdx fs
  found : (fsFindInDir fs (some str) (some binName) (binIdx fs)).2 = some f
  nonempty : f.size ≠ 0

/-- The bytes of the file. -/
def fileBytes (fs : FS) (f : Entry) : List UInt8 := fsRead fs f.firstCluster f.size

/-- The task that was created last: the tail of the ring. -/
def newTask (w : World) : Task := w.sched.task w.sched.taskRing

variable {R : HeapRegions} {fs : FS} {w w' : World} {str : CStr} {f : Entry} {pid : Int}

/-! ## The file -/

/-- The program is a file, no directory: its extension is not empty. -/
theorem IsProgram.isFile (hf : IsProgram fs str f) :
    ∃ i, (IsFile fs i ∧ fs.entries i = f) ∧
      fsFindInDir fs (some str) (some binName) (binIdx fs) = ((i : Int), some f) := by
  have hfound := hf.found
  rcases fsFindInDir_cases fs (some str) (some binName) (binIdx fs) with
    heq | ⟨i, nm, -, hi, hmatch, -, heq⟩
  · rw [heq] at hfound
    cases hfound
  rw [heq] at hfound
  obtain rfl := Option.some.inj hfound
  refine ⟨i, ⟨⟨used_of_matchAt hi hmatch, ?_⟩, rfl⟩, heq⟩
  obtain ⟨-, -, -, hkind⟩ := matchAt_iff.mp hmatch
  rw [← Bool.not_eq_true]
  intro hdir
  rw [if_pos hdir] at hkind
  exact absurd hkind (by decide)

theorem IsProgram.size_lt (hf : IsProgram fs str f) (h : SizeInv fs) :
    (fileBytes fs f).length = f.size ∧ f.size + 1024 < 2 ^ 32 := by
  obtain ⟨i, ⟨hfile, rfl⟩, -⟩ := hf.isFile
  obtain ⟨hlen, hsize⟩ := h.file_bytes hfile
  exact ⟨hlen, Nat.lt_of_le_of_lt (Nat.add_le_add_right hsize _) (by decide)⟩

/-! ## The new task -/

theorem malloc_keeps {n p : Nat} (h : w.malloc R n = some (w', p)) :
    w'.user = w.user ∧ w'.sched = w.sched := by
  unfold World.malloc at h
  obtain ⟨r, -, h⟩ := Option.map_eq_some_iff.mp h
  split at h
  · rw [Prod.mk.injEq] at h
    rw [← h.1]
    exact ⟨rfl, rfl⟩
  · rw [Prod.mk.injEq] at h
    rw [← h.1]
    exact ⟨rfl, rfl⟩

/-- A creation that succeeds hands the block to the new task, and leaves the user heap alone. -/
theorem utaskCreate_spec {entry size mem memSize : Nat}
    (h : w.utaskCreate R entry size mem memSize = some (w', pid)) (hpid : pid ≠ 0) :
    w'.user = w.user ∧ (newTask w').pid = pid ∧ (newTask w').userMem = mem ∧
      (newTask w').userMemSize = memSize := by
  unfold World.utaskCreate World.createTask at h
  obtain ⟨⟨w₁, t⟩, hrecord, h⟩ := Option.bind_eq_some_iff.mp h
  obtain ⟨huser, hsched⟩ := malloc_keeps hrecord
  dsimp only at h
  split at h
  · rw [Option.some.injEq, Prod.mk.injEq] at h
    exact absurd h.2.symm hpid
  next ht =>
  obtain ⟨⟨w₂, k⟩, hstack, h⟩ := Option.map_eq_some_iff.mp h
  obtain ⟨huser', hsched'⟩ := malloc_keeps hstack
  dsimp only at h
  split at h
  · rw [Prod.mk.injEq] at h
    exact absurd h.2.symm hpid
  next hk =>
  obtain ⟨htail, hp, hmem, hsize, -⟩ := createTask_new w₂.sched entry size mem memSize ht hk
  unfold World.addTask at h
  dsimp only at h
  rw [Prod.mk.injEq] at h
  obtain ⟨rfl, rfl⟩ := h
  refine ⟨huser'.trans huser, ?_⟩
  unfold newTask
  dsimp only
  rw [htail]
  exact ⟨hp, hmem, hsize⟩

/-- The heap with the image of a program in its block at `p`. -/
def withImage (s : Heap) (p size : Nat) (bytes : List UInt8) : Heap :=
  { s with mem := store (memset s.mem p 0 size) p bytes }

/-- A call either returns at once, or there is a program to be loaded. -/
theorem load_cases (R : HeapRegions) (fs : FS) (w : World) (str : Option CStr) :
    (∃ r, (r = 0 ∨ r = -1) ∧ loadAndRunProgram R fs w str = some (w, r)) ∨
      ∃ name f, str = some name ∧ IsProgram fs name f := by
  unfold loadAndRunProgram
  cases str with
  | none => exact .inl ⟨-1, .inr rfl, rfl⟩
  | some name =>
    dsimp only
    by_cases hnamed : name.at 0 = 0
    · exact .inl ⟨-1, .inr rfl, if_pos hnamed⟩
    rw [if_neg hnamed]
    by_cases hbin : binIdx fs < 0
    · exact .inl ⟨0, .inl rfl, if_pos hbin⟩
    rw [if_neg hbin]
    cases hfound : (fsFindInDir fs (some name) (some binName) (binIdx fs)).2 with
    | none => exact .inl ⟨0, .inl rfl, rfl⟩
    | some f =>
      dsimp only
      by_cases hsize : f.size = 0
      · exact .inl ⟨0, .inl rfl, if_pos hsize⟩
      · exact .inr ⟨name, f, rfl, hnamed, Int.not_lt.mp hbin, hfound, hsize⟩

/-- A program is read into a block of its own, which goes to a new task or is freed again. -/
theorem load_program (R : HeapRegions) (w : World) (hf : IsProgram fs str f) :
    loadAndRunProgram R fs w (some str) =
      (userMalloc R.user w.user.heap ((f.size + 1024) % 2 ^ 32)).bind fun r =>
        if r.2 = 0 then some ({ w with user := ⟨r.1, w.user.live⟩ }, 0)
        else
          (World.utaskCreate R
            { w with user := ⟨withImage r.1 r.2 f.size (fileBytes fs f), insert r.2 w.user.live⟩ }
            r.2 16384 r.2 f.size).map fun q => if q.2 = 0 then (q.1.userFree r.2, 0) else q := by
  unfold loadAndRunProgram
  dsimp only
  obtain ⟨i, -, hread⟩ := hf.isFile
  rw [if_neg hf.named, if_neg (Int.not_lt.mpr hf.bin), hf.found]
  dsimp only
  rw [if_neg hf.nonempty]
  unfold fsReadFileInDir
  rw [hread]
  dsimp only
  rw [if_neg (Nat.lt_irrefl _)]
  rfl

/-- What a successful call does: `user_malloc` gives a block, its first bytes are cleared,
the file is read over them, and the block goes to the new task. -/
theorem load_spec (h : loadAndRunProgram R fs w (some str) = some (w', pid))
    (hf : IsProgram fs str f) (hpid : pid ≠ 0) :
    ∃ s p, userMalloc R.user w.user.heap ((f.size + 1024) % 2 ^ 32) = some (s, p) ∧ p ≠ 0 ∧
      w'.user.heap.mem = store (memset s.mem p 0 f.size) p (fileBytes fs f) ∧
      (newTask w').pid = pid ∧ (newTask w').userMem = p ∧ (newTask w').userMemSize = f.size := by
  rw [load_program R w hf] at h
  obtain ⟨⟨s, p⟩, hmalloc, h⟩ := Option.bind_eq_some_iff.mp h
  dsimp only at h
  split at h
  · rw [Option.some.injEq, Prod.mk.injEq] at h
    exact absurd h.2.symm hpid
  next hp =>
  obtain ⟨⟨w₁, q⟩, hcreate, h⟩ := Option.map_eq_some_iff.mp h
  dsimp only at h
  split at h
  · rw [Prod.mk.injEq] at h
    exact absurd h.2.symm hpid
  rw [Prod.mk.injEq] at h
  obtain ⟨rfl, rfl⟩ := h
  obtain ⟨huser, htask⟩ := utaskCreate_spec hcreate hpid
  refine ⟨s, p, hmalloc, hp, ?_, htask⟩
  rw [huser]
  rfl

/-! ## The block -/

/-- The first block of the list that is free and has room. -/
def firstFit (size : Nat) (l : List Block) : Option Block :=
  l.find? fun b => b.free && size ≤ b.size

theorem firstFit_eq {size : Nat} {u v : List Block} {b : Block}
    (hb : Malloc.Fits size b) (hfirst : ∀ c ∈ u, ¬ Malloc.Fits size c) :
    firstFit size (u ++ b :: v) = some b := by
  refine List.find?_eq_some_iff_append.mpr ⟨by simpa [Malloc.Fits] using hb, u, v, rfl, ?_⟩
  intro c hc
  rw [Bool.not_eq_true', ← Bool.not_eq_true]
  simpa [Malloc.Fits] using hfirst c hc

/-- `user_malloc` returns the payload of the first block that fits, as it was. -/
theorem userMalloc_firstFit {s s' : Heap} {live : Finset Nat} {l : List Block} {n p : Nat}
    (h : Holds userMagic R.user s live l) (hcall : userMalloc R.user s n = some (s', p))
    (hp : p ≠ 0) (hn : n < 2 ^ 32) :
    ∃ b, firstFit (alignUp n) l = some b ∧ p = b.addr + 40 ∧
      ∀ i, i < n → s'.mem (p + i) = s.mem (p + i) := by
  rcases Malloc.userMalloc_found h n with ⟨hnull, -⟩ | ⟨u, b, v, rfl, hfit, hfirst, hsome⟩
  · rw [hnull, Option.some.injEq, Prod.mk.injEq] at hcall
    exact absurd hcall.2.symm hp
  rw [hsome, Option.some.injEq, Prod.mk.injEq] at hcall
  obtain ⟨rfl, rfl⟩ := hcall
  refine ⟨b, firstFit_eq hfit hfirst, rfl, fun i hi => ?_⟩
  have hle : n ≤ alignUp n := Malloc.le_alignUp (by omega)
  have hsize := hfit.2
  -- the byte is in the payload before the block is cut and after it
  have hnew := (h.take hfit).layout
  obtain ⟨d, hd, haddr, -, hd'⟩ := Malloc.cut_used (b := { b with free := false }) rfl hfit.2
  refine Malloc.takeBlock_clear h.layout hfit.2
    (h.layout.clear (b := b) (by simp) (by omega) (by omega))
    (hnew.clear (b := d) (by simp [hd]) ?_ ?_)
  · dsimp only at haddr
    omega
  · dsimp only at haddr
    omega

/-! ## The image -/

/-- The bytes that the new task has been handed: its image and the 1024 bytes behind it. -/
def taskImage (w : World) (size : Nat) : List UInt8 :=
  load w.user.heap.mem (newTask w).userMem (size + 1024)

/-- In the block that an image of `size` bytes would get, the 1024 bytes behind it are zero. -/
def Blank (h : Heap) (size : Nat) : Prop :=
  ∀ l ∈ blockList h, ∀ b ∈ firstFit (alignUp (size + 1024)) l,
    ∀ i, i < 1024 → h.mem (b.addr + 40 + size + i) = 0

/-- A call that succeeds, on a heap that programs have used before. -/
structure Loads (R : HeapRegions) (fs : FS) (str : CStr) (w w' : World) : Prop where
  used : ∃ m os, Run (Malloc.user R.user).step (Malloc.user R.user).Permitted
    (Malloc.userStart R.user m) os w.user
  returns : ∃ pid, pid ≠ 0 ∧ loadAndRunProgram R fs w (some str) = some (w', pid)

/-- The place of the image is a matter of the block list, and what stands there is the file,
followed by what stood there before. -/
theorem Loads.image {disk : Mem} {ops : List Fat16.Op} (h : Loads R fs str w w')
    (hf : IsProgram fs str f) (hr : Run Fat16.step (fun _ op => ByName op) (fsInit disk) ops fs) :
    ∃ l b, blockList w.user.heap = some l ∧ firstFit (alignUp (f.size + 1024)) l = some b ∧
      (newTask w').userMem = b.addr + 40 ∧
      taskImage w' f.size =
        fileBytes fs f ++ load w.user.heap.mem (b.addr + 40 + f.size) 1024 := by
  obtain ⟨m, os, hrun⟩ := h.used
  obtain ⟨pid, hpid, hcall⟩ := h.returns
  obtain ⟨hlen, hlt⟩ := hf.size_lt (sizeInv_of_run hr)
  obtain ⟨s, p, hmalloc, hp, hmem, -, huser, -⟩ := load_spec hcall hf hpid
  rw [Nat.mod_eq_of_lt hlt] at hmalloc
  obtain ⟨l, hl⟩ := Malloc.user_run hrun
  obtain ⟨b, hfit, rfl, hkept⟩ := userMalloc_firstFit hl hmalloc hp hlt
  refine ⟨l, b, Malloc.blockList_eq hl.layout hl.head, hfit, huser, ?_⟩
  unfold taskImage
  have hfile : load (store (memset s.mem (b.addr + 40) 0 f.size) (b.addr + 40) (fileBytes fs f))
      (b.addr + 40) f.size = fileBytes fs f := by
    nth_rewrite 2 [← hlen]
    exact load_store_same _ _ _
  rw [huser, hmem, load_add, hfile]
  refine congrArg (fileBytes fs f ++ ·) (load_congr fun x h1 h2 => ?_)
  rw [store_of_outside (by omega), memset_apply, if_neg (by omega)]
  obtain ⟨i, rfl⟩ : ∃ i, x = b.addr + 40 + i := ⟨x - (b.addr + 40), by omega⟩
  exact hkept i (by omega)

theorem Loads.blank_iff {disk : Mem} {ops : List Fat16.Op} (h : Loads R fs str w w')
    (hf : IsProgram fs str f) (hr : Run Fat16.step (fun _ op => ByName op) (fsInit disk) ops fs) :
    taskImage w' f.size = fileBytes fs f ++ List.replicate 1024 0 ↔
      Blank w.user.heap f.size := by
  obtain ⟨l, b, hlist, hfit, -, himage⟩ := h.image hf hr
  unfold Blank
  rw [himage, List.append_cancel_left_eq, List.eq_replicate_iff, load_length,
    and_iff_right rfl, hlist]
  simp only [Option.mem_def, Option.some.injEq, forall_eq', hfit, load, List.forall_mem_map,
    List.mem_range]

/-- Two runs that differ in what earlier programs left in the free memory. The program gets the
same block in both. It finds its file there, followed by zeros, exactly when the memory behind the
image was zero before. -/
theorem loaded_image_iff {disk : Mem} {ops : List Fat16.Op} {w₁ w₁' w₂ w₂' : World}
    (hr : Run Fat16.step (fun _ op => ByName op) (fsInit disk) ops fs) (hf : IsProgram fs str f)
    (h₁ : Loads R fs str w₁ w₁') (h₂ : Loads R fs str w₂ w₂')
    (hsame : blockList w₁.user.heap = blockList w₂.user.heap) :
    (newTask w₁').userMem = (newTask w₂').userMem ∧
    (fileBytes fs f).length = f.size ∧
    (taskImage w₁' f.size = fileBytes fs f ++ List.replicate 1024 0 ∧
        taskImage w₂' f.size = fileBytes fs f ++ List.replicate 1024 0 ↔
      Blank w₁.user.heap f.size ∧ Blank w₂.user.heap f.size) := by
  refine ⟨?_, (hf.size_lt (sizeInv_of_run hr)).1,
    and_congr (h₁.blank_iff hf hr) (h₂.blank_iff hf hr)⟩
  obtain ⟨l₁, b₁, hlist₁, hfit₁, huser₁, -⟩ := h₁.image hf hr
  obtain ⟨l₂, b₂, hlist₂, hfit₂, huser₂, -⟩ := h₂.image hf hr
  rw [hlist₁, hlist₂, Option.some.injEq] at hsame
  rw [hsame, hfit₂, Option.some.injEq] at hfit₁
  rw [huser₁, huser₂, hfit₁]

/-! ## Leftovers -/

/-- Make `/bin` and the program `a` in it. -/
def program : List Fat16.Op :=
  [.mkdir (some binName) fsRootIdx, .writeFileInDir (some nameA) (some binName) 1 [1, 2, 3]]

def programFs : FS :=
  (exec Fat16.step (fun _ op => ByName op) (fsInit fun _ => 0) program).getD (fsInit fun _ => 0)

theorem programFs_run :
    Run Fat16.step (fun _ op => ByName op) (fsInit fun _ => 0) program programFs := by
  have hsome : (exec Fat16.step (fun _ op => ByName op) (fsInit fun _ => 0) program).isSome := by
    decide +kernel
  obtain ⟨fs, hfs⟩ := Option.isSome_iff_exists.mp hsome
  unfold programFs
  rw [hfs]
  exact Run.of_exec hfs

theorem isProgram_nameA : IsProgram programFs nameA (programFs.entries 2) where
  named := by decide
  bin := by decide +kernel
  found := by decide +kernel
  nonempty := by decide +kernel

/-- Load `a` when the calls `os` have been made on the user heap. -/
def loadedAfter (os : List Malloc.Op) : Option (World × World × Int) :=
  (exec (Malloc.user heaps128.user).step (Malloc.user heaps128.user).Permitted
      (Malloc.userStart heaps128.user fun _ => 0) os).bind fun c =>
    let w := { World.start heaps128 (fun _ => noTask) (fun _ => 0) (fun _ => 0) (fun _ => 0) with
      user := c }
    (loadAndRunProgram heaps128 programFs w (some nameA)).map fun r => (w, r)

/-- What is computed about a call of `loadedAfter` that succeeds. -/
theorem loads_of_loadedAfter {β : Type} (os : List Malloc.Op) {g : World → World → β} {v : β}
    (h : (loadedAfter os).map (fun r => (r.2.2, g r.1 r.2.1)) = some (1, v)) :
    ∃ w w', Loads heaps128 programFs nameA w w' ∧ g w w' = v := by
  obtain ⟨⟨w, w', pid⟩, hload, heq⟩ := Option.map_eq_some_iff.mp h
  obtain ⟨c, hc, hload⟩ := Option.bind_eq_some_iff.mp hload
  obtain ⟨r, hr, hpair⟩ := Option.map_eq_some_iff.mp hload
  rw [Prod.mk.injEq] at hpair heq
  obtain ⟨rfl, rfl⟩ := hpair
  obtain ⟨hpid, hval⟩ := heq
  dsimp only at hpid hval
  exact ⟨_, _, ⟨⟨fun _ => 0, os, Run.of_exec hc⟩, pid, by rw [hpid]; decide, hr⟩, hval⟩

/-- A program has written one byte into its block, behind where the image will be. -/
def leftBehind : List Malloc.Op := [.malloc 2000, .write 0x8200028 100 [7], .free 0x8200028]

/-- Both heaps consist of one free block; in the second one, the program finds a byte of the last
owner of its memory. -/
theorem leftovers_loaded : ∃ w₁ w₁' w₂ w₂',
    Run Fat16.step (fun _ op => ByName op) (fsInit fun _ => 0) program programFs ∧
    IsProgram programFs nameA (programFs.entries 2) ∧
    Loads heaps128 programFs nameA w₁ w₁' ∧ Loads heaps128 programFs nameA w₂ w₂' ∧
    blockList w₁.user.heap = blockList w₂.user.heap ∧
    (taskImage w₁' (programFs.entries 2).size).getD 100 0 = 0 ∧
    (taskImage w₂' (programFs.entries 2).size).getD 100 0 = 7 ∧
    taskImage w₂' (programFs.entries 2).size ≠
      fileBytes programFs (programFs.entries 2) ++ List.replicate 1024 0 := by
  obtain ⟨w₁, w₁', h₁, hval₁⟩ := loads_of_loadedAfter []
    (g := fun w w' => (blockList w.user.heap,
      (taskImage w' (programFs.entries 2).size).getD 100 0))
    (v := (some [⟨0x8200000, 0x8000000 - 40, true⟩], 0)) (by decide +kernel)
  obtain ⟨w₂, w₂', h₂, hval₂⟩ := loads_of_loadedAfter leftBehind
    (g := fun w w' => (blockList w.user.heap,
      (taskImage w' (programFs.entries 2).size).getD 100 0))
    (v := (some [⟨0x8200000, 0x8000000 - 40, true⟩], 7)) (by decide +kernel)
  rw [Prod.mk.injEq] at hval₁ hval₂
  obtain ⟨hlist₁, hbyte₁⟩ := hval₁
  obtain ⟨hlist₂, hbyte₂⟩ := hval₂
  refine ⟨w₁, w₁', w₂, w₂', programFs_run, isProgram_nameA, h₁, h₂, hlist₁.trans hlist₂.symm,
    hbyte₁, hbyte₂, fun heq => ?_⟩
  rw [heq] at hbyte₂
  exact absurd hbyte₂ (by decide +kernel)

/-- A program has written one byte into its block, where the image will be. -/
def leftInside : List Malloc.Op := [.malloc 4096, .write 0x8200028 0 [7], .free 0x8200028]

/-- The heap is one free block, with zeros behind an image of three bytes. -/
theorem blank_of_zeros {h : Heap} (hlist : blockList h = some [⟨0x8200000, 0x8000000 - 40, true⟩])
    (hzero : ((List.range 1024).all fun i => h.mem (0x820002b + i) == 0) = true) : Blank h 3 := by
  intro l hl b hb
  rw [hlist, Option.mem_def, Option.some.injEq] at hl
  subst hl
  obtain rfl : (⟨0x8200000, 0x8000000 - 40, true⟩ : Block) = b := by
    have hfit : firstFit (alignUp (3 + 1024)) [⟨0x8200000, 0x8000000 - 40, true⟩] =
      some ⟨0x8200000, 0x8000000 - 40, true⟩ := by decide
    rw [hfit, Option.mem_def, Option.some.injEq] at hb
    exact hb
  intro i hi
  exact eq_of_beq (List.all_eq_true.mp hzero i (List.mem_range.mpr hi))

/-- The heaps differ in a byte of the free memory, and the program is loaded over it. -/
theorem loaded_image_iff_leftInside : ∃ w₁ w₁' w₂ w₂',
    Loads heaps128 programFs nameA w₁ w₁' ∧ Loads heaps128 programFs nameA w₂ w₂' ∧
    w₁.user.heap.mem 0x8200028 ≠ w₂.user.heap.mem 0x8200028 ∧
    (newTask w₁').userMem = (newTask w₂').userMem ∧
    taskImage w₁' (programFs.entries 2).size = taskImage w₂' (programFs.entries 2).size := by
  have hsize : (programFs.entries 2).size = 3 := by decide +kernel
  obtain ⟨w₁, w₁', h₁, hval₁⟩ := loads_of_loadedAfter []
    (g := fun w _ => (blockList w.user.heap, w.user.heap.mem 0x8200028,
      (List.range 1024).all fun i => w.user.heap.mem (0x820002b + i) == 0))
    (v := (some [⟨0x8200000, 0x8000000 - 40, true⟩], 0, true)) (by decide +kernel)
  obtain ⟨w₂, w₂', h₂, hval₂⟩ := loads_of_loadedAfter leftInside
    (g := fun w _ => (blockList w.user.heap, w.user.heap.mem 0x8200028,
      (List.range 1024).all fun i => w.user.heap.mem (0x820002b + i) == 0))
    (v := (some [⟨0x8200000, 0x8000000 - 40, true⟩], 7, true)) (by decide +kernel)
  rw [Prod.mk.injEq, Prod.mk.injEq] at hval₁ hval₂
  obtain ⟨hlist₁, hbyte₁, hzero₁⟩ := hval₁
  obtain ⟨hlist₂, hbyte₂, hzero₂⟩ := hval₂
  obtain ⟨hplace, -, hiff⟩ := loaded_image_iff programFs_run isProgram_nameA h₁ h₂
    (hlist₁.trans hlist₂.symm)
  rw [hsize] at hiff ⊢
  obtain ⟨himage₁, himage₂⟩ :=
    hiff.mpr ⟨blank_of_zeros hlist₁ hzero₁, blank_of_zeros hlist₂ hzero₂⟩
  exact ⟨w₁, w₁', w₂, w₂', h₁, h₂, by rw [hbyte₁, hbyte₂]; decide, hplace,
    himage₁.trans himage₂.symm⟩

end KernelC.Syscall
