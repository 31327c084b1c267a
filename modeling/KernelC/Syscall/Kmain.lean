import KernelC.Fat16.Boot
import KernelC.Multitask.Dispatch
import KernelC.Syscall.Programs

/-!
# The boot: `kmain` of `kernel.c`, and `tasks/tasks.c`

`kmain` sets the heaps, the disk and the scheduler up, writes five programs to the disk and
creates three tasks: the clock, the terminal and the reaper. Nothing interrupts it.

* A boot is a run of the system (`kmain_is_run`), so what holds in every state that is
  reached holds after a boot, and for as long as the system runs.
* What it leaves (`kmain_boots`): three tasks that wait for their first tick, each with the
  frame of its entry point, and the terminal in the first block of the user heap.
* No call of a program writes to the disk. So whatever a program start starts later is one of
  the five programs, byte for byte (`programs_after_boot`).
-/

namespace KernelC.Syscall

open Fat16 Multitask
open Malloc (Client Fits Holds Region alignUp blockList cut userMagic userMalloc)
open Malloc.Kernel (KHeap kernelMagic)

/-! ## The code -/

/-- The arrays `terminal_bin`, `htop_bin`, `clear_bin`, `shutdown_bin` and `reboot_bin`. -/
structure Images where
  terminal : List UInt8
  htop : List UInt8
  clear : List UInt8
  shutdown : List UInt8
  reboot : List UInt8

def terminalName : CStr := ⟨[116, 101, 114, 109, 105, 110, 97, 108], by simp⟩
def htopName : CStr := ⟨[104, 116, 111, 112], by simp⟩
def clearName : CStr := ⟨[99, 108, 101, 97, 114], by simp⟩
def shutdownName : CStr := ⟨[115, 104, 117, 116, 100, 111, 119, 110], by simp⟩
def rebootName : CStr := ⟨[114, 101, 98, 111, 111, 116], by simp⟩

/-- The calls of `load_app_to_fs` in `kmain`. -/
def kmainApps (im : Images) : List App :=
  [⟨terminalName, binName, im.terminal⟩, ⟨htopName, binName, im.htop⟩,
    ⟨clearName, binName, im.clear⟩, ⟨shutdownName, binName, im.shutdown⟩,
    ⟨rebootName, binName, im.reboot⟩]

def loadAndRunTerminal (R : HeapRegions) (fs : FS) (w : World) : Option World :=
  if binIdx fs < 0 then some w
  else
    match (fsFindInDir fs (some terminalName) (some binName) (binIdx fs)).2 with
    | none => some w
    | some entry =>
      (userMalloc R.user w.user.heap ((entry.size + 1024) % 2 ^ 32)).bind fun r =>
        let userMem := r.2
        if userMem = 0 then some { w with user := ⟨r.1, w.user.live⟩ }
        else
          let read :=
            fsReadFileInDir fs (some terminalName) (some binName) (binIdx fs) entry.size
          let m := store r.1.mem userMem read.2.1
          let w := { w with user := ⟨{ r.1 with mem := m }, insert userMem w.user.live⟩ }
          (w.utaskCreate R userMem 0 userMem entry.size).map Prod.fst

/-- The addresses of the two functions of the kernel that run as tasks. -/
structure TaskEntries where
  userTask1 : Nat
  zombieReaperTask : Nat

def tasksInit (R : HeapRegions) (e : TaskEntries) (fs : FS) (w : World) : Option World :=
  (w.taskCreate R e.userTask1 0).bind fun w =>
    (loadAndRunTerminal R fs w).bind fun w => w.taskCreate R e.zombieReaperTask 0

/-- The state in which `kmain` sets the interrupt flag, from the one that the initialisation
of the heaps, the disk and the scheduler gives. -/
def kmain (R : HeapRegions) (e : TaskEntries) (im : Images) (s : System) : Option System :=
  (loadApps s.fs binName (kmainApps im)).bind fun fs =>
    (tasksInit R e fs s.world).map fun w => ⟨fs, w⟩

/-! ## The disk -/

section Disk

variable {fs fs' : FS} {im : Images} {folder : CStr} {a : App}

/-- The calls by name are steps of the file system. -/
theorem write_run {name ext : CStr} {parent : Int} {data : List UInt8}
    (h : (fsWriteFileInDir fs (some name) (some ext) parent data).map (·.2) = some fs') :
    Run Fat16.step (fun _ o => ByName o) fs
      [.writeFileInDir (some name) (some ext) parent data] fs' :=
  .single (show ByName (.writeFileInDir (some name) (some ext) parent data) from trivial) h

theorem loadAppToFs_run (h : loadAppToFs fs folder a = some fs') :
    ∃ os, Run Fat16.step (fun _ o => ByName o) fs os fs' := by
  unfold loadAppToFs at h
  dsimp only at h
  split at h
  · have hmkdir : ∀ os, Run Fat16.step (fun _ o => ByName o)
        (fsMkdir fs (some folder) fsRootIdx).2 os fs' →
        Run Fat16.step (fun _ o => ByName o) fs (.mkdir (some folder) fsRootIdx :: os) fs' :=
      fun os => .cons (show ByName (.mkdir (some folder) fsRootIdx) from trivial) rfl
    split at h
    · obtain rfl := Option.some.inj h
      exact ⟨_, hmkdir [] (.nil _)⟩
    · exact ⟨_, hmkdir _ (write_run h)⟩
  · exact ⟨_, write_run h⟩

theorem loadApps_run {apps : List App} (h : loadApps fs folder apps = some fs') :
    ∃ os, Run Fat16.step (fun _ o => ByName o) fs os fs' := by
  induction apps generalizing fs with
  | nil =>
    obtain rfl := Option.some.inj h
    exact ⟨[], .nil fs⟩
  | cons a apps ih =>
    rw [loadApps, List.foldlM_cons] at h
    obtain ⟨u, hu, hrest⟩ := Option.bind_eq_some_iff.mp h
    obtain ⟨os, hos⟩ := loadAppToFs_run hu
    obtain ⟨os', hos'⟩ := ih hrest
    exact ⟨os ++ os', hos.append hos'⟩

/-- As a run of the system. -/
theorem files_run {os : List Fat16.Op} (R : HeapRegions) (w : World)
    (hr : Run Fat16.step (fun _ o => ByName o) fs os fs') :
    Run (System.step R) (System.Permitted R) ⟨fs, w⟩ (os.map .file) ⟨fs', w⟩ := by
  induction hr with
  | nil fs => exact .nil _
  | @cons fs fs₁ fs₂ o os ho hs _ ih =>
    have hstep : System.step R ⟨fs, w⟩ (.file o) = some ⟨fs₁, w⟩ := by
      show (Fat16.step fs o).map _ = _
      rw [hs]
      rfl
    exact .cons ho hstep ih

/-- What a boot leaves on the disk. -/
structure Booted (im : Images) (fs : FS) : Prop where
  inv : StoreInv fs
  store : storeOf fs = bootStore binName (kmainApps im)
  loadable : Loadable (kmainApps im)

/-- The names and extensions of the programs, which do not depend on what is in them. -/
theorem names_kmainApps (ha : a ∈ kmainApps im) : a.name.length < fsNameMax ∧
    a.ext.length < fsExtMax ∧ a.ext = binName ∧ a.name.at 0 ≠ 0 := by
  have hnames : ∀ p ∈ [(terminalName, binName), (htopName, binName), (clearName, binName),
      (shutdownName, binName), (rebootName, binName)], p.1.length < fsNameMax ∧
        p.2.length < fsExtMax ∧ p.2 = binName ∧ p.1.at 0 ≠ 0 := by
    decide
  have hmem : (a.name, a.ext) ∈ (kmainApps im).map fun a => (a.name, a.ext) :=
    List.mem_map.mpr ⟨a, ha, rfl⟩
  exact hnames _ hmem

theorem loadable_kmainApps (hroom : appClusters (kmainApps im) ≤ fatEntries - 2) :
    Loadable (kmainApps im) where
  short a ha := ⟨(names_kmainApps ha).1, (names_kmainApps ha).2.1⟩
  distinct := by
    show [(terminalName, binName), (htopName, binName), (clearName, binName),
      (shutdownName, binName), (rebootName, binName)].Nodup
    decide
  slots := by
    show 5 + 2 ≤ fsMaxEntries
    decide
  room := hroom

theorem loadApps_booted (disk : Mem) (hroom : appClusters (kmainApps im) ≤ fatEntries - 2) :
    ∃ fs, loadApps (fsInit disk) binName (kmainApps im) = some fs ∧ Booted im fs := by
  have hbin : binName.length < fsNameMax := by decide
  obtain ⟨fs, hload, hinv, hst⟩ :=
    loadApps_store disk hbin (List.cons_ne_nil _ _) (loadable_kmainApps hroom)
  exact ⟨fs, hload, hinv, hst, loadable_kmainApps hroom⟩

/-- A read into a buffer of the file's size. -/
theorem readFile_of_found {name ext : CStr} {parent : Int} {f : Entry}
    (h : (fsFindInDir fs (some name) (some ext) parent).2 = some f) :
    (fsReadFileInDir fs (some name) (some ext) parent f.size).2.1 = fileBytes fs f := by
  unfold fsReadFileInDir
  generalize fsFindInDir fs (some name) (some ext) parent = r at h
  obtain ⟨i, o⟩ := r
  obtain rfl : o = some f := h
  dsimp only
  rw [if_neg (Nat.lt_irrefl _)]
  rfl

namespace Booted

theorem binIdx_eq (h : Booted im fs) : binIdx fs = 1 := by
  unfold binIdx
  rw [fsFindInDir_storeOf h.inv, h.store, folder_bootStore]
  rfl

theorem files (h : Booted im fs) : SizeInv fs :=
  ⟨h.inv.toChainInv, fun _ hf => hf.sized h.inv⟩

/-- The program in slot `k + 2` of the table. -/
theorem file (h : Booted im fs) {k : Nat} (hk : (kmainApps im)[k]? = some a) :
    (fsFindInDir fs (some a.name) (some binName) (binIdx fs)).2 = some (fs.entries (k + 2)) ∧
      (fs.entries (k + 2)).size = a.data.length ∧ a.data.length + 1024 < 2 ^ 32 ∧
      fileBytes fs (fs.entries (k + 2)) = a.data := by
  have hlookup : (bootStore binName (kmainApps im)).lookup (some a.name) (some a.ext) 1 =
      some (k + 2) := lookup_loaded h.loadable hk
  rw [(names_kmainApps (List.mem_of_getElem? hk)).2.2.1] at hlookup
  have hfind := fsFindInDir_storeOf h.inv (some a.name) (some binName) 1
  rw [h.store, hlookup] at hfind
  have hnode : nodeAt fs (k + 2) = some a.node := by
    rw [show nodeAt fs = (storeOf fs).nodes from rfl, h.store]
    show (kmainApps im)[k]?.map App.node = _
    rw [hk, Option.map_some]
  unfold nodeAt at hnode
  split at hnode
  next hu =>
    have hentry := Option.some.inj hnode
    have hfile : IsFile fs (k + 2) := ⟨hu, congrArg Node.isDir hentry⟩
    have hdata : (if (fs.entries (k + 2)).firstCluster = 0 then none
        else some (fileBytes fs (fs.entries (k + 2)))) = some a.data := congrArg Node.data hentry
    split at hdata
    · cases hdata
    · have hbytes := Option.some.inj hdata
      obtain ⟨hlen, hle⟩ := h.files.file_bytes hfile
      rw [← hlen, show fsRead fs _ _ = a.data from hbytes] at hle
      rw [h.binIdx_eq, hfind]
      exact ⟨rfl, by rw [← hlen, show fsRead fs _ _ = a.data from hbytes],
        Nat.lt_of_le_of_lt (Nat.add_le_add_right hle _) (by decide), hbytes⟩
  · cases hnode

/-- What is found in `/bin` is one of the programs, with its size and its bytes. -/
theorem found (h : Booted im fs) {name : CStr} {f : Entry}
    (hf : (fsFindInDir fs (some name) (some binName) (binIdx fs)).2 = some f) :
    ∃ a ∈ kmainApps im, a.name = name ∧ f.size = a.data.length ∧ fileBytes fs f = a.data := by
  have hfind := fsFindInDir_storeOf h.inv (some name) (some binName) 1
  rw [h.store] at hfind
  cases hi : (bootStore binName (kmainApps im)).lookup (some name) (some binName) 1 with
  | none =>
    rw [h.binIdx_eq, hfind, hi] at hf
    cases hf
  | some i =>
    rw [lookup_bootStore] at hi
    have hans := List.find?_some hi
    obtain ⟨k, a, rfl, hk, rfl, -⟩ := (answers_bootNodes binName _ _ _ _).mp hans
    obtain ⟨hentry, hsize, -, hbytes⟩ := h.file hk
    rw [hentry, Option.some.injEq] at hf
    exact ⟨a, List.mem_of_getElem? hk, rfl, hf ▸ hsize, hf ▸ hbytes⟩

end Booted

end Disk

/-! ## The kernel heap while nothing is freed -/

/-- The blocks `u`, all of them in use, and behind them one free block at `a`. -/
structure Packed (R : Region) (c : Client KHeap) (u : List Block) (a n : Nat) : Prop where
  holds : Holds kernelMagic R c.heap.toHeap c.live (u ++ [⟨a, n, true⟩])
  used : ∀ b ∈ u, b.free = false

namespace Packed

variable {K : Region} {c : Client KHeap} {u : List Block} {a n k : Nat}

/-- There is one place for a block. -/
theorem only (h : Packed K c u a n) {v v' : List Block} {d : Block}
    (heq : u ++ [⟨a, n, true⟩] = v ++ d :: v') (hfree : d.free = true) :
    v = u ∧ d = ⟨a, n, true⟩ ∧ v' = [] := by
  cases v' using List.reverseRecOn with
  | nil =>
    obtain ⟨hu, hd⟩ := List.append_inj' heq rfl
    exact ⟨hu.symm, (List.singleton_inj.mp hd).symm, rfl⟩
  | append_singleton v' x =>
    rw [← List.cons_append, ← List.append_assoc] at heq
    obtain ⟨hu, -⟩ := List.append_inj' heq rfl
    have hd : d ∈ u := by simp [hu]
    exact absurd ((h.used d hd).symm.trans hfree) (by decide)

theorem end_eq (h : Packed K c u a n) : a + 40 + n = K.hi := by
  obtain ⟨b, -, ht⟩ := tiles_append.mp h.holds.layout.tiles
  rw [tiles_cons, tiles_nil] at ht
  rw [← ht.2]

theorem noExpand (h : Packed K c u a n) (hk : alignUp k ≤ n) :
    Malloc.Kernel.NoExpand K c (.malloc k) := by
  refine .inr fun hexp => ?_
  rcases Malloc.findFit_cases h.holds.layout h.holds.head (alignUp k) with
    ⟨-, hnone⟩ | ⟨v, d, v', heq, -, -, hsome⟩
  · exact hnone ⟨a, n, true⟩ (by simp) ⟨rfl, hk⟩
  · rw [hexp.1, Option.some.injEq] at hsome
    exact h.holds.layout.addr_ne_zero d (by simp [heq]) hsome.symm

/-- A write into a block that is in use. -/
theorem write (h : Packed K c u a n) {b : Block} (hb : b ∈ u) {x : Nat} {bs : List UInt8}
    (hx : b.addr + 40 ≤ x ∧ x + bs.length ≤ b.addr + 40 + b.size) :
    Packed K (writeKernel c x bs) u a n :=
  ⟨h.holds.write (List.mem_append_left _ hb) fun _ hy => store_of_outside (by omega), h.used⟩

/-- `malloc` takes the next bytes of the free block. -/
theorem malloc {R : HeapRegions} {w : World} (h : Packed R.kernel w.kernel u a n) (hk0 : k ≠ 0)
    (hk : alignUp k + 48 ≤ n) :
    ∃ v, w.malloc R k = some (v, a + 40) ∧ Got R w k v (a + 40) ∧
      Packed R.kernel v.kernel (u ++ [⟨a, alignUp k, false⟩]) (a + 40 + alignUp k)
        (n - alignUp k - 40) := by
  have hno := h.noExpand (k := k) (by omega)
  have hfit : Fits (alignUp k) ⟨a, n, true⟩ := ⟨rfl, by dsimp only; omega⟩
  rcases Malloc.Kernel.malloc_found h.holds hno with
    ⟨-, hnone⟩ | ⟨v, d, v', heq, hd, -, hcall⟩
  · exact absurd hfit (hnone.resolve_left hk0 _ (by simp))
  obtain ⟨rfl, rfl, rfl⟩ := h.only heq hd.1
  have hcall' : w.malloc R k = some ({ w with
      kernel := ⟨Malloc.Kernel.useBlock w.kernel.heap a (alignUp k),
        insert (a + 40) w.kernel.live⟩
      made := insert (a + 40) w.made }, a + 40) := by
    unfold World.malloc
    rw [hcall, Option.map_some, if_neg (by omega)]
  refine ⟨_, hcall', ?_, ?_⟩
  · rcases World.malloc_cases ⟨_, h.holds⟩ hno with hnull | ⟨x, p, hx, -, hgot⟩
    · rw [hcall', Option.some.injEq, Prod.mk.injEq] at hnull
      omega
    · rw [hcall', Option.some.injEq, Prod.mk.injEq] at hx
      obtain ⟨rfl, rfl⟩ := hx
      exact hgot
  · have htake := h.holds.take hfit
    have hcut : cut { (⟨a, n, true⟩ : Block) with free := false } (alignUp k) =
        [⟨a, alignUp k, false⟩, ⟨a + 40 + alignUp k, n - alignUp k - 40, true⟩] := by
      unfold cut
      exact if_neg (by dsimp only; omega)
    have ha0 := h.holds.layout.addr_ne_zero ⟨a, n, true⟩ (by simp)
    rw [hcut, ← Malloc.Kernel.useBlock_eq ha0] at htake
    refine ⟨by simpa using htake, fun b hb => ?_⟩
    rcases List.mem_append.mp hb with hb | hb
    · exact h.used b hb
    · rw [List.mem_singleton.mp hb]

end Packed

/-! ## The tasks -/

/-- The task `t` waits for its first tick: the frame on its stack is that of its entry point,
with the end of the stack as its stack pointer. -/
structure Waiting (s : Sched) (t : Nat) (pid : Int) (entry : Nat) : Prop where
  ready : (s.task t).state = .ready
  pid : (s.task t).pid = pid
  frame : frame s.stack (s.task t).regs 22 =
    contextWords (initialContext entry ((s.task t).kstack + 8 * 1024))
  inside : (s.task t).kstack ≤ (s.task t).regs ∧
    (s.task t).regs + 176 ≤ (s.task t).kstack + 8 * 1024

section Tasks

variable {R : HeapRegions} {s : Sched} {w : World} {l : List Nat} {u : List Block} {a n : Nat}
  {t k : Nat}

/-- The first frame of a task with a stack of the default size. -/
theorem firstFrame_inside (stack : Nat → Nat) (entry : Nat) (hk : k + 8 * 1024 < 2 ^ 64) :
    k ≤ (prepareInitialStack stack entry (kstackTop 0 k)).2 ∧
      (prepareInitialStack stack entry (kstackTop 0 k)).2 + 176 ≤ k + 8 * 1024 :=
  frame_inside (stackFits_of_large (by decide)) (show k + alignUp 8192 ≤ 2 ^ 64 by
    rw [show alignUp 8192 = 8 * 1024 by decide]
    omega) stack entry

theorem waiting_created {z : List Nat} (hinv : Inv s s.zombieList l z) (entry mem memSize : Nat)
    (ht0 : t ≠ 0) (hk0 : k ≠ 0) (hfresh : Fresh s t k) (hk : k + 8 * 1024 < 2 ^ 64) :
    Waiting (createTask s entry 0 mem memSize t k).1 t s.nextPid entry := by
  have hm := hinv.made entry 0 mem memSize ht0 hk0 hfresh
  obtain ⟨-, -, -, -, hready⟩ := createTask_new s entry 0 mem memSize ht0 hk0
  obtain ⟨hstack, hregs⟩ := createTask_frame s entry 0 mem memSize ht0 hk0
  have htop : kstackTop 0 k = k + 8 * 1024 := Nat.mod_eq_of_lt hk
  have hinside := firstFrame_inside s.stack entry hk
  rw [← hregs] at hinside
  refine ⟨hready, hm.new.2.2.1, ?_, ?_⟩
  · rw [hstack, hregs, hm.new.2.1, frame_prepareInitialStack, htop]
  · rw [hm.new.2.1]
    exact hinside

/-- The next creation leaves it alone. -/
theorem Waiting.create {z : List Nat} {b entry' : Nat} {pid : Int} (h : Waiting s b pid entry')
    (hinv : Inv s s.zombieList l z) (entry mem memSize : Nat) (ht0 : t ≠ 0) (hk0 : k ≠ 0)
    (hfresh : Fresh s t k) (hbt : b ≠ t) (hbelow : (s.task b).kstack + 8 * 1024 ≤ k)
    (hk : k + 8 * 1024 < 2 ^ 64) :
    Waiting (createTask s entry 0 mem memSize t k).1 b pid entry' := by
  have hm := hinv.made entry 0 mem memSize ht0 hk0 hfresh
  obtain ⟨hstack, -⟩ := createTask_frame s entry 0 mem memSize ht0 hk0
  have hinside := firstFrame_inside s.stack entry hk
  have hin := h.inside
  refine ⟨?_, ?_, ?_, ?_⟩
  · rw [hm.old b hbt]
    exact h.ready
  · rw [hm.old b hbt]
    exact h.pid
  · rw [hm.old b hbt, hstack, ← h.frame]
    -- the two stacks are apart
    refine frame_congr fun i hi => prepareInitialStack_of_ne fun j hj => ?_
    dsimp only
    generalize (prepareInitialStack s.stack entry (kstackTop 0 k)).2 = sp at hinside ⊢
    unfold slot
    omega
  · rw [hm.old b hbt]
    exact hin

/-- The state between two creations of `tasks_init`: the ring is `l`, no task has ended, and
the kernel heap has its free bytes in one block, behind the stacks. -/
structure Booting (R : HeapRegions) (w : World) (l : List Nat) (u : List Block) (a n : Nat) :
    Prop where
  inv : Inv w.sched w.sched.zombieList l []
  sound : Sound R w
  idle : w.sched.current = 0
  count : w.sched.created + 1 = l.length
  packed : Packed R.kernel w.kernel u a n
  below : ∀ b ∈ l, b ≠ initTask → (w.sched.task b).kstack + 8 * 1024 ≤ a

/-- A task whose record is at `t` has come to the ring `l`. -/
structure Created (w w' : World) (l : List Nat) (t entry mem : Nat) : Prop where
  waiting : Waiting w'.sched t l.length entry
  others : ∀ b ∈ l, b ≠ initTask → ∀ pid e, Waiting w.sched b pid e → Waiting w'.sched b pid e
  user : w'.user = w.user
  handed : w'.handed = if mem = 0 then w.handed else insert mem w.handed

theorem Packed.record (h : Packed R.kernel w.kernel u a n) (hn : 8352 ≤ n) :
    ∃ v, w.malloc R 72 = some (v, a + 40) ∧ Got R w 72 v (a + 40) ∧
      Packed R.kernel v.kernel (u ++ [⟨a, 72, false⟩]) (a + 112) (n - 112) := by
  have hsize : alignUp 72 = 72 := by decide
  obtain ⟨v, hv, hgot, hpacked⟩ := h.malloc (k := 72) (by decide) (by omega)
  rw [hsize, show a + 40 + 72 = a + 112 by omega, show n - 72 - 40 = n - 112 by omega] at hpacked
  exact ⟨v, hv, hgot, hpacked⟩

/-- The two blocks of a creation, one behind the other. -/
theorem Packed.twice (h : Packed R.kernel w.kernel u a n) (hn : 8352 ≤ n) :
    ∃ v x, w.malloc R 72 = some (v, a + 40) ∧ Got R w 72 v (a + 40) ∧
      v.malloc R (kstackSize 0) = some (x, a + 152) ∧ Got R v (kstackSize 0) x (a + 152) ∧
      Packed R.kernel x.kernel (u ++ [⟨a, 72, false⟩, ⟨a + 112, 8192, false⟩]) (a + 8344)
        (n - 8344) := by
  have hsize : alignUp (kstackSize 0) = 8192 := by decide
  obtain ⟨v, hv, hgot, hpacked⟩ := h.record hn
  obtain ⟨x, hx, hgot', hpacked'⟩ := hpacked.malloc (k := kstackSize 0) (by decide) (by omega)
  rw [hsize, List.append_assoc, show a + 112 + 40 + 8192 = a + 8344 by omega,
    show n - 112 - 8192 - 40 = n - 8344 by omega] at hpacked'
  rw [show a + 112 + 40 = a + 152 by omega] at hx hgot'
  exact ⟨v, x, hv, hgot, hx, hgot', hpacked'⟩

theorem Booting.noGrowth (h : Booting R w l u a n) (hn : 8352 ≤ n) : NoGrowth R w 0 := by
  have hsize : alignUp 72 = 72 := by decide
  have hsize' : alignUp (kstackSize 0) = 8192 := by decide
  refine ⟨h.packed.noExpand (by omega), fun r hr _ => ?_⟩
  obtain ⟨v, hv, -, hpacked⟩ := h.packed.record hn
  rw [hv, Option.mem_def, Option.some.injEq] at hr
  rw [← hr]
  exact hpacked.noExpand (by omega)

theorem Booting.create (h : Booting R w l u a n) (hn : 8352 ≤ n) (hfew : l.length < 2 ^ 31)
    (entry mem memSize : Nat) (huser : mem = 0 ∨ mem ∈ w.user.live ∧ mem ∉ w.handed) :
    ∃ w' r u', w.createTask R entry 0 mem memSize = some (w', r) ∧
      Booting R w' (l ++ [a + 40]) u' (a + 8344) (n - 8344) ∧
      Created w w' l (a + 40) entry mem := by
  obtain ⟨v, x, hv, hgot, hx, hgot', hpacked⟩ := h.packed.twice hn
  obtain ⟨l', z', hinv', hL⟩ := h.sound
  have hfresh := Got.fresh_blocks hL hgot hgot'
  have hinv := h.inv
  have hm := hinv.made entry 0 mem memSize (by omega) (by omega) hfresh
  have hxs : x.sched = w.sched := by rw [hgot'.world, hgot.world]
  have hsound := World.addTask_sound hinv' hL hgot hgot' (by omega) (by omega)
    (stackFits_of_large (by decide)) entry mem memSize huser
  have hend := h.packed.end_eq
  have hlt := R.kernel.hi_lt
  have hcall : w.createTask R entry 0 mem memSize =
      some (x.addTask entry 0 mem memSize (a + 40) (a + 152)) := by
    unfold World.createTask
    rw [hv, Option.bind_some]
    dsimp only
    rw [if_neg (by omega), hx, Option.map_some, if_neg (by omega)]
  have hsched : (x.addTask entry 0 mem memSize (a + 40) (a + 152)).1.sched =
      (createTask w.sched entry 0 mem memSize (a + 40) (a + 152)).1 := by rw [← hxs]; rfl
  have hkernel : Packed R.kernel (x.addTask entry 0 mem memSize (a + 40) (a + 152)).1.kernel
      (u ++ [⟨a, 72, false⟩, ⟨a + 112, 8192, false⟩]) (a + 8344) (n - 8344) := by
    have hinside := firstFrame_inside x.sched.stack entry (k := a + 152) (by omega)
    refine hpacked.write (b := ⟨a + 112, 8192, false⟩) (by simp) ?_
    dsimp only
    rw [frameBytes_length]
    exact hinside
  have hwuser : (x.addTask entry 0 mem memSize (a + 40) (a + 152)).1.user = w.user := by
    show x.user = w.user
    rw [hgot'.world, hgot.world]
  have hhanded : (x.addTask entry 0 mem memSize (a + 40) (a + 152)).1.handed =
      if mem = 0 then w.handed else insert mem w.handed := by
    rw [show w.handed = x.handed by rw [hgot'.world, hgot.world]]
    rfl
  have hnew : ∀ b ∈ l, b ≠ initTask → b ≠ a + 40 := fun b hb hbi he =>
    (hfresh.1 (by omega)).1 (he ▸ hinv.owned.record b (List.mem_append_left _ hb) hbi)
  obtain ⟨q, hq⟩ : ∃ q, q = x.addTask entry 0 mem memSize (a + 40) (a + 152) := ⟨_, rfl⟩
  rw [← hq] at hcall hsound hsched hkernel hwuser hhanded
  refine ⟨q.1, q.2, _, hcall, ⟨?_, hsound, ?_, ?_, hkernel, ?_⟩, ?_, ?_, hwuser, hhanded⟩
  · rw [hsched]
    exact hinv.create hm (by omega) (by omega) hfresh
  · rw [hsched, hm.current, h.idle]
  · rw [hsched, hm.created, h.count, List.length_append, List.length_singleton]
  · intro b hb hbi
    rw [hsched]
    rcases List.mem_append.mp hb with hb | hb
    · have hbelow := h.below b hb hbi
      rw [hm.old b (hnew b hb hbi)]
      dsimp only
      omega
    · have hstack := hm.new.2.1
      rw [List.mem_singleton.mp hb]
      omega
  · have hpid : w.sched.nextPid = l.length := by
      have hcount := h.count
      rw [hinv.nextPid_eq (by omega)]
      omega
    rw [hsched, ← hpid]
    exact waiting_created hinv entry mem memSize (by omega) (by omega) hfresh (by omega)
  · intro b hb hbi pid e hb'
    have hbelow := h.below b hb hbi
    rw [hsched]
    exact hb'.create hinv entry mem memSize (by omega) (by omega) hfresh (hnew b hb hbi)
      (by omega) (by omega)

theorem Booting.withUser {c : Client Malloc.Heap} (h : Booting R w l u a n)
    (hc : ∃ bl, Holds userMagic R.user c.heap c.live bl) (hlive : w.handed ⊆ c.live) :
    Booting R { w with user := c } l u a n := by
  obtain ⟨l', z', hinv', hL⟩ := h.sound
  exact ⟨h.inv, ⟨l', z', hinv', hL.withUser hc hlive⟩, h.idle, h.count, h.packed, h.below⟩

theorem Booting.notEnded (h : Booting R w l u a n) : ¬ Ended w.sched := fun he => he.1 h.idle

end Tasks

/-! ## The terminal -/

section Terminal

variable {R : HeapRegions} {w : World} {fs : FS} {im : Images}

theorem loadAndRunTerminal_eq (h : Booted im fs) (w : World) :
    loadAndRunTerminal R fs w =
      (userMalloc R.user w.user.heap (im.terminal.length + 1024)).bind fun r =>
        if r.2 = 0 then some { w with user := ⟨r.1, w.user.live⟩ }
        else
          (World.utaskCreate R
            { w with user :=
              ⟨{ r.1 with mem := store r.1.mem r.2 im.terminal }, insert r.2 w.user.live⟩ }
            r.2 0 r.2 im.terminal.length).map Prod.fst := by
  obtain ⟨hentry, hsize, hlt, hbytes⟩ :=
    h.file (k := 0) (a := ⟨terminalName, binName, im.terminal⟩) rfl
  dsimp only at hentry hsize hlt hbytes
  have hread : (fsReadFileInDir fs (some terminalName) (some binName) (binIdx fs)
      (fs.entries 2).size).2.1 = im.terminal := by
    rw [readFile_of_found hentry, hbytes]
  unfold loadAndRunTerminal
  dsimp only
  rw [h.binIdx_eq] at hentry hread ⊢
  rw [if_neg (by decide), hentry]
  dsimp only
  rw [hread, hsize, Nat.mod_eq_of_lt hlt]

/-- The first block of the user heap. -/
theorem userMalloc_first {K : Region} {s : Malloc.Heap} {n : Nat}
    (h : Holds userMagic K s ∅ [⟨K.lo, K.hi - K.lo - 40, true⟩]) (hsize : n ≠ 0)
    (hroom : alignUp n ≤ K.hi - K.lo - 40) :
    ∃ s' l b, userMalloc K s n = some (s', K.lo + 40) ∧
      Holds userMagic K s' {K.lo + 40} l ∧ b ∈ l ∧ b.addr = K.lo ∧ alignUp n ≤ b.size := by
  have hfit : Fits (alignUp n) ⟨K.lo, K.hi - K.lo - 40, true⟩ := ⟨rfl, hroom⟩
  rcases Malloc.userMalloc_found h n with ⟨-, hnone⟩ | ⟨v, d, v', heq, -, -, hcall⟩
  · exact absurd hfit (hnone.resolve_left hsize _ (List.mem_singleton_self _))
  obtain ⟨rfl, rfl, rfl⟩ : v = [] ∧ d = ⟨K.lo, K.hi - K.lo - 40, true⟩ ∧ v' = [] := by
    cases v with
    | nil =>
      rw [List.nil_append, List.cons.injEq] at heq
      exact ⟨rfl, heq.1.symm, heq.2.symm⟩
    | cons c v => simp at heq
  have htake := h.take (l := []) (r := []) hfit
  obtain ⟨c, t, hcut, haddr, hle⟩ :=
    Malloc.cut_head (b := ⟨K.lo, K.hi - K.lo - 40, false⟩) hroom
  rw [List.append_nil, List.nil_append] at htake
  exact ⟨_, _, c, hcall, htake, by rw [hcut]; exact List.mem_cons_self, haddr, hle⟩

/-- Calls of the scheduler and of the clients of the heaps, as calls of the system. -/
theorem calls_run {os : List Call} {w' : World} (fs : FS)
    (hr : Run (World.step R) (fun w c => w.Permitted R c ∧ NoRealloc c) w os w') :
    Run (System.step R) (System.Permitted R) ⟨fs, w⟩ (os.map .call) ⟨fs, w'⟩ := by
  induction hr with
  | nil w => exact .nil _
  | @cons w w₁ w₂ c os ho hs _ ih =>
    have hstep : System.step R ⟨fs, w⟩ (.call c) = some ⟨fs, w₁⟩ := by
      show (World.step R w c).map _ = _
      rw [hs]
      rfl
    exact .cons ho hstep ih

/-- Nobody has used the user heap yet. -/
structure Untouched (R : HeapRegions) (w : World) : Prop where
  live : w.user.live = ∅
  handed : w.handed = ∅
  holds : Holds userMagic R.user w.user.heap ∅ [⟨R.user.lo, R.user.hi - R.user.lo - 40, true⟩]

/-- The world with the terminal's image at `p`, in a heap `s` that `user_malloc` left. -/
def withTerminal (w : World) (im : Images) (s : Malloc.Heap) (p : Nat) : World :=
  { w with user := ⟨{ s with mem := store s.mem p im.terminal }, insert p w.user.live⟩ }

theorem image_run {s : Malloc.Heap} {p n : Nat}
    (hcall : userMalloc R.user w.user.heap n = some (s, p)) (hp : p ≠ 0) (hn : n < 2 ^ 64)
    (hsize : im.terminal.length ≤ Malloc.blockSize s.mem p) :
    Run (World.step R) (fun w c => w.Permitted R c ∧ NoRealloc c) w
      [.userHeap (.malloc n), .userHeap (.write p 0 im.terminal)] (withTerminal w im s p) := by
  have hmalloc : World.step R w (.userHeap (.malloc n)) =
      some { w with user := ⟨s, insert p w.user.live⟩ } := by
    show ((userMalloc R.user w.user.heap n).map fun r => _).map _ = _
    rw [hcall, Option.map_some, Option.map_some, if_neg hp]
  refine .cons ⟨⟨hn, trivial⟩, trivial⟩ hmalloc (.single ⟨⟨⟨?_, ?_⟩, trivial⟩, trivial⟩ rfl)
  · exact Finset.mem_insert_self _ _
  · show 0 + im.terminal.length ≤ Malloc.blockSize s.mem p
    omega

/-- The terminal is loaded: its block is taken and written, and its task is created. -/
theorem terminal_run {l : List Nat} {u : List Block} {a n : Nat} (hfs : Booted im fs)
    (h : Booting R w l u a n) (hn : 8352 ≤ n) (hfew : l.length < 2 ^ 31) (huser : Untouched R w)
    (hroom : R.user.lo + im.terminal.length + 1071 ≤ R.user.hi) :
    ∃ w' os u', loadAndRunTerminal R fs w = some w' ∧
      Run (World.step R) (fun w c => w.Permitted R c ∧ NoRealloc c) w os w' ∧
      Booting R w' (l ++ [a + 40]) u' (a + 8344) (n - 8344) ∧
      Waiting w'.sched (a + 40) l.length (R.user.lo + 40) ∧
      (∀ b ∈ l, b ≠ initTask → ∀ pid e, Waiting w.sched b pid e → Waiting w'.sched b pid e) ∧
      load w'.user.heap.mem (R.user.lo + 40) im.terminal.length = im.terminal := by
  have hhi := R.user.hi_lt
  have hle : im.terminal.length + 1024 ≤ alignUp (im.terminal.length + 1024) :=
    Malloc.le_alignUp (by omega)
  have hup : alignUp (im.terminal.length + 1024) ≤ im.terminal.length + 1031 := by
    unfold alignUp Malloc.wadd
    omega
  obtain ⟨s, ul, b, hcall, hholds, hb, haddr, hsize⟩ :=
    userMalloc_first huser.holds (n := im.terminal.length + 1024) (by omega) (by omega)
  rw [← haddr] at hcall hholds ⊢
  have hblock : Malloc.blockSize s.mem (b.addr + 40) = b.size := by
    obtain ⟨v, v', rfl⟩ := List.append_of_mem hb
    exact hholds.blockSize_eq
  have himage : Run (World.step R) (fun w c => w.Permitted R c ∧ NoRealloc c) w _
      (withTerminal w im s (b.addr + 40)) := image_run hcall (by omega) (by omega) (by omega)
  have hlive : insert (b.addr + 40) w.user.live = {b.addr + 40} := by rw [huser.live]; rfl
  have hboot : Booting R (withTerminal w im s (b.addr + 40)) l u a n := by
    refine h.withUser ⟨ul, ?_⟩ (by rw [huser.handed]; exact Finset.empty_subset _)
    rw [hlive]
    exact hholds.write hb fun x hx => store_of_outside (by omega)
  have hmem : b.addr + 40 ∈ (withTerminal w im s (b.addr + 40)).user.live ∧
      b.addr + 40 ∉ (withTerminal w im s (b.addr + 40)).handed := by
    refine ⟨Finset.mem_insert_self _ _, ?_⟩
    show b.addr + 40 ∉ w.handed
    rw [huser.handed]
    exact Finset.notMem_empty _
  obtain ⟨w', r, u', hcreate, hboot', hnew⟩ :=
    hboot.create hn hfew (b.addr + 40) (b.addr + 40) im.terminal.length (.inr hmem)
  have hok : (withTerminal w im s (b.addr + 40)).Permitted R
      (.utaskCreate (b.addr + 40) 0 (b.addr + 40) im.terminal.length) :=
    ⟨hboot.notEnded, frameFits_of_large _ _ (by decide), hboot.noGrowth hn, hmem⟩
  have hcall' : ((withTerminal w im s (b.addr + 40)).utaskCreate R (b.addr + 40) 0 (b.addr + 40)
      im.terminal.length).map Prod.fst = some w' := by
    unfold World.utaskCreate
    rw [hcreate]
    rfl
  refine ⟨w', _, u', ?_, himage.append (.single ⟨hok, trivial⟩ hcall'), hboot', hnew.waiting,
    hnew.others, ?_⟩
  · rw [loadAndRunTerminal_eq hfs, hcall, Option.bind_some, if_neg (by omega)]
    exact hcall'
  · rw [hnew.user]
    exact load_store_same _ _ _

end Terminal

/-! ## The boot -/

section Boot

variable {R : HeapRegions} {e : TaskEntries} {im : Images} {w : World} {fs : FS}

theorem Booting.taskCreate {l : List Nat} {u : List Block} {a n : Nat} (h : Booting R w l u a n)
    (hn : 8352 ≤ n) (hfew : l.length < 2 ^ 31) (entry : Nat) :
    ∃ w' u', w.taskCreate R entry 0 = some w' ∧
      Run (World.step R) (fun w c => w.Permitted R c ∧ NoRealloc c) w [.taskCreate entry 0] w' ∧
      Booting R w' (l ++ [a + 40]) u' (a + 8344) (n - 8344) ∧ Created w w' l (a + 40) entry 0 := by
  obtain ⟨w', r, u', hcreate, hboot, hnew⟩ := h.create hn hfew entry 0 0 (.inl rfl)
  have hcall : w.taskCreate R entry 0 = some w' := by
    unfold World.taskCreate
    rw [hcreate]
    rfl
  have hok : w.Permitted R (.taskCreate entry 0) :=
    ⟨h.notEnded, frameFits_of_large _ _ (by decide), h.noGrowth hn⟩
  exact ⟨w', u', hcall, .single ⟨hok, trivial⟩ hcall, hboot, hnew⟩

/-- The three tasks of `tasks_init`. -/
structure ThreeTasks (R : HeapRegions) (e : TaskEntries) (im : Images) (w : World)
    (t₁ t₂ t₃ : Nat) : Prop where
  ring : Ring w.sched.next w.sched.taskRing [initTask, t₁, t₂, t₃]
  current : w.sched.current = 0
  clock : Waiting w.sched t₁ 1 e.userTask1
  terminal : Waiting w.sched t₂ 2 (R.user.lo + 40)
  reaper : Waiting w.sched t₃ 3 e.zombieReaperTask
  image : load w.user.heap.mem (R.user.lo + 40) im.terminal.length = im.terminal

theorem tasksInit_run {a n : Nat} (hfs : Booted im fs) (h : Booting R w [initTask] [] a n)
    (hn : 25040 ≤ n) (huser : Untouched R w) (hinit : initTask ≤ a)
    (hroom : R.user.lo + im.terminal.length + 1071 ≤ R.user.hi) :
    ∃ w' os t₁ t₂ t₃, tasksInit R e fs w = some w' ∧
      Run (World.step R) (fun w c => w.Permitted R c ∧ NoRealloc c) w os w' ∧
      ThreeTasks R e im w' t₁ t₂ t₃ := by
  obtain ⟨w₁, u₁, hcall₁, hrun₁, hboot₁, hnew₁⟩ := h.taskCreate (by omega) (by decide) e.userTask1
  have huser₁ : Untouched R w₁ := by
    refine ⟨?_, ?_, ?_⟩
    · rw [hnew₁.user, huser.live]
    · rw [hnew₁.handed, huser.handed]
      rfl
    · rw [hnew₁.user]
      exact huser.holds
  obtain ⟨w₂, os, u₂, hcall₂, hrun₂, hboot₂, hterminal, hothers, himage⟩ :=
    terminal_run hfs hboot₁ (by omega) (by simp) huser₁ hroom
  obtain ⟨w₃, u₃, hcall₃, hrun₃, hboot₃, hnew₃⟩ :=
    hboot₂.taskCreate (by omega) (by simp) e.zombieReaperTask
  refine ⟨w₃, _, a + 40, a + 8344 + 40, a + 8344 + 8344 + 40, ?_,
    hrun₁.append (hrun₂.append hrun₃), hboot₃.inv.lists.ring, hboot₃.idle, ?_, ?_, hnew₃.waiting,
    ?_⟩
  · unfold tasksInit
    rw [hcall₁, Option.bind_some, hcall₂, Option.bind_some, hcall₃]
  · exact hnew₃.others _ (by simp) (by omega) _ _
      (hothers _ (by simp) (by omega) _ _ hnew₁.waiting)
  · exact hnew₃.others _ (by simp) (by omega) _ _ hterminal
  · rw [hnew₃.user]
    exact himage

/-- The two parts of a boot, with what they do as a run of the system. -/
theorem boot_run (e : TaskEntries) (disk : Mem) (task : Nat → Task) (stack : Nat → Nat)
    (mk mu : Mem) (hdisk : appClusters (kmainApps im) ≤ fatEntries - 2)
    (hkernel : R.kernel.lo + 25080 ≤ R.kernel.hi)
    (huser : R.user.lo + im.terminal.length + 1071 ≤ R.user.hi) :
    ∃ s os t₁ t₂ t₃, kmain R e im (System.start R disk task stack mk mu) = some s ∧
      Run (System.step R) (System.Permitted R) (System.start R disk task stack mk mu) os s ∧
      Booted im s.fs ∧ ThreeTasks R e im s.world t₁ t₂ t₃ := by
  obtain ⟨fs, hload, hfs⟩ := loadApps_booted disk hdisk
  obtain ⟨osf, hosf⟩ := loadApps_run hload
  have hboot : Booting R (World.start R task stack mk mu) [initTask] [] R.kernel.lo
      (R.kernel.hi - R.kernel.lo - 40) :=
    ⟨start_inv task stack, World.start_sound R task stack mk mu, rfl, rfl,
      ⟨Malloc.Kernel.kernelStart_holds R.kernel mk, by simp⟩,
      fun b hb hbi => absurd (List.mem_singleton.mp hb) hbi⟩
  obtain ⟨w, os, t₁, t₂, t₃, hcall, hrun, htasks⟩ := tasksInit_run (e := e) hfs hboot (by omega)
    ⟨rfl, rfl, Malloc.userStart_holds R.user mu⟩ (Nat.le_of_lt R.init_lt) huser
  refine ⟨⟨fs, w⟩, _, t₁, t₂, t₃, ?_,
    (files_run R _ hosf).append (calls_run fs hrun), hfs, htasks⟩
  unfold kmain
  rw [show (System.start R disk task stack mk mu).fs = fsInit disk from rfl, hload,
    Option.bind_some, show (System.start R disk task stack mk mu).world =
      World.start R task stack mk mu from rfl, hcall, Option.map_some]

end Boot

/-! ## When a program start succeeds -/

/-- Both mallocs of a creation return a pointer. -/
def BlocksGiven (R : HeapRegions) (w : World) (size : Nat) : Prop :=
  ∃ r ∈ w.malloc R 72, r.2 ≠ 0 ∧ ∃ q ∈ r.1.malloc R (kstackSize size), q.2 ≠ 0

instance (n : Nat) (b : Block) : Decidable (Fits n b) := inferInstanceAs (Decidable (_ ∧ _))

/-- The kernel heap has room for a record, and then for a stack of `n` bytes: the record goes to
the first free block that has room for it, and the stack to another free block or to what the
record and one more header leave of this one. -/
def KernelRoom (w : World) (n : Nat) : Prop :=
  ∃ l ∈ blockList w.kernel.heap.toHeap, ∃ b ∈ l.find? fun b => Fits 72 b,
    (∃ c ∈ l, c ≠ b ∧ Fits n c) ∨ 72 + 40 + n ≤ b.size

/-- A free block has room for an image of `size` bytes and 1024 bytes more. -/
def UserRoom (w : World) (size : Nat) : Prop :=
  ∃ l ∈ blockList w.user.heap, ∃ b ∈ l, Fits (alignUp (size + 1024)) b

section Starts

variable {R : HeapRegions} {w w' : World} {s s' : System} {l z : List Nat} {pid : Int}

/-- Where a block of `n` bytes fits after `m` bytes of the free block `b` have been taken. -/
theorem fits_take {u v : List Block} {b : Block} {m n : Nat} (hnodup : (u ++ b :: v).Nodup)
    (hn : 8 ≤ n) :
    (∃ c ∈ u ++ (cut { b with free := false } m ++ v), Fits n c) ↔
      (∃ c ∈ u ++ b :: v, c ≠ b ∧ Fits n c) ∨ m + 40 + n ≤ b.size := by
  have hcut : (∃ c ∈ cut { b with free := false } m, Fits n c) ↔ m + 40 + n ≤ b.size := by
    unfold cut Fits
    dsimp only
    split
    · simp only [List.mem_singleton, exists_eq_left, Bool.false_eq_true, false_and, false_iff]
      omega
    · simp only [List.mem_cons, List.not_mem_nil, or_false, exists_eq_or_imp, exists_eq_left,
        Bool.false_eq_true, false_and, false_or, true_and]
      omega
  have hb : b ∉ u ++ v := (List.nodup_cons.mp (List.nodup_middle.mp hnodup)).1
  have hrest : (∃ c ∈ u ++ b :: v, c ≠ b ∧ Fits n c) ↔ ∃ c ∈ u ++ v, Fits n c := by
    constructor
    · rintro ⟨c, hc, hne, hfit⟩
      exact ⟨c, by simpa [hne] using hc, hfit⟩
    · rintro ⟨c, hc, hfit⟩
      refine ⟨c, ?_, fun h => hb (h ▸ hc), hfit⟩
      rcases List.mem_append.mp hc with hu | hv
      · exact List.mem_append_left _ hu
      · exact List.mem_append_right _ (List.mem_cons_of_mem _ hv)
  rw [← hcut, hrest]
  simp only [List.mem_append, or_and_right, exists_or]
  exact (or_congr_right or_comm).trans or_assoc.symm

/-- A `malloc` of a creation takes the first block that fits. -/
theorem World.malloc_found {l : List Block}
    (h : Holds kernelMagic R.kernel w.kernel.heap.toHeap w.kernel.live l) {n : Nat} (hn0 : n ≠ 0)
    (hn : Malloc.Kernel.NoExpand R.kernel w.kernel (.malloc n)) :
    (w.malloc R n = some (w, 0) ∧ ∀ d ∈ l, ¬ Fits (alignUp n) d) ∨
    ∃ v u b r, w.malloc R n = some (v, b.addr + 40) ∧ l = u ++ b :: r ∧ Fits (alignUp n) b ∧
      (∀ c ∈ u, ¬ Fits (alignUp n) c) ∧
      Holds kernelMagic R.kernel v.kernel.heap.toHeap v.kernel.live
        (u ++ (cut { b with free := false } (alignUp n) ++ r)) := by
  unfold World.malloc
  rcases Malloc.Kernel.malloc_found h hn with ⟨hnull, hno⟩ | ⟨u, b, r, rfl, hfit, hfirst, hsome⟩
  · rw [hnull]
    exact .inl ⟨rfl, hno.resolve_left hn0⟩
  · refine .inr ⟨{ w with
      kernel := ⟨Malloc.Kernel.useBlock w.kernel.heap b.addr (alignUp n),
        insert (b.addr + 40) w.kernel.live⟩
      made := insert (b.addr + 40) w.made }, u, b, r, ?_, rfl, hfit, hfirst, ?_⟩
    · rw [hsome, Option.map_some]
      simp only [if_neg (show b.addr + 40 ≠ 0 by omega)]
    · dsimp only
      rw [Malloc.Kernel.useBlock_eq (h.layout.addr_ne_zero b (by simp))]
      exact h.take hfit

theorem World.malloc_given_iff {l : List Block}
    (h : Holds kernelMagic R.kernel w.kernel.heap.toHeap w.kernel.live l) {n : Nat} (hn0 : n ≠ 0)
    (hn : Malloc.Kernel.NoExpand R.kernel w.kernel (.malloc n)) :
    (∃ q ∈ w.malloc R n, q.2 ≠ 0) ↔ ∃ c ∈ l, Fits (alignUp n) c := by
  rcases World.malloc_found h hn0 hn with ⟨hnull, hnone⟩ | ⟨v, u, b, r, hv, rfl, hfit, -⟩
  · rw [hnull]
    refine iff_of_false ?_ fun ⟨c, hc, hfit⟩ => hnone c hc hfit
    rintro ⟨q, hq, hq0⟩
    obtain rfl := Option.some.inj hq
    exact hq0 rfl
  · rw [hv]
    exact iff_of_true ⟨_, rfl, by omega⟩ ⟨b, by simp, hfit⟩

/-- Without an expansion, both mallocs return a pointer exactly when there is room. -/
theorem blocksGiven_iff {size : Nat}
    (h : ∃ l, Holds kernelMagic R.kernel w.kernel.heap.toHeap w.kernel.live l)
    (hno : NoGrowth R w size) (hsize : 8 ≤ alignUp (kstackSize size)) :
    BlocksGiven R w size ↔ KernelRoom w (alignUp (kstackSize size)) := by
  obtain ⟨l, hl⟩ := h
  have hk0 : kstackSize size ≠ 0 := fun h0 => by
    rw [h0] at hsize
    exact absurd hsize (by decide)
  have hrecord := World.malloc_found hl (by decide) hno.1
  rw [show alignUp 72 = 72 by decide] at hrecord
  unfold BlocksGiven KernelRoom
  rw [Malloc.blockList_eq hl.layout hl.head]
  rcases hrecord with ⟨hnull, hnone⟩ | ⟨v, u, b, r, hv, rfl, hfit, hfirst, hl'⟩
  · rw [hnull]
    refine iff_of_false ?_ ?_
    · rintro ⟨q, hq, hq0, -⟩
      obtain rfl := Option.some.inj hq
      exact hq0 rfl
    · rintro ⟨l', hl', b, hb, -⟩
      obtain rfl := Option.some.inj hl'
      exact hnone b (List.mem_of_find?_eq_some hb) (by simpa using List.find?_some hb)
  have hfind : (u ++ b :: r).find? (fun b => Fits 72 b) = some b :=
    List.find?_eq_some_iff_append.mpr ⟨decide_eq_true hfit, u, r, rfl, fun c hc => by
      simpa using hfirst c hc⟩
  have hstack := World.malloc_given_iff hl' hk0 (hno.2 _ hv (by omega))
  rw [fits_take (hl.layout.tiles.nodup (by decide)) hsize] at hstack
  constructor
  · rintro ⟨q, hq, -, hgiven⟩
    rw [hv] at hq
    obtain rfl := Option.some.inj hq
    exact ⟨_, rfl, b, hfind, hstack.mp hgiven⟩
  · rintro ⟨l', hl', b', hb', hroom⟩
    obtain rfl := Option.some.inj hl'
    rw [hfind] at hb'
    obtain rfl := Option.some.inj hb'
    exact ⟨_, hv, by omega, hstack.mpr hroom⟩

/-- A creation that returns gives a pid exactly when both of its blocks are there. -/
theorem createTask_pid_pos (hinv : Inv w.sched w.sched.zombieList l z)
    (hfew : w.sched.created < 2 ^ 31 - 1) {entry size mem memSize : Nat}
    (h : w.createTask R entry size mem memSize = some (w', pid)) :
    (pid = 0 ∨ 0 < pid) ∧ (0 < pid ↔ BlocksGiven R w size) := by
  unfold World.createTask at h
  obtain ⟨⟨v, t⟩, hv, h⟩ := Option.bind_eq_some_iff.mp h
  unfold BlocksGiven
  rw [hv]
  dsimp only at h
  split at h
  next ht =>
    obtain ⟨-, rfl⟩ := Prod.mk.inj (Option.some.inj h)
    refine ⟨.inl rfl, fun hlt => absurd hlt (by decide), ?_⟩
    rintro ⟨r, hr, ht', -⟩
    obtain rfl := Option.some.inj hr
    exact absurd ht ht'
  next ht =>
  obtain ⟨⟨x, k⟩, hx, h⟩ := Option.map_eq_some_iff.mp h
  dsimp only at h
  split at h
  next hk =>
    obtain ⟨-, rfl⟩ := Prod.mk.inj h
    refine ⟨.inl rfl, fun hlt => absurd hlt (by decide), ?_⟩
    rintro ⟨r, hr, -, q, hq, hk'⟩
    obtain rfl := Option.some.inj hr
    rw [hx] at hq
    obtain rfl := Option.some.inj hq
    exact absurd hk hk'
  next hk =>
    have hsched : x.sched = w.sched := (malloc_keeps hx).2.trans (malloc_keeps hv).2
    have hpid : pid = w.sched.nextPid := by
      have hret : (x.addTask entry size mem memSize t k).2 = pid := congrArg Prod.snd h
      rw [← hsched, ← hret]
      unfold World.addTask createTask
      simp only [if_neg ht, if_neg hk]
    have hpos : 0 < pid := by
      rw [hpid, hinv.nextPid_eq hfew]
      omega
    exact ⟨.inr hpos, fun _ => ⟨_, rfl, ht, _, hx, hk⟩, fun _ => hpos⟩

theorem IsProgram.unique {fs : FS} {name : CStr} {f g : Entry} (hf : IsProgram fs name f)
    (hg : IsProgram fs name g) : f = g :=
  Option.some.inj (hf.found.symm.trans hg.found)

/-- A program is there; what is left is room in both heaps. -/
theorem Proper.program_pid_pos (h : Proper R s) (hcan : s.CanLoad R) {name : CStr} {f : Entry}
    (hf : IsProgram s.fs name f) (hs : s.load R (some name) = some (s', pid)) :
    0 < pid ↔ UserRoom s.world f.size ∧ KernelRoom s.world 16384 := by
  obtain ⟨-, hlt⟩ := hf.size_lt h.files
  obtain ⟨ul, hul⟩ := h.user
  obtain ⟨l, z, hinv, hL⟩ := h.sound
  have hlist := Malloc.blockList_eq hul.layout hul.head
  unfold System.load at hs
  rw [load_program R s.world hf, Nat.mod_eq_of_lt hlt] at hs
  unfold UserRoom
  rw [hlist]
  rcases Malloc.userMalloc_found hul.toHolds (f.size + 1024) with
    ⟨hnull, hno⟩ | ⟨u, b, v, rfl, hfit, -, hsome⟩
  · rw [hnull] at hs
    obtain rfl : 0 = pid := congrArg Prod.snd (Option.some.inj hs)
    refine ⟨fun hlt => absurd hlt (by decide), ?_⟩
    rintro ⟨⟨bl, hbl, b, hb, hfit⟩, -⟩
    obtain rfl := Option.some.inj hbl
    exact absurd hfit (hno.resolve_left (by omega) b hb)
  · have huser : ∃ bl ∈ some (u ++ b :: v), ∃ b ∈ bl, Fits (alignUp (f.size + 1024)) b :=
      ⟨_, rfl, b, by simp, hfit⟩
    rw [hsome, Option.bind_some, if_neg (by omega)] at hs
    have hpos : ∀ c entry mem memSize q,
        World.utaskCreate R { s.world with user := c } entry 16384 mem memSize = some q →
        (0 < q.2 ↔ KernelRoom s.world 16384) := fun c entry mem memSize q hq =>
      (createTask_pid_pos (w := { s.world with user := c }) hinv hcan.2 hq).2.trans
        (blocksGiven_iff hL.kernelHeap (noGrowth_withUser hcan.1 c) (by decide))
    obtain ⟨q, hq, hret⟩ := Option.map_eq_some_iff.mp hs
    obtain ⟨r, hr, rfl⟩ := Option.map_eq_some_iff.mp hq
    have hpid : pid = r.2 := by
      have hsnd := congrArg Prod.snd hret
      split at hsnd
      next h0 => exact hsnd.symm.trans h0.symm
      next => exact hsnd.symm
    rw [and_iff_right huser, hpid]
    exact hpos _ _ _ _ _ hr

/-- In a proper state a program start gives a pid exactly when there is such a program, and room
in both heaps. -/
theorem Proper.load_pid_pos (h : Proper R s) (hcan : s.CanLoad R) {str : Option CStr}
    (hs : s.load R str = some (s', pid)) :
    0 < pid ↔ ∃ name f, str = some name ∧ IsProgram s.fs name f ∧ UserRoom s.world f.size ∧
      KernelRoom s.world 16384 := by
  by_cases hprog : ∃ name f, str = some name ∧ IsProgram s.fs name f
  · obtain ⟨name, f, rfl, hf⟩ := hprog
    rw [h.program_pid_pos hcan hf hs]
    constructor
    · exact fun hroom => ⟨name, f, rfl, hf, hroom⟩
    · rintro ⟨name', f', hname, hf', hroom⟩
      obtain rfl := Option.some.inj hname
      rw [hf.unique hf']
      exact hroom
  · have hneg : ¬ ∃ name f, str = some name ∧ IsProgram s.fs name f ∧ UserRoom s.world f.size ∧
        KernelRoom s.world 16384 := fun ⟨name, f, hname, hf, _⟩ => hprog ⟨name, f, hname, hf⟩
    refine iff_of_false (fun hlt => ?_) hneg
    obtain ⟨r, hr, hret⟩ := (load_cases R s.fs s.world str).resolve_right hprog
    unfold System.load at hs
    rw [hret] at hs
    obtain rfl : r = pid := congrArg Prod.snd (Option.some.inj hs)
    omega

end Starts

/-! ## After the boot -/

/-- No call changes the disk: there is no system call that does. -/
def NoFile : SysCall → Prop
  | .file _ => False
  | _ => True

instance : (o : SysCall) → Decidable (NoFile o)
  | .file _ => inferInstanceAs (Decidable False)
  | .call _ => inferInstanceAs (Decidable True)
  | .load _ => inferInstanceAs (Decidable True)

theorem fs_of_run {R : HeapRegions} {s₀ s : System} {os : List SysCall}
    (hr : Run (System.step R) (fun s o => s.Permitted R o ∧ NoFile o) s₀ os s) :
    s.fs = s₀.fs := by
  refine hr.invariant (I := fun s => s.fs = s₀.fs) (fun s o s' hs ho hstep => ?_) rfl
  cases o with
  | file o => exact ho.2.elim
  | call c =>
    obtain ⟨w, -, rfl⟩ := Option.map_eq_some_iff.mp hstep
    exact hs
  | load str =>
    obtain ⟨r, hr, rfl⟩ := Option.map_eq_some_iff.mp hstep
    obtain ⟨q, -, rfl⟩ := Option.map_eq_some_iff.mp hr
    exact hs

namespace Booted

variable {fs : FS} {im : Images} {a : App}

theorem program (h : Booted im fs) (ha : a ∈ kmainApps im) (hne : a.data ≠ []) :
    ∃ f, IsProgram fs a.name f ∧ f.size = a.data.length := by
  obtain ⟨k, hk⟩ := List.mem_iff_getElem?.mp ha
  obtain ⟨hentry, hsize, -⟩ := h.file hk
  refine ⟨_, ⟨?_, ?_, hentry, ?_⟩, hsize⟩
  · exact (names_kmainApps ha).2.2.2
  · rw [h.binIdx_eq]
    decide
  · rw [hsize]
    exact fun h0 => hne (List.length_eq_zero_iff.mp h0)

theorem of_program (h : Booted im fs) {name : CStr} {f : Entry} (hf : IsProgram fs name f) :
    ∃ a ∈ kmainApps im, a.name = name ∧ a.data ≠ [] ∧ f.size = a.data.length ∧
      fileBytes fs f = a.data := by
  obtain ⟨a, ha, hname, hsize, hbytes⟩ := h.found hf.found
  refine ⟨a, ha, hname, fun h0 => hf.nonempty ?_, hsize, hbytes⟩
  rw [hsize, h0]
  rfl

end Booted

/-- The programs after a boot. In every state that the running system reaches without a change of
the disk or an expansion of the kernel heap, for every name, and where the start needs no expansion
either, a program start gives a pid exactly when one of the five programs has this name, is not
empty, and finds room in both heaps; if it gives no pid it leaves no trace; and if it does,
there is one task more, whose block starts with the bytes of this program as they were linked
into the kernel. -/
theorem programs_after_boot {R : HeapRegions} {e : TaskEntries} {im : Images} {disk mk mu : Mem}
    {task : Nat → Task} {stack : Nat → Nat}
    (hdisk : appClusters (kmainApps im) ≤ fatEntries - 2)
    (hkernel : R.kernel.lo + 25080 ≤ R.kernel.hi)
    (huser : R.user.lo + im.terminal.length + 1071 ≤ R.user.hi) {s₀ s : System}
    (hboot : kmain R e im (System.start R disk task stack mk mu) = some s₀) {os : List SysCall}
    (hr : Run (System.step R) (fun s o => s.Permitted R o ∧ NoFile o) s₀ os s)
    (hcan : s.CanLoad R) (str : Option CStr) :
    ∃ s' pid, s.load R str = some (s', pid) ∧
      (0 < pid ↔ ∃ a ∈ kmainApps im, str = some a.name ∧ a.data ≠ [] ∧
        UserRoom s.world a.data.length ∧ KernelRoom s.world 16384) ∧
      (pid ≤ 0 → NoTrace s s') ∧
      (0 < pid → ∃ a ∈ kmainApps im, ∃ f l t p, str = some a.name ∧ Started s s' f pid l t p ∧
        load s'.world.user.heap.mem p a.data.length = a.data) := by
  obtain ⟨s₁, os₁, -, -, -, hboot', hrun, hbooted, -⟩ :=
    boot_run (R := R) e disk task stack mk mu hdisk hkernel huser
  rw [hboot, Option.some.injEq] at hboot'
  subst hboot'
  rw [← fs_of_run hr] at hbooted
  have hproper := run_proper (hrun.append (hr.mono fun _ _ h => h.1))
  obtain ⟨s', pid, hs', -, hcase⟩ := hproper.load hcan str
  refine ⟨s', pid, hs', ?_, fun hle => ?_, fun hlt => ?_⟩
  · rw [hproper.load_pid_pos hcan hs']
    constructor
    · rintro ⟨name, f, rfl, hf, hroom⟩
      obtain ⟨a, ha, rfl, hne, hsize, -⟩ := hbooted.of_program hf
      rw [hsize] at hroom
      exact ⟨a, ha, rfl, hne, hroom⟩
    · rintro ⟨a, ha, rfl, hne, hroom⟩
      obtain ⟨f, hf, hsize⟩ := hbooted.program ha hne
      rw [← hsize] at hroom
      exact ⟨_, f, rfl, hf, hroom⟩
  · rcases hcase with ⟨-, htrace⟩ | ⟨hpid, -⟩
    · exact htrace
    · omega
  · rcases hcase with ⟨hfailed, -⟩ | ⟨-, name, f, l, t, p, rfl, hf, hstarted⟩
    · omega
    · obtain ⟨a, ha, rfl, -, hsize, hbytes⟩ := hbooted.of_program hf
      refine ⟨a, ha, f, l, t, p, rfl, hstarted, ?_⟩
      rw [← hsize, hstarted.image, hbytes]

/-- Programs of a few bytes, one of them empty. -/
def smallImages : Images := ⟨[1, 2, 3], [4, 5], [6], [], [7]⟩

def someEntries : TaskEntries := ⟨0x101000, 0x102000⟩

def zeroStart : System :=
  System.start heaps128 (fun _ => 0) (fun _ => noTask) (fun _ => 0) (fun _ => 0) fun _ => 0

/-- After one tick `htop` is started; `shutdown` is empty and cannot be. -/
theorem programs_after_boot_small : ∃ s₀ s s', kmain heaps128 someEntries smallImages zeroStart =
      some s₀ ∧
    Run (System.step heaps128) (fun s o => s.Permitted heaps128 o ∧ NoFile o) s₀
      [.call (.tick 0x300000)] s ∧
    s.load heaps128 (some htopName) = some (s', 4) ∧
    ∃ f l t p, Started s s' f 4 l t p ∧ load s'.world.user.heap.mem p 2 = [4, 5] := by
  have hexec : ((kmain heaps128 someEntries smallImages zeroStart).bind fun s₀ =>
      (exec (System.step heaps128) (fun s o => s.Permitted heaps128 o ∧ NoFile o) s₀
        [.call (.tick 0x300000)]).map fun s => (decide (NoGrowth heaps128 s.world 16384),
          s.world.sched.created, (s.load heaps128 (some htopName)).map Prod.snd)) =
      some (true, 3, some 4) := by
    decide +kernel
  obtain ⟨s₀, hboot, hexec⟩ := Option.bind_eq_some_iff.mp hexec
  obtain ⟨s, hs, hval⟩ := Option.map_eq_some_iff.mp hexec
  obtain ⟨hno, hval⟩ := Prod.mk.inj hval
  obtain ⟨hcreated, hpid⟩ := Prod.mk.inj hval
  have hrun := Run.of_exec hs
  have hfew : s.world.sched.created < 2 ^ 31 - 1 := by
    rw [hcreated]
    decide
  obtain ⟨s', pid, hload, -, -, hstarted⟩ := programs_after_boot (by decide) (by decide)
    (by decide) hboot hrun ⟨of_decide_eq_true hno, hfew⟩ (some htopName)
  rw [hload, Option.map_some, Option.some.injEq] at hpid
  dsimp only at hpid
  subst hpid
  obtain ⟨a, ha, f, l, t, p, hname, hst, himage⟩ := hstarted (by decide)
  have hdata : a.data = [4, 5] := by
    simp only [kmainApps, List.mem_cons, List.not_mem_nil, or_false] at ha
    rcases ha with rfl | rfl | rfl | rfl | rfl
    · exact absurd (Option.some.inj hname) (by decide)
    · rfl
    · exact absurd (Option.some.inj hname) (by decide)
    · exact absurd (Option.some.inj hname) (by decide)
    · exact absurd (Option.some.inj hname) (by decide)
  rw [hdata] at himage
  exact ⟨s₀, s, s', hboot, hrun, hload, f, l, t, p, hst, himage⟩

/-! ## The first ticks -/

/-- The machine with the tasks that a boot has created. Each of them goes on with what its frame
holds. -/
def afterBoot (s : Sched) (cpu : Context) (tasks : List Nat) : Machine :=
  { sched := s, cpu := cpu, tasks := tasks
    saved := fun a => restoreFrame s.stack cpu (s.task a).regs }

/-- What the task `t` starts with. -/
def startContext (s : Sched) (t entry : Nat) : Context :=
  initialContext entry ((s.task t).kstack + 8 * 1024)

section FirstTicks

variable {R : HeapRegions} {e : TaskEntries} {im : Images} {w : World} {t₁ t₂ t₃ : Nat}

theorem Waiting.saved {s : Sched} {t entry : Nat} {pid : Int} (h : Waiting s t pid entry)
    (cpu : Context) : restoreFrame s.stack cpu (s.task t).regs = startContext s t entry :=
  restoreFrame_eq cpu h.frame

theorem ThreeTasks.upcoming (h : ThreeTasks R e im w t₁ t₂ t₃) (hsound : Sound R w)
    (cpu : Context) :
    Upcoming (afterBoot w.sched cpu [initTask, t₁, t₂, t₃])
      [(t₁, startContext w.sched t₁ e.userTask1),
        (t₂, startContext w.sched t₂ (R.user.lo + 40)),
        (t₃, startContext w.sched t₃ e.zombieReaperTask)] := by
  obtain ⟨l, z, hinv, -⟩ := hsound
  obtain rfl := hinv.lists.ring.unique h.ring
  have hrunning : w.sched.running = initTask := by
    unfold Sched.running
    rw [if_pos h.current]
  have hframe : ∀ {t pid entry}, Waiting w.sched t pid entry →
      frame w.sched.stack (w.sched.task t).regs 22 =
        contextWords (restoreFrame w.sched.stack cpu (w.sched.task t).regs) := by
    intro t pid entry ht
    rw [ht.saved]
    exact ht.frame
  have hcan : ∀ {t pid entry}, Waiting w.sched t pid entry → runnable w.sched t = true := by
    intro t pid entry ht
    unfold runnable
    rw [ht.ready]
    rfl
  refine ⟨⟨[], [], z, ⟨?_, ?_, ?_⟩⟩, ?_, ?_⟩
  · show Inv w.sched _ ([] ++ w.sched.running :: _) z
    rw [hrunning]
    exact hinv
  · show ∀ a ∈ [] ++ w.sched.running :: _, _
    rw [hrunning]
    exact fun a ha => ha
  · show ∀ a ∈ [] ++ w.sched.running :: _, a ≠ w.sched.running → _
    rw [hrunning]
    simp only [List.nil_append, List.map_cons, List.map_nil, List.cons_append, List.forall_mem_cons]
    exact ⟨fun hi => absurd rfl hi, fun _ => hframe h.clock, fun _ => hframe h.terminal,
      fun _ => hframe h.reaper, by simp⟩
  · simp only [List.forall_mem_cons]
    exact ⟨hcan h.clock, hcan h.terminal, hcan h.reaper, by simp⟩
  · simp only [List.forall_mem_cons]
    exact ⟨h.clock.saved cpu, h.terminal.saved cpu, h.reaper.saved cpu, by simp⟩

end FirstTicks

/-- A boot. With room for the programs on the disk, for three tasks in the kernel heap and for
the terminal in the user heap, `kmain` returns; what it has done is a run of the system; and the
terminal's image is in its block. From then on, whatever is computed and created, the first three
ticks start the clock, the terminal and the reaper, in this order, each at its entry point and
with the end of its own stack. The tasks that run meanwhile do not write into the stacks of
others (`Allowed`). -/
theorem kmain_boots (R : HeapRegions) (e : TaskEntries) (im : Images) (disk : Mem)
    (task : Nat → Task) (stack : Nat → Nat) (mk mu : Mem)
    (hdisk : appClusters (kmainApps im) ≤ fatEntries - 2)
    (hkernel : R.kernel.lo + 25080 ≤ R.kernel.hi)
    (huser : R.user.lo + im.terminal.length + 1071 ≤ R.user.hi) :
    ∃ s os t₁ t₂ t₃, kmain R e im (System.start R disk task stack mk mu) = some s ∧
      Run (System.step R) (System.Permitted R) (System.start R disk task stack mk mu) os s ∧
      ThreeTasks R e im s.world t₁ t₂ t₃ ∧
      ∀ cpu es m, Run Machine.step Allowed
        (afterBoot s.world.sched cpu [initTask, t₁, t₂, t₃]) es m →
        (dispatched (afterBoot s.world.sched cpu [initTask, t₁, t₂, t₃]) es).take 3 <+:
          [(t₁, startContext s.world.sched t₁ e.userTask1),
            (t₂, startContext s.world.sched t₂ (R.user.lo + 40)),
            (t₃, startContext s.world.sched t₃ e.zombieReaperTask)] := by
  obtain ⟨s, os, t₁, t₂, t₃, hboot, hrun, -, htasks⟩ :=
    boot_run (R := R) e disk task stack mk mu hdisk hkernel huser
  exact ⟨s, os, t₁, t₂, t₃, hboot, hrun, htasks, fun cpu es m hr =>
    dispatched_prefix (htasks.upcoming (run_proper hrun).sound cpu) hr⟩

/-- Three ticks; the clock gets as far as a push between the first and the second. -/
def threeTicks : List Event :=
  [.tick [], .code (plainContext 7 0x101234 0x201f00) [(0x201f00, 5)], .tick [], .tick []]

theorem kmain_boots_small : ∃ s t₁ t₂ t₃ m,
    kmain heaps128 someEntries smallImages zeroStart = some s ∧
    ThreeTasks heaps128 someEntries smallImages s.world t₁ t₂ t₃ ∧
    Run Machine.step Allowed
      (afterBoot s.world.sched (plainContext 0 0x100100 0x90000) [initTask, t₁, t₂, t₃])
      threeTicks m ∧
    dispatched (afterBoot s.world.sched (plainContext 0 0x100100 0x90000) [initTask, t₁, t₂, t₃])
        threeTicks =
      [(t₁, startContext s.world.sched t₁ 0x101000), (t₂, startContext s.world.sched t₂ 0x8200028),
        (t₃, startContext s.world.sched t₃ 0x102000)] := by
  obtain ⟨s, -, t₁, t₂, t₃, hboot, -, htasks, hfirst⟩ := kmain_boots heaps128 someEntries
    smallImages (fun _ => 0) (fun _ => noTask) (fun _ => 0) (fun _ => 0) (fun _ => 0) (by decide)
    (by decide) (by decide)
  have hexec : ((kmain heaps128 someEntries smallImages zeroStart).bind fun s =>
      let next := s.world.sched.next
      let t₁ := next initTask
      let m := afterBoot s.world.sched (plainContext 0 0x100100 0x90000)
        [initTask, t₁, next t₁, next (next t₁)]
      (exec Machine.step Allowed m threeTicks).map fun _ => (dispatched m threeTicks).length) =
      some 3 := by
    decide +kernel
  -- the ring says where the three records are
  obtain ⟨-, rfl, rfl, rfl, -⟩ := htasks.ring.path
  rw [zeroStart, hboot, Option.bind_some] at hexec
  obtain ⟨m, hm, hlength⟩ := Option.map_eq_some_iff.mp hexec
  have hrun := Run.of_exec hm
  refine ⟨s, _, _, _, m, hboot, htasks, hrun, ?_⟩
  have hprefix := hfirst _ _ _ hrun
  rw [List.take_of_length_le (Nat.le_of_eq hlength)] at hprefix
  exact hprefix.eq_of_length hlength

end KernelC.Syscall
