import KernelC.Multitask.Context
import KernelC.Multitask.Liveness
import KernelC.Syscall.Load

/-!
# Starting programs in the running system

The file system and the scheduler with its heaps, as one system in which files
change, tasks come and go, and `load_and_run_program` is called. The user heap is
used through `user_malloc` and `user_free` only, so its block list stays coalesced
(`Proper`), and a block that is taken and freed again leaves no trace in it.

A start can fail before it takes anything, when the user heap has no room, and when
the kernel heap has no room for the record or the stack of the new task. What it has
taken by then is given back (`NoTrace`); else there is one task more (`Started`).

Result: `program_start`.
-/

namespace KernelC.Syscall

open Fat16 Multitask
open Malloc (Canonical Client Fits Heap Region alignUp blockList cut takeBlock userFree userMalloc)

variable {R : HeapRegions} {fs : FS} {w w' : World} {str : CStr} {f : Entry} {pid : Int}

/-! ## The system -/

structure System where
  fs : FS
  world : World

/-- A call of the file system, one of the scheduler or of a client of a heap, or a
program start. -/
inductive SysCall
  | file (o : Fat16.Op)
  | call (c : Call)
  | load (str : Option CStr)

/-- Nobody calls `user_realloc`. -/
def NoRealloc : Call → Prop
  | .userHeap (.realloc _ _) => False
  | _ => True

namespace System

def load (R : HeapRegions) (s : System) (str : Option CStr) : Option (System × Int) :=
  (loadAndRunProgram R s.fs s.world str).map fun r => ({ s with world := r.1 }, r.2)

def step (R : HeapRegions) (s : System) : SysCall → Option System
  | .file o => (Fat16.step s.fs o).map fun fs => { s with fs := fs }
  | .call c => (World.step R s.world c).map fun w => { s with world := w }
  | .load str => (s.load R str).map Prod.fst

/-- The system as `kmain` leaves it before the first file is written and the first
task is created, over any contents of the memory and the disk. -/
def start (R : HeapRegions) (disk : Mem) (task : Nat → Task) (stack : Nat → Nat) (mk mu : Mem) :
    System :=
  ⟨fsInit disk, World.start R task stack mk mu⟩

/-- `heap_expand` does not succeed in a program start, and an `int` holds the pid. -/
def CanLoad (R : HeapRegions) (s : System) : Prop :=
  NoGrowth R s.world 16384 ∧ s.world.sched.created < 2 ^ 31 - 1

def Permitted (R : HeapRegions) (s : System) : SysCall → Prop
  | .file o => ByName o
  | .call c => s.world.Permitted R c ∧ NoRealloc c
  | .load _ => s.CanLoad R

end System

/-- What holds in every state that is reached. -/
structure Proper (R : HeapRegions) (s : System) : Prop where
  files : SizeInv s.fs
  sound : Sound R s.world
  user : ∃ l, Canonical R.user s.world.user.heap s.world.user.live l

theorem start_proper (R : HeapRegions) (disk : Mem) (task : Nat → Task) (stack : Nat → Nat)
    (mk mu : Mem) : Proper R (System.start R disk task stack mk mu) :=
  ⟨sizeInv_fsInit disk, World.start_sound R task stack mk mu,
    _, Malloc.userStart_holds R.user mu, List.isChain_singleton _⟩

/-! ## Calls other than program starts -/

theorem Proper.file {s : System} (h : Proper R s) {o : Fat16.Op} (ho : ByName o) {fs' : FS}
    (hs : Fat16.step s.fs o = some fs') : Proper R { s with fs := fs' } :=
  ⟨h.files.step ho hs, h.sound, h.user⟩

/-- The scheduler frees user blocks, and its clients take, free and write them. -/
theorem Proper.call {s : System} (h : Proper R s) {c : Call} (ho : s.world.Permitted R c)
    (hno : NoRealloc c) (hs : World.step R s.world c = some w') :
    Proper R { s with world := w' } := by
  obtain ⟨l, hl⟩ := h.user
  refine ⟨h.files, ?_, ?_⟩
  · obtain ⟨v, hv, hsound⟩ := World.step_sound h.sound ho
    rw [hs] at hv
    obtain rfl := Option.some.inj hv
    exact hsound
  · rcases World.step_user h.sound ho hs with hfrees | ⟨o, rfl, hstep⟩
    · exact hl.frees hfrees
    · refine hl.step ⟨ho.1, ?_⟩ hstep
      cases o with
      | realloc p n => exact hno.elim
      | _ => trivial

/-! ## The block of a program -/

/-- The client `c'` of the user heap holds, in addition to what `c` does, a block at `p`
with room for `size + 1024` bytes that starts with `bytes`. When it is freed, the block
list is again that of `c`. -/
structure Filled (R : Region) (c : Client Heap) (c' : Client Heap) (p size : Nat)
    (bytes : List UInt8) : Prop where
  fresh : p ∉ c.live
  live : c'.live = insert p c.live
  block : ∃ l, Canonical R c'.heap c'.live l ∧
    ∃ b ∈ l, b.free = false ∧ b.addr + 40 = p ∧ size + 1024 ≤ b.size
  bytes : load c'.heap.mem p bytes.length = bytes
  undo : ∃ l, Canonical R c.heap c.live l ∧ Canonical R (userFree c'.heap p) c.live l

/-- The block that `user_malloc` gives, with the image in it. -/
theorem filled_of_malloc {R : Region} {c : Client Heap} {l : List Block} {s : Heap} {p size : Nat}
    {bytes : List UInt8} (h : Canonical R c.heap c.live l) (hsize : size + 1024 < 2 ^ 32)
    (hlen : bytes.length = size) (hcall : userMalloc R c.heap (size + 1024) = some (s, p))
    (hp : p ≠ 0) :
    Filled R c ⟨withImage s p size bytes, insert p c.live⟩ p size bytes := by
  rcases Malloc.userMalloc_found h.toHolds (size + 1024) with
    ⟨hnull, -⟩ | ⟨u, b, v, rfl, hfit, -, hsome⟩
  · rw [hnull, Option.some.injEq, Prod.mk.injEq] at hcall
    exact absurd hcall.2.symm hp
  rw [hsome, Option.some.injEq, Prod.mk.injEq] at hcall
  obtain ⟨rfl, rfl⟩ := hcall
  have hle : size + 1024 ≤ alignUp (size + 1024) := Malloc.le_alignUp (by omega)
  obtain ⟨d, hd, haddr, hused, hroom⟩ := Malloc.cut_used (b := { b with free := false }) rfl hfit.2
  have hd' : d ∈ u ++ (cut { b with free := false } (alignUp (size + 1024)) ++ v) := by simp [hd]
  dsimp only at haddr
  -- the image lies in the payload of the new block
  have hinside : ∀ (s : Heap) x, x < d.addr + 40 ∨ d.addr + 40 + d.size ≤ x →
      (withImage s (b.addr + 40) size bytes).mem x = s.mem x := by
    intro s x hx
    unfold withImage
    dsimp only
    rw [store_of_outside (by omega), memset_apply, if_neg (by omega)]
  have hfilled := (h.take hfit).write hd' (hinside _)
  exact ⟨(h.toHolds.took hfit).fresh, rfl, ⟨_, hfilled, d, hd', hused, by rw [haddr], by omega⟩,
    load_store_same _ _ _, _, h, h.take_free hfit hfilled⟩

/-! ## The new task -/

theorem malloc_withUser (w : World) (c : Client Heap) (n : Nat) :
    World.malloc R { w with user := c } n =
      (w.malloc R n).map fun r => ({ r.1 with user := c }, r.2) := by
  unfold World.malloc
  rw [Option.map_map]
  refine congrArg (fun g => Option.map g _) (funext fun r => ?_)
  dsimp only [Function.comp]
  split <;> rfl

/-- The creation does not look at the user heap. -/
theorem noGrowth_withUser {n : Nat} (h : NoGrowth R w n) (c : Client Heap) :
    NoGrowth R { w with user := c } n := by
  refine ⟨h.1, fun r hr hne => ?_⟩
  rw [malloc_withUser, Option.mem_def, Option.map_eq_some_iff] at hr
  obtain ⟨q, hq, rfl⟩ := hr
  exact h.2 q hq hne

/-- The first frame of a new task has its entry point. -/
theorem createTask_entry (s : Sched) (entry size mem memSize : Nat) {t k : Nat} (ht0 : t ≠ 0)
    (hk0 : k ≠ 0) :
    let s' := (createTask s entry size mem memSize t k).1
    s'.stack (slot (s'.task t).regs 17) = entry := by
  obtain ⟨hstack, hregs⟩ := createTask_frame s entry size mem memSize ht0 hk0
  dsimp only at hstack hregs ⊢
  rw [hstack, hregs]
  unfold prepareInitialStack
  dsimp only
  generalize (kstackTop size k / 16 * 16 + (2 ^ 64 - 22 * 8)) % 2 ^ 64 = sp
  have hframe : frame (storeFrame s.stack sp (initialFrame entry (kstackTop size k)) 22) sp 22 =
      (List.range 22).map (initialFrame entry (kstackTop size k)) := frame_storeFrame (by decide)
  exact List.map_inj_left.mp hframe 17 (by simp)

/-! ## One program start -/

/-- Nothing is left of the call. The list of the user heap's blocks is as it was, though
not the bytes in the free ones. -/
structure NoTrace (s s' : System) : Prop where
  userList : ∃ l, blockList s.world.user.heap = some l ∧ blockList s'.world.user.heap = some l
  kernelLive : s'.world.kernel.live = s.world.kernel.live
  /-- The ring, the pids, and all else that the scheduler has. -/
  sched : s'.world.sched = s.world.sched
  fs : s'.fs = s.fs

/-- The task `t` with the pid `pid` has come to the ring `l`, with the program `f` in the
user block at `p`. -/
structure Started (s s' : System) (f : Entry) (pid : Int) (l : List Nat) (t p : Nat) : Prop where
  ring : Ring s.world.sched.next s.world.sched.taskRing l
  tail : Ring s'.world.sched.next s'.world.sched.taskRing (l ++ [t])
  others : ∀ a, a ≠ t → s'.world.sched.task a =
    { s.world.sched.task a with next := (s'.world.sched.task a).next }
  ready : (s'.world.sched.task t).state = .ready
  taskPid : (s'.world.sched.task t).pid = pid
  newPid : ∀ a ∈ l, (s.world.sched.task a).pid ≠ pid
  /-- The return address in its first frame. -/
  entry : s'.world.sched.stack (slot (s'.world.sched.task t).regs 17) = p
  fresh : p ∉ s.world.user.live
  block : ∃ bl, blockList s'.world.user.heap = some bl ∧
    ∃ b ∈ bl, b.free = false ∧ b.addr + 40 = p ∧ f.size + 1024 ≤ b.size
  image : load s'.world.user.heap.mem p f.size = fileBytes s.fs f
  length : (fileBytes s.fs f).length = f.size

theorem Proper.noTrace_refl {s : System} (h : Proper R s) : NoTrace s s := by
  obtain ⟨l, hl⟩ := h.user
  have hlist := Malloc.blockList_eq hl.layout hl.head
  exact ⟨⟨l, hlist, hlist⟩, rfl, rfl, rfl⟩

/-- The books of a world whose user heap has one more block. -/
theorem Filled.ledger {c : Client Heap} {p size : Nat} {bytes : List UInt8} {M : List Nat}
    (hc : Filled R.user w.user c p size bytes) (hL : Ledger R w M) :
    Ledger R { w with user := c } M := by
  obtain ⟨l, hl, -⟩ := hc.block
  refine hL.withUser ⟨l, hl.toHolds⟩ ?_
  rw [hc.live]
  exact hL.userLive.trans (Finset.subset_insert _ _)

/-- No task has the new block yet. -/
theorem Filled.notMem_handed {c : Client Heap} {p size : Nat} {bytes : List UInt8} {M : List Nat}
    (hc : Filled R.user w.user c p size bytes) (hL : Ledger R w M) : p ∉ w.handed :=
  fun hm => hc.fresh (hL.userLive hm)

/-- The creation failed, and the block is freed: the lists are the old ones. -/
theorem Filled.undone {s : System} {c : Client Heap} {p size : Nat} {bytes : List UInt8}
    {M : List Nat} (hc : Filled R.user s.world.user c p size bytes) (h : Proper R s)
    (hL : Ledger R s.world M) (hsound : Sound R w')
    (hd : Declined { s.world with user := c } w') :
    Proper R { s with world := w'.userFree p } ∧ NoTrace s { s with world := w'.userFree p } := by
  have hhanded : w'.handed.erase p = w'.handed := by
    rw [hd.handed]
    exact Finset.erase_eq_of_notMem (hc.notMem_handed hL)
  have hfree : w'.userFree p =
      { w' with user := ⟨userFree c.heap p, s.world.user.live⟩ } := by
    unfold World.userFree
    rw [hhanded, hd.user, hc.live, Finset.erase_insert hc.fresh]
  obtain ⟨l, hl, hl'⟩ := hc.undo
  rw [hfree]
  refine ⟨⟨h.files, ?_, l, hl'⟩, ⟨l, Malloc.blockList_eq hl.layout hl.head,
    Malloc.blockList_eq hl'.layout hl'.head⟩, hd.kernelLive, hd.sched, rfl⟩
  obtain ⟨r, z, hinv, hL'⟩ := hsound
  refine ⟨r, z, hinv, hL'.withUser ⟨l, hl'.toHolds⟩ ?_⟩
  rw [hd.handed]
  exact hL.userLive

/-- The creation succeeded: there is one task more. -/
theorem Filled.started {s : System} {c : Client Heap} {p t k : Nat} {l z : List Nat}
    (hc : Filled R.user s.world.user c p f.size (fileBytes s.fs f))
    (hlen : (fileBytes s.fs f).length = f.size)
    (hinv : Inv s.world.sched s.world.sched.zombieList l z)
    (hfew : s.world.sched.created < 2 ^ 31 - 1) (ht0 : t ≠ 0) (hk0 : k ≠ 0)
    (hfresh : Fresh s.world.sched t k) (huser : w'.user = c)
    (hpair : (w'.sched, pid) = createTask s.world.sched p 16384 p f.size t k) :
    pid = s.world.sched.created + 1 ∧ Started s { s with world := w' } f pid l t p := by
  have hsched : w'.sched = (createTask s.world.sched p 16384 p f.size t k).1 :=
    congrArg Prod.fst hpair
  have hpid : pid = (createTask s.world.sched p 16384 p f.size t k).2 := congrArg Prod.snd hpair
  have hm := hinv.made p 16384 p f.size ht0 hk0 hfresh
  obtain ⟨-, hnew, -, -, hready⟩ := createTask_new s.world.sched p 16384 p f.size ht0 hk0
  have hentry := createTask_entry s.world.sched p 16384 p f.size ht0 hk0
  rw [← hpid] at hnew
  rw [← hsched] at hm hnew hready hentry
  obtain ⟨bl, hbl, hblock⟩ := hc.block
  have hnext : pid = s.world.sched.created + 1 := by
    rw [← hnew, hm.new.2.2.1, hinv.nextPid_eq hfew]
  refine ⟨hnext, hinv.lists.ring, hm.ring, hm.old, hready, hnew, fun a ha => ?_, hentry, hc.fresh,
    ⟨bl, ?_, hblock⟩, ?_, hlen⟩
  · have hle := hinv.owned.uidLe a (List.mem_append_left _ ha)
    rw [hinv.pid_eq hfew (List.mem_append_left _ ha), hnext]
    omega
  · show blockList w'.user.heap = some bl
    rw [huser]
    exact Malloc.blockList_eq hbl.layout hbl.head
  · show load w'.user.heap.mem p f.size = fileBytes s.fs f
    rw [huser, ← hlen]
    exact hc.bytes

/-- A program start returns. It leaves no trace, or a new task with the next pid. -/
theorem Proper.load {s : System} (h : Proper R s) (hcan : s.CanLoad R) (str : Option CStr) :
    ∃ s' pid, s.load R str = some (s', pid) ∧ Proper R s' ∧
      ((pid = 0 ∨ pid = -1) ∧ NoTrace s s' ∨
        pid = s.world.sched.created + 1 ∧ ∃ name f l t p, str = some name ∧
          IsProgram s.fs name f ∧ Started s s' f pid l t p) := by
  obtain ⟨hno, hfew⟩ := hcan
  unfold System.load
  rcases load_cases R s.fs s.world str with ⟨r, hr, hret⟩ | ⟨name, f, rfl, hf⟩
  · rw [hret]
    exact ⟨s, r, rfl, h, .inl ⟨hr, h.noTrace_refl⟩⟩
  obtain ⟨hlen, hlt⟩ := hf.size_lt h.files
  obtain ⟨ul, hul⟩ := h.user
  obtain ⟨l, z, hinv, hL⟩ := h.sound
  rw [load_program R s.world hf, Nat.mod_eq_of_lt hlt]
  obtain ⟨heap, p, -, hcall, -⟩ := Malloc.userMalloc_holds hul.toHolds (f.size + 1024)
  rw [hcall, Option.bind_some]
  dsimp only
  by_cases hp : p = 0
  · -- no room: the heap is as it was
    have hsame : heap = s.world.user.heap := by
      rcases Malloc.userMalloc_found hul.toHolds (f.size + 1024) with
        ⟨hnull, -⟩ | ⟨u, b, v, -, -, -, hsome⟩
      · rw [hnull, Option.some.injEq, Prod.mk.injEq] at hcall
        exact hcall.1.symm
      · rw [hsome, Option.some.injEq, Prod.mk.injEq] at hcall
        omega
    rw [if_pos hp, hsame]
    exact ⟨s, 0, rfl, h, .inl ⟨.inl rfl, h.noTrace_refl⟩⟩
  rw [if_neg hp]
  have hc := filled_of_malloc hul hlt hlen hcall hp
  generalize Client.mk (withImage heap p f.size (fileBytes s.fs f)) (insert p s.world.user.live) = c
    at hc ⊢
  obtain ⟨w', r, hw', hsound, hcase⟩ := World.createTask_sound (w := { s.world with user := c })
    hinv (hc.ledger hL) (frameFits_of_large _ _ (by decide)) (noGrowth_withUser hno c) p p f.size
    (.inr ⟨by rw [hc.live]; exact Finset.mem_insert_self _ _, hc.notMem_handed hL⟩)
  unfold World.utaskCreate
  rw [hw', Option.map_some, Option.map_some]
  dsimp only
  rcases hcase with ⟨rfl, hd⟩ | ⟨t, k, ht0, hk0, hfresh, huser, hpair⟩
  · obtain ⟨hproper, htrace⟩ := hc.undone h hL hsound hd
    exact ⟨_, 0, by rw [if_pos rfl], hproper, .inl ⟨.inl rfl, htrace⟩⟩
  · obtain ⟨hpid, hstarted⟩ := hc.started hlen hinv hfew ht0 hk0 hfresh huser hpair
    obtain ⟨bl, hbl, -⟩ := hc.block
    refine ⟨{ s with world := w' }, r, by rw [if_neg (by omega)], ⟨h.files, hsound, bl, ?_⟩,
      .inr ⟨hpid, name, f, l, t, p, rfl, hf, hstarted⟩⟩
    show Canonical R.user w'.user.heap w'.user.live bl
    rw [huser]
    exact hbl

/-! ## Runs -/

theorem Proper.step {s s' : System} (h : Proper R s) {o : SysCall} (ho : s.Permitted R o)
    (hs : s.step R o = some s') : Proper R s' := by
  cases o with
  | file o =>
    obtain ⟨fs, hfs, rfl⟩ := Option.map_eq_some_iff.mp hs
    exact h.file ho hfs
  | call c =>
    obtain ⟨w, hw, rfl⟩ := Option.map_eq_some_iff.mp hs
    exact h.call ho.1 ho.2 hw
  | load str =>
    obtain ⟨t, pid, ht, hproper, -⟩ := h.load ho str
    obtain ⟨r, hr, rfl⟩ := Option.map_eq_some_iff.mp hs
    rw [ht] at hr
    obtain rfl := Option.some.inj hr
    exact hproper

theorem run_proper {disk mk mu : Mem} {task : Nat → Task} {stack : Nat → Nat} {os : List SysCall}
    {s : System} (hr : Run (System.step R) (System.Permitted R)
      (System.start R disk task stack mk mu) os s) : Proper R s :=
  hr.invariant (fun _ _ _ h ho hs => h.step ho hs) (start_proper R disk task stack mk mu)

/-- In every state that is reached a program start returns. If it returns 0 or -1 it leaves
no trace; if it returns another value, it has added one task with this pid at the tail of the
ring, which is READY and whose entry point is the start of a user block that was not in use,
with room for the file and 1024 bytes more, and with the contents of the file at its
start. -/
theorem program_start (R : HeapRegions) (disk mk mu : Mem) (task : Nat → Task) (stack : Nat → Nat)
    {os : List SysCall} {s : System}
    (hr : Run (System.step R) (System.Permitted R) (System.start R disk task stack mk mu) os s)
    (hno : NoGrowth R s.world 16384) (hfew : s.world.sched.created < 2 ^ 31 - 1)
    (str : Option CStr) :
    ∃ s' pid, s.load R str = some (s', pid) ∧
      (pid = 0 ∨ pid = -1 → NoTrace s s') ∧
      (pid ≠ 0 → pid ≠ -1 → ∃ name f l t p, str = some name ∧ IsProgram s.fs name f ∧
        Started s s' f pid l t p) := by
  obtain ⟨s', pid, hs', -, hcase⟩ := (run_proper hr).load ⟨hno, hfew⟩ str
  refine ⟨s', pid, hs', fun hfailed => ?_, fun h0 h1 => ?_⟩
  · rcases hcase with ⟨-, htrace⟩ | ⟨hpid, -⟩
    · exact htrace
    · omega
  · rcases hcase with ⟨hfailed, -⟩ | ⟨-, hstarted⟩
    · exact absurd hfailed (by omega)
    · exact hstarted

instance : (c : Call) → Decidable (NoRealloc c)
  | .userHeap (.realloc _ _) => inferInstanceAs (Decidable False)
  | .userHeap (.malloc _) => inferInstanceAs (Decidable True)
  | .userHeap (.free _) => inferInstanceAs (Decidable True)
  | .userHeap (.write _ _ _) => inferInstanceAs (Decidable True)
  | .taskCreate _ _ => inferInstanceAs (Decidable True)
  | .utaskCreate _ _ _ _ => inferInstanceAs (Decidable True)
  | .tick _ => inferInstanceAs (Decidable True)
  | .taskStop _ => inferInstanceAs (Decidable True)
  | .taskExit _ => inferInstanceAs (Decidable True)
  | .reapZombies => inferInstanceAs (Decidable True)
  | .taskIsAlive _ => inferInstanceAs (Decidable True)
  | .kernelHeap _ => inferInstanceAs (Decidable True)

instance (R : HeapRegions) (s : System) : (o : SysCall) → Decidable (s.Permitted R o)
  | .file o => inferInstanceAs (Decidable (ByName o))
  | .call _ => inferInstanceAs (Decidable (_ ∧ _))
  | .load _ => inferInstanceAs (Decidable (_ ∧ _))

/-- Make the program `a`, start it, and let it exit. -/
def startAndExit : List SysCall :=
  [.file (.mkdir (some binName) fsRootIdx),
    .file (.writeFileInDir (some nameA) (some binName) 1 [1, 2, 3]), .load (some nameA),
    .call (.tick 0x300000), .call (.taskExit 0), .call (.tick 0x300100)]

/-- The program is started again while its first task waits to be reaped; there is no program
`b`. -/
theorem program_start_startAndExit :
    ∃ s s₁ s₂, Run (System.step heaps128) (System.Permitted heaps128)
        (System.start heaps128 (fun _ => 0) (fun _ => noTask) (fun _ => 0) (fun _ => 0) fun _ => 0)
        startAndExit s ∧
      s.load heaps128 (some nameA) = some (s₁, 2) ∧ s.load heaps128 (some nameB) = some (s₂, 0) ∧
      NoTrace s s₂ ∧
      ∃ f l t p, IsProgram s.fs nameA f ∧ Started s s₁ f 2 l t p := by
  have hexec : (exec (System.step heaps128) (System.Permitted heaps128)
      (System.start heaps128 (fun _ => 0) (fun _ => noTask) (fun _ => 0) (fun _ => 0) fun _ => 0)
      startAndExit).map (fun s => (decide (NoGrowth heaps128 s.world 16384), s.world.sched.created,
        (s.load heaps128 (some nameA)).map Prod.snd,
        (s.load heaps128 (some nameB)).map Prod.snd)) = some (true, 1, some 2, some 0) := by
    decide +kernel
  obtain ⟨s, hs, hval⟩ := Option.map_eq_some_iff.mp hexec
  obtain ⟨hno, hval⟩ := Prod.mk.inj hval
  obtain ⟨hcreated, hval⟩ := Prod.mk.inj hval
  obtain ⟨hpid, hnone⟩ := Prod.mk.inj hval
  have hrun := Run.of_exec hs
  have hfew : s.world.sched.created < 2 ^ 31 - 1 := by
    rw [hcreated]
    decide
  obtain ⟨s₁, pid₁, h₁, -, hstarted⟩ := program_start heaps128 (fun _ => 0) (fun _ => 0)
    (fun _ => 0) (fun _ => noTask) (fun _ => 0) hrun (of_decide_eq_true hno) hfew (some nameA)
  obtain ⟨s₂, pid₂, h₂, htrace, -⟩ := program_start heaps128 (fun _ => 0) (fun _ => 0)
    (fun _ => 0) (fun _ => noTask) (fun _ => 0) hrun (of_decide_eq_true hno) hfew (some nameB)
  rw [h₁, Option.map_some, Option.some.injEq] at hpid
  rw [h₂, Option.map_some, Option.some.injEq] at hnone
  dsimp only at hpid hnone
  subst hpid hnone
  obtain ⟨name, f, l, t, p, hname, hf, hstart⟩ := hstarted (by decide) (by decide)
  obtain rfl := Option.some.inj hname
  exact ⟨s, s₁, s₂, hrun, h₁, h₂, htrace (.inl rfl), f, l, t, p, hf, hstart⟩

end KernelC.Syscall
