import KernelC.Lib.Shares
import KernelC.Multitask.Resources
import KernelC.Multitask.Runs

/-!
# The books of the scheduler

Which blocks of the heaps belong to which task. `Conserved` is what the books
say in every state that is reached; `Ledger` adds what connects them to the
records of the tasks in the lists.

Results: what the changes of the scheduler do to the books. A change that keeps
the tasks keeps them (`Ledger.resched`); freeing a task takes its blocks out
(`Ledger.freeTaskResources`); a creation that succeeds enters two new blocks
(`Ledger.enter`).
-/

namespace KernelC.Multitask

open Malloc (Holds userMagic)
open Malloc.Kernel (kernelMagic)

/-- The task was stopped by another one, or reaped. -/
def Gone (f : Fate) : Prop := f = .stopped ∨ f = .reaped

/-- The created tasks that were neither stopped by another task nor reaped. -/
def holders (s : Sched) : Set Nat := {u | u ≠ 0 ∧ Present (s.fate u)}

namespace Blocks

def kernel (b : Blocks) : Finset Nat := {b.record, b.stack}

def user (b : Blocks) : Finset Nat := if b.userMem = 0 then ∅ else {b.userMem}

/-- The blocks that there are, in the order in which they are logged. -/
def parts (b : Blocks) : List Resource :=
  .record :: (if b.userMem = 0 then [.stack] else [.userMem, .stack])

theorem mem_parts (b : Blocks) (r : Resource) : r ∈ b.parts ↔ (r = .userMem → b.userMem ≠ 0) := by
  unfold parts
  cases r <;> split <;> simp_all

theorem parts_nodup (b : Blocks) : b.parts.Nodup := by
  unfold parts
  split <;> decide

theorem mem_user (b : Blocks) (p : Nat) : p ∈ b.user ↔ b.userMem ≠ 0 ∧ p = b.userMem := by
  unfold user
  split <;> simp_all

end Blocks

/-- What a release is about. -/
def Release.key (e : Release) : Nat × Resource := (e.uid, e.what)

/-- The blocks of the tasks that are gone were released, each of them once, and
were live until then. -/
structure Logged (w : World) : Prop where
  live : ∀ e ∈ w.released, e.wasLive = true
  once : (w.released.map Release.key).Nodup
  mem : ∀ u r, (u, r) ∈ w.released.map Release.key ↔
    Gone (w.sched.fate u) ∧ (r = .userMem → (w.blocks u).userMem ≠ 0)

structure Conserved (R : HeapRegions) (w : World) : Prop where
  /-- The live pointers are the used blocks of the heaps. -/
  kernelHeap : ∃ l, Holds kernelMagic R.kernel w.kernel.heap.toHeap w.kernel.live l
  userHeap : ∃ l, Holds userMagic R.user w.user.heap w.user.live l
  /-- A record and a stack for each holder, and nothing else. -/
  kernel : Divided w.made (holders w.sched) fun u => (w.blocks u).kernel
  two : ∀ u ∈ holders w.sched, (w.blocks u).record ≠ (w.blocks u).stack
  kernelLive : w.made ⊆ w.kernel.live
  user : Divided w.handed (holders w.sched) fun u => (w.blocks u).user
  userLive : w.handed ⊆ w.user.live
  log : Logged w

/-- The books, and the records of the tasks `M` that are in the lists. -/
structure Ledger (R : HeapRegions) (w : World) (M : List Nat) : Prop extends Conserved R w where
  alloc : w.made = w.sched.alloc
  records : ∀ a ∈ M, a ≠ initTask → w.blocks (w.sched.task a).uid =
    ⟨a, (w.sched.task a).kstack, (w.sched.task a).userMem⟩

variable {R : HeapRegions} {w : World} {s s' u : Sched} {l l' z M N : List Nat} {t : Nat} {f : Fate}

theorem present_not_gone (h : Present f) : ¬ Gone f := by
  rintro (rfl | rfl) <;> simp [Present] at h

/-! ## The same tasks -/

/-- The same tasks, with the same blocks. -/
structure SameTasks (s s' : Sched) : Prop where
  alloc : s'.alloc = s.alloc
  present : ∀ u, Present (s'.fate u) ↔ Present (s.fate u)
  gone : ∀ u, Gone (s'.fate u) ↔ Gone (s.fate u)
  uid : ∀ a, (s'.task a).uid = (s.task a).uid
  kstack : ∀ a, a ≠ initTask → (s'.task a).kstack = (s.task a).kstack
  userMem : ∀ a, (s'.task a).userMem = (s.task a).userMem

theorem OnlyRing.userMem (h : OnlyRing s s') (a : Nat) :
    (s'.task a).userMem = (s.task a).userMem := by
  rw [h.record a]

theorem OnlyRing.sameTasks (h : OnlyRing s s') : SameTasks s s' := by
  refine ⟨h.alloc, fun u => ?_, fun u => ?_, h.uid, fun a _ => h.kstack a, h.userMem⟩
  · rw [h.fate]
  · rw [h.fate]

theorem Quiet.sameTasks (h : Quiet s s') (hmem : ∀ a, (s'.task a).userMem = (s.task a).userMem) :
    SameTasks s s' := by
  refine ⟨h.alloc, fun u => ?_, fun u => ?_, h.uid, h.kstack, hmem⟩
  · rw [h.fate]
  · rw [h.fate]

/-- A task that was in the lists becomes a zombie and stays in them. -/
theorem Queued.sameTasks {c : Nat} (h : Queued s s' l' c f)
    (hmem : ∀ a, (s'.task a).userMem = (s.task a).userMem)
    (hold : Present (s.fate (s.task c).uid)) (hnew : Present f) : SameTasks s s' := by
  refine ⟨h.alloc, fun u => ?_, fun u => ?_, h.uid, fun a _ => h.kstack a, hmem⟩
  · rw [h.fate]
    by_cases hu : u = (s.task c).uid
    · rw [hu, Function.update_self]
      exact ⟨fun _ => hold, fun _ => hnew⟩
    · rw [Function.update_of_ne hu]
  · rw [h.fate]
    by_cases hu : u = (s.task c).uid
    · rw [hu, Function.update_self]
      exact ⟨fun hg => absurd hg (present_not_gone hnew),
        fun hg => absurd hg (present_not_gone hold)⟩
    · rw [Function.update_of_ne hu]

theorem endCurrent_userMem {g : Task → Task} (hg : ∀ t, (g t).userMem = t.userMem)
    (h0 : s.current ≠ 0) (f : Fate) (a : Nat) :
    ((endCurrent s g f).task a).userMem = (s.task a).userMem := by
  by_cases ha : a = s.current
  · rw [ha, endCurrent_self s g f h0]
    exact hg _
  · rw [endCurrent_of_ne s g f h0 ha]

theorem stopSelf_userMem (h : stopSelf s = some s') (h0 : s.current ≠ 0) (a : Nat) :
    (s'.task a).userMem = (s.task a).userMem := by
  obtain ⟨⟨u, r⟩, hu, rfl⟩ := Option.map_eq_some_iff.mp h
  rw [(unlinkFromRing_onlyRing hu).userMem]
  refine endCurrent_userMem ?_ h0 _ a
  exact fun _ => rfl

theorem saveCurrent_userMem (s : Sched) (regs a : Nat) :
    ((saveCurrent s regs).task a).userMem = (s.task a).userMem := by
  unfold saveCurrent
  split
  · dsimp only [useKstack]
    exact modify_field Task.userMem rfl a
  · exact modify_field Task.userMem rfl a

theorem scheduleFromIsr_userMem {regs out : Nat} (h : scheduleFromIsr s regs = some (s', out))
    (a : Nat) : (s'.task a).userMem = (s.task a).userMem := by
  rw [← saveCurrent_userMem s regs a]
  obtain ⟨picked, -, hout⟩ := Option.map_eq_some_iff.mp h
  generalize saveCurrent s regs = v at hout ⊢
  have hmodify : ∀ n, ((v.modify n fun t => { t with state := .running }).task a).userMem =
      (v.task a).userMem := fun n => modify_field Task.userMem rfl a
  cases picked with
  | none =>
    obtain ⟨rfl, -⟩ := Prod.mk.inj hout
    rfl
  | some n =>
    dsimp only at hout
    split at hout
    · obtain ⟨rfl, -⟩ := Prod.mk.inj hout
      exact hmodify v.current
    · obtain ⟨rfl, -⟩ := Prod.mk.inj hout
      exact hmodify n

theorem SameTasks.holders (h : SameTasks s s') (u : Nat) : u ∈ holders s' ↔ u ∈ holders s :=
  and_congr_right fun _ => h.present u

theorem Ledger.resched (h : Ledger R w M) (hs : SameTasks w.sched s') (hM : ∀ a ∈ N, a ∈ M) :
    Ledger R { w with sched := s' } N := by
  refine ⟨⟨h.kernelHeap, h.userHeap, h.kernel.congr hs.holders,
    fun u hu => h.two u ((hs.holders u).mp hu), h.kernelLive, h.user.congr hs.holders, h.userLive,
    h.log.live, h.log.once, fun u r => ?_⟩, h.alloc.trans hs.alloc.symm, fun a ha hai => ?_⟩
  · rw [h.log.mem, hs.gone]
  · show w.blocks (s'.task a).uid = _
    rw [hs.uid, h.records a (hM a ha) hai, hs.kstack a hai, hs.userMem]

/-! ## A task is freed -/

theorem freeTaskResources_alloc (ht0 : t ≠ 0) (hti : t ≠ initTask) (hk0 : (s.task t).kstack ≠ 0) :
    (freeTaskResources s t f).alloc = (s.alloc.erase (s.task t).kstack).erase t := by
  simp [freeTaskResources, ht0, hti, hk0]

theorem freeTaskResources_of_ne {a : Nat} (ha : a ≠ t) :
    (freeTaskResources s t f).task a = s.task a := by
  unfold freeTaskResources
  split
  · rfl
  · dsimp only
    split
    · exact Function.update_of_ne ha _ _
    · rfl

theorem World.freeBlocks_eq (w : World) (r : Task) (t : Nat) (hk : r.kstack ≠ 0) :
    w.freeBlocks r t =
      { w with
        kernel := ⟨Malloc.Kernel.free (Malloc.Kernel.free w.kernel.heap r.kstack) t,
          (w.kernel.live.erase r.kstack).erase t⟩
        made := (w.made.erase r.kstack).erase t
        user := if r.userMem = 0 then w.user
          else ⟨Malloc.userFree w.user.heap r.userMem, w.user.live.erase r.userMem⟩
        handed := if r.userMem = 0 then w.handed else w.handed.erase r.userMem
        released := ⟨r.uid, .record, t ∈ w.kernel.live.erase r.kstack⟩ ::
          ((if r.userMem = 0 then [] else [⟨r.uid, .userMem, r.userMem ∈ w.user.live⟩]) ++
            ⟨r.uid, .stack, r.kstack ∈ w.kernel.live⟩ :: w.released) } := by
  unfold World.freeBlocks
  by_cases hm : r.userMem = 0
  · simp [hk, hm, World.note, World.free]
  · simp [hk, hm, World.note, World.free, World.userFree]

/-- The tasks that are left when `u` is gone. -/
theorem holders_of_gone {u : Nat} (hfate : s'.fate = Function.update s.fate u f) (hf : Gone f)
    (v : Nat) : v ∈ holders s' ↔ v ∈ holders s ∧ v ≠ u := by
  show (v ≠ 0 ∧ Present (s'.fate v)) ↔ (v ≠ 0 ∧ Present (s.fate v)) ∧ v ≠ u
  rw [hfate]
  by_cases hv : v = u
  · rw [hv, Function.update_self]
    have : ¬ Present f := fun hp => present_not_gone hp hf
    tauto
  · rw [Function.update_of_ne hv]
    tauto

/-- A task that was not gone is freed: its blocks are logged, once each. -/
theorem Logged.release {w' : World} {u : Nat} (h : Logged w) (hold : ¬ Gone (w.sched.fate u))
    (hf : Gone f) (hfate : w'.sched.fate = Function.update w.sched.fate u f)
    (hblocks : w'.blocks = w.blocks)
    (hrel : w'.released = ((w.blocks u).parts.map fun r => ⟨u, r, true⟩) ++ w.released) :
    Logged w' := by
  have hkeys : w'.released.map Release.key =
      ((w.blocks u).parts.map fun r => (u, r)) ++ w.released.map Release.key := by
    rw [hrel, List.map_append, List.map_map]
    rfl
  have hnone : ∀ r, (u, r) ∉ w.released.map Release.key := fun r hm => hold ((h.mem u r).mp hm).1
  refine ⟨fun e he => ?_, ?_, fun v r => ?_⟩
  · rw [hrel, List.mem_append] at he
    rcases he with he | he
    · obtain ⟨r, -, rfl⟩ := List.mem_map.mp he
      rfl
    · exact h.live e he
  · rw [hkeys, List.nodup_append]
    refine ⟨(w.blocks u).parts_nodup.map fun a b hab => (Prod.mk.inj hab).2, h.once, ?_⟩
    intro x hx y hy hxy
    obtain ⟨r, -, rfl⟩ := List.mem_map.mp hx
    exact hnone r (hxy ▸ hy)
  · rw [hkeys, List.mem_append, List.mem_map, hfate, hblocks]
    by_cases hv : v = u
    · subst hv
      rw [Function.update_self, ← Blocks.mem_parts]
      simp [hnone r, hf]
    · rw [Function.update_of_ne hv, ← h.mem]
      simp [Ne.symm hv]

theorem Ledger.ne_zero (h : Ledger R w M) {p : Nat} (hp : p ∈ w.made) : p ≠ 0 := by
  obtain ⟨bl, hbl⟩ := h.kernelHeap
  exact fun he => hbl.zero_notMem (he ▸ h.kernelLive hp)

/-- The blocks of a task are in the books. -/
theorem Ledger.blocks_mem (h : Ledger R w M) (ht : t ∈ M) (hti : t ≠ initTask)
    (hu : (w.sched.task t).uid ∈ holders w.sched) :
    t ∈ w.made ∧ (w.sched.task t).kstack ∈ w.made ∧ t ≠ (w.sched.task t).kstack ∧
    ((w.sched.task t).userMem ≠ 0 → (w.sched.task t).userMem ∈ w.handed) := by
  have hb := h.records t ht hti
  have htwo := h.two _ hu
  rw [hb] at htwo
  refine ⟨h.kernel.share_mem hu ?_, h.kernel.share_mem hu ?_, htwo,
    fun h0 => h.user.share_mem hu ?_⟩
  · simp [hb, Blocks.kernel]
  · simp [hb, Blocks.kernel]
  · rw [hb, Blocks.mem_user]
    exact ⟨h0, rfl⟩

theorem Ledger.freeTaskResources_eq (h : Ledger R w M) (ht : t ∈ M) (hti : t ≠ initTask)
    (hu : (w.sched.task t).uid ∈ holders w.sched) :
    w.freeTaskResources t f =
      { w.freeBlocks (w.sched.task t) t with
        sched := Multitask.freeTaskResources w.sched t f } := by
  have ht0 := h.ne_zero (h.blocks_mem ht hti hu).1
  unfold World.freeTaskResources
  rw [if_neg (by simp [ht0, hti])]

/-- The tasks `N` are left when the task at `t` is freed. -/
theorem Ledger.freeTaskResources (h : Ledger R w M) (ht : t ∈ M) (hti : t ≠ initTask)
    (hu : (w.sched.task t).uid ∈ holders w.sched) (hf : Gone f)
    (hM : ∀ a ∈ N, a ∈ M ∧ (w.sched.task a).uid ≠ (w.sched.task t).uid) :
    Ledger R (w.freeTaskResources t f) N := by
  have hb := h.records t ht hti
  obtain ⟨htm, hkm, hne, hmem⟩ := h.blocks_mem ht hti hu
  have htl := h.kernelLive htm
  have hkl := h.kernelLive hkm
  have hk0 := h.ne_zero hkm
  have hspec := freeTaskResources_spec w.sched (h.ne_zero htm) hti f
  rw [h.freeTaskResources_eq ht hti hu, World.freeBlocks_eq w _ t hk0]
  have hholders := holders_of_gone hspec.fate hf
  refine ⟨⟨?_, ?_, h.kernel.remove hu (fun p => ?_) hholders,
    fun u hv => h.two u ((hholders u).mp hv).1, ?_, h.user.remove hu (fun p => ?_) hholders, ?_,
    h.log.release (present_not_gone hu.2) hf hspec.fate rfl ?_⟩, ?_, fun a ha hai => ?_⟩
  · obtain ⟨bl, hbl⟩ := h.kernelHeap
    obtain ⟨bl', hbl'⟩ := hbl.free_cases (.inr hkl)
    exact hbl'.free_cases (.inr (Finset.mem_erase.mpr ⟨hne, htl⟩))
  · obtain ⟨ul, hul⟩ := h.userHeap
    by_cases h0 : (w.sched.task t).userMem = 0
    · simp only [if_pos h0]
      exact ⟨ul, hul⟩
    · simp only [if_neg h0]
      exact Malloc.userFree_holds hul (.inr (h.userLive (hmem h0)))
  · rw [hb]
    simp only [Blocks.kernel, Finset.mem_erase, Finset.mem_insert, Finset.mem_singleton]
    tauto
  · exact Finset.erase_subset_erase _ (Finset.erase_subset_erase _ h.kernelLive)
  · rw [hb, Blocks.mem_user]
    split
    · simp_all
    · rw [Finset.mem_erase]
      tauto
  · by_cases h0 : (w.sched.task t).userMem = 0
    · simp only [if_pos h0]
      exact h.userLive
    · simp only [if_neg h0]
      exact Finset.erase_subset_erase _ h.userLive
  · rw [hb, Blocks.parts]
    have hlive : t ∈ w.kernel.live.erase (w.sched.task t).kstack := Finset.mem_erase.mpr ⟨hne, htl⟩
    by_cases h0 : (w.sched.task t).userMem = 0
    · simp [h0, hlive, hkl]
    · simp [h0, hlive, hkl, h.userLive (hmem h0)]
  · show _ = (Multitask.freeTaskResources w.sched t f).alloc
    rw [freeTaskResources_alloc (h.ne_zero htm) hti hk0, h.alloc]
  · obtain ⟨haM, hne'⟩ := hM a ha
    have hat : a ≠ t := fun he => hne' (by rw [he])
    rw [freeTaskResources_of_ne hat]
    exact h.records a haM hai

/-- Of the live blocks, only blocks of tasks are gone. -/
structure Trimmed (w w' : World) : Prop where
  kernel : ∀ p, p ∈ w'.kernel.live ↔ p ∈ w.kernel.live ∧ (p ∈ w.made → p ∈ w'.made)
  made : w'.made ⊆ w.made
  user : ∀ p, p ∈ w'.user.live ↔ p ∈ w.user.live ∧ (p ∈ w.handed → p ∈ w'.handed)
  handed : w'.handed ⊆ w.handed
  blocks : w'.blocks = w.blocks

theorem Trimmed.refl (w : World) : Trimmed w w :=
  ⟨fun _ => by tauto, fun _ => id, fun _ => by tauto, fun _ => id, rfl⟩

theorem Trimmed.trans {v w' : World} (h : Trimmed w v) (h' : Trimmed v w') : Trimmed w w' := by
  refine ⟨fun p => ?_, h'.made.trans h.made, fun p => ?_, h'.handed.trans h.handed,
    h'.blocks.trans h.blocks⟩
  · have h1 := @h.made p
    have h2 := @h'.made p
    rw [h'.kernel, h.kernel]
    tauto
  · have h1 := @h.handed p
    have h2 := @h'.handed p
    rw [h'.user, h.user]
    tauto

theorem Ledger.trimmed (h : Ledger R w M) (ht : t ∈ M) (hti : t ≠ initTask)
    (hu : (w.sched.task t).uid ∈ holders w.sched) : Trimmed w (w.freeTaskResources t f) := by
  obtain ⟨htm, hkm, -, hmem⟩ := h.blocks_mem ht hti hu
  rw [h.freeTaskResources_eq ht hti hu, World.freeBlocks_eq w _ t (h.ne_zero hkm)]
  refine ⟨fun p => ?_, ?_, fun p => ?_, ?_, rfl⟩
  · -- the two blocks that go are in the books
    have h1 : p = t → p ∈ w.made := fun he => he ▸ htm
    have h2 : p = (w.sched.task t).kstack → p ∈ w.made := fun he => he ▸ hkm
    simp only [Finset.mem_erase]
    tauto
  · exact (Finset.erase_subset _ _).trans (Finset.erase_subset _ _)
  · dsimp only
    split
    · tauto
    · next h0 =>
      have h1 : p = (w.sched.task t).userMem → p ∈ w.handed := fun he => he ▸ hmem h0
      simp only [Finset.mem_erase]
      tauto
  · dsimp only
    split
    · exact fun _ => id
    · exact Finset.erase_subset _ _

/-! ## The heaps change -/

theorem Ledger.withKernel {c : Malloc.Client Malloc.Kernel.KHeap} (h : Ledger R w M)
    (hc : ∃ l, Holds kernelMagic R.kernel c.heap.toHeap c.live l) (hlive : w.made ⊆ c.live) :
    Ledger R { w with kernel := c } M :=
  ⟨⟨hc, h.userHeap, h.kernel, h.two, hlive, h.user, h.userLive, h.log.live, h.log.once, h.log.mem⟩,
    h.alloc, h.records⟩

theorem Ledger.withUser {c : Malloc.Client Malloc.Heap} (h : Ledger R w M)
    (hc : ∃ l, Holds userMagic R.user c.heap c.live l) (hlive : w.handed ⊆ c.live) :
    Ledger R { w with user := c } M :=
  ⟨⟨h.kernelHeap, hc, h.kernel, h.two, h.kernelLive, h.user, hlive, h.log.live, h.log.once,
    h.log.mem⟩, h.alloc, h.records⟩

/-! ## A new task -/

/-- A `malloc` of a creation got `n` bytes at `p`. -/
structure Got (R : HeapRegions) (w : World) (n : Nat) (v : World) (p : Nat) : Prop where
  world : v = { w with kernel := v.kernel, made := insert p w.made }
  live : v.kernel.live = insert p w.kernel.live
  fresh : p ∉ w.kernel.live
  heap : ∃ l, Holds kernelMagic R.kernel v.kernel.heap.toHeap v.kernel.live l ∧
    ∃ b ∈ l, b.addr + 40 = p ∧ Malloc.alignUp n ≤ b.size

theorem World.malloc_cases
    (h : ∃ l, Holds kernelMagic R.kernel w.kernel.heap.toHeap w.kernel.live l) {n : Nat}
    (hn : Malloc.Kernel.NoExpand R.kernel w.kernel (.malloc n)) :
    w.malloc R n = some (w, 0) ∨ ∃ v p, w.malloc R n = some (v, p) ∧ p ≠ 0 ∧ Got R w n v p := by
  obtain ⟨l, hl⟩ := h
  unfold World.malloc
  rcases Malloc.Kernel.malloc_cases hl hn with hnull | ⟨heap, p, hsome, htook⟩
  · refine .inl ?_
    rw [hnull]
    rfl
  · refine .inr ⟨{ w with
      kernel := ⟨heap, insert p w.kernel.live⟩
      made := insert p w.made }, p, ?_, htook.nonnull, ?_⟩
    · rw [hsome, Option.map_some]
      simp only [if_neg htook.nonnull]
    · obtain ⟨l', hl', hb, -⟩ := htook.holds
      exact ⟨rfl, rfl, htook.fresh, l', hl', hb⟩

/-- The call returned a pointer. -/
theorem got_of_malloc
    (h : ∃ l, Holds kernelMagic R.kernel w.kernel.heap.toHeap w.kernel.live l) {v : World}
    {n p : Nat} (hn : Malloc.Kernel.NoExpand R.kernel w.kernel (.malloc n))
    (hv : w.malloc R n = some (v, p)) (hp : p ≠ 0) : Got R w n v p := by
  rcases World.malloc_cases h hn with hnull | ⟨v', p', hv', -, hgot⟩
  · rw [hnull] at hv
    exact absurd (Prod.mk.inj (Option.some.inj hv)).2.symm hp
  · rw [hv] at hv'
    obtain ⟨rfl, rfl⟩ := Prod.mk.inj (Option.some.inj hv')
    exact hgot

namespace Got

variable {v : World} {n p : Nat}

theorem bounds (h : Got R w n v p) : R.kernel.lo + 40 ≤ p ∧ p + Malloc.alignUp n < 2 ^ 64 := by
  obtain ⟨l, hl, b, hb, rfl, hsize⟩ := h.heap
  have := hl.layout.bounds hb
  omega

/-- A write into the new block. -/
theorem written (h : Got R w n v p) {a : Nat} {bs : List UInt8}
    (ha : p ≤ a ∧ a + bs.length ≤ p + Malloc.alignUp n) :
    ∃ l, Holds kernelMagic R.kernel (writeKernel v.kernel a bs).heap.toHeap
      (writeKernel v.kernel a bs).live l := by
  obtain ⟨l, hl, b, hb, rfl, hsize⟩ := h.heap
  exact ⟨l, hl.write hb fun y hy => store_of_outside (by omega)⟩

/-- The block is given back: a creation that gets no stack. -/
theorem rollback (h : Got R w n v p) (hL : Ledger R w M) :
    (v.free p).sched = w.sched ∧ (v.free p).user = w.user ∧
      (v.free p).kernel.live = w.kernel.live ∧ Ledger R (v.free p) M := by
  obtain ⟨l, hl, -⟩ := h.heap
  have hp : p ∈ v.kernel.live := by
    rw [h.live]
    exact Finset.mem_insert_self _ _
  have hlive : v.kernel.live.erase p = w.kernel.live := by
    rw [h.live, Finset.erase_insert h.fresh]
  have hmade : (insert p w.made).erase p = w.made :=
    Finset.erase_insert fun hm => h.fresh (hL.kernelLive hm)
  have hfree : v.free p =
      { w with kernel := ⟨Malloc.Kernel.free v.kernel.heap p, v.kernel.live.erase p⟩ } := by
    unfold World.free
    rw [h.world, hmade]
  rw [hfree]
  refine ⟨rfl, rfl, hlive, hL.withKernel (hl.free_cases (.inr hp)) ?_⟩
  show w.made ⊆ v.kernel.live.erase p
  rw [hlive]
  exact hL.kernelLive

end Got

theorem frameBytes_length (entry kstackTop : Nat) : (frameBytes entry kstackTop).length = 176 := by
  simp [frameBytes, List.length_flatMap]

/-- The first frame lies inside the new stack. -/
theorem frame_inside {n k : Nat} (hfits : StackFits k n) (hk : k + Malloc.alignUp n ≤ 2 ^ 64)
    (stack : Nat → Nat) (entry : Nat) :
    k ≤ (prepareInitialStack stack entry ((k + n) % 2 ^ 64)).2 ∧
    (prepareInitialStack stack entry ((k + n) % 2 ^ 64)).2 + 176 ≤ k + n := by
  obtain ⟨hroom, hn⟩ := hfits
  have hle := Malloc.le_alignUp hn
  unfold prepareInitialStack
  dsimp only
  omega

/-- The tasks after a creation. -/
theorem Made.holders {k : Nat} (hm : Made s s' l t k) (v : Nat) :
    v ∈ holders s' ↔ v = s.created + 1 ∨ v ∈ holders s := by
  show (v ≠ 0 ∧ Present (s'.fate v)) ↔ v = s.created + 1 ∨ v ≠ 0 ∧ Present (s.fate v)
  rw [hm.fate]
  by_cases hv : v = s.created + 1
  · simp [hv, Present]
  · simp [hv]

/-- A task that did not exist is entered into the log's world. -/
theorem Logged.enter {v : World} {b : Blocks} {k : Nat} (h : Logged w)
    (hm : Made w.sched v.sched l t k) (habsent : w.sched.fate (w.sched.created + 1) = .absent)
    (hblocks : v.blocks = Function.update w.blocks (w.sched.created + 1) b)
    (hrel : v.released = w.released) : Logged v := by
  refine ⟨by rw [hrel]; exact h.live, by rw [hrel]; exact h.once, fun u r => ?_⟩
  rw [hrel, h.mem, hm.fate, hblocks]
  by_cases hu : u = w.sched.created + 1
  · rw [hu, habsent, Function.update_self]
    simp [Gone]
  · rw [Function.update_of_ne hu, Function.update_of_ne hu]

section Enter

variable {k mem : Nat} {B : Nat → Blocks} {c : Malloc.Client Malloc.Kernel.KHeap}

theorem Ledger.enter_kernel (h : Ledger R w M) (hm : Made w.sched s' l t k)
    (hnew : B (w.sched.created + 1) = ⟨t, k, mem⟩) (hkeep : ∀ u ∈ holders w.sched, B u = w.blocks u)
    (ht : t ∉ w.kernel.live) (hk : k ∉ w.kernel.live) :
    Divided (insert k (insert t w.made)) (holders s') fun u => (B u).kernel := by
  refine h.kernel.add (a := w.sched.created + 1) (fun p hp hmade => ?_)
    (fun u hu => by rw [hkeep u hu]) (fun p => ?_) hm.holders
  · rw [hnew, Blocks.kernel, Finset.mem_insert, Finset.mem_singleton] at hp
    rcases hp with rfl | rfl
    · exact ht (h.kernelLive hmade)
    · exact hk (h.kernelLive hmade)
  · rw [hnew, Blocks.kernel]
    simp only [Finset.mem_insert, Finset.mem_singleton]
    tauto

theorem Ledger.enter_user (h : Ledger R w M) (hm : Made w.sched s' l t k)
    (hnew : B (w.sched.created + 1) = ⟨t, k, mem⟩) (hkeep : ∀ u ∈ holders w.sched, B u = w.blocks u)
    (huser : mem = 0 ∨ mem ∈ w.user.live ∧ mem ∉ w.handed) :
    Divided (if mem = 0 then w.handed else insert mem w.handed) (holders s')
      fun u => (B u).user := by
  refine h.user.add (a := w.sched.created + 1) (fun p hp => ?_) (fun u hu => by rw [hkeep u hu])
    (fun p => ?_) hm.holders
  · rw [hnew, Blocks.mem_user] at hp
    rw [hp.2]
    exact (huser.resolve_left hp.1).2
  · rw [hnew, Blocks.mem_user]
    split
    · simp_all
    · rw [Finset.mem_insert]
      tauto

/-- A new task's serial number belongs to no task yet. -/
theorem Inv.new_notMem_holders {head : Nat} (h : Inv s head l z) : s.created + 1 ∉ holders s := by
  rintro ⟨-, hpres⟩
  rw [h.fates.absent (s.created + 1) (by omega)] at hpres
  simp [Present] at hpres

/-- The books after a creation with fresh blocks. -/
theorem Ledger.enter (h : Ledger R w (l ++ z)) (hinv : Inv w.sched w.sched.zombieList l z)
    (hm : Made w.sched s' l t k) (hmem : (s'.task t).userMem = mem)
    (hfresh : t ∉ w.kernel.live ∧ k ∉ w.kernel.live ∧ t ≠ k)
    (huser : mem = 0 ∨ mem ∈ w.user.live ∧ mem ∉ w.handed)
    (hc : ∃ l, Holds kernelMagic R.kernel c.heap.toHeap c.live l)
    (hlive : c.live = insert k (insert t w.kernel.live)) :
    Ledger R
      { w with
        sched := s'
        kernel := c
        made := insert k (insert t w.made)
        handed := if mem = 0 then w.handed else insert mem w.handed
        blocks := Function.update w.blocks (w.sched.created + 1) ⟨t, k, mem⟩ }
      ((l ++ [t]) ++ z) := by
  obtain ⟨htl, hkl, htk⟩ := hfresh
  have hlog := h.log.enter (v := { w with
    sched := s'
    blocks := Function.update w.blocks (w.sched.created + 1) ⟨t, k, mem⟩ }) hm
    (hinv.fates.absent _ (by omega)) rfl rfl
  have hnew : Function.update w.blocks (w.sched.created + 1) ⟨t, k, mem⟩ (w.sched.created + 1) =
      ⟨t, k, mem⟩ := Function.update_self _ _ _
  have hkeep : ∀ u, u ≠ w.sched.created + 1 →
      Function.update w.blocks (w.sched.created + 1) ⟨t, k, mem⟩ u = w.blocks u :=
    fun u hu => Function.update_of_ne hu _ _
  generalize Function.update w.blocks (w.sched.created + 1) ⟨t, k, mem⟩ = B at hlog hnew hkeep ⊢
  have hold : ∀ u ∈ holders w.sched, B u = w.blocks u := fun u hu =>
    hkeep u fun he => hinv.new_notMem_holders (he ▸ hu)
  refine ⟨⟨hc, h.userHeap, h.enter_kernel hm hnew hold htl hkl, fun u hu => ?_, ?_,
    h.enter_user hm hnew hold huser, ?_, hlog.live, hlog.once, hlog.mem⟩, ?_, fun a ha hai => ?_⟩
  · show (B u).record ≠ (B u).stack
    rcases (hm.holders u).mp hu with rfl | hu
    · rw [hnew]
      exact htk
    · rw [hold u hu]
      exact h.two u hu
  · show insert k (insert t w.made) ⊆ c.live
    rw [hlive]
    exact Finset.insert_subset_insert _ (Finset.insert_subset_insert _ h.kernelLive)
  · show (if mem = 0 then w.handed else insert mem w.handed) ⊆ w.user.live
    split
    · exact h.userLive
    · next h0 => exact Finset.insert_subset (huser.resolve_left h0).1 h.userLive
  · show insert k (insert t w.made) = s'.alloc
    rw [hm.alloc, h.alloc]
  · show B (s'.task a).uid = _
    rcases Made.mem_cases ha with rfl | ⟨haM, hat⟩
    · rw [hm.new.1, hnew, hm.new.2.1, hmem]
    · have hle := hinv.owned.uidLe a haM
      rw [hm.old a hat, hkeep _ (by dsimp only; omega)]
      exact h.records a haM hai

end Enter

end KernelC.Multitask
