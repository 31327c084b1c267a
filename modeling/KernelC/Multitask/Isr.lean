import KernelC.Multitask.Basic

/-!
# The timer interrupt: `interrupt/isr32.asm`

The processor aligns the stack pointer and pushes SS, RSP, RFLAGS, CS and RIP;
every task runs in kernel mode, so there is no change of stack. The handler
pushes the general registers and two more words, calls `schedule_from_isr` with
the address of this frame, and pops what it is handed back.

Results: the frame is the context (`frame_saveFrame`), a frame with the words of
a context is restored to it (`restoreFrame_eq`), and the frame that
`prepare_initial_stack` builds is the one of `initialContext`
(`frame_prepareInitialStack`).
-/

namespace KernelC.Multitask

inductive Reg
  | rax | rcx | rdx | rbx | rbp | rsi | rdi | r8 | r9 | r10 | r11 | r12 | r13 | r14 | r15
deriving DecidableEq

/-- What an interrupted task goes on with. -/
structure Context where
  gpr : Reg → Nat
  rip : Nat
  cs : Nat
  rflags : Nat
  rsp : Nat
  ss : Nat

/-- The order in which `isr32` pushes. -/
def pushOrder : List Reg :=
  [.rax, .rcx, .rdx, .rbx, .rbp, .rsi, .rdi, .r8, .r9, .r10, .r11, .r12, .r13, .r14, .r15]

/-- The order in which `isr32` pops. -/
def popOrder : List Reg :=
  [.r15, .r14, .r13, .r12, .r11, .r10, .r9, .r8, .rdi, .rsi, .rbp, .rbx, .rdx, .rcx, .rax]

/-- The stack before the call of `timer_tick`. -/
def saveFrame (mem : Nat → Nat) (cpu : Context) : Stack :=
  let st : Stack := ⟨mem, cpu.rsp / 16 * 16⟩
  let st := st.pushes [cpu.ss, cpu.rsp, cpu.rflags, cpu.cs, cpu.rip]
  let st := st.pushes (pushOrder.map cpu.gpr)
  st.pushes [0, 32]

/-- `pop r`. -/
def popReg (c : Context × Stack) (r : Reg) : Context × Stack :=
  ({ c.1 with gpr := Function.update c.1.gpr r c.2.pop.1 }, c.2.pop.2)

def popRegs (rs : List Reg) (c : Context × Stack) : Context × Stack := rs.foldl popReg c

/-- `iretq`. -/
def iretq (c : Context × Stack) : Context :=
  let rip := c.2.pop
  let cs := rip.2.pop
  let rflags := cs.2.pop
  let rsp := rflags.2.pop
  let ss := rsp.2.pop
  { c.1 with rip := rip.1, cs := cs.1, rflags := rflags.1, rsp := rsp.1, ss := ss.1 }

/-- The end of `isr32`, from `mov rsp, rax` on. -/
def restoreFrame (mem : Nat → Nat) (cpu : Context) (out : Nat) : Context :=
  iretq (popRegs popOrder (popRegs [.rax, .rax] (cpu, ⟨mem, out⟩)))

/-! ## The words of a frame -/

/-- The 22 quadwords of a frame. -/
def contextWords (c : Context) : List Nat :=
  [32, 0] ++ popOrder.map c.gpr ++ [c.rip, c.cs, c.rflags, c.rsp, c.ss]

/-- What a task starts with. -/
def initialContext (entry kstackTop : Nat) : Context :=
  { gpr := fun _ => 0, rip := entry, cs := 0x08, rflags := 0x202, rsp := kstackTop, ss := 0x10 }

/-- The address of the frame that is pushed. -/
def frameBase (mem : Nat → Nat) (cpu : Context) : Nat := (saveFrame mem cpu).sp

theorem saveFrame_pushes (mem : Nat → Nat) (cpu : Context) :
    saveFrame mem cpu = Stack.pushes ⟨mem, cpu.rsp / 16 * 16⟩ (contextWords cpu).reverse := by
  have hwords : (contextWords cpu).reverse =
      [cpu.ss, cpu.rsp, cpu.rflags, cpu.cs, cpu.rip] ++ (pushOrder.map cpu.gpr ++ [0, 32]) := rfl
  unfold saveFrame Stack.pushes
  rw [hwords, List.foldl_append, List.foldl_append]

theorem frame_saveFrame (mem : Nat → Nat) (cpu : Context) :
    frame (saveFrame mem cpu).mem (saveFrame mem cpu).sp 22 = contextWords cpu := by
  have hframe := frame_pushes (n := 0) ⟨mem, cpu.rsp / 16 * 16⟩ (contextWords cpu).reverse
    (by rw [List.length_reverse, show (contextWords cpu).length = 22 from rfl]; decide)
  rw [List.length_reverse, List.reverse_reverse, ← saveFrame_pushes] at hframe
  exact hframe.trans (List.append_nil _)

theorem saveFrame_of_ne {mem : Nat → Nat} {cpu : Context} {x : Nat}
    (h : ∀ i < 22, x ≠ slot (frameBase mem cpu) i) : (saveFrame mem cpu).mem x = mem x := by
  unfold frameBase at h
  rw [saveFrame_pushes] at h ⊢
  exact pushes_of_ne _ h

/-- The words that are popped into `rs` are the values of `f` there. -/
theorem popRegs_eq {rs : List Reg} {f : Reg → Nat} {n : Nat} {ws : List Nat} {c : Context}
    {st : Stack} (h : frame st.mem st.sp (rs.length + n) = rs.map f ++ ws) :
    (popRegs rs (c, st)).1 = { c with gpr := fun r => if r ∈ rs then f r else c.gpr r } ∧
      (popRegs rs (c, st)).2.mem = st.mem ∧
      frame st.mem (popRegs rs (c, st)).2.sp n = ws := by
  induction rs generalizing c st with
  | nil =>
    rw [List.length_nil, Nat.zero_add] at h
    exact ⟨by simp [popRegs], rfl, h⟩
  | cons r rs ih =>
    rw [List.length_cons, Nat.add_right_comm, List.map_cons, List.cons_append] at h
    obtain ⟨hv, -, hrest⟩ := frame_pop st h
    have hnext : frame st.pop.2.mem st.pop.2.sp (rs.length + n) = rs.map f ++ ws := hrest
    obtain ⟨hc, hmem', hrest'⟩ := ih (c := { c with gpr := Function.update c.gpr r (f r) }) hnext
    have hfirst : popRegs (r :: rs) (c, st) =
        popRegs rs ({ c with gpr := Function.update c.gpr r (f r) }, st.pop.2) := by
      unfold popRegs
      rw [List.foldl_cons, popReg, hv]
    rw [hfirst]
    refine ⟨hc.trans ?_, hmem', hrest'⟩
    congr 1
    funext q
    by_cases hq : q ∈ rs
    · simp [hq]
    · by_cases hqr : q = r <;> simp [hq, hqr]

theorem iretq_eq {c : Context} {st : Stack} {rip cs rflags rsp ss : Nat}
    (h : frame st.mem st.sp 5 = [rip, cs, rflags, rsp, ss]) :
    iretq (c, st) = { c with rip := rip, cs := cs, rflags := rflags, rsp := rsp, ss := ss } := by
  obtain ⟨h1, -, hr1⟩ := frame_pop st h
  obtain ⟨h2, -, hr2⟩ := frame_pop st.pop.2 hr1
  obtain ⟨h3, -, hr3⟩ := frame_pop st.pop.2.pop.2 hr2
  obtain ⟨h4, -, hr4⟩ := frame_pop st.pop.2.pop.2.pop.2 hr3
  obtain ⟨h5, -, -⟩ := frame_pop st.pop.2.pop.2.pop.2.pop.2 hr4
  unfold iretq
  dsimp only
  rw [h1, h2, h3, h4, h5]

/-- A frame with the words of a context is restored to it. -/
theorem restoreFrame_eq {mem : Nat → Nat} {out : Nat} {c : Context} (cpu : Context)
    (h : frame mem out 22 = contextWords c) : restoreFrame mem cpu out = c := by
  -- the first two words go to `rax` and are overwritten
  have hall : ∀ r : Reg, r ∈ popOrder := by
    intro r
    cases r <;> decide
  let st₁ : Stack := (Stack.pop (Stack.pop ⟨mem, out⟩).2).2
  have hrest : frame st₁.mem st₁.sp (popOrder.length + 5) =
      popOrder.map c.gpr ++ [c.rip, c.cs, c.rflags, c.rsp, c.ss] := by
    obtain ⟨-, -, h1⟩ := frame_pop ⟨mem, out⟩ h
    obtain ⟨-, -, h2⟩ := frame_pop (Stack.pop ⟨mem, out⟩).2 h1
    exact h2
  have hfirst : (popRegs [.rax, .rax] (cpu, ⟨mem, out⟩)).2 = st₁ := rfl
  unfold restoreFrame
  generalize popRegs [.rax, .rax] (cpu, ⟨mem, out⟩) = d at hfirst ⊢
  obtain ⟨c₁, st⟩ := d
  obtain rfl : st = st₁ := hfirst
  obtain ⟨hregs, hmem, hfive⟩ := popRegs_eq (c := c₁) hrest
  generalize popRegs popOrder (c₁, st₁) = e at hregs hmem hfive ⊢
  obtain ⟨c₂, st₂⟩ := e
  obtain rfl : c₂ = _ := hregs
  have hlast : frame st₂.mem st₂.sp 5 = [c.rip, c.cs, c.rflags, c.rsp, c.ss] := by
    rw [show st₂.mem = st₁.mem from hmem]
    exact hfive
  rw [iretq_eq hlast]
  simp [hall]

theorem frame_prepareInitialStack (mem : Nat → Nat) (entry kstackTop : Nat) :
    frame (prepareInitialStack mem entry kstackTop).1 (prepareInitialStack mem entry kstackTop).2 22 =
      contextWords (initialContext entry kstackTop) := by
  unfold prepareInitialStack
  exact (frame_storeFrame (by decide)).trans rfl

theorem prepareInitialStack_of_ne {mem : Nat → Nat} {entry kstackTop x : Nat}
    (h : ∀ i < 22, x ≠ slot (prepareInitialStack mem entry kstackTop).2 i) :
    (prepareInitialStack mem entry kstackTop).1 x = mem x :=
  storeFrame_of_ne h

end KernelC.Multitask
