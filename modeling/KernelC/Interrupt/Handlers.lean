import KernelC.Multitask.Isr

/-!
# Handlers that return where they came from

`isr33` and the stubs of `isr_stubs.asm` push the general registers, call a C function
or nothing, pop the registers in the opposite order and end with `iretq`. One lemma
covers them (`isrAround_eq`): whatever the C function does to the registers, the
interrupted code goes on with all it had, if the function leaves the saved words alone.

An exception with an error code has one word more on the stack, which no stub removes.
Then `iretq` takes the error code for the address to return to, and each word behind it
for the one before (`exception_eq`).
-/

namespace KernelC.Interrupt

open Multitask

/-! ## The processor and the C functions -/

/-- What the processor does to the stack at an interrupt: it aligns it and pushes SS, RSP,
RFLAGS, CS and RIP. -/
def enter (mem : Nat → Nat) (cpu : Context) : Stack :=
  Stack.pushes ⟨mem, cpu.rsp / 16 * 16⟩ [cpu.ss, cpu.rsp, cpu.rflags, cpu.cs, cpu.rip]

/-- The five words that `iretq` pops. -/
def returnWords (cpu : Context) : List Nat := [cpu.rip, cpu.cs, cpu.rflags, cpu.rsp, cpu.ss]

/-- The vectors at which the processor pushes an error code behind the five words. -/
def errorCodeVectors : List Nat := [8, 10, 11, 12, 13, 14, 17, 21, 29, 30]

/-- The registers and the memory after a C function, and the state of the rest of the kernel. -/
structure Returned (σ : Type) where
  gpr : Reg → Nat
  mem : Nat → Nat
  state : σ

/-- A compiled C function, by the registers and the stack at its call. It may not return.
The stack pointer is the same after the return. -/
def Compiled (σ : Type) : Type := (Reg → Nat) → Stack → σ → Option (Returned σ)

def calleeSaved : List Reg := [.rbx, .rbp, .r12, .r13, .r14, .r15]

/-- The words from the `lo`-th to the `hi`-th behind the stack pointer are the caller's. -/
structure Obeys {σ : Type} (f : Compiled σ) (lo hi : Nat) : Prop where
  saved : ∀ gpr st s r, f gpr st s = some r → ∀ q ∈ calleeSaved, r.gpr q = gpr q
  words : ∀ gpr st s r, f gpr st s = some r → ∀ i, lo ≤ i → i < hi →
    r.mem (slot st.sp i) = st.mem (slot st.sp i)

/-! ## The handlers -/

/-- Push `pushes`, call `f`, pop `pops`, return. -/
def isrAround {σ : Type} (pushes pops : List Reg) (f : Compiled σ) (st : Stack) (cpu : Context)
    (s : σ) : Option (Context × σ) :=
  let st := st.pushes (pushes.map cpu.gpr)
  (f cpu.gpr st s).map fun r =>
    (iretq (popRegs pops ({ cpu with gpr := r.gpr }, ⟨r.mem, st.sp⟩)), r.state)

/-- The order in which `isr33` pushes. -/
def isr33Pushes : List Reg :=
  [.rax, .rbx, .rcx, .rdx, .rbp, .rsi, .rdi, .r8, .r9, .r10, .r11, .r12, .r13, .r14, .r15]

/-- `isr33`, the keyboard. -/
def isr33 {σ : Type} (keyboardHandler : Compiled σ) (mem : Nat → Nat) (cpu : Context) (s : σ) :
    Option (Context × σ) :=
  isrAround isr33Pushes
    [.r15, .r14, .r13, .r12, .r11, .r10, .r9, .r8, .rdi, .rsi, .rbp, .rdx, .rcx, .rbx, .rax]
    keyboardHandler (enter mem cpu) cpu s

/-- Nothing between the pushes and the pops. -/
def noCall : Compiled Unit := fun gpr st s => some ⟨gpr, st.mem, s⟩

/-- `isr_stub_n`, from the stack that the processor leaves. -/
def isrStub (st : Stack) (cpu : Context) : Option Context :=
  (isrAround
    [.rax, .rcx, .rdx, .rbx, .rbp, .rsi, .rdi, .r8, .r9, .r10, .r11, .r12, .r13, .r14, .r15]
    [.r15, .r14, .r13, .r12, .r11, .r10, .r9, .r8, .rdi, .rsi, .rbp, .rbx, .rdx, .rcx, .rax]
    noCall st cpu ()).map Prod.fst

/-- The exception `vector` in the context `cpu`. -/
def exception (vector code : Nat) (mem : Nat → Nat) (cpu : Context) : Option Context :=
  isrStub (if vector ∈ errorCodeVectors then (enter mem cpu).push code else enter mem cpu) cpu

/-! ## What they return to -/

variable {σ : Type} {mem : Nat → Nat} {cpu : Context}

theorem frame_enter (mem : Nat → Nat) (cpu : Context) :
    frame (enter mem cpu).mem (enter mem cpu).sp 5 = returnWords cpu := by
  have hframe := frame_pushes (n := 0) ⟨mem, cpu.rsp / 16 * 16⟩
    [cpu.ss, cpu.rsp, cpu.rflags, cpu.cs, cpu.rip] (by simp only [List.length_cons]; decide)
  exact hframe.trans (List.append_nil _)

theorem enter_sp (mem : Nat → Nat) (cpu : Context) : (enter mem cpu).sp % 16 = 8 := by
  have hsp := pushes_sp_mod ⟨mem, cpu.rsp / 16 * 16⟩
    [cpu.ss, cpu.rsp, cpu.rflags, cpu.cs, cpu.rip]
  unfold enter
  simp only [List.length_cons, List.length_nil] at hsp
  omega

theorem Obeys.frame_eq {f : Compiled σ} {lo n : Nat} (h : Obeys f lo (lo + n)) {gpr : Reg → Nat}
    {st : Stack} {s : σ} {r : Returned σ} (hr : f gpr st s = some r) :
    frame r.mem (slot st.sp lo) n = frame st.mem (slot st.sp lo) n := by
  refine frame_congr fun i hi => ?_
  rw [slot_slot]
  exact h.words gpr st s r hr (lo + i) (by omega) (by omega)

/-- A list of registers with all of them in it. -/
def Covers (rs : List Reg) : Prop := ∀ r : Reg, r ∈ rs

/-- Popping all the registers and the five words. -/
theorem popRegs_iretq {rs : List Reg} (hall : Covers rs) {g : Reg → Nat}
    {ip cs flags sp ss : Nat} {st : Stack} (c : Context)
    (h : frame st.mem st.sp (rs.length + 5) = rs.map g ++ [ip, cs, flags, sp, ss]) :
    iretq (popRegs rs (c, st)) = ⟨g, ip, cs, flags, sp, ss⟩ := by
  obtain ⟨hregs, hmem, hfive⟩ := popRegs_eq (c := c) h
  generalize popRegs rs (c, st) = d at hregs hmem hfive ⊢
  obtain ⟨c', st'⟩ := d
  obtain rfl : c' = _ := hregs
  rw [iretq_eq (show frame st'.mem st'.sp 5 = [ip, cs, flags, sp, ss] from hmem ▸ hfive)]
  simp [hall _]

/-- The function is called and the registers come back; what `iretq` finds are the words
behind them. -/
theorem isrAround_eq {pushes pops : List Reg} (hpops : pops = pushes.reverse) (hall : Covers pops)
    (hlen : pops.length = 15) {f : Compiled σ} (hf : Obeys f 0 20) {st : Stack}
    {ip cs flags sp ss : Nat} (hst : frame st.mem st.sp 5 = [ip, cs, flags, sp, ss]) (s : σ) :
    isrAround pushes pops f st cpu s =
      (f cpu.gpr (st.pushes (pushes.map cpu.gpr)) s).map fun r =>
        (⟨cpu.gpr, ip, cs, flags, sp, ss⟩, r.state) := by
  have hplen : (pushes.map cpu.gpr).length = 15 := by
    rw [List.length_map, ← List.length_reverse, ← hpops, hlen]
  have hframe := frame_pushes st (pushes.map cpu.gpr) (n := 5) (by omega)
  rw [hplen, ← List.map_reverse, ← hpops, hst] at hframe
  unfold isrAround
  generalize st.pushes (pushes.map cpu.gpr) = st' at hframe ⊢
  dsimp only
  cases hr : f cpu.gpr st' s with
  | none => rfl
  | some r =>
    have hkept : frame r.mem st'.sp 20 = frame st'.mem st'.sp 20 :=
      frame_congr fun i hi => hf.words _ _ _ _ hr i (Nat.zero_le i) hi
    simp only [Option.map_some]
    refine congrArg (fun c => some (c, r.state)) (popRegs_iretq hall _ ?_)
    rw [hlen]
    exact hkept.trans hframe

theorem obeys_noCall (lo hi : Nat) : Obeys noCall lo hi := by
  constructor
  · intro gpr st s r hr q _
    cases hr
    rfl
  · intro gpr st s r hr i _ _
    cases hr
    rfl

theorem isrStub_eq {st : Stack} {ip cs flags sp ss : Nat}
    (hst : frame st.mem st.sp 5 = [ip, cs, flags, sp, ss]) :
    isrStub st cpu = some ⟨cpu.gpr, ip, cs, flags, sp, ss⟩ := by
  unfold isrStub
  rw [isrAround_eq (by decide) (by intro r; cases r <;> decide) rfl (obeys_noCall 0 20) hst]
  rfl

theorem exception_eq (vector code : Nat) (mem : Nat → Nat) (cpu : Context) :
    exception vector code mem cpu =
      some (if vector ∈ errorCodeVectors then
        ⟨cpu.gpr, code, cpu.rip, cpu.cs, cpu.rflags, cpu.rsp⟩ else cpu) := by
  unfold exception
  by_cases hv : vector ∈ errorCodeVectors
  · have hframe : frame ((enter mem cpu).push code).mem ((enter mem cpu).push code).sp (5 + 1) =
        code :: frame (enter mem cpu).mem (enter mem cpu).sp 5 := frame_push code (by decide)
    rw [frame_enter] at hframe
    have hfive : frame ((enter mem cpu).push code).mem ((enter mem cpu).push code).sp 5 =
        [code, cpu.rip, cpu.cs, cpu.rflags, cpu.rsp] := by
      have hsplit : ∀ g : Nat → Nat,
          (List.range 5).map g = ((List.range (5 + 1)).map g).take 5 := fun g => rfl
      rw [frame, hsplit]
      exact congrArg (List.take 5) hframe
    rw [if_pos hv, if_pos hv, isrStub_eq hfive]
  · rw [if_neg hv, if_neg hv, isrStub_eq (frame_enter mem cpu)]

/-- The keyboard interrupt at any instruction: the C function runs on an aligned stack, and the
interrupted code goes on with every register, flag and pointer as it was, whatever the function
did to the registers. An exception returns to the interrupted code, at the instruction that
raised it, exactly when it has no error code, but for the case that the error code and the words
behind it are all the same. -/
theorem interrupts_return {keyboardHandler : Compiled σ} (hf : Obeys keyboardHandler 0 20)
    (mem : Nat → Nat) (cpu : Context) (s : σ) :
    let st := (enter mem cpu).pushes (isr33Pushes.map cpu.gpr)
    st.sp % 16 = 0 ∧
      isr33 keyboardHandler mem cpu s =
        (keyboardHandler cpu.gpr st s).map (fun r => (cpu, r.state)) ∧
      ∀ vector code, exception vector code mem cpu = some cpu ↔ vector ∉ errorCodeVectors ∨
        code = cpu.rip ∧ cpu.rip = cpu.cs ∧ cpu.cs = cpu.rflags ∧ cpu.rflags = cpu.rsp ∧
          cpu.rsp = cpu.ss := by
  dsimp only
  refine ⟨?_, ?_, fun vector code => ?_⟩
  · have hsp := pushes_sp_mod (enter mem cpu) (isr33Pushes.map cpu.gpr)
    rw [enter_sp, List.length_map, show isr33Pushes.length = 15 from rfl] at hsp
    omega
  · unfold isr33
    rw [isrAround_eq (by decide) (by intro r; cases r <;> decide) rfl hf (frame_enter mem cpu)]
  · rw [exception_eq, Option.some.injEq]
    by_cases hv : vector ∈ errorCodeVectors
    · rw [if_pos hv, or_iff_right (not_not.mpr hv)]
      obtain ⟨gpr, rip, cs, rflags, rsp, ss⟩ := cpu
      simp only [Context.mk.injEq, true_and]
    · rw [if_neg hv]
      exact iff_of_true rfl (.inl hv)

/-- A function that spoils the registers that it may spoil, and writes below its frame. -/
def spoiling : Compiled Nat := fun gpr st s =>
  some ⟨fun r => if r ∈ calleeSaved then gpr r else 7,
    Function.update st.mem ((st.sp + (2 ^ 64 - 8)) % 2 ^ 64) 7, s + 1⟩

theorem obeys_spoiling : Obeys spoiling 0 20 := by
  constructor
  · intro gpr st s r hr q hq
    cases hr
    exact if_pos hq
  · intro gpr st s r hr i _ hi
    have hne : slot st.sp i ≠ (st.sp + (2 ^ 64 - 8)) % 2 ^ 64 := by
      unfold slot
      omega
    rw [spoiling, Option.some.injEq] at hr
    rw [← hr]
    dsimp only
    rw [Function.update_of_ne hne]

/-- A page fault of such code, and a key before it. -/
theorem interrupts_return_spoiling :
    isr33 spoiling (fun _ => 0) (initialContext 0x1000 0x2000) 0 =
        some (initialContext 0x1000 0x2000, 1) ∧
      exception 14 2 (fun _ => 0) (initialContext 0x1000 0x2000) ≠
        some (initialContext 0x1000 0x2000) ∧
      exception 6 0 (fun _ => 0) (initialContext 0x1000 0x2000) =
        some (initialContext 0x1000 0x2000) := by
  obtain ⟨-, hkey, hexc⟩ :=
    interrupts_return obeys_spoiling (fun _ => 0) (initialContext 0x1000 0x2000) 0
  rw [spoiling, Option.map_some] at hkey
  exact ⟨hkey, fun h => absurd ((hexc 14 2).mp h) (by decide), (hexc 6 0).mpr (.inl (by decide))⟩

end KernelC.Interrupt
