import KernelC.Interrupt.Handlers
import KernelC.Keyboard.Basic

/-!
# `int 0x80`: `isr80` and `syscall_handler`

The number of a system call is in RAX, its arguments are in RDI, RSI, RDX, R10, R8 and
R9; `isr80` moves them to where a C function expects seven arguments, and puts the result
over the saved RAX. `syscall_handler` switches on the low half of the number and hands
the arguments on, cut to the types of the function it calls.

Results: what a caller gets back (`system_call`), and that `isr80` never pads its stack,
so that the call is made with a stack pointer that is 8 modulo 16 (`isr80Call_eq`).
-/

namespace KernelC.Interrupt

open Multitask
open Keyboard (Kbd charToInt kbdGetchar keyboardHandler)

/-! ## The dispatcher -/

/-- A C function of the kernel with a result. It may not return. -/
abbrev Service (σ β : Type) := σ → Option (β × σ)

/-- What `syscall_handler` calls. -/
structure Services (σ : Type) where
  printCharPosition (c : UInt8) (x y : UInt32) (fg bg : UInt8) : Service σ Unit
  printStringPosition (str : UInt64) (x y : UInt32) (fg bg : UInt8) : Service σ Unit
  printChar (c fg bg : UInt8) : Service σ Unit
  printString (str : UInt64) (fg bg : UInt8) : Service σ Unit
  backspace : Service σ Unit
  uintToStr (value : UInt32) (buf : UInt64) : Service σ UInt64
  cleanScreen : Service σ Unit
  malloc (size : UInt64) : Service σ UInt64
  free (ptr : UInt64) : Service σ Unit
  realloc (ptr size : UInt64) : Service σ UInt64
  getKmallocStats (st : UInt64) : Service σ Unit
  /-- A `char` as an `int`. -/
  kbdGetchar : Service σ Int
  updateHardwareCursor (x y : UInt8) : Service σ Unit
  powerOff : Service σ Unit
  rebootSystem : Service σ Unit
  loadAndRunProgram (str : UInt64) : Service σ UInt64
  taskList (buf max : UInt64) : Service σ Int
  taskStop (pid : Int) : Service σ Int
  reapZombies : Service σ Unit
  taskExit (code : Int) : Service σ Unit
  taskIsAlive (pid : Int) : Service σ Int

/-- An `int` as a `uintptr_t`. -/
def ofInt (i : Int) : UInt64 := UInt64.ofNat (i % 2 ^ 64).toNat

/-- `(int)x`. -/
def toInt (x : UInt64) : Int := int32 x.toNat

/-- `f(); return 0;` -/
def andZero {σ : Type} (f : Service σ Unit) : Service σ UInt64 := fun s =>
  (f s).map fun r => (0, r.2)

/-- `return (uintptr_t)f();` -/
def asResult {σ : Type} (f : Service σ Int) : Service σ UInt64 := fun s =>
  (f s).map fun r => (ofInt r.1, r.2)

/-- The numbers are those of `syscall.h`. -/
def syscallHandler {σ : Type} (k : Services σ) (rax rdi rsi rdx r10 r8 _r9 : UInt64) :
    Service σ UInt64 :=
  match rax.toUInt32.toNat with
  | 0 => andZero (k.printCharPosition rdi.toUInt8 rsi.toUInt32 rdx.toUInt32 r10.toUInt8 r8.toUInt8)
  | 1 => andZero (k.printStringPosition rdi rsi.toUInt32 rdx.toUInt32 r10.toUInt8 r8.toUInt8)
  | 2 => andZero (k.printChar rdi.toUInt8 rsi.toUInt8 rdx.toUInt8)
  | 3 => andZero (k.printString rdi rsi.toUInt8 rdx.toUInt8)
  | 4 => andZero k.backspace
  | 5 => k.uintToStr rdi.toUInt32 rsi
  | 6 => andZero k.cleanScreen
  | 10 => k.malloc rdi
  | 11 => k.realloc rdi rsi
  | 12 => andZero (k.free rdi)
  | 13 => if rdi ≠ 0 then andZero (k.getKmallocStats rdi) else fun s => some (0, s)
  | 30 => fun s => (k.kbdGetchar s).map fun r => (if r.1 = -1 then 0 else ofInt r.1, r.2)
  | 31 => andZero (k.updateHardwareCursor rdi.toUInt8 rsi.toUInt8)
  | 100 => andZero k.powerOff
  | 101 => andZero k.rebootSystem
  | 200 => k.loadAndRunProgram rdi
  | 201 => asResult (k.taskList rdi rsi)
  | 202 => asResult (k.taskStop (toInt rdi))
  | 203 => andZero k.reapZombies
  | 204 => andZero (k.taskExit (toInt rdi))
  | 205 => asResult (k.taskIsAlive (toInt rdi))
  | _ => fun s => some (ofInt (-1), s)

/-! ## `isr80` -/

def isr80Pushes : List Reg :=
  [.rax, .rcx, .rdx, .rsi, .rdi, .r8, .r9, .r10, .r11, .rbx, .rbp, .r12, .r13, .r14, .r15]

def isr80Pops : List Reg :=
  [.r15, .r14, .r13, .r12, .rbp, .rbx, .r11, .r10, .r9, .r8, .rdi, .rsi, .rdx, .rcx, .rax]

/-- The `mov`s between the pushes and the call, destination first. -/
def isr80Moves : List (Reg × Reg) :=
  [(.r11, .rdi), (.r12, .rsi), (.r13, .rdx), (.r14, .r10), (.r15, .r8), (.rbx, .r9),
    (.rdi, .rax), (.rsi, .r11), (.rdx, .r12), (.rcx, .r13), (.r8, .r14), (.r9, .r15)]

/-- `mov dst, src`. -/
def mov (gpr : Reg → Nat) (m : Reg × Reg) : Reg → Nat := Function.update gpr m.1 (gpr m.2)

/-- `isr80` up to the call: the registers and the stack there. -/
def isr80Call (mem : Nat → Nat) (cpu : Context) : (Reg → Nat) × Stack :=
  let st := (enter mem cpu).pushes (isr80Pushes.map cpu.gpr)
  let gpr := isr80Moves.foldl mov cpu.gpr
  let st := st.push (gpr .rbx)
  let gpr := Function.update gpr .rax (st.sp % 16)
  if gpr .rax = 8 then (Function.update gpr .r12 0, st)
  else (Function.update gpr .r12 1, { st with sp := (st.sp + (2 ^ 64 - 8)) % 2 ^ 64 })

/-- `isr80` from the return of `syscall_handler` on: the result goes over the saved RAX. -/
def isr80Return {σ : Type} (cpu : Context) (r : Returned σ) (sp : Nat) : Context :=
  let mem :=
    if r.gpr .r12 ≠ 0 then Function.update r.mem (slot sp 16) (r.gpr .rax)
    else Function.update r.mem (slot sp 15) (r.gpr .rax)
  let sp := if r.gpr .r12 = 0 then sp else slot sp 1
  iretq (popRegs isr80Pops ({ cpu with gpr := r.gpr }, ⟨mem, slot sp 1⟩))

def isr80 {σ : Type} (handler : Compiled σ) (mem : Nat → Nat) (cpu : Context) (s : σ) :
    Option (Context × σ) :=
  let c := isr80Call mem cpu
  (handler c.1 c.2 s).map fun r => (isr80Return cpu r c.2.sp, r.state)

/-- The function is `syscall_handler` with the services `k`: six arguments in registers, the
seventh on the stack, the result in RAX. -/
def Implements {σ : Type} (f : Compiled σ) (k : Services σ) : Prop :=
  ∀ gpr st s, (f gpr st s).map (fun r => (r.gpr .rax, r.state)) =
    (syscallHandler k (.ofNat (gpr .rdi)) (.ofNat (gpr .rsi)) (.ofNat (gpr .rdx))
      (.ofNat (gpr .rcx)) (.ofNat (gpr .r8)) (.ofNat (gpr .r9))
      (.ofNat (st.mem (slot st.sp 0))) s).map (Prod.map UInt64.toNat id)

/-! ## The call -/

variable {σ : Type} {mem : Nat → Nat} {cpu : Context}

/-- The stack at the call: the seventh argument below the saved registers. -/
def callStack (mem : Nat → Nat) (cpu : Context) : Stack :=
  ((enter mem cpu).pushes (isr80Pushes.map cpu.gpr)).push (cpu.gpr .r9)

theorem callStack_sp (mem : Nat → Nat) (cpu : Context) : (callStack mem cpu).sp % 16 = 8 := by
  have hsp := pushes_sp_mod (enter mem cpu) (isr80Pushes.map cpu.gpr)
  rw [enter_sp, List.length_map, show isr80Pushes.length = 15 from rfl] at hsp
  unfold callStack Stack.push
  dsimp only
  omega

theorem frame_callStack (mem : Nat → Nat) (cpu : Context) :
    frame (callStack mem cpu).mem (callStack mem cpu).sp 21 =
      cpu.gpr .r9 :: (isr80Pops.map cpu.gpr ++ returnWords cpu) := by
  have hframe := frame_pushes (enter mem cpu) (isr80Pushes.map cpu.gpr) (n := 5)
    (by rw [List.length_map]; decide)
  rw [frame_enter] at hframe
  unfold callStack
  rw [frame_push _ (by decide)]
  exact congrArg (List.cons (cpu.gpr .r9)) hframe

/-- The registers at the call. -/
def callRegs (cpu : Context) : Reg → Nat :=
  Function.update (Function.update (isr80Moves.foldl mov cpu.gpr) .rax 8) .r12 0

theorem callRegs_args (cpu : Context) :
    callRegs cpu .rdi = cpu.gpr .rax ∧ callRegs cpu .rsi = cpu.gpr .rdi ∧
      callRegs cpu .rdx = cpu.gpr .rsi ∧ callRegs cpu .rcx = cpu.gpr .rdx ∧
      callRegs cpu .r8 = cpu.gpr .r10 ∧ callRegs cpu .r9 = cpu.gpr .r8 :=
  ⟨rfl, rfl, rfl, rfl, rfl, rfl⟩

/-- The stack is never padded. -/
theorem isr80Call_eq (mem : Nat → Nat) (cpu : Context) :
    isr80Call mem cpu = (callRegs cpu, callStack mem cpu) := by
  have hsp := callStack_sp mem cpu
  have hrbx : isr80Moves.foldl mov cpu.gpr .rbx = cpu.gpr .r9 := rfl
  unfold isr80Call
  dsimp only
  rw [hrbx, show ((enter mem cpu).pushes (isr80Pushes.map cpu.gpr)).push (cpu.gpr .r9) =
    callStack mem cpu from rfl, hsp, Function.update_self, if_pos rfl, callRegs]

/-! ## The return -/

theorem isr80Return_eq {f : Compiled σ} (hf : Obeys f 1 21) {s : σ} {r : Returned σ}
    (hr : f (callRegs cpu) (callStack mem cpu) s = some r) :
    isr80Return cpu r (callStack mem cpu).sp =
      { cpu with gpr := Function.update cpu.gpr .rax (r.gpr .rax) } := by
  have h12 : r.gpr .r12 = 0 := by
    rw [hf.saved _ _ _ _ hr .r12 (by decide)]
    rfl
  have hkept := (hf.frame_eq (n := 20) hr).trans
    (List.cons.inj ((frame_succ _ _ 20).symm.trans (frame_callStack mem cpu))).2
  -- the store hits the word that `pop rax` takes
  have hstored : frame (Function.update r.mem (slot (callStack mem cpu).sp 15) (r.gpr .rax))
      (slot (callStack mem cpu).sp 1) 20 =
      isr80Pops.map (Function.update cpu.gpr .rax (r.gpr .rax)) ++ returnWords cpu := by
    rw [← slot_slot _ 1 14, frame_update _ (by decide) (by decide), hkept]
    rfl
  unfold isr80Return
  dsimp only
  rw [if_neg (not_not.mpr h12), if_pos h12]
  exact popRegs_iretq (by intro q; cases q <;> decide) _ hstored

/-- A system call. In every context the handler is called with the number and the arguments as
they are in the registers, and with a stack pointer that is 8 modulo 16. If the service returns,
its caller goes on behind `int 0x80` with the result in RAX and with every other register, the
flags, the stack and the segments as they were. If it does not, the caller does not either. -/
theorem system_call {f : Compiled σ} {k : Services σ} (himpl : Implements f k)
    (hf : Obeys f 1 21) (mem : Nat → Nat) (cpu : Context) (s : σ) :
    (isr80Call mem cpu).2.sp % 16 = 8 ∧
      isr80 f mem cpu s =
        (syscallHandler k (.ofNat (cpu.gpr .rax)) (.ofNat (cpu.gpr .rdi)) (.ofNat (cpu.gpr .rsi))
          (.ofNat (cpu.gpr .rdx)) (.ofNat (cpu.gpr .r10)) (.ofNat (cpu.gpr .r8))
          (.ofNat (cpu.gpr .r9)) s).map fun r =>
            ({ cpu with gpr := Function.update cpu.gpr .rax r.1.toNat }, r.2) := by
  have hcall := isr80Call_eq mem cpu
  refine ⟨by rw [hcall, callStack_sp], ?_⟩
  have hseventh : (callStack mem cpu).mem (slot (callStack mem cpu).sp 0) = cpu.gpr .r9 :=
    (List.cons.inj ((frame_succ _ _ 20).symm.trans (frame_callStack mem cpu))).1
  obtain ⟨hrdi, hrsi, hrdx, hrcx, hr8, hr9⟩ := callRegs_args cpu
  have hret := himpl (callRegs cpu) (callStack mem cpu) s
  rw [hrdi, hrsi, hrdx, hrcx, hr8, hr9, hseventh] at hret
  generalize syscallHandler k _ _ _ _ _ _ _ s = v at hret ⊢
  unfold isr80
  dsimp only
  rw [hcall]
  dsimp only
  cases hr : f (callRegs cpu) (callStack mem cpu) s with
  | none =>
    rw [hr, Option.map_none, eq_comm, Option.map_eq_none_iff] at hret
    rw [hret]
    rfl
  | some r =>
    rw [hr, Option.map_some, eq_comm, Option.map_eq_some_iff] at hret
    obtain ⟨⟨ret, s'⟩, rfl, heq⟩ := hret
    obtain ⟨hrax, rfl⟩ := Prod.mk.inj heq
    rw [Option.map_some, Option.map_some, isr80Return_eq hf hr, ← hrax]

/-! ## Compiled code -/

/-- `syscall_handler` as a compiler may have it: the other registers that it may change are 0
at its end. -/
def compiled {σ : Type} (k : Services σ) : Compiled σ := fun gpr st s =>
  (syscallHandler k (.ofNat (gpr .rdi)) (.ofNat (gpr .rsi)) (.ofNat (gpr .rdx))
    (.ofNat (gpr .rcx)) (.ofNat (gpr .r8)) (.ofNat (gpr .r9))
    (.ofNat (st.mem (slot st.sp 0))) s).map fun r =>
      { gpr := fun q =>
          if q = .rax then r.1.toNat else if q ∈ calleeSaved then gpr q else 0
        mem := Function.update st.mem (slot st.sp 0) 0
        state := r.2 }

theorem implements_compiled (k : Services σ) : Implements (compiled k) k := by
  intro gpr st s
  unfold compiled
  rw [Option.map_map]
  rfl

theorem obeys_compiled (k : Services σ) : Obeys (compiled k) 1 21 := by
  constructor
  · intro gpr st s r hr q hq
    obtain ⟨v, -, rfl⟩ := Option.map_eq_some_iff.mp hr
    have hne : q ≠ .rax := by
      rintro rfl
      exact absurd hq (by decide)
    exact (if_neg hne).trans (if_pos hq)
  · intro gpr st s r hr i hlo hhi
    obtain ⟨v, -, rfl⟩ := Option.map_eq_some_iff.mp hr
    have hne : slot st.sp i ≠ slot st.sp 0 := (slot_ne (by omega) (by omega)).symm
    exact Function.update_of_ne hne _ _

/-- The services as the keyboard sees them: all but one leave its state alone. -/
def keyboardServices : Services Kbd where
  printCharPosition _ _ _ _ _ := fun k => some ((), k)
  printStringPosition _ _ _ _ _ := fun k => some ((), k)
  printChar _ _ _ := fun k => some ((), k)
  printString _ _ _ := fun k => some ((), k)
  backspace := fun k => some ((), k)
  uintToStr _ buf := fun k => some (buf, k)
  cleanScreen := fun k => some ((), k)
  malloc _ := fun k => some (0, k)
  free _ := fun k => some ((), k)
  realloc _ _ := fun k => some (0, k)
  getKmallocStats _ := fun k => some ((), k)
  kbdGetchar := fun k => some (charToInt (kbdGetchar k).2, (kbdGetchar k).1)
  updateHardwareCursor _ _ := fun k => some ((), k)
  powerOff := fun _ => none
  rebootSystem := fun _ => none
  loadAndRunProgram _ := fun k => some (0, k)
  taskList _ _ := fun k => some (0, k)
  taskStop _ := fun k => some (-1, k)
  reapZombies := fun k => some ((), k)
  taskExit _ := fun _ => none
  taskIsAlive _ := fun k => some (0, k)

/-- `SYSCALL_GETCHAR`, with a number in the upper half of RAX that nobody looks at. -/
def reading : Context :=
  { initialContext 0x1000 0x2000 with gpr := fun r => if r = .rax then 2 ^ 32 + 30 else 5 }

/-- The key A was pressed, and is read. -/
theorem system_call_reading :
    (isr80 (compiled keyboardServices) (fun _ => 0) reading (keyboardHandler Keyboard.start 0x1E)).map
      (fun r => (r.1.gpr .rax, r.1.gpr .rbx, r.1.rsp, (Keyboard.kbdGetchar r.2).2)) =
        some (0x61, 5, 0x2000, 0xFF) := by
  obtain ⟨-, hret⟩ := system_call (implements_compiled keyboardServices)
    (obeys_compiled keyboardServices) (fun _ => 0) reading (keyboardHandler Keyboard.start 0x1E)
  rw [hret]
  decide +kernel

end KernelC.Interrupt
