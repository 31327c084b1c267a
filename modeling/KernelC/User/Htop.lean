import KernelC.Malloc.Stats
import KernelC.Printers
import KernelC.Vga.Scroll

/-!
# The program `htop`

`htop` asks for the statistics of the kernel heap and prints them, one field a line. The digits
of all fields go through one buffer, which keeps what the field before has left there. What the
console shows in the end are the true numbers (`htop_shows`).
-/

namespace KernelC.User

open Malloc Printers Vga

/-! ## `htop.asm` -/

/-- `"total_managed: "`. -/
def lblTotalManaged : CStr :=
  ⟨[116, 111, 116, 97, 108, 95, 109, 97, 110, 97, 103, 101, 100, 58, 32], by simp⟩

/-- `"used_payload:    "`. -/
def lblUsedPayload : CStr :=
  ⟨[117, 115, 101, 100, 95, 112, 97, 121, 108, 111, 97, 100, 58, 32, 32, 32, 32], by simp⟩

/-- `"free_payload:    "`. -/
def lblFreePayload : CStr :=
  ⟨[102, 114, 101, 101, 95, 112, 97, 121, 108, 111, 97, 100, 58, 32, 32, 32, 32], by simp⟩

/-- `"largest_free:    "`. -/
def lblLargestFree : CStr :=
  ⟨[108, 97, 114, 103, 101, 115, 116, 95, 102, 114, 101, 101, 58, 32, 32, 32, 32], by simp⟩

/-- `"num_blocks:      "`. -/
def lblNumBlocks : CStr :=
  ⟨[110, 117, 109, 95, 98, 108, 111, 99, 107, 115, 58, 32, 32, 32, 32, 32, 32], by simp⟩

/-- `"num_used:        "`. -/
def lblNumUsed : CStr :=
  ⟨[110, 117, 109, 95, 117, 115, 101, 100, 58, 32, 32, 32, 32, 32, 32, 32, 32], by simp⟩

/-- `"num_free:        "`. -/
def lblNumFree : CStr :=
  ⟨[110, 117, 109, 95, 102, 114, 101, 101, 58, 32, 32, 32, 32, 32, 32, 32, 32], by simp⟩

def newline : CStr := ⟨[10], by simp⟩

def fgColor : UInt8 := 15

def bgColor : UInt8 := 0

/-- The label and the quadword of each field, in the order in which they are printed. -/
def fields (st : Stats) : List (CStr × UInt64) :=
  [(lblTotalManaged, .ofNat st.totalManaged), (lblUsedPayload, .ofNat st.usedPayload),
    (lblFreePayload, .ofNat st.freePayload), (lblLargestFree, .ofNat st.largestFree),
    (lblNumBlocks, .ofNat st.numBlocks), (lblNumUsed, .ofNat st.numUsed),
    (lblNumFree, .ofNat st.numFree)]

/-- `print_field`. The buffer `numbuf_out` is handed on. -/
def printField (s : Console × List UInt8) (field : CStr × UInt64) :
    Option (Console × List UInt8) := do
  let v := printString s.1 field.1 fgColor bgColor
  let numbufOut ← u64ToDec field.2 s.2
  let v := printString v (arrayStr numbufOut) fgColor bgColor
  some (printString v newline fgColor bgColor, numbufOut)

/-- From `_start` to the exit, with the answer to `SYSCALL_KMALLOC_STATS`. -/
def htop (st : Stats) (v : Console) (numbufOut : List UInt8) : Option (Console × List UInt8) :=
  (fields st).foldlM printField (v, numbufOut)

/-! ## What is printed -/

/-- A line of the output. -/
def line (field : CStr × UInt64) : List UInt8 :=
  field.1.chars ++ numeral field.2.toNat ++ [0x0A]

/-- The characters `cs` in the colours of the program. -/
def typed (t : Terminal Cell) (cs : List UInt8) : Terminal Cell :=
  cs.foldl (fun t c => typeChar t c (makeColor fgColor bgColor)) t

variable {v v' : Console} {t : Terminal Cell} {out : List UInt8}

theorem typed_append (t : Terminal Cell) (cs ds : List UInt8) :
    typed t (cs ++ ds) = typed (typed t cs) ds :=
  List.foldl_append

theorem numeral_ne_nul (n : Nat) : ∀ c ∈ numeral n, c ≠ 0 := by
  have hvalue := decimalValue_numeral n
  unfold decimalValue at hvalue
  split at hvalue
  · next h =>
    rintro c hc rfl
    have hlow := (h.2 0 hc).1
    exact absurd hlow (by decide)
  · cases hvalue

/-- The string in the buffer ends where the digits do. -/
theorem arrayStr_numeral (n : Nat) (rest : List UInt8) :
    (arrayStr (numeral n ++ 0 :: rest)).chars = numeral n := by
  unfold arrayStr
  dsimp only
  rw [List.takeWhile_append_of_pos fun c hc => by simpa using numeral_ne_nul n c hc]
  simp

theorem printString_shows (h : Shows v t) (str : CStr) :
    Shows (printString v str fgColor bgColor) (typed t str.chars) ∧
      (printString v str fgColor bgColor).stray = v.stray :=
  run_shows h (.printString str fgColor bgColor)

theorem printField_shows (h : Shows v t) (hout : out.length = 32) (field : CStr × UInt64) :
    ∃ v' out', printField (v, out) field = some (v', out') ∧ out'.length = 32 ∧
      Shows v' (typed t (line field)) ∧ v'.stray = v.stray := by
  obtain ⟨rest, hdec, hlen⟩ := u64ToDec_spec field.2 hout
  obtain ⟨hlabel, hstray⟩ := printString_shows h field.1
  obtain ⟨hdigits, hstray'⟩ :=
    printString_shows hlabel (arrayStr (numeral field.2.toNat ++ 0 :: rest))
  obtain ⟨hnewline, hstray''⟩ := printString_shows hdigits newline
  rw [arrayStr_numeral] at hnewline
  refine ⟨_, _, ?_, hlen, ?_, hstray''.trans (hstray'.trans hstray)⟩
  · simp only [printField, hdec, Option.bind_eq_bind, Option.bind_some]
  · rw [line, typed_append, typed_append]
    exact hnewline

theorem printFields_shows (h : Shows v t) (hout : out.length = 32)
    (fs : List (CStr × UInt64)) :
    ∃ v' out', fs.foldlM printField (v, out) = some (v', out') ∧ out'.length = 32 ∧
      Shows v' (typed t (fs.flatMap line)) ∧ v'.stray = v.stray := by
  induction fs generalizing v t out with
  | nil => exact ⟨v, out, rfl, hout, h, rfl⟩
  | cons field fs ih =>
    obtain ⟨v₁, out₁, hfield, hlen, hshows, hstray⟩ := printField_shows h hout field
    obtain ⟨v', out', hrest, hlen', hshows', hstray'⟩ := ih hshows hlen
    refine ⟨v', out', ?_, hlen', ?_, hstray'.trans hstray⟩
    · rw [List.foldlM_cons, hfield]
      exact hrest
    · rw [List.flatMap_cons, typed_append]
      exact hshows'

/-- The quadwords hold the numbers. -/
theorem fields_value {R : Region} {m : Mem} {live : Finset Nat} {st : Stats}
    (h : Reports R m live st) :
    (fields st).map (fun f => f.2.toNat) =
      [R.hi - R.lo, ∑ p ∈ live, blockSize m p, st.freePayload, st.largestFree, st.numBlocks,
        live.card, st.numFree] := by
  have hhi := R.hi_lt
  obtain ⟨htotal, hused, hpayload, hblocks, hsum, hlargest⟩ := h
  rw [← htotal, ← hused, ← hpayload]
  have hfits : ∀ {n : Nat}, n ≤ R.hi - R.lo → (UInt64.ofNat n).toNat = n := by
    intro n hn
    rw [UInt64.toNat_ofNat']
    omega
  simp only [fields, List.map_cons, List.map_nil]
  rw [hfits (by omega), hfits (by omega), hfits (by omega), hfits (by omega), hfits (by omega),
    hfits (by omega), hfits (by omega)]

/-- In every state of the kernel heap, as long as `heap_expand` gets no memory, and on every
console: `htop` prints seven lines, the terminal shows them behind what it showed before, and the
numbers in them are the size of the region, the bytes and the count of the live blocks, and what
is left. -/
theorem htop_shows (R : Region) (m : Mem) {os : List Op} {c : Client Kernel.KHeap}
    (hr : Run (Kernel.kernel R).step
      (fun c o => (Kernel.kernel R).Permitted c o ∧ Kernel.NoExpand R c o)
      (Kernel.kernelStart R m) os c) (hv : Shows v t) (hout : out.length = 32) :
    ∃ st v' out', stats c.heap.toHeap = some st ∧ htop st v out = some (v', out') ∧
      Shows v' (typed t ((fields st).flatMap line)) ∧ v'.stray = v.stray ∧
      (fields st).map (fun f => f.2.toNat) =
        [R.hi - R.lo, ∑ p ∈ c.live, blockSize c.heap.mem p, st.freePayload, st.largestFree,
          st.numBlocks, c.live.card, st.numFree] ∧
      ∑ p ∈ c.live, blockSize c.heap.mem p + st.freePayload + 40 * (c.live.card + st.numFree) =
        R.hi - R.lo := by
  obtain ⟨l, hl⟩ := Kernel.kernel_run hr
  obtain ⟨st, hst, hreports, -⟩ := hl.reports
  obtain ⟨v', out', hrun, -, hshows, hstray⟩ := printFields_shows hv hout (fields st)
  refine ⟨st, v', out', hst, hrun, hshows, hstray, fields_value hreports, ?_⟩
  have hsum := hreports.payload
  rw [hreports.blocks, hreports.usedPayload, hreports.used] at hsum
  exact hsum

/-- A fresh console, and a buffer that is not clear. -/
theorem htop_shows_demo :
    ∃ c st v' out', Run (Kernel.kernel region128).step
        (fun c o => (Kernel.kernel region128).Permitted c o ∧ Kernel.NoExpand region128 c o)
        (Kernel.kernelStart region128 fun _ => 0) Kernel.kernelDemo c ∧
      c.live = {0x200028, 0x2000b8} ∧ stats c.heap.toHeap = some st ∧
      htop st (cleanScreen ⟨fun _ => 0, 0, 0, 0, 0, false⟩) (List.replicate 32 0xAA) =
        some (v', out') ∧
      Shows v' (typed cleanTerminal ((fields st).flatMap line)) := by
  have hexec : (exec (Kernel.kernel region128).step
      (fun c o => (Kernel.kernel region128).Permitted c o ∧ Kernel.NoExpand region128 c o)
      (Kernel.kernelStart region128 fun _ => 0) Kernel.kernelDemo).map Client.live =
        some {0x200028, 0x2000b8} := by
    decide +kernel
  obtain ⟨c, hc, hlive⟩ := Option.map_eq_some_iff.mp hexec
  obtain ⟨st, v', out', hst, hrun, hshows, -⟩ := htop_shows region128 (fun _ => 0)
    (Run.of_exec hc) (cleanScreen_shows ⟨fun _ => 0, 0, 0, 0, 0, false⟩)
    (List.length_replicate (n := 32) (a := (0xAA : UInt8)))
  exact ⟨c, st, v', out', Run.of_exec hc, hlive, hst, hrun, hshows⟩

end KernelC.User
