import KernelC.Vga.Clock
import KernelC.Vga.Cursor

/-!
# What stands before the cursor

`Echo attr v text`: going back from the cursor, the screen shows `text` from its end on, as far as
the screen goes; in the columns of the clock nothing is said. Printing a character adds it to the
text, also when the screen is scrolled or the line is wrapped, `backspace` takes the last one away,
and the stores of `user_task1` keep it.
-/

namespace KernelC.Vga

variable {v : Console} {attr fore back : UInt8} {text : List UInt8}

def Echo (attr : UInt8) (v : Console) (text : List UInt8) : Prop :=
  ∀ k c, text.reverse[k]? = some c → k < v.position → ¬ ClockColumn (v.position - 1 - k) →
    v.cell (v.position - 1 - k) = (c, attr)

theorem echo_nil (attr : UInt8) (v : Console) : Echo attr v [] := by
  intro k c hk
  cases hk

/-! ## One operation -/

/-- A character is put at the cursor, and then the screen may go up by `k` rows. -/
theorem printChar_cells (h : OnScreen v) {c : UInt8} (hc : c ≠ 0x0A) (fore back : UInt8) :
    ∃ k, (printChar v c fore back).position + 80 * k = v.position + 1 ∧
      ∀ j < (printChar v c fore back).position, (printChar v c fore back).cell j =
        if j + 80 * k = v.position then (c, makeColor fore back) else v.cell (j + 80 * k) := by
  obtain ⟨hshows, -⟩ := printChar_shows (screenTerminal_shows h.x h.y) c fore back
  rw [typeChar, if_neg hc] at hshows
  obtain ⟨-, hpos, htape⟩ := Terminal.put_spec (w := 80) (h := 25) (t := screenTerminal v) h.x
    (c, makeColor fore back)
  generalize (screenTerminal v).put 80 25 (c, makeColor fore back) = t at hshows hpos htape
  have hstart : (screenTerminal v).pos 80 = v.position := rfl
  have hcur := hshows.pos_eq
  have hx := hshows.colLt
  have hy := hshows.rowLt
  have hvx := h.x
  have hvy := h.y
  rw [hstart] at hpos htape
  unfold Console.position at hpos htape ⊢
  refine ⟨t.top, by omega, fun j hj => ?_⟩
  rw [hshows.cell_eq (by omega), htape, tape_screenTerminal (by omega)]
  rw [Nat.mul_comm, Nat.add_comm]

theorem backspace_cells (h : OnScreen v) :
    (backspace v).position = v.position - 1 ∧
      ∀ j < (backspace v).position, (backspace v).cell j = v.cell j := by
  by_cases hpos : 0 < v.x.toNat ∨ 0 < v.y.toNat
  · obtain ⟨hshows, -⟩ := backspace_shows (screenTerminal_shows h.x h.y) hpos
    have hstart : (screenTerminal v).pos 80 = v.position := rfl
    obtain ⟨-, hback, htop, htape⟩ := Terminal.erase_spec (w := 80) (t := screenTerminal v)
      blankCell h.x (by rw [hstart, Console.position]; omega)
    have hcur := hshows.pos_eq
    have hx := hshows.colLt
    have hy := hshows.rowLt
    have hzero : (screenTerminal v).top = 0 := rfl
    rw [htop, hzero] at hcur
    rw [hstart] at hback htape
    refine ⟨by unfold Console.position at hback ⊢; omega, fun j hj => ?_⟩
    have hj' : ¬ j + 1 = v.position := by
      unfold Console.position at hj hback ⊢
      omega
    unfold Console.position at hj
    rw [hshows.cell_eq (by omega), htop, hzero, htape, Nat.zero_mul, Nat.zero_add, if_neg hj',
      tape_screenTerminal (by omega)]
  · -- at the start of the screen the cursor stays
    have hx : v.x = 0 := UInt8.toNat_inj.mp (by show v.x.toNat = 0; omega)
    have hy : v.y = 0 := UInt8.toNat_inj.mp (by show v.y.toNat = 0; omega)
    have hpos : (backspace v).position = 0 := by
      unfold backspace
      simp only [if_pos hx, hy, if_neg (UInt8.lt_irrefl 0)]
      rw [Console.position]
      show v.y.toNat * 80 + v.x.toNat = 0
      rw [hx, hy]
      rfl
    refine ⟨?_, fun j hj => ?_⟩
    · rw [hpos, Console.position, hx, hy]
      rfl
    · rw [hpos] at hj
      omega

/-! ## What it does to the text -/

theorem Echo.printChar (he : Echo (makeColor fore back) v text) (h : OnScreen v) {c : UInt8}
    (hc : c ≠ 0x0A) : Echo (makeColor fore back) (printChar v c fore back) (text ++ [c]) := by
  obtain ⟨k, hpos, hcell⟩ := printChar_cells h hc fore back
  intro n b hn hlt hclock
  rw [hcell _ (by omega)]
  rw [List.reverse_append, List.reverse_singleton, List.singleton_append] at hn
  cases n with
  | zero =>
    obtain rfl : c = b := Option.some.inj hn
    rw [if_pos (by omega)]
  | succ n =>
    rw [List.getElem?_cons_succ] at hn
    rw [if_neg (by omega)]
    have hcol := he n b hn (by omega) (by unfold ClockColumn at hclock ⊢; omega)
    rw [← hcol]
    congr 1
    omega

theorem Echo.backspace (h : OnScreen v) {c : UInt8} (he : Echo attr v (text ++ [c])) :
    Echo attr (backspace v) text := by
  obtain ⟨hpos, hcell⟩ := backspace_cells h
  intro n b hn hlt hclock
  rw [hcell _ (by omega)]
  rw [hpos] at hlt hclock ⊢
  have hprev := he (n + 1) b
    (by rw [List.reverse_append, List.reverse_singleton, List.singleton_append,
      List.getElem?_cons_succ, hn])
    (by omega)
  rw [show v.position - 1 - (n + 1) = v.position - 1 - 1 - n by omega] at hprev
  exact hprev hclock

theorem Echo.pokeByte (he : Echo attr v text) {s : Nat × UInt8} (hs : Drawn s) :
    Echo attr (pokeByte v s) text := by
  intro n c hn hlt hclock
  have hother : v.position - 1 - n ≠ s.1 / 2 := by
    intro heq
    refine hclock ?_
    show ClockColumn (v.position - 1 - n)
    rw [heq]
    exact hs.column.1
  exact (cell_pokeByte hother).trans (he n c hn hlt hclock)

theorem Echo.printChars (he : Echo (makeColor fore back) v text) (h : OnScreen v)
    {cs : List UInt8} (hcs : ∀ c ∈ cs, c ≠ 0x0A) :
    Echo (makeColor fore back) (printChars v fore back cs) (text ++ cs) := by
  induction cs generalizing v text with
  | nil =>
    rw [List.append_nil]
    exact he
  | cons c cs ih =>
    have hc := hcs c List.mem_cons_self
    rw [Vga.printChars, if_neg hc, List.append_cons]
    exact ih (he.printChar h hc) ((Op.print (.printChar c fore back)).onScreen h) fun d hd =>
      hcs d (List.mem_cons_of_mem _ hd)

/-- The update of the controller moves nothing. -/
theorem Echo.printString (he : Echo (makeColor fore back) v text) (h : OnScreen v) {str : CStr}
    (hstr : ∀ c ∈ str.chars, c ≠ 0x0A) :
    Echo (makeColor fore back) (printString v str fore back) (text ++ str.chars) :=
  he.printChars h hstr

end KernelC.Vga
