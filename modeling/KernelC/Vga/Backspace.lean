import KernelC.Vga.Scroll

/-!
# Erasing what was typed

`backspace` goes one cell back, over the start of a row as well, and blanks the
cell. As long as the cursor is not at the start of the screen it does to the screen
what `Terminal.erase` does to the terminal (`backspace_shows`), so a string that was
printed is erased by as many calls, even if the screen was scrolled in between.

Result: `erase_typed`.
-/

namespace KernelC.Vga

variable {v : Console} {t : Terminal Cell}

theorem backspace_shows (h : Shows v t) (hpos : 0 < v.x.toNat ∨ 0 < v.y.toNat) :
    Shows (backspace v) (t.erase 80 blankCell) ∧ (backspace v).stray = v.stray := by
  have hx := h.colLt
  have hy := h.rowLt
  -- the cursor after the move, whichever way it went
  have hback : ∃ x y : UInt8, backspace v = updateHardwareCursor
        (({ v with x := x, y := y }.poke (2 * (y.toNat * 80 + x.toNat)) [0x20, 0])) x y ∧
      Window 80 25 blankCell (t.back 80) (fun r c => v.cell (r * 80 + c)) x.toNat y.toNat := by
    by_cases hzero : v.x = 0
    · have hx0 : v.x.toNat = 0 := by rw [hzero]; rfl
      have hrow : 0 < v.y.toNat := by omega
      have hpred : (v.y - 1).toNat = v.y.toNat - 1 :=
        UInt8.toNat_sub_of_le _ _ (UInt8.le_iff_toNat_le.mpr hrow)
      refine ⟨79, v.y - 1, ?_, ?_⟩
      · have hlt : 0 < v.y := UInt8.lt_iff_toNat_lt.mpr hrow
        unfold backspace
        simp only [if_pos hzero, if_pos hlt, poke_poke, vgaWidth]
        rw [Nat.mul_comm _ 2]
        rfl
      · rw [hpred]
        exact h.up hx0 hrow
    · have hcol : 0 < v.x.toNat := by
        by_contra hno
        exact hzero (UInt8.toNat_inj.mp (by show v.x.toNat = 0; omega))
      have hpred : (v.x - 1).toNat = v.x.toNat - 1 :=
        UInt8.toNat_sub_of_le _ _ (UInt8.le_iff_toNat_le.mpr hcol)
      refine ⟨v.x - 1, v.y, ?_, ?_⟩
      · unfold backspace
        simp only [if_neg hzero, poke_poke, vgaWidth]
        rw [Nat.mul_comm _ 2]
        rfl
      · rw [hpred]
        exact h.left hcol
  obtain ⟨x, y, heq, hwin⟩ := hback
  have hxlt := hwin.colLt
  have hylt := hwin.rowLt
  rw [heq]
  refine ⟨?_, ?_⟩
  · refine hwin.write blankCell fun r hr c hc => ?_
    show Console.cell (({ v with x := x, y := y } : Console).poke _ _) (r * 80 + c) = _
    rw [cell_poke_word]
    refine if_congr ?_ rfl rfl
    omega
  · show (Console.poke _ _ _).stray = _
    rw [poke_stray (by simp only [List.length_cons, List.length_nil]; omega)]

/-- The cursor on the tape. -/
theorem Shows.pos_eq (h : Shows v t) :
    t.pos 80 = (t.top + v.y.toNat) * 80 + v.x.toNat := by
  rw [Terminal.pos, ← h.row, ← h.col]

theorem backspaces_show (h : Shows v t) {n : Nat} (hn : t.top * 80 + n ≤ t.pos 80) :
    Shows (backspace^[n] v) ((Terminal.erase 80 blankCell)^[n] t) ∧
      (backspace^[n] v).stray = v.stray := by
  induction n with
  | zero => exact ⟨h, rfl⟩
  | succ n ih =>
    obtain ⟨hs, hstray⟩ := ih (by omega)
    have hcol : t.col < 80 := h.col ▸ h.colLt
    obtain ⟨-, hpos, htop, -⟩ := Terminal.erases_spec blankCell hcol (n := n) (by omega)
    have hcur := hs.pos_eq
    rw [htop] at hcur
    obtain ⟨hs', hstray'⟩ := backspace_shows hs (by omega)
    rw [Function.iterate_succ_apply', Function.iterate_succ_apply']
    exact ⟨hs', hstray'.trans hstray⟩

/-- The terminal that a screen shows from its first row on. -/
def screenTerminal (v : Console) : Terminal Cell where
  cell := fun r c => if r < 25 then v.cell (r * 80 + c) else blankCell
  top := 0
  row := v.y.toNat
  col := v.x.toNat

theorem screenTerminal_shows (hx : v.x.toNat < 80) (hy : v.y.toNat < 25) :
    Shows v (screenTerminal v) := by
  refine ⟨rfl, Nat.zero_add _, hx, hy, fun r hr c _ => ?_, fun r hr c => ?_⟩
  · show _ = if 0 + r < 25 then v.cell ((0 + r) * 80 + c) else _
    rw [Nat.zero_add, if_pos hr]
  · have hr' : 0 + 25 ≤ r := hr
    show (if r < 25 then _ else _) = _
    rw [if_neg (by omega)]

theorem tape_screenTerminal {i : Nat} (hi : i < 2000) :
    (screenTerminal v).tape 80 i = v.cell i := by
  show (if i / 80 < 25 then v.cell (i / 80 * 80 + i % 80) else _) = _
  rw [if_pos (by omega)]
  congr 1
  omega

/-- Characters other than a newline. -/
theorem typed_eq {s : List UInt8} (hs : ∀ c ∈ s, c ≠ 0x0A) (attr : UInt8) (t : Terminal Cell) :
    s.foldl (fun t c => typeChar t c attr) t =
      (s.map fun c => (c, attr)).foldl (Terminal.put 80 25) t := by
  induction s generalizing t with
  | nil => rfl
  | cons c s ih =>
    have hc := hs c List.mem_cons_self
    rw [List.foldl_cons, List.map_cons, List.foldl_cons, typeChar, if_neg hc]
    exact ih (fun d hd => hs d (List.mem_cons_of_mem _ hd)) _

theorem printed_shows (h : Shows v t) (fore back : UInt8) (s : List UInt8) :
    Shows (s.foldl (fun v c => printChar v c fore back) v)
        (s.foldl (fun t c => typeChar t c (makeColor fore back)) t) ∧
      (s.foldl (fun v c => printChar v c fore back) v).stray = v.stray := by
  induction s generalizing v t with
  | nil => exact ⟨h, rfl⟩
  | cons c s ih =>
    obtain ⟨hs, hstray⟩ := printChar_shows h c fore back
    obtain ⟨hs', hstray'⟩ := ih hs
    exact ⟨hs', hstray'.trans hstray⟩

/-- A screen cell, on the tape. -/
theorem Shows.cell_eq (h : Shows v t) {i : Nat} (hi : i < 2000) :
    v.cell i = t.tape 80 (t.top * 80 + i) := by
  have hc := h.cells (i / 80) (by omega) (i % 80) (by omega)
  rw [show i / 80 * 80 + i % 80 = i by omega] at hc
  rw [hc, Terminal.tape, show (t.top * 80 + i) / 80 = t.top + i / 80 by omega,
    show (t.top * 80 + i) % 80 = i % 80 by omega]

/-- Erasing what was typed: a string without newlines is printed from a cursor on
the screen, which scrolls the screen by `k` rows, no further than its start; then as
many calls of `backspace` bring the cursor back to the start of the string, now `k`
rows up. The cells of the string are blank, and what stood before it has moved up
`k` rows. -/
theorem erase_typed (v : Console) (hx : v.x.toNat < 80) (hy : v.y.toNat < 25) (s : List UInt8)
    (hs : ∀ c ∈ s, c ≠ 0x0A) (fore back : UInt8) (k : Nat)
    (hk : k = v.y.toNat + (v.x.toNat + s.length) / 80 - 24) (hky : k ≤ v.y.toNat) :
    let v' := backspace^[s.length] (s.foldl (fun v c => printChar v c fore back) v)
    let start := (v.y.toNat - k) * 80 + v.x.toNat
    v'.x = v.x ∧ v'.y.toNat = v.y.toNat - k ∧ v'.stray = v.stray ∧
    (∀ j, start ≤ j → j < start + s.length → j < 2000 ∧ v'.cell j = blankCell) ∧
    ∀ j, j < start → v'.cell j = v.cell (j + k * 80) := by
  intro v' start
  -- what is typed, on the tape
  obtain ⟨hshow, hstray⟩ := printed_shows (screenTerminal_shows hx hy) fore back s
  rw [typed_eq hs] at hshow
  generalize hcells : (s.map fun c => (c, makeColor fore back)) = as at hshow
  have hlen : as.length = s.length := by rw [← hcells, List.length_map]
  obtain ⟨hcol, hpos, hold⟩ := Terminal.puts_spec (w := 80) (h := 25) (t := screenTerminal v) hx as
  have htop := Terminal.puts_top (w := 80) (h := 25) (t := screenTerminal v)
    (by show 0 = v.y.toNat + 1 - 25; omega) as
  have hstart : (screenTerminal v).pos 80 = v.y.toNat * 80 + v.x.toNat := rfl
  generalize as.foldl (Terminal.put 80 25) (screenTerminal v) = t at hshow hcol hpos hold htop
  have hrow : t.top = k := by
    have hp := hpos
    rw [Terminal.pos, hstart, hlen] at hp
    omega
  rw [hlen, hstart] at hpos
  rw [hstart] at hold
  -- and erased again
  obtain ⟨hshow', hstray'⟩ := backspaces_show hshow (n := s.length) (by rw [hrow]; omega)
  obtain ⟨-, hpos', htop', htape⟩ := Terminal.erases_spec blankCell hcol (n := s.length) (by omega)
  have hcur := hshow'.pos_eq
  have hxlt := hshow'.colLt
  rw [htop', hrow] at hcur
  have hx' : (backspace^[s.length] (s.foldl (fun v c => printChar v c fore back) v)).x.toNat =
      v.x.toNat := by omega
  have hy' : (backspace^[s.length] (s.foldl (fun v c => printChar v c fore back) v)).y.toNat =
      v.y.toNat - k := by omega
  have hend : t.pos 80 < (k + 25) * 80 := by
    have hlt := hshow.rowLt
    have hlt' := hshow.colLt
    rw [hshow.pos_eq, hrow]
    omega
  refine ⟨UInt8.toNat_inj.mp hx', hy', hstray'.trans hstray, fun j h1 h2 => ?_, fun j hj => ?_⟩
  · have hj : j < 2000 := by omega
    refine ⟨hj, ?_⟩
    rw [hshow'.cell_eq hj, htop', hrow, htape, if_pos (by omega)]
  · rw [hshow'.cell_eq (by omega), htop', hrow, htape, if_neg (by omega), hold _ (by omega),
      tape_screenTerminal (by omega), Nat.add_comm]

/-- One letter in the last cell of the screen: the screen is scrolled, and the cursor
comes back to the end of the row above. -/
theorem erase_typed_last :
    let v : Console :=
      { vid := fun _ => 7, x := 79, y := 24, cursorHigh := 0, cursorLow := 0, stray := false }
    let v' := backspace^[1] ([97].foldl (fun v c => printChar v c 7 0) v)
    v'.x = 79 ∧ v'.y.toNat = 23 ∧ ∀ j, j < 23 * 80 + 79 → v'.cell j = (7, 7) := by
  intro v v'
  obtain ⟨hx, hy, -, -, hcell⟩ := erase_typed v (by decide) (by decide) [97] (by simp) 7 0 1
    (by decide) (by decide)
  exact ⟨hx, hy, hcell⟩

end KernelC.Vga
