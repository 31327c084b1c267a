import KernelC.Vga.Scroll

/-!
# Printing at a position

`print_string_position` writes cell after cell from the offset of its position, and
tests the column behind each character. Where the position is on the screen this
is enough: a tab ends at a multiple of 8, so at column 80 at the latest, and what
is written is the string with its tabs expanded, cut at column 80
(`positionLoop_eq`). Where it is not, the first character is written before any
test: `position_on_row_iff`.
-/

namespace KernelC.Vga

variable {v : Console}

/-- What a string shows as from column `col` on: a tab is the spaces up to the next
multiple of 8. -/
def expandTabs : Nat → List UInt8 → List UInt8
  | _, [] => []
  | col, c :: cs =>
    if c = 0x09 then List.replicate (8 - col % 8) 0x20 ++ expandTabs (col + (8 - col % 8)) cs
    else c :: expandTabs (col + 1) cs

/-- Write characters of one colour to the cells from `b` on. -/
def writeCells (color : UInt8) : List UInt8 → Nat → Console → Console
  | [], _, v => v
  | c :: cs, b, v => writeCells color cs (b + 1) (v.poke (2 * b) [c, color])

theorem writeCells_append (color : UInt8) (cs ds : List UInt8) (b : Nat) (v : Console) :
    writeCells color (cs ++ ds) b v =
      writeCells color ds (b + cs.length) (writeCells color cs b v) := by
  induction cs generalizing b v with
  | nil => rfl
  | cons c cs ih =>
    rw [List.cons_append, writeCells, ih, writeCells, List.length_cons]
    congr 1
    omega

theorem cell_writeCells (color : UInt8) (cs : List UInt8) (b : Nat) (v : Console) (j : Nat) :
    (writeCells color cs b v).cell j =
      if b ≤ j ∧ j < b + cs.length then (cs.getD (j - b) 0, color) else v.cell j := by
  induction cs generalizing b v with
  | nil => rw [writeCells, if_neg (by simp only [List.length_nil]; omega)]
  | cons c cs ih =>
    rw [writeCells, ih, cell_poke_word, List.length_cons]
    by_cases hj : j = b
    · subst hj
      rw [if_neg (by omega), if_pos rfl, if_pos (by omega), Nat.sub_self, List.getD_cons_zero]
    · by_cases hin : b + 1 ≤ j ∧ j < b + 1 + cs.length
      · rw [if_pos hin, if_pos (by omega), show j - b = j - (b + 1) + 1 by omega,
          List.getD_cons_succ]
      · rw [if_neg hin, if_neg hj, if_neg (by omega)]

theorem writeCells_frame {color : UInt8} {cs : List UInt8} {b : Nat} (h : b + cs.length ≤ 2000) :
    SameFrame v (writeCells color cs b v) := by
  induction cs generalizing b v with
  | nil => exact ⟨rfl, rfl, rfl⟩
  | cons c cs ih =>
    rw [List.length_cons] at h
    refine SameFrame.trans ?_ (ih (by omega))
    exact poke_frame (by simp only [List.length_cons, List.length_nil]; omega)

/-! ## On the screen -/

section

variable {p : Pen} {b : Nat}

theorem toNat_add_small {n k : UInt32} (h : n.toNat + k.toNat < 2 ^ 32) :
    (n + k).toNat = n.toNat + k.toNat := by
  rw [UInt32.toNat_add]
  exact Nat.mod_eq_of_lt h

/-- The pen stands at cell `b` of the screen. -/
theorem Pen.put_eq (hb : p.offset.toNat = 2 * b) (hlt : b < 2000) (hcol : p.col.toNat < 80)
    (c color : UInt8) :
    (p.put c color).console = p.console.poke (2 * b) [c, color] ∧
    (p.put c color).offset.toNat = 2 * (b + 1) ∧
    (p.put c color).col.toNat = p.col.toNat + 1 := by
  have h1 : (p.offset + 1).toNat = 2 * b + 1 := by
    rw [toNat_add_small (by simp only [hb]; show _ + 1 < _; omega), hb]
    rfl
  have h2 : (p.offset + 2).toNat = 2 * (b + 1) := by
    rw [toNat_add_small (by simp only [hb]; show _ + 2 < _; omega), hb]
    rfl
  have h3 : (p.col + 1).toNat = p.col.toNat + 1 :=
    toNat_add_small (by show _ + 1 < _; omega)
  refine ⟨?_, h2, h3⟩
  unfold Pen.put
  rw [h1, hb, poke_poke]

theorem Pen.spaces_eq {n : Nat} (hb : p.offset.toNat = 2 * b) (hlt : b + n ≤ 2000)
    (hcol : p.col.toNat + n ≤ 80) (color : UInt8) :
    (p.spaces color n).console = writeCells color (List.replicate n 0x20) b p.console ∧
    (p.spaces color n).offset.toNat = 2 * (b + n) ∧
    (p.spaces color n).col.toNat = p.col.toNat + n := by
  induction n generalizing p b with
  | zero => exact ⟨rfl, hb, rfl⟩
  | succ n ih =>
    obtain ⟨hv, hoff, hc⟩ := Pen.put_eq hb (by omega) (by omega) 0x20 color
    obtain ⟨hv', hoff', hc'⟩ := ih hoff (by omega) (by rw [hc]; omega)
    rw [Pen.spaces, hv', hoff', hc', hv, hc]
    exact ⟨rfl, by omega, by omega⟩

theorem tab_spaces (col : UInt32) : (tabSize - col % tabSize).toNat = 8 - col.toNat % 8 := by
  have hmod : (col % tabSize).toNat = col.toNat % 8 := UInt32.toNat_mod _ _
  have hle : col % tabSize ≤ tabSize := by
    rw [UInt32.le_iff_toNat_le, hmod]
    show _ ≤ 8
    omega
  rw [UInt32.toNat_sub_of_le _ _ hle, hmod]
  rfl

/-- The loop writes the expanded string, up to the end of the row. -/
theorem positionLoop_eq (color : UInt8) (cs : List UInt8) (hb : p.offset.toNat = 2 * b)
    (hcol : p.col.toNat < 80) (hroom : b + (80 - p.col.toNat) ≤ 2000) :
    (positionLoop color cs p).console =
      writeCells color ((expandTabs p.col.toNat cs).take (80 - p.col.toNat)) b p.console := by
  induction cs generalizing p b with
  | nil =>
    rw [expandTabs, List.take_nil]
    rfl
  | cons c cs ih =>
    rw [positionLoop, expandTabs]
    by_cases htab : c = 0x09
    · simp only [if_pos htab]
      rw [tab_spaces]
      obtain ⟨hv, hoff, hc⟩ :=
        Pen.spaces_eq (n := 8 - p.col.toNat % 8) hb (by omega) (by omega) color
      generalize p.spaces color (8 - p.col.toNat % 8) = q at hv hoff hc ⊢
      rw [List.take_append, List.take_of_length_le (by rw [List.length_replicate]; omega),
        List.length_replicate, writeCells_append, List.length_replicate, ← hv]
      by_cases hend : vgaWidth ≤ q.col.toNat
      · rw [if_pos hend]
        rw [hc, vgaWidth] at hend
        rw [show 80 - p.col.toNat - (8 - p.col.toNat % 8) = 0 by omega, List.take_zero]
        rfl
      · rw [if_neg hend]
        rw [hc, vgaWidth] at hend
        rw [ih hoff (by omega) (by omega), hc, Nat.sub_sub]
    · simp only [if_neg htab]
      obtain ⟨hv, hoff, hc⟩ := Pen.put_eq hb (by omega) hcol c color
      generalize p.put c color = q at hv hoff hc ⊢
      rw [show 80 - p.col.toNat = 80 - (p.col.toNat + 1) + 1 by omega, List.take_succ_cons,
        writeCells, ← hv, ← hc]
      by_cases hend : vgaWidth ≤ q.col.toNat
      · rw [if_pos hend]
        rw [vgaWidth] at hend
        rw [show 80 - q.col.toNat = 0 by omega, List.take_zero]
        rfl
      · rw [if_neg hend]
        rw [vgaWidth] at hend
        exact ih hoff (by omega) (by omega)

end

theorem position_toNat {x y : UInt32} (hx : x.toNat < 80) (hy : y.toNat < 25) :
    ((y * 80 + x) * 2).toNat = 2 * (y.toNat * 80 + x.toNat) := by
  have h1 : (y * 80).toNat = y.toNat * 80 := by
    rw [UInt32.toNat_mul]
    exact Nat.mod_eq_of_lt (by show _ * 80 < _; omega)
  have h2 : (y * 80 + x).toNat = y.toNat * 80 + x.toNat := by
    rw [toNat_add_small (by omega), h1]
  rw [UInt32.toNat_mul, h2, Nat.mul_comm]
  exact Nat.mod_eq_of_lt (by show 2 * _ < _; omega)

theorem printStringPosition_eq {x y : UInt32} (hx : x.toNat < 80) (hy : y.toNat < 25)
    (v : Console) (str : CStr) (fore back : UInt8) :
    printStringPosition v str x y fore back =
      writeCells (makeColor fore back) ((expandTabs x.toNat str.chars).take (80 - x.toNat))
        (y.toNat * 80 + x.toNat) v :=
  positionLoop_eq _ _ (position_toNat hx hy) hx (by simp only; omega)

/-! ## Anywhere -/

/-- Every byte that differs is one of a cell of row `y`, from column `x` on. -/
def OnRow (v v' : Console) (x y : UInt32) : Prop :=
  ∀ k, v'.vid k ≠ v.vid k → y.toNat < 25 ∧
    ∃ c, x.toNat ≤ c ∧ c < 80 ∧ (k = 2 * (y.toNat * 80 + c) ∨ k = 2 * (y.toNat * 80 + c) + 1)

/-- A change of cells only. -/
theorem onRow_of_cells {v v' : Console} {x y : UInt32} (hy : y.toNat < 25)
    (h : ∀ j, (∀ c, x.toNat ≤ c → c < 80 → j ≠ y.toNat * 80 + c) → v'.cell j = v.cell j) :
    OnRow v v' x y := by
  intro k hk
  refine ⟨hy, ?_⟩
  by_contra hno
  have hcell : v'.cell (k / 2) = v.cell (k / 2) := by
    refine h _ fun c h1 h2 hj => hno ⟨c, h1, h2, ?_⟩
    omega
  obtain ⟨heven, hodd⟩ := Prod.mk.inj hcell
  rcases Nat.mod_two_eq_zero_or_one k with hm | hm
  · exact hk (by rwa [show 2 * (k / 2) = k by omega] at heven)
  · exact hk (by rwa [show 2 * (k / 2) + 1 = k by omega] at hodd)

section

variable {p : Pen} {k : Nat} {color : UInt8}

/-- The attribute of a cell, once written, stays: characters go to even offsets. -/
theorem Pen.put_attr (heven : p.offset.toNat % 2 = 0) (c color : UInt8) (k : Nat) :
    (p.put c color).offset.toNat % 2 = 0 ∧
    (p.put c color).console.vid (p.offset + 1).toNat = color ∧
    (k % 2 = 1 → p.console.vid k = color → (p.put c color).console.vid k = color) := by
  have hnext : (p.put c color).offset.toNat % 2 = 0 := by
    show (p.offset + 2).toNat % 2 = 0
    rw [UInt32.toNat_add]
    show (_ + 2) % 2 ^ 32 % 2 = 0
    omega
  refine ⟨hnext, ?_, fun hk hvid => ?_⟩
  · simp [Pen.put, Console.poke, store]
  · by_cases hself : k = (p.offset + 1).toNat
    · rw [hself]
      simp [Pen.put, Console.poke, store]
    · show store (store p.console.vid _ [c]) _ [color] k = color
      rw [store_of_outside (by simp only [List.length_singleton]; omega),
        store_of_outside (by simp only [List.length_singleton]; omega), hvid]

theorem Pen.spaces_attr {n : Nat} (heven : p.offset.toNat % 2 = 0) (hk : k % 2 = 1)
    (hvid : p.console.vid k = color) :
    (p.spaces color n).offset.toNat % 2 = 0 ∧ (p.spaces color n).console.vid k = color := by
  induction n generalizing p with
  | zero => exact ⟨heven, hvid⟩
  | succ n ih =>
    obtain ⟨hnext, -, hkeep⟩ := Pen.put_attr heven 0x20 color k
    exact ih hnext (hkeep hk hvid)

theorem positionLoop_attr (cs : List UInt8) (heven : p.offset.toNat % 2 = 0) (hk : k % 2 = 1)
    (hvid : p.console.vid k = color) : (positionLoop color cs p).console.vid k = color := by
  induction cs generalizing p with
  | nil => exact hvid
  | cons c cs ih =>
    have hnext : ∀ q : Pen, q.offset.toNat % 2 = 0 → q.console.vid k = color →
        (if vgaWidth ≤ q.col.toNat then q else positionLoop color cs q).console.vid k = color := by
      intro q hq hqv
      split
      · exact hqv
      · exact ih hq hqv
    rw [positionLoop]
    by_cases htab : c = 0x09
    · simp only [if_pos htab]
      obtain ⟨h1, h2⟩ := Pen.spaces_attr (n := (tabSize - p.col % tabSize).toNat) heven hk hvid
      exact hnext _ h1 h2
    · simp only [if_neg htab]
      obtain ⟨h1, -, h3⟩ := Pen.put_attr heven c color k
      exact hnext _ h1 (h3 hk hvid)

/-- The first character is written before any test. -/
theorem positionLoop_first {c : UInt8} {cs : List UInt8} (heven : p.offset.toNat % 2 = 0) :
    (positionLoop color (c :: cs) p).console.vid (p.offset + 1).toNat = color := by
  have hodd : (p.offset + 1).toNat % 2 = 1 := by
    rw [UInt32.toNat_add]
    show (_ + 1) % 2 ^ 32 % 2 = 1
    omega
  have hnext : ∀ q : Pen, q.offset.toNat % 2 = 0 → q.console.vid (p.offset + 1).toNat = color →
      (if vgaWidth ≤ q.col.toNat then q else positionLoop color cs q).console.vid
        (p.offset + 1).toNat = color := by
    intro q hq hqv
    split
    · exact hqv
    · exact positionLoop_attr cs hq hodd hqv
  rw [positionLoop]
  by_cases htab : c = 0x09
  · -- a tab has at least one space
    have hpos : ∃ n, (tabSize - p.col % tabSize).toNat = n + 1 :=
      ⟨7 - p.col.toNat % 8, by rw [tab_spaces]; omega⟩
    obtain ⟨n, hn⟩ := hpos
    obtain ⟨h1, h2, -⟩ := Pen.put_attr heven 0x20 color 0
    simp only [if_pos htab, hn, Pen.spaces]
    obtain ⟨h3, h4⟩ := Pen.spaces_attr (n := n) h1 hodd h2
    exact hnext _ h3 h4
  · obtain ⟨h1, h2, -⟩ := Pen.put_attr heven c color 0
    simp only [if_neg htab]
    exact hnext _ h1 h2

end

/-- Positioned printing. Whatever the buffer holds, `print_string_position` changes
nothing but cells of row `y` from column `x` on exactly when there is nothing to
print or the position is on the screen; and then what it writes is the string with
each tab expanded, cut at column 80. -/
theorem position_on_row_iff (str : CStr) (x y : UInt32) (fore back : UInt8) :
    ((∀ v, OnRow v (printStringPosition v str x y fore back) x y) ↔
      str = CStr.empty ∨ (x.toNat < 80 ∧ y.toNat < 25)) ∧
    (x.toNat < 80 → y.toNat < 25 → ∀ v : Console,
      let cells := (expandTabs x.toNat str.chars).take (80 - x.toNat)
      SameFrame v (printStringPosition v str x y fore back) ∧
      ∀ j, (printStringPosition v str x y fore back).cell j =
        if y.toNat * 80 + x.toNat ≤ j ∧ j < y.toNat * 80 + x.toNat + cells.length
        then (cells.getD (j - (y.toNat * 80 + x.toNat)) 0, makeColor fore back)
        else v.cell j) := by
  refine ⟨⟨fun h => ?_, ?_⟩, fun hx hy v => ?_⟩
  · by_contra hno
    rw [not_or] at hno
    obtain ⟨hstr, hout⟩ := hno
    have heven : ((y * 80 + x) * 2).toNat % 2 = 0 := by
      rw [UInt32.toNat_mul]
      show _ * 2 % 2 ^ 32 % 2 = 0
      omega
    -- a buffer in which the attribute of the first character is another one
    generalize hk : ((y * 80 + x) * 2 + 1).toNat = k
    have hfirst : (printStringPosition
        { vid := fun _ => makeColor fore back + 1, x := 0, y := 0, cursorHigh := 0, cursorLow := 0,
          stray := false } str x y fore back).vid k = makeColor fore back := by
      obtain ⟨chars, hnul⟩ := str
      cases chars with
      | nil => exact absurd rfl hstr
      | cons c cs =>
        rw [← hk]
        exact positionLoop_first heven
    have hne : makeColor fore back ≠ makeColor fore back + 1 := by
      intro heq
      have hnat := congrArg UInt8.toNat heq
      rw [UInt8.toNat_add] at hnat
      have hone : (1 : UInt8).toNat = 1 := rfl
      have := (makeColor fore back).toNat_lt
      omega
    obtain ⟨hy, c, hxc, hc, -⟩ := h _ k (by rw [hfirst]; exact hne)
    exact hout ⟨by omega, hy⟩
  · rintro (rfl | ⟨hx, hy⟩) v
    · exact fun k hk => absurd rfl hk
    · rw [printStringPosition_eq hx hy]
      refine onRow_of_cells hy fun j hj => ?_
      rw [cell_writeCells]
      refine if_neg fun hin => hj (j - y.toNat * 80) (by omega) ?_ (by omega)
      have := List.length_take_le (80 - x.toNat) (expandTabs x.toNat str.chars)
      omega
  · have hlen := List.length_take_le (80 - x.toNat) (expandTabs x.toNat str.chars)
    rw [printStringPosition_eq hx hy]
    exact ⟨writeCells_frame (by omega), cell_writeCells _ _ _ _⟩

/-- The sibling tests its position and stays on the row wherever it is. -/
theorem printCharPosition_onRow (v : Console) (c : UInt8) (x y : UInt32) (fore back : UInt8) :
    OnRow v (printCharPosition v c x y fore back) x y := by
  unfold printCharPosition
  split
  · exact fun k hk => absurd rfl hk
  · next hin =>
    rw [not_or, vgaWidth, vgaHeight] at hin
    have hoff := position_toNat (x := x) (y := y) (by omega) (by omega)
    have hone : ((y * 80 + x) * 2 + 1).toNat = 2 * (y.toNat * 80 + x.toNat) + 1 := by
      rw [toNat_add_small (by rw [hoff]; show _ + 1 < _; omega), hoff]
      rfl
    simp only [hoff, hone, poke_poke]
    refine onRow_of_cells (by omega) fun j hj => ?_
    rw [cell_poke_word]
    exact if_neg (hj x.toNat (Nat.le_refl _) (by omega))

/-- The letter `a` at column 80 of the last row goes behind the text buffer. -/
theorem position_behind_screen :
    ¬ ∀ (v : Console) (str : CStr) (x y : UInt32) (fore back : UInt8),
      OnRow v (printStringPosition v str x y fore back) x y := by
  intro hall
  obtain ⟨-, c, hxc, hc, -⟩ := hall
    { vid := fun _ => 0, x := 0, y := 0, cursorHigh := 0, cursorLow := 0, stray := false }
    ⟨[97], by simp⟩ 80 24 7 0 4000 (by decide)
  have : (80 : UInt32).toNat = 80 := rfl
  omega

end KernelC.Vga
