import KernelC.Lib.Terminal
import KernelC.Vga.Basic

/-!
# The console is a window of an unbounded terminal

A cell is a character and its attribute, the bytes `2 * i` and `2 * i + 1` of
the buffer. The loops of `clean_screen` and `scroll_screen` are described cell
by cell (`cleanScreen_spec`, `scrollScreen_spec`); then each character that is
printed does to the screen what it does to the terminal (`printChar_shows`).

Result: `console_window`, for every sequence of calls.
-/

namespace KernelC.Vga

abbrev Cell := UInt8 × UInt8

variable {v : Console}

def Console.cell (v : Console) (i : Nat) : Cell := (v.vid (2 * i), v.vid (2 * i + 1))

/-! ## Stores -/

theorem poke_stray {i : Nat} {bs : List UInt8} (h : i + bs.length ≤ 4000) :
    (v.poke i bs).stray = v.stray := by
  unfold Console.poke
  have hno : decide (4000 < i + bs.length) = false := decide_eq_false (by omega)
  rw [hno, Bool.or_false]

/-- The two bytes of a cell, stored one after the other or as a word. -/
theorem cell_poke_word (i : Nat) (a b : UInt8) (j : Nat) :
    (v.poke (2 * i) [a, b]).cell j = if j = i then (a, b) else v.cell j := by
  unfold Console.cell Console.poke
  by_cases hj : j = i
  · simp [hj, store]
  · rw [if_neg hj]
    congr 1 <;> exact store_of_outside (by simp only [List.length_cons, List.length_nil]; omega)

theorem poke_poke (v : Console) (i : Nat) (a b : UInt8) :
    (v.poke i [a]).poke (i + 1) [b] = v.poke i [a, b] := by
  unfold Console.poke
  congr 1
  · funext k
    simp only [store, List.length_cons, List.length_nil]
    by_cases h1 : k = i + 1
    · simp [h1]
    · by_cases h0 : k = i
      · rw [if_neg (by omega), if_pos (by omega), if_pos (by omega), h0, Nat.sub_self]
        rfl
      · rw [if_neg (by omega), if_neg (by omega), if_neg (by omega)]
  · simp only [List.length_cons, List.length_nil, Bool.or_assoc]
    congr 1
    rw [Bool.eq_iff_iff]
    simp only [Bool.or_eq_true, decide_eq_true_eq]
    omega

/-- What a loop leaves alone besides the buffer. -/
structure SameFrame (v v' : Console) : Prop where
  x : v'.x = v.x
  y : v'.y = v.y
  stray : v'.stray = v.stray

theorem SameFrame.trans {v' v'' : Console} (h : SameFrame v v') (h' : SameFrame v' v'') :
    SameFrame v v'' :=
  ⟨h'.x.trans h.x, h'.y.trans h.y, h'.stray.trans h.stray⟩

theorem poke_frame {i : Nat} {bs : List UInt8} (h : i + bs.length ≤ 4000) :
    SameFrame v (v.poke i bs) :=
  ⟨rfl, rfl, poke_stray h⟩

/-! ## The loops -/

theorem cleanCell_frame {k : Nat} (hk : k < 2000) : SameFrame v (cleanCell v k) := by
  unfold cleanCell
  rw [poke_poke]
  exact poke_frame (by simp only [List.length_cons, List.length_nil]; omega)

theorem cell_cleanCell (v : Console) (k j : Nat) :
    (cleanCell v k).cell j = if j = k then (0x20, 0x07) else v.cell j := by
  unfold cleanCell
  rw [poke_poke, cell_poke_word]

theorem cleanLoop (v : Console) {n : Nat} (hn : n ≤ 2000) :
    SameFrame v ((List.range n).foldl cleanCell v) ∧
    ∀ j, ((List.range n).foldl cleanCell v).cell j = if j < n then (0x20, 0x07) else v.cell j := by
  induction n with
  | zero => exact ⟨⟨rfl, rfl, rfl⟩, fun j => rfl⟩
  | succ n ih =>
    obtain ⟨hframe, hcell⟩ := ih (by omega)
    rw [List.range_succ, List.foldl_append, List.foldl_cons, List.foldl_nil]
    refine ⟨hframe.trans (cleanCell_frame (by omega)), fun j => ?_⟩
    rw [cell_cleanCell, hcell]
    by_cases hj : j = n
    · rw [if_pos hj, if_pos (by omega)]
    · rw [if_neg hj]
      exact if_congr (by omega) rfl rfl

/-- The screen is blank, with the cursor at its start. -/
theorem cleanScreen_spec (v : Console) :
    (cleanScreen v).x = 0 ∧ (cleanScreen v).y = 0 ∧ (cleanScreen v).stray = v.stray ∧
    ∀ j < 2000, (cleanScreen v).cell j = (0x20, 0x07) := by
  obtain ⟨hframe, hcell⟩ := cleanLoop v (Nat.le_refl 2000)
  unfold cleanScreen
  generalize (List.range (80 * 25)).foldl cleanCell v = u at hframe hcell ⊢
  refine ⟨rfl, rfl, hframe.stray, fun j hj => ?_⟩
  have h := hcell j
  rw [if_pos hj] at h
  exact h

theorem cell_shiftWord (v : Console) (i j : Nat) :
    (shiftWord v i).cell j = if j = i then v.cell (i + 80) else v.cell j := by
  have hbytes : bytesLE 2 (readLE v.vid (2 * (i + vgaWidth)) 2) =
      [v.vid (2 * (i + 80)), v.vid (2 * (i + 80) + 1)] := by
    rw [bytesLE_readLE]
    rfl
  unfold shiftWord
  rw [hbytes, cell_poke_word]
  rfl

/-- The word that is read lies ahead of every word that was written. -/
theorem shiftLoop (v : Console) {n : Nat} (hn : n ≤ 1920) :
    SameFrame v ((List.range n).foldl shiftWord v) ∧
    ∀ j, ((List.range n).foldl shiftWord v).cell j =
      if j < n then v.cell (j + 80) else v.cell j := by
  induction n with
  | zero => exact ⟨⟨rfl, rfl, rfl⟩, fun j => rfl⟩
  | succ n ih =>
    obtain ⟨hframe, hcell⟩ := ih (by omega)
    rw [List.range_succ, List.foldl_append, List.foldl_cons, List.foldl_nil]
    refine ⟨hframe.trans (poke_frame (by rw [bytesLE_length]; omega)), fun j => ?_⟩
    rw [cell_shiftWord, hcell, hcell]
    by_cases hj : j = n
    · subst hj
      rw [if_pos rfl, if_neg (Nat.not_lt.mpr (Nat.le_add_right _ _)), if_pos (Nat.lt_succ_self _)]
    · rw [if_neg hj]
      exact if_congr (by omega) rfl rfl

theorem blankWord_frame {i : Nat} (hi : i < 2000) : SameFrame v (blankWord v i) :=
  poke_frame (by rw [bytesLE_length]; omega)

theorem cell_blankWord (v : Console) (i j : Nat) :
    (blankWord v i).cell j = if j = i then (0x20, 0) else v.cell j := by
  have hbytes : bytesLE 2 ((makeColor black black).toNat <<< 8 ||| 0x20) = [0x20, 0] := by decide
  unfold blankWord
  rw [hbytes, cell_poke_word]

theorem blankLoop (v : Console) {n : Nat} (hn : n ≤ 80) :
    SameFrame v ((List.range' 1920 n).foldl blankWord v) ∧
    ∀ j, ((List.range' 1920 n).foldl blankWord v).cell j =
      if 1920 ≤ j ∧ j < 1920 + n then (0x20, 0) else v.cell j := by
  induction n with
  | zero =>
    refine ⟨⟨rfl, rfl, rfl⟩, fun j => ?_⟩
    rw [if_neg (by omega)]
    rfl
  | succ n ih =>
    obtain ⟨hframe, hcell⟩ := ih (by omega)
    rw [List.range'_1_concat, List.foldl_append, List.foldl_cons, List.foldl_nil]
    refine ⟨hframe.trans (blankWord_frame (by omega)), fun j => ?_⟩
    rw [cell_blankWord, hcell]
    by_cases hj : j = 1920 + n
    · rw [if_pos hj, if_pos (by omega)]
    · rw [if_neg hj]
      exact if_congr (by omega) rfl rfl

/-- The rows go up by one and the last one becomes blank. -/
theorem scrollScreen_spec (v : Console) :
    (scrollScreen v).x = v.x ∧ (scrollScreen v).stray = v.stray ∧
    ∀ j < 2000, (scrollScreen v).cell j = if j < 1920 then v.cell (j + 80) else (0x20, 0) := by
  obtain ⟨hframe, hcell⟩ := shiftLoop v (Nat.le_refl 1920)
  obtain ⟨hframe', hcell'⟩ :=
    blankLoop ((List.range 1920).foldl shiftWord v) (Nat.le_refl 80)
  generalize hu : (List.range' 1920 80).foldl blankWord ((List.range 1920).foldl shiftWord v) = u
    at hframe' hcell'
  have hscroll : scrollScreen v = if 0 < u.y then { u with y := u.y - 1 } else u := by
    rw [← hu]
    rfl
  have hsame := hframe.trans hframe'
  have hspec : ∀ j < 2000, u.cell j = if j < 1920 then v.cell (j + 80) else (0x20, 0) := by
    intro j hj
    rw [hcell', hcell]
    by_cases hlast : j < 1920
    · rw [if_neg (by omega), if_pos hlast, if_pos hlast]
    · rw [if_pos (by omega), if_neg hlast]
  rw [hscroll]
  split
  · exact ⟨hsame.x, hsame.stray, hspec⟩
  · exact ⟨hsame.x, hsame.stray, hspec⟩

/-! ## The refinement -/

/-- The rows that come into the window. -/
def blankCell : Cell := (0x20, 0)

/-- The terminal that a cleaned screen shows. -/
def cleanTerminal : Terminal Cell :=
  { cell := fun r _ => if r < 25 then (0x20, 0x07) else blankCell, top := 0, row := 0, col := 0 }

/-- What one character does. -/
def typeChar (t : Terminal Cell) (c attr : UInt8) : Terminal Cell :=
  if c = 0x0A then t.newline 25 else t.put 80 25 (c, attr)

/-- What a call shows: its characters, one after the other. -/
def Call.type (t : Terminal Cell) : Call → Terminal Cell
  | .printChar c fore back => typeChar t c (makeColor fore back)
  | .printString str fore back =>
    str.chars.foldl (fun t c => typeChar t c (makeColor fore back)) t

/-- The buffer and the cursor show the window of `t`. -/
def Shows (v : Console) (t : Terminal Cell) : Prop :=
  Window 80 25 blankCell t (fun r c => v.cell (r * 80 + c)) v.x.toNat v.y.toNat

variable {t : Terminal Cell}

theorem cleanScreen_shows (v : Console) : Shows (cleanScreen v) cleanTerminal := by
  obtain ⟨hx, hy, -, hcell⟩ := cleanScreen_spec v
  unfold Shows
  rw [hx, hy]
  refine ⟨rfl, rfl, by decide, by decide, fun r hr c hc => ?_, fun r hr c => ?_⟩
  · rw [hcell _ (by omega)]
    show _ = if 0 + r < 25 then _ else _
    rw [if_pos (by omega)]
  · have hr' : 0 + 25 ≤ r := hr
    show (if r < 25 then _ else _) = _
    rw [if_neg (by omega)]

theorem toNat_succ {n : UInt8} (h : n.toNat < 80) : (n + 1).toNat = n.toNat + 1 := by
  rw [UInt8.toNat_add]
  show (n.toNat + 1) % 2 ^ 8 = n.toNat + 1
  omega

theorem nextRow_shows (h : Shows v t) :
    Shows (nextRow v) (t.newline 25) ∧ (nextRow v).stray = v.stray := by
  have hy := toNat_succ (n := v.y) (Nat.lt_trans h.rowLt (by decide))
  have hlt := h.rowLt
  unfold nextRow
  dsimp only
  by_cases hlast : vgaHeight ≤ (v.y + 1).toNat
  · rw [if_pos hlast]
    obtain ⟨hx, hstray, hcell⟩ := scrollScreen_spec { v with x := 0, y := v.y + 1 }
    generalize scrollScreen { v with x := 0, y := v.y + 1 } = u at hx hstray hcell ⊢
    have hheight : 25 ≤ v.y.toNat + 1 := hy ▸ hlast
    refine ⟨?_, hstray⟩
    have hslide : Window 80 25 blankCell (t.newline 25) (fun r c => u.cell (r * 80 + c)) 0 (25 - 1) :=
      h.slide (by omega)
      (fun r hr c hc => by
        rw [hcell _ (by omega), if_pos (by omega), Nat.add_right_comm, ← Nat.succ_mul]
        rfl)
      (fun c hc => by
        rw [hcell _ (by omega), if_neg (by omega)]
        rfl)
    unfold Shows
    dsimp only
    rw [hx]
    exact hslide
  · rw [if_neg hlast]
    have hheight : ¬ 25 ≤ v.y.toNat + 1 := hy ▸ hlast
    refine ⟨?_, rfl⟩
    unfold Shows
    dsimp only
    rw [hy]
    exact h.down (by omega)

theorem printChar_shows (h : Shows v t) (c fore back : UInt8) :
    Shows (printChar v c fore back) (typeChar t c (makeColor fore back)) ∧
      (printChar v c fore back).stray = v.stray := by
  unfold printChar typeChar
  dsimp only
  by_cases hc : c = 0x0A
  · rw [if_pos hc, if_pos hc]
    exact nextRow_shows h
  rw [if_neg hc, if_neg hc, poke_poke, Nat.mul_comm _ 2]
  have hx := toNat_succ h.colLt
  have hcol := h.colLt
  have hrow := h.rowLt
  have hw : vgaWidth = 80 := rfl
  generalize hu : v.poke (2 * (v.y.toNat * vgaWidth + v.x.toNat)) [c, makeColor fore back] = u
  have hstray : u.stray = v.stray := by
    rw [← hu]
    exact poke_stray (by simp only [List.length_cons, List.length_nil, hw]; omega)
  have hux : u.x = v.x := by
    rw [← hu]
    rfl
  have huy : u.y = v.y := by
    rw [← hu]
    rfl
  -- the character is on the screen, the cursor not yet moved
  have hwrite : Window 80 25 blankCell (t.write (c, makeColor fore back))
      (fun r c => u.cell (r * 80 + c)) v.x.toNat v.y.toNat := by
    refine h.write _ fun r hr k hk => ?_
    rw [← hu, cell_poke_word, hw]
    refine if_congr ?_ rfl rfl
    omega
  unfold Terminal.put
  by_cases hlast : vgaWidth ≤ (u.x + 1).toNat
  · rw [if_pos hlast]
    rw [hux, hx, hw] at hlast
    rw [hwrite.advance_of_last (by omega)]
    have hrow : nextRow { u with x := u.x + 1 } = nextRow u := rfl
    rw [hrow]
    have hnext := nextRow_shows (v := u) (t := t.write (c, makeColor fore back))
      (by rw [Shows, hux, huy]; exact hwrite)
    exact ⟨hnext.1, hnext.2.trans hstray⟩
  · rw [if_neg hlast]
    rw [hux, hx, hw] at hlast
    refine ⟨?_, hstray⟩
    have hright := hwrite.right (by omega)
    rw [← hx, ← hux, ← huy] at hright
    exact hright

theorem printChars_shows (h : Shows v t) (fore back : UInt8) (cs : List UInt8) :
    Shows (printChars v fore back cs)
        (cs.foldl (fun t c => typeChar t c (makeColor fore back)) t) ∧
      (printChars v fore back cs).stray = v.stray := by
  induction cs generalizing v t with
  | nil => exact ⟨h, rfl⟩
  | cons c cs ih =>
    rw [printChars, List.foldl_cons]
    -- `print_string` makes the newline itself, as `print_char` would
    have hsame : (if c = 0x0A then printChars (nextRow v) fore back cs
        else printChars (printChar v c fore back) fore back cs) =
        printChars (printChar v c fore back) fore back cs := by
      by_cases hc : c = 0x0A
      · rw [if_pos hc, printChar, if_pos hc]
      · rw [if_neg hc]
    rw [hsame]
    obtain ⟨hshows, hstray⟩ := printChar_shows h c fore back
    obtain ⟨hrest, hrest'⟩ := ih hshows
    exact ⟨hrest, hrest'.trans hstray⟩

theorem run_shows (h : Shows v t) (call : Call) :
    Shows (call.run v) (call.type t) ∧ (call.run v).stray = v.stray := by
  cases call with
  | printChar c fore back => exact printChar_shows h c fore back
  | printString str fore back => exact printChars_shows h fore back str.chars

theorem runs_show (h : Shows v t) (calls : List Call) :
    Shows (calls.foldl Call.run v) (calls.foldl Call.type t) ∧
      (calls.foldl Call.run v).stray = v.stray := by
  induction calls generalizing v t with
  | nil => exact ⟨h, rfl⟩
  | cons call calls ih =>
    obtain ⟨hshows, hstray⟩ := run_shows h call
    obtain ⟨hrest, hrest'⟩ := ih hshows
    exact ⟨hrest, hrest'.trans hstray⟩

/-- After `clean_screen` and any calls, buffer and cursor are the window of the
terminal that was sent the same characters; the cursor is on the screen, and no
byte outside the text buffer was written. -/
theorem console_window (v : Console) (calls : List Call) :
    let v' := calls.foldl Call.run (cleanScreen v)
    let t := calls.foldl Call.type cleanTerminal
    v'.x.toNat < 80 ∧ v'.y.toNat < 25 ∧ v'.x.toNat = t.col ∧ t.top + v'.y.toNat = t.row ∧
      (∀ r < 25, ∀ c < 80, v'.cell (r * 80 + c) = t.cell (t.top + r) c) ∧
      v'.stray = v.stray := by
  obtain ⟨h, hstray⟩ := runs_show (cleanScreen_shows v) calls
  exact ⟨h.colLt, h.rowLt, h.col, h.row, h.cells, hstray.trans (cleanScreen_spec v).2.2.1⟩

end KernelC.Vga
