import KernelC.Time.Uptime
import KernelC.Vga.Position

/-!
# The clock on the screen

`print_time` and `print_systemup` write the time and the uptime to the columns 70 to 77 of the
last two rows (`userTask1_spec`). `user_task1` does so all the time, on the
screen that the programs print to, and it may lose the CPU between any two of its stores. What the
others see of it are therefore its stores one by one, in any state of the clock (`Drawn`).
-/

namespace KernelC.Vga

open Time

def yellow : UInt8 := 14

/-- The loop of `print_time` and of `print_systemup`, from `i` on. -/
def positionText (row : UInt32) : List UInt8 → UInt32 → Console → Console
  | [], _, v => v
  | c :: cs, i, v =>
    if c = 0 then v
    else positionText row cs (i + 1) (printCharPosition v c (70 + i) row yellow black)

def printTime (systemClock : ClockTime) (v : Console) : Console :=
  positionText 24 (formatClock systemClock) 0 v

def printSystemup (seconds : UInt32) (v : Console) : Console :=
  positionText 23 (formatUp seconds) 0 v

/-! ## The cells -/

variable {v : Console}

theorem printCharPosition_eq {x y : UInt32} (hx : x.toNat < 80) (hy : y.toNat < 25) (v : Console)
    (c fore back : UInt8) :
    printCharPosition v c x y fore back =
      v.poke (2 * (y.toNat * 80 + x.toNat)) [c, makeColor fore back] := by
  have hoff := position_toNat hx hy
  have hone : ((y * 80 + x) * 2 + 1).toNat = 2 * (y.toNat * 80 + x.toNat) + 1 := by
    rw [toNat_add_small (by rw [hoff]; show _ + 1 < _; omega), hoff]
    rfl
  unfold printCharPosition
  rw [if_neg (by rw [vgaWidth, vgaHeight]; omega)]
  simp only [hoff, hone, poke_poke]

theorem positionText_eq {row i : UInt32} {cs : List UInt8} (hrow : row.toNat < 25)
    (hi : i.toNat + cs.length ≤ 10) (hcs : ∀ c ∈ cs, c ≠ 0) (rest : List UInt8) (v : Console) :
    positionText row (cs ++ 0 :: rest) i v =
      writeCells (makeColor yellow black) cs (row.toNat * 80 + 70 + i.toNat) v := by
  induction cs generalizing i v with
  | nil => rw [List.nil_append, positionText, if_pos rfl, writeCells]
  | cons c cs ih =>
    rw [List.length_cons] at hi
    have hx : (70 + i).toNat = 70 + i.toNat := toNat_add_small (by show 70 + _ < _; omega)
    have hnext : (i + 1).toNat = i.toNat + 1 := toNat_add_small (by show _ + 1 < _; omega)
    rw [List.cons_append, positionText, if_neg (hcs c List.mem_cons_self),
      printCharPosition_eq (by omega) hrow, hx,
      ih (by omega) fun d hd => hcs d (List.mem_cons_of_mem _ hd), writeCells, hnext]
    simp only [Nat.add_assoc]

theorem digitChar_ne_nul {d : Nat} (hd : d < 100) : digitChar d ≠ 0 := by
  intro h
  have hnat := congrArg UInt8.toNat h
  unfold digitChar at hnat
  rw [UInt8.toNat_ofNat'] at hnat
  have hzero : (0 : UInt8).toNat = 0 := rfl
  omega

/-- The eight characters of a time, without the terminator. -/
def timeChars (h m s : Nat) : List UInt8 := (timeText h m s).take 8

theorem timeText_eq (h m s : Nat) : timeText h m s = timeChars h m s ++ 0 :: [] := rfl

theorem length_timeChars (h m s : Nat) : (timeChars h m s).length = 8 := rfl

theorem timeChars_ne_nul {h m s : Nat} (hh : h < 256) (hm : m < 256) (hs : s < 256) :
    ∀ c ∈ timeChars h m s, c ≠ 0 := by
  intro c hc
  have hcolon : (0x3A : UInt8) ≠ 0 := by decide
  simp only [timeChars, timeText, List.take_succ_cons, List.take_zero, List.mem_cons,
    List.not_mem_nil, or_false] at hc
  rcases hc with rfl | rfl | rfl | rfl | rfl | rfl | rfl | rfl
  · exact digitChar_ne_nul (by omega)
  · exact digitChar_ne_nul (by omega)
  · exact hcolon
  · exact digitChar_ne_nul (by omega)
  · exact digitChar_ne_nul (by omega)
  · exact hcolon
  · exact digitChar_ne_nul (by omega)
  · exact digitChar_ne_nul (by omega)

def clockChars (k : ClockTime) : List UInt8 := timeChars k.hh.toNat k.mm.toNat k.ss.toNat

def upChars (u : UInt32) : List UInt8 :=
  timeChars (u.toNat / 3600 % 100) (u.toNat % 3600 / 60) (u.toNat % 60)

theorem printTime_eq (k : ClockTime) (v : Console) :
    printTime k v = writeCells (makeColor yellow black) (clockChars k) 1990 v := by
  unfold printTime
  rw [formatClock_eq, timeText_eq,
    positionText_eq (by decide) (by rw [length_timeChars]; decide)
      (timeChars_ne_nul k.hh.toNat_lt k.mm.toNat_lt k.ss.toNat_lt)]
  rfl

theorem printSystemup_eq (u : UInt32) (v : Console) :
    printSystemup u v = writeCells (makeColor yellow black) (upChars u) 1910 v := by
  unfold printSystemup
  rw [formatUp_eq, timeText_eq,
    positionText_eq (by decide) (by rw [length_timeChars]; decide)
      (timeChars_ne_nul (by omega) (by omega) (by omega))]
  rfl

/-! ## The stores -/

/-- The store of one byte. -/
def pokeByte (v : Console) (s : Nat × UInt8) : Console := v.poke s.1 [s.2]

/-- The stores of `writeCells`, in their order. -/
def textStores (color : UInt8) : List UInt8 → Nat → List (Nat × UInt8)
  | [], _ => []
  | c :: cs, b => (2 * b, c) :: (2 * b + 1, color) :: textStores color cs (b + 1)

theorem writeCells_eq_stores (color : UInt8) (cs : List UInt8) (b : Nat) (v : Console) :
    writeCells color cs b v = (textStores color cs b).foldl pokeByte v := by
  induction cs generalizing b v with
  | nil => rfl
  | cons c cs ih =>
    rw [writeCells, ih, textStores, List.foldl_cons, List.foldl_cons, pokeByte, pokeByte,
      poke_poke]

theorem mem_textStores {color : UInt8} {cs : List UInt8} {b : Nat} {s : Nat × UInt8}
    (h : s ∈ textStores color cs b) : b ≤ s.1 / 2 ∧ s.1 / 2 < b + cs.length := by
  induction cs generalizing b with
  | nil => cases h
  | cons c cs ih =>
    rw [List.length_cons]
    simp only [textStores, List.mem_cons] at h
    rcases h with rfl | rfl | h
    · dsimp only
      omega
    · dsimp only
      omega
    · have := ih h
      omega

/-- What one round of `user_task1` stores. -/
def roundStores (systemClock : ClockTime) (seconds : UInt32) : List (Nat × UInt8) :=
  textStores (makeColor yellow black) (clockChars systemClock) 1990 ++
    textStores (makeColor yellow black) (upChars seconds) 1910

/-- A store that `user_task1` may make. -/
def Drawn (s : Nat × UInt8) : Prop := ∃ systemClock seconds, s ∈ roundStores systemClock seconds

/-- A round is its stores. -/
theorem userTask1_eq_stores (k : ClockTime) (u : UInt32) (v : Console) :
    printSystemup u (printTime k v) = (roundStores k u).foldl pokeByte v := by
  rw [printTime_eq, printSystemup_eq, writeCells_eq_stores, writeCells_eq_stores, roundStores,
    List.foldl_append]

/-- The columns of the clock. -/
def ClockColumn (j : Nat) : Prop := 70 ≤ j % 80 ∧ j % 80 < 78

theorem Drawn.column {s : Nat × UInt8} (h : Drawn s) : ClockColumn (s.1 / 2) ∧ s.1 / 2 < 2000 := by
  obtain ⟨k, u, hs⟩ := h
  unfold ClockColumn
  rcases List.mem_append.mp hs with hs | hs
  · have hlen : (clockChars k).length = 8 := rfl
    have := mem_textStores hs
    omega
  · have hlen : (upChars u).length = 8 := rfl
    have := mem_textStores hs
    omega

theorem cell_pokeByte {s : Nat × UInt8} {j : Nat} (hj : j ≠ s.1 / 2) :
    (pokeByte v s).cell j = v.cell j := by
  unfold pokeByte Console.cell Console.poke
  congr 1 <;> exact store_of_outside (by simp only [List.length_cons, List.length_nil]; omega)

/-- A whole round shows the time and the uptime, and changes nothing else. -/
theorem userTask1_spec (k : ClockTime) (u : UInt32) (v : Console) :
    SameFrame v (printSystemup u (printTime k v)) ∧
    ∀ j, (printSystemup u (printTime k v)).cell j =
      if 1910 ≤ j ∧ j < 1918 then ((upChars u).getD (j - 1910) 0, makeColor yellow black)
      else if 1990 ≤ j ∧ j < 1998 then ((clockChars k).getD (j - 1990) 0, makeColor yellow black)
      else v.cell j := by
  have hk : (clockChars k).length = 8 := rfl
  have hu : (upChars u).length = 8 := rfl
  rw [printTime_eq, printSystemup_eq]
  refine ⟨(writeCells_frame (by omega)).trans (writeCells_frame (by omega)), fun j => ?_⟩
  rw [cell_writeCells, cell_writeCells, hk, hu]

end KernelC.Vga
