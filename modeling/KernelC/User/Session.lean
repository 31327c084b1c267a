import KernelC.Keyboard.Typing
import KernelC.User.LineEdit

/-!
# A keyboard and a terminal

Keys come at any time; the terminal takes a character in each turn of its loop, and none
while a program that it started is running. `session` is the two of them together.

Result: `typed_lines_started`. Whatever the timing, what a text starts are its lines.
-/

namespace KernelC.User

open Keyboard (Kbd Pending produced flagsAfter NeverFull Typeable queued strokes syscallGetchar
  keyboardHandler)

/-- A code of the keyboard, or a turn of the terminal, with the results of the calls that it
may make. -/
inductive Happening
  | scancode (code : UInt8)
  | loop (taskStop taskCreate : UInt64)

/-- The code runs the handler; the turn begins with `SYSCALL_GETCHAR`. -/
def happen (p : Kbd × Shell) : Happening → Option (Kbd × Shell)
  | .scancode code => some (keyboardHandler p.1 code, p.2)
  | .loop taskStop taskCreate =>
    let r := syscallGetchar p.1
    (turn p.2 ⟨r.2, taskStop, taskCreate⟩).map fun s => (r.1, s)

def session (p : Kbd × Shell) (hs : List Happening) : Option (Kbd × Shell) := hs.foldlM happen p

/-- What the keyboard sees. -/
def Happening.event : Happening → Keyboard.Event
  | .scancode code => .scancode code
  | .loop _ _ => .getchar

/-! ## The characters in the queue and in the line -/

variable {k : Kbd} {q : List UInt8} {s : Shell} {e : Line}

/-- One turn: nothing to read, or the oldest character is edited into the line. -/
theorem loop_typed (h : Pending k q) (ht : Typed s e) (hctrl : 0x03 ∉ q)
    (hfits : Fits e q) (taskStop taskCreate : UInt64) :
    ∃ k' s' read rest, happen (k, s) (.loop taskStop taskCreate) = some (k', s') ∧
      q = read ++ rest ∧ Pending k' rest ∧ Typed s' (read.foldl edit e) ∧
      k' = (syscallGetchar k).1 := by
  unfold happen
  dsimp only
  rcases Keyboard.getchar_queue h with ⟨rfl, hget⟩ | ⟨c, rest, rfl, hpend, -, hres, -⟩
  · rw [hget]
    exact ⟨k, s, [], [], rfl, rfl, h, ht, rfl⟩
  · have hc := h.keyChar c List.mem_cons_self
    have hal : (⟨(syscallGetchar k).2, taskStop, taskCreate⟩ : Turn).al = c := by
      unfold Turn.al
      dsimp only
      rw [hres, UInt8.ofNat_toNat]
    obtain ⟨s', hturn, ht'⟩ := turn_typed ht ⟨(syscallGetchar k).2, taskStop, taskCreate⟩
      (by rw [hal]; exact hc.2.2)
      (by rw [hal]; exact fun h3 => hctrl (h3 ▸ List.mem_cons_self))
      (by rw [hal]; exact hfits.1)
    rw [hal] at ht'
    rw [hturn]
    exact ⟨_, s', [c], rest, rfl, rfl, hpend, ht', rfl⟩

theorem fits_append {cs ds : List UInt8} (h : Fits e (cs ++ ds)) :
    Fits e cs ∧ Fits (cs.foldl edit e) ds := by
  induction cs generalizing e with
  | nil => exact ⟨trivial, h⟩
  | cons c cs ih =>
    obtain ⟨hfirst, hrest⟩ := h
    exact ⟨⟨hfirst, (ih hrest).1⟩, (ih hrest).2⟩

/-- What waits and what the codes produce is read in this order. -/
theorem session_typed {hs : List Happening} (h : Pending k q) (ht : Typed s e)
    (hroom : NeverFull k (hs.map Happening.event))
    (hctrl : 0x03 ∉ q ++ produced k.flags (Keyboard.codesOf (hs.map Happening.event)))
    (hfits : Fits e (q ++ produced k.flags (Keyboard.codesOf (hs.map Happening.event)))) :
    ∃ k' s' read waiting, session (k, s) hs = some (k', s') ∧
      q ++ produced k.flags (Keyboard.codesOf (hs.map Happening.event)) = read ++ waiting ∧
      Pending k' waiting ∧ Typed s' (read.foldl edit e) := by
  induction hs generalizing k q s e with
  | nil => exact ⟨k, s, [], q, rfl, by rw [List.map_nil]; simp [Keyboard.codesOf, produced], h, ht⟩
  | cons o hs ih =>
    cases o with
    | scancode code =>
      obtain ⟨hfirst, hrest⟩ := hroom
      obtain ⟨new, hpend, hacc⟩ := Keyboard.keyboardHandler_queue h code
      rw [Keyboard.keyboardHandler_accepted hfirst] at hacc
      have hidle : k.flags = k.flags.idle.flags := rfl
      have hsplit : q ++ produced k.flags (Keyboard.codesOf
          (List.map Happening.event (.scancode code :: hs))) = (q ++ new) ++
            produced (keyboardHandler k code).flags
              (Keyboard.codesOf (hs.map Happening.event)) := by
        rw [Keyboard.keyboardHandler_congr hidle code, ← List.append_cancel_left hacc,
          List.append_assoc]
        rfl
      rw [hsplit] at hctrl hfits ⊢
      exact ih hpend ht hrest hctrl hfits
    | loop taskStop taskCreate =>
      obtain ⟨k₁, s₁, read, rest, hone, rfl, hpend, ht₁, rfl⟩ := loop_typed h ht
        (fun h3 => hctrl (List.mem_append_left _ h3)) (fits_append hfits).1 taskStop taskCreate
      have hsame : produced k.flags (Keyboard.codesOf
          (List.map Happening.event (.loop taskStop taskCreate :: hs))) =
            produced (syscallGetchar k).1.flags (Keyboard.codesOf (hs.map Happening.event)) := by
        rw [(Keyboard.syscallGetchar_flags k).1]
        rfl
      rw [hsame, List.append_assoc] at hctrl hfits ⊢
      obtain ⟨k', s', read', waiting, hrun, heq, hpend', ht'⟩ := ih hpend ht₁ hroom
        (fun h3 => hctrl (List.mem_append_right _ h3)) (fits_append hfits).2
      refine ⟨k', s', read ++ read', waiting, ?_, by rw [heq, List.append_assoc], hpend', ?_⟩
      · unfold session at hrun ⊢
        rw [List.foldlM_cons, hone]
        exact hrun
      · rw [List.foldl_append]
        exact ht'

/-! ## A text -/

theorem queued_ne {c : UInt8} (h : Typeable c) : queued c ≠ 0x03 := by
  have hall : ∀ n < 256, Typeable (UInt8.ofNat n) → queued (UInt8.ofNat n) ≠ 0x03 := by
    decide +kernel
  have hc := hall c.toNat c.toNat_lt
  rw [UInt8.ofNat_toNat] at hc
  exact hc h

/-- The blank is a blank again in the line. -/
theorem edit_queued (c : UInt8) (e : Line) : edit e (queued c) = edit e c := by
  unfold queued
  by_cases hc : c = 32
  · rw [if_pos hc, hc]
    rfl
  · rw [if_neg hc]

theorem foldl_queued (text : List UInt8) (e : Line) :
    (text.map queued).foldl edit e = text.foldl edit e := by
  induction text generalizing e with
  | nil => rfl
  | cons c text ih => rw [List.map_cons, List.foldl_cons, List.foldl_cons, edit_queued, ih]

theorem fits_queued {text : List UInt8} (h : Fits e text) : Fits e (text.map queued) := by
  induction text generalizing e with
  | nil => trivial
  | cons c text ih =>
    have hrest := ih h.2
    rw [← edit_queued] at hrest
    refine ⟨?_, hrest⟩
    rw [edit_queued]
    exact h.1

/-- A text is typed at a keyboard, and the terminal runs. Whenever the codes come, however long
the programs take that it starts and whatever its calls return, as long as no code finds the
queue full and no line is longer than the buffer: the characters read so far are a beginning of
the text, the rest waits in order, and what was passed to `SYSCALL_TASK_CREATE` are the lines of
that beginning, with its Backspaces applied; the line after them is in the buffer. -/
theorem typed_lines_started {text : List UInt8} (htext : ∀ c ∈ text, Typeable c)
    (hfits : Fits Line.empty text) (buf : Nat → UInt8) {hs : List Happening}
    (hcodes : Keyboard.codesOf (hs.map Happening.event) = strokes text)
    (hroom : NeverFull Keyboard.start (hs.map Happening.event)) :
    ∃ k s read waiting, session (Keyboard.start, start buf) hs = some (k, s) ∧
      text = read ++ waiting ∧ Pending k (waiting.map queued) ∧
      s.started = (read.foldl edit Line.empty).entered ∧
      Typed s (read.foldl edit Line.empty) := by
  have hstart : Typed (start buf) Line.empty :=
    ⟨rfl, (fun i c hc => by cases hc), by simp [Line.empty], by simp [Line.empty], rfl⟩
  have hprod : produced Keyboard.start.flags (Keyboard.codesOf (hs.map Happening.event)) =
      text.map queued := by
    rw [hcodes]
    exact (Keyboard.produced_strokes htext).1
  have hctrl : 0x03 ∉ text.map queued := by
    intro h3
    obtain ⟨c, hc, heq⟩ := List.mem_map.mp h3
    exact queued_ne (htext c hc) heq
  have hall := session_typed Keyboard.start_pending hstart hroom
  rw [hprod, List.nil_append] at hall
  obtain ⟨k, s, read, waiting, hrun, heq, hpend, htyped⟩ := hall hctrl (fits_queued hfits)
  obtain ⟨l, r, rfl, rfl, rfl⟩ := List.map_eq_append_iff.mp heq
  rw [foldl_queued] at htyped
  exact ⟨k, s, l, r, hrun, rfl, hpend, htyped.started, htyped⟩

/-- `htop`, mistyped and mended, and then `clear` up to its last letter; the terminal reads all
but one character, and starts a program in between. -/
def mended : List UInt8 :=
  [0x68, 0x74, 0x70, 0x08, 0x6F, 0x70, 0x0A, 0x63, 0x6C, 0x65, 0x61]

def mendedSession : List Happening :=
  (strokes (mended.take 4)).map .scancode ++ List.replicate 6 (.loop 0 0) ++
    (strokes (mended.drop 4)).map .scancode ++ List.replicate 6 (.loop 0 7)

theorem typed_lines_started_mended : ∃ k s read waiting,
    session (Keyboard.start, start fun _ => 0) mendedSession = some (k, s) ∧
      mended = read ++ waiting ∧ Pending k (waiting.map queued) ∧
      s.started = (read.foldl edit Line.empty).entered ∧
      Typed s (read.foldl edit Line.empty) :=
  typed_lines_started (by decide +kernel) (by decide) _ (by decide +kernel) (by decide +kernel)

end KernelC.User
