import KernelC.Keyboard.Basic
import Mathlib.Data.List.Induction

/-!
# The modifier keys

A keyboard sends the make code of a key when it goes down, again while it is
held, and its break code when it goes up. `heldAfter codes key` says whether a
key is down after the codes, `presses key codes` how often it went down.

The handler keeps one flag for both Shift keys: the break code of one clears it
while the other is still down. And it changes `caps_lock` at every make code,
also at those that Caps Lock sends while it is held. `Ctrl` is right.

* `modifiers_wrong`: codes that a keyboard sends, with wrong flags at the end.
* `modifiers_exact`: when the flags are right.
-/

namespace KernelC.Keyboard

variable {k : Kbd} {held : UInt8 → Bool} {codes : List UInt8}

/-! ## The keys -/

/-- The keys that are down after one more code. -/
def hold (held : UInt8 → Bool) (code : UInt8) : UInt8 → Bool :=
  Function.update held (keyOf code) (!released code)

def noKey : UInt8 → Bool := fun _ => false

def heldAfter (codes : List UInt8) : UInt8 → Bool := codes.foldl hold noKey

/-- Only a key that is down goes up. -/
def Producible (held : UInt8 → Bool) : List UInt8 → Prop
  | [] => True
  | code :: codes => (released code → held (keyOf code)) ∧ Producible (hold held code) codes

instance (held : UInt8 → Bool) (codes : List UInt8) : Decidable (Producible held codes) :=
  match codes with
  | [] => inferInstanceAs (Decidable True)
  | code :: codes =>
    have := instDecidableProducible (hold held code) codes
    inferInstanceAs (Decidable (_ ∧ _))

/-- How often `key` goes down. -/
def presses (key : UInt8) (held : UInt8 → Bool) : List UInt8 → Nat
  | [] => 0
  | code :: codes =>
    (if keyOf code = key ∧ released code = false ∧ held key = false then 1 else 0) +
      presses key (hold held code) codes

/-- How often the handler changes `caps_lock`. -/
def toggles (k : Kbd) : List UInt8 → Nat
  | [] => 0
  | code :: codes =>
    (if (keyboardHandler k code).capsLock = k.capsLock then 0 else 1) +
      toggles (keyboardHandler k code) codes

/-- The flags are right after the codes. -/
def Tracks (codes : List UInt8) : Prop :=
  let k := codes.foldl keyboardHandler start
  let held := heldAfter codes
  (k.shiftDown = true ↔ held keyLshift = true ∨ held keyRshift = true) ∧
    (k.ctrlDown = true ↔ held keyLcontrol = true) ∧
    toggles start codes = presses keyCapslock noKey codes

instance (codes : List UInt8) : Decidable (Tracks codes) := inferInstanceAs (Decidable (_ ∧ _))

/-! ## One code -/

theorem kbdBufferPush_flags (k : Kbd) (c : UInt8) :
    (kbdBufferPush k c).shiftDown = k.shiftDown ∧ (kbdBufferPush k c).ctrlDown = k.ctrlDown ∧
      (kbdBufferPush k c).capsLock = k.capsLock := by
  unfold kbdBufferPush
  dsimp only
  split <;> exact ⟨rfl, rfl, rfl⟩

def isShift (key : UInt8) : Bool := key = keyLshift ∨ key = keyRshift

/-- What one code does to the flags. -/
theorem keyboardHandler_flags (k : Kbd) (code : UInt8) :
    (keyboardHandler k code).ctrlDown =
        (if keyOf code = keyLcontrol then !released code else k.ctrlDown) ∧
      (keyboardHandler k code).shiftDown =
        (if isShift (keyOf code) then !released code else k.shiftDown) ∧
      (keyboardHandler k code).capsLock =
        (if keyOf code = keyCapslock ∧ released code = false then !k.capsLock else k.capsLock) := by
  have hr : ¬ (keyOf code).toNat = keyRcontrol := by
    have := (keyOf code).toNat_lt
    unfold keyRcontrol
    omega
  unfold keyboardHandler
  dsimp only
  generalize keyOf code = key at hr ⊢
  generalize released code = up
  by_cases hctrl : key = keyLcontrol
  · subst hctrl
    rw [if_pos (.inl rfl)]
    exact ⟨rfl, rfl, rfl⟩
  rw [if_neg (fun h => h.elim hctrl hr), if_neg hctrl]
  by_cases hc : (!up) = true ∧ k.ctrlDown = true ∧ key = keyC
  · rw [if_pos hc, hc.2.2]
    obtain ⟨hs, hct, hcaps⟩ := kbdBufferPush_flags k 0x03
    exact ⟨hct, hs, hcaps⟩
  rw [if_neg hc]
  by_cases hshift : key = keyLshift ∨ key = keyRshift
  · have hs : isShift key = true := by simpa [isShift] using hshift
    have hncaps : ¬ (key = keyCapslock ∧ up = false) := by
      rintro ⟨rfl, -⟩
      revert hshift
      decide
    rw [if_pos hshift, if_pos hs, if_neg hncaps]
    exact ⟨rfl, rfl, rfl⟩
  have hns : ¬ isShift key = true := by simpa [isShift] using hshift
  rw [if_neg hshift, if_neg hns]
  by_cases hcaps : key = keyCapslock ∧ (!up) = true
  · rw [if_pos hcaps, if_pos ⟨hcaps.1, by simpa using hcaps.2⟩]
    exact ⟨rfl, rfl, rfl⟩
  have hncaps : ¬ (key = keyCapslock ∧ up = false) := fun h => hcaps ⟨h.1, by simp [h.2]⟩
  rw [if_neg hcaps, if_neg hncaps]
  obtain ⟨hs, hct, hcaps'⟩ := kbdBufferPush_flags k (getAsciiChar k key)
  split
  · split
    · exact ⟨hct, hs, hcaps'⟩
    · exact ⟨rfl, rfl, rfl⟩
  · exact ⟨rfl, rfl, rfl⟩

/-! ## Ctrl -/

theorem ctrlDown_eq (k : Kbd) (held : UInt8 → Bool) (codes : List UInt8)
    (h : k.ctrlDown = held keyLcontrol) :
    (codes.foldl keyboardHandler k).ctrlDown = codes.foldl hold held keyLcontrol := by
  induction codes generalizing k held with
  | nil => exact h
  | cons code codes ih =>
    refine ih _ _ ?_
    rw [(keyboardHandler_flags k code).1, hold]
    by_cases hkey : keyOf code = keyLcontrol
    · rw [if_pos hkey, hkey, Function.update_self]
    · rw [if_neg hkey, Function.update_of_ne (Ne.symm hkey), h]

/-! ## Shift -/

def otherShift (key : UInt8) : UInt8 := if key = keyLshift then keyRshift else keyLshift

/-- The last code of a Shift key is the break code of one, sent while the other
is down. -/
def Masked (codes : List UInt8) : Prop :=
  ∃ before code after, codes = before ++ code :: after ∧ isShift (keyOf code) = true ∧
    released code = true ∧ heldAfter before (otherShift (keyOf code)) = true ∧
    ∀ c ∈ after, isShift (keyOf c) = false

theorem masked_snoc_of_shift {code : UInt8} (h : isShift (keyOf code) = true) :
    Masked (codes ++ [code]) ↔
      released code = true ∧ heldAfter codes (otherShift (keyOf code)) = true := by
  constructor
  · rintro ⟨before, c, after, heq, -, hup, hother, hafter⟩
    rcases List.eq_nil_or_concat after with rfl | ⟨after, last, rfl⟩
    · obtain ⟨rfl, hc⟩ := List.append_inj' heq rfl
      obtain rfl := List.singleton_inj.mp hc
      exact ⟨hup, hother⟩
    · -- a Shift code is not among the codes behind the last one
      rw [List.concat_eq_append, ← List.cons_append, ← List.append_assoc] at heq
      obtain ⟨-, hc⟩ := List.append_inj' heq rfl
      obtain rfl := List.singleton_inj.mp hc
      have hno := hafter code (by simp)
      rw [h] at hno
      cases hno
  · exact fun ⟨hup, hother⟩ => ⟨codes, code, [], rfl, h, hup, hother, by simp⟩

theorem masked_snoc_of_not_shift {code : UInt8} (h : isShift (keyOf code) = false) :
    Masked (codes ++ [code]) ↔ Masked codes := by
  constructor
  · rintro ⟨before, c, after, heq, hshift, hup, hother, hafter⟩
    rcases List.eq_nil_or_concat after with rfl | ⟨after, last, rfl⟩
    · obtain ⟨-, hc⟩ := List.append_inj' heq rfl
      obtain rfl := List.singleton_inj.mp hc
      rw [h] at hshift
      cases hshift
    · rw [List.concat_eq_append, ← List.cons_append, ← List.append_assoc] at heq
      obtain ⟨rfl, -⟩ := List.append_inj' heq rfl
      exact ⟨before, c, after, rfl, hshift, hup, hother, fun d hd => hafter d (by simp [hd])⟩
  · rintro ⟨before, c, after, rfl, hshift, hup, hother, hafter⟩
    refine ⟨before, c, after ++ [code], by simp, hshift, hup, hother, fun d hd => ?_⟩
    rcases List.mem_append.mp hd with hd | hd
    · exact hafter d hd
    · rw [List.mem_singleton.mp hd]
      exact h

/-- One of the two keys is down. -/
def shiftHeld (held : UInt8 → Bool) : Bool := held keyLshift || held keyRshift

theorem shiftHeld_hold_of_not_shift {code : UInt8} (h : isShift (keyOf code) = false) :
    shiftHeld (hold held code) = shiftHeld held := by
  have hne : keyOf code ≠ keyLshift ∧ keyOf code ≠ keyRshift := by simpa [isShift] using h
  unfold shiftHeld hold
  rw [Function.update_of_ne (Ne.symm hne.1), Function.update_of_ne (Ne.symm hne.2)]

theorem shiftHeld_hold_of_shift {code : UInt8} (h : isShift (keyOf code) = true) :
    shiftHeld (hold held code) = (!released code || held (otherShift (keyOf code))) := by
  have hkey : keyOf code = keyLshift ∨ keyOf code = keyRshift := by simpa [isShift] using h
  unfold shiftHeld hold
  rcases hkey with hkey | hkey
  · rw [hkey, Function.update_self, Function.update_of_ne (by decide)]
    rfl
  · rw [hkey, Function.update_self, Function.update_of_ne (by decide), Bool.or_comm]
    rfl

/-- The flag is never set without a key that is down; it is clear with one down
exactly when the last Shift code masks it. -/
theorem shiftDown_spec (codes : List UInt8) :
    ((codes.foldl keyboardHandler start).shiftDown = true → shiftHeld (heldAfter codes) = true) ∧
    (Masked codes ↔
      (codes.foldl keyboardHandler start).shiftDown = false ∧ shiftHeld (heldAfter codes) = true) := by
  induction codes using List.reverseRecOn with
  | nil =>
    refine ⟨(fun h => by cases h), fun h => ?_, (fun h => by cases h.2)⟩
    obtain ⟨before, c, after, heq, -⟩ := h
    simp at heq
  | append_singleton codes code ih =>
    have hk : (codes ++ [code]).foldl keyboardHandler start =
        keyboardHandler (codes.foldl keyboardHandler start) code := by
      rw [List.foldl_append, List.foldl_cons, List.foldl_nil]
    have hheld : heldAfter (codes ++ [code]) = hold (heldAfter codes) code := by
      rw [heldAfter, List.foldl_append, List.foldl_cons, List.foldl_nil, heldAfter]
    rw [hk, hheld, (keyboardHandler_flags _ code).2.1]
    cases hshift : isShift (keyOf code) with
    | false =>
      rw [masked_snoc_of_not_shift hshift, shiftHeld_hold_of_not_shift hshift]
      exact ih
    | true =>
      rw [masked_snoc_of_shift hshift, shiftHeld_hold_of_shift hshift, if_pos rfl]
      cases released code with
      | false => simp
      | true => simp

/-! ## Caps Lock -/

/-- Caps Lock sends its make code while it is down. -/
def CapsRepeats (held : UInt8 → Bool) (codes : List UInt8) : Prop :=
  ∃ before code after, codes = before ++ code :: after ∧ keyOf code = keyCapslock ∧
    released code = false ∧ before.foldl hold held keyCapslock = true

theorem capsRepeats_cons {code : UInt8} :
    CapsRepeats held (code :: codes) ↔
      (keyOf code = keyCapslock ∧ released code = false ∧ held keyCapslock = true) ∨
      CapsRepeats (hold held code) codes := by
  constructor
  · rintro ⟨before, c, after, heq, hkey, hdown, hheld⟩
    cases before with
    | nil =>
      obtain ⟨rfl, rfl⟩ := List.cons.inj heq
      exact .inl ⟨hkey, hdown, hheld⟩
    | cons b before =>
      obtain ⟨rfl, rfl⟩ := List.cons.inj heq
      exact .inr ⟨before, c, after, rfl, hkey, hdown, hheld⟩
  · rintro (⟨hkey, hdown, hheld⟩ | ⟨before, c, after, rfl, hkey, hdown, hheld⟩)
    · exact ⟨[], code, codes, rfl, hkey, hdown, hheld⟩
    · exact ⟨code :: before, c, after, rfl, hkey, hdown, hheld⟩

/-- Every press toggles, and so does every repetition. -/
theorem toggles_spec (k : Kbd) (held : UInt8 → Bool) (codes : List UInt8) :
    presses keyCapslock held codes ≤ toggles k codes ∧
    (toggles k codes = presses keyCapslock held codes ↔ ¬ CapsRepeats held codes) := by
  induction codes generalizing k held with
  | nil =>
    refine ⟨Nat.le_refl _, fun _ hrep => ?_, fun _ => rfl⟩
    obtain ⟨before, c, after, heq, -⟩ := hrep
    simp at heq
  | cons code codes ih =>
    obtain ⟨hle, hiff⟩ := ih (keyboardHandler k code) (hold held code)
    rw [capsRepeats_cons, presses, toggles, (keyboardHandler_flags k code).2.2]
    by_cases hmake : keyOf code = keyCapslock ∧ released code = false
    · have hchange : ¬ (!k.capsLock) = k.capsLock := by simp
      rw [if_pos hmake, if_neg hchange]
      cases hheld : held keyCapslock with
      | false =>
        rw [if_pos ⟨hmake.1, hmake.2, rfl⟩]
        refine ⟨by omega, ?_⟩
        rw [Nat.add_left_cancel_iff, hiff]
        simp
      | true =>
        rw [if_neg (by simp)]
        refine ⟨by omega, iff_of_false (by omega) ?_⟩
        exact fun h => h (.inl ⟨hmake.1, hmake.2, rfl⟩)
    · have hnot : ¬ (keyOf code = keyCapslock ∧ released code = false ∧ held keyCapslock = false) :=
        fun h => hmake ⟨h.1, h.2.1⟩
      rw [if_neg hmake, if_pos rfl, if_neg hnot]
      refine ⟨by omega, ?_⟩
      rw [Nat.add_left_cancel_iff, hiff]
      have hrep : ¬ (keyOf code = keyCapslock ∧ released code = false ∧ held keyCapslock = true) :=
        fun h => hmake ⟨h.1, h.2.1⟩
      rw [or_iff_right hrep]

/-! ## When the flags are right -/

/-- The flags are right after the codes exactly when the last Shift code does
not clear the flag under a Shift key that is still down, and Caps Lock never
repeats its make code. -/
theorem modifiers_exact (codes : List UInt8) :
    Tracks codes ↔ ¬ Masked codes ∧ ¬ CapsRepeats noKey codes := by
  obtain ⟨hset, hmasked⟩ := shiftDown_spec codes
  have hctrl := ctrlDown_eq start noKey codes rfl
  have hcaps := (toggles_spec start noKey codes).2
  have hshift : ((codes.foldl keyboardHandler start).shiftDown = true ↔
      heldAfter codes keyLshift = true ∨ heldAfter codes keyRshift = true) ↔ ¬ Masked codes := by
    have hor : shiftHeld (heldAfter codes) = true ↔
        heldAfter codes keyLshift = true ∨ heldAfter codes keyRshift = true := by
      simp [shiftHeld]
    rw [hmasked, ← hor, ← Bool.not_eq_true]
    -- the flag is set only under a Shift key that is down
    constructor
    · exact fun h hno => hno.1 (h.mpr hno.2)
    · exact fun h => ⟨hset, fun hheld => by_contra fun hflag => h ⟨hflag, hheld⟩⟩
  unfold Tracks
  dsimp only
  rw [hshift, hcaps, hctrl]
  exact ⟨fun h => ⟨h.1, h.2.2⟩, fun h => ⟨h.1, Iff.rfl, h.2⟩⟩

/-- Left Shift down, right Shift down, left Shift up. -/
def bothShifts : List UInt8 := [0x2A, 0x36, 0xAA]

theorem modifiers_wrong : ¬ ∀ codes, Producible noKey codes → Tracks codes := by
  intro h
  have hno : ¬ Tracks bothShifts := by decide
  exact hno (h bothShifts (by decide))

end KernelC.Keyboard
