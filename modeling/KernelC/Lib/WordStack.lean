import Mathlib.Algebra.Group.Nat.Defs
import Mathlib.Data.List.Induction
import Mathlib.Logic.Function.Basic

/-!
# A processor's stack

Memory is by quadwords, addresses are modulo 2^64. `slot sp i` is the address of
the `i`-th quadword from `sp` on, `frame m sp n` the first `n` of them. The stack
grows down: `push` stores below the stack pointer, `pop` reads at it.

The rules: what was pushed is the frame, last word first (`frame_pushes`); the
words of a frame stay when it is not written to (`frame_congr`, `frame_stores`);
a store into one replaces a word (`frame_update`); popping returns the frame word by
word (`frame_pop`). `frame_storeFrame` is for frames that are stored slot by slot.
-/

namespace KernelC

structure Stack where
  mem : Nat → Nat
  sp : Nat

def slot (sp i : Nat) : Nat := (sp + 8 * i) % 2 ^ 64

def frame (m : Nat → Nat) (sp n : Nat) : List Nat := (List.range n).map fun i => m (slot sp i)

def Stack.push (st : Stack) (v : Nat) : Stack :=
  let sp := (st.sp + (2 ^ 64 - 8)) % 2 ^ 64
  ⟨Function.update st.mem sp v, sp⟩

def Stack.pushes (st : Stack) (vs : List Nat) : Stack := vs.foldl Stack.push st

def Stack.pop (st : Stack) : Nat × Stack := (st.mem (slot st.sp 0), ⟨st.mem, slot st.sp 1⟩)

/-- The stores `ws` of addresses and values, one after the other. -/
def stores (m : Nat → Nat) (ws : List (Nat × Nat)) : Nat → Nat :=
  ws.foldl (fun m w => Function.update m w.1 w.2) m

variable {m m' : Nat → Nat} {sp n : Nat} {st : Stack}

theorem slot_ne {i j : Nat} (h : i < j) (hj : j < 2 ^ 61) : slot sp i ≠ slot sp j := by
  unfold slot
  omega

theorem slot_slot (sp i j : Nat) : slot (slot sp i) j = slot sp (i + j) := by
  unfold slot
  omega

theorem frame_congr (h : ∀ i < n, m' (slot sp i) = m (slot sp i)) : frame m' sp n = frame m sp n := by
  unfold frame
  refine List.map_congr_left fun i hi => h i ?_
  simpa using hi

theorem frame_succ (m : Nat → Nat) (sp n : Nat) :
    frame m sp (n + 1) = m (slot sp 0) :: frame m (slot sp 1) n := by
  unfold frame
  rw [List.range_succ_eq_map, List.map_cons, List.map_map]
  congr 1
  refine List.map_congr_left fun i _ => ?_
  rw [slot_slot, Nat.add_comm 1 i]
  rfl

theorem stores_of_notMem {ws : List (Nat × Nat)} {x : Nat} (h : ∀ w ∈ ws, w.1 ≠ x) :
    stores m ws x = m x := by
  induction ws generalizing m with
  | nil => rfl
  | cons w ws ih =>
    have hrest := ih (m := Function.update m w.1 w.2) fun v hv => h v (List.mem_cons_of_mem _ hv)
    exact hrest.trans (Function.update_of_ne (Ne.symm (h w List.mem_cons_self)) _ _)

theorem frame_stores {ws : List (Nat × Nat)} (h : ∀ w ∈ ws, ∀ i < n, w.1 ≠ slot sp i) :
    frame (stores m ws) sp n = frame m sp n :=
  frame_congr fun i hi => stores_of_notMem fun w hw => h w hw i hi

/-! ## Frames that are stored slot by slot -/

/-- `sp[i] = f i` for the first `n` slots. -/
def storeFrame (m : Nat → Nat) (sp : Nat) (f : Nat → Nat) (n : Nat) : Nat → Nat :=
  (List.range n).foldl (fun m i => Function.update m (slot sp i) (f i)) m

theorem storeFrame_succ (m : Nat → Nat) (sp : Nat) (f : Nat → Nat) (n : Nat) :
    storeFrame m sp f (n + 1) = Function.update (storeFrame m sp f n) (slot sp n) (f n) := by
  unfold storeFrame
  rw [List.range_succ, List.foldl_append, List.foldl_cons, List.foldl_nil]

theorem storeFrame_of_ne {f : Nat → Nat} {x : Nat} (h : ∀ i < n, x ≠ slot sp i) :
    storeFrame m sp f n x = m x := by
  induction n with
  | zero => rfl
  | succ n ih =>
    rw [storeFrame_succ, Function.update_of_ne (h n (Nat.lt_succ_self n))]
    exact ih fun i hi => h i (Nat.lt_succ_of_lt hi)

theorem frame_storeFrame {f : Nat → Nat} (hn : n ≤ 2 ^ 61) :
    frame (storeFrame m sp f n) sp n = (List.range n).map f := by
  induction n with
  | zero => rfl
  | succ n ih =>
    have hold : frame (storeFrame m sp f (n + 1)) sp n = frame (storeFrame m sp f n) sp n := by
      refine frame_congr fun i hi => ?_
      rw [storeFrame_succ, Function.update_of_ne (slot_ne hi (by omega))]
    have hlast : storeFrame m sp f (n + 1) (slot sp n) = f n := by
      rw [storeFrame_succ, Function.update_self]
    have hsplit : ∀ g : Nat → Nat, (List.range (n + 1)).map g = (List.range n).map g ++ [g n] := by
      intro g
      rw [List.range_succ, List.map_append, List.map_singleton]
    rw [hsplit f, ← ih (by omega), ← hold, frame, hsplit, hlast]
    rfl

/-! ## Pushing and popping -/

theorem slot_push (st : Stack) (v i : Nat) : slot (st.push v).sp (i + 1) = slot st.sp i := by
  unfold Stack.push slot
  dsimp only
  omega

theorem push_sp (st : Stack) (v : Nat) : slot (st.push v).sp 0 = (st.push v).sp := by
  unfold Stack.push slot
  dsimp only
  omega

theorem push_mem (st : Stack) (v : Nat) :
    (st.push v).mem = Function.update st.mem (st.push v).sp v := by
  unfold Stack.push
  dsimp only

theorem frame_push (v : Nat) (hn : n < 2 ^ 61) :
    frame (st.push v).mem (st.push v).sp (n + 1) = v :: frame st.mem st.sp n := by
  have hsp := push_sp st v
  have hsame : frame (st.push v).mem st.sp n = frame st.mem st.sp n := by
    refine frame_congr fun i hi => ?_
    have hne : slot (st.push v).sp (i + 1) ≠ slot (st.push v).sp 0 :=
      (slot_ne (Nat.succ_pos i) (by omega)).symm
    rw [hsp] at hne
    rw [← slot_push st v i, push_mem, Function.update_of_ne hne]
  have habove : frame (st.push v).mem (slot (st.push v).sp 1) n = frame (st.push v).mem st.sp n := by
    refine List.map_congr_left fun i _ => ?_
    rw [slot_slot, Nat.add_comm 1 i, slot_push]
  rw [frame_succ, habove, hsame, hsp, push_mem, Function.update_self]

/-- The words pushed lie below the words that were there. -/
theorem frame_pushes (st : Stack) (vs : List Nat) (hn : vs.length + n ≤ 2 ^ 61) :
    frame (st.pushes vs).mem (st.pushes vs).sp (vs.length + n) =
      vs.reverse ++ frame st.mem st.sp n := by
  induction vs generalizing st n with
  | nil => rw [List.length_nil, Nat.zero_add]; rfl
  | cons v vs ih =>
    rw [List.length_cons] at hn
    have hrest := ih (n := n + 1) (st.push v) (by omega)
    rw [frame_push v (by omega)] at hrest
    rw [List.length_cons, List.reverse_cons, List.append_assoc, Nat.add_right_comm, Nat.add_assoc]
    exact hrest

/-- Only the slots of the new frame are written. -/
theorem pushes_of_ne (vs : List Nat) {x : Nat}
    (h : ∀ i < vs.length, x ≠ slot (st.pushes vs).sp i) : (st.pushes vs).mem x = st.mem x := by
  induction vs using List.reverseRecOn with
  | nil => rfl
  | append_singleton vs v ih =>
    have hpush : st.pushes (vs ++ [v]) = (st.pushes vs).push v := by
      unfold Stack.pushes
      rw [List.foldl_append, List.foldl_cons, List.foldl_nil]
    rw [hpush] at h ⊢
    rw [List.length_append, List.length_singleton] at h
    have hnew : x ≠ ((st.pushes vs).push v).sp := by
      rw [← push_sp]
      exact h 0 (Nat.succ_pos _)
    rw [push_mem, Function.update_of_ne hnew]
    refine ih fun i hi => ?_
    rw [← slot_push (st.pushes vs) v i]
    exact h (i + 1) (by omega)

/-- The stack pointer goes down by eight for each word. -/
theorem pushes_sp_mod (st : Stack) (vs : List Nat) :
    ((st.pushes vs).sp + 8 * vs.length) % 16 = st.sp % 16 := by
  induction vs generalizing st with
  | nil => rfl
  | cons v vs ih =>
    have hrest := ih (st.push v)
    have hone : ((st.push v).sp + 8) % 16 = st.sp % 16 := by
      unfold Stack.push
      dsimp only
      omega
    have hsp : (st.pushes (v :: vs)).sp = ((st.push v).pushes vs).sp := rfl
    rw [hsp, List.length_cons]
    omega

/-- A store into a frame. -/
theorem frame_update {i : Nat} (v : Nat) (hi : i < n) (hn : n ≤ 2 ^ 61) :
    frame (Function.update m (slot sp i) v) sp n = (frame m sp n).set i v := by
  refine List.ext_getElem (by simp [frame]) fun k hk _ => ?_
  have hkn : k < n := by simpa [frame] using hk
  rw [List.getElem_set]
  by_cases hki : i = k
  · simp [frame, hki]
  · have hne : slot sp k ≠ slot sp i := by
      rcases Nat.lt_or_gt_of_ne hki with hlt | hgt
      · exact (slot_ne hlt (by omega)).symm
      · exact slot_ne hgt (by omega)
    simp [frame, hki, Function.update_of_ne hne]

theorem frame_pop (st : Stack) {v : Nat} {vs : List Nat} (h : frame st.mem st.sp (n + 1) = v :: vs) :
    st.pop.1 = v ∧ st.pop.2.mem = st.mem ∧ frame st.mem st.pop.2.sp n = vs := by
  rw [frame_succ] at h
  obtain ⟨hv, hvs⟩ := List.cons.inj h
  exact ⟨hv, rfl, hvs⟩

end KernelC
