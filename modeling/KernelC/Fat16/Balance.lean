import KernelC.Fat16.Refinement
import Mathlib.Algebra.BigOperators.Group.Finset.Piecewise

/-!
# Where the clusters are

Every cluster of the data area is free, or one of those that a node costs, or lost. A call
moves clusters between the free ones and a node and loses none (`Store.call_balance`), but
for the removal of a directory that holds data: its clusters come back to nobody. So the
number of lost clusters after any run is the sum over these removals (`disk_balance`).
-/

namespace KernelC.Fat16

namespace Store

variable (s : Store)

def costAt (i : Nat) : Nat := ((s.nodes i).map Node.cost).getD 0

/-- The clusters that the nodes have. -/
@[irreducible] def taken : Nat := ∑ i ∈ Finset.range fsMaxEntries, s.costAt i

/-- The clusters that are in use or free. -/
def clusters : Nat := s.free + s.taken

/-- The clusters that a call loses: those of a directory that it removes. -/
def lostBy : Request → Nat
  | .rmdir idx => if (s.rmdir idx).1 = 0 then s.costAt idx.toNat else 0
  | .removeEntry idx =>
    if (s.remove idx).1 = 0 ∧ s.isDirectory idx = true then s.costAt idx.toNat else 0
  | _ => 0

theorem taken_eq : s.taken = ∑ i ∈ Finset.range fsMaxEntries, s.costAt i := by
  unfold taken
  rfl

variable {s : Store} {i : Nat}

theorem costAt_eq {n : Node} (h : s.nodes i = some n) : s.costAt i = n.cost := by
  rw [costAt, h]
  rfl

theorem costAt_none (h : s.nodes i = none) : s.costAt i = 0 := by
  rw [costAt, h]
  rfl

/-- A change of one slot. -/
theorem taken_put (hi : i < fsMaxEntries) (n : Option Node) (free : Nat) :
    (s.put i n free).taken + s.costAt i =
      s.taken + (n.map Node.cost).getD 0 := by
  have hmem : i ∈ Finset.range fsMaxEntries := Finset.mem_range.mpr hi
  rw [taken_eq, taken_eq, ← Finset.add_sum_erase _ _ hmem, ← Finset.add_sum_erase _ s.costAt hmem]
  have hself : (s.put i n free).costAt i = (n.map Node.cost).getD 0 := by
    simp only [costAt, put, Function.update_self]
  have hrest : ∑ j ∈ (Finset.range fsMaxEntries).erase i,
      (s.put i n free).costAt j =
      ∑ j ∈ (Finset.range fsMaxEntries).erase i, s.costAt j := by
    refine Finset.sum_congr rfl fun j hj => ?_
    simp only [costAt, put, Function.update_of_ne (Finset.ne_of_mem_erase hj)]
  rw [hself, hrest]
  omega

/-- A change of one slot and of the number of free clusters. -/
theorem clusters_put (s : Store) (hi : i < fsMaxEntries) (n : Option Node) (free : Nat) :
    (s.put i n free).clusters + s.costAt i + s.free =
      s.clusters + (n.map Node.cost).getD 0 + free := by
  have hput := taken_put (s := s) hi n free
  unfold clusters
  have hfree : (s.put i n free).free = free := rfl
  omega

theorem slot_eq_some (h : s.slot = some i) : i < fsMaxEntries ∧ s.nodes i = none := by
  obtain ⟨hnone, hm, -⟩ := List.find?_range'_eq_some.mp h
  have hr := List.mem_range'_1.mp hm
  have hend : 1 + (fsMaxEntries - 1) = fsMaxEntries := by decide
  exact ⟨by omega, by simpa using hnone⟩

theorem mkdir_balance (name : Option CStr) (parent : Int) :
    (s.mkdir name parent).2.clusters = s.clusters := by
  unfold mkdir
  cases name with
  | none => rfl
  | some name =>
    dsimp only
    split
    · rfl
    split
    · rfl
    split
    · rfl
    cases hslot : s.slot with
    | none => rfl
    | some i =>
      obtain ⟨hlt, hnone⟩ := slot_eq_some hslot
      have hput := clusters_put s hlt
        (some ⟨parent, name.take (fsNameMax - 1), CStr.empty, true, none⟩) s.free
      rw [costAt_none hnone] at hput
      exact Nat.add_right_cancel hput

/-- A slot is emptied; the clusters of its node are given back, or lost. -/
theorem drop_balance (hi : i < fsMaxEntries) (back lost : Nat) (h : back + lost = s.costAt i) :
    (s.put i none (s.free + back)).clusters + lost = s.clusters := by
  have hput := clusters_put s hi none (s.free + back)
  simp only [Option.map_none, Option.getD_none, Nat.add_zero] at hput
  omega

theorem rmdir_cases (s : Store) (idx : Int) :
    (∃ ret, ret ≠ 0 ∧ s.rmdir idx = (ret, s)) ∨
      idx.toNat < fsMaxEntries ∧ s.rmdir idx = (0, s.put idx.toNat none s.free) := by
  unfold rmdir
  split
  · exact .inl ⟨-1, by decide, rfl⟩
  split
  · exact .inl ⟨-2, by decide, rfl⟩
  split
  · exact .inl ⟨-3, by decide, rfl⟩
  · exact .inr ⟨by omega, rfl⟩

theorem remove_cases (s : Store) (idx : Int) :
    (∃ ret, ret ≠ 0 ∧ s.remove idx = (ret, s)) ∨
      ∃ n, idx.toNat < fsMaxEntries ∧ s.nodes idx.toNat = some n ∧ s.remove idx =
        (0, s.put idx.toNat none (s.free + if n.isDir then 0 else n.cost)) := by
  unfold remove
  split
  · exact .inl ⟨-1, by decide, rfl⟩
  cases hn : s.nodes idx.toNat with
  | none => exact .inl ⟨-2, by decide, rfl⟩
  | some n =>
    dsimp only
    by_cases hd : n.isDir = true
    · rw [if_pos hd]
      split
      · exact .inl ⟨-3, by decide, rfl⟩
      · exact .inr ⟨n, by omega, rfl, by rw [if_pos hd]; rfl⟩
    · rw [if_neg hd]
      exact .inr ⟨n, by omega, rfl, by rw [if_neg hd]⟩

theorem rmdir_balance (idx : Int) :
    (s.rmdir idx).2.clusters + s.lostBy (.rmdir idx) = s.clusters := by
  unfold lostBy
  rcases rmdir_cases s idx with ⟨ret, hret, heq⟩ | ⟨hlt, heq⟩
  · simp [heq, hret]
  · simp only [heq, if_pos]
    exact drop_balance hlt 0 _ (Nat.zero_add _)

theorem remove_balance (idx : Int) :
    (s.remove idx).2.clusters + s.lostBy (.removeEntry idx) = s.clusters := by
  unfold lostBy
  rcases remove_cases s idx with ⟨ret, hret, heq⟩ | ⟨n, hlt, hn, heq⟩
  · simp [heq, hret]
  · have hdir : s.isDirectory idx = n.isDir := by rw [isDirectory, hn, Option.any_some]
    simp only [heq, hdir, costAt_eq hn, true_and]
    refine drop_balance hlt _ _ ?_
    rw [costAt_eq hn]
    cases n.isDir <;> simp

theorem create_balance (name ext : Option CStr) (parent : Int) :
    ∀ r, s.create name ext parent = some r → r.2.clusters = s.clusters := by
  have hsame : ∀ {ret : Int} (r : Int × Store), some (ret, s) = some r → r.2.clusters = s.clusters := by
    intro ret r hr
    rw [← Option.some.inj hr]
  intro r hr
  unfold create at hr
  cases name with
  | none => exact hsame r hr
  | some name =>
    dsimp only at hr
    split at hr
    · exact hsame r hr
    split at hr
    · exact hsame r hr
    split at hr
    · split at hr
      · cases hr
      · exact hsame r hr
    cases hslot : s.slot with
    | none =>
      rw [hslot] at hr
      exact hsame r hr
    | some i =>
      rw [hslot] at hr
      dsimp only at hr
      split at hr
      · exact hsame r hr
      next hfree =>
      obtain ⟨hlt, hnone⟩ := slot_eq_some hslot
      have hput := clusters_put s hlt (some ⟨parent, name.take (fsNameMax - 1),
        (lookupExt ext).take (fsExtMax - 1), false, some []⟩) (s.free - 1)
      have hcost : (⟨parent, name.take (fsNameMax - 1),
        (lookupExt ext).take (fsExtMax - 1), false, some []⟩ : Node).cost = 1 := rfl
      rw [costAt_none hnone, Option.map_some, Option.getD_some, hcost] at hput
      rw [← Option.some.inj hr]
      dsimp only
      omega

/-- What is kept of the data has room. -/
theorem clustersOf_take_le {room : Nat} (hroom : room ≠ 0) (data : List UInt8) :
    clustersOf (data.take (clusterSize * room)) ≤ room := by
  have hle : clustersFor (data.take (clusterSize * room)).length ≤ room := by
    rw [clustersFor_le_iff, List.length_take]
    exact Nat.min_le_left _ _
  unfold clustersOf
  omega

theorem rewrite_balance (hi : i < fsMaxEntries) (data : List UInt8) :
    (s.rewrite i data).2.clusters = s.clusters := by
  unfold rewrite
  cases hn : s.nodes i with
  | none => rfl
  | some n =>
    dsimp only
    split
    · rfl
    next hroom =>
    have hle := clustersOf_take_le hroom data
    have hput := clusters_put s hi
      (some { n with data := some (data.take (clusterSize * (s.free + n.cost))) })
      (s.free + n.cost - clustersOf (data.take (clusterSize * (s.free + n.cost))))
    have hcost : Node.cost { n with data := some (data.take (clusterSize * (s.free + n.cost))) } =
        clustersOf (data.take (clusterSize * (s.free + n.cost))) := rfl
    rw [costAt_eq hn, Option.map_some, Option.getD_some, hcost] at hput
    dsimp only
    omega

theorem lookup_lt {name ext : Option CStr} {parent : Int} (h : s.lookup name ext parent = some i) :
    i < fsMaxEntries := by
  unfold lookup at h
  cases name with
  | none => cases h
  | some name =>
    dsimp only at h
    split at h
    · cases h
    · unfold first at h
      exact List.mem_range.mp (List.mem_of_find?_eq_some h)

theorem create_index {name ext : Option CStr} {parent idx : Int} {s' : Store}
    (h : s.create name ext parent = some (idx, s')) : idx.toNat < fsMaxEntries := by
  have hneg : ∀ {ret : Int}, ret ≤ 0 → some (ret, s) = some (idx, s') →
      idx.toNat < fsMaxEntries := by
    intro ret hret hr
    cases hr
    rw [Int.toNat_of_nonpos hret]
    decide
  unfold create at h
  cases name with
  | none => exact hneg (by decide) h
  | some name =>
    dsimp only at h
    split at h
    · exact hneg (by decide) h
    split at h
    · exact hneg (by decide) h
    split at h
    · split at h
      · cases h
      · exact hneg (by decide) h
    cases hslot : s.slot with
    | none =>
      rw [hslot] at h
      exact hneg (by decide) h
    | some i =>
      rw [hslot] at h
      dsimp only at h
      split at h
      · exact hneg (by decide) h
      · cases h
        exact (slot_eq_some hslot).1

theorem write_balance (name ext : Option CStr) (parent : Int) (data : List UInt8) :
    ∀ r, s.write name ext parent data = some r → r.2.clusters = s.clusters := by
  intro r hr
  unfold write at hr
  split at hr
  · rw [← Option.some.inj hr]
  split at hr
  · rw [← Option.some.inj hr]
  split at hr
  · rw [← Option.some.inj hr]
  cases hlook : s.lookup name ext parent with
  | some i =>
    rw [hlook] at hr
    rw [← Option.some.inj hr]
    exact rewrite_balance (lookup_lt hlook) data
  | none =>
    rw [hlook] at hr
    cases hc : s.create name ext parent with
    | none =>
      rw [hc] at hr
      cases hr
    | some q =>
      obtain ⟨idx, s'⟩ := q
      have hsame := create_balance name ext parent _ hc
      rw [hc] at hr
      dsimp only at hr
      split at hr
      · rw [← Option.some.inj hr]
        exact hsame
      · rw [← Option.some.inj hr, rewrite_balance (create_index hc) data]
        exact hsame

/-- What a call loses is what is missing afterwards. -/
theorem call_balance (o : Request) :
    ∀ r, s.call o = some r → r.2.clusters + s.lostBy o = s.clusters := by
  intro r hr
  cases o with
  | mkdir name parent =>
    rw [← Option.some.inj hr]
    exact mkdir_balance name parent
  | rmdir idx =>
    rw [← Option.some.inj hr]
    exact rmdir_balance idx
  | createFile name ext parent =>
    obtain ⟨r', hr', rfl⟩ := Option.map_eq_some_iff.mp hr
    exact create_balance name ext parent r' hr'
  | removeEntry idx =>
    rw [← Option.some.inj hr]
    exact remove_balance idx
  | writeFileInDir name ext parent data =>
    obtain ⟨r', hr', rfl⟩ := Option.map_eq_some_iff.mp hr
    exact write_balance name ext parent data r' hr'
  | findInDir _ _ _ | getAllInDir _ _ | readFileInDir _ _ _ _ =>
    rw [← Option.some.inj hr]
    rfl

theorem init_clusters : init.clusters = fatEntries - 2 := by
  have hzero : init.taken = 0 := by
    rw [taken_eq]
    refine Finset.sum_eq_zero fun i _ => ?_
    unfold costAt init
    by_cases hi : i = fsRootIdx
    · simp only [hi, Function.update_self]
      rfl
    · simp only [Function.update_of_ne hi]
      rfl
  rw [clusters, hzero, init, Nat.add_zero]

end Store

/-! ## The account of the disk -/

/-- The clusters that a call of the file system loses. -/
def lostBy (fs : FS) (o : Request) : Nat := (storeOf fs).lostBy o

theorem clusters_balance (fs : FS) (o : Request) (r : Answer × FS) (h : StoreInv fs)
    (hcall : FS.call fs o = some r) :
    (storeOf r.2).clusters + lostBy fs o = (storeOf fs).clusters := by
  have hsame := refines_store.same fs o h
  rw [hcall, Option.map_some] at hsame
  exact Store.call_balance o _ hsame.symm

section

variable {disk : Mem} {calls : List Request} {as : List Answer} {fs : FS}

theorem clusters_of_play (h : play FS.call (fsInit disk) calls = some (as, fs)) :
    (storeOf fs).clusters + tally FS.call lostBy (fsInit disk) calls = fatEntries - 2 := by
  have hbalance := tally_balance (fun fs => (storeOf fs).clusters)
    refines_store.keeps (fun fs o r hs => clusters_balance fs o r hs) h (storeInv_fsInit disk)
  rwa [storeOf_fsInit, Store.init_clusters] at hbalance

/-- An entry costs the clusters of its chain. -/
theorem StoreInv.costAt_eq {i : Nat} (h : StoreInv fs) (hu : Used fs i) :
    ((fs.entries i).firstCluster = 0 ∧ (storeOf fs).costAt i = 0) ∨
      ∃ l, Chain fs.fat (fs.entries i).firstCluster l ∧ (storeOf fs).costAt i = l.length := by
  rw [Store.costAt_eq (nodeAt_used hu)]
  rcases h.backed i hu with ⟨h0, -, -⟩ | hs
  · exact .inl ⟨h0, by simp [Node.cost, nodeOf, h0]⟩
  · obtain ⟨l, hl, -⟩ := id hs
    exact .inr ⟨l, hl, hs.cost_eq hl⟩

/-- The account of the disk. After any run of calls by name and index, whatever their
arguments, the free clusters, the chains of the entries in use and the clusters lost on
the way are together the whole data area; and lost are exactly the chains of those
directories that had been written to and were removed, by `fs_rmdir` or `fs_remove_entry`. -/
theorem disk_balance (h : play FS.call (fsInit disk) calls = some (as, fs)) :
    freeClusters fs.fat + (storeOf fs).taken + tally FS.call lostBy (fsInit disk) calls =
        fatEntries - 2 ∧
      (storeOf fs).taken = ∑ i ∈ Finset.range fsMaxEntries, (storeOf fs).costAt i ∧
      ∀ i, Used fs i →
        ((fs.entries i).firstCluster = 0 ∧ (storeOf fs).costAt i = 0) ∨
        ∃ l, Chain fs.fat (fs.entries i).firstCluster l ∧ (storeOf fs).costAt i = l.length := by
  have hinv := play_invariant refines_store.keeps h (storeInv_fsInit disk)
  have hsum := clusters_of_play h
  have hfree : (storeOf fs).free = freeClusters fs.fat := rfl
  rw [Store.clusters, hfree] at hsum
  exact ⟨hsum, Store.taken_eq _, fun i hu => hinv.costAt_eq hu⟩

/-- The directory `a`, one byte written under its name, and its removal: one cluster is
lost. -/
def loseOne : List Request :=
  [.mkdir (some nameA) fsRootIdx,
    .writeFileInDir (some nameA) (some CStr.empty) fsRootIdx [1],
    .rmdir 1]

theorem disk_balance_loseOne : ∃ as fs, play FS.call (fsInit fun _ => 0) loseOne = some (as, fs) ∧
    tally FS.call lostBy (fsInit fun _ => 0) loseOne = 1 ∧
    freeClusters fs.fat + (storeOf fs).taken = fatEntries - 3 := by
  have hsome : (play FS.call (fsInit fun _ => 0) loseOne).isSome = true := by decide +kernel
  have hlost : tally FS.call lostBy (fsInit fun _ => 0) loseOne = 1 := by decide +kernel
  obtain ⟨⟨as, fs⟩, hplay⟩ := Option.isSome_iff_exists.mp hsome
  have hbalance := (disk_balance hplay).1
  rw [hlost] at hbalance
  exact ⟨as, fs, hplay, hlost, by omega⟩

end

end KernelC.Fat16
