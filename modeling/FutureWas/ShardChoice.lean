import FutureWas.Collections.RunningSums
import FutureWas.Model.ShardPool
import Mathlib.Data.Set.Card

/-!
# The choice of a shard

As long as the positive weights sum to less than `2 ^ 63`, the pool holds their running sums
(`Registered`), so the draws below the total weight are divided among the ids by weight.
-/

set_option autoImplicit false

namespace FutureWas.Database

open Collections

/-! ## What the calls leave -/

/-- The registry that calls leave behind after `CloseAll`. -/
structure Registered (calls : List Registration) (s : Registry) : Prop where
  pool : s.shardPool.map (fun e => (e.id, e.cumWeight.toInt))
    = (runningSums 0 (positiveWeights calls)).map fun e => (e.1, (e.2 : ℤ))
  total : s.totalWeight.toInt = totalWeight (positiveWeights calls)
  shard : ∀ id, (s.getShard id).isSome ↔ id ∈ calls.map Registration.shardID

theorem weight_pos_iff (w : Int64) : w > 0 ↔ 0 < w.toInt := Int64.lt_iff_toInt_lt

theorem positiveWeights_pos (calls : List Registration) :
    ∀ e ∈ positiveWeights calls, 0 < e.2 := by
  intro e he
  obtain ⟨c, hc, rfl⟩ := List.mem_map.mp he
  have hpos : 0 < c.weight.toInt := (weight_pos_iff _).mp (by simpa using (List.mem_filter.mp hc).2)
  exact Int.pos_iff_toNat_pos.mp hpos

theorem mem_positiveWeights {calls : List Registration} {id : Int8}
    (h : id ∈ (positiveWeights calls).map Prod.fst) : id ∈ calls.map Registration.shardID := by
  obtain ⟨e, he, rfl⟩ := List.mem_map.mp h
  obtain ⟨c, hc, rfl⟩ := List.mem_map.mp he
  exact List.mem_map_of_mem (List.mem_filter.mp hc).1

theorem totalWeight_eq_zero_iff (calls : List Registration) :
    totalWeight (positiveWeights calls) = 0 ↔ ∀ c ∈ calls, c.weight ≤ 0 := by
  rw [totalWeight_eq_zero (positiveWeights_pos calls), positiveWeights, List.map_eq_nil_iff,
    List.filter_eq_nil_iff]
  apply forall₂_congr
  intro c _
  rw [decide_eq_true_iff, gt_iff_lt, Int64.not_lt]

theorem positiveWeights_append (calls more : List Registration) :
    positiveWeights (calls ++ more) = positiveWeights calls ++ positiveWeights more := by
  unfold positiveWeights
  rw [List.filter_append, List.map_append]

theorem positiveWeights_of_pos {c : Registration} (h : c.weight > 0) :
    positiveWeights [c] = [(c.shardID, c.weight.toInt.toNat)] := by
  unfold positiveWeights
  rw [List.filter_cons_of_pos (by simpa using h), List.filter_nil, List.map_singleton]

theorem positiveWeights_of_not_pos {c : Registration} (h : ¬ c.weight > 0) :
    positiveWeights [c] = [] := by
  unfold positiveWeights
  rw [List.filter_cons_of_neg (by rwa [decide_eq_true_iff]), List.filter_nil, List.map_nil]

/-! ## One call -/

theorem lookup_registerShard (s : Registry) (shardID id : Int8) (db : DbId) (weight : Int64) :
    ((s.registerShard shardID db weight).getShard id).isSome
      ↔ id = shardID ∨ (s.getShard id).isSome := by
  have hmap : (s.registerShard shardID db weight).shardMap = s.shardMap.insert shardID db := by
    unfold Registry.registerShard
    split <;> rfl
  unfold Registry.getShard
  rw [hmap]
  by_cases h : id = shardID
  · rw [h, AList.lookup_insert]
    simp
  · rw [AList.lookup_insert_ne h]
    simp [h]

theorem Registered.step {calls : List Registration} {s : Registry} (h : Registered calls s)
    (c : Registration) (hsum : totalWeight (positiveWeights (calls ++ [c])) < 2 ^ 63) :
    Registered (calls ++ [c]) (s.registerShard c.shardID c.db c.weight) := by
  have hshard : ∀ id, ((s.registerShard c.shardID c.db c.weight).getShard id).isSome
      ↔ id ∈ (calls ++ [c]).map Registration.shardID := by
    intro id
    rw [lookup_registerShard, h.shard, List.map_append, List.mem_append, List.map_singleton,
      List.mem_singleton, or_comm]
  rw [positiveWeights_append] at hsum
  unfold Registry.registerShard at hshard ⊢
  by_cases hw : c.weight > 0
  · have hnat : (c.weight.toInt.toNat : ℤ) = c.weight.toInt :=
      Int.toNat_of_nonneg (le_of_lt ((weight_pos_iff _).mp hw))
    rw [positiveWeights_of_pos hw, totalWeight_append, totalWeight_cons, totalWeight_nil] at hsum
    -- the sum fits into a word, so it does not wrap
    have htotal : (s.totalWeight + c.weight).toInt
        = totalWeight (positiveWeights calls) + c.weight.toInt := by
      rw [Int64.toInt_add, h.total]
      apply Int.bmod_eq_of_le <;> omega
    simp only [if_pos hw] at hshard ⊢
    refine ⟨?_, ?_, hshard⟩
    · rw [positiveWeights_append, positiveWeights_of_pos hw, runningSums_append, List.map_append,
        List.map_append, h.pool]
      simp only [runningSums, List.map_nil, List.map_cons, htotal, Nat.zero_add, Int.natCast_add,
        hnat]
    · rw [positiveWeights_append, positiveWeights_of_pos hw, totalWeight_append, htotal,
        totalWeight_cons, totalWeight_nil, Nat.add_zero, Int.natCast_add, hnat]
  · simp only [if_neg hw] at hshard ⊢
    refine ⟨?_, ?_, hshard⟩
    · rw [positiveWeights_append, positiveWeights_of_not_pos hw, List.append_nil]
      exact h.pool
    · rw [positiveWeights_append, positiveWeights_of_not_pos hw, List.append_nil]
      exact h.total

/-! ## All calls -/

theorem erase_keys (m : AList fun _ : Int8 => DbId) (ids : List Int8) (id : Int8) :
    (ids.foldl (fun m id => m.erase id) m).lookup id
      = if id ∈ ids then none else m.lookup id := by
  induction ids generalizing m with
  | nil => rfl
  | cons first ids ih =>
    rw [List.foldl_cons, ih]
    by_cases hid : id = first
    · rw [hid, AList.lookup_erase]
      simp
    · rw [AList.lookup_erase_ne hid]
      simp [hid]

theorem registered_closeAll (s : Registry) : Registered [] s.closeAll := by
  refine ⟨rfl, rfl, ?_⟩
  intro id
  have hnone : s.closeAll.getShard id = none := by
    unfold Registry.getShard Registry.closeAll
    rw [erase_keys]
    split
    · rfl
    · next h => exact AList.lookup_eq_none.mpr h
  rw [hnone]
  simp

theorem positiveWeights_append_le (calls more : List Registration) :
    totalWeight (positiveWeights calls) ≤ totalWeight (positiveWeights (calls ++ more)) := by
  rw [positiveWeights_append, totalWeight_append]
  exact Nat.le_add_right _ _

theorem registerAll_append (s : Registry) (calls more : List Registration) :
    s.registerAll (calls ++ more) = (s.registerAll calls).registerAll more :=
  List.foldl_append

theorem registered_registerAll (s : Registry) (calls : List Registration)
    (hsum : totalWeight (positiveWeights calls) < 2 ^ 63) :
    Registered calls (s.closeAll.registerAll calls) := by
  induction calls using List.reverseRecOn with
  | nil => exact registered_closeAll s
  | append_singleton calls c ih =>
    have hle := positiveWeights_append_le calls [c]
    rw [registerAll_append]
    exact (ih (Nat.lt_of_le_of_lt hle hsum)).step c hsum

/-! ## The draw -/

section

variable {calls : List Registration} {s : Registry}

theorem Registered.totalWeight_eq_zero (h : Registered calls s) :
    s.totalWeight = 0 ↔ ∀ c ∈ calls, c.weight ≤ 0 := by
  rw [← totalWeight_eq_zero_iff, ← Int64.toInt_inj, h.total, Int64.toInt_zero, Int.natCast_eq_zero]

theorem Registered.find (h : Registered calls s) {r : Int64} (hr : 0 ≤ r) :
    (s.shardPool.find? fun e => r < e.cumWeight).map PoolEntry.id
      = firstAbove (runningSums 0 (positiveWeights calls)) r.toInt.toNat := by
  have hnat : (r.toInt.toNat : ℤ) = r.toInt := Int.toNat_of_nonneg (Int64.le_iff_toInt_le.mp hr)
  have hfind := congrArg (List.find? fun e => decide (r.toInt < e.2)) h.pool
  rw [List.find?_map, List.find?_map] at hfind
  have hids := congrArg (Option.map Prod.fst) hfind
  rw [Option.map_map, Option.map_map] at hids
  have hmachine : (fun e : PoolEntry => decide (r < e.cumWeight))
      = (fun e => decide (r.toInt < e.2)) ∘ fun e : PoolEntry => (e.id, e.cumWeight.toInt) := by
    funext e
    exact decide_eq_decide.mpr Int64.lt_iff_toInt_lt
  have hsums : (fun e : Int8 × ℕ => decide (r.toInt.toNat < e.2))
      = (fun e => decide (r.toInt < e.2)) ∘ fun e : Int8 × ℕ => (e.1, (e.2 : ℤ)) := by
    funext e
    apply decide_eq_decide.mpr
    show r.toInt.toNat < e.2 ↔ r.toInt < (e.2 : ℤ)
    omega
  rw [firstAbove, hmachine, hsums]
  exact hids

theorem Registered.word (h : Registered calls s) {n : ℕ}
    (hn : n < totalWeight (positiveWeights calls)) :
    (Int64.ofNat n).toInt = n ∧ 0 ≤ Int64.ofNat n ∧ Int64.ofNat n < s.totalWeight := by
  have hword := s.totalWeight.toInt_lt
  rw [h.total] at hword
  have hread : (Int64.ofNat n).toInt = n := Int64.toInt_ofNat_of_lt (by omega)
  refine ⟨hread, ?_, ?_⟩
  · rw [Int64.le_iff_toInt_le, hread, Int64.toInt_zero]
    exact Int.natCast_nonneg n
  · rw [Int64.lt_iff_toInt_lt, hread, h.total]
    exact Int.ofNat_lt.mpr hn

theorem Registered.pick (h : Registered calls s) {r : Int64} (hr : 0 ≤ r)
    (hlt : r < s.totalWeight) :
    ∃ id, firstAbove (runningSums 0 (positiveWeights calls)) r.toInt.toNat = some id ∧
      s.pickShard r = .matched id := by
  have hnonneg := Int64.le_iff_toInt_le.mp hr
  have hbound := Int64.lt_iff_toInt_lt.mp hlt
  rw [h.total] at hbound
  rw [Int64.toInt_zero] at hnonneg
  have hsome : (firstAbove (runningSums 0 (positiveWeights calls)) r.toInt.toNat).isSome :=
    firstAbove_isSome (by omega) (Nat.zero_le _)
  obtain ⟨id, hid⟩ := Option.isSome_iff_exists.mp hsome
  refine ⟨id, hid, ?_⟩
  rw [← h.find hr, Option.map_eq_some_iff] at hid
  obtain ⟨e, he, rfl⟩ := hid
  have hpositive : s.totalWeight ≠ 0 := by
    intro hzero
    rw [← h.total, hzero, Int64.toInt_zero] at hbound
    omega
  unfold Registry.pickShard
  rw [if_neg hpositive, he]

theorem Registered.pick_eq_matched_iff (h : Registered calls s) {r : Int64} (hr : 0 ≤ r)
    (hlt : r < s.totalWeight) (id : Int8) :
    s.pickShard r = .matched id
      ↔ firstAbove (runningSums 0 (positiveWeights calls)) r.toInt.toNat = some id := by
  obtain ⟨found, hfound, hpick⟩ := h.pick hr hlt
  rw [hfound, hpick, Picked.matched.injEq, Option.some.injEq]

theorem Registered.refused_iff (h : Registered calls s) (r : Int64) :
    s.pickShard r = .noShardAvailable ↔ ∀ c ∈ calls, c.weight ≤ 0 := by
  rw [← h.totalWeight_eq_zero]
  unfold Registry.pickShard
  constructor
  · intro hpick
    by_contra hzero
    rw [if_neg hzero] at hpick
    split at hpick
    · cases hpick
    · split at hpick <;> cases hpick
  · intro hzero
    rw [if_pos hzero]

theorem Registered.getShard_isSome (h : Registered calls s) {r : Int64} (hr : 0 ≤ r)
    (hlt : r < s.totalWeight) : ∃ id, s.pickShard r = .matched id ∧ (s.getShard id).isSome := by
  obtain ⟨id, hid, hpick⟩ := h.pick hr hlt
  exact ⟨id, hpick, (h.shard id).mpr (mem_positiveWeights (mem_of_firstAbove hid))⟩

theorem Registered.draws (h : Registered calls s) (id : Int8) :
    {r : Int64 | 0 ≤ r ∧ r < s.totalWeight ∧ s.pickShard r = .matched id}.ncard
      = weightOf (positiveWeights calls) id := by
  have himage : {r : Int64 | 0 ≤ r ∧ r < s.totalWeight ∧ s.pickShard r = .matched id}
      = Int64.ofNat '' ((Finset.Ico 0 (0 + totalWeight (positiveWeights calls))).filter fun n =>
        firstAbove (runningSums 0 (positiveWeights calls)) n = some id : Finset ℕ) := by
    ext r
    simp only [Set.mem_ofPred_eq, Set.mem_image, Finset.coe_filter, Finset.mem_Ico]
    constructor
    · rintro ⟨hr, hlt, hpick⟩
      have hnonneg := Int64.le_iff_toInt_le.mp hr
      have hbound := Int64.lt_iff_toInt_lt.mp hlt
      rw [h.total] at hbound
      rw [Int64.toInt_zero] at hnonneg
      refine ⟨r.toInt.toNat, ⟨⟨Nat.zero_le _, by omega⟩,
        (h.pick_eq_matched_iff hr hlt id).mp hpick⟩, ?_⟩
      rw [← Int64.toInt_inj, (h.word (by omega)).1]
      exact Int.toNat_of_nonneg hnonneg
    · rintro ⟨n, ⟨⟨-, hn⟩, hfirst⟩, rfl⟩
      rw [Nat.zero_add] at hn
      obtain ⟨hread, hr, hlt⟩ := h.word hn
      refine ⟨hr, hlt, (h.pick_eq_matched_iff hr hlt id).mpr ?_⟩
      rwa [hread, Int.toNat_natCast]
  have hinjective : Set.InjOn Int64.ofNat ((Finset.Ico 0
      (0 + totalWeight (positiveWeights calls))).filter fun n =>
        firstAbove (runningSums 0 (positiveWeights calls)) n = some id : Finset ℕ) := by
    intro n hn m hm heq
    simp only [Finset.coe_filter, Finset.mem_Ico, Set.mem_ofPred_eq, Nat.zero_add] at hn hm
    have hints := congrArg Int64.toInt heq
    rw [(h.word hn.1.2).1, (h.word hm.1.2).1] at hints
    exact Int.ofNat_inj.mp hints
  rw [himage, Set.InjOn.ncard_image hinjective, Set.ncard_coe_finset, card_firstAbove]

theorem Registered.increasing (h : Registered calls s) :
    (s.shardPool.map PoolEntry.cumWeight).Pairwise (· < ·) := by
  have hsums := runningSums_increasing (b := 0) (positiveWeights_pos calls)
  have hints : s.shardPool.map (fun e => e.cumWeight.toInt)
      = ((runningSums 0 (positiveWeights calls)).map Prod.snd).map Nat.cast := by
    have hpool := congrArg (List.map Prod.snd) h.pool
    rw [List.map_map, List.map_map] at hpool
    rw [List.map_map]
    exact hpool
  have hpairwise : (s.shardPool.map fun e => e.cumWeight.toInt).Pairwise (· < ·) := by
    rw [hints, List.pairwise_map]
    exact hsums.imp Int.ofNat_lt.mpr
  rw [List.pairwise_map] at hpairwise ⊢
  exact hpairwise.imp Int64.lt_iff_toInt_lt.mpr

theorem Registered.ends_in_total (h : Registered calls s) :
    ((s.shardPool.map PoolEntry.cumWeight).getLast?).getD 0 = s.totalWeight := by
  have hlast := getLast?_runningSums 0 (positiveWeights calls)
  have hpool := congrArg (fun l => (l.map Prod.snd).getLast?) h.pool
  simp only [List.map_map, List.getLast?_map] at hpool hlast ⊢
  rw [← Int64.toInt_inj, h.total, ← Nat.zero_add (totalWeight _), ← hlast]
  cases hs : s.shardPool.getLast? with
  | none =>
    rw [hs] at hpool
    cases hsums : (runningSums 0 (positiveWeights calls)).getLast? with
    | none => rfl
    | some e =>
      rw [hsums] at hpool
      cases hpool
  | some p =>
    rw [hs] at hpool
    cases hsums : (runningSums 0 (positiveWeights calls)).getLast? with
    | none =>
      rw [hsums] at hpool
      cases hpool
    | some e =>
      rw [hsums] at hpool
      exact Option.some.inj hpool

end

/-! ## The registry of a request -/

theorem Registered.shards_step {calls : List Registration} {s : Registry} (h : Registered calls s)
    (c : Registration) (hsum : totalWeight (positiveWeights (calls ++ [c])) < 2 ^ 63) :
    (s.registerShard c.shardID c.db c.weight).shards
      = s.shards.registerShard c.shardID c.db c.weight.toInt := by
  have hafter := (h.step c hsum).total
  unfold Registry.registerShard at hafter ⊢
  unfold Shards.registerShard
  by_cases hw : c.weight > 0
  · have hpos : c.weight.toInt > 0 := (weight_pos_iff _).mp hw
    simp only [if_pos hw] at hafter
    rw [positiveWeights_append, positiveWeights_of_pos hw, totalWeight_append, totalWeight_cons,
      totalWeight_nil, Nat.add_zero, Int.natCast_add, ← h.total,
      Int.toNat_of_nonneg (le_of_lt hpos)] at hafter
    simp only [if_pos hw, if_pos hpos, Registry.shards, List.map_append, List.map_singleton,
      hafter]
  · have hneg : ¬ c.weight.toInt > 0 := fun hpos => hw ((weight_pos_iff _).mpr hpos)
    simp only [if_neg hw, if_neg hneg, Registry.shards]

theorem registerAll_shards (s : Registry) (calls : List Registration)
    (hsum : totalWeight (positiveWeights calls) < 2 ^ 63) :
    (s.closeAll.registerAll calls).shards = calls.foldl
      (fun s c => s.registerShard c.shardID c.db c.weight.toInt) s.closeAll.shards := by
  induction calls using List.reverseRecOn with
  | nil => rfl
  | append_singleton calls c ih =>
    have hle := positiveWeights_append_le calls [c]
    have hbefore := Nat.lt_of_le_of_lt hle hsum
    rw [List.foldl_append, ← ih hbefore, registerAll_append]
    exact (registered_registerAll s calls hbefore).shards_step c hsum

/-- A request that draws a shard is answered as `PickShard` answers the draw. -/
theorem Registered.pickShard_runs {calls : List Registration} {s : Registry}
    (h : Registered calls s) {c : Container} (hc : c.shards = s.shards)
    (hpos : s.totalWeight ≠ 0) (u : UnitOfWork) :
    ∃ k : ℕ → Call UnitOfWork (Except GoError Int8 × UnitOfWork),
      Uow.pickShard c u = .call (.intN (totalWeight (positiveWeights calls))) k ∧
      ∀ n < totalWeight (positiveWeights calls), ∃ id,
        k n = .ret (.ok id, u) ∧ s.pickShard (Int64.ofNat n) = .matched id := by
  have htotal : c.shards.totalWeight = totalWeight (positiveWeights calls) := by
    rw [hc, ← h.total]
    rfl
  have hzero : c.shards.totalWeight ≠ 0 := by
    rw [hc]
    exact fun heq => hpos (Int64.toInt_inj.mp heq)
  unfold Uow.pickShard
  rw [if_neg hzero, htotal, Int.toNat_natCast]
  refine ⟨_, rfl, ?_⟩
  intro n hn
  obtain ⟨hread, hr, hlt⟩ := h.word hn
  obtain ⟨id, hid, hpick⟩ := h.pick hr hlt
  refine ⟨id, ?_, hpick⟩
  rw [← h.find hr, Option.map_eq_some_iff] at hid
  obtain ⟨e, he, rfl⟩ := hid
  have hfind : c.shards.shardPool.find? (fun e => (n : ℤ) < e.cumWeight)
      = some ⟨e.id, e.cumWeight.toInt⟩ := by
    rw [hc, Registry.shards, List.find?_map]
    have hmachine : (fun e : WeightedShard => decide ((n : ℤ) < e.cumWeight)) ∘
        (fun e : PoolEntry => (⟨e.id, e.cumWeight.toInt⟩ : WeightedShard))
        = fun e => decide (Int64.ofNat n < e.cumWeight) := by
      funext e
      apply decide_eq_decide.mpr
      rw [Int64.lt_iff_toInt_lt, hread]
    rw [hmachine, he]
    rfl
  dsimp only [Effect.Prog.bind]
  rw [hfind]
  rfl

theorem pickShard_exact (s : Registry) (calls : List Registration)
    (hsum : totalWeight (positiveWeights calls) < 2 ^ 63) :
    let after := s.closeAll.registerAll calls
    (after.shardPool.map PoolEntry.cumWeight).Pairwise (· < ·) ∧
    ((after.shardPool.map PoolEntry.cumWeight).getLast?).getD 0 = after.totalWeight ∧
    (∀ r, after.pickShard r = .noShardAvailable ↔ ∀ c ∈ calls, c.weight ≤ 0) ∧
    (∀ r, 0 ≤ r → r < after.totalWeight →
      ∃ id, after.pickShard r = .matched id ∧ (after.getShard id).isSome) ∧
    ∀ id, {r : Int64 | 0 ≤ r ∧ r < after.totalWeight ∧ after.pickShard r = .matched id}.ncard
      = weightOf (positiveWeights calls) id := by
  have h := registered_registerAll s calls hsum
  exact ⟨h.increasing, h.ends_in_total, h.refused_iff,
    fun r hr hlt => h.getShard_isSome hr hlt, h.draws⟩

theorem pickShard_four_calls :
    totalWeight (positiveWeights [⟨10, 1, 3⟩, ⟨11, 2, 0⟩, ⟨12, 3, -4⟩, ⟨10, 1, 2⟩]) < 2 ^ 63 ∧
    {r : Int64 | 0 ≤ r ∧ r < 5 ∧ (Registry.registerAll (Registry.closeAll ⟨∅, [], 0⟩)
      [⟨10, 1, 3⟩, ⟨11, 2, 0⟩, ⟨12, 3, -4⟩, ⟨10, 1, 2⟩]).pickShard r = .matched 10}.ncard = 5 := by
  refine ⟨by decide, ?_⟩
  have h := pickShard_exact ⟨∅, [], 0⟩ [⟨10, 1, 3⟩, ⟨11, 2, 0⟩, ⟨12, 3, -4⟩, ⟨10, 1, 2⟩] (by decide)
  exact h.2.2.2.2 10

end FutureWas.Database
