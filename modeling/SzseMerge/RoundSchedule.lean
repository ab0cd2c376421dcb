import SzseMerge.MultiPass

/-!
# The rounds' schedule

Apart from what the files hold, what `multi_pass_merge` does is fixed by the
number of paths and the handle budget `B`: which batches each round hands to
`merge_batch`, and which paths it passes on. `pathsAt` and `schedule` compute
both as plain lists. The loop makes exactly the calls of `schedule`, in order,
and stops after the least `r` rounds with `n ≤ B ^ r`; after `i` rounds
`⌈n / B ^ i⌉` paths are left. Every call gets between two and `B` paths, and
`merge_batch` opens one handle per path it gets, so no more than `B` input
handles are open at once.
-/

set_option autoImplicit false

namespace SzseMerge.MultiPass
open SzseMerge.FileSystem SzseMerge.MergeBatch

/-- The paths a round hands on when its calls return: the path of each numbered batch. -/
def nextPaths (out : String) (B r : Nat) (ps : List String) : List String :=
  (slices B ps).enum.map (nextPath out r)

/-- The `merge_batch` calls of round `r`: every numbered batch other than a single path, with
the temporary file it writes. -/
def roundCalls (out : String) (B r : Nat) (ps : List String) : List (List String × String) :=
  ((slices B ps).enum.filter fun y => y.2.length ≠ 1).map fun y => (y.2, tmpPath out r y.1)

/-- The paths before round `i`, when every call returns. -/
def pathsAt (out : String) (B : Nat) (inputs : List String) : Nat → List String
  | 0 => inputs
  | i + 1 => nextPaths out B i (pathsAt out B inputs i)

/-- The calls of rounds `k` to `j - 1`, in order. -/
def schedule (out : String) (B : Nat) (inputs : List String) (k j : Nat) :
    List (List String × String) :=
  (List.range' k (j - k)).flatMap fun i => roundCalls out B i (pathsAt out B inputs i)

/-- `merge_batch(batch, path)` for each call in turn. -/
def runCalls (calls : List (List String × String)) : Py Unit :=
  calls.forM fun c => mergeBatch c.1 c.2

theorem runCalls_append (a b : List (List String × String)) :
    runCalls (a ++ b) = (do runCalls a; runCalls b) :=
  List.forM_append a b _

/-! ## One round -/

theorem mergeBatches_eq (out : String) (r : Nat) : ∀ ys : List (Nat × List String),
    mergeBatches out r ys =
      (do runCalls ((ys.filter fun y => y.2.length ≠ 1).map fun y => (y.2, tmpPath out r y.1))
          pure (ys.map (nextPath out r)))
  | [] => by simp [mergeBatches, runCalls]
  | (b, x) :: rest => by
    by_cases hx : ∃ p, x = [p]
    · obtain ⟨p, rfl⟩ := hx
      simp [mergeBatches.eq_2, mergeBatches_eq out r rest, nextPath]
    · have hx' : ∀ p, x = [p] → False := fun p h => hx ⟨p, h⟩
      have hl : x.length ≠ 1 := fun h => hx (List.length_eq_one.mp h)
      simp [mergeBatches.eq_3 _ _ _ _ _ hx', mergeBatches_eq out r rest, runCalls,
        List.filter_cons, hl, nextPath_merged hx']

theorem mergeRound_eq {maxOpen : Int} (hB : 0 < maxOpen) (out : String) (r : Nat)
    (ps : List String) :
    mergeRound out maxOpen r ps =
      (do runCalls (roundCalls out maxOpen.toNat r ps); pure (nextPaths out maxOpen.toNat r ps)) := by
  rw [mergeRound, if_neg (by omega), mergeBatches_eq]
  rfl

theorem length_nextPaths (out : String) (B r : Nat) (ps : List String) :
    (nextPaths out B r ps).length = (ps.length + B - 1) / B := by
  simp [nextPaths, length_slices]

theorem mem_roundCalls {out : String} {B r : Nat} (hB : 0 < B) {ps : List String}
    {c : List String × String} (h : c ∈ roundCalls out B r ps) : 2 ≤ c.1.length ∧ c.1.length ≤ B := by
  obtain ⟨y, hy, rfl⟩ := List.mem_map.mp h
  obtain ⟨hy, h1⟩ := List.mem_filter.mp hy
  obtain ⟨hne, hle⟩ := mem_slices hB (List.snd_mem_of_mem_enum hy)
  have h0 : y.2.length ≠ 0 := fun h => hne (List.length_eq_zero.mp h)
  have h1 : y.2.length ≠ 1 := of_decide_eq_true h1
  exact ⟨show 2 ≤ y.2.length by omega, hle⟩

/-! ## How many paths each round leaves -/

theorem ceilDiv_ceilDiv (n : Nat) {a b : Nat} (ha : 0 < a) (hb : 0 < b) :
    ((n + a - 1) / a + b - 1) / b = (n + a * b - 1) / (a * b) := by
  have h : (n + a - 1) / a + b - 1 = (n + a - 1 + (b - 1) * a) / a := by
    rw [Nat.add_mul_div_right _ _ ha, Nat.add_sub_assoc hb]
  have e1 : (b - 1) * a = a * b - a := by rw [Nat.sub_one_mul, Nat.mul_comm]
  have e2 : a ≤ a * b := Nat.le_mul_of_pos_right a hb
  rw [h, Nat.div_div_eq_div_mul]
  congr 1
  omega

theorem ceilDiv_le_one {n a : Nat} (ha : 0 < a) : (n + a - 1) / a ≤ 1 ↔ n ≤ a := by
  rw [← Nat.lt_succ_iff, Nat.div_lt_iff_lt_mul ha]
  omega

section Paths
variable {out : String} {B : Nat} {inputs : List String}

theorem length_pathsAt (hB : 0 < B) :
    ∀ i, (pathsAt out B inputs i).length = (inputs.length + B ^ i - 1) / B ^ i
  | 0 => by simp [pathsAt]
  | i + 1 => by
    rw [pathsAt, length_nextPaths, length_pathsAt hB i,
      ceilDiv_ceilDiv _ (Nat.pow_pos hB) hB, Nat.pow_succ]

theorem length_pathsAt_le_one (hB : 0 < B) {r : Nat} (hr : inputs.length ≤ B ^ r)
    (hleast : ∀ i < r, B ^ i < inputs.length) (i : Nat) :
    (pathsAt out B inputs i).length ≤ 1 ↔ r ≤ i := by
  rw [length_pathsAt hB, ceilDiv_le_one (Nat.pow_pos hB)]
  constructor
  · intro h
    by_contra hi
    exact absurd h (Nat.not_le.mpr (hleast i (Nat.lt_of_not_le hi)))
  · exact fun h => hr.trans (Nat.pow_le_pow_right hB h)

theorem schedule_self (k : Nat) : schedule out B inputs k k = [] := by
  simp [schedule]

theorem schedule_succ {k j : Nat} (h : k < j) :
    schedule out B inputs k j = roundCalls out B k (pathsAt out B inputs k) ++ schedule out B inputs (k + 1) j := by
  rw [schedule, schedule, show j - k = j - (k + 1) + 1 by omega, List.range'_succ, List.flatMap_cons]

theorem mem_schedule (hB : 0 < B) {k j : Nat} {c : List String × String}
    (h : c ∈ schedule out B inputs k j) : 2 ≤ c.1.length ∧ c.1.length ≤ B := by
  obtain ⟨i, -, hc⟩ := List.mem_flatMap.mp h
  exact mem_roundCalls hB hc

theorem batches_perm (out : String) (r : Nat) : ∀ ys : List (Nat × List String),
    ((ys.map Prod.snd).flatten ++
        (ys.filter fun y => y.2.length ≠ 1).map fun y => tmpPath out r y.1).Perm
      (((ys.filter fun y => y.2.length ≠ 1).map Prod.snd).flatten ++ ys.map (nextPath out r))
  | [] => .refl _
  | (b, x) :: ys => by
    have ih := batches_perm out r ys
    by_cases hx : ∃ p, x = [p]
    · obtain ⟨p, rfl⟩ := hx
      simp only [List.map_cons, List.flatten_cons, List.filter_cons, List.length_singleton,
        ne_eq, not_true_eq_false, decide_False, Bool.false_eq_true, if_false, List.singleton_append]
      exact (ih.cons p).trans List.perm_middle.symm
    · have hl : x.length ≠ 1 := fun h => hx (List.length_eq_one.mp h)
      simp only [List.map_cons, List.flatten_cons, List.filter_cons, hl, ne_eq, not_false_eq_true,
        decide_True, if_true, nextPath_merged fun p h => hx ⟨p, h⟩, List.append_assoc]
      exact (List.perm_middle.trans ((ih.cons _).trans List.perm_middle.symm)).append_left x

theorem roundCalls_perm (hB : 0 < B) (r : Nat) (ps : List String) :
    (ps ++ (roundCalls out B r ps).map Prod.snd).Perm
      ((roundCalls out B r ps).flatMap Prod.fst ++ nextPaths out B r ps) := by
  have h := batches_perm out r (slices B ps).enum
  rw [List.enum_map_snd, flatten_slices hB] at h
  simpa only [roundCalls, nextPaths, List.flatMap_def, List.map_map, Function.comp_def] using h

theorem schedule_perm (hB : 0 < B) : ∀ (d k : Nat),
    (pathsAt out B inputs k ++ (schedule out B inputs k (k + d)).map Prod.snd).Perm
      ((schedule out B inputs k (k + d)).flatMap Prod.fst ++ pathsAt out B inputs (k + d))
  | 0, k => by simp [schedule_self]
  | d + 1, k => by
    have ih := schedule_perm hB d (k + 1)
    rw [Nat.add_right_comm] at ih
    rw [schedule_succ (by omega), ← Nat.add_assoc, List.map_append, List.flatMap_append]
    set P := pathsAt out B inputs k
    set R := roundCalls out B k P
    set S := schedule out B inputs (k + 1) (k + d + 1)
    calc List.Perm (P ++ (R.map Prod.snd ++ S.map Prod.snd))
          ((P ++ R.map Prod.snd) ++ S.map Prod.snd) := by rw [List.append_assoc]
      List.Perm _ ((R.flatMap Prod.fst ++ pathsAt out B inputs (k + 1)) ++ S.map Prod.snd) :=
          (roundCalls_perm hB k P).append_right _
      List.Perm _ (R.flatMap Prod.fst ++ (S.flatMap Prod.fst ++ pathsAt out B inputs (k + d + 1))) := by
          rw [List.append_assoc]
          exact ih.append_left _
      _ = _ := by rw [List.append_assoc]

theorem exists_rounds (hB : 1 < B) (inputs : List String) :
    ∃ r, r ≤ inputs.length ∧ inputs.length ≤ B ^ r ∧ ∀ i < r, B ^ i < inputs.length :=
  ⟨Nat.clog B inputs.length, (Nat.le_pow_iff_clog_le hB).mp (Nat.lt_pow_self hB _).le,
    Nat.le_pow_clog hB _, fun _ hi => Nat.lt_of_not_le fun h =>
      absurd ((Nat.le_pow_iff_clog_le hB).mp h) (Nat.not_le.mpr hi)⟩

theorem mem_roundCalls_snd {r : Nat} {ps : List String} {q : String}
    (h : q ∈ (roundCalls out B r ps).map Prod.snd) : ∃ b, q = tmpPath out r b := by
  obtain ⟨c, hc, rfl⟩ := List.mem_map.mp h
  obtain ⟨y, -, rfl⟩ := List.mem_map.mp hc
  exact ⟨y.1, rfl⟩

theorem nodup_roundCalls_snd (r : Nat) (ps : List String) :
    ((roundCalls out B r ps).map Prod.snd).Nodup := by
  have h : (((slices B ps).enum.filter fun y => y.2.length ≠ 1).map Prod.fst).Nodup :=
    ((List.filter_sublist _).map Prod.fst).nodup (by rw [List.enum_map_fst]; exact List.nodup_range _)
  simpa only [roundCalls, List.map_map, Function.comp_def] using
    h.map fun a b hab => (tmpPath_inj hab).2

theorem nodup_schedule_snd (k j : Nat) : ((schedule out B inputs k j).map Prod.snd).Nodup := by
  rw [schedule, List.map_flatMap, List.nodup_flatMap]
  refine ⟨fun i _ => nodup_roundCalls_snd i _, (List.nodup_range' k (j - k)).imp fun hij q hi hj => ?_⟩
  obtain ⟨b, rfl⟩ := mem_roundCalls_snd hi
  obtain ⟨b', hb'⟩ := mem_roundCalls_snd hj
  exact hij (tmpPath_inj hb').1

theorem pathsAt_last_tmp (hB : 0 < B) {r : Nat} (hr : inputs.length ≤ B ^ r)
    (hleast : ∀ i < r, B ^ i < inputs.length) (hn : 2 ≤ inputs.length) {p : String}
    (hp : pathsAt out B inputs r = [p]) : ∃ i b, p = tmpPath out i b := by
  have hstop : ∀ i, (pathsAt out B inputs i).length ≤ 1 ↔ r ≤ i := length_pathsAt_le_one hB hr hleast
  cases r with
  | zero =>
    have h1 : inputs.length = 1 := by rw [← List.length_singleton p, ← hp]; rfl
    omega
  | succ i =>
    rw [pathsAt, nextPaths] at hp
    obtain ⟨⟨b, x⟩, l, hy, rfl, hl⟩ := List.map_eq_cons_iff.mp hp
    obtain rfl := List.map_eq_nil_iff.mp hl
    by_cases hx : ∃ q, x = [q]
    · obtain ⟨q, rfl⟩ := hx
      have hs : slices B (pathsAt out B inputs i) = [[q]] := by
        rw [← List.enum_map_snd (slices B _), hy]
        rfl
      have h1 : (pathsAt out B inputs i).length ≤ 1 := by
        rw [← flatten_slices hB (pathsAt out B inputs i), hs]
        simp
      exact absurd ((hstop i).mp h1) (by omega)
    · exact ⟨i, b, nextPath_merged fun q h => hx ⟨q, h⟩⟩

end Paths

/-! ## The loop -/

section Loop
variable {out : String} {maxOpen : Int} {inputs : List String} {r : Nat}

theorem mergeRounds_schedule (hB : 2 ≤ maxOpen) (hr : inputs.length ≤ maxOpen.toNat ^ r)
    (hleast : ∀ i < r, maxOpen.toNat ^ i < inputs.length) :
    ∀ fuel k, k ≤ r → mergeRounds out maxOpen fuel k (pathsAt out maxOpen.toNat inputs k) =
      (do runCalls (schedule out maxOpen.toNat inputs k (min r (k + fuel)))
          pure (if r ≤ k + fuel then some (pathsAt out maxOpen.toNat inputs r) else none)) := by
  have hB0 : 0 < maxOpen.toNat := by omega
  have hstop : ∀ i, (pathsAt out maxOpen.toNat inputs i).length ≤ 1 ↔ r ≤ i :=
    length_pathsAt_le_one hB0 hr hleast
  intro fuel
  induction fuel with
  | zero =>
    intro k hk
    by_cases hrk : r ≤ k
    · obtain rfl : k = r := by omega
      simp [mergeRounds, (hstop k).mpr le_rfl, schedule_self, runCalls]
    · simp [mergeRounds, hstop, hrk, Nat.min_eq_right hk, schedule_self, runCalls]
  | succ fuel ih =>
    intro k hk
    by_cases hrk : r ≤ k
    · obtain rfl : k = r := by omega
      simp [mergeRounds, (hstop k).mpr le_rfl, schedule_self, runCalls]
    · have hlt : k < min r (k + (fuel + 1)) := by omega
      have hnext := ih (k + 1) (by omega)
      rw [show k + 1 + fuel = k + (fuel + 1) by omega] at hnext
      rw [mergeRounds, if_neg (mt (hstop k).mp hrk), mergeRound_eq (by omega), bind_assoc,
        schedule_succ hlt, runCalls_append, bind_assoc]
      simp only [pure_bind]
      exact congrArg _ (funext fun _ => hnext)

theorem pathsAt_single (hB : 0 < maxOpen.toNat) (hn : inputs ≠ [])
    (hr : inputs.length ≤ maxOpen.toNat ^ r) (hleast : ∀ i < r, maxOpen.toNat ^ i < inputs.length) :
    ∃ p, pathsAt out maxOpen.toNat inputs r = [p] := by
  have hle : (pathsAt out maxOpen.toNat inputs r).length ≤ 1 :=
    (length_pathsAt_le_one hB hr hleast r).mpr le_rfl
  have hpos : 0 < inputs.length := List.length_pos.mpr hn
  have : 0 < (inputs.length + maxOpen.toNat ^ r - 1) / maxOpen.toNat ^ r :=
    Nat.div_pos (by omega) (Nat.pow_pos hB)
  rw [length_pathsAt hB] at hle
  exact List.length_eq_one.mp (by rw [length_pathsAt hB]; omega)

theorem multiPassMerge_schedule (hB : 2 ≤ maxOpen) (hr : inputs.length ≤ maxOpen.toNat ^ r)
    (hleast : ∀ i < r, maxOpen.toNat ^ i < inputs.length) {p : String}
    (hp : pathsAt out maxOpen.toNat inputs r = [p]) {fuel : Nat} (hf : r ≤ fuel) :
    multiPassMerge fuel inputs out maxOpen =
      (do runCalls (schedule out maxOpen.toNat inputs 0 r); move p out; pure (some ())) := by
  have h : mergeRounds out maxOpen fuel 0 _ = _ := mergeRounds_schedule hB hr hleast fuel 0 (Nat.zero_le r)
  simp only [Nat.zero_add, Nat.min_eq_left hf, if_pos hf, hp, pathsAt] at h
  simp [multiPassMerge, h]

theorem keeps_runCalls {calls : List (List String × String)} {q : String}
    (hq : q ∉ calls.map Prod.snd) : Keeps (runCalls calls) q :=
  Keeps.forM fun c hc => keeps_mergeBatch c.1 fun he => hq (he ▸ List.mem_map_of_mem _ hc)

theorem multiPassMerge_single (hB : 2 ≤ maxOpen) (p : String) (fuel : Nat) :
    multiPassMerge fuel [p] out maxOpen = (do move p out; pure (some ())) := by
  rw [multiPassMerge_schedule (r := 0) hB (by simp) (by simp) rfl (Nat.zero_le fuel)]
  simp [schedule_self, runCalls]

theorem multiPassMerge_keeps (hB : 2 ≤ maxOpen) (hn : 2 ≤ inputs.length) {fuel : Nat}
    (hf : inputs.length ≤ fuel) {q : String} (hq : ∀ r b, q ≠ tmpPath out r b) (hqo : q ≠ out) :
    Keeps (multiPassMerge fuel inputs out maxOpen) q := by
  obtain ⟨r, hrn, hr, hleast⟩ := exists_rounds (show 1 < maxOpen.toNat by omega) inputs
  obtain ⟨p, hp⟩ : ∃ p, pathsAt out maxOpen.toNat inputs r = [p] :=
    pathsAt_single (by omega) (List.ne_nil_of_length_pos (by omega)) hr hleast
  obtain ⟨i, b, rfl⟩ := pathsAt_last_tmp (by omega) hr hleast hn hp
  rw [multiPassMerge_schedule hB hr hleast hp (hrn.trans hf)]
  refine (keeps_runCalls fun hm => ?_).bind fun _ => (keeps_move (hq i b) hqo).bind fun _ => keeps_pure _
  obtain ⟨c, hc, he⟩ := List.mem_map.mp hm
  obtain ⟨j, -, hj⟩ := List.mem_flatMap.mp hc
  obtain ⟨b', hb'⟩ := mem_roundCalls_snd (List.mem_map_of_mem Prod.snd hj)
  exact hq j b' (he.symm.trans hb')

/-- For a budget `B ≥ 2` and `n ≥ 1` input paths, let `r` be the least number with
`n ≤ B ^ r`. After `i ≤ r` rounds `⌈n / B ^ i⌉` paths are left, and after `r` rounds one;
every `merge_batch` call of those rounds gets between two and `B` paths; the loop given
`fuel` rounds makes the calls of the first `min r fuel` rounds in order and has stopped
exactly when `r ≤ fuel`; and then `multi_pass_merge` moves the one path left onto the
output. -/
theorem multi_pass_merge_rounds (out : String) (maxOpen : Int) (hB : 2 ≤ maxOpen)
    (inputs : List String) (hn : inputs ≠ []) (r : Nat)
    (hr : inputs.length ≤ maxOpen.toNat ^ r)
    (hleast : ∀ i < r, maxOpen.toNat ^ i < inputs.length) :
    (∀ i ≤ r, (pathsAt out maxOpen.toNat inputs i).length =
      (inputs.length + maxOpen.toNat ^ i - 1) / maxOpen.toNat ^ i) ∧
    (∀ c ∈ schedule out maxOpen.toNat inputs 0 r, 2 ≤ c.1.length ∧ c.1.length ≤ maxOpen.toNat) ∧
    ∃ p, pathsAt out maxOpen.toNat inputs r = [p] ∧
      (∀ fuel, mergeRounds out maxOpen fuel 0 inputs =
        (do runCalls (schedule out maxOpen.toNat inputs 0 (min r fuel))
            pure (if r ≤ fuel then some [p] else none))) ∧
      ∀ fuel, r ≤ fuel → multiPassMerge fuel inputs out maxOpen =
        (do runCalls (schedule out maxOpen.toNat inputs 0 r); move p out; pure (some ())) := by
  have hB0 : 0 < maxOpen.toNat := by omega
  obtain ⟨p, hp⟩ : ∃ p, pathsAt out maxOpen.toNat inputs r = [p] := pathsAt_single hB0 hn hr hleast
  refine ⟨fun i _ => length_pathsAt hB0 i, fun c hc => mem_schedule hB0 hc, p, hp,
    fun fuel => ?_, fun fuel => multiPassMerge_schedule hB hr hleast hp⟩
  have h : mergeRounds out maxOpen fuel 0 _ = _ := mergeRounds_schedule hB hr hleast fuel 0 (Nat.zero_le r)
  simpa [hp, pathsAt] using h

/-- Three inputs with `B = 2` take two rounds: one merge of `a` and `b` while `c` waits,
then one merge of the round file with `c`. -/
theorem multi_pass_merge_three_rounds :
    (3 ≤ (2 : Int).toNat ^ 2 ∧ ∀ i < 2, (2 : Int).toNat ^ i < 3) ∧
    schedule "o" 2 ["a", "b", "c"] 0 2 =
      [(["a", "b"], tmpPath "o" 0 0), ([tmpPath "o" 0 0, "c"], tmpPath "o" 1 0)] ∧
    ∀ fuel, 2 ≤ fuel → multiPassMerge fuel ["a", "b", "c"] "o" 2 =
      (do runCalls (schedule "o" 2 ["a", "b", "c"] 0 2); move (tmpPath "o" 1 0) "o"; pure (some ())) := by
  have hr : 3 ≤ (2 : Int).toNat ^ 2 ∧ ∀ i < 2, (2 : Int).toNat ^ i < 3 := by decide
  obtain ⟨-, -, p, hp, -, hm⟩ := multi_pass_merge_rounds "o" 2 le_rfl ["a", "b", "c"]
    (List.cons_ne_nil _ _) 2 hr.1 hr.2
  have hp' : p = tmpPath "o" 1 0 := by
    have : pathsAt "o" (2 : Int).toNat ["a", "b", "c"] 2 = [tmpPath "o" 1 0] := rfl
    rw [this] at hp
    exact (List.cons.inj hp).1.symm
  exact ⟨hr, rfl, hp' ▸ hm⟩

end Loop

/-- **No path is lost or merged twice.** For a budget `B ≥ 2`, `n ≥ 1` inputs and fuel for `n`
rounds, `multi_pass_merge` makes a list of `merge_batch` calls and then moves one path `p` onto
the output. No two calls write one file, and the inputs together with the files the calls write
are, counted with multiplicity, the paths the calls read together with `p`. -/
theorem multi_pass_merge_conserves_paths (out : String) (maxOpen : Int) (hB : 2 ≤ maxOpen)
    (inputs : List String) (hn : inputs ≠ []) (fuel : Nat) (hf : inputs.length ≤ fuel) :
    ∃ calls p, multiPassMerge fuel inputs out maxOpen =
        (do runCalls calls; move p out; pure (some ())) ∧
      (calls.map Prod.snd).Nodup ∧
      (inputs ++ calls.map Prod.snd).Perm (calls.flatMap Prod.fst ++ [p]) := by
  obtain ⟨r, hrn, hr, hleast⟩ := exists_rounds (show 1 < maxOpen.toNat by omega) inputs
  obtain ⟨p, hp⟩ : ∃ p, pathsAt out maxOpen.toNat inputs r = [p] :=
    pathsAt_single (by omega) hn hr hleast
  have hperm : List.Perm (pathsAt out maxOpen.toNat inputs 0 ++
      (schedule out maxOpen.toNat inputs 0 (0 + r)).map Prod.snd) _ := schedule_perm (by omega) r 0
  rw [Nat.zero_add, hp] at hperm
  exact ⟨_, p, multiPassMerge_schedule hB hr hleast hp (hrn.trans hf), nodup_schedule_snd 0 r, hperm⟩

theorem multi_pass_merge_conserves_three :
    ∃ calls p, multiPassMerge 3 ["a", "b", "c"] "o" 2 =
        (do runCalls calls; move p "o"; pure (some ())) ∧
      (calls.map Prod.snd).Nodup ∧
      (["a", "b", "c"] ++ calls.map Prod.snd).Perm (calls.flatMap Prod.fst ++ [p]) :=
  multi_pass_merge_conserves_paths "o" 2 le_rfl _ (List.cons_ne_nil _ _) 3 le_rfl

end SzseMerge.MultiPass
