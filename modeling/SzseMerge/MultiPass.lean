import SzseMerge.MergeBatch

/-!
# Merging in rounds

`multi_pass_merge` never gives `merge_batch` more than `max_open` paths: each
round merges consecutive batches of the current paths into temporary files
named after the output, passes a batch of one path on unmerged, and the one
path left at the end is moved onto the output. Merging sorted runs again is
the stable sort of their concatenation, so the rounds end with the file a
single `merge_batch` writes.
-/

set_option autoImplicit false

namespace SzseMerge.MultiPass
open SzseMerge.Text SzseMerge.StableSort SzseMerge.FileSystem SzseMerge.KWayMerge
  SzseMerge.MergeBatch

/-- `f"{output_path}.merge_{round_id}_{i // max_open}.tmp"`. -/
def tmpPath (outputPath : String) (roundId b : Nat) : String :=
  outputPath ++ ".merge_" ++ toString roundId ++ "_" ++ toString b ++ ".tmp"

/-- `[l[i : i + B] for i in range(0, len(l), B)]`. -/
def slices {α : Type} (B : Nat) (l : List α) : List (List α) :=
  (List.range ((l.length + B - 1) / B)).map fun b => (l.drop (b * B)).take B

/-- The `for` loop of one round, over the batches and their numbers `i // max_open`. -/
def mergeBatches (outputPath : String) (roundId : Nat) : List (Nat × List String) → Py (List String)
  | [] => pure []
  | (_, [p]) :: rest => do
    let next ← mergeBatches outputPath roundId rest
    pure (p :: next)
  | (b, batch) :: rest => do
    mergeBatch batch (tmpPath outputPath roundId b)
    let next ← mergeBatches outputPath roundId rest
    pure (tmpPath outputPath roundId b :: next)

/-- One pass of the `while` loop; `range` raises on a step of zero and is empty on a negative
step. -/
def mergeRound (outputPath : String) (maxOpen : Int) (roundId : Nat) (paths : List String) :
    Py (List String) :=
  if maxOpen = 0 then throw "range() arg 3 must not be zero"
  else mergeBatches outputPath roundId (slices maxOpen.toNat paths).enum

/-- The `while len(paths) > 1` loop, for at most `fuel` rounds: `none` when it is still
running after them. -/
def mergeRounds (outputPath : String) (maxOpen : Int) :
    Nat → Nat → List String → Py (Option (List String))
  | 0, _, paths => pure (if paths.length ≤ 1 then some paths else none)
  | fuel + 1, roundId, paths =>
    if paths.length ≤ 1 then pure (some paths) else do
      let next ← mergeRound outputPath maxOpen roundId paths
      mergeRounds outputPath maxOpen fuel (roundId + 1) next

/-- `multi_pass_merge(input_paths, output_path, max_open)`, its loop allowed `fuel` rounds:
`none` when it has not stopped by then. -/
def multiPassMerge (fuel : Nat) (inputPaths : List String) (outputPath : String) (maxOpen : Int) :
    Py (Option Unit) := do
  match ← mergeRounds outputPath maxOpen fuel 0 inputPaths with
  | none => pure none
  | some [] => pure (some ())
  | some (p :: _) => do
    move p outputPath
    pure (some ())

/-! ## Slices and temporary names -/

section Slices
variable {α : Type} {B : Nat}

theorem flatten_range_slices (B : Nat) (l : List α) (k : Nat) :
    ((List.range k).map fun b => (l.drop (b * B)).take B).flatten = l.take (k * B) := by
  induction k with
  | zero => simp
  | succ k ih => simp [List.range_succ, ih, Nat.succ_mul, List.take_add]

theorem flatten_slices (hB : 0 < B) (l : List α) : (slices B l).flatten = l := by
  rw [slices, flatten_range_slices, List.take_of_length_le]
  have h1 := Nat.div_add_mod (l.length + B - 1) B
  have h2 := Nat.mod_lt (l.length + B - 1) hB
  rw [Nat.mul_comm]
  omega

theorem slices_map {β : Type} (f : α → β) (l : List α) :
    slices B (l.map f) = (slices B l).map (List.map f) := by
  simp [slices, List.map_drop, List.map_take]

theorem length_slices (l : List α) : (slices B l).length = (l.length + B - 1) / B := by
  simp [slices]

theorem mem_slices (hB : 0 < B) {l x : List α} (h : x ∈ slices B l) : x ≠ [] ∧ x.length ≤ B := by
  obtain ⟨b, hb, rfl⟩ := List.mem_map.mp h
  have hq : (b + 1) * B ≤ (l.length + B - 1) / B * B :=
    Nat.mul_le_mul_right B (List.mem_range.mp hb)
  have hle := Nat.div_mul_le_self (l.length + B - 1) B
  refine ⟨fun he => ?_, List.length_take_le _ _⟩
  rcases List.take_eq_nil_iff.mp he with h0 | h0
  · omega
  · have := List.drop_eq_nil_iff.mp h0
    rw [Nat.succ_mul] at hq
    omega

theorem mem_of_mem_slices {l x : List α} (hx : x ∈ slices B l) {a : α} (ha : a ∈ x) : a ∈ l := by
  obtain ⟨b, _, rfl⟩ := List.mem_map.mp hx
  exact List.mem_of_mem_drop (List.mem_of_mem_take ha)

theorem length_slices_lt (hB : 2 ≤ B) {l : List α} (hl : 2 ≤ l.length) :
    (slices B l).length < l.length := by
  rw [length_slices, Nat.div_lt_iff_lt_mul (by omega)]
  have h1 : 2 * B ≤ l.length * B := Nat.mul_le_mul_right B hl
  have h2 : l.length * 2 ≤ l.length * B := Nat.mul_le_mul_left _ hB
  omega

end Slices

theorem not_mem_of_digits {c : Char} (hc : c.isDigit = false) (n : Nat) :
    c ∉ (toString n).data := fun h => by
  simp [(toDigits_digits n).2 c h] at hc

theorem append_cons_inj {c : Char} {a a' x x' : List Char} (ha : c ∉ a) (ha' : c ∉ a')
    (h : a ++ c :: x = a' ++ c :: x') : a = a' ∧ x = x' := by
  induction a generalizing a' with
  | nil =>
    cases a' with
    | nil => simpa using h
    | cons d a' =>
      simp only [List.nil_append, List.cons_append, List.cons.injEq] at h
      exact absurd (h.1 ▸ List.mem_cons_self _ _) ha'
  | cons d a ih =>
    cases a' with
    | nil =>
      simp only [List.nil_append, List.cons_append, List.cons.injEq] at h
      exact absurd (h.1 ▸ List.mem_cons_self _ _) ha
    | cons d' a' =>
      simp only [List.cons_append, List.cons.injEq] at h
      obtain ⟨rfl, h⟩ := h
      have := ih (fun m => ha (.tail _ m)) (fun m => ha' (.tail _ m)) h
      simp [this]

theorem toString_inj {m n : Nat} (h : (toString m).data = (toString n).data) : m = n := by
  have hm := pyNat_toDigits m
  have hn := pyNat_toDigits n
  exact Option.some.inj (hm.symm.trans ((congrArg pyNat h).trans hn))

theorem tmpPath_inj {out : String} {r b r' b' : Nat} (h : tmpPath out r b = tmpPath out r' b') :
    r = r' ∧ b = b' := by
  have h := congrArg String.data h
  simp only [tmpPath, String.data_append, List.append_assoc] at h
  have h := List.append_cancel_left (List.append_cancel_left h)
  obtain ⟨hr, h⟩ := append_cons_inj (not_mem_of_digits (c := '_') rfl r)
    (not_mem_of_digits (c := '_') rfl r') h
  exact ⟨toString_inj hr, toString_inj (List.append_cancel_right h)⟩

/-! ## Files that hold sorted runs -/

/-- The header `H` followed by the data lines `L` reads back as `H` and `L`, and `L` is sorted:
the header is one line, terminated once lines follow it, and every data line is one line
that parses and ends in its terminator. -/
structure Framed (H : List Char) (L : List (List Char)) : Prop where
  header : H = [] ∨ lines H = [H]
  header_terminated : L ≠ [] → H ≠ [] ∧ Terminated H
  sorted : KeySorted sortKey L
  lines_ok : ∀ l ∈ L, Parses l ∧ lines l = [l] ∧ Terminated l

theorem Framed.head_ne {H : List Char} {L : List (List Char)} (h : Framed H L) :
    ∀ l ∈ L, l.head? ≠ some '\n' := fun l hl =>
  parseKey_head (h.lines_ok l hl).2.1 (h.lines_ok l hl).1

theorem Framed.readBack {H : List Char} {L : List (List Char)} (h : Framed H L) :
    headerOf (H ++ L.flatten) = H ∧ bodyOf (H ++ L.flatten) = L := by
  have hL : lines L.flatten = L :=
    lines_flatten (fun l hl => ⟨(h.lines_ok l hl).2.1, (h.lines_ok l hl).2.2⟩)
      (fun l hl => h.head_ne l (List.mem_of_mem_tail hl))
  cases L with
  | nil =>
    rcases h.header with rfl | hH
    · exact ⟨rfl, rfl⟩
    · simp [headerOf, bodyOf, hH, readline]
  | cons l L =>
    obtain ⟨hne, ht⟩ := h.header_terminated (List.cons_ne_nil _ _)
    have hH : lines H = [H] := h.header.resolve_left hne
    have hl : l ≠ [] := by
      rintro rfl
      simpa [lines] using (h.lines_ok [] (.head _)).2.1
    obtain ⟨c, cs, rfl⟩ := List.exists_cons_of_ne_nil hl
    have hs : lines (H ++ ((c :: cs) :: L).flatten) = H :: (c :: cs) :: L := by
      rw [lines_append hH ht _ (fun _ => by simpa using h.head_ne _ (.head _)), hL]
    rw [headerOf, bodyOf, hs]
    exact ⟨rfl, rfl⟩

theorem framed_bodyOf (t : List Char) (hp : ∀ l ∈ bodyOf t, Parses l ∧ Terminated l)
    (hs : KeySorted sortKey (bodyOf t)) :
    Framed (headerOf t) (bodyOf t) ∧ t = headerOf t ++ (bodyOf t).flatten := by
  have ht := flatten_lines t
  unfold headerOf bodyOf at *
  cases hl : lines t with
  | nil =>
    rw [hl] at ht
    exact ⟨⟨.inl rfl, fun h => absurd rfl h, List.sorted_nil, by simp [readline]⟩,
      by simp [← ht, readline]⟩
  | cons h rest =>
    simp only [hl, readline, List.flatten_cons] at hs hp ht ⊢
    refine ⟨⟨.inr (lines_of_mem (hl ▸ List.mem_cons_self _ _)), fun hr => ?_, hs, fun l hm =>
      ⟨(hp l hm).1, lines_of_mem (hl ▸ List.mem_cons_of_mem _ hm), (hp l hm).2⟩⟩, ht.symm⟩
    obtain ⟨l', rest', rfl⟩ := List.exists_cons_of_ne_nil hr
    exact ⟨lines_ne_nil_of_mem (hl ▸ List.mem_cons_self _ _), terminated_of_lines hl⟩

theorem framed_stableSort {H : List Char} {Ls : List (List (List Char))}
    (hH : H = [] ∨ lines H = [H]) (h : ∀ L ∈ Ls, Framed H L) :
    Framed H (stableSort sortKey Ls.flatten) where
  header := hH
  header_terminated hne := by
    obtain ⟨l, hl⟩ := List.exists_mem_of_ne_nil _ hne
    obtain ⟨L, hL, hlL⟩ := List.mem_flatten.mp ((perm_stableSort _).mem_iff.mp hl)
    exact (h L hL).header_terminated (List.ne_nil_of_mem hlL)
  sorted := sorted_stableSort _
  lines_ok l hl := by
    obtain ⟨L, hL, hlL⟩ := List.mem_flatten.mp ((perm_stableSort _).mem_iff.mp hl)
    exact (h L hL).lines_ok l hlL

/-- The data lines of the file at `p`. -/
def bodyAt (fs : FS) (p : String) : List (List Char) := bodyOf ((fs p).getD [])

/-- The file at `p` is the header `H` followed by a sorted run. -/
def IsRun (H : List Char) (fs : FS) (p : String) : Prop :=
  Framed H (bodyAt fs p) ∧ fs p = some (H ++ (bodyAt fs p).flatten)

theorem isRun_of_framed {H : List Char} {L : List (List Char)} {fs : FS} {p : String}
    (h : Framed H L) (hp : fs p = some (H ++ L.flatten)) : IsRun H fs p ∧ bodyAt fs p = L := by
  have hb : bodyAt fs p = L := by simp [bodyAt, hp, h.readBack.2]
  exact ⟨⟨hb ▸ h, by rw [hb, hp]⟩, hb⟩

theorem IsRun.congr {H : List Char} {fs fs' : FS} {p : String} (h : IsRun H fs p)
    (he : fs' p = fs p) : IsRun H fs' p ∧ bodyAt fs' p = bodyAt fs p :=
  isRun_of_framed h.1 (he.trans h.2)

theorem mergeBatch_runs {H : List Char} {fs : FS}
    {batch : List String} (out : String) (hne : batch ≠ []) (h : ∀ p ∈ batch, IsRun H fs p) :
    mergeBatch batch out fs = .ok ()
      (fs.write out (H ++ (stableSort sortKey (batch.map (bodyAt fs)).flatten).flatten)) := by
  have hb : ∀ p ∈ batch, bodyOf (H ++ (bodyAt fs p).flatten) = bodyAt fs p :=
    fun p hp => (h p hp).1.readBack.2
  have key := mergeBatch_sorted fs batch out (batch.map fun p => H ++ (bodyAt fs p).flatten) H
    (by rw [List.map_map]; exact List.map_congr_left fun p hp => (h p hp).2) hne
    (by simp only [List.mem_map]; rintro _ ⟨p, hp, rfl⟩; exact (h p hp).1.readBack.1)
    (by
      simp only [List.mem_map]
      rintro _ ⟨p, hp, rfl⟩ l hl
      rw [hb p hp] at hl
      exact ((h p hp).1.lines_ok l hl).1)
    (by simp only [List.mem_map]; rintro _ ⟨p, hp, rfl⟩; rw [hb p hp]; exact (h p hp).1.sorted)
  have e : (batch.map fun p => H ++ (bodyAt fs p).flatten).map bodyOf = batch.map (bodyAt fs) := by
    rw [List.map_map]
    exact List.map_congr_left hb
  rwa [e] at key

/-- The path a numbered batch hands to the next round. -/
def nextPath (out : String) (r : Nat) : Nat × List String → String
  | (_, [p]) => p
  | (b, _) => tmpPath out r b

theorem nextPath_merged {out : String} {r b : Nat} :
    ∀ {x : List String}, (∀ p, x = [p] → False) → nextPath out r (b, x) = tmpPath out r b
  | [], _ | _ :: _ :: _, _ => rfl
  | [p], hx => absurd rfl (hx p)

theorem mergeBatches_spec {H : List Char} (hH : H = [] ∨ lines H = [H]) (out : String) (r : Nat) :
    ∀ (k : Nat) (bs : List (List String)) (fs : FS), (∀ x ∈ bs, x ≠ []) →
    (∀ x ∈ bs, ∀ p ∈ x, IsRun H fs p ∧ ∀ b, p ≠ tmpPath out r b) →
    ∃ fs', mergeBatches out r (bs.enumFrom k) fs = .ok ((bs.enumFrom k).map (nextPath out r)) fs' ∧
      (∀ q, (∀ b, k ≤ b → q ≠ tmpPath out r b) → fs' q = fs q) ∧
      ∀ y ∈ bs.enumFrom k, IsRun H fs' (nextPath out r y) ∧
        bodyAt fs' (nextPath out r y) = stableSort sortKey (y.2.map (bodyAt fs)).flatten := by
  intro k bs
  induction bs generalizing k with
  | nil => exact fun fs _ _ => ⟨fs, rfl, fun _ _ => rfl, by simp⟩
  | cons x bs ih =>
    intro fs hne hold
    have hne' : ∀ y ∈ bs, y ≠ [] := fun y hy => hne y (.tail _ hy)
    rw [List.enumFrom_cons]
    by_cases hx : ∃ p, x = [p]
    · obtain ⟨p, rfl⟩ := hx
      obtain ⟨hp, hpo⟩ := hold [p] (.head _) p (.head _)
      obtain ⟨fs', h1, h2, h3⟩ := ih (k + 1) fs hne' fun y hy => hold y (.tail _ hy)
      have hpe : fs' p = fs p := h2 p fun b _ => hpo b
      refine ⟨fs', by rw [mergeBatches.eq_2, bind_ok h1]; rfl,
        fun q hq => h2 q fun b hb => hq b (by omega), ?_⟩
      rintro y (_ | ⟨_, hy⟩)
      · refine ⟨(hp.congr hpe).1, ?_⟩
        simp [nextPath, (hp.congr hpe).2, stableSort_of_sorted hp.1.sorted]
      · exact h3 y hy
    · have hx' : ∀ p, x = [p] → False := fun p h => hx ⟨p, h⟩
      have hm := mergeBatch_runs (tmpPath out r k) (hne x (.head _))
        fun p hp => (hold x (.head _) p hp).1
      obtain ⟨fs', h1, h2, h3⟩ := ih (k + 1) _ hne' fun y hy p hp =>
        ⟨((hold y (.tail _ hy) p hp).1.congr
          (FS.write_other _ _ ((hold y (.tail _ hy) p hp).2 k))).1, (hold y (.tail _ hy) p hp).2⟩
      refine ⟨fs', ?_, fun q hq => ?_, ?_⟩
      · rw [mergeBatches.eq_3 _ _ _ _ _ hx', bind_ok hm, bind_ok h1, List.map_cons,
          nextPath_merged hx']
        rfl
      · rw [h2 q fun b hb => hq b (by omega), FS.write_other _ _ (hq k le_rfl)]
      · have htk : fs' (tmpPath out r k) = some (H ++ (stableSort sortKey
            (x.map (bodyAt fs)).flatten).flatten) := by
          rw [h2 _ fun b hb he => by have := (tmpPath_inj he).2; omega, FS.write_same]
        have hfr := framed_stableSort hH fun L hL => by
          obtain ⟨p, hp, rfl⟩ := List.mem_map.mp hL
          exact (hold x (.head _) p hp).1.1
        rintro y (_ | ⟨_, hy⟩)
        · rw [nextPath_merged hx']
          exact isRun_of_framed hfr htk
        · obtain ⟨hr, hb⟩ := h3 y hy
          refine ⟨hr, hb.trans (congrArg _ (congrArg _ (List.map_congr_left fun p hp => ?_)))⟩
          have hyb := hold y.2 (.tail _ (List.snd_mem_of_mem_enumFrom hy)) p hp
          exact (hyb.1.congr (FS.write_other _ _ (hyb.2 k))).2

theorem nextPath_cases (out : String) (r : Nat) :
    ∀ y : Nat × List String, nextPath out r y ∈ y.2 ∨ nextPath out r y = tmpPath out r y.1
  | (_, [_]) => .inl (.head _)
  | (_, []) | (_, _ :: _ :: _) => .inr rfl

theorem ne_tmpPath_of_length {p out : String} (h : p.length ≤ out.length) (r b : Nat) :
    p ≠ tmpPath out r b := fun e => by
  have := congrArg String.length e
  simp only [tmpPath, String.length_append] at this
  have : ".merge_".length = 7 := rfl
  omega

theorem map_enumFrom_snd {α β : Type} (g : α → β) (l : List α) (n : Nat) :
    (l.enumFrom n).map (fun y => g y.2) = l.map g := by
  induction l generalizing n with
  | nil => rfl
  | cons a l ih => simp [List.enumFrom_cons, ih]

/-! ## Rounds -/

/-- What holds of the paths before round `r`: each holds a run under the header `H`, none is
a temporary name of this round or a later one, and sorting all their lines gives `S`. -/
structure RoundInv (H : List Char) (S : List (List Char)) (out : String) (r : Nat) (fs : FS)
    (ps : List String) : Prop where
  ne : ps ≠ []
  runs : ∀ p ∈ ps, IsRun H fs p
  fresh : ∀ p ∈ ps, ∀ r' b, r ≤ r' → p ≠ tmpPath out r' b
  sorted : stableSort sortKey (ps.map (bodyAt fs)).flatten = S

section Rounds
variable {H : List Char} {S : List (List Char)} {out : String} {maxOpen : Int}

theorem stableSort_slices (B : Nat) (hB : 0 < B) (Ls : List (List (List Char))) :
    stableSort sortKey ((slices B Ls).map fun x => stableSort sortKey x.flatten).flatten =
      stableSort sortKey Ls.flatten := by
  have h : stableSort sortKey (((slices B Ls).map List.flatten).map (stableSort sortKey)).flatten =
      stableSort sortKey ((slices B Ls).map List.flatten).flatten := stableSort_flatten_map _
  rw [List.map_map, ← List.flatten_flatten, flatten_slices hB] at h
  exact h

theorem mergeRound_spec (hH : H = [] ∨ lines H = [H]) (hB : 2 ≤ maxOpen) {r : Nat} {fs : FS}
    {ps : List String} (h : RoundInv H S out r fs ps) :
    ∃ fs' ps', mergeRound out maxOpen r ps fs = .ok ps' fs' ∧ RoundInv H S out (r + 1) fs' ps' ∧
      ps'.length = (slices maxOpen.toNat ps).length := by
  have hB0 : 0 < maxOpen.toNat := by omega
  have hmem : ∀ x ∈ slices maxOpen.toNat ps, ∀ p ∈ x, p ∈ ps := fun x hx p hp =>
    flatten_slices hB0 ps ▸ List.mem_flatten.mpr ⟨x, hx, hp⟩
  obtain ⟨fs', h1, h2, h3⟩ := mergeBatches_spec hH out r 0 (slices maxOpen.toNat ps) fs
    (fun x hx => (mem_slices hB0 hx).1)
    fun x hx p hp => ⟨h.runs p (hmem x hx p hp), fun b => h.fresh p (hmem x hx p hp) r b le_rfl⟩
  refine ⟨fs', _, by rw [mergeRound, if_neg (by omega)]; exact h1, ⟨?_, ?_, ?_, ?_⟩, by simp⟩
  · have : slices maxOpen.toNat ps ≠ [] := fun he => h.ne (by
      simpa [he] using (flatten_slices hB0 ps).symm)
    simpa [List.enum] using this
  · intro p hp
    obtain ⟨y, hy, rfl⟩ := List.mem_map.mp hp
    exact (h3 y hy).1
  · intro p hp r' b hr
    obtain ⟨y, hy, rfl⟩ := List.mem_map.mp hp
    rcases nextPath_cases out r y with hy' | hy'
    · exact h.fresh _ (hmem _ (List.snd_mem_of_mem_enumFrom hy) _ hy') r' b (by omega)
    · rw [hy']
      intro he
      have := (tmpPath_inj he).1
      omega
  · have hmap : (List.enumFrom 0 (slices maxOpen.toNat ps)).map (bodyAt fs' ∘ nextPath out r) =
        (slices maxOpen.toNat ps).map fun x => stableSort sortKey (x.map (bodyAt fs)).flatten :=
      (List.map_congr_left (f := bodyAt fs' ∘ nextPath out r) fun y hy => (h3 y hy).2).trans
        (map_enumFrom_snd (fun x : List String => stableSort sortKey (x.map (bodyAt fs)).flatten) _ 0)
    have hsl : (slices maxOpen.toNat ps).map (fun x => stableSort sortKey (x.map (bodyAt fs)).flatten)
        = (slices maxOpen.toNat (ps.map (bodyAt fs))).map fun x => stableSort sortKey x.flatten := by
      rw [slices_map, List.map_map]
      rfl
    rw [List.map_map, hmap, hsl, stableSort_slices _ hB0, h.sorted]

theorem RoundInv.single {r : Nat} {fs : FS} {ps : List String} (h : RoundInv H S out r fs ps)
    (hl : ps.length ≤ 1) : ∃ p, ps = [p] ∧ IsRun H fs p ∧ bodyAt fs p = S := by
  match ps, h.ne, hl with
  | [p], _, _ =>
    refine ⟨p, rfl, h.runs p (.head _), ?_⟩
    have hs := h.sorted
    simp only [List.map_cons, List.map_nil, List.flatten_cons, List.flatten_nil,
      List.append_nil] at hs
    rwa [stableSort_of_sorted (h.runs p (.head _)).1.sorted] at hs

theorem mergeRounds_spec (hH : H = [] ∨ lines H = [H]) (hB : 2 ≤ maxOpen) :
    ∀ (fuel r : Nat) (fs : FS) (ps : List String), RoundInv H S out r fs ps →
      ps.length ≤ fuel + 1 →
      ∃ fs' p, mergeRounds out maxOpen fuel r ps fs = .ok (some [p]) fs' ∧ IsRun H fs' p ∧
        bodyAt fs' p = S := by
  intro fuel
  induction fuel with
  | zero =>
    intro r fs ps h hl
    obtain ⟨p, rfl, hp⟩ := h.single (by omega)
    exact ⟨fs, p, rfl, hp⟩
  | succ fuel ih =>
    intro r fs ps h hl
    by_cases h1 : ps.length ≤ 1
    · obtain ⟨p, rfl, hp⟩ := h.single h1
      exact ⟨fs, p, rfl, hp⟩
    · obtain ⟨fs', ps', hr, h', hlen⟩ := mergeRound_spec hH hB h
      have hlt := length_slices_lt (B := maxOpen.toNat) (by omega) (l := ps) (by omega)
      obtain ⟨fs'', p, h2, hp⟩ := ih (r + 1) fs' ps' h' (by omega)
      exact ⟨fs'', p, by rw [mergeRounds, if_neg h1, bind_ok hr, h2], hp⟩

theorem multiPassMerge_spec (hH : H = [] ∨ lines H = [H]) (hB : 2 ≤ maxOpen) {fuel : Nat}
    {fs : FS} {inputs : List String} (h : RoundInv H S out 0 fs inputs)
    (hfuel : inputs.length ≤ fuel + 1) :
    ∃ fs', multiPassMerge fuel inputs out maxOpen fs = .ok (some ()) fs' ∧
      fs' out = some (H ++ S.flatten) := by
  obtain ⟨fs', p, hr, hp, hb⟩ := mergeRounds_spec hH hB fuel 0 fs inputs h hfuel
  have hmove : move p out fs' = .ok () ((fs'.remove p).write out (H ++ S.flatten)) := by
    simp only [move, hp.2, hb]
  exact ⟨_, by rw [multiPassMerge, bind_ok hr]; exact bind_ok hmove, FS.write_same _ _ _⟩

end Rounds

/-! ## What the rounds write

Whether the merge returns or raises, the only files it writes are its temporary names, the
output, and the input it moves there. -/

section Frame
variable {out : String} {q : String}

theorem mergeBatches_after {r : Nat} (hq : ∀ b, q ≠ tmpPath out r b) :
    ∀ (ys : List (Nat × List String)) (fs : FS), after (mergeBatches out r ys fs) q = fs q
  | [], _ => rfl
  | (b, x) :: ys, fs => by
    by_cases hx : ∃ p, x = [p]
    · obtain ⟨p, rfl⟩ := hx
      rw [mergeBatches.eq_2]
      exact after_bind (mergeBatches_after hq ys fs) fun _ _ _ => rfl
    · rw [mergeBatches.eq_3 _ _ _ _ _ fun p h => hx ⟨p, h⟩]
      refine after_bind ?_ fun _ fs₁ _ => after_bind (mergeBatches_after hq ys fs₁) fun _ _ _ => rfl
      rcases after_mergeBatch x (tmpPath out r b) fs with h | ⟨t, h⟩ <;> rw [h]
      exact FS.write_other _ _ (hq b)

theorem mergeBatches_mem {r : Nat} :
    ∀ {ys : List (Nat × List String)} {fs fs' : FS} {ps : List String},
      mergeBatches out r ys fs = .ok ps fs' →
      ∀ p ∈ ps, (∃ y ∈ ys, p ∈ y.2) ∨ ∃ b, p = tmpPath out r b
  | [], _, _, _, h => by cases h; simp
  | (b, x) :: ys, fs, fs', ps, h => by
    by_cases hx : ∃ p, x = [p]
    · obtain ⟨p, rfl⟩ := hx
      rw [mergeBatches.eq_2] at h
      obtain ⟨ps', fs₁, h1, h2⟩ := bind_eq_ok h
      cases h2
      rintro _ (_ | ⟨_, hp⟩)
      · exact .inl ⟨(b, [p]), .head _, .head _⟩
      · rcases mergeBatches_mem h1 _ hp with ⟨y, hy, hpy⟩ | hp
        exacts [.inl ⟨y, .tail _ hy, hpy⟩, .inr hp]
    · rw [mergeBatches.eq_3 _ _ _ _ _ fun p h => hx ⟨p, h⟩] at h
      obtain ⟨_, fs₁, _, h⟩ := bind_eq_ok h
      obtain ⟨ps', fs₂, h1, h2⟩ := bind_eq_ok h
      cases h2
      rintro _ (_ | ⟨_, hp⟩)
      · exact .inr ⟨b, rfl⟩
      · rcases mergeBatches_mem h1 _ hp with ⟨y, hy, hpy⟩ | hp
        exacts [.inl ⟨y, .tail _ hy, hpy⟩, .inr hp]

theorem mergeRound_after {maxOpen : Int} {r : Nat} (hq : ∀ b, q ≠ tmpPath out r b)
    (ps : List String) (fs : FS) : after (mergeRound out maxOpen r ps fs) q = fs q := by
  unfold mergeRound
  split
  · rfl
  · exact mergeBatches_after hq _ fs

theorem mergeRound_mem {maxOpen : Int} {r : Nat} {ps ps' : List String} {fs fs' : FS}
    (h : mergeRound out maxOpen r ps fs = .ok ps' fs') :
    ∀ p ∈ ps', p ∈ ps ∨ ∃ b, p = tmpPath out r b := by
  unfold mergeRound at h
  split at h
  · cases h
  · intro p hp
    rcases mergeBatches_mem h p hp with ⟨y, hy, hpy⟩ | hp
    · exact .inl (mem_of_mem_slices (List.snd_mem_of_mem_enum hy) hpy)
    · exact .inr hp

theorem mergeRounds_after {maxOpen : Int} (hq : ∀ r b, q ≠ tmpPath out r b) :
    ∀ (fuel r : Nat) (ps : List String) (fs : FS),
      after (mergeRounds out maxOpen fuel r ps fs) q = fs q
  | 0, _, _, _ => rfl
  | fuel + 1, r, ps, fs => by
    rw [mergeRounds]
    split
    · rfl
    · exact after_bind (mergeRound_after (hq r) ps fs)
        fun ps' fs' _ => mergeRounds_after hq fuel (r + 1) ps' fs'

theorem mergeRounds_mem {maxOpen : Int} :
    ∀ {fuel r : Nat} {ps ps' : List String} {fs fs' : FS},
      mergeRounds out maxOpen fuel r ps fs = .ok (some ps') fs' →
      ∀ p ∈ ps', p ∈ ps ∨ ∃ r' b, p = tmpPath out r' b
  | 0, _, ps, ps', _, _, h => by
    rw [mergeRounds] at h
    split at h <;> cases h
    exact fun p hp => .inl hp
  | fuel + 1, r, ps, ps', fs, fs', h => by
    rw [mergeRounds] at h
    split at h
    · cases h; exact fun p hp => .inl hp
    · obtain ⟨ps₁, fs₁, h1, h2⟩ := bind_eq_ok h
      intro p hp
      rcases mergeRounds_mem h2 p hp with hp | hp
      · rcases mergeRound_mem h1 p hp with hp | ⟨b, hp⟩
        exacts [.inl hp, .inr ⟨r, b, hp⟩]
      · exact .inr hp

theorem multiPassMerge_after {fuel : Nat} {inputs : List String} {maxOpen : Int} (fs : FS)
    (hq : ∀ r b, q ≠ tmpPath out r b) :
    after (multiPassMerge fuel inputs out maxOpen fs) q = fs q ∨
      (∃ fs', multiPassMerge fuel inputs out maxOpen fs = .ok (some ()) fs') ∧
        (q = out ∨ q ∈ inputs) := by
  rw [multiPassMerge, bind_apply]
  have h1 : after (mergeRounds out maxOpen fuel 0 inputs fs) q = fs q :=
    mergeRounds_after hq fuel 0 inputs fs
  cases hr : mergeRounds out maxOpen fuel 0 inputs fs with
  | error e fs₁ => rw [hr] at h1; exact .inl h1
  | ok v fs₁ =>
    rw [hr] at h1
    simp only [after] at h1
    rcases v with _ | _ | ⟨p, ps⟩
    · exact .inl h1
    · exact .inl h1
    · dsimp only
      rw [bind_apply]
      simp only [move]
      cases hp : fs₁ p with
      | none => exact .inl h1
      | some t =>
        by_cases hio : q = out ∨ q ∈ inputs
        · exact .inr ⟨⟨_, rfl⟩, hio⟩
        · have hqp : q ≠ p := by
            rintro rfl
            rcases mergeRounds_mem hr q (.head _) with h | ⟨r, b, h⟩
            exacts [hio (.inr h), hq r b h]
          exact .inl (by simp only [pure_apply, after, FS.write_other _ _ fun h => hio (.inl h),
            FS.remove_other _ hqp, h1])

theorem multiPassMerge_frame {fuel : Nat} {inputs : List String} {maxOpen : Int} (fs : FS)
    (hq : ∀ r b, q ≠ tmpPath out r b) (hout : q ≠ out) (hin : q ∉ inputs) :
    after (multiPassMerge fuel inputs out maxOpen fs) q = fs q :=
  (multiPassMerge_after fs hq).resolve_right fun ⟨_, h⟩ => h.elim hout hin

theorem multiPassMerge_error {fuel : Nat} {inputs : List String} {maxOpen : Int} {fs fs' : FS}
    {e : String} (h : multiPassMerge fuel inputs out maxOpen fs = .error e fs')
    (hq : ∀ r b, q ≠ tmpPath out r b) : fs' q = fs q := by
  rcases multiPassMerge_after fs hq with h' | ⟨⟨_, h'⟩, _⟩ <;> rw [h] at h'
  · exact h'
  · cases h'

end Frame

theorem roundInv_inputs {fs : FS} {inputs : List String} {out : String}
    {texts : List (List Char)} {H : List Char} (hne : inputs ≠ [])
    (hfs : inputs.map fs = texts.map some) (hH : ∀ t ∈ texts, headerOf t = H)
    (hlines : ∀ t ∈ texts, ∀ l ∈ bodyOf t, Parses l ∧ Terminated l)
    (hsorted : ∀ t ∈ texts, KeySorted sortKey (bodyOf t))
    (htmp : ∀ p ∈ inputs, ∀ r b, p ≠ tmpPath out r b) :
    RoundInv H (stableSort sortKey (texts.map bodyOf).flatten) out 0 fs inputs where
  ne := hne
  runs p hp := by
    obtain ⟨t, ht, he⟩ := List.mem_map.mp (hfs ▸ List.mem_map_of_mem fs hp)
    obtain ⟨hfr, heq⟩ := framed_bodyOf t (hlines t ht) (hsorted t ht)
    rw [hH t ht] at hfr heq
    exact (isRun_of_framed hfr (by rw [← he, ← heq])).1
  fresh p hp r b _ := htmp p hp r b
  sorted := by
    have : inputs.map (bodyAt fs) = texts.map bodyOf := by
      have := congrArg (List.map fun o => bodyOf (o.getD [])) hfs
      simpa [List.map_map, Function.comp_def] using this
    rw [this]

/-- Three inputs and `max_open = 2`: the first round's merge of two inputs is read by the
second round and never removed; only the last round's file is moved onto the output. -/
theorem multi_pass_merge_leaves_round_file :
    ∃ fs', multiPassMerge 2 ["a", "b", "c"] "o" 2 (FS.write (FS.write (FS.write (fun _ => none)
        "a" "H\r\n1,3\r\n".toList) "b" "H\r\n1,1\r\n".toList) "c" "H\r\n1,2\r\n".toList) =
        .ok (some ()) fs' ∧
      fs' "o.merge_0_0.tmp" = some "H\r\n1,1\r\n1,3\r\n".toList :=
  ⟨_, rfl, by decide⟩

end SzseMerge.MultiPass
