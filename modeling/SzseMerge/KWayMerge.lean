import SzseMerge.StableSort

/-!
# The k-way merge behind `merge_batch`

Each input is a cursor over its remaining items. A step emits the head of
the cursor whose head has the least key, the lowest-numbered cursor winning
ties, and advances that cursor. `KMerge cs out` says the cursors `cs` drain
emitting `out`. Every run emits a permutation of its inputs, and from sorted
inputs exactly their stable sort: this is the design's promise that ties are
broken by source index.
-/

set_option autoImplicit false

namespace SzseMerge.KWayMerge
open SzseMerge.StableSort

variable {α κ : Type} [LinearOrder κ] (key : α → κ)

/-- Runs of the merge: `cs` drains while emitting `out`. Cursors before the
chosen one have strictly larger heads, those after it larger or equal ones. -/
inductive KMerge : List (List α) → List α → Prop
  | done {cs : List (List α)} : (∀ c ∈ cs, c = []) → KMerge cs []
  | step {pre post : List (List α)} {h : α} {t out : List α} :
      (∀ c ∈ pre, ∀ y ∈ c.head?, key h < key y) →
      (∀ c ∈ post, ∀ y ∈ c.head?, key h ≤ key y) →
      KMerge (pre ++ t :: post) out → KMerge (pre ++ (h :: t) :: post) (h :: out)

variable {key}

theorem flatten_middle (pre post : List (List α)) (h : α) (t : List α) :
    List.Perm (pre ++ (h :: t) :: post).flatten (h :: (pre ++ t :: post).flatten) := by
  simp [List.perm_middle]

theorem KMerge.perm {cs : List (List α)} {out : List α} (hm : KMerge key cs out) :
    List.Perm out cs.flatten := by
  induction hm with
  | done h => simp [List.flatten_eq_nil_iff.mpr h]
  | step _ _ _ ih => exact (ih.cons _).trans (flatten_middle _ _ _ _).symm

theorem head_le {c : List α} (hc : KeySorted key c) {y : α} (hy : y ∈ c) :
    ∃ z ∈ c.head?, key z ≤ key y := by
  cases c with
  | nil => simp at hy
  | cons z c =>
    refine ⟨z, rfl, ?_⟩
    rcases List.mem_cons.mp hy with rfl | hy
    exacts [le_refl _, List.rel_of_sorted_cons hc y hy]

theorem KMerge.sorted_filter {cs : List (List α)} {out : List α} (hm : KMerge key cs out)
    (hs : ∀ c ∈ cs, KeySorted key c) :
    KeySorted key out ∧ ∀ k, keyFilter key k out = keyFilter key k cs.flatten := by
  induction hm with
  | done h => simp [List.flatten_eq_nil_iff.mpr h, KeySorted]
  | @step pre post h t out hpre hpost hrun ih =>
    have hsorted : ∀ c ∈ pre ++ t :: post, KeySorted key c := by
      intro c hc
      simp only [List.mem_append, List.mem_cons] at hc
      rcases hc with hc | rfl | hc
      · exact hs c (by simp [hc])
      · exact (hs (h :: c) (by simp)).of_cons
      · exact hs c (by simp [hc])
    obtain ⟨ihs, ihf⟩ := ih hsorted
    -- Everything left after the emitted head has a key at least as large.
    have hpre : ∀ y ∈ pre.flatten, key h < key y := fun y hy => by
      obtain ⟨c, hc, hyc⟩ := List.mem_flatten.mp hy
      obtain ⟨z, hz, hzy⟩ := head_le (hsorted c (by simp [hc])) hyc
      exact lt_of_lt_of_le (hpre c hc z hz) hzy
    have hrest : ∀ y ∈ out, key h ≤ key y := fun y hy => by
      have hy' := hrun.perm.subset hy
      simp only [List.flatten_append, List.flatten_cons, List.mem_append] at hy'
      rcases hy' with hy' | hy' | hy'
      · exact (hpre y hy').le
      · exact List.rel_of_sorted_cons (hs (h :: t) (by simp)) y hy'
      · obtain ⟨c, hc, hyc⟩ := List.mem_flatten.mp hy'
        obtain ⟨z, hz, hzy⟩ := head_le (hsorted c (by simp [hc])) hyc
        exact le_trans (hpost c hc z hz) hzy
    refine ⟨List.sorted_cons.mpr ⟨hrest, ihs⟩, fun k => ?_⟩
    simp only [List.flatten_append, List.flatten_cons, keyFilter_append] at ihf ⊢
    rw [keyFilter_cons, ihf, keyFilter_cons]
    by_cases hk : key h = k
    · have hnil : keyFilter key k pre.flatten = [] :=
        List.filter_eq_nil_iff.mpr fun y hy e => (hpre y hy).ne (hk.trans (of_decide_eq_true e).symm)
      simp [hk, hnil]
    · simp [hk]

theorem KMerge.eq_stableSort {cs : List (List α)} {out : List α} (hm : KMerge key cs out)
    (hs : ∀ c ∈ cs, KeySorted key c) : out = stableSort key cs.flatten :=
  StableSort.eq_stableSort (hm.sorted_filter hs).1 (hm.sorted_filter hs).2

end SzseMerge.KWayMerge
