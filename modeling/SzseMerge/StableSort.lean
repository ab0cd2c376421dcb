import Mathlib.Data.List.Sort

/-!
# Sorting by a key, ties in input order

The merge promises output sorted by `(ChannelNo, ApplSeqNum)` with equal
keys left in the order of the inputs. `stableSort` states that promise as an
insertion sort. A list is the stable sort of another exactly when it is
sorted and holds, for every key, the same elements of that key in the same
order; the merge proofs use only this characterisation.
-/

set_option autoImplicit false

namespace SzseMerge.StableSort

variable {α κ : Type} [LinearOrder κ] (key : α → κ)

/-- Sorted by key, equal keys allowed. -/
def KeySorted (l : List α) : Prop := l.Sorted fun a b => key a ≤ key b

instance (l : List α) : Decidable (KeySorted key l) :=
  inferInstanceAs (Decidable (l.Pairwise fun a b => key a ≤ key b))

/-- The elements of key `k`, in list order. -/
def keyFilter (k : κ) (l : List α) : List α := l.filter fun a => key a = k

/-- The stable sort by key: insertion sort puts each element before the equal
keys that follow it. -/
def stableSort (l : List α) : List α := l.insertionSort fun a b => key a ≤ key b

variable {key}

@[simp] theorem keyFilter_nil (k : κ) : keyFilter key k ([] : List α) = [] := rfl

theorem keyFilter_cons (k : κ) (a : α) (l : List α) :
    keyFilter key k (a :: l) = if key a = k then a :: keyFilter key k l else keyFilter key k l := by
  by_cases h : key a = k <;> simp [keyFilter, h]

theorem keyFilter_append (k : κ) (l₁ l₂ : List α) :
    keyFilter key k (l₁ ++ l₂) = keyFilter key k l₁ ++ keyFilter key k l₂ :=
  List.filter_append ..

theorem keyFilter_flatten (k : κ) (ls : List (List α)) :
    keyFilter key k ls.flatten = (ls.map (keyFilter key k)).flatten := by
  induction ls with
  | nil => rfl
  | cons l ls ih => rw [List.flatten_cons, keyFilter_append, ih]; rfl

theorem keyFilter_orderedInsert (k : κ) (a : α) (l : List α) :
    keyFilter key k (l.orderedInsert (fun a b => key a ≤ key b) a) = keyFilter key k (a :: l) := by
  induction l with
  | nil => rfl
  | cons b l ih =>
    simp only [List.orderedInsert]
    split
    · rfl
    · rename_i hab
      rw [keyFilter_cons, ih, keyFilter_cons, keyFilter_cons, keyFilter_cons]
      by_cases ha : key a = k <;> by_cases hb : key b = k <;> simp [ha, hb]
      exact (hab (ha ▸ hb ▸ le_refl _)).elim

theorem stableSort_cons (a : α) (l : List α) :
    stableSort key (a :: l) = (stableSort key l).orderedInsert (fun a b => key a ≤ key b) a :=
  rfl

@[simp] theorem keyFilter_stableSort (k : κ) (l : List α) :
    keyFilter key k (stableSort key l) = keyFilter key k l := by
  induction l with
  | nil => rfl
  | cons a l ih => rw [stableSort_cons, keyFilter_orderedInsert, keyFilter_cons, keyFilter_cons, ih]

theorem perm_stableSort (l : List α) : List.Perm (stableSort key l) l := List.perm_insertionSort _ l

theorem sorted_stableSort (l : List α) : KeySorted key (stableSort key l) := by
  haveI : IsTotal α fun a b => key a ≤ key b := ⟨fun a b => le_total (key a) (key b)⟩
  haveI : IsTrans α fun a b => key a ≤ key b := ⟨fun _ _ _ => le_trans⟩
  exact List.sorted_insertionSort _ l

theorem mem_of_keyFilter {k : κ} {a : α} {l : List α} (h : a ∈ keyFilter key k l) : a ∈ l :=
  List.mem_of_mem_filter h

theorem eq_of_keyFilter {l₁ l₂ : List α} (h₁ : KeySorted key l₁) (h₂ : KeySorted key l₂)
    (h : ∀ k, keyFilter key k l₁ = keyFilter key k l₂) : l₁ = l₂ := by
  induction l₁ generalizing l₂ with
  | nil =>
    cases l₂ with
    | nil => rfl
    | cons b l₂ => simpa [keyFilter_cons] using (h (key b)).symm
  | cons a r₁ ih =>
    cases l₂ with
    | nil => simpa [keyFilter_cons] using h (key a)
    | cons b r₂ =>
      have hab : key a = key b := by
        have ha : a ∈ b :: r₂ := mem_of_keyFilter (k := key a) (by rw [← h]; simp [keyFilter_cons])
        have hb : b ∈ a :: r₁ := mem_of_keyFilter (k := key b) (by rw [h]; simp [keyFilter_cons])
        have h1 : key b ≤ key a := by
          rcases List.mem_cons.mp ha with rfl | ha
          exacts [le_refl _, List.rel_of_sorted_cons h₂ a ha]
        have h2 : key a ≤ key b := by
          rcases List.mem_cons.mp hb with rfl | hb
          exacts [le_refl _, List.rel_of_sorted_cons h₁ b hb]
        exact le_antisymm h2 h1
      have hk := h (key a)
      rw [keyFilter_cons, keyFilter_cons, if_pos rfl, if_pos hab.symm, List.cons.injEq] at hk
      rw [hk.1, ih h₁.of_cons h₂.of_cons fun k => ?_]
      by_cases hka : key a = k
      · subst hka; exact hk.2
      · have := h k
        rwa [keyFilter_cons, keyFilter_cons, if_neg hka, if_neg (hab ▸ hka)] at this

theorem eq_stableSort {l' l : List α} (h₁ : KeySorted key l')
    (h₂ : ∀ k, keyFilter key k l' = keyFilter key k l) : l' = stableSort key l :=
  eq_of_keyFilter h₁ (sorted_stableSort l) fun k => by rw [h₂, keyFilter_stableSort]

theorem stableSort_of_sorted {l : List α} (h : KeySorted key l) : stableSort key l = l :=
  (eq_stableSort h fun _ => rfl).symm

theorem stableSort_flatten_map (ls : List (List α)) :
    stableSort key (ls.map (stableSort key)).flatten = stableSort key ls.flatten := by
  refine (eq_stableSort (sorted_stableSort _) fun k => ?_).symm
  rw [keyFilter_stableSort, keyFilter_flatten, keyFilter_flatten, List.map_map]
  simp only [Function.comp_def, keyFilter_stableSort]

theorem keyFilter_filter (p : κ → Bool) (k : κ) (l : List α) :
    keyFilter key k (l.filter fun a => p (key a)) = if p k then keyFilter key k l else [] := by
  induction l with
  | nil => simp
  | cons a l ih =>
    by_cases ha : key a = k
    · subst ha
      cases hp : p (key a) <;> simp [List.filter_cons, keyFilter_cons, hp, ih]
    · by_cases hp : p (key a) <;> simp [List.filter_cons, keyFilter_cons, ha, hp, ih]

theorem filter_stableSort (p : κ → Bool) (l : List α) :
    (stableSort key l).filter (fun a => p (key a)) = stableSort key (l.filter fun a => p (key a)) :=
  eq_stableSort (List.Pairwise.filter _ (sorted_stableSort l)) fun k => by
    rw [keyFilter_filter, keyFilter_filter, keyFilter_stableSort]

theorem map_stableSort {β κ' : Type} [LinearOrder κ'] {key' : β → κ'} (f : α → β) {l : List α}
    (hf : ∀ a ∈ l, ∀ b ∈ l, (key' (f a) ≤ key' (f b) ↔ key a ≤ key b)) :
    (stableSort key l).map f = stableSort key' (l.map f) := by
  induction l with
  | nil => rfl
  | cons a l ih =>
    rw [stableSort_cons, List.map_cons, stableSort_cons,
      ← ih fun x hx y hy => hf x (.tail _ hx) y (.tail _ hy)]
    have hs : ∀ b ∈ stableSort key l, b ∈ a :: l := fun b hb =>
      .tail _ ((perm_stableSort l).mem_iff.mp hb)
    clear ih
    generalize stableSort key l = s at hs
    induction s with
    | nil => rfl
    | cons b s ih =>
      simp only [List.orderedInsert, List.map_cons, hf a (.head _) b (hs b (.head _))]
      split
      · rfl
      · rw [List.map_cons, ih fun c hc => hs c (.tail _ hc)]

end SzseMerge.StableSort
