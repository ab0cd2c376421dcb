import SzseMerge.FileSystem
import SzseMerge.KWayMerge

/-!
# `merge_batch`: a heap of one line per input file

`merge_batch` opens every input, checks that its header equals the first
file's, and pushes `(parse_key(line), idx, line)` for each first data line.
It then writes the header and, until the heap is empty, pops the least item,
writes its line and pushes the next line of the same file. `heapq` is
modelled by its contract: `heappop` returns the least item. The heap holds
one item per unfinished file, so the loop carries out `KMerge` on the files'
remaining lines.
-/

set_option autoImplicit false

namespace SzseMerge.MergeBatch
open SzseMerge.Text SzseMerge.StableSort SzseMerge.KWayMerge SzseMerge.FileSystem

/-- A heap item, the tuple `(key, idx, line)`. -/
structure HeapEntry where
  key : Int × Int
  idx : Nat
  line : List Char
  deriving DecidableEq, Repr

/-- Python's `<` on heap items: the tuples compared field by field. -/
def HeapEntry.lt (a b : HeapEntry) : Bool :=
  decide (toLex a.key < toLex b.key) ||
    (a.key == b.key && (decide (a.idx < b.idx) || (a.idx == b.idx && decide (a.line < b.line))))

/-- `heapq.heappop`: the least item and the remaining heap. -/
def heappop : List HeapEntry → Option (HeapEntry × List HeapEntry)
  | [] => none
  | e :: h =>
    match heappop h with
    | none => some (e, [])
    | some (m, rest) => if m.lt e then some (m, e :: rest) else some (e, m :: rest)

/-- `heapq.heappush`. -/
def heappush (h : List HeapEntry) (e : HeapEntry) : List HeapEntry := e :: h

/-- `f.readline()` on a file positioned before the lines `ls`: the next line,
`""` at the end. -/
def readline : List (List Char) → List Char × List (List Char)
  | [] => ([], [])
  | l :: ls => (l, ls)

/-- The key `parse_key` gives a line; `(0, 0)` stands in when it raises. -/
def lineKey (l : List Char) : Int × Int :=
  match parseKey l with
  | .ok k => k
  | .error _ => (0, 0)

/-- `parse_key` returns on the line. -/
def Parses (l : List Char) : Prop := parseKey l = .ok (lineKey l)

theorem parses_iff (l : List Char) : Parses l ↔ (parseKey l).toBool = true := by
  unfold Parses lineKey
  cases parseKey l <;> simp [Except.toBool]

instance : DecidablePred Parses := fun l => decidable_of_iff _ (parses_iff l).symm

/-- The order the merge sorts by: Python's comparison of key tuples. -/
def sortKey (l : List Char) : Int ×ₗ Int := toLex (lineKey l)

/-- The `while heap:` loop. It returns the lines written, in order, and the
exception that stopped it, if any. -/
def drain : Nat → List HeapEntry → List (List (List Char)) → List (List Char) × Option String
  | 0, _, _ => ([], none)
  | fuel + 1, heap, files =>
    match heappop heap with
    | none => ([], none)
    | some (e, heap) =>
      let (next, rest) := readline (files.getD e.idx [])
      if next.isEmpty then
        let r := drain fuel heap files
        (e.line :: r.1, r.2)
      else
        match parseKey next with
        | .error msg => ([e.line], some msg)
        | .ok key =>
          let r := drain fuel (heappush heap ⟨key, e.idx, next⟩) (files.set e.idx rest)
          (e.line :: r.1, r.2)

/-- The `for idx, path in enumerate(input_paths)` loop over the paths and what
`open` finds there. It returns the header, the open files past their first
data line, and the heap. -/
def openInputs (idx : Nat) (header : Option (List Char)) (files : List (List (List Char)))
    (heap : List HeapEntry) :
    List (String × Option (List Char)) →
      Except String (Option (List Char) × List (List (List Char)) × List HeapEntry)
  | [] => .ok (header, files, heap)
  | (path, none) :: _ => .error (notFound path)
  | (path, some text) :: rest =>
    let (fileHeader, body) := readline (lines text)
    if header.any (· != fileHeader) then .error ("Header mismatch in " ++ path)
    else
      let (line, body) := readline body
      if line.isEmpty then
        openInputs (idx + 1) (some (header.getD fileHeader)) (files ++ [body]) heap rest
      else
        match parseKey line with
        | .error msg => .error msg
        | .ok key => openInputs (idx + 1) (some (header.getD fileHeader)) (files ++ [body])
            (heappush heap ⟨key, idx, line⟩) rest

/-- What `merge_batch` leaves: it raised before opening its output, it had no
input and returned, or it wrote `text` to the output and then returned or
raised. -/
inductive BatchRun where
  | failed (msg : String)
  | empty
  | wrote (text : List Char) (err : Option String)
  deriving DecidableEq

/-- `merge_batch` on the paths paired with what `open` finds at them. The
loop's fuel is the number of lines still to write, plus one. -/
def batchRun (inputs : List (String × Option (List Char))) : BatchRun :=
  match openInputs 0 none [] [] inputs with
  | .error msg => .failed msg
  | .ok (none, _, _) => .empty
  | .ok (some header, files, heap) =>
    let r := drain (heap.length + (files.map List.length).sum + 1) heap files
    .wrote (header ++ r.1.flatten) r.2

/-- `merge_batch(input_paths, output_path)`. It reads its inputs whole before it writes;
CPython reads them through a buffer after opening, and so truncating, the output, so an
output that is also an input is outside the model. -/
def mergeBatch (inputPaths : List String) (outputPath : String) : Py Unit := fun fs =>
  match batchRun (inputPaths.map fun p => (p, fs p)) with
  | .failed msg => .error msg fs
  | .empty => .ok () fs
  | .wrote text none => .ok () (fs.write outputPath text)
  | .wrote text (some msg) => .error msg (fs.write outputPath text)

example : batchRun [("a", some "H\r\n1,2,x\r\n1,5,y\r\n".toList), ("b", some "H\r\n1,2,z\r\n".toList)] =
    .wrote "H\r\n1,2,x\r\n1,2,z\r\n1,5,y\r\n".toList none := by decide

/-! ## The heap -/

/-- The order of items from different files: key first, then file number. -/
def HeapEntry.rank (e : HeapEntry) : (Int ×ₗ Int) ×ₗ Nat := toLex (toLex e.key, e.idx)

theorem HeapEntry.lt_iff_rank {a b : HeapEntry} (h : a.idx ≠ b.idx) :
    a.lt b = true ↔ a.rank < b.rank := by
  simp [HeapEntry.lt, HeapEntry.rank, Prod.Lex.lt_iff, h]

theorem HeapEntry.rank_ne {a b : HeapEntry} (h : a.idx ≠ b.idx) : a.rank ≠ b.rank := by
  intro e
  exact h (by simpa [HeapEntry.rank] using congrArg (fun r => (ofLex r).2) e)

@[simp] theorem heappop_eq_none {h : List HeapEntry} : heappop h = none ↔ h = [] := by
  cases h with
  | nil => simp [heappop]
  | cons e h => simp only [heappop, reduceCtorEq, iff_false]; split <;> [simp; split <;> simp]

theorem heappop_spec {h : List HeapEntry} (hn : (h.map HeapEntry.idx).Nodup) {m : HeapEntry}
    {rest : List HeapEntry} (hp : heappop h = some (m, rest)) :
    List.Perm h (m :: rest) ∧ ∀ x ∈ rest, m.rank < x.rank := by
  induction h generalizing m rest with
  | nil => simp [heappop] at hp
  | cons e h ih =>
    rw [List.map_cons, List.nodup_cons] at hn
    simp only [heappop] at hp
    split at hp
    · rename_i he
      obtain ⟨rfl, rfl⟩ := Prod.mk.inj (Option.some.inj hp).symm
      simp [heappop_eq_none.mp he]
    · rename_i m' rest' he
      obtain ⟨hperm, hmin⟩ := ih hn.2 he
      have hne : e.idx ≠ m'.idx := fun e' => hn.1 (e' ▸ List.mem_map_of_mem _ (hperm.mem_iff.mpr (.head _)))
      split at hp <;> obtain ⟨rfl, rfl⟩ := Prod.mk.inj (Option.some.inj hp).symm
      · rename_i hlt
        refine ⟨(hperm.cons e).trans (.swap _ _ _), ?_⟩
        rintro x (_ | ⟨_, hx⟩)
        exacts [(HeapEntry.lt_iff_rank hne.symm).mp hlt, hmin x hx]
      · rename_i hlt
        have hlt' : m.rank < m'.rank :=
          lt_of_le_of_ne (not_lt.mp fun h => hlt ((HeapEntry.lt_iff_rank hne.symm).mpr h))
            (HeapEntry.rank_ne hne)
        refine ⟨hperm.cons m, ?_⟩
        rintro x (_ | ⟨_, hx⟩)
        exacts [hlt', hlt'.trans (hmin x hx)]

/-! ## The heap holds the heads of the files -/

/-- The heap items for the first lines of the cursors `cs`, numbered from `i`. -/
def headsFrom : Nat → List (List (List Char)) → List HeapEntry
  | _, [] => []
  | i, [] :: cs => headsFrom (i + 1) cs
  | i, (l :: _) :: cs => ⟨lineKey l, i, l⟩ :: headsFrom (i + 1) cs

theorem headsFrom_append (i : Nat) (pre post : List (List (List Char))) :
    headsFrom i (pre ++ post) = headsFrom i pre ++ headsFrom (i + pre.length) post := by
  induction pre generalizing i with
  | nil => rfl
  | cons c pre ih =>
    cases c <;> simp [headsFrom, ih, Nat.add_assoc, Nat.add_comm 1]

theorem idx_of_mem_headsFrom {i : Nat} {cs : List (List (List Char))} {e : HeapEntry}
    (h : e ∈ headsFrom i cs) : i ≤ e.idx ∧ e.idx < i + cs.length := by
  induction cs generalizing i with
  | nil => simp [headsFrom] at h
  | cons c cs ih =>
    cases c with
    | nil => have := ih h; simp; omega
    | cons l _ =>
      rcases List.mem_cons.mp h with rfl | h
      · simp
      · have := ih h; simp; omega

theorem nodup_headsFrom (i : Nat) (cs : List (List (List Char))) :
    ((headsFrom i cs).map HeapEntry.idx).Nodup := by
  induction cs generalizing i with
  | nil => simp [headsFrom]
  | cons c cs ih =>
    cases c with
    | nil => exact ih _
    | cons l _ =>
      refine List.nodup_cons.mpr ⟨fun h => ?_, ih _⟩
      obtain ⟨x, hx, hxi⟩ := List.mem_map.mp h
      have := (idx_of_mem_headsFrom hx).1
      simp at hxi
      omega

theorem headsFrom_eq_nil {i : Nat} {cs : List (List (List Char))} :
    headsFrom i cs = [] ↔ ∀ c ∈ cs, c = [] := by
  induction cs generalizing i with
  | nil => simp [headsFrom]
  | cons c cs ih => cases c <;> simp [headsFrom, ih]

theorem exists_mem_headsFrom {i : Nat} {cs : List (List (List Char))} {c : List (List Char)}
    (hc : c ∈ cs) {y : List Char} (hy : y ∈ c.head?) :
    ∃ j, j < i + cs.length ∧ i ≤ j ∧ (⟨lineKey y, j, y⟩ : HeapEntry) ∈ headsFrom i cs := by
  obtain ⟨pre, post, rfl⟩ := List.append_of_mem hc
  obtain ⟨t, rfl⟩ : ∃ t, c = y :: t := by
    cases c with
    | nil => simp at hy
    | cons z t => exact ⟨t, by simp_all⟩
  refine ⟨i + pre.length, by simp, by omega, ?_⟩
  rw [headsFrom_append]
  simp [headsFrom]

theorem split_of_mem_headsFrom {i : Nat} {cs : List (List (List Char))} {e : HeapEntry}
    (h : e ∈ headsFrom i cs) :
    ∃ pre t post, cs = pre ++ (e.line :: t) :: post ∧ e.idx = i + pre.length ∧
      e.key = lineKey e.line := by
  induction cs generalizing i with
  | nil => simp [headsFrom] at h
  | cons c cs ih =>
    cases c with
    | nil =>
      obtain ⟨pre, t, post, rfl, hi, hk⟩ := ih h
      exact ⟨[] :: pre, t, post, rfl, by simp [hi]; omega, hk⟩
    | cons l t =>
      rcases List.mem_cons.mp h with rfl | h
      · exact ⟨[], t, cs, rfl, by simp, rfl⟩
      · obtain ⟨pre, t', post, rfl, hi, hk⟩ := ih h
        exact ⟨(l :: t) :: pre, t', post, rfl, by simp [hi]; omega, hk⟩

theorem length_headsFrom (i : Nat) (cs : List (List (List Char))) :
    (headsFrom i cs).length + ((cs.map List.tail).map List.length).sum = cs.flatten.length := by
  induction cs generalizing i with
  | nil => rfl
  | cons c cs ih =>
    cases c with
    | nil => simp [headsFrom, ← ih (i + 1)]
    | cons l t => simp [headsFrom, ← ih (i + 1)]; omega

/-- The Python state `(heap, files)` holds the cursors `cs`: every file is
past its cursor's head, and the heap holds exactly those heads, parsed. -/
structure Holds (heap : List HeapEntry) (files cs : List (List (List Char))) : Prop where
  files_eq : files = cs.map List.tail
  perm : List.Perm heap (headsFrom 0 cs)
  heads_parse : ∀ c ∈ cs, ∀ l ∈ c.head?, Parses l
  lines_ne : ∀ c ∈ cs, ∀ l ∈ c, l ≠ []

theorem headsFrom_middle (pre post : List (List (List Char))) (l : List Char) (t : List (List Char)) :
    headsFrom 0 (pre ++ (l :: t) :: post) =
      headsFrom 0 pre ++ ⟨lineKey l, pre.length, l⟩ :: headsFrom (pre.length + 1) post := by
  rw [headsFrom_append]
  simp [headsFrom]

theorem rank_lt_iff {a b : HeapEntry} :
    a.rank < b.rank ↔ toLex a.key < toLex b.key ∨ a.key = b.key ∧ a.idx < b.idx := by
  simp [HeapEntry.rank, Prod.Lex.lt_iff]

theorem pop_spec {heap : List HeapEntry} {files cs : List (List (List Char))}
    (h : Holds heap files cs) {e : HeapEntry} {heap' : List HeapEntry}
    (hp : heappop heap = some (e, heap')) :
    ∃ pre t post, cs = pre ++ (e.line :: t) :: post ∧ e = ⟨lineKey e.line, pre.length, e.line⟩ ∧
      (∀ c ∈ pre, ∀ y ∈ c.head?, sortKey e.line < sortKey y) ∧
      (∀ c ∈ post, ∀ y ∈ c.head?, sortKey e.line ≤ sortKey y) ∧
      List.Perm heap' (headsFrom 0 pre ++ headsFrom (pre.length + 1) post) := by
  have hn := (h.perm.map HeapEntry.idx).nodup_iff.mpr (nodup_headsFrom 0 cs)
  obtain ⟨hperm, hmin⟩ := heappop_spec hn hp
  obtain ⟨pre, t, post, rfl, hidx, hkey⟩ :=
    split_of_mem_headsFrom (h.perm.subset (hperm.symm.subset (.head _)))
  have he : e = ⟨lineKey e.line, pre.length, e.line⟩ := by
    cases e; simp_all
  have hrest : List.Perm heap' (headsFrom 0 pre ++ headsFrom (pre.length + 1) post) := by
    have := hperm.symm.trans (h.perm.trans (by rw [headsFrom_middle, ← he]))
    exact (this.trans List.perm_middle).cons_inv
  refine ⟨pre, t, post, rfl, he, fun c hc y hy => ?_, fun c hc y hy => ?_, hrest⟩
  · obtain ⟨j, hj, -, hx⟩ := exists_mem_headsFrom (i := 0) hc hy
    have := rank_lt_iff.mp (hmin _ (hrest.symm.subset (List.mem_append_left _ hx)))
    rw [he] at this
    simp only [sortKey]
    rcases this with h | ⟨-, h⟩
    · exact h
    · simp at h hj; omega
  · obtain ⟨j, -, hj, hx⟩ := exists_mem_headsFrom (i := pre.length + 1) hc hy
    have := rank_lt_iff.mp (hmin _ (hrest.symm.subset (List.mem_append_right _ hx)))
    rw [he] at this
    simp only [sortKey]
    rcases this with h | ⟨h, -⟩
    · exact h.le
    · simp only at h; rw [h]

theorem parses_middle {pre post : List (List (List Char))} {l : List Char} {t : List (List Char)}
    (hl : Parses l) :
    (∀ c ∈ pre ++ (l :: t) :: post, ∀ x ∈ c, Parses x) ↔ ∀ c ∈ pre ++ t :: post, ∀ x ∈ c, Parses x := by
  simp only [List.mem_append, List.mem_cons, or_imp, forall_and, forall_eq, hl, true_and]

theorem parses_of_ok {l : List Char} {k : Int × Int} (h : parseKey l = .ok k) :
    Parses l ∧ lineKey l = k := by
  simp [Parses, lineKey, h]

theorem tail_map_middle (pre post : List (List (List Char))) (l : List Char) (t : List (List Char)) :
    (pre ++ (l :: t) :: post).map List.tail = pre.map List.tail ++ t :: post.map List.tail := by
  simp

theorem getD_middle {β : Type} (pre post : List β) (x d : β) :
    (pre ++ x :: post).getD pre.length d = x := by
  induction pre <;> simp_all

theorem forall_middle {P : List (List Char) → Prop} {pre post : List (List (List Char))}
    {l : List Char} {t : List (List Char)} (h : ∀ c ∈ pre ++ (l :: t) :: post, P c)
    (ht : P (l :: t) → P t) : ∀ c ∈ pre ++ t :: post, P c := by
  intro c hc
  simp only [List.mem_append, List.mem_cons] at hc
  rcases hc with hc | rfl | hc
  · exact h c (by simp [hc])
  · exact ht (h _ (by simp))
  · exact h c (by simp [hc])

theorem Holds.advance_nil {heap heap' : List HeapEntry} {files : List (List (List Char))}
    {pre post : List (List (List Char))} {l : List Char} (h : Holds heap files (pre ++ [l] :: post))
    (hrest : List.Perm heap' (headsFrom 0 pre ++ headsFrom (pre.length + 1) post)) :
    Holds heap' files (pre ++ [] :: post) where
  files_eq := by rw [h.files_eq]; simp
  perm := by rw [headsFrom_append]; simpa [headsFrom, Nat.add_comm 1] using hrest
  heads_parse := forall_middle h.heads_parse fun _ => by simp
  lines_ne := forall_middle h.lines_ne fun _ => by simp

theorem Holds.advance_cons {heap heap' : List HeapEntry} {files : List (List (List Char))}
    {pre post : List (List (List Char))} {l next : List Char} {t : List (List Char)}
    (h : Holds heap files (pre ++ (l :: next :: t) :: post))
    (hrest : List.Perm heap' (headsFrom 0 pre ++ headsFrom (pre.length + 1) post))
    (hnext : Parses next) :
    Holds (heappush heap' ⟨lineKey next, pre.length, next⟩) (files.set pre.length t)
      (pre ++ (next :: t) :: post) where
  files_eq := by rw [h.files_eq, tail_map_middle, tail_map_middle]; simp
  perm := by rw [headsFrom_middle]; exact (hrest.cons _).trans List.perm_middle.symm
  heads_parse := forall_middle h.heads_parse fun _ y hy => by simp at hy; exact hy ▸ hnext
  lines_ne := forall_middle h.lines_ne fun hl y hy => hl y (.tail _ hy)

/-- **The loop carries out the merge.** From a held state with enough fuel,
`drain` ends without an exception exactly when every remaining line parses,
and then what it wrote is a run of `KMerge` over the cursors. -/
theorem drain_spec {fuel : Nat} {heap : List HeapEntry} {files cs : List (List (List Char))}
    (h : Holds heap files cs) (hf : cs.flatten.length < fuel) :
    ((drain fuel heap files).2 = none ↔ ∀ c ∈ cs, ∀ l ∈ c, Parses l) ∧
      ((drain fuel heap files).2 = none → KMerge sortKey cs (drain fuel heap files).1) := by
  induction fuel generalizing heap files cs with
  | zero => omega
  | succ f ih =>
    rw [drain]
    cases hp : heappop heap with
    | none =>
      obtain rfl := heappop_eq_none.mp hp
      have hcs : ∀ c ∈ cs, c = [] := headsFrom_eq_nil.mp h.perm.symm.eq_nil
      exact ⟨iff_of_true rfl fun c hc l hl => by simp [hcs c hc] at hl, fun _ => .done hcs⟩
    | some r =>
      obtain ⟨e, heap1⟩ := r
      obtain ⟨pre, t, post, rfl, he, hlt, hle, hrest⟩ := pop_spec h hp
      have hhead : Parses e.line := h.heads_parse (e.line :: t) (by simp) e.line rfl
      have hfile : files.getD e.idx [] = t := by
        rw [h.files_eq, tail_map_middle, he]
        simpa using getD_middle (pre.map List.tail) (post.map List.tail) t []
      have hlen : (pre ++ t :: post).flatten.length < f := by simp at hf ⊢; omega
      dsimp only
      rw [hfile]
      cases t with
      | nil =>
        obtain ⟨ih1, ih2⟩ := ih (h.advance_nil hrest) hlen
        refine ⟨?_, fun hn => .step hlt hle (ih2 (by simpa [readline] using hn))⟩
        rw [parses_middle hhead, ← ih1]
        simp [readline]
      | cons next t' =>
        have hne : next ≠ [] := h.lines_ne (e.line :: next :: t') (by simp) next (by simp)
        simp only [readline, List.isEmpty_iff, hne, if_false]
        cases hk : parseKey next with
        | error msg =>
          refine ⟨iff_of_false (by simp) fun hall => ?_, by simp⟩
          have := hall (e.line :: next :: t') (by simp) next (by simp)
          rw [Parses, hk] at this
          cases this
        | ok key =>
          obtain ⟨hnext, rfl⟩ := parses_of_ok hk
          rw [he]
          obtain ⟨ih1, ih2⟩ := ih (h.advance_cons hrest hnext) hlen
          exact ⟨by rw [parses_middle hhead, ← ih1], fun hn => .step hlt hle (ih2 hn)⟩

/-! ## Opening the inputs -/

/-- A file's header line, as its first `readline` returns it. -/
def headerOf (text : List Char) : List Char := (readline (lines text)).1

/-- A file's data lines, the `readline` results after the header. -/
def bodyOf (text : List Char) : List (List Char) := (readline (lines text)).2

theorem readline_lines (text : List Char) : readline (lines text) = (headerOf text, bodyOf text) :=
  rfl

theorem bodyOf_ne_nil {text l : List Char} (h : l ∈ bodyOf text) : l ≠ [] := by
  unfold bodyOf at h
  cases hl : lines text with
  | nil => simp [hl, readline] at h
  | cons x xs =>
    exact lines_ne_nil_of_mem (hl ▸ List.mem_cons_of_mem _ (by simpa [hl, readline] using h))

/-- The heap once a newly opened file's first data line, if any, is pushed. -/
def pushHead (heap : List HeapEntry) (i : Nat) : List (List Char) → List HeapEntry
  | [] => heap
  | l :: _ => heappush heap ⟨lineKey l, i, l⟩

theorem Holds.snoc {heap : List HeapEntry} {files cs : List (List (List Char))}
    (h : Holds heap files cs) {c : List (List Char)} (hc : ∀ l ∈ c, l ≠ [])
    (hp : ∀ l ∈ c.head?, Parses l) :
    Holds (pushHead heap cs.length c) (files ++ [c.tail]) (cs ++ [c]) where
  files_eq := by rw [h.files_eq]; simp
  perm := by
    rw [headsFrom_append]
    cases c with
    | nil => simpa [headsFrom, pushHead] using h.perm
    | cons l t => exact (h.perm.cons _).trans (by simpa [headsFrom] using (List.perm_append_singleton _ _).symm)
  heads_parse := by
    intro x hx
    rcases List.mem_append.mp hx with hx | hx
    exacts [h.heads_parse x hx, by simp at hx; exact hx ▸ hp]
  lines_ne := by
    intro x hx
    rcases List.mem_append.mp hx with hx | hx
    exacts [h.lines_ne x hx, by simp at hx; exact hx ▸ hc]

/-- What the open loop leaves, for present files whose header is `H`: the
header, and a state holding the files' data lines when every first data line
parses; an exception otherwise. -/
def OpenSpec (H : List Char) (hdr : Option (List Char)) (cs : List (List (List Char)))
    (texts : List (List Char)) :
    Except String (Option (List Char) × List (List (List Char)) × List HeapEntry) → Prop
  | .ok (hdr', files', heap') => (hdr' = if texts = [] then hdr else some H) ∧
      Holds heap' files' (cs ++ texts.map bodyOf) ∧ ∀ t ∈ texts, ∀ l ∈ (bodyOf t).head?, Parses l
  | .error _ => ∃ t ∈ texts, ∃ l ∈ (bodyOf t).head?, ¬ Parses l

theorem openInputs_spec {H : List Char} (hdr : Option (List Char)) (hhdr : ∀ x ∈ hdr, x = H)
    {cs : List (List (List Char))} {files : List (List (List Char))} {heap : List HeapEntry}
    (h : Holds heap files cs) (inputs : List (String × Option (List Char)))
    (texts : List (List Char)) (hin : inputs.map Prod.snd = texts.map some)
    (hH : ∀ t ∈ texts, headerOf t = H) :
    OpenSpec H hdr cs texts (openInputs cs.length hdr files heap inputs) := by
  induction inputs generalizing texts hdr cs files heap with
  | nil =>
    obtain rfl : texts = [] := by simpa using hin.symm
    exact ⟨by simp, by simpa using h, by simp⟩
  | cons inp inputs ih =>
    obtain ⟨path, text⟩ := inp
    cases texts with
    | nil => simp at hin
    | cons t texts =>
      simp only [List.map_cons, List.cons.injEq] at hin
      obtain ⟨rfl, hin⟩ := hin
      have ht : headerOf t = H := hH t (.head _)
      -- Every file so far had the header `H`, and so does this one.
      obtain ⟨hany, hgd⟩ : hdr.any (· != headerOf t) = false ∧ hdr.getD (headerOf t) = H := by
        cases hdr with
        | none => exact ⟨rfl, ht⟩
        | some x => simp [hhdr x rfl, ht]
      rw [openInputs, readline_lines]
      dsimp only
      rw [hany, if_neg Bool.false_ne_true]
      have hsnoc := @Holds.snoc _ _ _ h (bodyOf t) (fun _ => bodyOf_ne_nil)
      have hlen : cs.length + 1 = (cs ++ [bodyOf t]).length := by simp
      -- The rest of the loop runs from the state with this file's data lines added.
      have key : ∀ {heap' files'} (hh : Holds heap' files' (cs ++ [bodyOf t]))
          (hp : ∀ l ∈ (bodyOf t).head?, Parses l),
          OpenSpec H hdr cs (t :: texts)
            (openInputs (cs.length + 1) (some H) files' heap' inputs) := by
        intro heap' files' hh hp
        have := ih (some H) (fun _ hx => (Option.some.inj hx).symm) hh texts hin
          (fun x hx => hH x (.tail _ hx))
        rw [hlen]
        generalize openInputs _ _ _ _ inputs = r at this ⊢
        rcases r with _ | ⟨hdr', files', heap'⟩
        · obtain ⟨x, hx, y, hy, hn⟩ := this
          exact ⟨x, .tail _ hx, y, hy, hn⟩
        · obtain ⟨h1, h2, h3⟩ := this
          refine ⟨by simp [h1], by simpa using h2, ?_⟩
          rintro x (_ | ⟨_, hx⟩)
          exacts [hp, h3 x hx]
      rw [hgd]
      cases hb : bodyOf t with
      | nil =>
        simp only [readline, List.isEmpty_nil, if_true]
        exact key (by simpa [hb, pushHead] using hsnoc (by simp [hb])) (by simp [hb])
      | cons l body =>
        have hl : l ≠ [] := bodyOf_ne_nil (hb ▸ List.mem_cons_self _ _)
        simp only [readline, List.isEmpty_iff, hl, if_false]
        cases hk : parseKey l with
        | error msg => exact ⟨t, .head _, l, by simp [hb], by simp [Parses, hk]⟩
        | ok key' =>
          obtain ⟨hp, rfl⟩ := parses_of_ok hk
          exact key (by simpa [hb, pushHead] using hsnoc (by simpa [hb] using hp))
            (by simpa [hb] using hp)

/-- What the open loop needs of its inputs, once the header `hdr` has been read: every file
is present, all of them have one header `H` that agrees with `hdr`, and every first data
line parses. -/
def Openable (hdr : Option (List Char)) (inputs : List (String × Option (List Char))) : Prop :=
  ∃ texts : List (List Char), inputs.map Prod.snd = texts.map some ∧ ∃ H, (∀ x ∈ hdr, x = H) ∧
    ∀ t ∈ texts, headerOf t = H ∧ ∀ l ∈ (bodyOf t).head?, Parses l

theorem openable_nil (hdr : Option (List Char)) : Openable hdr [] :=
  ⟨[], rfl, hdr.getD [], fun x hx => by rw [Option.mem_def.mp hx]; rfl, by simp⟩

theorem not_openable_none {path : String} {hdr : Option (List Char)}
    {inputs : List (String × Option (List Char))} : ¬ Openable hdr ((path, none) :: inputs) := by
  rintro ⟨_ | ⟨t, texts⟩, h, -⟩ <;> simp at h

theorem openable_cons {path : String} {t : List Char} {hdr : Option (List Char)}
    {inputs : List (String × Option (List Char))} :
    Openable hdr ((path, some t) :: inputs) ↔ (∀ x ∈ hdr, x = headerOf t) ∧
      (∀ l ∈ (bodyOf t).head?, Parses l) ∧ Openable (some (headerOf t)) inputs := by
  constructor
  · rintro ⟨_ | ⟨u, texts⟩, h, H, hx, hall⟩
    · simp at h
    · simp only [List.map_cons, List.cons.injEq, Option.some.injEq] at h
      obtain ⟨rfl, h⟩ := h
      obtain ⟨ht, hp⟩ := hall t (.head _)
      exact ⟨fun x hxm => (hx x hxm).trans ht.symm, hp, texts, h, H,
        fun x hxm => (Option.some.inj hxm).symm.trans ht, fun u hu => hall u (.tail _ hu)⟩
  · rintro ⟨hx, hp, texts, h, H, hH, hall⟩
    have ht : headerOf t = H := hH _ rfl
    refine ⟨t :: texts, by simp [h], H, fun x hxm => (hx x hxm).trans ht, ?_⟩
    rintro u (_ | ⟨_, hu⟩)
    exacts [⟨ht, hp⟩, hall u hu]

theorem any_ne_iff {hdr : Option (List Char)} {H : List Char} :
    hdr.any (· != H) = true ↔ ¬ ∀ x ∈ hdr, x = H := by
  cases hdr <;> simp

/-- **The open loop returns exactly on openable inputs.** It raises on a missing file, a
header that differs from the first file's, or a first data line `parse_key` rejects. -/
theorem openInputs_ok_iff (idx : Nat) (hdr : Option (List Char))
    (files : List (List (List Char))) (heap : List HeapEntry)
    (inputs : List (String × Option (List Char))) :
    (∃ r, openInputs idx hdr files heap inputs = .ok r) ↔ Openable hdr inputs := by
  induction inputs generalizing idx hdr files heap with
  | nil => exact iff_of_true ⟨_, rfl⟩ (openable_nil hdr)
  | cons inp inputs ih =>
    obtain ⟨path, _ | t⟩ := inp
    · exact iff_of_false (fun ⟨_, h⟩ => Except.noConfusion h) not_openable_none
    rw [openable_cons, openInputs, readline_lines]
    dsimp only
    by_cases hm : hdr.any (· != headerOf t) = true
    · exact iff_of_false (fun ⟨_, h⟩ => by rw [if_pos hm] at h; cases h)
        fun ⟨hx, _⟩ => any_ne_iff.mp hm hx
    -- the header so far agrees with this file's
    have hx : ∀ x ∈ hdr, x = headerOf t := not_not.mp (mt any_ne_iff.mpr hm)
    have hgd : hdr.getD (headerOf t) = headerOf t := by
      cases hdr with
      | none => rfl
      | some x => exact hx x rfl
    rw [if_neg hm, hgd]
    cases hb : bodyOf t with
    | nil =>
      simp only [readline, List.isEmpty_nil, if_true, ih]
      exact ⟨fun h => ⟨hx, by simp, h⟩, fun h => h.2.2⟩
    | cons l body =>
      have hl : l ≠ [] := bodyOf_ne_nil (hb ▸ List.mem_cons_self _ _)
      simp only [readline, List.isEmpty_iff, hl, if_false]
      cases hk : parseKey l with
      | error msg =>
        exact iff_of_false (fun ⟨_, h⟩ => Except.noConfusion h)
          fun ⟨_, hp, _⟩ => by simp [Parses, hk] at hp
      | ok key =>
        simp only [ih]
        exact ⟨fun h => ⟨hx, by simpa using (parses_of_ok hk).1, h⟩, fun h => h.2.2⟩

/-! ## `merge_batch` -/

theorem holds_nil : Holds [] [] [] := ⟨rfl, .nil, by simp, by simp⟩

theorem batchRun_spec {H : List Char} (inputs : List (String × Option (List Char)))
    (texts : List (List Char)) (hin : inputs.map Prod.snd = texts.map some) (hne : texts ≠ [])
    (hH : ∀ t ∈ texts, headerOf t = H) :
    batchRun inputs ≠ .empty ∧
    (∀ text, batchRun inputs = .wrote text none →
      ∃ L, text = H ++ L.flatten ∧ KMerge sortKey (texts.map bodyOf) L) ∧
    ((∃ text, batchRun inputs = .wrote text none) ↔ ∀ t ∈ texts, ∀ l ∈ bodyOf t, Parses l) := by
  have hos : OpenSpec H none [] texts (openInputs 0 none [] [] inputs) :=
    openInputs_spec none (by simp) holds_nil inputs texts hin hH
  unfold batchRun
  generalize openInputs 0 none [] [] inputs = r at hos ⊢
  rcases r with _ | ⟨hdr', files, heap⟩
  · obtain ⟨t, ht, l, hl, hn⟩ := hos
    refine ⟨by simp, by simp, iff_of_false (by simp) fun hall => hn (hall t ht l ?_)⟩
    exact List.mem_of_mem_head? hl
  · obtain ⟨rfl, hh, -⟩ := hos
    simp only [hne, if_false, List.nil_append] at hh ⊢
    have hfuel : (texts.map bodyOf).flatten.length <
        heap.length + (files.map List.length).sum + 1 := by
      rw [hh.perm.length_eq, hh.files_eq, ← length_headsFrom 0]
      omega
    obtain ⟨h1, h2⟩ := drain_spec hh hfuel
    refine ⟨by simp, fun text ht => ?_, ?_⟩
    · simp only [BatchRun.wrote.injEq] at ht
      exact ⟨_, ht.1.symm, h2 ht.2⟩
    · simp only [BatchRun.wrote.injEq, exists_and_right, exists_eq', true_and]
      simpa using h1

theorem after_mergeBatch (paths : List String) (out : String) (fs : FS) :
    after (mergeBatch paths out fs) = fs ∨ ∃ text, after (mergeBatch paths out fs) = fs.write out text := by
  unfold mergeBatch
  split
  · exact .inl rfl
  · exact .inl rfl
  · exact .inr ⟨_, rfl⟩
  · exact .inr ⟨_, rfl⟩

theorem keeps_mergeBatch (paths : List String) {out q : String} (hq : q ≠ out) :
    Keeps (mergeBatch paths out) q := fun fs =>
  (after_mergeBatch paths out fs).elim (fun h => congrFun h q) fun ⟨_, h⟩ =>
    (congrFun h q).trans (FS.write_other _ _ hq)

theorem mergeBatch_sorted (fs : FS) (paths : List String) (out : String)
    (texts : List (List Char)) (H : List Char) (hfs : paths.map fs = texts.map some)
    (hne : paths ≠ []) (hH : ∀ t ∈ texts, headerOf t = H)
    (hp : ∀ t ∈ texts, ∀ l ∈ bodyOf t, Parses l) (hs : ∀ t ∈ texts, KeySorted sortKey (bodyOf t)) :
    mergeBatch paths out fs =
      .ok () (fs.write out (H ++ (stableSort sortKey (texts.map bodyOf).flatten).flatten)) := by
  have hin : (paths.map fun p => (p, fs p)).map Prod.snd = texts.map some := by simpa using hfs
  have htexts : texts ≠ [] := by rintro rfl; simp_all
  obtain ⟨-, hw, hiff⟩ := batchRun_spec _ texts hin htexts hH
  obtain ⟨text, ht⟩ := hiff.mpr hp
  obtain ⟨L, rfl, hm⟩ := hw text ht
  unfold mergeBatch
  rw [ht, hm.eq_stableSort (by simpa using hs)]

theorem mergeBatch_ok_iff {paths : List String} {out : String} {fs fs' : FS} :
    mergeBatch paths out fs = .ok () fs' ↔
      (batchRun (paths.map fun p => (p, fs p)) = .empty ∧ fs' = fs) ∨
        ∃ text, batchRun (paths.map fun p => (p, fs p)) = .wrote text none ∧
          fs' = fs.write out text := by
  unfold mergeBatch
  split <;> simp [*, eq_comm]

end SzseMerge.MergeBatch
