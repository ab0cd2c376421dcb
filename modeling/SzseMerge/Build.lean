import SzseMerge.Events

/-!
# Building the event files

`build_event_files` walks an archive's listing, skips entries whose stem the
symbol pattern rejects, writes each remaining entry's events to
`<out_dir>/<kind>_<stem>.events.csv`, keeps the path of each entry that
produced an event, and stops after `limit_files` of them. The archive is its
listing with the rows `7z` streams for each entry; `re.search` is a parameter.
-/

set_option autoImplicit false

namespace SzseMerge.Build
open SzseMerge.Text SzseMerge.FileSystem SzseMerge.Events

/-- One archive entry: the path `7z l` lists and the rows `stream_csv_rows` yields for it. -/
structure Entry where
  innerPath : String
  rows : List Row

/-- `list_csv_paths`: the listed entries whose path ends in `.csv`. -/
def listCsvPaths (archive : List Entry) : List Entry :=
  archive.filter fun e => endswith e.innerPath ".csv"

inductive Kind
  | order
  | tick
  deriving DecidableEq

def Kind.name : Kind → String
  | .order => "order"
  | .tick => "tick"

/-- `write_order_events` or `write_tick_events`, as `kind` selects. -/
def Kind.writeEvents : Kind → List Row → String → String → Option Int → Py (Option Int)
  | .order => writeOrderEvents
  | .tick => writeTickEvents

/-- `os.path.join(out_dir, f"{kind}_{symbol}.events.csv")`. -/
def eventPath (outDir : String) (kind : Kind) (symbol : String) : String :=
  join outDir (kind.name ++ "_" ++ symbol ++ ".events.csv")

/-- The pattern `build_event_files` compiles: none unless `symbol_regex` is a non-empty
string. -/
def truthy (s : Option String) : Option String := s.filter (· ≠ "")

section Loop
variable (search : String → String → Bool) (kind : Kind) (outDir : String)
  (limitFiles : Option Int) (pattern : Option String) (onlyChannel : Option Int)

/-- The loop of `build_event_files` over the listed entries; `count` entries have produced
events so far. -/
def buildLoop : List Entry → Nat → Py (List (Int × String))
  | [], _ => pure []
  | e :: es, count =>
    if pattern.any fun p => !search p (stem e.innerPath) then buildLoop es count else do
      let outPath := eventPath outDir kind (stem e.innerPath)
      match ← kind.writeEvents e.rows e.innerPath outPath onlyChannel with
      | none => buildLoop es count
      | some channel =>
        if limitFiles.any fun l : Int => l ≤ ↑(count + 1) then pure [(channel, outPath)] else do
          let rest ← buildLoop es (count + 1)
          pure ((channel, outPath) :: rest)

end Loop

/-- `build_event_files(archive_path, kind, out_dir, limit_files, symbol_regex, only_channel)`;
`pattern.search(symbol)` is `search pattern symbol`. -/
def buildEventFiles (search : String → String → Bool) (archive : List Entry) (kind : Kind)
    (outDir : String) (limitFiles : Option Int) (symbolRegex : Option String)
    (onlyChannel : Option Int) : Py (List (Int × String)) :=
  buildLoop search kind outDir limitFiles (truthy symbolRegex) onlyChannel (listCsvPaths archive) 0

/-! ## The selection, read declaratively -/

def Kind.normalize : Kind → String → Int → Int → Row → EventRow
  | .order => orderEvent
  | .tick => tickEvent

theorem Kind.writeEvents_eq :
    ∀ k : Kind, ∃ stream, k.writeEvents = SzseMerge.Events.writeEvents k.normalize stream
  | .order => ⟨"Order", rfl⟩
  | .tick => ⟨"Tick", rfl⟩

/-- The events an entry yields: one per row the channel filter keeps. -/
def events (kind : Kind) (onlyChannel : Option Int) (e : Entry) : List EventRow :=
  (keptRows onlyChannel e.rows).map fun r => kind.normalize (stem e.innerPath) (chanOf r) (seqOf r) r

/-- The channel of the entry's first kept row, which the write returns. -/
def resolvedChannel (onlyChannel : Option Int) (e : Entry) : Int :=
  ((keptRows onlyChannel e.rows).head?.map chanOf).getD 0

/-- The pattern accepts the entry's stem. -/
def Matches (search : String → String → Bool) (pattern : Option String) (e : Entry) : Bool :=
  pattern.all fun p => search p (stem e.innerPath)

/-- The first `n` elements, or all of them. -/
def cutAt {α : Type} : Option Nat → List α → List α
  | none, l => l
  | some n, l => l.take n

/-- The entries of `es` the loop keeps: accepted by the pattern, with a kept row, cut to the
first `n`. -/
def picked (search : String → String → Bool) (pattern : Option String) (onlyChannel : Option Int)
    (n : Option Nat) (es : List Entry) : List Entry :=
  cutAt n ((es.filter (Matches search pattern)).filter fun e => !(keptRows onlyChannel e.rows).isEmpty)

/-- The entries `build_event_files` selects: listed `.csv` entries whose stem matches and that
keep a row, the first `limit_files` of them; a limit below one still lets one through. -/
def selected (search : String → String → Bool) (archive : List Entry) (limitFiles : Option Int)
    (symbolRegex : Option String) (onlyChannel : Option Int) : List Entry :=
  picked search (truthy symbolRegex) onlyChannel (limitFiles.map fun l => max 1 l.toNat)
    (listCsvPaths archive)

/-! ## Event paths -/

theorem eventPath_data (outDir : String) (kind : Kind) (symbol : String) :
    (eventPath outDir kind symbol).data =
      (join outDir "").data ++ (kind.name.data ++ '_' :: symbol.data) ++ ".events.csv".data := by
  rw [eventPath, join_data]
  simp only [String.data_append, List.append_assoc]
  rfl

theorem eventPath_inj {outDir : String} {kind : Kind} {s s' : String}
    (h : eventPath outDir kind s = eventPath outDir kind s') : s = s' := by
  have h' := congrArg String.data h
  rw [eventPath_data, eventPath_data] at h'
  exact String.ext (List.cons_injective (List.append_cancel_left
    (List.append_cancel_left (List.append_cancel_right h'))))

theorem eventPath_suffix (outDir : String) (kind : Kind) (symbol : String) :
    "s.csv".data <:+ (eventPath outDir kind symbol).data := by
  rw [eventPath_data]
  exact (show "s.csv".data <:+ ".events.csv".data from List.suffix_append ".event".data _).trans
    (List.suffix_append _ _)

theorem eventPath_join_data (root sub : String) (kind : Kind) (symbol : String) :
    ∃ rest, (eventPath (join root sub) kind symbol).data = (join root "").data ++ sub.data ++ rest := by
  obtain ⟨sep, hsep⟩ := join_empty_data (join root sub)
  rw [eventPath_data, hsep, join_data root sub]
  exact ⟨sep ++ (kind.name.data ++ '_' :: symbol.data) ++ ".events.csv".data,
    by simp only [List.append_assoc]⟩

theorem isUnder_eventPath (root sub : String) (kind : Kind) (symbol : String) :
    IsUnder root (eventPath (join root sub) kind symbol) := by
  obtain ⟨rest, h⟩ := eventPath_join_data root sub kind symbol
  rw [IsUnder, h, List.append_assoc]
  exact List.prefix_append _ _

theorem order_ne_tick_eventPath (root : String) (s s' : String) :
    eventPath (join root "order_events") .order s ≠ eventPath (join root "tick_events") .tick s' := by
  intro h
  obtain ⟨r, hr⟩ := eventPath_join_data root "order_events" .order s
  obtain ⟨r', hr'⟩ := eventPath_join_data root "tick_events" .tick s'
  have := congrArg String.data h
  rw [hr, hr', List.append_assoc, List.append_assoc] at this
  cases List.append_cancel_left this

/-! ## The loop -/

theorem any_not_eq_not_all (pattern : Option String) (f : String → Bool) :
    (pattern.any fun p => !f p) = !pattern.all f := by
  cases pattern <;> rfl

theorem cutAt_nil {α : Type} (n : Option Nat) : cutAt n ([] : List α) = [] := by
  cases n with
  | none => rfl
  | some m => exact List.take_nil

theorem cutAt_cons {α : Type} {n : Option Nat} (hn : ∀ m ∈ n, 0 < m) (a : α) (l : List α) :
    cutAt n (a :: l) = a :: cutAt (n.map (· - 1)) l := by
  cases n with
  | none => rfl
  | some m =>
    obtain ⟨m, rfl⟩ := Nat.exists_eq_succ_of_ne_zero (Nat.pos_iff_ne_zero.mp (hn _ rfl))
    rfl

section Spec
variable {search : String → String → Bool} {kind : Kind} {outDir : String}
  {limitFiles : Option Int} {pattern : Option String} {onlyChannel : Option Int}

theorem skip_iff {e : Entry} :
    (pattern.any fun p => !search p (stem e.innerPath)) = true ↔ Matches search pattern e = false := by
  rw [any_not_eq_not_all, Bool.not_eq_true']
  rfl

theorem left_pred (limitFiles : Option Int) (count : Nat) :
    (limitFiles.map fun l => max 1 l.toNat - count).map (· - 1) =
      limitFiles.map fun l => max 1 l.toNat - (count + 1) := by
  rw [Option.map_map]
  rfl

theorem left_pos {count : Nat} (hcount : ∀ l ∈ limitFiles, count < max 1 l.toNat) :
    ∀ m ∈ limitFiles.map fun l => max 1 l.toNat - count, 0 < m := by
  intro m hm
  obtain ⟨l, hl, rfl⟩ := Option.mem_map.mp hm
  have := hcount l hl
  omega

theorem left_eq_zero {count : Nat} (hcount : ∀ l ∈ limitFiles, count < max 1 l.toNat)
    (hstop : (limitFiles.any fun l : Int => l ≤ ↑(count + 1)) = true) :
    (limitFiles.map fun l => max 1 l.toNat - (count + 1)) = some 0 := by
  cases limitFiles with
  | none => cases hstop
  | some l =>
    have := hcount l rfl
    simp only [Option.any_some, decide_eq_true_eq] at hstop
    simp only [Option.map_some', Option.some.injEq]
    omega

theorem count_succ_lt {count : Nat} (hcount : ∀ l ∈ limitFiles, count < max 1 l.toNat)
    (hgo : ¬(limitFiles.any fun l : Int => l ≤ ↑(count + 1)) = true) :
    ∀ l ∈ limitFiles, count + 1 < max 1 l.toNat := by
  rintro l rfl
  have := hcount l rfl
  simp only [Option.any_some, decide_eq_true_eq] at hgo
  omega

theorem picked_reject {e : Entry} (he : Matches search pattern e = false) (n : Option Nat)
    (es : List Entry) : picked search pattern onlyChannel n (e :: es) =
      picked search pattern onlyChannel n es := by
  rw [picked, List.filter_cons_of_neg (ne_true_of_eq_false he)]
  rfl

theorem picked_empty {e : Entry} (he : Matches search pattern e = true)
    (hR : keptRows onlyChannel e.rows = []) (n : Option Nat) (es : List Entry) :
    picked search pattern onlyChannel n (e :: es) = picked search pattern onlyChannel n es := by
  rw [picked, List.filter_cons_of_pos he, List.filter_cons_of_neg (by rw [hR]; decide)]
  rfl

theorem picked_keep {e : Entry} (he : Matches search pattern e = true)
    {k : Row} {ks : List Row} (hR : keptRows onlyChannel e.rows = k :: ks) {n : Option Nat}
    (hn : ∀ m ∈ n, 0 < m) (es : List Entry) :
    picked search pattern onlyChannel n (e :: es) =
      e :: picked search pattern onlyChannel (n.map (· - 1)) es := by
  rw [picked, List.filter_cons_of_pos he, List.filter_cons_of_pos (by rw [hR]; rfl), cutAt_cons hn]
  rfl

theorem nodup_stems_tail {e : Entry} {es : List Entry}
    (h : (((e :: es).filter (Matches search pattern)).map fun e => stem e.innerPath).Nodup) :
    ((es.filter (Matches search pattern)).map fun e => stem e.innerPath).Nodup := by
  rw [List.filter_cons] at h
  split at h
  · exact (List.nodup_cons.mp h).2
  · exact h

theorem stem_fresh {e : Entry} {es : List Entry} (he : Matches search pattern e = true)
    (h : (((e :: es).filter (Matches search pattern)).map fun e => stem e.innerPath).Nodup) :
    ∀ e' ∈ es, Matches search pattern e' = true → stem e'.innerPath ≠ stem e.innerPath := by
  rw [List.filter_cons_of_pos he, List.map_cons, List.nodup_cons] at h
  exact fun e' he' hm' hs => h.1 (List.mem_map.mpr ⟨e', List.mem_filter.mpr ⟨he', hm'⟩, hs⟩)

theorem buildLoop_after {q : String} :
    ∀ (es : List Entry) (count : Nat) (fs : FS),
      (∀ e ∈ es, Matches search pattern e = true → q ≠ eventPath outDir kind (stem e.innerPath)) →
      after (buildLoop search kind outDir limitFiles pattern onlyChannel es count fs) q = fs q
  | [], _, _, _ => rfl
  | e :: es, count, fs, hq => by
    have hq' := fun e' he' => hq e' (List.mem_cons_of_mem e he')
    rw [buildLoop]
    split
    · exact buildLoop_after es count fs hq'
    · rename_i hm
      rw [skip_iff, Bool.not_eq_false] at hm
      obtain ⟨stream, hw⟩ := kind.writeEvents_eq
      refine after_bind (by rw [hw]; exact writeEvents_other _ _ _ _ _ fs (hq e (.head _) hm))
        fun v fs₁ _ => ?_
      cases v with
      | none => exact buildLoop_after es count fs₁ hq'
      | some c =>
        dsimp only
        split
        · rfl
        · exact after_bind (buildLoop_after es (count + 1) fs₁ hq') fun _ _ _ => rfl

theorem buildLoop_ok :
    ∀ (es : List Entry) (count : Nat) (fs fs' : FS) (ps : List (Int × String)),
      (∀ l ∈ limitFiles, count < max 1 l.toNat) →
      buildLoop search kind outDir limitFiles pattern onlyChannel es count fs = .ok ps fs' →
      ps = (picked search pattern onlyChannel (limitFiles.map fun l => max 1 l.toNat - count)
          es).map (fun e => (resolvedChannel onlyChannel e, eventPath outDir kind (stem e.innerPath))) ∧
      ∀ e ∈ picked search pattern onlyChannel (limitFiles.map fun l => max 1 l.toNat - count) es,
        Consistent (keptRows onlyChannel e.rows) ∧
        (((es.filter (Matches search pattern)).map fun e => stem e.innerPath).Nodup →
          fs' (eventPath outDir kind (stem e.innerPath)) = some (eventFile (events kind onlyChannel e)))
  | [], _, _, _, _, _, h => by
    cases h
    simp only [picked, List.filter_nil, cutAt_nil, List.map_nil, List.not_mem_nil,
      false_implies, implies_true, and_self]
  | e :: es, count, fs, fs', ps, hcount, h => by
    rw [buildLoop] at h
    split at h
    · rename_i hm
      rw [skip_iff] at hm
      rw [picked_reject hm, List.filter_cons_of_neg (ne_true_of_eq_false hm)]
      exact buildLoop_ok es count fs fs' ps hcount h
    · rename_i hm
      rw [skip_iff, Bool.not_eq_false] at hm
      obtain ⟨v, fs₁, hw, h2⟩ := bind_eq_ok h
      obtain ⟨stream, hk⟩ := kind.writeEvents_eq
      rw [hk] at hw
      obtain ⟨hcons, hnil, hne⟩ := writeEvents_ok hw
      rcases hR : keptRows onlyChannel e.rows with _ | ⟨k, ks⟩
      · -- no kept row: the entry is dropped
        obtain ⟨rfl, rfl⟩ := hnil hR
        rw [picked_empty hm hR]
        obtain ⟨hps, hsel⟩ := buildLoop_ok es count _ fs' ps hcount h2
        exact ⟨hps, fun e' he' => ⟨(hsel e' he').1, fun hnd => (hsel e' he').2 (nodup_stems_tail hnd)⟩⟩
      · -- a kept row: the entry is picked and its event file written
        obtain ⟨rfl, rfl⟩ := hne (hR ▸ List.cons_ne_nil k ks)
        have hres : resolvedChannel onlyChannel e = chanOf k := by rw [resolvedChannel, hR]; rfl
        have hfile : fs.write (eventPath outDir kind (stem e.innerPath)) (eventFile
            ((keptRows onlyChannel e.rows).map fun r => kind.normalize (stem e.innerPath)
              (chanOf r) (seqOf r) r)) (eventPath outDir kind (stem e.innerPath)) =
            some (eventFile (events kind onlyChannel e)) := FS.write_same _ _ _
        rw [hR] at hfile
        rw [picked_keep hm hR (left_pos hcount), left_pred]
        rw [hR, List.head?_cons, Option.map_some'] at h2
        dsimp only at h2
        split at h2
        · rename_i hstop
          cases h2
          rw [left_eq_zero hcount hstop]
          refine ⟨by simp only [picked, cutAt, List.take_zero, List.map_cons, List.map_nil, hres],
            fun e' he' => ?_⟩
          rcases List.mem_cons.mp he' with rfl | he'
          · exact ⟨hR ▸ hcons, fun _ => hfile⟩
          · simp only [picked, cutAt, List.take_zero, List.not_mem_nil] at he'
        · rename_i hgo
          obtain ⟨rest, fs₂, h3, h4⟩ := bind_eq_ok h2
          cases h4
          obtain ⟨hps, hsel⟩ := buildLoop_ok es (count + 1) _ _ rest (count_succ_lt hcount hgo) h3
          refine ⟨by simp only [hps, List.map_cons, hres], fun e' he' => ?_⟩
          rcases List.mem_cons.mp he' with rfl | he'
          · refine ⟨hR ▸ hcons, fun hnd => ?_⟩
            have hafter := congrArg (fun r => after r (eventPath outDir kind (stem e'.innerPath))) h3
            exact hafter.symm.trans ((buildLoop_after es (count + 1) _ fun e'' he'' hm'' hpe =>
              stem_fresh hm hnd e'' he'' hm'' (eventPath_inj hpe.symm)).trans hfile)
          · exact ⟨(hsel e' he').1, fun hnd => (hsel e' he').2 (nodup_stems_tail hnd)⟩

theorem buildLoop_append_of_limit {l : Int} (rest rest' : List Entry) :
    ∀ (es : List Entry) (count : Nat), count < max 1 l.toNat →
      max 1 l.toNat - count ≤ (picked search pattern onlyChannel none es).length →
      buildLoop search kind outDir (some l) pattern onlyChannel (es ++ rest) count =
        buildLoop search kind outDir (some l) pattern onlyChannel (es ++ rest') count
  | [], count, hc, hn => by
    simp only [picked, cutAt, List.filter_nil, List.length_nil] at hn
    omega
  | e :: es, count, hc, hn => by
    rw [List.cons_append, List.cons_append, buildLoop, buildLoop]
    split
    · rename_i hm
      rw [picked_reject (skip_iff.mp hm)] at hn
      exact buildLoop_append_of_limit rest rest' es count hc hn
    rename_i hm
    rw [skip_iff, Bool.not_eq_false] at hm
    funext fs
    refine bind_congr_of_ok fun v fs₁ hw => ?_
    obtain ⟨stream, hk⟩ := kind.writeEvents_eq
    rw [hk] at hw
    obtain ⟨-, hnil, hne⟩ := writeEvents_ok hw
    rcases hR : keptRows onlyChannel e.rows with _ | ⟨k, ks⟩
    · -- no kept row: no event file, and the count stays
      obtain ⟨rfl, -⟩ := hnil hR
      rw [picked_empty hm hR] at hn
      exact congrFun (buildLoop_append_of_limit rest rest' es count hc hn) fs₁
    · -- an event file: the loop stops at the limit, or goes on one closer to it
      obtain ⟨rfl, -⟩ := hne (hR ▸ List.cons_ne_nil k ks)
      have hpk : picked search pattern onlyChannel none (e :: es) =
          e :: picked search pattern onlyChannel none es :=
        picked_keep hm hR (fun _ h => by cases h) es
      rw [hpk, List.length_cons] at hn
      rw [hR, List.head?_cons, Option.map_some']
      dsimp only
      split
      · rfl
      · next hgo =>
        have hc' := count_succ_lt (fun l' hl' => by cases hl'; exact hc) hgo l rfl
        rw [buildLoop_append_of_limit rest rest' es (count + 1) hc' (by omega)]

end Spec

/-- **`--limit-files` stops the reading.** When the entries of `archive` already hold
`max(1, limit)` entries that the pattern accepts and that keep a row, `build_event_files`
never reads past them: whatever entries follow, it returns the same list, raises the same
error and leaves the same files. -/
theorem build_event_files_stops_at_limit (search : String → String → Bool)
    (archive rest rest' : List Entry) (kind : Kind) (outDir : String) (l : Int)
    (symbolRegex : Option String) (onlyChannel : Option Int)
    (hl : max 1 l.toNat ≤
      (picked search (truthy symbolRegex) onlyChannel none (listCsvPaths archive)).length) :
    buildEventFiles search (archive ++ rest) kind outDir (some l) symbolRegex onlyChannel =
      buildEventFiles search (archive ++ rest') kind outDir (some l) symbolRegex onlyChannel := by
  rw [buildEventFiles, buildEventFiles, listCsvPaths, listCsvPaths, List.filter_append,
    List.filter_append]
  exact buildLoop_append_of_limit _ _ _ 0 (by omega) (by rw [Nat.sub_zero]; exact hl)

/-- With `--limit-files 1`, an entry after the first one whose `ChannelNo` is not a number
is never read. -/
theorem build_event_files_stops_at_one :
    max 1 (1 : Int).toNat ≤ (picked (fun _ _ => true) (truthy none) none none
        (listCsvPaths [⟨"000001.csv", [fun _ => "1"]⟩])).length ∧
    buildEventFiles (fun _ _ => true) ([⟨"000001.csv", [fun _ => "1"]⟩] ++ []) .order "d"
        (some 1) none none =
      buildEventFiles (fun _ _ => true) ([⟨"000001.csv", [fun _ => "1"]⟩] ++
        [⟨"000002.csv", [fun _ => "x"]⟩]) .order "d" (some 1) none none :=
  ⟨by decide, build_event_files_stops_at_limit _ _ _ _ _ _ _ _ _ (by decide)⟩

end SzseMerge.Build
