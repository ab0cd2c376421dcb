import SzseMerge.Build
import SzseMerge.RoundSchedule

/-!
# `main`: building the event files, then merging them

`main` writes one event file per selected archive entry into a work
directory, then merges all of them into `--out`, or merges the files of each
channel into `--out-dir/channel_<c>.csv`. `tempfile.mkdtemp` is the name
`fresh` it returns; the `finally` clause removes that directory unless
`--keep-temp` is given.
-/

set_option autoImplicit false

namespace SzseMerge.Main
open SzseMerge.Text SzseMerge.StableSort SzseMerge.FileSystem SzseMerge.Events
  SzseMerge.MergeBatch SzseMerge.MultiPass SzseMerge.Build

/-- `per_channel.setdefault(channel, []).append(path)`. -/
def setdefaultAppend (channel : Int) (path : String) :
    List (Int × List String) → List (Int × List String)
  | [] => [(channel, [path])]
  | (c, ps) :: rest =>
    if c = channel then (c, ps ++ [path]) :: rest else (c, ps) :: setdefaultAppend channel path rest

/-- The `per_channel` dictionary, in insertion order. -/
def perChannel (allPaths : List (Int × String)) : List (Int × List String) :=
  allPaths.foldl (fun groups cp => setdefaultAppend cp.1 cp.2 groups) []

/-- `os.path.join(args.out_dir, f"channel_{channel}.csv")`. -/
def channelPath (outDir : String) (channel : Int) : String :=
  join outDir ("channel_" ++ toString channel ++ ".csv")

/-- `multi_pass_merge(paths, out_path, max_open=max(2, args.max_open))`. Its loop needs at
most `len(paths)` rounds once `max_open ≥ 2`. -/
def mergeInto (paths : List String) (outPath : String) (maxOpen : Int) : Py Unit := do
  let _ ← multiPassMerge paths.length paths outPath (max 2 maxOpen)
  pure ()

/-- `for channel, paths in per_channel.items(): ...`. -/
def mergeGroups (outDir : String) (maxOpen : Int) : List (Int × List String) → Py Unit
  | [] => pure ()
  | (channel, paths) :: rest => do
    mergeInto paths (channelPath outDir channel) maxOpen
    mergeGroups outDir maxOpen rest

/-- The parsed command line; the archives stand for `--order-archive` and `--tick-archive`. -/
structure Args where
  orderArchive : List Entry
  tickArchive : List Entry
  out : Option String := none
  outDir : Option String := none
  workDir : Option String := none
  keepTemp : Bool := false
  maxOpen : Int := 64
  limitFiles : Option Int := none
  symbolRegex : Option String := none
  channel : Option Int := none

/-- The two `build_event_files` calls and `all_paths`. -/
def buildAll (search : String → String → Bool) (args : Args) (tempRoot : String) :
    Py (List (Int × String)) := do
  let orderPaths ← buildEventFiles search args.orderArchive .order (join tempRoot "order_events")
    args.limitFiles args.symbolRegex args.channel
  let tickPaths ← buildEventFiles search args.tickArchive .tick (join tempRoot "tick_events")
    args.limitFiles args.symbolRegex args.channel
  pure (orderPaths ++ tickPaths)

/-- The rest of the `try` block, once `all_paths` is known. -/
def mergeAll (args : Args) (allPaths : List (Int × String)) : Py Unit := do
  if allPaths = [] then throw "No event files produced; check filters or input archives."
  match truthy args.outDir, truthy args.out with
  | some _, some _ => throw "Use either --out or --out-dir, not both."
  | none, none => throw "Specify --out (single file) or --out-dir (per-channel)."
  | some outDir, none => mergeGroups outDir args.maxOpen (perChannel allPaths)
  | none, some out => mergeInto (allPaths.map Prod.snd) out args.maxOpen

/-- The `try` block of `main`, in the work directory `tempRoot`. -/
def mainBody (search : String → String → Bool) (args : Args) (tempRoot : String) : Py Unit := do
  let allPaths ← buildAll search args tempRoot
  mergeAll args allPaths

/-- `--work-dir`, or the directory `tempfile.mkdtemp` made. -/
def tempRootOf (args : Args) (fresh : String) : String := args.workDir.getD fresh

/-- The `finally` clause: `shutil.rmtree` of a directory `main` made, unless `--keep-temp`. -/
def cleanup (args : Args) (fresh : String) (fs : FS) : FS :=
  if args.workDir.isNone && !args.keepTemp then fs.removeTree fresh else fs

/-- `main()`, whether the body returns or raises. -/
def main (search : String → String → Bool) (fresh : String) (args : Args) : Py Unit := fun fs =>
  match mainBody search args (tempRootOf args fresh) fs with
  | .ok u fs' => .ok u (cleanup args fresh fs')
  | .error e fs' => .error e (cleanup args fresh fs')

/-! ## The groups of `per_channel` -/

/-- The paths of channel `c`, in order. -/
def channelPaths (allPaths : List (Int × String)) (c : Int) : List String :=
  (allPaths.filter fun cp => cp.1 = c).map Prod.snd

theorem channelPaths_snoc (l : List (Int × String)) (c d : Int) (p : String) :
    channelPaths (l ++ [(c, p)]) d = channelPaths l d ++ if c = d then [p] else [] := by
  by_cases h : c = d <;> simp [channelPaths, h]

theorem setdefaultAppend_map (l : List (Int × String)) (c : Int) (p : String) :
    ∀ ks : List Int, ks.Nodup → (c ∉ ks → channelPaths l c = []) →
      setdefaultAppend c p (ks.map fun d => (d, channelPaths l d)) =
        (if c ∈ ks then ks else ks ++ [c]).map fun d => (d, channelPaths (l ++ [(c, p)]) d)
  | [], _, h => by simp [setdefaultAppend, channelPaths_snoc, h]
  | d :: ks, hnd, h => by
    have hd := List.nodup_cons.mp hnd
    simp only [List.map_cons, setdefaultAppend]
    by_cases hdc : d = c
    · subst hdc
      simp only [if_true, List.mem_cons_self, List.map_cons, channelPaths_snoc]
      refine congrArg _ (List.map_congr_left fun d' hd' => ?_)
      simp [show d ≠ d' from fun e => hd.1 (e ▸ hd')]
    · have hc : c ∈ d :: ks ↔ c ∈ ks := by simp [Ne.symm hdc]
      rw [if_neg hdc, setdefaultAppend_map l c p ks hd.2 fun hk => h (mt hc.mp hk)]
      simp only [hc]
      split <;> simp [channelPaths_snoc, Ne.symm hdc]

/-- `groups` is `per_channel` once the pairs `done` are in: one group per channel of `done`,
each with that channel's paths in order. -/
structure Grouped (done : List (Int × String)) (groups : List (Int × List String)) : Prop where
  nodup : (groups.map Prod.fst).Nodup
  mem : ∀ c, c ∈ groups.map Prod.fst ↔ c ∈ done.map Prod.fst
  eq : groups = (groups.map Prod.fst).map fun c => (c, channelPaths done c)

theorem Grouped.snoc {done : List (Int × String)} {groups : List (Int × List String)}
    (h : Grouped done groups) (c : Int) (p : String) :
    Grouped (done ++ [(c, p)]) (setdefaultAppend c p groups) := by
  have hnil : c ∉ groups.map Prod.fst → channelPaths done c = [] := fun hc => by
    rw [channelPaths, List.map_eq_nil_iff, List.filter_eq_nil_iff]
    exact fun cp hcp hcc => hc ((h.mem c).mpr (List.mem_map.mpr ⟨cp, hcp, of_decide_eq_true hcc⟩))
  have hs := setdefaultAppend_map done c p _ h.nodup hnil
  rw [← h.eq] at hs
  have hkeys : (setdefaultAppend c p groups).map Prod.fst =
      if c ∈ groups.map Prod.fst then groups.map Prod.fst else groups.map Prod.fst ++ [c] := by
    rw [hs, List.map_map]
    exact List.map_id' _
  refine ⟨?_, fun d => ?_, by rw [hkeys]; exact hs⟩
  · rw [hkeys]
    split
    · exact h.nodup
    · next hc =>
      exact h.nodup.append (List.nodup_singleton c) fun x hx hy => hc (List.mem_singleton.mp hy ▸ hx)
  · rw [hkeys, List.map_append, List.mem_append, ← h.mem]
    split
    · next hc => exact ⟨.inl, fun hd => hd.elim id fun hd => List.mem_singleton.mp hd ▸ hc⟩
    · exact List.mem_append

theorem Grouped.mem_iff {done : List (Int × String)} {groups : List (Int × List String)}
    (h : Grouped done groups) (g : Int × List String) :
    g ∈ groups ↔ g.1 ∈ done.map Prod.fst ∧ g.2 = channelPaths done g.1 := by
  rw [h.eq, List.mem_map, ← h.mem]
  constructor
  · rintro ⟨c, hc, rfl⟩
    exact ⟨hc, rfl⟩
  · rintro ⟨hc, hg⟩
    exact ⟨g.1, hc, Prod.ext rfl hg.symm⟩

theorem Grouped.nodup_flatten {done : List (Int × String)} {groups : List (Int × List String)}
    (h : Grouped done groups) (hd : (done.map Prod.snd).Nodup) :
    (groups.map Prod.snd).flatten.Nodup := by
  refine List.nodup_flatten.mpr ⟨fun ps hps => ?_, ?_⟩
  · obtain ⟨g, hg, rfl⟩ := List.mem_map.mp hps
    rw [((h.mem_iff g).mp hg).2]
    exact hd.sublist ((List.filter_sublist _).map _)
  · have hs : groups.map Prod.snd = (groups.map Prod.fst).map (channelPaths done) := by
      conv_lhs => rw [h.eq]
      rw [List.map_map]
      rfl
    rw [hs, List.pairwise_map]
    refine h.nodup.imp fun {c c'} hne => ?_
    intro p hp hp'
    apply hne
    obtain ⟨x, hx, rfl⟩ := List.mem_map.mp hp
    obtain ⟨y, hy, hxy⟩ := List.mem_map.mp hp'
    have hx' := List.mem_filter.mp hx
    have hy' := List.mem_filter.mp hy
    rw [← of_decide_eq_true hx'.2, ← of_decide_eq_true hy'.2,
      List.inj_on_of_nodup_map hd hx'.1 hy'.1 hxy.symm]

theorem grouped_perChannel (l : List (Int × String)) : Grouped l (perChannel l) := by
  suffices ∀ (rest done : List (Int × String)) (groups : List (Int × List String)),
      Grouped done groups →
      Grouped (done ++ rest) (rest.foldl (fun groups cp => setdefaultAppend cp.1 cp.2 groups) groups) from
    this l [] [] ⟨List.nodup_nil, by simp, rfl⟩
  intro rest
  induction rest with
  | nil => intro done groups h; rwa [List.append_nil]
  | cons cp rest ih =>
    intro done groups h
    simpa using ih _ _ (h.snoc cp.1 cp.2)

/-! ## Final, temporary and event paths never meet -/

theorem tmpPath_suffix (out : String) (r b : Nat) : ".tmp".data <:+ (tmpPath out r b).data := by
  rw [tmpPath, String.data_append]
  exact List.suffix_append _ _

theorem channelPath_data (outDir : String) (c : Int) :
    (channelPath outDir c).data = (join outDir "").data ++ "channel_".data ++
      ((toString c).data ++ ".csv".data) := by
  rw [channelPath, join_data]
  simp only [String.data_append, List.append_assoc]

theorem channelPath_inj {outDir : String} {c c' : Int}
    (h : channelPath outDir c = channelPath outDir c') : c = c' := by
  have h' := congrArg String.data h
  rw [channelPath_data, channelPath_data] at h'
  have := List.append_cancel_right (List.append_cancel_left h')
  simpa only [pyInt_toString, Option.some.injEq] using congrArg pyInt this

theorem channelPath_ne_tmpPath (outDir : String) (c : Int) (out : String) (r b : Nat) :
    channelPath outDir c ≠ tmpPath out r b :=
  ne_of_suffix (s := ".csv".data)
    (by rw [channelPath_data, ← List.append_assoc]; exact List.suffix_append _ _)
    (tmpPath_suffix out r b) rfl (by decide)

theorem eventPath_ne_tmpPath (outDir : String) (kind : Kind) (symbol : String) (out : String)
    (r b : Nat) : eventPath outDir kind symbol ≠ tmpPath out r b :=
  ne_of_suffix ((show ".csv".data <:+ "s.csv".data from List.suffix_append ['s'] _).trans
    (eventPath_suffix outDir kind symbol)) (tmpPath_suffix out r b) rfl (by decide)

theorem eventPath_ne_channelPath (outDir : String) (kind : Kind) (symbol : String)
    (outDir' : String) (c : Int) : eventPath outDir kind symbol ≠ channelPath outDir' c := by
  obtain ⟨pre, x, hx⟩ : ∃ pre x, (toString c).data = pre ++ [x] := by
    refine ⟨_, _, (List.dropLast_append_getLast fun h => ?_).symm⟩
    have := pyInt_toString c
    rw [h] at this
    cases this
  refine ne_of_suffix (eventPath_suffix outDir kind symbol) (t := x :: ".csv".data) ?_ rfl ?_
  · rw [channelPath_data, hx]
    exact ⟨(join outDir' "").data ++ "channel_".data ++ pre,
      by simp only [List.append_assoc, List.singleton_append, List.cons_append, List.nil_append]⟩
  · intro h
    rcases toString_plain c 's' (hx ▸ List.mem_append_right _ (List.mem_singleton.mpr
      (List.head_eq_of_cons_eq h))) with h | h <;> cases h

/-! ## Merging into a final path -/

section Merge
variable {q : String}

theorem mergeInto_eq {maxOpen : Int} (paths : List String) (out : String) (fs : FS) :
    mergeInto paths out maxOpen fs =
      match multiPassMerge paths.length paths out (max 2 maxOpen) fs with
      | .ok _ fs' => .ok () fs'
      | .error e fs' => .error e fs' := by
  rw [mergeInto, bind_apply]
  cases multiPassMerge paths.length paths out (max 2 maxOpen) fs <;> rfl

theorem mergeInto_runs (maxOpen : Int) {H : List Char} (hH : H = [] ∨ lines H = [H])
    {paths : List String} {out : String} {fs : FS} (hne : paths ≠ [])
    (h : ∀ p ∈ paths, IsRun H fs p ∧ ∀ r b, p ≠ tmpPath out r b) :
    ∃ fs', mergeInto paths out maxOpen fs = .ok () fs' ∧
      fs' out = some (H ++ (stableSort sortKey (paths.map (bodyAt fs)).flatten).flatten) ∧
      ∀ q, (∀ r b, q ≠ tmpPath out r b) → q ≠ out → q ∉ paths → fs' q = fs q := by
  have hinv : RoundInv H (stableSort sortKey (paths.map (bodyAt fs)).flatten) out 0 fs paths :=
    ⟨hne, fun p hp => (h p hp).1, fun p hp r b _ => (h p hp).2 r b, rfl⟩
  obtain ⟨fs', hm, hout⟩ := multiPassMerge_spec hH
    (show (2 : Int) ≤ max 2 maxOpen from le_max_left _ _) hinv (Nat.le_succ paths.length)
  refine ⟨fs', by rw [mergeInto_eq, hm], hout, fun q hq hqo hqp => ?_⟩
  have : after (multiPassMerge paths.length paths out (max 2 maxOpen) fs) q = fs q :=
    multiPassMerge_frame fs hq hqo hqp
  rwa [hm] at this

theorem mergeInto_frame {maxOpen : Int} {paths : List String} {out : String} {fs fs' : FS}
    (h : mergeInto paths out maxOpen fs = .ok () fs') (hq : ∀ r b, q ≠ tmpPath out r b)
    (hqo : q ≠ out) (hqp : q ∉ paths) : fs' q = fs q := by
  have : after (multiPassMerge paths.length paths out (max 2 maxOpen) fs) q = fs q :=
    multiPassMerge_frame fs hq hqo hqp
  rw [mergeInto_eq] at h
  split at h <;> rename_i hm <;> cases h
  rwa [hm] at this

theorem mergeInto_error {maxOpen : Int} {paths : List String} {out : String} {fs fs' : FS}
    {e : String}
    (h : mergeInto paths out maxOpen fs = .error e fs') (hq : ∀ r b, q ≠ tmpPath out r b) :
    fs' q = fs q := by
  rw [mergeInto_eq] at h
  split at h <;> rename_i hm <;> cases h
  exact multiPassMerge_error hm hq

theorem mergeGroups_ok (outDir : String) (maxOpen : Int) {H : List Char}
    (hH : H = [] ∨ lines H = [H]) :
    ∀ (gs : List (Int × List String)) (fs : FS), (gs.map Prod.fst).Nodup →
      (gs.map Prod.snd).flatten.Nodup →
      (∀ g ∈ gs, g.2 ≠ [] ∧ ∀ p ∈ g.2, IsRun H fs p ∧
        ∀ c, p ≠ channelPath outDir c ∧ ∀ r b, p ≠ tmpPath (channelPath outDir c) r b) →
      ∃ fs', mergeGroups outDir maxOpen gs fs = .ok () fs' ∧
        (∀ g ∈ gs, fs' (channelPath outDir g.1) =
          some (H ++ (stableSort sortKey (g.2.map (bodyAt fs)).flatten).flatten)) ∧
        ∀ q, (∀ c r b, q ≠ tmpPath (channelPath outDir c) r b) →
          (∀ g ∈ gs, q ≠ channelPath outDir g.1 ∧ q ∉ g.2) → fs' q = fs q
  | [], fs, _, _, _ => ⟨fs, rfl, by simp, fun _ _ _ => rfl⟩
  | (c, ps) :: gs, fs, hkeys, hflat, h => by
    obtain ⟨hne, hps⟩ := h (c, ps) (.head _)
    obtain ⟨fs₁, hm, hout, hfr⟩ := mergeInto_runs maxOpen hH hne
      fun p hp => ⟨(hps p hp).1, ((hps p hp).2 c).2⟩
    rw [List.map_cons, List.nodup_cons] at hkeys
    rw [List.map_cons, List.flatten_cons, List.nodup_append] at hflat
    have hkeep : ∀ g ∈ gs, ∀ p ∈ g.2, fs₁ p = fs p := fun g hg p hp =>
      hfr p (((h g (.tail _ hg)).2 p hp).2 c).2 (((h g (.tail _ hg)).2 p hp).2 c).1
        fun hp' => hflat.2.2 hp' (List.mem_flatten.mpr ⟨g.2, List.mem_map_of_mem _ hg, hp⟩)
    obtain ⟨fs', hrest, hfiles, hframe⟩ := mergeGroups_ok outDir maxOpen hH gs fs₁ hkeys.2 hflat.2.1
      fun g hg => ⟨(h g (.tail _ hg)).1, fun p hp => ⟨(((h g (.tail _ hg)).2 p hp).1.congr
        (hkeep g hg p hp)).1, ((h g (.tail _ hg)).2 p hp).2⟩⟩
    refine ⟨fs', by rw [mergeGroups, bind_ok hm, hrest], ?_, fun q hq hg => ?_⟩
    · rintro g (_ | ⟨_, hg⟩)
      · rw [← hout]
        refine hframe _ (fun c' r b => channelPath_ne_tmpPath _ _ _ r b) fun g hg => ⟨fun he => ?_,
          fun hp => (((h g (.tail _ hg)).2 _ hp).2 c).1 rfl⟩
        exact hkeys.1 (channelPath_inj he ▸ List.mem_map_of_mem _ hg)
      · rw [hfiles g hg, List.map_congr_left fun p hp =>
          (((h g (.tail _ hg)).2 p hp).1.congr (hkeep g hg p hp)).2]
    · rw [hframe q hq fun g' hg' => hg g' (.tail _ hg')]
      exact hfr q (hq c) (hg _ (.head _)).1 (hg _ (.head _)).2

theorem mergeGroups_error {outDir : String} {maxOpen : Int} :
    ∀ (gs : List (Int × List String)) (fs fs' : FS) (e : String),
      mergeGroups outDir maxOpen gs fs = .error e fs' →
      ∃ i g fs₁, gs[i]? = some g ∧ mergeGroups outDir maxOpen (gs.take i) fs = .ok () fs₁ ∧
        mergeInto g.2 (channelPath outDir g.1) maxOpen fs₁ = .error e fs' ∧
        ∀ q, (∀ c r b, q ≠ tmpPath (channelPath outDir c) r b) →
          (∀ g ∈ gs.take i, q ≠ channelPath outDir g.1 ∧ q ∉ g.2) → fs' q = fs q
  | [], _, _, _, h => by cases h
  | (c, ps) :: gs, fs, fs', e, h => by
    rw [mergeGroups, bind_apply] at h
    cases hm : mergeInto ps (channelPath outDir c) maxOpen fs with
    | error e' fs₁ =>
      rw [hm] at h
      cases h
      exact ⟨0, (c, ps), fs, List.getElem?_cons_zero, rfl, hm, fun q hq _ => mergeInto_error hm (hq c)⟩
    | ok u fs₁ =>
      rw [hm] at h
      obtain ⟨i, g, fs₂, hg, hpre, hfail, hfr⟩ := mergeGroups_error gs fs₁ fs' e h
      refine ⟨i + 1, g, fs₂, List.getElem?_cons_succ.trans hg, by rw [List.take_succ_cons, mergeGroups, bind_ok hm]; exact hpre,
        hfail, fun q hq hg => ?_⟩
      rw [List.take_succ_cons] at hg
      rw [hfr q hq fun g hg' => hg g (.tail _ hg')]
      exact mergeInto_frame hm (hq c) (hg _ (.head _)).1 (hg _ (.head _)).2

theorem mergeInto_single (maxOpen : Int) (p out : String) : mergeInto [p] out maxOpen = move p out := by
  rw [mergeInto, multiPassMerge_single (le_max_left 2 maxOpen)]
  simp only [bind_assoc, pure_bind, bind_pure_unit]

theorem mergeInto_after {maxOpen : Int} {paths : List String} {out : String} (fs : FS)
    (hq : ∀ r b, q ≠ tmpPath out r b) (hqo : q ≠ out) (hqp : q ∉ paths) :
    after (mergeInto paths out maxOpen fs) q = fs q :=
  after_bind (multiPassMerge_frame fs hq hqo hqp) fun _ _ _ => rfl

theorem mergeGroups_after {outDir : String} {maxOpen : Int} :
    ∀ (gs : List (Int × List String)) (fs : FS),
      (∀ g ∈ gs, q ≠ channelPath outDir g.1 ∧ (∀ r b, q ≠ tmpPath (channelPath outDir g.1) r b) ∧
        q ∉ g.2) →
      after (mergeGroups outDir maxOpen gs fs) q = fs q
  | [], _, _ => rfl
  | (c, ps) :: gs, fs, h => by
    obtain ⟨h1, h2, h3⟩ := h _ (List.mem_cons_self _ _)
    exact after_bind (mergeInto_after fs h2 h1 h3) fun _ fs' _ =>
      mergeGroups_after gs fs' fun g hg => h g (List.mem_cons_of_mem _ hg)

end Merge

/-! ## After `all_paths` is known -/

theorem mergeAll_out {args : Args} {ps : List (Int × String)} (hps : ps ≠ []) {out : String}
    (hdir : truthy args.outDir = none) (hout : truthy args.out = some out) :
    mergeAll args ps = mergeInto (ps.map Prod.snd) out args.maxOpen := by
  funext fs
  simp only [mergeAll, hps, hdir, hout, if_false]
  rfl

theorem mergeAll_outDir {args : Args} {ps : List (Int × String)} (hps : ps ≠ []) {outDir : String}
    (hdir : truthy args.outDir = some outDir) (hout : truthy args.out = none) :
    mergeAll args ps = mergeGroups outDir args.maxOpen (perChannel ps) := by
  funext fs
  simp only [mergeAll, hps, hdir, hout, if_false]
  rfl

/-! ## The selected sources, read declaratively -/

/-- The directory `main` writes events of the given kind into. -/
def eventDir (tempRoot : String) : Kind → String
  | .order => join tempRoot "order_events"
  | .tick => join tempRoot "tick_events"

/-- The event path of a selected entry of the given kind. -/
def sourcePath (tempRoot : String) (s : Kind × Entry) : String :=
  eventPath (eventDir tempRoot s.1) s.1 (stem s.2.innerPath)

/-- The entries both `build_event_files` calls select, order entries first, with their kinds. -/
def sources (search : String → String → Bool) (args : Args) : List (Kind × Entry) :=
  (selected search args.orderArchive args.limitFiles args.symbolRegex args.channel).map
      (Kind.order, ·) ++
    (selected search args.tickArchive args.limitFiles args.symbolRegex args.channel).map (Kind.tick, ·)

/-- The events a selected entry yields. -/
def sourceEvents (args : Args) (s : Kind × Entry) : List EventRow := events s.1 args.channel s.2

/-- `all_paths` as the sources determine it. -/
def sourcePairs (search : String → String → Bool) (args : Args) (tempRoot : String) :
    List (Int × String) :=
  (sources search args).map fun s => (resolvedChannel args.channel s.2, sourcePath tempRoot s)

/-- The key the merge orders events by. -/
def eventKey (e : EventRow) : Int ×ₗ Int := toLex (e.channel, e.seq)

/-- In each archive, the entries the pattern accepts have different stems. -/
def DistinctStems (search : String → String → Bool) (args : Args) : Prop :=
  ∀ a ∈ [args.orderArchive, args.tickArchive],
    (((listCsvPaths a).filter (Matches search (truthy args.symbolRegex))).map
      fun e => stem e.innerPath).Nodup

instance (search : String → String → Bool) (args : Args) : Decidable (DistinctStems search args) :=
  inferInstanceAs (Decidable (∀ a ∈ _, _))

/-- No cell of the events holds a line break. -/
def Unbroken (es : List EventRow) : Prop := ∀ e ∈ es, ∀ s ∈ e.cells, ∀ c ∈ s.data, ¬ IsBreak c

instance (es : List EventRow) : Decidable (Unbroken es) := inferInstanceAs (Decidable (∀ e ∈ es, _))

theorem Kind.normalize_fields (k : Kind) (symbol : String) (c s : Int) (row : Row) :
    (k.normalize symbol c s row).channel = c ∧ (k.normalize symbol c s row).seq = s ∧
      (k.normalize symbol c s row).cells ≠ [] := by
  cases k <;> exact ⟨rfl, rfl, List.cons_ne_nil _ _⟩

theorem buildAll_after (search : String → String → Bool) (args : Args) {tempRoot q : String}
    (hq : ∀ k s, q ≠ eventPath (eventDir tempRoot k) k s) (fs : FS) :
    after (buildAll search args tempRoot fs) q = fs q :=
  after_bind (buildLoop_after _ _ fs fun _ _ _ => hq .order _) fun _ fs₁ _ =>
    after_bind (buildLoop_after _ _ fs₁ fun _ _ _ => hq .tick _) fun _ _ _ => rfl

theorem buildAll_ok {search : String → String → Bool} {args : Args} {tempRoot : String}
    {fs fs' : FS} {ps : List (Int × String)} (h : buildAll search args tempRoot fs = .ok ps fs') :
    ps = sourcePairs search args tempRoot ∧ ∀ s ∈ sources search args,
      Consistent (keptRows args.channel s.2.rows) ∧
      (DistinctStems search args → fs' (sourcePath tempRoot s) = some (eventFile (sourceEvents args s))) := by
  have h0 : ∀ l ∈ args.limitFiles, 0 < max 1 l.toNat := fun _ _ => by omega
  obtain ⟨po, fs₁, h1, h⟩ := bind_eq_ok h
  obtain ⟨pt, fs₂, h2, h3⟩ := bind_eq_ok h
  cases h3
  obtain ⟨hpo, hso⟩ := buildLoop_ok _ 0 fs fs₁ po h0 h1
  obtain ⟨hpt, hst⟩ := buildLoop_ok _ 0 fs₁ fs' pt h0 h2
  simp only [Nat.sub_zero] at hpo hso hpt hst
  refine ⟨by rw [hpo, hpt, sourcePairs, sources, List.map_append, List.map_map, List.map_map]; rfl,
    fun s hs => ?_⟩
  rcases List.mem_append.mp hs with hs | hs <;> obtain ⟨e, he, rfl⟩ := List.mem_map.mp hs
  · refine ⟨(hso e he).1, fun hd => ?_⟩
    have hkeep : after (buildEventFiles search args.tickArchive .tick (join tempRoot "tick_events")
        args.limitFiles args.symbolRegex args.channel fs₁)
        (sourcePath tempRoot (.order, e)) = fs₁ (sourcePath tempRoot (.order, e)) :=
      buildLoop_after _ 0 fs₁ fun _ _ _ => order_ne_tick_eventPath _ _ _
    rw [h2] at hkeep
    exact hkeep.trans ((hso e he).2 (hd _ (.head _)))
  · exact ⟨(hst e he).1, fun hd => (hst e he).2 (hd _ (.tail _ (.head _)))⟩

theorem nodup_selected_paths {search : String → String → Bool} {archive : List Entry}
    {limitFiles : Option Int} {symbolRegex : Option String} {onlyChannel : Option Int}
    (h : (((listCsvPaths archive).filter (Matches search (truthy symbolRegex))).map
      fun e => stem e.innerPath).Nodup) (dir : String) (k : Kind) :
    ((selected search archive limitFiles symbolRegex onlyChannel).map
      fun e => eventPath dir k (stem e.innerPath)).Nodup := by
  have hsub : (selected search archive limitFiles symbolRegex onlyChannel).Sublist
      ((listCsvPaths archive).filter (Matches search (truthy symbolRegex))) := by
    unfold selected picked
    refine List.Sublist.trans ?_
      (List.filter_sublist (p := fun e => !(keptRows onlyChannel e.rows).isEmpty) _)
    cases limitFiles
    · exact List.Sublist.refl _
    · exact List.take_sublist _ _
  have := (h.sublist (hsub.map _)).map (f := eventPath dir k) fun _ _ => eventPath_inj
  rw [List.map_map] at this
  exact this

theorem nodup_sourcePaths {search : String → String → Bool} {args : Args}
    (hd : DistinctStems search args) (tempRoot : String) :
    ((sources search args).map (sourcePath tempRoot)).Nodup := by
  rw [sources, List.map_append, List.map_map, List.map_map, List.nodup_append]
  refine ⟨nodup_selected_paths (hd _ (.head _)) _ _, nodup_selected_paths (hd _ (.tail _ (.head _))) _ _,
    fun p hp hp' => ?_⟩
  obtain ⟨e, _, rfl⟩ := List.mem_map.mp hp
  obtain ⟨e', _, he⟩ := List.mem_map.mp hp'
  exact order_ne_tick_eventPath tempRoot _ _ he.symm

theorem header_line : lines (writerow eventHeader) = [writerow eventHeader] :=
  lines_writerow (by decide)

theorem sortKey_line {e : EventRow} (hne : e.cells ≠ [])
    (hb : ∀ s ∈ e.cells, ∀ c ∈ s.data, ¬ IsBreak c) : sortKey e.line = eventKey e := by
  rw [sortKey, (parses_of_ok (e.line_framed hne hb).2).2]
  rfl

theorem framed_sourceEvents (args : Args) {s : Kind × Entry}
    (hc : Consistent (keptRows args.channel s.2.rows)) (hb : Unbroken (sourceEvents args s)) :
    Framed (writerow eventHeader) ((sourceEvents args s).map EventRow.line) := by
  have hfields : ∀ e ∈ sourceEvents args s, e.cells ≠ [] := fun e he => by
    obtain ⟨r, _, rfl⟩ := List.mem_map.mp he
    exact (Kind.normalize_fields _ _ _ _ _).2.2
  have hkeys : ((sourceEvents args s).map eventKey).Chain' (· ≤ ·) := by
    have := consistent_keys hc
    simpa only [sourceEvents, events, List.map_map, Function.comp_def, eventKey,
      Kind.normalize_fields] using this
  refine ⟨.inr header_line, fun _ => ⟨List.append_ne_nil_of_right_ne_nil _
    (List.cons_ne_nil _ _), terminated_writerow _⟩, ?_, fun l hl => ?_⟩
  · have hp := List.chain'_iff_pairwise.mp hkeys
    rw [List.pairwise_map] at hp
    rw [KeySorted, List.Sorted, List.pairwise_map]
    exact hp.imp_of_mem fun ha hb' hab => by
      rwa [sortKey_line (hfields _ ha) (hb _ ha), sortKey_line (hfields _ hb') (hb _ hb')]
  · obtain ⟨e, he, rfl⟩ := List.mem_map.mp hl
    obtain ⟨h1, h2⟩ := e.line_framed (hfields e he) (hb e he)
    exact ⟨(parses_of_ok h2).1, h1, terminated_writerow _⟩

/-- The events of all selected entries, order entries first, in listing order. -/
def allEvents (search : String → String → Bool) (args : Args) : List EventRow :=
  ((sources search args).map (sourceEvents args)).flatten

/-- The channels the selected entries resolve to. -/
def resolvedChannels (search : String → String → Bool) (args : Args) : List Int :=
  (sources search args).map fun s => resolvedChannel args.channel s.2

/-- The events of the selected entries that resolve to channel `c`, order entries first. -/
def channelEvents (search : String → String → Bool) (args : Args) (c : Int) : List EventRow :=
  (((sources search args).filter fun s => resolvedChannel args.channel s.2 = c).map
    (sourceEvents args)).flatten

theorem cells_ne_nil {args : Args} {s : Kind × Entry} {e : EventRow} (he : e ∈ sourceEvents args s) :
    e.cells ≠ [] := by
  obtain ⟨r, _, rfl⟩ := List.mem_map.mp he
  exact (Kind.normalize_fields _ _ _ _ _).2.2

theorem stableSort_lines {es : List EventRow} (hne : ∀ e ∈ es, e.cells ≠ []) (hb : Unbroken es) :
    stableSort sortKey (es.map EventRow.line) = (stableSort eventKey es).map EventRow.line :=
  (map_stableSort EventRow.line fun a ha b hb' => by
    rw [sortKey_line (hne a ha) (hb a ha), sortKey_line (hne b hb') (hb b hb')]).symm

theorem channel_of_mem_sourceEvents {args : Args} {s : Kind × Entry}
    (hc : Consistent (keptRows args.channel s.2.rows)) {e : EventRow} (he : e ∈ sourceEvents args s) :
    e.channel = resolvedChannel args.channel s.2 := by
  obtain ⟨r, hr, rfl⟩ := List.mem_map.mp he
  obtain ⟨k, ks, hk⟩ := List.exists_cons_of_ne_nil (List.ne_nil_of_mem hr)
  rw [(Kind.normalize_fields _ _ _ _ _).1, resolvedChannel, hk]
  exact hc.1 r hr k (hk ▸ List.mem_cons_self _ _)

theorem channelPaths_sourcePairs (search : String → String → Bool) (args : Args) (tempRoot : String)
    (c : Int) : channelPaths (sourcePairs search args tempRoot) c =
      ((sources search args).filter fun s => resolvedChannel args.channel s.2 = c).map
        (sourcePath tempRoot) := by
  rw [channelPaths, sourcePairs, List.filter_map, List.map_map]
  rfl

theorem mem_allEvents {search : String → String → Bool} {args : Args} {c : Int} {e : EventRow}
    (he : e ∈ channelEvents search args c) : e ∈ allEvents search args := by
  obtain ⟨_, hx, he⟩ := List.mem_flatten.mp he
  obtain ⟨s, hs, rfl⟩ := List.mem_map.mp hx
  exact List.mem_flatten.mpr ⟨_, List.mem_map_of_mem _ (List.mem_of_mem_filter hs), he⟩

theorem channel_of_mem_channelEvents {search : String → String → Bool} {args : Args}
    (hc : ∀ s ∈ sources search args, Consistent (keptRows args.channel s.2.rows)) {c : Int}
    {e : EventRow} (he : e ∈ channelEvents search args c) : e.channel = c := by
  obtain ⟨_, hx, he⟩ := List.mem_flatten.mp he
  obtain ⟨s, hs, rfl⟩ := List.mem_map.mp hx
  obtain ⟨hs, hsc⟩ := List.mem_filter.mp hs
  exact (channel_of_mem_sourceEvents (hc s hs) he).trans (of_decide_eq_true hsc)

theorem stableSort_eventKey_seq {es : List EventRow} {c : Int} (h : ∀ e ∈ es, e.channel = c) :
    stableSort eventKey es = stableSort EventRow.seq es := by
  have := (map_stableSort id fun a ha b hb => by
    rw [eventKey, eventKey, Prod.Lex.le_iff, h a ha, h b hb]
    simp only [lt_self_iff_false, true_and, false_or, id] :
      (stableSort eventKey es).map id = stableSort EventRow.seq (es.map id))
  rwa [List.map_id, List.map_id] at this

theorem sourcePairs_fst (search : String → String → Bool) (args : Args) (tempRoot : String) :
    (sourcePairs search args tempRoot).map Prod.fst = resolvedChannels search args := by
  rw [sourcePairs, List.map_map]
  rfl

theorem sourcePairs_snd (search : String → String → Bool) (args : Args) (tempRoot : String) :
    (sourcePairs search args tempRoot).map Prod.snd = (sources search args).map (sourcePath tempRoot) := by
  rw [sourcePairs, List.map_map]
  rfl

theorem unbroken_sourceEvents {search : String → String → Bool} {args : Args}
    (h : Unbroken (allEvents search args)) {s : Kind × Entry} (hs : s ∈ sources search args) :
    Unbroken (sourceEvents args s) := fun e he =>
  h e (List.mem_flatten.mpr ⟨_, List.mem_map_of_mem _ hs, he⟩)

section Runs
variable {search : String → String → Bool} {args : Args} {tempRoot : String} {fs fs' : FS}
  {ps : List (Int × String)}

theorem source_run (hbuild : buildAll search args tempRoot fs = .ok ps fs')
    (hstems : DistinctStems search args) {s : Kind × Entry} (hs : s ∈ sources search args)
    (hb : Unbroken (sourceEvents args s)) :
    IsRun (writerow eventHeader) fs' (sourcePath tempRoot s) ∧
      bodyAt fs' (sourcePath tempRoot s) = (sourceEvents args s).map EventRow.line :=
  isRun_of_framed (framed_sourceEvents args ((buildAll_ok hbuild).2 s hs).1 hb)
    (((buildAll_ok hbuild).2 s hs).2 hstems)

theorem merged_sources (hbuild : buildAll search args tempRoot fs = .ok ps fs')
    (hstems : DistinctStems search args) {L : List (Kind × Entry)} (hL : ∀ s ∈ L, s ∈ sources search args)
    (hb : Unbroken (L.map (sourceEvents args)).flatten) :
    stableSort sortKey ((L.map (sourcePath tempRoot)).map (bodyAt fs')).flatten =
      (stableSort eventKey (L.map (sourceEvents args)).flatten).map EventRow.line := by
  have hbs : ∀ s ∈ L, Unbroken (sourceEvents args s) := fun s hs e he =>
    hb e (List.mem_flatten.mpr ⟨_, List.mem_map_of_mem _ hs, he⟩)
  have hmap : (L.map (sourcePath tempRoot)).map (bodyAt fs') =
      L.map fun s => (sourceEvents args s).map EventRow.line := by
    rw [List.map_map]
    exact List.map_congr_left fun s hs => (source_run hbuild hstems (hL s hs) (hbs s hs)).2
  have hflat : (L.map fun s => (sourceEvents args s).map EventRow.line).flatten =
      ((L.map (sourceEvents args)).flatten).map EventRow.line := by
    rw [List.map_flatten, List.map_map]
    rfl
  rw [hmap, hflat, stableSort_lines (fun e he => ?_) hb]
  obtain ⟨_, hx, he⟩ := List.mem_flatten.mp he
  obtain ⟨s, _, rfl⟩ := List.mem_map.mp hx
  exact cells_ne_nil he

end Runs

theorem cleanup_of_not_under {args : Args} {fresh q : String}
    (h : args.workDir = none → args.keepTemp = false → ¬ IsUnder fresh q) (fs : FS) :
    cleanup args fresh fs q = fs q := by
  unfold cleanup
  split
  · rename_i hc
    simp only [Bool.and_eq_true, Option.isNone_iff_eq_none, Bool.not_eq_true'] at hc
    simp only [FS.removeTree, h hc.1 hc.2, if_false]
  · rfl

theorem mergeAll_nil (args : Args) (fs : FS) :
    mergeAll args [] fs = .error "No event files produced; check filters or input archives." fs :=
  rfl

theorem mergeAll_error {args : Args} {ps : List (Int × String)} {fs fs' : FS} {e : String}
    (h : mergeAll args ps fs = .error e fs') :
    (∀ out, truthy args.outDir = none → truthy args.out = some out → fs' out = fs out) ∧
    ∀ d, truthy args.outDir = some d → truthy args.out = none →
      fs' = fs ∨ ∃ i g fs₁, (perChannel ps)[i]? = some g ∧
        mergeGroups d args.maxOpen ((perChannel ps).take i) fs = .ok () fs₁ ∧
        mergeInto g.2 (channelPath d g.1) args.maxOpen fs₁ = .error e fs' ∧
        ∀ q, (∀ c r b, q ≠ tmpPath (channelPath d c) r b) →
          (∀ g ∈ (perChannel ps).take i, q ≠ channelPath d g.1 ∧ q ∉ g.2) → fs' q = fs q := by
  by_cases hps : ps = []
  · subst hps
    rw [mergeAll_nil] at h
    cases h
    exact ⟨fun _ _ _ => rfl, fun _ _ _ => .inl rfl⟩
  · refine ⟨fun out hd ho => ?_, fun d hd ho => ?_⟩
    · rw [mergeAll_out hps hd ho] at h
      exact mergeInto_error h (ne_tmpPath_of_length le_rfl)
    · rw [mergeAll_outDir hps hd ho] at h
      exact .inr (mergeGroups_error _ fs fs' e h)

theorem mem_of_mem_channelPaths {l : List (Int × String)} {c : Int} {p : String}
    (h : p ∈ channelPaths l c) : p ∈ l.map Prod.snd := by
  obtain ⟨x, hx, rfl⟩ := List.mem_map.mp h
  exact List.mem_map_of_mem _ (List.mem_of_mem_filter hx)

theorem mergeAll_after (args : Args) (ps : List (Int × String)) (fs : FS) {q : String}
    (hps : q ∉ ps.map Prod.snd)
    (hout : ∀ out, truthy args.out = some out → q ≠ out ∧ ∀ r b, q ≠ tmpPath out r b)
    (hdir : ∀ d, truthy args.outDir = some d → ∀ c,
      q ≠ channelPath d c ∧ ∀ r b, q ≠ tmpPath (channelPath d c) r b) :
    after (mergeAll args ps fs) q = fs q := by
  by_cases hnil : ps = []
  · subst hnil
    rfl
  cases hd : truthy args.outDir with
  | none =>
    cases ho : truthy args.out with
    | none => simp only [mergeAll, hnil, hd, ho, if_false]; rfl
    | some out =>
      rw [mergeAll_out hnil hd ho]
      exact mergeInto_after fs (hout out ho).2 (hout out ho).1 hps
  | some d =>
    cases ho : truthy args.out with
    | none =>
      rw [mergeAll_outDir hnil hd ho]
      refine mergeGroups_after _ fs fun g hg => ⟨(hdir d hd g.1).1, (hdir d hd g.1).2, fun hq => ?_⟩
      rw [((grouped_perChannel ps).mem_iff g).mp hg |>.2] at hq
      exact hps (mem_of_mem_channelPaths hq)
    | some out => simp only [mergeAll, hnil, hd, ho, if_false]; rfl

theorem eventPath_of_mem_sourcePairs {search : String → String → Bool} {args : Args}
    {tempRoot p : String} (h : p ∈ (sourcePairs search args tempRoot).map Prod.snd) :
    ∃ k symbol, p = eventPath (eventDir tempRoot k) k symbol := by
  obtain ⟨x, hx, rfl⟩ := List.mem_map.mp h
  obtain ⟨s, _, rfl⟩ := List.mem_map.mp hx
  exact ⟨s.1, _, rfl⟩

theorem isUnder_eventDir (tempRoot : String) (k : Kind) (symbol : String) :
    IsUnder tempRoot (eventPath (eventDir tempRoot k) k symbol) := by
  cases k <;> exact isUnder_eventPath _ _ _ _

theorem main_ok {search : String → String → Bool} {fresh : String} {args : Args} {fs fs' : FS}
    (h : main search fresh args fs = .ok () fs') :
    ∃ fs₁, mainBody search args (tempRootOf args fresh) fs = .ok () fs₁ ∧
      fs' = cleanup args fresh fs₁ := by
  unfold main at h
  split at h <;> cases h
  exact ⟨_, ‹_›, rfl⟩

theorem main_error {search : String → String → Bool} {fresh : String} {args : Args} {fs fs' : FS}
    {e : String} (h : main search fresh args fs = .error e fs') :
    ∃ fs₁, mainBody search args (tempRootOf args fresh) fs = .error e fs₁ ∧
      fs' = cleanup args fresh fs₁ := by
  unfold main at h
  split at h <;> cases h
  exact ⟨_, ‹_›, rfl⟩

theorem mainBody_ok {search : String → String → Bool} {args : Args} {tempRoot : String}
    {fs fs' : FS} (h : mainBody search args tempRoot fs = .ok () fs') :
    ∃ ps fs₂, buildAll search args tempRoot fs = .ok ps fs₂ ∧ ps ≠ [] ∧
      mergeAll args ps fs₂ = .ok () fs' := by
  obtain ⟨ps, fs₂, hbuild, hmerge⟩ := bind_eq_ok h
  refine ⟨ps, fs₂, hbuild, ?_, hmerge⟩
  rintro rfl
  rw [mergeAll_nil] at hmerge
  cases hmerge

theorem mainBody_after (search : String → String → Bool) (args : Args) {tempRoot q : String}
    (fs : FS) (hroot : ¬ IsUnder tempRoot q)
    (hout : ∀ out, truthy args.out = some out → q ≠ out ∧ ∀ r b, q ≠ tmpPath out r b)
    (hdir : ∀ d, truthy args.outDir = some d → ∀ c,
      q ≠ channelPath d c ∧ ∀ r b, q ≠ tmpPath (channelPath d c) r b) :
    after (mainBody search args tempRoot fs) q = fs q :=
  after_bind (buildAll_after search args (fun k s (he : q = eventPath (eventDir tempRoot k) k s) =>
      hroot (he ▸ isUnder_eventDir tempRoot k s)) fs)
    fun ps fs' h => mergeAll_after args ps fs' (fun hq => by
      rw [(buildAll_ok h).1] at hq
      obtain ⟨k, symbol, rfl⟩ := eventPath_of_mem_sourcePairs hq
      exact hroot (isUnder_eventDir tempRoot k symbol)) hout hdir

/-! ## `main` -/

theorem main_out_file (search : String → String → Bool) (fresh : String) (args : Args)
    (out : String) (fs fs' : FS) (hdir : truthy args.outDir = none)
    (hout : truthy args.out = some out) (hstems : DistinctStems search args)
    (hbreak : Unbroken (allEvents search args))
    (hclean : args.workDir = none → args.keepTemp = false → ¬ IsUnder fresh out)
    (h : main search fresh args fs = .ok () fs') :
    fs' out = some (eventFile (stableSort eventKey (allEvents search args))) := by
  obtain ⟨fs₁, hb, rfl⟩ := main_ok h
  obtain ⟨ps, fs₂, hbuild, hne, hmerge⟩ := mainBody_ok hb
  have hpaths : ps.map Prod.snd = (sources search args).map (sourcePath (tempRootOf args fresh)) := by
    rw [(buildAll_ok hbuild).1, sourcePairs_snd]
  rw [mergeAll_out hne hdir hout] at hmerge
  obtain ⟨fs₃, hm, hfile, -⟩ := mergeInto_runs args.maxOpen (.inr header_line)
    (by simpa using hne : ps.map Prod.snd ≠ []) fun p hp => by
      obtain ⟨s, hs, rfl⟩ := List.mem_map.mp (hpaths ▸ hp)
      exact ⟨(source_run hbuild hstems hs (unbroken_sourceEvents hbreak hs)).1,
        eventPath_ne_tmpPath _ _ _ out⟩
  rw [hm] at hmerge
  cases hmerge
  rw [cleanup_of_not_under hclean, hfile, hpaths, merged_sources hbuild hstems (fun _ => id) hbreak]
  rfl

set_option maxRecDepth 10000 in
/-- Two listed entries with one stem share one event file: the second overwrites the first,
and the merge reads that file twice. -/
theorem main_same_stem_entries :
    ∃ fs', main (fun _ _ => true) "t" { orderArchive := [⟨"a/000001.csv", [fun _ => "1"]⟩,
        ⟨"b/000001.csv", [fun _ => "2"]⟩], tickArchive := [], out := some "o", workDir := some "w" }
        (fun _ => none) = .ok () fs' ∧
      fs' "o" = some (eventFile [orderEvent "000001" 2 2 fun _ => "2",
        orderEvent "000001" 2 2 fun _ => "2"]) ∧
      allEvents (fun _ _ => true) { orderArchive := [⟨"a/000001.csv", [fun _ => "1"]⟩,
        ⟨"b/000001.csv", [fun _ => "2"]⟩], tickArchive := [], out := some "o", workDir := some "w" } =
        [orderEvent "000001" 1 1 fun _ => "1", orderEvent "000001" 2 2 fun _ => "2"] :=
  ⟨_, rfl, rfl, rfl⟩

set_option maxRecDepth 10000 in
/-- A `Side` cell with a line break: `csv.writer` quotes the record across two physical lines,
`readline` hands them to the merge one at a time, and `parse_key` keys the second as an event
of its own, `(2, 3)`: the other entry's event `(1, 2)` lands inside the record. -/
theorem main_splits_broken_record :
    ∃ fs', main (fun _ _ => true) "t"
        { orderArchive := [⟨"000001.csv", [fun c => if c = "Side" then "x\n2,3,y" else "1"]⟩,
            ⟨"000002.csv", [fun c => if c = "ApplSeqNum" then "2" else "1"]⟩],
          tickArchive := [], out := some "o", workDir := some "w" } (fun _ => none) = .ok () fs' ∧
      fs' "o" = some (writerow eventHeader ++ "1,1,ORDER,000001,1,,,\"x\n".toList ++
        (orderEvent "000002" 1 2 fun c => if c = "ApplSeqNum" then "2" else "1").line ++
        "2,3,y\",1,1,,1,,1,1,order\r\n".toList) :=
  ⟨_, rfl, rfl⟩

set_option maxRecDepth 10000 in
/-- Two order entries and a tick entry over two channels, merged two at a time: the tick event
of channel 1 comes before that channel's order event, and channel 2 comes last. -/
theorem main_out_file_two_rounds :
    let args : Args :=
      { orderArchive := [⟨"000001.csv", [fun c => if c = "ApplSeqNum" then "3" else "1"]⟩,
          ⟨"000002.csv", [fun c => if c = "ChannelNo" then "2" else "1"]⟩],
        tickArchive := [⟨"000001.csv", [fun c => if c = "ApplSeqNum" then "2" else "1"]⟩],
        out := some "o", workDir := some "w", maxOpen := 2 }
    ∃ fs', main (fun _ _ => true) "t" args (fun _ => none) = .ok () fs' ∧
      fs' "o" = some (eventFile (stableSort eventKey (allEvents (fun _ _ => true) args))) ∧
      (stableSort eventKey (allEvents (fun _ _ => true) args)).map (fun e => (e.channel, e.seq)) =
        [(1, 2), (1, 3), (2, 1)] :=
  ⟨_, rfl, main_out_file _ "t" _ "o" (fun _ => none) _ rfl rfl (by decide) (by decide)
    (fun h => by cases h) rfl, by decide⟩

theorem main_out_dir_files (search : String → String → Bool) (fresh : String) (args : Args)
    (outDir : String) (fs fs' : FS) (hdir : truthy args.outDir = some outDir)
    (hout : truthy args.out = none) (hstems : DistinctStems search args)
    (hbreak : Unbroken (allEvents search args))
    (hclean : args.workDir = none → args.keepTemp = false → ∀ c, ¬ IsUnder fresh (channelPath outDir c))
    (h : main search fresh args fs = .ok () fs') :
    ∀ c, (c ∈ resolvedChannels search args →
        fs' (channelPath outDir c) = some (eventFile (stableSort EventRow.seq (channelEvents search args c))) ∧
        ∀ e ∈ channelEvents search args c, e.channel = c) ∧
      (c ∉ resolvedChannels search args → fs' (channelPath outDir c) = fs (channelPath outDir c)) := by
  obtain ⟨fs₁, hb, rfl⟩ := main_ok h
  obtain ⟨ps, fs₂, hbuild, hne, hmerge⟩ := mainBody_ok hb
  obtain ⟨hps, hsrc⟩ := buildAll_ok hbuild
  rw [mergeAll_outDir hne hdir hout] at hmerge
  have hg := grouped_perChannel ps
  have hkeys : ps.map Prod.fst = resolvedChannels search args := hps ▸ sourcePairs_fst _ _ _
  have hpaths : ps.map Prod.snd = (sources search args).map (sourcePath (tempRootOf args fresh)) :=
    hps ▸ sourcePairs_snd _ _ _
  obtain ⟨fs₃, hm, hfiles, hframe⟩ := mergeGroups_ok outDir args.maxOpen (.inr header_line)
    (perChannel ps) fs₂ hg.nodup (hg.nodup_flatten (by rw [hpaths]; exact nodup_sourcePaths hstems _))
    fun g hgm => by
      obtain ⟨hc, hgp⟩ := (hg.mem_iff g).mp hgm
      refine ⟨fun hnil => ?_, fun p hp => ?_⟩
      · obtain ⟨x, hx, hxc⟩ := List.mem_map.mp hc
        rw [hgp, channelPaths, List.map_eq_nil_iff, List.filter_eq_nil_iff] at hnil
        exact hnil x hx (decide_eq_true hxc)
      · obtain ⟨s, hs, rfl⟩ := List.mem_map.mp (hpaths ▸ mem_of_mem_channelPaths (hgp ▸ hp))
        exact ⟨(source_run hbuild hstems hs (unbroken_sourceEvents hbreak hs)).1, fun c =>
          ⟨eventPath_ne_channelPath _ _ _ _ _, fun r b => eventPath_ne_tmpPath _ _ _ _ r b⟩⟩
  rw [hm] at hmerge
  cases hmerge
  intro c
  rw [cleanup_of_not_under fun hw hk => hclean hw hk c]
  refine ⟨fun hc => ⟨?_, fun e he => channel_of_mem_channelEvents (fun s hs => (hsrc s hs).1) he⟩,
    fun hc => ?_⟩
  · have hgm : (c, channelPaths ps c) ∈ perChannel ps := (hg.mem_iff _).mpr ⟨hkeys ▸ hc, rfl⟩
    rw [hfiles _ hgm, hps, channelPaths_sourcePairs, merged_sources hbuild hstems
      (fun s hs => List.mem_of_mem_filter hs) fun e he => hbreak e (mem_allEvents he),
      show (((sources search args).filter fun s => resolvedChannel args.channel s.2 = c).map
        (sourceEvents args)).flatten = channelEvents search args c from rfl,
      stableSort_eventKey_seq fun e he => channel_of_mem_channelEvents (fun s hs => (hsrc s hs).1) he]
    rfl
  · have hq : fs₁ (channelPath outDir c) = fs₂ (channelPath outDir c) := by
      refine hframe _ (fun c' r b => channelPath_ne_tmpPath _ _ _ r b) fun g hgm =>
        ⟨fun he => hc ?_, fun hp => ?_⟩
      · rw [channelPath_inj he, ← hkeys]
        exact ((hg.mem_iff g).mp hgm).1
      · obtain ⟨s, _, hs⟩ :=
          List.mem_map.mp (hpaths ▸ mem_of_mem_channelPaths (((hg.mem_iff g).mp hgm).2 ▸ hp))
        exact eventPath_ne_channelPath _ _ _ _ _ hs
    have hbf : after (buildAll search args (tempRootOf args fresh) fs) (channelPath outDir c) =
        fs (channelPath outDir c) :=
      buildAll_after search args (fun k s' he => eventPath_ne_channelPath _ _ _ _ _ he.symm) fs
    rw [hbuild] at hbf
    exact hq.trans hbf

set_option maxRecDepth 10000 in
/-- Two entries of channel 1 with one stem: `channel_1.csv` holds the second entry's event
twice and never the first entry's. -/
theorem main_same_stem_channel :
    ∃ fs', main (fun _ _ => true) "t"
        { orderArchive := [⟨"a/000001.csv", [fun _ => "1"]⟩,
            ⟨"b/000001.csv", [fun c => if c = "ApplSeqNum" then "2" else "1"]⟩],
          tickArchive := [], outDir := some "d", workDir := some "w" } (fun _ => none) = .ok () fs' ∧
      fs' "d/channel_1.csv" = some (eventFile
        [orderEvent "000001" 1 2 fun c => if c = "ApplSeqNum" then "2" else "1",
          orderEvent "000001" 1 2 fun c => if c = "ApplSeqNum" then "2" else "1"]) ∧
      channelEvents (fun _ _ => true)
        { orderArchive := [⟨"a/000001.csv", [fun _ => "1"]⟩,
            ⟨"b/000001.csv", [fun c => if c = "ApplSeqNum" then "2" else "1"]⟩],
          tickArchive := [], outDir := some "d", workDir := some "w" } 1 =
        [orderEvent "000001" 1 1 fun _ => "1",
          orderEvent "000001" 1 2 fun c => if c = "ApplSeqNum" then "2" else "1"] :=
  ⟨_, rfl, rfl, rfl⟩

set_option maxRecDepth 10000 in
/-- The same entries in `--out-dir` mode: channel 1 merges an order and a tick file, channel 2
takes its one file. -/
theorem main_out_dir_two_channels :
    let args : Args :=
      { orderArchive := [⟨"000001.csv", [fun c => if c = "ApplSeqNum" then "3" else "1"]⟩,
          ⟨"000002.csv", [fun c => if c = "ChannelNo" then "2" else "1"]⟩],
        tickArchive := [⟨"000001.csv", [fun c => if c = "ApplSeqNum" then "2" else "1"]⟩],
        outDir := some "d", workDir := some "w" }
    ∃ fs', main (fun _ _ => true) "t" args (fun _ => none) = .ok () fs' ∧
      (∀ c, (c ∈ resolvedChannels (fun _ _ => true) args →
          fs' (channelPath "d" c) = some (eventFile (stableSort EventRow.seq
            (channelEvents (fun _ _ => true) args c))) ∧
          ∀ e ∈ channelEvents (fun _ _ => true) args c, e.channel = c) ∧
        (c ∉ resolvedChannels (fun _ _ => true) args → fs' (channelPath "d" c) = none)) ∧
      resolvedChannels (fun _ _ => true) args = [1, 2, 1] ∧
      (stableSort EventRow.seq (channelEvents (fun _ _ => true) args 1)).map EventRow.seq = [2, 3] :=
  ⟨_, rfl, main_out_dir_files _ "t" _ "d" (fun _ => none) _ rfl rfl (by decide) (by decide)
    (fun h => by cases h) rfl, by decide, by decide⟩

theorem not_mem_take_of_nodup {l : List Int} (hl : l.Nodup) {i : Nat} {x : Int} (h : l[i]? = some x) :
    x ∉ l.take i := fun hx => by
  have hd : x ∈ l.drop i := List.mem_iff_getElem?.mpr ⟨0, by rw [List.getElem?_drop, Nat.add_zero, h]⟩
  rw [← List.take_append_drop i l] at hl
  exact List.disjoint_of_nodup_append hl hx hd

/-- **A raising `main` leaves the final outputs alone.** With `--out`, that file is as it was.
With `--out-dir`, either no `channel_<c>.csv` changed, as when a build raises, or both builds
returned and the merge of group `i` raised once the groups before it had returned: the channel
files of that group, of every later group and of no group are as they were. -/
theorem main_raise_keeps_outputs (search : String → String → Bool) (fresh : String) (args : Args)
    (fs fs' : FS) (e : String)
    (hout : ∀ out, truthy args.out = some out → ¬ IsUnder (tempRootOf args fresh) out)
    (hdir : ∀ d, truthy args.outDir = some d → args.workDir = none → args.keepTemp = false →
      ∀ c, ¬ IsUnder fresh (channelPath d c))
    (h : main search fresh args fs = .error e fs') :
    (∀ out, truthy args.outDir = none → truthy args.out = some out → fs' out = fs out) ∧
    ∀ d, truthy args.outDir = some d → truthy args.out = none →
      (∀ c, fs' (channelPath d c) = fs (channelPath d c)) ∨
      ∃ fs₁ i g fs₂ fs₃, buildAll search args (tempRootOf args fresh) fs =
          .ok (sourcePairs search args (tempRootOf args fresh)) fs₁ ∧
        (perChannel (sourcePairs search args (tempRootOf args fresh)))[i]? = some g ∧
        mergeGroups d args.maxOpen
          ((perChannel (sourcePairs search args (tempRootOf args fresh))).take i) fs₁ = .ok () fs₂ ∧
        mergeInto g.2 (channelPath d g.1) args.maxOpen fs₂ = .error e fs₃ ∧
        g.1 ∉ ((perChannel (sourcePairs search args (tempRootOf args fresh))).map Prod.fst).take i ∧
        ∀ c, c ∉ ((perChannel (sourcePairs search args (tempRootOf args fresh))).map Prod.fst).take i →
          fs' (channelPath d c) = fs (channelPath d c) := by
  obtain ⟨fs₁, hb, rfl⟩ := main_error h
  have hclean : ∀ out, truthy args.out = some out → cleanup args fresh fs₁ out = fs₁ out :=
    fun out ho => cleanup_of_not_under (fun hw _ => by
      simpa only [tempRootOf, hw, Option.getD_none] using hout out ho) fs₁
  have hout' : ∀ out, truthy args.out = some out → ∀ k s, out ≠ eventPath
      (eventDir (tempRootOf args fresh) k) k s := fun out ho k s he =>
    hout out ho (he ▸ isUnder_eventDir _ k s)
  have hbf : ∀ q, (∀ k s, q ≠ eventPath (eventDir (tempRootOf args fresh) k) k s) →
      after (buildAll search args (tempRootOf args fresh) fs) q = fs q :=
    fun q hq => buildAll_after search args hq fs
  have hch : ∀ d c k s, channelPath d c ≠ eventPath (eventDir (tempRootOf args fresh) k) k s :=
    fun d c k s he => eventPath_ne_channelPath _ _ _ _ _ he.symm
  rw [mainBody, bind_apply] at hb
  cases hbuild : buildAll search args (tempRootOf args fresh) fs with
  | error e' fs₂ =>
    simp only [hbuild, after] at hbf
    rw [hbuild] at hb
    cases hb
    refine ⟨fun out _ ho => (hclean out ho).trans (hbf _ (hout' out ho)), fun d hd _ => .inl fun c => ?_⟩
    rw [cleanup_of_not_under fun hw hk => hdir d hd hw hk c]
    exact hbf _ (hch d c)
  | ok ps fs₂ =>
    simp only [hbuild, after] at hbf
    rw [hbuild] at hb
    obtain ⟨rfl, -⟩ := buildAll_ok hbuild
    obtain ⟨h1, h2⟩ := mergeAll_error hb
    refine ⟨fun out hd ho => (hclean out ho).trans ((h1 out hd ho).trans (hbf _ (hout' out ho))),
      fun d hd ho => ?_⟩
    have hclean' : ∀ c, cleanup args fresh fs₁ (channelPath d c) = fs₁ (channelPath d c) :=
      fun c => cleanup_of_not_under (fun hw hk => hdir d hd hw hk c) fs₁
    rcases h2 d hd ho with rfl | ⟨i, g, fs₃, hg, hpre, hfail, hfr⟩
    · exact .inl fun c => by rw [hclean', hbf _ (hch d c)]
    refine .inr ⟨fs₂, i, g, fs₃, fs₁, rfl, hg, hpre, hfail,
      not_mem_take_of_nodup (grouped_perChannel _).nodup (by rw [List.getElem?_map, hg]; rfl),
      fun c hc => ?_⟩
    rw [hclean', ← hbf _ (hch d c)]
    refine hfr _ (fun c' r b => channelPath_ne_tmpPath _ _ _ r b) fun g hg => ⟨fun he => hc ?_,
      fun hp => ?_⟩
    · rw [channelPath_inj he, ← List.map_take]
      exact List.mem_map_of_mem _ hg
    · have hg' := ((grouped_perChannel _).mem_iff g).mp (List.mem_of_mem_take hg)
      obtain ⟨k, sym, hks⟩ := eventPath_of_mem_sourcePairs (mem_of_mem_channelPaths (hg'.2 ▸ hp))
      exact hch d c k sym hks

set_option maxRecDepth 10000 in
/-- `--out` inside the work directory, at the event path of an entry that fails the channel
check: the failed write has already created it. -/
theorem main_raise_writes_out :
    ∃ e fs', main (fun _ _ => true) "t"
        { orderArchive := [⟨"000001.csv", [fun _ => "1", fun _ => "2"]⟩], tickArchive := [],
          out := some "w/order_events/order_000001.events.csv", workDir := some "w" }
        (fun _ => none) = .error e fs' ∧
      fs' "w/order_events/order_000001.events.csv" =
        some (eventFile [orderEvent "000001" 1 1 fun _ => "1"]) :=
  ⟨_, _, rfl, rfl⟩

set_option maxRecDepth 10000 in
/-- A `Side` cell with a line break in the second group: its merge raises on the continuation
line once the first group's file is written, and `channel_2.csv` is not created. -/
theorem main_raise_second_group :
    let args : Args :=
      { orderArchive := [⟨"000001.csv", [fun _ => "1"]⟩,
          ⟨"000002.csv", [fun c => if c = "ChannelNo" then "2" else "1"]⟩,
          ⟨"000003.csv", [fun c => if c = "ChannelNo" then "2" else if c = "Side" then "x\ny" else "1"]⟩],
        tickArchive := [], outDir := some "d", workDir := some "w" }
    ∃ e fs', main (fun _ _ => true) "t" args (fun _ => none) = .error e fs' ∧
      ((∀ out, truthy args.outDir = none → truthy args.out = some out → fs' out = none) ∧
      ∀ d, truthy args.outDir = some d → truthy args.out = none →
        (∀ c, fs' (channelPath d c) = none) ∨
        ∃ fs₁ i g fs₂ fs₃, buildAll (fun _ _ => true) args (tempRootOf args "t") (fun _ => none) =
            .ok (sourcePairs (fun _ _ => true) args (tempRootOf args "t")) fs₁ ∧
          (perChannel (sourcePairs (fun _ _ => true) args (tempRootOf args "t")))[i]? = some g ∧
          mergeGroups d args.maxOpen
            ((perChannel (sourcePairs (fun _ _ => true) args (tempRootOf args "t"))).take i) fs₁ =
              .ok () fs₂ ∧
          mergeInto g.2 (channelPath d g.1) args.maxOpen fs₂ = .error e fs₃ ∧
          g.1 ∉ ((perChannel (sourcePairs (fun _ _ => true) args (tempRootOf args "t"))).map
            Prod.fst).take i ∧
          ∀ c, c ∉ ((perChannel (sourcePairs (fun _ _ => true) args (tempRootOf args "t"))).map
            Prod.fst).take i → fs' (channelPath d c) = none) ∧
      fs' (channelPath "d" 1) = some (eventFile [orderEvent "000001" 1 1 fun _ => "1"]) ∧
      fs' (channelPath "d" 2) = none :=
  ⟨_, _, rfl, main_raise_keeps_outputs _ "t" _ (fun _ => none) _ _ (fun out ho => by cases ho)
    (fun d hd hw => by cases hw) rfl, rfl, rfl⟩

/-- **What `main` never touches.** Whether it returns or raises, `main` creates, changes or
removes no file outside its work directory except `--out` or the `channel_<c>.csv` files under
`--out-dir`, and the `.merge_<r>_<b>.tmp` files named after them. -/
theorem main_writes_only_outputs (search : String → String → Bool) (fresh : String) (args : Args)
    (fs : FS) (q : String) (hroot : ¬ IsUnder (tempRootOf args fresh) q)
    (hout : ∀ out, truthy args.out = some out → q ≠ out ∧ ∀ r b, q ≠ tmpPath out r b)
    (hdir : ∀ d, truthy args.outDir = some d → ∀ c,
      q ≠ channelPath d c ∧ ∀ r b, q ≠ tmpPath (channelPath d c) r b) :
    after (main search fresh args fs) q = fs q := by
  have hbody := mainBody_after search args fs hroot hout hdir
  have hclean : ∀ fs₁ : FS, cleanup args fresh fs₁ q = fs₁ q := cleanup_of_not_under fun hw _ => by
    simpa only [tempRootOf, hw, Option.getD_none] using hroot
  unfold main
  split <;> rename_i h <;> rw [h] at hbody <;> exact (hclean _).trans hbody

theorem main_writes_only_outputs_one_entry :
    ¬ IsUnder "t" "x" ∧ "x" ≠ "o" ∧
      after (main (fun _ _ => true) "t"
        { orderArchive := [⟨"000001.csv", [fun _ => "1"]⟩], tickArchive := [], out := some "o" }
        (fun _ => none)) "x" = none := by
  have hroot : ¬ IsUnder "t" "x" := by decide
  have hx : "x" ≠ "o" := by decide
  refine ⟨hroot, hx, main_writes_only_outputs _ "t" _ (fun _ => none) "x" hroot
    (fun out ho => ?_) fun d hd => by cases hd⟩
  cases ho
  exact ⟨hx, ne_tmpPath_of_length le_rfl⟩

end SzseMerge.Main
