import SzseMerge.Main

/-!
# The Polars script's merge

`merge_szse_l3_polars.py` reads the order and tick directories with Polars. In
`--out-dir` mode it files each CSV under the channel `read_channel_no` reads
from its first data line, with a plain `split(",")`, and writes for every
channel the sorted rows of that channel's files to `channel_<c>.csv`; in `--out`
mode it sorts the rows of all files into one file. Polars itself is a
parameter: what one file reads as, the sort, and the text `sink_csv` writes.

A channel file receives every row of the files filed under its channel,
whatever `ChannelNo` Polars reads on each row. Nothing checks that a file keeps
one channel, as `write_order_events` and `write_tick_events` do in the sibling
script, so a file whose channel changes after its first row puts rows of
another channel into `channel_<c>.csv`.
-/

set_option autoImplicit false

namespace SzseMerge.Polars
open Text FileSystem Build

/-- What the script uses of Polars. `scan kind encoding ignore_errors path text` is what
`build_order_lazy` (`kind = order`) or `build_tick_lazy` makes of one file: its rows, or the
error Polars raises on it; a scan of several files yields each file's rows in turn.
`channelNo` is a row's `ChannelNo`, `none` when null. `sort` is
`.sort(["ChannelNo", "ApplSeqNum"])`, which may put equal keys in any order: what is used
of it here is that it keeps the rows. `sinkCsv` is the text `sink_csv` writes, and
`noFiles` the error a scan of no file raises. -/
structure Engine (ρ : Type) where
  scan : Kind → String → Bool → String → List Char → Except String (List ρ)
  channelNo : ρ → Option Int
  sort : List ρ → List ρ
  sort_perm : ∀ rows, (sort rows).Perm rows
  sinkCsv : List ρ → List Char
  noFiles : String

/-- The arguments `main` reads, with their defaults; `--tmp` is parsed and never read. -/
structure Args where
  orderDir : String
  tickDir : String
  out : Option String := none
  outDir : Option String := none
  limitFiles : Option Int := none
  encoding : String := "utf8-lossy"
  ignoreErrors : Bool := false

/-- `files[:limit]`: a negative `limit` counts from the end. -/
def sliceTo {α : Type} (l : List α) (limit : Int) : List α :=
  if 0 ≤ limit then l.take limit.toNat else l.take (l.length - limit.natAbs)

/-- `list_csv_files(dir_path, limit)`, with `listdir` for `os.listdir`. -/
def listCsvFiles (listdir : String → List String) (dirPath : String) (limit : Option Int) :
    List String :=
  let files := (((listdir dirPath).filter (endswith · ".csv")).map (join dirPath)).insertionSort
    (· ≤ ·)
  match limit with
  | some n => sliceTo files n
  | none => files

/-- `s.split(sep)`: a split at every separator, of which there are at most as many as
characters. -/
def splitAll (sep : Char) (s : List Char) : List (List Char) := splitN sep s.length s

/-- The loop of `read_channel_no` over the lines after the header: the first stripped
non-empty line with a field at `idx` gives `int()` of that field. -/
def firstChannelNo (idx : Nat) : List (List Char) → Except String (Option Int)
  | [] => .ok none
  | line :: rest =>
    if strip line = [] then firstChannelNo idx rest
    else if (splitAll ',' (strip line)).length ≤ idx then firstChannelNo idx rest
    else
      let part := (splitAll ',' (strip line)).getD idx []
      match pyInt part with
      | some n => .ok (some n)
      | none => .error ("invalid literal for int() with base 10: " ++ pyRepr part)

/-- `read_channel_no(path)` on the file's text. Opened with universal newlines, the file ends
its lines where `lines` does, and `strip` removes the ends. -/
def channelNoOf (path : String) (text : List Char) : Except String (Option Int) :=
  let header := splitAll ',' (strip ((lines text).headD []))
  if "ChannelNo".data ∈ header then
    firstChannelNo (header.indexOf "ChannelNo".data) (lines text).tail
  else .error ("ChannelNo not found in header: " ++ path)

/-- `read_channel_no(path)`. -/
def readChannelNo (path : String) : Py (Option Int) := do
  match channelNoOf path (← readFile path) with
  | .ok channel => pure channel
  | .error e => throw e

/-- The loop body of `group_files_by_channel`: file `path` under its channel, if it has one. -/
def fileByChannel (mapping : List (Int × List String)) (path : String) :
    Py (List (Int × List String)) := do
  match ← readChannelNo path with
  | none => pure mapping
  | some channel => pure (Main.setdefaultAppend channel path mapping)

/-- `group_files_by_channel(files)`: the `mapping` dictionary, in insertion order. -/
def groupFilesByChannel (files : List String) : Py (List (Int × List String)) :=
  files.foldlM fileByChannel []

section Run
variable {ρ : Type} (pl : Engine ρ)

/-- The rows a scan of `files` yields when `sink_csv` runs it: each file's in turn. -/
def scanFiles (kind : Kind) (encoding : String) (ignoreErrors : Bool) : List String → Py (List ρ)
  | [] => pure []
  | p :: ps => do
    match pl.scan kind encoding ignoreErrors p (← readFile p) with
    | .ok rows => do
      let rest ← scanFiles kind encoding ignoreErrors ps
      pure (rows ++ rest)
    | .error e => throw e

/-- `build_order_lazy(files, ...)` or `build_tick_lazy(files, ...)`, collected. -/
def scanCsv (kind : Kind) (encoding : String) (ignoreErrors : Bool) (files : List String) :
    Py (List ρ) :=
  if files = [] then throw pl.noFiles else scanFiles pl kind encoding ignoreErrors files

/-- The rows of the frame `if files: frames.append(build_..._lazy(files, ...))` adds: none
when `files` is empty. -/
def frameRows (kind : Kind) (args : Args) (files : List String) : Py (List ρ) :=
  if files = [] then pure [] else scanCsv pl kind args.encoding args.ignoreErrors files

/-- `sorted(set(order_by_channel) | set(tick_by_channel))`. -/
def channelUnion (orderByChannel tickByChannel : List (Int × List String)) : List Int :=
  ((orderByChannel.map Prod.fst ++ tickByChannel.map Prod.fst).dedup).insertionSort (· ≤ ·)

/-- One pass of the loop over the channels: the channel's order and tick files, sorted
together and written to `channel_<c>.csv`. -/
def writeChannel (args : Args) (outDir : String)
    (orderByChannel tickByChannel : List (Int × List String)) (channel : Int) : Py Unit := do
  let orderList := (orderByChannel.lookup channel).getD []
  let tickList := (tickByChannel.lookup channel).getD []
  if orderList = [] ∧ tickList = [] then pure () else do
    let orderRows ← frameRows pl .order args orderList
    let tickRows ← frameRows pl .tick args tickList
    writeFile (Main.channelPath outDir channel) (pl.sinkCsv (pl.sort (orderRows ++ tickRows)))

/-- `main()` of the Polars script, with `listdir` for `os.listdir`. Without `--limit-files`,
Polars expands the glob `<dir>/*.csv`, taken here as the sorted listing. -/
def main (listdir : String → List String) (args : Args) : Py Unit :=
  match truthy args.outDir, truthy args.out with
  | some _, some _ => throw "Use either --out or --out-dir, not both."
  | none, none => throw "Specify --out (single file) or --out-dir (per-channel)."
  | some outDir, none => do
    let orderByChannel ← groupFilesByChannel (listCsvFiles listdir args.orderDir args.limitFiles)
    let tickByChannel ← groupFilesByChannel (listCsvFiles listdir args.tickDir args.limitFiles)
    (channelUnion orderByChannel tickByChannel).forM
      (writeChannel pl args outDir orderByChannel tickByChannel)
  | none, some out => do
    let orderRows ← scanCsv pl .order args.encoding args.ignoreErrors
      (listCsvFiles listdir args.orderDir args.limitFiles)
    let tickRows ← scanCsv pl .tick args.encoding args.ignoreErrors
      (listCsvFiles listdir args.tickDir args.limitFiles)
    writeFile out (pl.sinkCsv (pl.sort (orderRows ++ tickRows)))

end Run

/-! ## What `--out-dir` mode writes -/

/-- The files of one directory as `main` reads them: each exists, `read_channel_no` gives
`chan p` on its text, and Polars reads it as `rows p`. -/
def ReadsAs {ρ : Type} (pl : Engine ρ) (kind : Kind) (args : Args) (fs : FS) (files : List String)
    (chan : String → Option Int) (rows : String → List ρ) : Prop :=
  ∀ p ∈ files, ∃ text, fs p = some text ∧ channelNoOf p text = .ok (chan p) ∧
    pl.scan kind args.encoding args.ignoreErrors p text = .ok (rows p)

/-- The files of one directory as a scan reads them: each exists and Polars reads it as
`rows p`. -/
def ScansAs {ρ : Type} (pl : Engine ρ) (kind : Kind) (args : Args) (fs : FS) (files : List String)
    (rows : String → List ρ) : Prop :=
  ∀ p ∈ files, ∃ text, fs p = some text ∧ pl.scan kind args.encoding args.ignoreErrors p text = .ok (rows p)

/-- The `(channel, path)` pairs `group_files_by_channel` files, in order. -/
def filed (files : List String) (chan : String → Option Int) : List (Int × String) :=
  files.filterMap fun p => (chan p).map (·, p)

/-- The rows of the files filed under channel `c`: its order files', then its tick files'. -/
def channelRows {ρ : Type} (orderFiles tickFiles : List String) (chanO chanT : String → Option Int)
    (rowsO rowsT : String → List ρ) (c : Int) : List ρ :=
  (orderFiles.filter (chanO · = some c)).flatMap rowsO ++ (tickFiles.filter (chanT · = some c)).flatMap rowsT

/-- What the loop writes for channel `c`: nothing when no file is filed under it, else the
sorted rows of its files. -/
def channelOutput {ρ : Type} (pl : Engine ρ) (orderFiles tickFiles : List String)
    (chanO chanT : String → Option Int) (rowsO rowsT : String → List ρ) (c : Int) :
    Option (List Char) :=
  if orderFiles.filter (chanO · = some c) = [] ∧ tickFiles.filter (chanT · = some c) = [] then none
  else some (pl.sinkCsv (pl.sort (channelRows orderFiles tickFiles chanO chanT rowsO rowsT c)))

theorem lookup_map_pair (ks : List Int) (f : Int → List String) (c : Int) :
    (ks.map fun k => (k, f k)).lookup c = if c ∈ ks then some (f c) else none := by
  induction ks with
  | nil => rfl
  | cons k ks ih =>
    by_cases hc : c = k
    · subst hc
      simp
    · simp [List.lookup_cons, hc, ih, beq_false_of_ne hc]

theorem lookup_perChannel (l : List (Int × String)) (c : Int) :
    ((Main.perChannel l).lookup c).getD [] = Main.channelPaths l c := by
  have h := Main.grouped_perChannel l
  rw [h.eq, lookup_map_pair]
  split
  · rfl
  · next hc =>
    rw [h.mem] at hc
    refine (List.map_eq_nil_iff.mpr (List.filter_eq_nil_iff.mpr fun cp hcp hcc => ?_)).symm
    exact hc (List.mem_map.mpr ⟨cp, hcp, of_decide_eq_true hcc⟩)

theorem channelPaths_filed (files : List String) (chan : String → Option Int) (c : Int) :
    Main.channelPaths (filed files chan) c = files.filter (chan · = some c) := by
  induction files with
  | nil => rfl
  | cons p ps ih =>
    rcases hp : chan p with _ | d
    · simp [filed, hp, ← ih, Main.channelPaths]
    · by_cases hd : d = c <;> simp [filed, hp, hd, ← ih, Main.channelPaths]

theorem mem_filed_fst {files : List String} {chan : String → Option Int} {c : Int} :
    c ∈ (filed files chan).map Prod.fst ↔ files.filter (chan · = some c) ≠ [] := by
  simp only [filed, ne_eq, List.filter_eq_nil_iff, decide_eq_true_eq, not_forall, not_not,
    List.mem_map, List.mem_filterMap, Option.map_eq_some']
  constructor
  · rintro ⟨_, ⟨p, hp, d, hd, rfl⟩, rfl⟩
    exact ⟨p, hp, hd⟩
  · rintro ⟨p, hp, hd⟩
    exact ⟨_, ⟨p, hp, c, hd, rfl⟩, rfl⟩

section Run
variable {ρ : Type} {pl : Engine ρ} {kind : Kind} {args : Args} {fs : FS} {files : List String}
  {chan : String → Option Int} {rows : String → List ρ}

theorem ReadsAs.write (h : ReadsAs pl kind args fs files chan rows) {q : String}
    (hq : ∀ p ∈ files, p ≠ q) (t : List Char) : ReadsAs pl kind args (fs.write q t) files chan rows :=
  fun p hp => by rw [FS.write_other _ _ (hq p hp)]; exact h p hp

theorem ReadsAs.tail {p : String} (h : ReadsAs pl kind args fs (p :: files) chan rows) :
    ReadsAs pl kind args fs files chan rows :=
  fun q hq => h q (.tail _ hq)

theorem readChannelNo_eq {p : String} (h : ReadsAs pl kind args fs files chan rows) (hp : p ∈ files) :
    readChannelNo p fs = .ok (chan p) fs := by
  obtain ⟨t, ht, hc, -⟩ := h p hp
  rw [readChannelNo, bind_ok (show readFile p fs = .ok t fs by simp [readFile, ht]), hc]
  rfl

theorem groupFilesByChannel_eq (h : ReadsAs pl kind args fs files chan rows) :
    groupFilesByChannel files fs = .ok (Main.perChannel (filed files chan)) fs := by
  suffices ∀ (ps : List String) (acc : List (Int × List String)), ReadsAs pl kind args fs ps chan rows →
      ps.foldlM fileByChannel acc fs =
        .ok ((filed ps chan).foldl (fun groups cp => Main.setdefaultAppend cp.1 cp.2 groups) acc) fs from
    this files [] h
  intro ps
  induction ps with
  | nil => exact fun _ _ => rfl
  | cons p ps ih =>
    intro acc hps
    rw [List.foldlM_cons, fileByChannel, bind_assoc, bind_ok (readChannelNo_eq hps (.head _))]
    rcases hp : chan p with _ | c
    · simp only [hp, filed, List.filterMap_cons, Option.map_none']
      exact ih acc hps.tail
    · simp only [hp, filed, List.filterMap_cons, Option.map_some', List.foldl_cons]
      exact ih _ hps.tail

theorem ReadsAs.scansAs (h : ReadsAs pl kind args fs files chan rows) :
    ScansAs pl kind args fs files rows :=
  fun p hp => let ⟨t, ht, _, hs⟩ := h p hp; ⟨t, ht, hs⟩

theorem scanFiles_eq (h : ScansAs pl kind args fs files rows) :
    scanFiles pl kind args.encoding args.ignoreErrors files fs = .ok (files.flatMap rows) fs := by
  induction files with
  | nil => rfl
  | cons p ps ih =>
    obtain ⟨t, ht, hs⟩ := h p (.head _)
    rw [scanFiles, bind_ok (show readFile p fs = .ok t fs by simp [readFile, ht])]
    simp only [hs, bind_ok (ih fun q hq => h q (.tail _ hq)), List.flatMap_cons]
    rfl

theorem frameRows_eq (h : ReadsAs pl kind args fs files chan rows) :
    frameRows pl kind args files fs = .ok (files.flatMap rows) fs := by
  unfold frameRows
  split
  · next he => subst he; rfl
  · next he => rw [scanCsv, if_neg he]; exact scanFiles_eq h.scansAs

end Run

section Loop
variable {ρ : Type} {pl : Engine ρ} {args : Args} {outDir : String} {orderFiles tickFiles : List String}
  {chanO chanT : String → Option Int} {rowsO rowsT : String → List ρ}

/-- The file system once the loop's pass for channel `c` has written that channel's output. -/
def afterChannel (pl : Engine ρ) (outDir : String) (orderFiles tickFiles : List String)
    (chanO chanT : String → Option Int) (rowsO rowsT : String → List ρ) (fs : FS) (c : Int) : FS :=
  (channelOutput pl orderFiles tickFiles chanO chanT rowsO rowsT c).elim fs
    (fs.write (Main.channelPath outDir c))

theorem writeChannel_eq {fs : FS} (hO : ReadsAs pl .order args fs orderFiles chanO rowsO)
    (hT : ReadsAs pl .tick args fs tickFiles chanT rowsT) (c : Int) :
    writeChannel pl args outDir (Main.perChannel (filed orderFiles chanO))
        (Main.perChannel (filed tickFiles chanT)) c fs =
      .ok () (afterChannel pl outDir orderFiles tickFiles chanO chanT rowsO rowsT fs c) := by
  have hOc : ReadsAs pl .order args fs (orderFiles.filter (chanO · = some c)) chanO rowsO :=
    fun p hp => hO p (List.mem_of_mem_filter hp)
  have hTc : ReadsAs pl .tick args fs (tickFiles.filter (chanT · = some c)) chanT rowsT :=
    fun p hp => hT p (List.mem_of_mem_filter hp)
  simp only [writeChannel, lookup_perChannel, channelPaths_filed, afterChannel, channelOutput,
    channelRows]
  by_cases he : orderFiles.filter (chanO · = some c) = [] ∧ tickFiles.filter (chanT · = some c) = []
  · rw [if_pos he, if_pos he]
    rfl
  · rw [if_neg he, if_neg he, bind_ok (frameRows_eq hOc), bind_ok (frameRows_eq hTc)]
    rfl

theorem forM_writeChannel
    (hnot : ∀ p ∈ orderFiles ++ tickFiles, ∀ c, p ≠ Main.channelPath outDir c) :
    ∀ (cs : List Int) (fs : FS), ReadsAs pl .order args fs orderFiles chanO rowsO →
      ReadsAs pl .tick args fs tickFiles chanT rowsT →
      cs.forM (writeChannel pl args outDir (Main.perChannel (filed orderFiles chanO))
          (Main.perChannel (filed tickFiles chanT))) fs =
        .ok () (cs.foldl (afterChannel pl outDir orderFiles tickFiles chanO chanT rowsO rowsT) fs)
  | [], _, _, _ => rfl
  | c :: cs, fs, hO, hT => by
    rw [List.forM_cons', bind_ok (writeChannel_eq hO hT c), List.foldl_cons]
    have hkeep : ∀ {files : List String} {kind : Kind} {chan : String → Option Int}
        {rows : String → List ρ}, (∀ p ∈ files, ∀ c, p ≠ Main.channelPath outDir c) →
        ReadsAs pl kind args fs files chan rows →
        ReadsAs pl kind args (afterChannel pl outDir orderFiles tickFiles chanO chanT rowsO rowsT fs c)
          files chan rows := fun hn h => by
      unfold afterChannel
      cases channelOutput pl orderFiles tickFiles chanO chanT rowsO rowsT c with
      | none => exact h
      | some t => exact h.write (fun p hp => hn p hp c) t
    exact forM_writeChannel hnot cs _
      (hkeep (fun p hp => hnot p (List.mem_append_left _ hp)) hO)
      (hkeep (fun p hp => hnot p (List.mem_append_right _ hp)) hT)

theorem afterChannel_at (fs : FS) (c' c : Int) :
    afterChannel pl outDir orderFiles tickFiles chanO chanT rowsO rowsT fs c' (Main.channelPath outDir c) =
      if c' = c then (channelOutput pl orderFiles tickFiles chanO chanT rowsO rowsT c).elim
        (fs (Main.channelPath outDir c)) some
      else fs (Main.channelPath outDir c) := by
  unfold afterChannel
  by_cases h : c' = c
  · subst h
    cases channelOutput pl orderFiles tickFiles chanO chanT rowsO rowsT c' <;> simp
  · have hne : Main.channelPath outDir c ≠ Main.channelPath outDir c' :=
      fun e => h (Main.channelPath_inj e).symm
    cases channelOutput pl orderFiles tickFiles chanO chanT rowsO rowsT c' <;> simp [h, hne]

theorem afterChannel_other (fs : FS) (c' : Int) {q : String}
    (hq : ∀ c, q ≠ Main.channelPath outDir c) :
    afterChannel pl outDir orderFiles tickFiles chanO chanT rowsO rowsT fs c' q = fs q := by
  unfold afterChannel
  cases channelOutput pl orderFiles tickFiles chanO chanT rowsO rowsT c' <;> simp [hq c']

theorem foldl_afterChannel_at (c : Int) : ∀ (cs : List Int) (fs : FS),
    (cs.foldl (afterChannel pl outDir orderFiles tickFiles chanO chanT rowsO rowsT) fs)
        (Main.channelPath outDir c) =
      if c ∈ cs then (channelOutput pl orderFiles tickFiles chanO chanT rowsO rowsT c).elim
        (fs (Main.channelPath outDir c)) some
      else fs (Main.channelPath outDir c)
  | [], _ => rfl
  | c' :: cs, fs => by
    rw [List.foldl_cons, foldl_afterChannel_at c cs, afterChannel_at]
    by_cases h : c' = c
    · subst h
      cases channelOutput pl orderFiles tickFiles chanO chanT rowsO rowsT c' <;> simp
    · simp [h, Ne.symm h]

theorem foldl_afterChannel_other {q : String} (hq : ∀ c, q ≠ Main.channelPath outDir c) :
    ∀ (cs : List Int) (fs : FS),
      (cs.foldl (afterChannel pl outDir orderFiles tickFiles chanO chanT rowsO rowsT) fs) q = fs q
  | [], _ => rfl
  | c' :: cs, fs => by
    rw [List.foldl_cons, foldl_afterChannel_other hq cs, afterChannel_other fs c' hq]

theorem channelOutput_of_not_mem {c : Int}
    (hc : c ∉ channelUnion (Main.perChannel (filed orderFiles chanO)) (Main.perChannel (filed tickFiles chanT))) :
    channelOutput pl orderFiles tickFiles chanO chanT rowsO rowsT c = none := by
  simp only [channelUnion, List.mem_insertionSort, List.mem_dedup, List.mem_append,
    (Main.grouped_perChannel _).mem, mem_filed_fst, not_or, not_not] at hc
  simp [channelOutput, hc.1, hc.2]

end Loop

theorem main_out_dir_eq {ρ : Type} (pl : Engine ρ) (listdir : String → List String) (args : Args)
    (outDir : String) (fs : FS) {chanO chanT : String → Option Int} {rowsO rowsT : String → List ρ}
    (hdir : truthy args.outDir = some outDir) (hout : truthy args.out = none)
    (hO : ReadsAs pl .order args fs (listCsvFiles listdir args.orderDir args.limitFiles) chanO rowsO)
    (hT : ReadsAs pl .tick args fs (listCsvFiles listdir args.tickDir args.limitFiles) chanT rowsT)
    (hnot : ∀ p ∈ listCsvFiles listdir args.orderDir args.limitFiles ++
      listCsvFiles listdir args.tickDir args.limitFiles, ∀ c, p ≠ Main.channelPath outDir c) :
    ∃ fs', main pl listdir args fs = .ok () fs' ∧
      (∀ c, fs' (Main.channelPath outDir c) =
        (channelOutput pl (listCsvFiles listdir args.orderDir args.limitFiles)
          (listCsvFiles listdir args.tickDir args.limitFiles) chanO chanT rowsO rowsT c).elim
          (fs (Main.channelPath outDir c)) some) ∧
      ∀ q, (∀ c, q ≠ Main.channelPath outDir c) → fs' q = fs q := by
  refine ⟨(channelUnion (Main.perChannel (filed (listCsvFiles listdir args.orderDir args.limitFiles) chanO))
      (Main.perChannel (filed (listCsvFiles listdir args.tickDir args.limitFiles) chanT))).foldl
      (afterChannel pl outDir (listCsvFiles listdir args.orderDir args.limitFiles)
        (listCsvFiles listdir args.tickDir args.limitFiles) chanO chanT rowsO rowsT) fs, ?_,
    fun c => ?_,
    fun q hq => foldl_afterChannel_other hq _ fs⟩
  · simp only [main, hdir, hout]
    rw [bind_ok (groupFilesByChannel_eq hO), bind_ok (groupFilesByChannel_eq hT)]
    exact forM_writeChannel hnot _ fs hO hT
  · rw [foldl_afterChannel_at]
    split
    · rfl
    · next hc => rw [channelOutput_of_not_mem hc]; rfl

theorem ne_channelPath {outDir p : String} (h : ¬ IsUnder outDir p) (c : Int) :
    p ≠ Main.channelPath outDir c :=
  fun hp => h (hp ▸ isUnder_join _ _)

/-- The header line of a file with the columns of `ORDER_SCHEMA`, in its order. -/
def orderHeader : String :=
  "OrderQty,OrdType,TransactTime,ExpirationDays,Side,ApplSeqNum,Contactor,SendingTime,Price," ++
    "ChannelNo,ExpirationType,ContactInfo,ConfirmID\n"

/-- The header line of a file with the columns of `TICK_SCHEMA`, in its order. -/
def tickHeader : String :=
  "ApplSeqNum,BidApplSeqNum,SendingTime,Price,ChannelNo,Qty,OfferApplSeqNum,Amt,ExecType,TransactTime\n"

/-- The text of a one-file order directory whose rows change channel: `ChannelNo` is 1 on the
first row and 2 on the second. -/
def mixedChannelText : List Char :=
  (orderHeader ++ "100,2,93000000,0,1,1,0,93000000,10.5,1,0,0,0\n" ++
    "100,2,93000000,0,1,2,0,93000000,10.5,2,0,0,0\n").toList

set_option maxRecDepth 4000 in
/-- `--out-dir d` over an order directory `o` holding one file of two rows, of channel 1
and then 2, and an empty tick directory `t`. Whatever Polars makes of the rows, `main`
returns and `channel_1.csv` is written from both of them: the row of channel 2 with them. -/
theorem main_mixed_channel_file {ρ : Type} (pl : Engine ρ) (r₁ r₂ : ρ)
    (hscan : pl.scan .order "utf8-lossy" false "o/000001.csv" mixedChannelText = .ok [r₁, r₂])
    (h₂ : pl.channelNo r₂ = some 2) :
    ∃ fs', main pl (fun d => if d = "o" then ["000001.csv"] else [])
        { orderDir := "o", tickDir := "t", outDir := some "d" }
        (fun p => if p = "o/000001.csv" then some mixedChannelText else none) = .ok () fs' ∧
      fs' "d/channel_1.csv" = some (pl.sinkCsv (pl.sort [r₁, r₂])) ∧
      r₂ ∈ pl.sort [r₁, r₂] ∧ pl.channelNo r₂ ≠ some 1 := by
  have hlist : listCsvFiles (fun d => if d = "o" then ["000001.csv"] else []) "o" none =
      ["o/000001.csv"] := rfl
  have hlistT : listCsvFiles (fun d => if d = "o" then ["000001.csv"] else []) "t" none = [] := rfl
  have hO : ReadsAs pl .order { orderDir := "o", tickDir := "t", outDir := some "d" }
      (fun p => if p = "o/000001.csv" then some mixedChannelText else none)
      (listCsvFiles (fun d => if d = "o" then ["000001.csv"] else []) "o" none)
      (fun _ => some 1) (fun _ => [r₁, r₂]) := fun p hp => by
    rw [hlist, List.mem_singleton] at hp
    subst hp
    exact ⟨mixedChannelText, rfl, rfl, hscan⟩
  have hT : ReadsAs pl .tick { orderDir := "o", tickDir := "t", outDir := some "d" }
      (fun p => if p = "o/000001.csv" then some mixedChannelText else none)
      (listCsvFiles (fun d => if d = "o" then ["000001.csv"] else []) "t" none)
      (fun _ => none) (fun _ => ([] : List ρ)) := fun p hp => by
    rw [hlistT] at hp
    cases hp
  have hnot : ∀ p ∈ listCsvFiles (fun d => if d = "o" then ["000001.csv"] else []) "o" none ++
      listCsvFiles (fun d => if d = "o" then ["000001.csv"] else []) "t" none,
      ∀ c, p ≠ Main.channelPath "d" c := fun p hp => by
    rw [hlist, hlistT, List.append_nil, List.mem_singleton] at hp
    exact ne_channelPath (hp ▸ by decide)
  obtain ⟨fs', hrun, hfiles, -⟩ :=
    main_out_dir_eq pl _ { orderDir := "o", tickDir := "t", outDir := some "d" } "d" _ rfl rfl hO hT hnot
  refine ⟨fs', hrun, ?_, (pl.sort_perm _).mem_iff.mpr (.tail _ (.head _)), by rw [h₂]; decide⟩
  have h1 := hfiles 1
  rw [hlist, hlistT] at h1
  exact h1

/-- A plain reading of CSV text standing in for Polars in examples: a row is the line's
`ChannelNo` field, the one under that name in the header, read with `int()`, and the line's
fields; the sort keeps the rows as they are, and `sink_csv` writes the fields back joined by
commas. -/
def plainCsv : Engine (Option Int × List (List Char)) where
  scan _ _ _ _ text :=
    let header := splitAll ',' (strip ((lines text).headD []))
    .ok ((lines text).tail.map fun l =>
      (pyInt ((splitAll ',' (strip l)).getD (header.indexOf "ChannelNo".data) []), splitAll ',' (strip l)))
  channelNo row := row.1
  sort rows := rows
  sort_perm rows := List.Perm.refl rows
  sinkCsv rows := (rows.map fun row => (row.2.intersperse [',']).flatten ++ ['\n']).flatten
  noFiles := "no files"

set_option maxRecDepth 4000 in
theorem main_mixed_channel_file_plain :
    ∃ r₁ r₂, plainCsv.scan .order "utf8-lossy" false "o/000001.csv" mixedChannelText = .ok [r₁, r₂] ∧
      plainCsv.channelNo r₂ = some 2 ∧
      ∃ fs', main plainCsv (fun d => if d = "o" then ["000001.csv"] else [])
          { orderDir := "o", tickDir := "t", outDir := some "d" }
          (fun p => if p = "o/000001.csv" then some mixedChannelText else none) = .ok () fs' ∧
        fs' "d/channel_1.csv" = some ("100,2,93000000,0,1,1,0,93000000,10.5,1,0,0,0\n" ++
          "100,2,93000000,0,1,2,0,93000000,10.5,2,0,0,0\n").toList := by
  refine ⟨_, _, rfl, rfl, ?_⟩
  obtain ⟨fs', hrun, hfile, -⟩ := main_mixed_channel_file plainCsv _ _ rfl rfl
  exact ⟨fs', hrun, hfile.trans rfl⟩

/-! ## `--out-dir` when every file keeps one channel -/

theorem flatMap_filter_chan {ρ : Type} {pl : Engine ρ} {files : List String}
    {chan : String → Option Int} {rows : String → List ρ}
    (h : ∀ p ∈ files, ∀ r ∈ rows p, pl.channelNo r = chan p) (c : Int) :
    (files.filter (chan · = some c)).flatMap rows = (files.flatMap rows).filter (pl.channelNo · = some c) := by
  induction files with
  | nil => rfl
  | cons p ps ih =>
    have hp := h p (.head _)
    rw [List.flatMap_cons, List.filter_append, ← ih fun q hq => h q (.tail _ hq)]
    by_cases hc : chan p = some c
    · have hall : (rows p).filter (pl.channelNo · = some c) = rows p :=
        List.filter_eq_self.mpr fun r hr => by simp [hp r hr, hc]
      rw [List.filter_cons_of_pos (by simpa using hc), List.flatMap_cons, hall]
    · have hnone : (rows p).filter (pl.channelNo · = some c) = [] :=
        List.filter_eq_nil_iff.mpr fun r hr => by simp [hp r hr, hc]
      rw [List.filter_cons_of_neg (by simpa using hc), hnone, List.nil_append]

/-- The directories of an example: order files of channels 1 and 2 under `o`, and a tick file
of channel 1 under `t`. -/
def exampleDirs : FS := fun p =>
  if p = "o/000001.csv" then some (orderHeader ++ "100,2,93000000,0,1,3,0,93000000,10.5,1,0,0,0\n" ++
    "100,2,93000000,0,1,5,0,93000000,10.5,1,0,0,0\n").toList
  else if p = "o/000002.csv" then
    some (orderHeader ++ "100,2,93000000,0,1,1,0,93000000,10.5,2,0,0,0\n").toList
  else if p = "t/000001.csv" then
    some (tickHeader ++ "4,3,93000000,10.5,1,100,5,1050.0,F,93000000\n").toList
  else none

/-- The rows `plainCsv` reads from a file of `exampleDirs`. -/
def exampleRows (kind : Kind) (p : String) : List (Option Int × List (List Char)) :=
  ((plainCsv.scan kind "utf8-lossy" false p ((exampleDirs p).getD [])).toOption).getD []

end SzseMerge.Polars
