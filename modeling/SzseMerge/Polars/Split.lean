import SzseMerge.FileSystem

/-!
# Splitting a sorted file by channel

`split_sorted_csv` of the Polars script copies every non-empty line after the
header of one file into `channel_<c>.csv`, where `c` is the text before the
line's first comma. It keeps one open handle per channel in `handles` and
caches the last one in `current_channel` / `current_handle`, so that a run of
equal channels skips the dictionary. The cache always names the handle the
dictionary holds, and a handle is opened (and its file truncated) only on a
channel's first line: so every channel file ends up as the header and that
channel's lines in input order, whether or not equal channels are contiguous.

The channel is data, and `open` rejects some of it as a file name: a NUL, a `/`
(below `out_dir` there is no directory for it to name) and a name over 255 bytes
make it raise. The input is read whole before the loop writes: CPython reads it
through a buffer while the loop truncates the channel files, so an input that is
itself one of them is outside the model.
-/

set_option autoImplicit false

namespace SzseMerge.Polars

open Text FileSystem

/-- `line.rstrip("\n")`. -/
def rstripNewlines (line : List Char) : List Char := (line.reverse.dropWhile (· = '\n')).reverse

/-- `line.split(",", 1)[0]`: the channel a line names. -/
def channelOf (line : List Char) : List Char := (splitN ',' 1 line).headD []

theorem headD_consFirst (c : Char) (ls : List (List Char)) :
    (consFirst c ls).headD [] = c :: ls.headD [] := by
  cases ls <;> rfl

theorem channelOf_eq_takeWhile (line : List Char) : channelOf line = line.takeWhile (· ≠ ',') := by
  induction line with
  | nil => rfl
  | cons c cs ih =>
    by_cases hc : c = ','
    · subst hc; rfl
    · rw [channelOf, splitN, if_neg fun h => hc h.1, headD_consFirst,
        List.takeWhile_cons_of_pos (by simpa using hc)]
      exact congrArg _ ih

/-- `os.path.join(out_dir, f"channel_{channel}.csv")`. -/
def channelFile (outDir : String) (channel : List Char) : String :=
  join outDir ("channel_" ++ String.mk channel ++ ".csv")

/-- The loop's variables: `handles` maps a channel to the file its handle writes, in the
order the channels were first seen; `current_channel` and `current_handle` cache the last
one used. -/
structure SplitState where
  handles : List (List Char × String)
  currentChannel : Option (List Char)
  currentHandle : Option String

/-- `h.write(text)` on the handle open on `p`: the file grows by `text`. -/
def handleWrite (p : String) (text : List Char) : Py Unit := fun fs =>
  .ok () (fs.write p ((fs p).getD [] ++ text))

theorem handleWrite_apply (p : String) (text : List Char) (fs : FS) :
    handleWrite p text fs = .ok () (fs.write p ((fs p).getD [] ++ text)) := rfl

/-- `os.makedirs(out_dir, exist_ok=True)`. Directories are not tracked, so it changes no
file; it raises on the paths `mkdir` rejects as text: empty, or holding a NUL. -/
def makedirs (d : String) : Py Unit :=
  if '\x00' ∈ d.data then throw "embedded null byte"
  else if d = "" then throw (notFound d)
  else pure ()

def notADirectory (p : String) : String := "[Errno 20] Not a directory: " ++ pyRepr p.data

def nameTooLong (p : String) : String := "[Errno 36] File name too long: " ++ pyRepr p.data

/-- The first component of `channel_<c>.csv` below `out_dir`: the whole name, or the part
before the first `/` of the channel. -/
def firstComponent (channel : List Char) : String :=
  if '/' ∈ channel then "channel_" ++ String.mk (channel.takeWhile (· ≠ '/'))
  else "channel_" ++ String.mk channel ++ ".csv"

/-- `open(path, "w", newline="")` on the channel's file, which truncates it; the handle is
the path. The kernel walks the path below `out_dir`: a component over 255 bytes raises
`ENAMETOOLONG`, and with a `/` in the channel the first component is no directory. -/
def openChannel (outDir : String) (channel : List Char) : Py String := fun fs =>
  let path := channelFile outDir channel
  if '\x00' ∈ path.data then .error "embedded null byte" fs
  else if 255 < (firstComponent channel).utf8ByteSize then .error (nameTooLong path) fs
  else if '/' ∈ channel then
    .error (if (fs (join outDir (firstComponent channel))).isSome then notADirectory path
      else notFound path) fs
  else .ok path (fs.write path [])

/-- The `if channel != current_channel` block: point the cache at `channel`, opening the
channel's file with the header on its first line. `handles[channel]` raises `KeyError`
on a missing key. -/
def selectHandle (outDir : String) (header channel : List Char) (st : SplitState) :
    Py SplitState :=
  if st.currentChannel = some channel then pure st else do
    let handles ← if (st.handles.lookup channel).isNone then do
        let h ← openChannel outDir channel
        handleWrite h (header ++ ['\n'])
        pure (st.handles ++ [(channel, h)])
      else pure st.handles
    match handles.lookup channel with
    | some h => pure ⟨handles, some channel, some h⟩
    | none => throw (pyRepr channel)

/-- The loop body for a line after the first. -/
def splitLine (outDir : String) (header : List Char) (st : SplitState) (raw : List Char) :
    Py SplitState :=
  let line := rstripNewlines raw
  if line = [] then pure st else do
    let st ← selectHandle outDir header (channelOf line) st
    match st.currentHandle with
    | some h => do handleWrite h (line ++ ['\n']); pure st
    | none => throw "'NoneType' object has no attribute 'write'"

/-- `split_sorted_csv(sorted_path, out_dir)`: the first line is the header, every later
one goes to its channel's file. Closing the handles writes nothing more. -/
def splitSortedCsv (sortedPath outDir : String) : Py Unit := do
  makedirs outDir
  match lines (← readFile sortedPath) with
  | [] => pure ()
  | first :: rest =>
    let _ ← rest.foldlM (splitLine outDir (rstripNewlines first)) ⟨[], none, none⟩
    pure ()

/-! ## What the files hold -/

/-- The lines the loop copies out of `raws`: each without its trailing newlines, unless
that leaves it empty. -/
def dataLines (raws : List (List Char)) : List (List Char) :=
  (raws.map rstripNewlines).filter (· ≠ [])

/-- The file of channel `c` once the lines `ls` are copied: the header, then every line of
channel `c` in order, each ended by a newline. -/
def channelText (header c : List Char) (ls : List (List Char)) : List Char :=
  header ++ '\n' :: ((ls.filter (channelOf · = c)).map (· ++ ['\n'])).flatten

theorem dataLines_append (raws raws' : List (List Char)) :
    dataLines (raws ++ raws') = dataLines raws ++ dataLines raws' := by
  simp [dataLines, List.filter_append]

theorem dataLines_single (raw : List Char) :
    dataLines [raw] = if rstripNewlines raw = [] then [] else [rstripNewlines raw] := by
  by_cases h : rstripNewlines raw = [] <;> simp [dataLines, h]

theorem channelText_snoc (header c l : List Char) (ls : List (List Char)) :
    channelText header c (ls ++ [l]) =
      if channelOf l = c then channelText header c ls ++ l ++ ['\n'] else channelText header c ls := by
  by_cases h : channelOf l = c <;> simp [channelText, List.filter_append, h]

theorem channelText_of_not_mem {header c : List Char} {ls : List (List Char)}
    (h : c ∉ ls.map channelOf) : channelText header c ls = header ++ ['\n'] := by
  rw [channelText, List.filter_eq_nil_iff.mpr fun l hl hc => h (List.mem_map.mpr ⟨l, hl, of_decide_eq_true hc⟩)]
  rfl

theorem channelFile_data (outDir : String) (c : List Char) :
    (channelFile outDir c).data = (join outDir "").data ++ "channel_".data ++ (c ++ ".csv".data) := by
  rw [channelFile, join_data]
  simp only [String.data_append, List.append_assoc]

theorem channelFile_inj {outDir : String} {c d : List Char} :
    channelFile outDir c = channelFile outDir d ↔ c = d := by
  refine ⟨fun h => ?_, congrArg _⟩
  have h := congrArg String.data h
  rw [channelFile_data, channelFile_data] at h
  exact List.append_cancel_right (List.append_cancel_left h)

theorem ne_channelFile {outDir p : String} (h : ¬ IsUnder outDir p) (c : List Char) :
    p ≠ channelFile outDir c :=
  fun hp => h (hp ▸ isUnder_join _ _)

/-- A channel text `open` takes as a file name below `out_dir`: no NUL, no `/`, and a name of
at most 255 bytes. -/
def NameOk (channel : List Char) : Prop :=
  '\x00' ∉ channel ∧ '/' ∉ channel ∧ ("channel_" ++ String.mk channel ++ ".csv").utf8ByteSize ≤ 255

instance (channel : List Char) : Decidable (NameOk channel) :=
  inferInstanceAs (Decidable (_ ∧ _ ∧ _))

theorem makedirs_ok {d : String} (hd : d ≠ "") (hnul : '\x00' ∉ d.data) : makedirs d = pure () := by
  rw [makedirs, if_neg hnul, if_neg hd]

theorem nul_not_mem_channelFile {outDir : String} {c : List Char} (hd : '\x00' ∉ outDir.data)
    (hc : '\x00' ∉ c) : '\x00' ∉ (channelFile outDir c).data := by
  have hsep : '\x00' ∉ (join outDir "").data := by
    unfold join
    split <;> simp [hd]
  rw [channelFile_data]
  simp [hsep, hc]

theorem openChannel_ok {outDir : String} {c : List Char} (hd : '\x00' ∉ outDir.data) (hc : NameOk c)
    (fs : FS) :
    openChannel outDir c fs = .ok (channelFile outDir c) (fs.write (channelFile outDir c) []) := by
  have hfirst : firstComponent c = "channel_" ++ String.mk c ++ ".csv" := if_neg hc.2.1
  simp only [openChannel, if_neg (nul_not_mem_channelFile hd hc.1), hfirst, if_neg (not_lt.mpr hc.2.2),
    if_neg hc.2.1]

/-! ## The loop invariant -/

/-- `handles` holds the file of every channel of `keys`, and nothing else. -/
def HandlesFor (outDir : String) (keys : List (List Char)) (handles : List (List Char × String)) :
    Prop :=
  ∀ c, handles.lookup c = if c ∈ keys then some (channelFile outDir c) else none

/-- The state once the lines `done` are copied, from the file system `fs₀`: the dictionary
holds the channels seen, the cache names the last line's channel and that channel's
handle, and the channel files hold their lines of `done`; no other file changed. -/
structure SplitInv (outDir : String) (header : List Char) (fs₀ : FS) (done : List (List Char))
    (st : SplitState) (fs : FS) : Prop where
  handles : HandlesFor outDir (done.map channelOf) st.handles
  current : st.currentChannel = done.getLast?.map channelOf
  cache : st.currentHandle = st.currentChannel.map (channelFile outDir)
  files : ∀ c, fs (channelFile outDir c) =
    if c ∈ done.map channelOf then some (channelText header c done) else fs₀ (channelFile outDir c)
  frame : ∀ q, (∀ c, q ≠ channelFile outDir c) → fs q = fs₀ q

variable {outDir : String} {header : List Char} {fs₀ : FS}

theorem handlesFor_snoc {keys : List (List Char)} {handles : List (List Char × String)}
    (h : HandlesFor outDir keys handles) (ch : List Char) :
    HandlesFor outDir (keys ++ [ch])
      (if (handles.lookup ch).isNone then handles ++ [(ch, channelFile outDir ch)] else handles) := by
  intro c
  by_cases hk : ch ∈ keys
  · have hn : (handles.lookup ch).isNone = false := by rw [h ch, if_pos hk]; rfl
    rw [hn, if_neg Bool.false_ne_true, h c]
    by_cases hc : c = ch
    · subst hc; simp [hk]
    · simp [hc]
  · have hn : (handles.lookup ch).isNone = true := by rw [h ch, if_neg hk]; rfl
    rw [hn, if_pos rfl, List.lookup_append, h c]
    by_cases hc : c = ch
    · subst hc; simp [hk]
    · by_cases hck : c ∈ keys <;> simp [hc, hck, List.lookup_cons, beq_false_of_ne hc]

theorem selectHandle_spec {done : List (List Char)} {st : SplitState} {fs : FS}
    (h : SplitInv outDir header fs₀ done st fs) (hd : '\x00' ∉ outDir.data) {line : List Char}
    (hc : NameOk (channelOf line)) :
    ∃ handles, HandlesFor outDir (done.map channelOf ++ [channelOf line]) handles ∧
      selectHandle outDir header (channelOf line) st fs =
        .ok ⟨handles, some (channelOf line), some (channelFile outDir (channelOf line))⟩
          (if channelOf line ∈ done.map channelOf then fs
            else fs.write (channelFile outDir (channelOf line)) (header ++ ['\n'])) := by
  have hs := handlesFor_snoc h.handles (channelOf line)
  by_cases hmem : channelOf line ∈ done.map channelOf
  · have hn : (st.handles.lookup (channelOf line)).isNone = false := by
      rw [h.handles, if_pos hmem]; rfl
    rw [hn, if_neg Bool.false_ne_true] at hs
    refine ⟨st.handles, hs, ?_⟩
    rw [selectHandle, if_pos hmem]
    split
    · rename_i hcur
      have hc : st.currentHandle = some (channelFile outDir (channelOf line)) := by
        rw [h.cache, hcur]; rfl
      cases st; simp only at hcur hc; subst hcur hc; rfl
    · rw [hn, if_neg Bool.false_ne_true, bind_ok (pure_apply _ _)]
      dsimp only
      rw [h.handles, if_pos hmem]
      rfl
  · have hn : (st.handles.lookup (channelOf line)).isNone = true := by
      rw [h.handles, if_neg hmem]; rfl
    rw [hn, if_pos rfl] at hs
    refine ⟨_, hs, ?_⟩
    have hcur : st.currentChannel ≠ some (channelOf line) := fun hcur => by
      obtain ⟨l, hl, hlc⟩ := Option.map_eq_some'.mp (h.current ▸ hcur)
      exact hmem (List.mem_map.mpr ⟨l, List.mem_of_getLast?_eq_some hl, hlc⟩)
    rw [selectHandle, if_neg hcur, if_neg hmem, hn, if_pos rfl, bind_ok (openChannel_ok hd hc fs),
      bind_ok (handleWrite_apply _ _ _), bind_ok (pure_apply _ _)]
    dsimp only
    rw [hs, if_pos (List.mem_append_right _ (List.mem_singleton_self _))]
    simp only [FS.write_same, Option.getD_some, List.nil_append, FS.write_write]
    rfl

theorem write_after_select {done : List (List Char)} {st : SplitState} {fs : FS}
    (h : SplitInv outDir header fs₀ done st fs) (line : List Char) :
    let fs₁ := if channelOf line ∈ done.map channelOf then fs
      else fs.write (channelFile outDir (channelOf line)) (header ++ ['\n'])
    fs₁.write (channelFile outDir (channelOf line))
        ((fs₁ (channelFile outDir (channelOf line))).getD [] ++ (line ++ ['\n'])) =
      fs.write (channelFile outDir (channelOf line)) (channelText header (channelOf line) (done ++ [line])) := by
  intro fs₁
  rw [channelText_snoc, if_pos rfl, List.append_assoc]
  by_cases hmem : channelOf line ∈ done.map channelOf
  · simp only [fs₁, if_pos hmem, h.files, Option.getD_some]
  · simp only [fs₁, if_neg hmem, FS.write_same, Option.getD_some, FS.write_write,
      channelText_of_not_mem hmem]

theorem splitLine_inv {done : List (List Char)} {st : SplitState} {fs : FS}
    (h : SplitInv outDir header fs₀ done st fs) (hd : '\x00' ∉ outDir.data) (raw : List Char)
    (hc : ∀ c ∈ (dataLines [raw]).map channelOf, NameOk c) :
    ∃ st' fs', splitLine outDir header st raw fs = .ok st' fs' ∧
      SplitInv outDir header fs₀ (done ++ dataLines [raw]) st' fs' := by
  rw [dataLines_single] at hc ⊢
  by_cases hl : rstripNewlines raw = []
  · rw [if_pos hl, List.append_nil]
    exact ⟨st, fs, by simp [splitLine, hl], h⟩
  · rw [if_neg hl] at hc ⊢
    obtain ⟨handles, hh, hsel⟩ := selectHandle_spec h hd (hc _ (List.mem_singleton_self _))
    refine ⟨_, _, by rw [splitLine, if_neg hl, bind_ok hsel]; rfl, ?_⟩
    rw [write_after_select h]
    have hkeys : (done ++ [rstripNewlines raw]).map channelOf =
        done.map channelOf ++ [channelOf (rstripNewlines raw)] := by simp
    refine ⟨hkeys ▸ hh, by simp, rfl, fun c => ?_, fun q hq => ?_⟩
    · rw [hkeys]
      by_cases hc : c = channelOf (rstripNewlines raw)
      · subst hc
        simp
      · rw [FS.write_other _ _ (mt channelFile_inj.mp hc), h.files, channelText_snoc,
          if_neg (Ne.symm hc)]
        simp [hc]
    · rw [FS.write_other _ _ (hq _), h.frame q hq]

theorem foldlM_splitLine_inv (hd : '\x00' ∉ outDir.data) : ∀ (raws : List (List Char))
    {done : List (List Char)} {st : SplitState} {fs : FS},
    (∀ c ∈ (dataLines raws).map channelOf, NameOk c) → SplitInv outDir header fs₀ done st fs →
    ∃ st' fs', raws.foldlM (splitLine outDir header) st fs = .ok st' fs' ∧
      SplitInv outDir header fs₀ (done ++ dataLines raws) st' fs'
  | [], _, st, fs, _, h => ⟨st, fs, rfl, by simpa [dataLines] using h⟩
  | raw :: raws, _, _, _, hc, h => by
    rw [← List.singleton_append, dataLines_append, List.map_append] at hc
    obtain ⟨st₁, fs₁, h1, hi⟩ := splitLine_inv h hd raw fun c h => hc c (List.mem_append_left _ h)
    obtain ⟨st₂, fs₂, h2, hi₂⟩ :=
      foldlM_splitLine_inv hd raws (fun c h => hc c (List.mem_append_right _ h)) hi
    refine ⟨st₂, fs₂, by rw [List.foldlM_cons, bind_ok h1, h2], ?_⟩
    rwa [List.append_assoc, ← dataLines_append] at hi₂

theorem splitInv_init (fs : FS) : SplitInv outDir header fs [] ⟨[], none, none⟩ fs :=
  ⟨fun _ => rfl, rfl, rfl, fun _ => rfl, fun _ _ => rfl⟩

end SzseMerge.Polars
