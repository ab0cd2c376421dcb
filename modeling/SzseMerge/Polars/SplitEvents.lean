import SzseMerge.Main
import SzseMerge.Polars.Split

/-!
# Splitting a merged event log by channel

`main` of `merge_szse_l3.py` writes to `--out` the header and every event sorted by
`(ChannelNo, ApplSeqNum)`, each a `csv.writer` row ended by `\r\n`. `split_sorted_csv` of the
Polars script reads such a file with `newline=""` and strips only the `\n`, so it writes
each line back unchanged; the text before a row's first comma is the channel's `str(int)`,
which names `channel_<c>.csv` as `--out-dir` mode names it. Keeping the rows of one channel
out of a stable sort by `(channel, sequence)` is sorting that channel's rows by sequence:
the split of the merged log is the per-channel output.
-/

set_option autoImplicit false

namespace SzseMerge.Polars
open Text FileSystem StableSort Events Main

theorem rstripNewlines_writerow (cells : List String) :
    rstripNewlines (writerow cells) = [','].intercalate (cells.map fun s => quoteCell s.data) ++ ['\r'] := by
  simp [rstripNewlines, writerow_eq]

theorem rstripNewlines_writerow_nl (cells : List String) :
    rstripNewlines (writerow cells) ++ ['\n'] = writerow cells := by
  rw [rstripNewlines_writerow, writerow_eq, List.append_assoc]
  rfl

theorem toString_int_inj {a b : Int} (h : (toString a).data = (toString b).data) : a = b :=
  Option.some.inj ((pyInt_toString a).symm.trans (h ▸ pyInt_toString b))

theorem channelOf_line (e : EventRow) : channelOf (rstripNewlines e.line) = (toString e.channel).data := by
  rw [channelOf_eq_takeWhile, EventRow.line, rstripNewlines_writerow, List.map_cons, List.map_cons,
    quoteCell_toString, intercalate_cons₂, List.append_assoc,
    List.takeWhile_append_of_pos fun c hc => by simpa using ne_of_mem_of_not_mem hc (comma_not_mem_toString _)]
  simp

theorem channelFile_toString (outDir : String) (c : Int) :
    channelFile outDir (toString c).data = channelPath outDir c := rfl

theorem lines_eventFile_eq {es : List EventRow} (hne : ∀ e ∈ es, e.cells ≠ []) (hb : Unbroken es) :
    lines (eventFile es) = writerow eventHeader :: es.map EventRow.line := by
  rw [lines_eventFile]
  congr 1
  induction es with
  | nil => rfl
  | cons e es ih =>
    rw [List.map_cons, List.flatten_cons, (e.line_framed (hne e (.head _)) (hb e (.head _))).1,
      ih (fun x hx => hne x (.tail _ hx)) (fun x hx => hb x (.tail _ hx))]
    rfl

theorem dataLines_lines (es : List EventRow) :
    dataLines (es.map EventRow.line) = es.map fun e => rstripNewlines e.line := by
  rw [dataLines, List.map_map, List.filter_eq_self.mpr]
  · rfl
  · intro l hl
    obtain ⟨e, -, rfl⟩ := List.mem_map.mp hl
    simp [EventRow.line, rstripNewlines_writerow]

theorem channelText_events (es : List EventRow) (c : Int) :
    channelText (rstripNewlines (writerow eventHeader)) (toString c).data
      (es.map fun e => rstripNewlines e.line) = eventFile (es.filter (·.channel = c)) := by
  have hkeep : ((es.map fun e => rstripNewlines e.line).filter (channelOf · = (toString c).data)) =
      (es.filter (·.channel = c)).map fun e => rstripNewlines e.line := by
    rw [List.filter_map]
    refine congrArg _ (List.filter_congr fun e _ => ?_)
    simp only [Function.comp, channelOf_line]
    exact decide_eq_decide.mpr ⟨toString_int_inj, fun h => h ▸ rfl⟩
  have hlines : ((es.filter (·.channel = c)).map fun e => rstripNewlines e.line ++ ['\n']) =
      (es.filter (·.channel = c)).map EventRow.line :=
    List.map_congr_left fun e _ => rstripNewlines_writerow_nl _
  rw [channelText, hkeep, List.map_map, eventFile]
  calc _ = (rstripNewlines (writerow eventHeader) ++ ['\n']) ++
        ((es.filter (·.channel = c)).map EventRow.line).flatten := by
        rw [← hlines, List.append_assoc]
        rfl
    _ = _ := by rw [rstripNewlines_writerow_nl]

theorem mem_channels_iff (es : List EventRow) (c : Int) :
    (toString c).data ∈ (es.map fun e => rstripNewlines e.line).map channelOf ↔
      c ∈ es.map EventRow.channel := by
  simp only [List.map_map, Function.comp_def, channelOf_line, List.mem_map]
  exact ⟨fun ⟨e, he, h⟩ => ⟨e, he, toString_int_inj h⟩, fun ⟨e, he, h⟩ => ⟨e, he, h ▸ rfl⟩⟩

theorem nameOk_toString {c : Int} (hlen : ("channel_" ++ toString c ++ ".csv").utf8ByteSize ≤ 255) :
    NameOk (toString c).data :=
  ⟨fun h => by rcases toString_plain c _ h with h | h <;> simp at h,
    fun h => by rcases toString_plain c _ h with h | h <;> simp at h, hlen⟩

theorem splitSortedCsv_inv {sortedPath outDir : String} {fs : FS} {text first : List Char}
    {rest : List (List Char)} (h : fs sortedPath = some text) (hl : lines text = first :: rest)
    (hdir : outDir ≠ "") (hnul : '\x00' ∉ outDir.data)
    (hnames : ∀ c ∈ (dataLines rest).map channelOf, NameOk c) :
    ∃ st fs', splitSortedCsv sortedPath outDir fs = .ok () fs' ∧
      SplitInv outDir (rstripNewlines first) fs (dataLines rest) st fs' := by
  have hread : readFile sortedPath fs = .ok text fs := by simp [readFile, h]
  obtain ⟨st', fs', hrun, hinv⟩ := foldlM_splitLine_inv hnul rest hnames
    (splitInv_init fs : SplitInv outDir (rstripNewlines first) fs [] _ fs)
  rw [List.nil_append] at hinv
  refine ⟨st', fs', ?_, hinv⟩
  rw [splitSortedCsv, makedirs_ok hdir hnul, bind_ok (pure_apply _ _), bind_ok hread, hl]
  exact bind_ok hrun

end SzseMerge.Polars
