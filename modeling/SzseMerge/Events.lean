import SzseMerge.FileSystem

/-!
# Normalizing and checking one archive entry

`write_order_events` and `write_tick_events` read the rows of one archive
entry, skip the rows of other channels when `only_channel` is given, check
that the kept rows share one `ChannelNo` and that `ApplSeqNum` never
decreases, and write one canonical event row per kept row. The two differ
only in the record they build and in the stream named by the monotonicity
error, so both are `writeEvents` applied to their own values.
-/

set_option autoImplicit false

namespace SzseMerge.Events
open SzseMerge.Text SzseMerge.FileSystem

/-- A row of `csv.DictReader`: the text of each column. -/
abbrev Row := String → String

def eventHeader : List String :=
  ["ChannelNo", "ApplSeqNum", "Event", "Symbol", "OrderID", "BidOrderID", "OfferOrderID", "Side",
    "Price", "Qty", "Amt", "OrdType", "ExecType", "TransactTime", "SendingTime", "Source"]

/-- An event row: the two key columns, then the fourteen other cells. -/
structure EventRow where
  channel : Int
  seq : Int
  cells : List String
  deriving DecidableEq, Repr

/-- The row as `csv.writer.writerow` writes it. -/
def EventRow.line (e : EventRow) : List Char :=
  writerow (toString e.channel :: toString e.seq :: e.cells)

/-- `os.path.basename(p)`. -/
def basename (p : String) : List Char := (p.data.reverse.takeWhile (· ≠ '/')).reverse

/-- `os.path.splitext(os.path.basename(p))[0]`: leading dots never start an extension. -/
def stem (p : String) : String :=
  let front := (((basename p).reverse.dropWhile (· ≠ '.')).drop 1).reverse
  if front.any (· ≠ '.') then ⟨front⟩ else ⟨basename p⟩

def orderEvent (symbol : String) (channel seq : Int) (row : Row) : EventRow :=
  ⟨channel, seq, ["ORDER", symbol, toString seq, "", "", row "Side", row "Price", row "OrderQty",
    "", row "OrdType", "", row "TransactTime", row "SendingTime", "order"]⟩

def tickEventName (execType : String) : String :=
  if execType = "F" then "TRADE" else if execType = "4" then "CANCEL" else "TICK"

def tickEvent (symbol : String) (channel seq : Int) (row : Row) : EventRow :=
  ⟨channel, seq, [tickEventName (row "ExecType"), symbol, "", row "BidApplSeqNum",
    row "OfferApplSeqNum", "", row "Price", row "Qty", row "Amt", "", row "ExecType",
    row "TransactTime", row "SendingTime", "tick"]⟩

/-- Python's `int(s)` on a string. -/
def int (s : String) : Except String Int :=
  match pyInt s.data with
  | some n => .ok n
  | none => .error ("invalid literal for int() with base 10: " ++ pyRepr s.data)

def checkChannel (innerPath : String) (channelSeen : Option Int) (channel : Int) :
    Except String Unit :=
  match channelSeen with
  | some seen => if seen ≠ channel then
      .error ("Multiple ChannelNo values in " ++ innerPath ++ ": " ++ toString seen ++ " vs " ++
        toString channel)
    else .ok ()
  | none => .ok ()

def checkSeq (stream innerPath : String) (prevSeq : Option Int) (seq : Int) : Except String Unit :=
  match prevSeq with
  | some prev => if seq < prev then
      .error (stream ++ " stream not monotonic: " ++ innerPath ++ " seq " ++ toString seq ++ " < " ++
        toString prev)
    else .ok ()
  | none => .ok ()

/-- The loop's variables: `channel_seen`, `prev_seq` and the rows written so far. -/
structure Scan where
  channelSeen : Option Int
  prevSeq : Option Int
  written : List EventRow

/-- One pass of the `for row in ...` loop. -/
def scanRow (normalize : Int → Int → Row → EventRow) (stream innerPath : String)
    (onlyChannel : Option Int) (st : Scan) (row : Row) : Except String Scan := do
  let channel ← int (row "ChannelNo")
  if onlyChannel.any (· ≠ channel) then return st
  checkChannel innerPath st.channelSeen channel
  let seq ← int (row "ApplSeqNum")
  checkSeq stream innerPath st.prevSeq seq
  return ⟨some channel, some seq, st.written ++ [normalize channel seq row]⟩

/-- The loop over the rows; it stops at the first exception. -/
def scanRows (step : Scan → Row → Except String Scan) : Scan → List Row → Scan × Option String
  | st, [] => (st, none)
  | st, row :: rows =>
    match step st row with
    | .ok st' => scanRows step st' rows
    | .error e => (st, some e)

/-- The text of an event file: the header row, then one row per event. -/
def eventFile (es : List EventRow) : List Char := writerow eventHeader ++ (es.map EventRow.line).flatten

/-- The body shared by `write_order_events` and `write_tick_events`; `rows` are the rows
`stream_csv_rows` yields for the entry. -/
def writeEvents (normalize : String → Int → Int → Row → EventRow) (stream : String)
    (rows : List Row) (innerPath outPath : String) (onlyChannel : Option Int) : Py (Option Int) :=
  fun fs =>
    let r := scanRows (scanRow (normalize (stem innerPath)) stream innerPath onlyChannel)
      ⟨none, none, []⟩ rows
    let fs := fs.write outPath (eventFile r.1.written)
    match r.2 with
    | some e => .error e fs
    | none => if r.1.written = [] then .ok none (fs.remove outPath) else .ok r.1.channelSeen fs

def writeOrderEvents (rows : List Row) (innerPath outPath : String) (onlyChannel : Option Int) :
    Py (Option Int) :=
  writeEvents orderEvent "Order" rows innerPath outPath onlyChannel

def writeTickEvents (rows : List Row) (innerPath outPath : String) (onlyChannel : Option Int) :
    Py (Option Int) :=
  writeEvents tickEvent "Tick" rows innerPath outPath onlyChannel

/-! ## The checks, read declaratively -/

/-- `int(row["ChannelNo"])` and `int(row["ApplSeqNum"])`, where they parse. -/
def chanOf (row : Row) : Int := (pyInt (row "ChannelNo").data).getD 0

def seqOf (row : Row) : Int := (pyInt (row "ApplSeqNum").data).getD 0

/-- The rows the channel filter keeps. -/
def keptRows (onlyChannel : Option Int) (rows : List Row) : List Row :=
  rows.filter fun row => !onlyChannel.any (· ≠ chanOf row)

/-- What the two checks demand of the kept rows. -/
def Consistent (rs : List Row) : Prop :=
  (∀ a ∈ rs, ∀ b ∈ rs, chanOf a = chanOf b) ∧ rs.Chain' fun a b => seqOf a ≤ seqOf b

/-- The loop's variables once the kept rows `ks` have been written. -/
def scanOf (normalize : Int → Int → Row → EventRow) (ks : List Row) : Scan :=
  ⟨ks.head?.map chanOf, ks.getLast?.map seqOf, ks.map fun r => normalize (chanOf r) (seqOf r) r⟩

theorem int_ok {s : String} {n : Int} (h : pyInt s.data = some n) : int s = .ok n := by
  simp [int, h]

theorem checkChannel_ok {innerPath : String} {seen : Option Int} {c : Int} :
    checkChannel innerPath seen c = .ok () ↔ ∀ s ∈ seen, s = c := by
  cases seen with
  | none => simp [checkChannel]
  | some s => by_cases h : s = c <;> simp [checkChannel, h]

theorem checkSeq_ok {stream innerPath : String} {prev : Option Int} {s : Int} :
    checkSeq stream innerPath prev s = .ok () ↔ ∀ q ∈ prev, q ≤ s := by
  cases prev with
  | none => simp [checkSeq]
  | some q => by_cases h : s < q <;> simp [checkSeq, h]; omega

theorem checkChannel_error {innerPath : String} {seen : Option Int} {c : Int} {m : String} :
    checkChannel innerPath seen c = .error m ↔ ∃ a ∈ seen, a ≠ c ∧
      m = "Multiple ChannelNo values in " ++ innerPath ++ ": " ++ toString a ++ " vs " ++ toString c := by
  cases seen with
  | none => simp [checkChannel]
  | some a =>
    by_cases h : a = c
    · simp [checkChannel, h]
    · simp [checkChannel, h, Ne.symm h, eq_comm]

theorem checkSeq_error {stream innerPath : String} {prev : Option Int} {s : Int} {m : String} :
    checkSeq stream innerPath prev s = .error m ↔ ∃ q ∈ prev, s < q ∧
      m = stream ++ " stream not monotonic: " ++ innerPath ++ " seq " ++ toString s ++ " < " ++
        toString q := by
  cases prev with
  | none => simp [checkSeq]
  | some q => by_cases h : s < q <;> simp [checkSeq, h, eq_comm]

theorem checks_error {stream innerPath : String} {seen prev : Option Int} {c s : Int} {x : Scan}
    {e : String} (h : ((checkChannel innerPath seen c).bind fun _ =>
      (checkSeq stream innerPath prev s).bind fun _ => .ok x) = .error e) :
    (∃ a ∈ seen, a ≠ c ∧
      e = "Multiple ChannelNo values in " ++ innerPath ++ ": " ++ toString a ++ " vs " ++ toString c) ∨
    ((∀ a ∈ seen, a = c) ∧ ∃ q ∈ prev, s < q ∧
      e = stream ++ " stream not monotonic: " ++ innerPath ++ " seq " ++ toString s ++ " < " ++
        toString q) := by
  cases hC : checkChannel innerPath seen c with
  | error m =>
    rw [hC] at h
    obtain rfl : m = e := Except.error.inj h
    exact .inl (checkChannel_error.mp hC)
  | ok u =>
    rw [hC] at h
    cases hS : checkSeq stream innerPath prev s with
    | error m =>
      rw [hS] at h
      obtain rfl : m = e := Except.error.inj h
      exact .inr ⟨checkChannel_ok.mp hC, checkSeq_error.mp hS⟩
    | ok v =>
      rw [hS] at h
      exact Except.noConfusion h

theorem consistent_of_append {l₁ l₂ : List Row} (h : Consistent (l₁ ++ l₂)) : Consistent l₁ :=
  ⟨fun a ha b hb => h.1 a (by simp [ha]) b (by simp [hb]), (List.chain'_append.mp h.2).1⟩

theorem consistent_snoc {ks : List Row} (hK : Consistent ks) (r : Row) :
    Consistent (ks ++ [r]) ↔
      (∀ a ∈ ks.head?, chanOf a = chanOf r) ∧ ∀ a ∈ ks.getLast?, seqOf a ≤ seqOf r := by
  have hchain : (ks ++ [r]).Chain' (fun a b => seqOf a ≤ seqOf b) ↔
      ∀ a ∈ ks.getLast?, seqOf a ≤ seqOf r := by
    simp only [List.chain'_append, hK.2, List.chain'_singleton, Option.mem_def, List.head?_cons,
      Option.some.injEq, forall_eq', true_and]
  rw [Consistent, hchain]
  refine and_congr_left fun _ => ⟨fun h a ha => h a (List.mem_append_left _
    (List.mem_of_mem_head? ha)) r (List.mem_append_right _ (List.mem_singleton_self r)), fun h => ?_⟩
  have hall : ∀ x ∈ ks ++ [r], chanOf x = chanOf r := by
    intro x hx
    rcases List.mem_append.mp hx with hx | hx
    · obtain ⟨k, ks', rfl⟩ := List.exists_cons_of_ne_nil (List.ne_nil_of_mem hx)
      rw [hK.1 x hx k (.head _)]
      exact h k rfl
    · rw [List.mem_singleton.mp hx]
  exact fun a ha b hb => (hall a ha).trans (hall b hb).symm

theorem scanOf_snoc (normalize : Int → Int → Row → EventRow) {ks : List Row} {row : Row}
    (h : ∀ a ∈ ks.head?, chanOf a = chanOf row) :
    scanOf normalize (ks ++ [row]) = ⟨some (chanOf row), some (seqOf row),
      (scanOf normalize ks).written ++ [normalize (chanOf row) (seqOf row) row]⟩ := by
  cases ks with
  | nil => rfl
  | cons k ks =>
    have hl : (k :: ks ++ [row]).getLast? = some row := List.getLast?_concat _
    simp only [scanOf, hl, List.cons_append, List.head?_cons, List.map_append] at h ⊢
    simp_all

@[simp] theorem keptRows_none (rows : List Row) : keptRows none rows = rows :=
  List.filter_eq_self.mpr fun _ _ => rfl

theorem keptRows_cons (onlyChannel : Option Int) {row : Row} {c : Int}
    (hc : pyInt (row "ChannelNo").data = some c) (rows : List Row) :
    keptRows onlyChannel (row :: rows) = if onlyChannel.any (· ≠ c) then keptRows onlyChannel rows
      else row :: keptRows onlyChannel rows := by
  have hcr : chanOf row = c := by rw [chanOf, hc]; rfl
  simp only [keptRows, List.filter_cons, hcr]
  cases onlyChannel.any (· ≠ c) <;> rfl

section Loop
variable (normalize : Int → Int → Row → EventRow) (stream innerPath : String)
  (onlyChannel : Option Int)

theorem scanRow_skip {st : Scan} {row : Row} {c : Int} (hc : pyInt (row "ChannelNo").data = some c)
    (hk : onlyChannel.any (· ≠ c) = true) :
    scanRow normalize stream innerPath onlyChannel st row = .ok st := by
  simp only [scanRow, int_ok hc, bind, Except.bind, hk, ↓reduceIte]; rfl

theorem scanRow_kept {st : Scan} {row : Row} {c s : Int}
    (hc : pyInt (row "ChannelNo").data = some c) (hs : pyInt (row "ApplSeqNum").data = some s)
    (hk : onlyChannel.any (· ≠ c) = false) :
    scanRow normalize stream innerPath onlyChannel st row =
      (checkChannel innerPath st.channelSeen c).bind fun _ =>
        (checkSeq stream innerPath st.prevSeq s).bind fun _ =>
          .ok ⟨some c, some s, st.written ++ [normalize c s row]⟩ := by
  simp only [scanRow, int_ok hc, int_ok hs, bind, Except.bind, hk, Bool.false_eq_true, ↓reduceIte]
  rfl

theorem scanRow_keep {ks : List Row} (hK : Consistent ks) {row : Row} {c s : Int}
    (hc : pyInt (row "ChannelNo").data = some c) (hs : pyInt (row "ApplSeqNum").data = some s)
    (hk : onlyChannel.any (· ≠ c) = false) :
    (Consistent (ks ++ [row]) →
      scanRow normalize stream innerPath onlyChannel (scanOf normalize ks) row =
        .ok (scanOf normalize (ks ++ [row]))) ∧
    (¬ Consistent (ks ++ [row]) →
      ∃ e, scanRow normalize stream innerPath onlyChannel (scanOf normalize ks) row = .error e) := by
  have hcr : chanOf row = c := by rw [chanOf, hc]; rfl
  have hsr : seqOf row = s := by rw [seqOf, hs]; rfl
  rw [consistent_snoc hK, scanRow_kept normalize stream innerPath onlyChannel hc hs hk]
  constructor
  · rintro ⟨h1, h2⟩
    have e1 : checkChannel innerPath (scanOf normalize ks).channelSeen c = .ok () :=
      checkChannel_ok.mpr fun x hx => by
        obtain ⟨a, ha, rfl⟩ := Option.mem_map.mp hx
        exact hcr ▸ h1 a ha
    have e2 : checkSeq stream innerPath (scanOf normalize ks).prevSeq s = .ok () :=
      checkSeq_ok.mpr fun x hx => by
        obtain ⟨a, ha, rfl⟩ := Option.mem_map.mp hx
        exact hsr ▸ h2 a ha
    rw [e1, e2, scanOf_snoc normalize h1, hcr, hsr]
    rfl
  · intro h
    cases e1 : checkChannel innerPath (scanOf normalize ks).channelSeen c with
    | error e => exact ⟨e, rfl⟩
    | ok u =>
      cases e2 : checkSeq stream innerPath (scanOf normalize ks).prevSeq s with
      | error e => exact ⟨e, rfl⟩
      | ok v =>
        refine absurd ⟨fun a ha => ?_, fun a ha => ?_⟩ h
        · exact hcr ▸ checkChannel_ok.mp e1 (chanOf a) (Option.mem_map_of_mem _ ha)
        · exact hsr ▸ checkSeq_ok.mp e2 (seqOf a) (Option.mem_map_of_mem _ ha)

theorem scanRows_spec (rows : List Row) {ks : List Row} (hK : Consistent ks)
    (hc : ∀ r ∈ rows, (pyInt (r "ChannelNo").data).isSome)
    (hs : ∀ r ∈ keptRows onlyChannel rows, (pyInt (r "ApplSeqNum").data).isSome) :
    let r := scanRows (scanRow normalize stream innerPath onlyChannel) (scanOf normalize ks) rows
    (r.2 = none ↔ Consistent (ks ++ keptRows onlyChannel rows)) ∧
      (r.2 = none → r.1 = scanOf normalize (ks ++ keptRows onlyChannel rows)) := by
  induction rows generalizing ks with
  | nil => simp [scanRows, keptRows, hK]
  | cons row rows ih =>
    obtain ⟨c, hc0⟩ := Option.isSome_iff_exists.mp (hc row (List.mem_cons_self _ _))
    have hc' : ∀ r ∈ rows, (pyInt (r "ChannelNo").data).isSome := fun r hr =>
      hc r (List.mem_cons_of_mem _ hr)
    rw [keptRows_cons onlyChannel hc0] at hs ⊢
    cases hk : onlyChannel.any (· ≠ c)
    case true =>
      simp only [hk, ↓reduceIte] at hs ⊢
      simp only [scanRows, scanRow_skip normalize stream innerPath onlyChannel hc0 hk]
      exact ih hK hc' hs
    case false =>
      simp only [hk, Bool.false_eq_true, ↓reduceIte, List.mem_cons, forall_eq_or_imp] at hs ⊢
      obtain ⟨s, hs0⟩ := Option.isSome_iff_exists.mp hs.1
      obtain ⟨hok, herr⟩ := scanRow_keep normalize stream innerPath onlyChannel hK hc0 hs0 hk
      rw [List.append_cons ks row]
      by_cases hcons : Consistent (ks ++ [row])
      · simp only [scanRows, hok hcons]
        exact ih hcons hc' hs.2
      · obtain ⟨e, he⟩ := herr hcons
        simp only [scanRows, he, reduceCtorEq, false_iff, false_implies, and_true]
        exact fun h => hcons (consistent_of_append h)

theorem scanRows_error (rows : List Row) {ks : List Row} (hK : Consistent ks)
    (hc : ∀ r ∈ rows, (pyInt (r "ChannelNo").data).isSome)
    (hs : ∀ r ∈ keptRows onlyChannel rows, (pyInt (r "ApplSeqNum").data).isSome) {e : String}
    (h : (scanRows (scanRow normalize stream innerPath onlyChannel) (scanOf normalize ks) rows).2 =
      some e) :
    ∃ P r S, keptRows onlyChannel rows = P ++ r :: S ∧ Consistent (ks ++ P) ∧
      (scanRows (scanRow normalize stream innerPath onlyChannel) (scanOf normalize ks) rows).1 =
        scanOf normalize (ks ++ P) ∧
      scanRow normalize stream innerPath onlyChannel (scanOf normalize (ks ++ P)) r = .error e := by
  induction rows generalizing ks with
  | nil => cases h
  | cons row rows ih =>
    obtain ⟨c, hc0⟩ := Option.isSome_iff_exists.mp (hc row (List.mem_cons_self _ _))
    have hc' : ∀ r ∈ rows, (pyInt (r "ChannelNo").data).isSome := fun r hr =>
      hc r (List.mem_cons_of_mem _ hr)
    rw [keptRows_cons onlyChannel hc0] at hs ⊢
    cases hk : onlyChannel.any (· ≠ c)
    case true =>
      simp only [hk, ↓reduceIte] at hs ⊢
      simp only [scanRows, scanRow_skip normalize stream innerPath onlyChannel hc0 hk] at h ⊢
      exact ih hK hc' hs h
    case false =>
      simp only [hk, Bool.false_eq_true, ↓reduceIte, List.mem_cons, forall_eq_or_imp] at hs ⊢
      obtain ⟨s, hs0⟩ := Option.isSome_iff_exists.mp hs.1
      obtain ⟨hok, herr⟩ := scanRow_keep normalize stream innerPath onlyChannel hK hc0 hs0 hk
      by_cases hcons : Consistent (ks ++ [row])
      · simp only [scanRows, hok hcons] at h ⊢
        obtain ⟨P, r, S, hR, hP, h1, h2⟩ := ih hcons hc' hs.2 h
        rw [List.append_assoc, List.singleton_append] at hP h1 h2
        exact ⟨row :: P, r, S, by rw [hR, List.cons_append], hP, h1, h2⟩
      · obtain ⟨e', he⟩ := herr hcons
        simp only [scanRows, he, Option.some.injEq] at h ⊢
        subst h
        exact ⟨[], row, _, rfl, by rwa [List.append_nil], by rw [List.append_nil],
          by rw [List.append_nil, he]⟩

end Loop

theorem consistent_nil : Consistent [] := ⟨by simp, List.chain'_nil⟩

theorem remove_write (fs : FS) (p : String) (t : List Char) : (fs.write p t).remove p = fs.remove p :=
  Function.update_idem _ _ _

theorem writeEvents_spec (normalize : String → Int → Int → Row → EventRow) (stream : String)
    (rows : List Row) (innerPath outPath : String) (onlyChannel : Option Int) (fs : FS)
    (hc : ∀ r ∈ rows, (pyInt (r "ChannelNo").data).isSome)
    (hs : ∀ r ∈ keptRows onlyChannel rows, (pyInt (r "ApplSeqNum").data).isSome) :
    let R := keptRows onlyChannel rows
    ((∃ e fs', writeEvents normalize stream rows innerPath outPath onlyChannel fs = .error e fs') ↔
        ¬ Consistent R) ∧
    ∀ v fs', writeEvents normalize stream rows innerPath outPath onlyChannel fs = .ok v fs' →
      (R = [] → v = none ∧ fs' = fs.remove outPath) ∧
      (R ≠ [] → v = R.head?.map chanOf ∧ fs' = fs.write outPath
        (eventFile (R.map fun r => normalize (stem innerPath) (chanOf r) (seqOf r) r))) := by
  dsimp only
  obtain ⟨hiff, hst⟩ := scanRows_spec (normalize (stem innerPath)) stream innerPath onlyChannel
    rows consistent_nil hc hs
  simp only [List.nil_append] at hiff hst
  unfold writeEvents
  rw [show (⟨none, none, []⟩ : Scan) = scanOf (normalize (stem innerPath)) [] from rfl]
  generalize scanRows _ (scanOf _ []) rows = r at hiff hst ⊢
  obtain ⟨st, _ | e⟩ := r
  · obtain rfl := hst rfl
    have hR : Consistent (keptRows onlyChannel rows) := hiff.mp rfl
    dsimp only
    refine ⟨iff_of_false (fun ⟨e, fs', h⟩ => by split at h <;> cases h) (not_not.mpr hR),
      fun v fs' h => ?_⟩
    split at h <;> rename_i hw <;> cases h <;> rw [scanOf, List.map_eq_nil_iff] at hw
    · exact ⟨fun _ => ⟨rfl, remove_write _ _ _⟩, fun h' => absurd hw h'⟩
    · exact ⟨fun h' => absurd h' hw, fun _ => ⟨rfl, rfl⟩⟩
  · exact ⟨⟨fun _ => by simpa using hiff, fun _ => ⟨e, _, rfl⟩⟩, fun v fs' h => by cases h⟩

theorem consistent_keys {R : List Row} (h : Consistent R) :
    (R.map fun r => toLex (chanOf r, seqOf r)).Chain' (· ≤ ·) := by
  rw [List.chain'_map]
  exact (List.Chain'.iff_mem.mp h.2).imp fun a b ⟨ha, hb, hab⟩ =>
    (Prod.Lex.le_iff _ _).mpr (.inr ⟨h.1 a ha b hb, hab⟩)

theorem not_consistent_iff (R : List Row) : ¬ Consistent R ↔
    (∃ a ∈ R, ∃ b ∈ R, chanOf a ≠ chanOf b) ∨ ¬ R.Chain' fun a b => seqOf a ≤ seqOf b := by
  rw [Consistent, not_and_or]
  push_neg
  rfl

theorem writeEvents_contract (normalize : String → Int → Int → Row → EventRow) (stream : String)
    (rows : List Row) (innerPath outPath : String) (onlyChannel : Option Int) (fs : FS)
    (hc : ∀ r ∈ rows, (pyInt (r "ChannelNo").data).isSome)
    (hs : ∀ r ∈ keptRows onlyChannel rows, (pyInt (r "ApplSeqNum").data).isSome)
    (hn : ∀ sym c s r, (normalize sym c s r).channel = c ∧ (normalize sym c s r).seq = s) :
    let R := keptRows onlyChannel rows
    ((∃ e fs', writeEvents normalize stream rows innerPath outPath onlyChannel fs = .error e fs') ↔
      (∃ a ∈ R, ∃ b ∈ R, chanOf a ≠ chanOf b) ∨ ¬ R.Chain' fun a b => seqOf a ≤ seqOf b) ∧
    ∀ v fs', writeEvents normalize stream rows innerPath outPath onlyChannel fs = .ok v fs' →
      (v = none ↔ R = []) ∧ (R = [] → fs' = fs.remove outPath) ∧
      (R ≠ [] → (∀ r ∈ R, v = some (chanOf r)) ∧
        let es := R.map fun r => normalize (stem innerPath) (chanOf r) (seqOf r) r
        fs' = fs.write outPath (eventFile es) ∧
          (es.map fun e => toLex (e.channel, e.seq)).Chain' (· ≤ ·)) := by
  obtain ⟨herr, hok⟩ := writeEvents_spec normalize stream rows innerPath outPath onlyChannel fs hc hs
  dsimp only at herr hok ⊢
  generalize keptRows onlyChannel rows = R at herr hok ⊢
  refine ⟨herr.trans (not_consistent_iff R), fun v fs' h => ?_⟩
  obtain ⟨h1, h2⟩ := hok v fs' h
  have hR : Consistent R := by
    by_contra hbad
    obtain ⟨e, fs'', he⟩ := herr.mpr hbad
    rw [h] at he
    cases he
  refine ⟨⟨fun hv => ?_, fun hR0 => (h1 hR0).1⟩, fun hR0 => (h1 hR0).2, fun hR0 => ?_⟩
  · cases R with
    | nil => rfl
    | cons k ks => simp [(h2 (List.cons_ne_nil k ks)).1] at hv
  · obtain ⟨k, ks, hk⟩ := List.exists_cons_of_ne_nil hR0
    refine ⟨fun r hr => ?_, (h2 hR0).2, ?_⟩
    · rw [(h2 hR0).1, hk, List.head?_cons, Option.map_some', hR.1 k (hk ▸ List.mem_cons_self _ _) r hr]
    · simpa [List.map_map, Function.comp_def, hn] using consistent_keys hR

theorem write_order_tick_events_spec (rows : List Row) (innerPath outPath : String)
    (onlyChannel : Option Int) (fs : FS)
    (hc : ∀ r ∈ rows, (pyInt (r "ChannelNo").data).isSome)
    (hs : ∀ r ∈ keptRows onlyChannel rows, (pyInt (r "ApplSeqNum").data).isSome) :
    ∀ wn ∈ [(writeOrderEvents, orderEvent), (writeTickEvents, tickEvent)],
      let R := keptRows onlyChannel rows
      ((∃ e fs', wn.1 rows innerPath outPath onlyChannel fs = .error e fs') ↔
        (∃ a ∈ R, ∃ b ∈ R, chanOf a ≠ chanOf b) ∨ ¬ R.Chain' fun a b => seqOf a ≤ seqOf b) ∧
      ∀ v fs', wn.1 rows innerPath outPath onlyChannel fs = .ok v fs' →
        (v = none ↔ R = []) ∧ (R = [] → fs' = fs.remove outPath) ∧
        (R ≠ [] → (∀ r ∈ R, v = some (chanOf r)) ∧
          let es := R.map fun r => wn.2 (stem innerPath) (chanOf r) (seqOf r) r
          fs' = fs.write outPath (eventFile es) ∧
            (es.map fun e => toLex (e.channel, e.seq)).Chain' (· ≤ ·)) := by
  intro wn hwn
  simp only [List.mem_cons, List.mem_singleton, List.not_mem_nil, or_false] at hwn
  rcases hwn with rfl | rfl
  · exact writeEvents_contract orderEvent "Order" rows innerPath outPath onlyChannel fs hc hs
      fun _ _ _ _ => ⟨rfl, rfl⟩
  · exact writeEvents_contract tickEvent "Tick" rows innerPath outPath onlyChannel fs hc hs
      fun _ _ _ _ => ⟨rfl, rfl⟩

theorem write_events_channel_change :
    (∀ r ∈ [(fun _ => "1" : Row), fun _ => "2"], (pyInt (r "ChannelNo").data).isSome) ∧
    (∀ r ∈ keptRows none [(fun _ => "1" : Row), fun _ => "2"],
      (pyInt (r "ApplSeqNum").data).isSome) ∧
    ∃ e fs', writeOrderEvents [fun _ => "1", fun _ => "2"] "d/000001.csv" "o" none
      (fun _ => none) = .error e fs' := by
  have hc : ∀ r ∈ [(fun _ => "1" : Row), fun _ => "2"], ∀ col, (pyInt (r col).data).isSome := by
    simp only [List.mem_cons, List.mem_singleton, List.not_mem_nil, or_false, forall_eq_or_imp,
      forall_eq]
    exact ⟨fun _ => rfl, fun _ => rfl⟩
  have hs : ∀ r ∈ keptRows none [(fun _ => "1" : Row), fun _ => "2"],
      (pyInt (r "ApplSeqNum").data).isSome := by
    rw [keptRows_none]
    exact fun r hr => hc r hr _
  exact ⟨fun r hr => hc r hr _, hs,
    ((write_order_tick_events_spec [fun _ => "1", fun _ => "2"] "d/000001.csv" "o" none
      (fun _ => none) (fun r hr => hc r hr _) hs) _ (List.mem_cons_self _ _)).1.mpr
      (.inl ⟨_, List.mem_cons_self _ _, _, List.mem_cons_of_mem _ (List.mem_cons_self _ _),
        by decide⟩)⟩

/-! ## Reading the event file back -/

theorem lines_map_line (es : List EventRow) :
    lines (es.map EventRow.line).flatten = (es.map fun e => lines e.line).flatten := by
  induction es with
  | nil => rfl
  | cons e es ih => rw [List.map_cons, List.flatten_cons, EventRow.line, lines_writerow_append, ih]; rfl

theorem lines_eventFile (es : List EventRow) :
    lines (eventFile es) = writerow eventHeader :: (es.map fun e => lines e.line).flatten := by
  rw [eventFile, lines_writerow_append, lines_writerow (by decide), lines_map_line]
  rfl

theorem noBreak_toString (n : Int) : ∀ c ∈ (toString n).data, ¬ IsBreak c := fun c hc h => by
  rcases toString_plain n c hc with hd | rfl
  · rcases h with rfl | rfl <;> simp at hd
  · rcases h with h | h <;> cases h

theorem EventRow.line_framed (e : EventRow) (hne : e.cells ≠ [])
    (h : ∀ s ∈ e.cells, ∀ c ∈ s.data, ¬ IsBreak c) :
    lines e.line = [e.line] ∧ parseKey e.line = .ok (e.channel, e.seq) := by
  obtain ⟨c, cs, hcs⟩ := List.exists_cons_of_ne_nil hne
  refine ⟨lines_writerow fun s hs => ?_, by rw [EventRow.line, hcs, parseKey_writerow]⟩
  rcases List.mem_cons.mp hs with rfl | hs
  · exact noBreak_toString _
  rcases List.mem_cons.mp hs with rfl | hs
  exacts [noBreak_toString _, h s hs]

theorem scanRow_written {normalize : Int → Int → Row → EventRow} {stream innerPath : String}
    {onlyChannel : Option Int} {st st' : Scan} {row : Row}
    (h : scanRow normalize stream innerPath onlyChannel st row = .ok st') :
    ∀ e ∈ st'.written, e ∈ st.written ∨ ∃ c s, e = normalize c s row := by
  cases hc : int (row "ChannelNo") with
  | error e => simp [scanRow, hc, bind, Except.bind] at h
  | ok c =>
    simp only [scanRow, hc, bind, Except.bind] at h
    split at h
    · cases h; exact fun e he => .inl he
    cases hcc : checkChannel innerPath st.channelSeen c with
    | error e => simp [hcc, pure, Except.pure] at h
    | ok u =>
      cases hs : int (row "ApplSeqNum") with
      | error e => simp [hcc, hs, pure, Except.pure] at h
      | ok s =>
        cases hcs : checkSeq stream innerPath st.prevSeq s with
        | error e => simp [hcc, hs, hcs, pure, Except.pure] at h
        | ok v =>
          simp only [hcc, hs, hcs] at h
          cases h
          intro e he
          rcases List.mem_append.mp he with he | he
          exacts [.inl he, .inr ⟨c, s, List.mem_singleton.mp he⟩]

theorem scanRows_written (normalize : Int → Int → Row → EventRow) (stream innerPath : String)
    (onlyChannel : Option Int) (rows : List Row) (st : Scan) :
    ∀ e ∈ (scanRows (scanRow normalize stream innerPath onlyChannel) st rows).1.written,
      e ∈ st.written ∨ ∃ r ∈ rows, ∃ c s, e = normalize c s r := by
  induction rows generalizing st with
  | nil => exact fun e he => .inl he
  | cons row rows ih =>
    intro e he
    simp only [scanRows] at he
    split at he
    · rcases ih _ e he with he | ⟨r, hr, hre⟩
      · rcases scanRow_written ‹_› e he with he | ⟨c, s, rfl⟩
        exacts [.inl he, .inr ⟨row, .head _, c, s, rfl⟩]
      · exact .inr ⟨r, .tail _ hr, hre⟩
    · exact .inl he

theorem writeEvents_after (normalize : String → Int → Int → Row → EventRow) (stream : String)
    (rows : List Row) (innerPath outPath : String) (onlyChannel : Option Int) (fs : FS)
    (text : List Char)
    (h : after (writeEvents normalize stream rows innerPath outPath onlyChannel fs) outPath =
      some text) :
    ∃ es : List EventRow, text = eventFile es ∧
      ∀ e ∈ es, ∃ r ∈ rows, ∃ c s, e = normalize (stem innerPath) c s r := by
  refine ⟨(scanRows (scanRow (normalize (stem innerPath)) stream innerPath onlyChannel)
    ⟨none, none, []⟩ rows).1.written, ?_, fun e he =>
      (scanRows_written _ stream innerPath onlyChannel rows _ e he).resolve_left (List.not_mem_nil e)⟩
  unfold writeEvents at h
  dsimp only at h
  split at h
  · simpa [after] using h.symm
  · split at h
    · simp [after] at h
    · simpa [after] using h.symm

/-- Every record `write_order_events` or `write_tick_events` leaves in its file, also when it
raises, is made from one of the rows, and the file reads back as the header followed by each
record's lines in turn. A record whose cells (the symbol and the copied fields) hold no line
break is exactly one of those lines, and `parse_key` reads its own key from it. -/
theorem written_records_framed (rows : List Row) (innerPath outPath : String)
    (onlyChannel : Option Int) (fs : FS) :
    ∀ wn ∈ [(writeOrderEvents, orderEvent), (writeTickEvents, tickEvent)],
    ∀ text, after (wn.1 rows innerPath outPath onlyChannel fs) outPath = some text →
    ∃ es : List EventRow, lines text = writerow eventHeader :: (es.map fun e => lines e.line).flatten ∧
      ∀ e ∈ es, (∃ r ∈ rows, e = wn.2 (stem innerPath) e.channel e.seq r) ∧
        ((∀ s ∈ e.cells, ∀ c ∈ s.data, ¬ IsBreak c) →
          lines e.line = [e.line] ∧ parseKey e.line = .ok (e.channel, e.seq)) := by
  have key : ∀ (normalize : String → Int → Int → Row → EventRow) (stream : String),
      (∀ sym c s r, (normalize sym c s r).channel = c ∧ (normalize sym c s r).seq = s ∧
        (normalize sym c s r).cells ≠ []) →
      ∀ text, after (writeEvents normalize stream rows innerPath outPath onlyChannel fs) outPath =
        some text →
      ∃ es : List EventRow, lines text = writerow eventHeader :: (es.map fun e => lines e.line).flatten ∧
        ∀ e ∈ es, (∃ r ∈ rows, e = normalize (stem innerPath) e.channel e.seq r) ∧
          ((∀ s ∈ e.cells, ∀ c ∈ s.data, ¬ IsBreak c) →
            lines e.line = [e.line] ∧ parseKey e.line = .ok (e.channel, e.seq)) := by
    intro normalize stream hn text h
    obtain ⟨es, rfl, hes⟩ := writeEvents_after normalize stream rows innerPath outPath onlyChannel fs
      text h
    refine ⟨es, lines_eventFile es, fun e he => ?_⟩
    obtain ⟨r, hr, c, s, rfl⟩ := hes e he
    obtain ⟨h1, h2, h3⟩ := hn (stem innerPath) c s r
    exact ⟨⟨r, hr, by rw [h1, h2]⟩, EventRow.line_framed _ h3⟩
  intro wn hwn
  simp only [List.mem_cons, List.mem_singleton, List.not_mem_nil, or_false] at hwn
  rcases hwn with rfl | rfl
  · exact key orderEvent "Order" fun _ _ _ _ => ⟨rfl, rfl, List.cons_ne_nil _ _⟩
  · exact key tickEvent "Tick" fun _ _ _ _ => ⟨rfl, rfl, List.cons_ne_nil _ _⟩

/-- Two tick rows, the second with a line break in `Price`: the file reads back as the header
and the lines of the two records. -/
theorem written_records_framed_two_rows :
    after (writeTickEvents [fun _ => "1",
        fun c => if c = "Price" then "9\n9" else if c = "ApplSeqNum" then "2" else "1"]
        "d/000001.csv" "o" none (fun _ => none)) "o" =
      some (eventFile [tickEvent "000001" 1 1 fun _ => "1",
        tickEvent "000001" 1 2 fun c => if c = "Price" then "9\n9" else if c = "ApplSeqNum" then "2" else "1"]) ∧
    ∃ es : List EventRow, lines (eventFile [tickEvent "000001" 1 1 fun _ => "1",
        tickEvent "000001" 1 2 fun c => if c = "Price" then "9\n9" else if c = "ApplSeqNum" then "2" else "1"]) =
        writerow eventHeader :: (es.map fun e => lines e.line).flatten ∧
      ∀ e ∈ es, (∃ r ∈ [(fun _ => "1" : Row),
          fun c => if c = "Price" then "9\n9" else if c = "ApplSeqNum" then "2" else "1"],
          e = tickEvent (stem "d/000001.csv") e.channel e.seq r) ∧
        ((∀ s ∈ e.cells, ∀ c ∈ s.data, ¬ IsBreak c) →
          lines e.line = [e.line] ∧ parseKey e.line = .ok (e.channel, e.seq)) :=
  ⟨rfl, written_records_framed [fun _ => "1",
    fun c => if c = "Price" then "9\n9" else if c = "ApplSeqNum" then "2" else "1"]
    "d/000001.csv" "o" none (fun _ => none) _ (.tail _ (List.mem_singleton_self _)) _ rfl⟩

/-! ## What a returned call has read -/

theorem scanRow_parses {normalize : Int → Int → Row → EventRow} {stream innerPath : String}
    {onlyChannel : Option Int} {st st' : Scan} {row : Row}
    (h : scanRow normalize stream innerPath onlyChannel st row = .ok st') :
    ∃ c, pyInt (row "ChannelNo").data = some c ∧
      (onlyChannel.any (· ≠ c) = false → (pyInt (row "ApplSeqNum").data).isSome) := by
  cases hc : pyInt (row "ChannelNo").data with
  | none => simp [scanRow, int, hc, bind, Except.bind] at h
  | some c =>
    refine ⟨c, rfl, fun hk => ?_⟩
    cases hs : pyInt (row "ApplSeqNum").data with
    | some s => rfl
    | none =>
      simp only [scanRow, int_ok hc, bind, Except.bind, hk, Bool.false_eq_true, ↓reduceIte] at h
      cases hcc : checkChannel innerPath st.channelSeen c <;>
        simp [hcc, int, hs, pure, Except.pure] at h

theorem scanRows_parses (normalize : Int → Int → Row → EventRow) (stream innerPath : String)
    (onlyChannel : Option Int) :
    ∀ (rows : List Row) (st : Scan),
      (scanRows (scanRow normalize stream innerPath onlyChannel) st rows).2 = none →
      (∀ r ∈ rows, (pyInt (r "ChannelNo").data).isSome) ∧
        ∀ r ∈ keptRows onlyChannel rows, (pyInt (r "ApplSeqNum").data).isSome
  | [], _, _ => ⟨fun _ h => absurd h (List.not_mem_nil _), fun _ h => absurd h (List.not_mem_nil _)⟩
  | row :: rows, st, h => by
    simp only [scanRows] at h
    split at h
    · rename_i st' hst
      obtain ⟨c, hc, hs⟩ := scanRow_parses hst
      obtain ⟨ih1, ih2⟩ := scanRows_parses normalize stream innerPath onlyChannel rows st' h
      refine ⟨fun r hr => ?_, ?_⟩
      · rcases List.mem_cons.mp hr with rfl | hr
        exacts [by rw [hc]; rfl, ih1 r hr]
      · rw [keptRows_cons onlyChannel hc]
        cases hk : onlyChannel.any (· ≠ c)
        · intro r hr
          rcases List.mem_cons.mp hr with rfl | hr
          exacts [hs hk, ih2 r hr]
        · exact ih2
    · cases h

theorem writeEvents_ok {normalize : String → Int → Int → Row → EventRow} {stream : String}
    {rows : List Row} {innerPath outPath : String} {onlyChannel : Option Int} {fs fs' : FS}
    {v : Option Int} (h : writeEvents normalize stream rows innerPath outPath onlyChannel fs = .ok v fs') :
    let R := keptRows onlyChannel rows
    Consistent R ∧ (R = [] → v = none ∧ fs' = fs.remove outPath) ∧
      (R ≠ [] → v = R.head?.map chanOf ∧ fs' = fs.write outPath
        (eventFile (R.map fun r => normalize (stem innerPath) (chanOf r) (seqOf r) r))) := by
  have hnone : (scanRows (scanRow (normalize (stem innerPath)) stream innerPath onlyChannel)
      ⟨none, none, []⟩ rows).2 = none := by
    unfold writeEvents at h
    dsimp only at h
    split at h
    · cases h
    · assumption
  obtain ⟨hc, hs⟩ := scanRows_parses _ stream innerPath onlyChannel rows _ hnone
  obtain ⟨herr, hok⟩ := writeEvents_spec normalize stream rows innerPath outPath onlyChannel fs hc hs
  refine ⟨Classical.byContradiction fun hn => ?_, hok v fs' h⟩
  obtain ⟨e, fs'', he⟩ := herr.mpr hn
  rw [h] at he
  cases he

theorem writeEvents_other (normalize : String → Int → Int → Row → EventRow) (stream : String)
    (rows : List Row) (innerPath : String) {outPath q : String} (onlyChannel : Option Int)
    (fs : FS) (hq : q ≠ outPath) :
    after (writeEvents normalize stream rows innerPath outPath onlyChannel fs) q = fs q := by
  unfold writeEvents
  dsimp only
  split
  · exact FS.write_other _ _ hq
  · split
    · simp only [after, FS.remove_other _ hq, FS.write_other _ _ hq]
    · exact FS.write_other _ _ hq

/-! ## What a raised check leaves -/

/-- **What a raised check leaves.** When `write_order_events` or `write_tick_events` raises on
rows whose numbers parse, it has stopped at the first kept row `r` that breaks the checks, after
the kept rows `P` that pass them. The output file is not removed: it holds the header and the
events of `P`, which may be none. The message names the first channel and `r`'s when the channel
changed, and else `r`'s sequence number and the one before it. -/
theorem write_events_error_partial (normalize : String → Int → Int → Row → EventRow)
    (stream : String) (rows : List Row) (innerPath outPath : String) (onlyChannel : Option Int)
    (fs fs' : FS) (e : String)
    (hc : ∀ r ∈ rows, (pyInt (r "ChannelNo").data).isSome)
    (hs : ∀ r ∈ keptRows onlyChannel rows, (pyInt (r "ApplSeqNum").data).isSome)
    (h : writeEvents normalize stream rows innerPath outPath onlyChannel fs = .error e fs') :
    ∃ P r S, keptRows onlyChannel rows = P ++ r :: S ∧ Consistent P ∧ ¬ Consistent (P ++ [r]) ∧
      fs' = fs.write outPath
        (eventFile (P.map fun x => normalize (stem innerPath) (chanOf x) (seqOf x) x)) ∧
      ((∃ a ∈ P.head?, chanOf a ≠ chanOf r ∧ e = "Multiple ChannelNo values in " ++ innerPath ++
          ": " ++ toString (chanOf a) ++ " vs " ++ toString (chanOf r)) ∨
        ((∀ a ∈ P.head?, chanOf a = chanOf r) ∧ ∃ q ∈ P.getLast?, seqOf r < seqOf q ∧
          e = stream ++ " stream not monotonic: " ++ innerPath ++ " seq " ++ toString (seqOf r) ++
            " < " ++ toString (seqOf q))) := by
  unfold writeEvents at h
  rw [show (⟨none, none, []⟩ : Scan) = scanOf (normalize (stem innerPath)) [] from rfl] at h
  generalize hres : scanRows _ (scanOf _ []) rows = res at h
  obtain ⟨st, _ | m⟩ := res
  · dsimp only at h
    split at h <;> cases h
  cases h
  obtain ⟨P, r, S, hR, hP, h1, h2⟩ := scanRows_error (normalize (stem innerPath)) stream innerPath
    onlyChannel rows consistent_nil hc hs (by rw [hres])
  rw [hres, List.nil_append] at h1
  rw [List.nil_append] at hP h2
  have hrk : r ∈ keptRows onlyChannel rows := hR ▸ List.mem_append_right _ (List.mem_cons_self _ _)
  obtain ⟨c, hc0⟩ := Option.isSome_iff_exists.mp (hc r (List.mem_filter.mp hrk).1)
  obtain ⟨s, hs0⟩ := Option.isSome_iff_exists.mp (hs r hrk)
  have hcr : chanOf r = c := by rw [chanOf, hc0]; rfl
  have hsr : seqOf r = s := by rw [seqOf, hs0]; rfl
  have hk : onlyChannel.any (· ≠ c) = false := by
    simpa [keptRows, hcr] using (List.mem_filter.mp hrk).2
  refine ⟨P, r, S, hR, hP, fun hc' => ?_, by rw [h1]; rfl, ?_⟩
  · rw [(scanRow_keep (normalize (stem innerPath)) stream innerPath onlyChannel hP hc0 hs0 hk).1 hc']
      at h2
    exact Except.noConfusion h2
  rw [scanRow_kept _ _ _ _ hc0 hs0 hk] at h2
  rcases checks_error h2 with ⟨a, ha, hac, rfl⟩ | ⟨hall, q, hq, hsq, rfl⟩
  · obtain ⟨x, hx, rfl⟩ := Option.mem_map.mp (ha : a ∈ P.head?.map chanOf)
    exact .inl ⟨x, hx, hcr ▸ hac, by rw [hcr]⟩
  · obtain ⟨y, hy, rfl⟩ := Option.mem_map.mp (hq : q ∈ P.getLast?.map seqOf)
    exact .inr ⟨fun x hx => hcr ▸ hall _ (Option.mem_map_of_mem _ hx), y, hy, hsr ▸ hsq, by rw [hsr]⟩

theorem write_events_error_after_one_row :
    ∃ e fs', writeOrderEvents [fun _ => "1", fun _ => "2"] "a.csv" "o" none (fun _ => none) =
        .error e fs' ∧ fs' "o" = some (eventFile [orderEvent "a" 1 1 fun _ => "1"]) ∧
      e = "Multiple ChannelNo values in a.csv: 1 vs 2" := by
  have hc : ∀ r ∈ [(fun _ => "1" : Row), fun _ => "2"], ∀ col, (pyInt (r col).data).isSome := by
    simp only [List.mem_cons, List.mem_singleton, List.not_mem_nil, or_false, forall_eq_or_imp,
      forall_eq]
    exact ⟨fun _ => rfl, fun _ => rfl⟩
  obtain ⟨e, fs', h⟩ : ∃ e fs', writeOrderEvents [fun _ => "1", fun _ => "2"] "a.csv" "o" none
      (fun _ => none) = .error e fs' := ⟨_, _, rfl⟩
  obtain ⟨P, r, S, hR, -, hn, rfl, hmsg⟩ := write_events_error_partial orderEvent "Order"
    [fun _ => "1", fun _ => "2"] "a.csv" "o" none (fun _ => none) fs' e (fun r hr => hc r hr _)
    (fun r hr => hc r (by rwa [keptRows_none] at hr) _) h
  rw [keptRows_none] at hR
  rcases P with _ | ⟨p, _ | ⟨p', P⟩⟩
  · obtain ⟨rfl, rfl⟩ := List.cons.inj hR
    exact absurd ⟨by simp, List.chain'_singleton _⟩ hn
  · obtain ⟨rfl, hR'⟩ := List.cons.inj hR
    obtain ⟨rfl, rfl⟩ := List.cons.inj hR'
    refine ⟨e, _, h, rfl, ?_⟩
    rcases hmsg with ⟨a, ha, -, rfl⟩ | ⟨hall, -⟩
    · obtain rfl := Option.some.inj ha
      rfl
    · exact absurd (hall _ rfl) (by decide)
  · simp at hR

end SzseMerge.Events
