import Mathlib

/-!
# Lines, CSV records and integer keys

The merge script writes its intermediate files with `csv.writer` and reads
them back with `readline` on files opened with `newline=''`. Python then
ends a line at `\n`, at `\r\n` or at a lone `\r`, and keeps the terminator.
`parse_key` splits a line at its first two commas and reads both pieces
with `int()`. File contents are character lists throughout.
-/

set_option autoImplicit false

namespace SzseMerge.Text

/-- Prepend one character to the first line of a split. -/
def consFirst (c : Char) : List (List Char) → List (List Char)
  | [] => [[c]]
  | l :: ls => (c :: l) :: ls

/-- The successive results of `readline` on a file opened with `newline=''`. -/
def lines : List Char → List (List Char)
  | [] => []
  | '\n' :: cs => ['\n'] :: lines cs
  | '\r' :: '\n' :: cs => ['\r', '\n'] :: lines cs
  | '\r' :: cs => ['\r'] :: lines cs
  | c :: cs => consFirst c (lines cs)

example : lines "ab\r\ncd\ref\n\ng".toList =
    ["ab\r\n".toList, "cd\r".toList, "ef\n".toList, "\n".toList, "g".toList] := by decide

/-- A character that ends a line. -/
def IsBreak (c : Char) : Prop := c = '\n' ∨ c = '\r'

instance (c : Char) : Decidable (IsBreak c) := inferInstanceAs (Decidable (_ ∨ _))

/-- A line `readline` hands back ends in its terminator. -/
def Terminated (l : List Char) : Prop := l.getLast? = some '\n' ∨ l.getLast? = some '\r'

instance (l : List Char) : Decidable (Terminated l) := inferInstanceAs (Decidable (_ ∨ _))

theorem lines_ordinary {c : Char} (hc : ¬ IsBreak c) (cs : List Char) :
    lines (c :: cs) = consFirst c (lines cs) := by
  simp only [IsBreak, not_or] at hc
  rw [lines.eq_5 c cs hc.1 (fun _ h => absurd h hc.2) hc.2]

@[simp] theorem flatten_consFirst (c : Char) (ls : List (List Char)) :
    (consFirst c ls).flatten = c :: ls.flatten := by
  cases ls <;> rfl

@[simp] theorem flatten_lines (cs : List Char) : (lines cs).flatten = cs := by
  induction cs using lines.induct with
  | case1 => rfl
  | case2 cs ih | case3 cs ih => simp [lines, ih]
  | case4 cs h ih => rw [lines.eq_4 cs h]; simp [ih]
  | case5 c cs h1 h2 h3 ih => rw [lines.eq_5 c cs h1 h2 h3, flatten_consFirst, ih]

@[simp] theorem lines_eq_nil {cs : List Char} : lines cs = [] ↔ cs = [] := by
  refine ⟨fun h => ?_, fun h => h ▸ rfl⟩
  simpa using congrArg List.flatten h

theorem consFirst_ne_nil (c : Char) (ls : List (List Char)) : consFirst c ls ≠ [] := by
  cases ls <;> simp [consFirst]

theorem lines_of_mem {cs l : List Char} (h : l ∈ lines cs) : lines l = [l] := by
  induction cs using lines.induct generalizing l with
  | case1 => simp [lines] at h
  | case2 cs ih | case3 cs ih =>
    simp only [lines, List.mem_cons] at h
    rcases h with rfl | h
    · rfl
    · exact ih h
  | case4 cs hn ih =>
    rw [lines.eq_4 cs hn, List.mem_cons] at h
    rcases h with rfl | h
    · rfl
    · exact ih h
  | case5 c cs h1 h2 h3 ih =>
    have hc : ¬ IsBreak c := by simp only [IsBreak]; tauto
    rw [lines.eq_5 c cs h1 h2 h3] at h
    cases hl : lines cs with
    | nil =>
      obtain rfl : cs = [] := lines_eq_nil.mp hl
      rw [hl, consFirst, List.mem_singleton] at h
      rw [h, lines_ordinary hc]
      rfl
    | cons l' ls =>
      rw [hl, consFirst, List.mem_cons] at h
      rcases h with rfl | h
      · rw [lines_ordinary hc, ih (by simp [hl]), consFirst]
      · exact ih (by simp [hl, h])

theorem lines_ne_nil_of_mem {cs l : List Char} (h : l ∈ lines cs) : l ≠ [] := by
  rintro rfl
  simpa [lines] using lines_of_mem h

theorem consFirst_eq_cons {c : Char} {ls : List (List Char)} {l : List Char}
    (h : consFirst c ls = [l]) : ∃ l', l = c :: l' ∧ (ls = [] ∧ l' = [] ∨ ls = [l']) := by
  cases ls with
  | nil => exact ⟨[], by simpa [consFirst] using h.symm, .inl ⟨rfl, rfl⟩⟩
  | cons l' ls =>
    simp only [consFirst, List.cons.injEq] at h
    exact ⟨l', h.1.symm, .inr (by rw [h.2])⟩

theorem lines_append {l : List Char} (h : lines l = [l]) (ht : Terminated l)
    (rest : List Char) (hr : l.getLast? = some '\r' → rest.head? ≠ some '\n') :
    lines (l ++ rest) = l :: lines rest := by
  induction l using lines.induct with
  | case1 => simp [lines] at h
  | case2 cs ih | case3 cs ih =>
    obtain rfl : cs = [] := by simpa [lines] using h
    rfl
  | case4 cs hn ih =>
    rw [lines.eq_4 cs hn] at h
    obtain rfl : cs = [] := by simpa using h
    match rest, hr rfl with
    | [], _ => rfl
    | c :: rest', hc =>
      exact lines.eq_4 (c :: rest') (fun _ e => hc (by simp [List.cons.inj e |>.1]))
  | case5 c cs h1 h2 h3 ih =>
    have hc : ¬ IsBreak c := by simp only [IsBreak]; tauto
    rw [lines.eq_5 c cs h1 h2 h3] at h
    obtain ⟨l', hl', hcs | hcs⟩ := consFirst_eq_cons h
    · obtain rfl : cs = [] := lines_eq_nil.mp hcs.1
      simp [Terminated, IsBreak] at ht hc
      tauto
    · obtain rfl : cs = l' := by simpa using hl'
      have hne : cs ≠ [] := by rintro rfl; simp [lines] at hcs
      have hlast : (c :: cs).getLast? = cs.getLast? := by
        obtain ⟨d, ds, rfl⟩ := List.exists_cons_of_ne_nil hne
        rfl
      rw [List.cons_append, lines_ordinary hc,
        ih hcs (by rwa [Terminated, ← hlast]) (by rwa [← hlast]), consFirst]

theorem consFirst_append (c : Char) {xs : List (List Char)} (h : xs ≠ []) (ys : List (List Char)) :
    consFirst c (xs ++ ys) = consFirst c xs ++ ys := by
  obtain ⟨x, xs, rfl⟩ := List.exists_cons_of_ne_nil h
  rfl

theorem terminated_of_lines {cs l l' : List Char} {ls : List (List Char)}
    (h : lines cs = l :: l' :: ls) : Terminated l := by
  induction cs using lines.induct generalizing l l' ls with
  | case1 => simp [lines] at h
  | case2 cs ih | case3 cs ih =>
    simp only [lines, List.cons.injEq] at h
    simp [← h.1, Terminated]
  | case4 cs hn ih =>
    rw [lines.eq_4 cs hn, List.cons.injEq] at h
    simp [← h.1, Terminated]
  | case5 c cs h1 h2 h3 ih =>
    rw [lines.eq_5 c cs h1 h2 h3] at h
    cases hl : lines cs with
    | nil => simp [hl, consFirst] at h
    | cons l0 rest =>
      rw [hl, consFirst, List.cons.injEq] at h
      obtain ⟨rfl, rfl⟩ := h
      have hne : l0 ≠ [] := lines_ne_nil_of_mem (hl ▸ List.mem_cons_self _ _)
      obtain ⟨d, ds, rfl⟩ := List.exists_cons_of_ne_nil hne
      have ht : Terminated (d :: ds) := ih hl
      simpa [Terminated, List.getLast?_cons_cons] using ht

theorem lines_append_nl (a b : List Char) :
    lines (a ++ '\n' :: b) = lines (a ++ ['\n']) ++ lines b := by
  induction a using lines.induct with
  | case1 => rfl
  | case2 cs ih => simp only [List.cons_append, lines.eq_2, ih]
  | case3 cs ih => simp only [List.cons_append, lines.eq_3, ih]
  | case4 cs hn ih =>
    cases cs with
    | nil => rfl
    | cons d cs =>
      have hd : ∀ t u, d :: t = '\n' :: u → False := fun t u e =>
        hn cs (by rw [(List.cons.inj e).1])
      simp only [List.cons_append] at ih ⊢
      rw [lines.eq_4 _ (hd _), lines.eq_4 _ (hd _), ih]
      rfl
  | case5 c cs h1 h2 h3 ih =>
    have hc : ¬ IsBreak c := by simp only [IsBreak]; tauto
    simp only [List.cons_append, lines_ordinary hc] at ih ⊢
    rw [ih, consFirst_append c (by simp)]

theorem lines_flatten {ls : List (List Char)} (h : ∀ l ∈ ls, lines l = [l] ∧ Terminated l)
    (hn : ∀ l ∈ ls.tail, l.head? ≠ some '\n') : lines ls.flatten = ls := by
  induction ls with
  | nil => rfl
  | cons l ls ih =>
    have hrest : lines ls.flatten = ls :=
      ih (fun x hx => h x (.tail _ hx)) (fun x hx => hn x (List.mem_of_mem_tail hx))
    rw [List.flatten_cons, lines_append (h l (.head _)).1 (h l (.head _)).2, hrest]
    intro _
    cases ls with
    | nil => simp
    | cons x xs =>
      have hx : x ≠ [] := by rintro rfl; simpa [lines] using (h [] (by simp)).1
      obtain ⟨y, ys, rfl⟩ := List.exists_cons_of_ne_nil hx
      simpa using hn _ (.head _)

/-! ## `str.endswith`, `str.split` and `int()` -/

/-- `s.endswith(suffix)`. -/
def endswith (s suffix : String) : Bool := suffix.data.isSuffixOf s.data

/-- `str.split(sep, maxsplit)` for a one-character separator. -/
def splitN (sep : Char) : Nat → List Char → List (List Char)
  | _, [] => [[]]
  | n, c :: cs => if c = sep ∧ 0 < n then [] :: splitN sep (n - 1) cs
      else consFirst c (splitN sep n cs)

theorem splitN_ne_nil (sep : Char) (n : Nat) (cs : List Char) : splitN sep n cs ≠ [] := by
  cases cs with
  | nil => simp [splitN]
  | cons c cs => unfold splitN; split <;> simp [consFirst_ne_nil]

theorem foldr_consFirst (x l : List Char) (ls : List (List Char)) :
    x.foldr consFirst (l :: ls) = (x ++ l) :: ls := by
  induction x with
  | nil => rfl
  | cons c x ih => simp [ih, consFirst]

theorem splitN_append {sep : Char} {x : List Char} (hx : sep ∉ x) (n : Nat) (rest : List Char) :
    splitN sep n (x ++ rest) = x.foldr consFirst (splitN sep n rest) := by
  induction x with
  | nil => rfl
  | cons c x ih =>
    have hc : c ≠ sep := fun e => hx (e ▸ .head _)
    simp [splitN, hc, ih (fun h => hx (.tail _ h))]

theorem splitN_sep {sep : Char} {x : List Char} (hx : sep ∉ x) (n : Nat) (rest : List Char) :
    splitN sep (n + 1) (x ++ sep :: rest) = x :: splitN sep n rest := by
  rw [splitN_append hx, splitN, if_pos ⟨rfl, n.succ_pos⟩, foldr_consFirst, List.append_nil]
  rfl

/-- The characters `int()` strips from both ends: Python's ASCII whitespace. -/
def spaces : List Char := [' ', '\t', '\n', '\r', '\x0b', '\x0c', '\x1c', '\x1d', '\x1e', '\x1f']

def strip (s : List Char) : List Char :=
  ((s.dropWhile (· ∈ spaces)).reverse.dropWhile (· ∈ spaces)).reverse

def digitVal (c : Char) : Nat := c.toNat - '0'.toNat

/-- The digits after the first one; `_` may stand between two digits. -/
def readDigits (acc : Nat) : List Char → Option Nat
  | [] => some acc
  | '_' :: c :: cs => if c.isDigit then readDigits (10 * acc + digitVal c) cs else none
  | c :: cs => if c.isDigit then readDigits (10 * acc + digitVal c) cs else none

def pyNat : List Char → Option Nat
  | [] => none
  | c :: cs => if c.isDigit then readDigits (digitVal c) cs else none

/-- `int(s)` on a string, in base 10. -/
def pyInt (s : List Char) : Option Int :=
  match strip s with
  | '-' :: ds => (pyNat ds).map fun n => -Int.ofNat n
  | '+' :: ds => (pyNat ds).map Int.ofNat
  | ds => (pyNat ds).map Int.ofNat

example : pyInt " -1_024\r\n".toList = some (-1024) := by decide
example : pyInt "1__0".toList = none := by decide

/-- One `readDigits` step: ten times the value so far plus the next digit. -/
def digitStep (acc : Nat) (c : Char) : Nat := 10 * acc + digitVal c

theorem digitChar_spec : ∀ k : Nat, k < 10 →
    (Nat.digitChar k).isDigit = true ∧ digitVal (Nat.digitChar k) = k
  | 0, _ | 1, _ | 2, _ | 3, _ | 4, _ | 5, _ | 6, _ | 7, _ | 8, _ | 9, _ => by decide
  | _ + 10, h => absurd h (by omega)

theorem readDigits_of_digits (acc : Nat) (ds : List Char) (h : ∀ c ∈ ds, c.isDigit) :
    readDigits acc ds = some (ds.foldl digitStep acc) := by
  induction ds generalizing acc with
  | nil => rfl
  | cons c ds ih =>
    have hc := h c (.head _)
    have hu : c ≠ '_' := by rintro rfl; exact absurd hc (by decide)
    rw [readDigits.eq_3 acc c ds (fun _ _ e => absurd e hu), if_pos hc,
      ih _ (fun x hx => h x (.tail _ hx))]
    rfl

theorem toDigitsCore_spec (f n : Nat) (ds : List Char) (hf : n < f) :
    (∃ d rest, Nat.toDigitsCore 10 f n ds = d :: rest) ∧
    ((∀ c ∈ ds, c.isDigit) → ∀ c ∈ Nat.toDigitsCore 10 f n ds, c.isDigit) ∧
    (Nat.toDigitsCore 10 f n ds).foldl digitStep 0 = ds.foldl digitStep n := by
  induction f generalizing n ds with
  | zero => omega
  | succ f ih =>
    have hd := digitChar_spec (n % 10) (Nat.mod_lt _ (by decide))
    rw [Nat.toDigitsCore]
    split
    · refine ⟨⟨_, _, rfl⟩, fun h c hc => ?_, ?_⟩
      · rcases List.mem_cons.mp hc with rfl | hc
        exacts [hd.1, h c hc]
      · simp only [List.foldl_cons, digitStep, hd.2]
        congr 1
        omega
    · obtain ⟨h1, h2, h3⟩ := ih (n / 10) (Nat.digitChar (n % 10) :: ds) (by omega)
      refine ⟨h1, fun h => h2 fun c hc => ?_, ?_⟩
      · rcases List.mem_cons.mp hc with rfl | hc
        exacts [hd.1, h c hc]
      · rw [h3, List.foldl_cons, digitStep, hd.2]
        congr 1
        omega

/-- A nonempty run of decimal digits, as `str()` prints a natural number. -/
def Digits (ds : List Char) : Prop := ds ≠ [] ∧ ∀ c ∈ ds, c.isDigit

theorem toDigits_digits (n : Nat) : Digits (Nat.toDigits 10 n) := by
  obtain ⟨⟨d, rest, he⟩, hdig, -⟩ := toDigitsCore_spec (n + 1) n [] (by omega)
  exact ⟨by simp [Nat.toDigits, he], hdig (by simp)⟩

theorem pyNat_toDigits (n : Nat) : pyNat (Nat.toDigits 10 n) = some n := by
  obtain ⟨⟨d, rest, he⟩, -, hval⟩ := toDigitsCore_spec (n + 1) n [] (by omega)
  have hall := (toDigits_digits n).2
  rw [Nat.toDigits, he] at hall ⊢
  rw [he] at hval
  rw [pyNat, if_pos (hall d (.head _)), readDigits_of_digits _ _ (fun c hc => hall c (.tail _ hc))]
  simpa [digitStep] using hval

theorem not_mem_spaces {c : Char} (hc : c.isDigit ∨ c = '-') : c ∉ spaces := by
  intro hm
  simp only [spaces, List.mem_cons, List.not_mem_nil, or_false] at hm
  rcases hm with rfl | rfl | rfl | rfl | rfl | rfl | rfl | rfl | rfl | rfl <;> simp at hc

theorem dropWhile_of_forall {p : Char → Bool} {s : List Char} (h : ∀ c ∈ s, p c = false) :
    s.dropWhile p = s := by
  cases s with
  | nil => rfl
  | cons c s => exact List.dropWhile_cons_of_neg (by simp [h c (.head _)])

theorem strip_of_forall {s : List Char} (h : ∀ c ∈ s, c ∉ spaces) : strip s = s := by
  have h' : ∀ c ∈ s, decide (c ∈ spaces) = false := by simpa using h
  rw [strip, dropWhile_of_forall h', dropWhile_of_forall (by simpa using h'),
    List.reverse_reverse]

theorem pyInt_digits {ds : List Char} (h : Digits ds) : pyInt ds = (pyNat ds).map Int.ofNat := by
  obtain ⟨d, ds', rfl⟩ := List.exists_cons_of_ne_nil h.1
  have hd := h.2 d (.head _)
  rw [pyInt, strip_of_forall fun c hc => not_mem_spaces (.inl (h.2 c hc))]
  split
  · rename_i e; cases e; exact absurd hd (by decide)
  · rename_i e; cases e; exact absurd hd (by decide)
  · rfl

theorem pyInt_toString (n : Int) : pyInt (toString n).data = some n := by
  rcases n with m | m
  · show pyInt (Nat.toDigits 10 m) = _
    rw [pyInt_digits (toDigits_digits m), pyNat_toDigits]
    rfl
  · show pyInt ('-' :: Nat.toDigits 10 (m + 1)) = _
    have hd := toDigits_digits (m + 1)
    rw [pyInt, strip_of_forall]
    · show (pyNat (Nat.toDigits 10 (m + 1))).map _ = _
      rw [pyNat_toDigits]
      rfl
    · intro c hc
      rcases List.mem_cons.mp hc with rfl | hc
      exacts [by decide, not_mem_spaces (.inl (hd.2 c hc))]

/-! ## `csv.writer` and `parse_key` -/

/-- A cell `QUOTE_MINIMAL` quotes: one holding a comma, a quote or a line break. -/
def needsQuote (s : List Char) : Bool :=
  s.any fun c => c == ',' || c == '"' || c == '\r' || c == '\n'

/-- `csv.writer`'s text for one cell: quoted, with quotes doubled, when needed. -/
def quoteCell (s : List Char) : List Char :=
  if needsQuote s then '"' :: s.flatMap (fun c => if c = '"' then ['"', '"'] else [c]) ++ ['"']
  else s

/-- `writer.writerow(cells)`: the cells joined by commas, then the default `\r\n`. -/
def writerow (cells : List String) : List Char :=
  [','].intercalate (cells.map fun s => quoteCell s.data) ++ ['\r', '\n']

/-- A character `str.isprintable` rejects, among the first 256: the C0 and C1 controls,
no-break space and soft hyphen. -/
def unprintable (c : Char) : Bool :=
  c.toNat < 0x20 || (0x7f ≤ c.toNat && c.toNat ≤ 0xa0) || c.toNat = 0xad

/-- One character as `repr` writes it between the quotes `q`. -/
def reprChar (q c : Char) : List Char :=
  if c = q ∨ c = '\\' then ['\\', c]
  else if c = '\t' then ['\\', 't']
  else if c = '\n' then ['\\', 'n']
  else if c = '\r' then ['\\', 'r']
  else if unprintable c then ['\\', 'x', Nat.digitChar (c.toNat / 16), Nat.digitChar (c.toNat % 16)]
  else [c]

/-- Python's `repr` of a string, as error messages quote it: in double quotes when it holds
a single quote and no double quote, otherwise in single quotes. -/
def pyRepr (s : List Char) : String :=
  let q := if '\x27' ∈ s ∧ '"' ∉ s then '"' else '\x27'
  String.mk (q :: s.flatMap (reprChar q) ++ [q])

example : pyRepr "a\nb\r\t\\\x27\"\x01\x7fé".toList =
    "\x27a\\nb\\r\\t\\\\\\\x27\"\\x01\\x7fé\x27" := by decide

/-- `parse_key(line)`: the first two comma-separated fields, read with `int()`. -/
def parseKey (line : List Char) : Except String (Int × Int) :=
  match splitN ',' 2 line with
  | p0 :: p1 :: _ =>
    match pyInt p0, pyInt p1 with
    | some a, some b => .ok (a, b)
    | none, _ => .error ("invalid literal for int() with base 10: " ++ pyRepr p0)
    | some _, none => .error ("invalid literal for int() with base 10: " ++ pyRepr p1)
  | _ => .error ("Invalid line: " ++ pyRepr line)

theorem mem_quoteCell {s : List Char} {c : Char} (hc : c ∈ quoteCell s) : c = '"' ∨ c ∈ s := by
  unfold quoteCell at hc
  split at hc
  · simp only [List.mem_append, List.mem_cons, List.mem_flatMap, List.mem_singleton,
      List.not_mem_nil, or_false] at hc
    rcases hc with (h | ⟨x, hx, h⟩) | h
    · exact .inl h
    · split at h
      · simp only [List.mem_cons, List.not_mem_nil, or_false, or_self] at h
        exact .inl h
      · exact .inr ((List.mem_singleton.mp h) ▸ hx)
    · exact .inl h
  · exact .inr hc

theorem intercalate_cons₂ (x y : List Char) (zs : List (List Char)) :
    [','].intercalate (x :: y :: zs) = x ++ ',' :: [','].intercalate (y :: zs) := by
  simp [List.intercalate]

theorem noBreak_intercalate {cs : List (List Char)} (h : ∀ s ∈ cs, ∀ c ∈ s, ¬ IsBreak c) :
    ∀ c ∈ [','].intercalate cs, ¬ IsBreak c := by
  induction cs with
  | nil => simp [List.intercalate]
  | cons x cs ih =>
    cases cs with
    | nil => simpa [List.intercalate] using h x (.head _)
    | cons y zs =>
      rw [intercalate_cons₂]
      intro c hc
      rcases List.mem_append.mp hc with hc | hc
      · exact h x (.head _) c hc
      · rcases List.mem_cons.mp hc with rfl | hc
        · decide
        · exact ih (fun s hs => h s (.tail _ hs)) c hc

theorem lines_noBreak_append {x : List Char} (hx : ∀ c ∈ x, ¬ IsBreak c) (rest : List Char) :
    lines (x ++ rest) = x.foldr consFirst (lines rest) := by
  induction x with
  | nil => rfl
  | cons c x ih =>
    rw [List.cons_append, lines_ordinary (hx c (.head _)), ih (fun d hd => hx d (.tail _ hd))]
    rfl

theorem writerow_eq (cells : List String) :
    writerow cells = [','].intercalate (cells.map fun s => quoteCell s.data) ++ ['\r', '\n'] :=
  rfl

theorem lines_writerow {cells : List String} (h : ∀ s ∈ cells, ∀ c ∈ s.data, ¬ IsBreak c) :
    lines (writerow cells) = [writerow cells] := by
  have hb : ∀ c ∈ [','].intercalate (cells.map fun s => quoteCell s.data), ¬ IsBreak c := by
    refine noBreak_intercalate fun q hq c hc => ?_
    obtain ⟨s, hs, rfl⟩ := List.mem_map.mp hq
    rcases mem_quoteCell hc with rfl | hc
    exacts [by decide, h s hs c hc]
  rw [writerow_eq, lines_noBreak_append hb]
  exact foldr_consFirst _ _ []

theorem lines_writerow_append (cells : List String) (rest : List Char) :
    lines (writerow cells ++ rest) = lines (writerow cells) ++ lines rest := by
  have h := lines_append_nl ([','].intercalate (cells.map fun s => quoteCell s.data) ++ ['\r']) rest
  simpa [writerow_eq] using h

theorem terminated_writerow (cells : List String) : Terminated (writerow cells) := by
  simp [Terminated, writerow_eq]

theorem toString_plain (n : Int) : ∀ c ∈ (toString n).data, c.isDigit ∨ c = '-' := by
  rcases n with m | m
  · exact fun c hc => .inl ((toDigits_digits m).2 c hc)
  · intro c hc
    rcases List.mem_cons.mp (show c ∈ '-' :: Nat.toDigits 10 (m + 1) from hc) with rfl | hc
    exacts [.inr rfl, .inl ((toDigits_digits _).2 c hc)]

theorem comma_not_mem_toString (n : Int) : ',' ∉ (toString n).data := fun h => by
  rcases toString_plain n ',' h with h | h <;> simp at h

theorem quoteCell_toString (n : Int) : quoteCell (toString n).data = (toString n).data := by
  have hq : needsQuote (toString n).data = false := by
    simp only [needsQuote, List.any_eq_false]
    intro c hc
    rcases toString_plain n c hc with h | rfl
    · have : c ≠ ',' ∧ c ≠ '"' ∧ c ≠ '\r' ∧ c ≠ '\n' := by
        refine ⟨?_, ?_, ?_, ?_⟩ <;> rintro rfl <;> simp at h
      simp [this]
    · decide
  rw [quoteCell, hq]
  rfl

theorem parseKey_writerow (a b : Int) (c : String) (cs : List String) :
    parseKey (writerow (toString a :: toString b :: c :: cs)) = .ok (a, b) := by
  rw [writerow_eq, List.map_cons, List.map_cons, quoteCell_toString, quoteCell_toString,
    List.map_cons, intercalate_cons₂, intercalate_cons₂]
  simp only [List.append_assoc, List.cons_append]
  rw [parseKey, splitN_sep (comma_not_mem_toString a), splitN_sep (comma_not_mem_toString b)]
  simp [pyInt_toString]

theorem parseKey_head {l : List Char} {k : Int × Int} (h1 : lines l = [l])
    (h2 : parseKey l = .ok k) : l.head? ≠ some '\n' := by
  intro hh
  obtain ⟨t, rfl⟩ : ∃ t, l = '\n' :: t := by
    cases l with
    | nil => simp at hh
    | cons c t => exact ⟨t, by simpa using hh⟩
  obtain rfl : t = [] := by simpa [lines] using h1
  simp [parseKey, splitN, consFirst] at h2

end SzseMerge.Text
