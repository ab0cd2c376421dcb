import SzseMerge.Text

/-!
# Files and Python exceptions

A file system maps each path to its text; two different path strings are
two different files. A Python call is a state transformer that returns or
raises with a message, and what it wrote before raising stays written, as
in CPython. Directories are not tracked: `os.makedirs` changes no file.
-/

set_option autoImplicit false

namespace SzseMerge.FileSystem
open SzseMerge.Text

/-- The text of every file, by path. -/
abbrev FS := String → Option (List Char)

/-- A Python call over the file system, raising with a message. -/
abbrev Py := EStateM String FS

def FS.write (fs : FS) (p : String) (text : List Char) : FS := Function.update fs p (some text)

def FS.remove (fs : FS) (p : String) : FS := Function.update fs p none

@[simp] theorem FS.write_same (fs : FS) (p : String) (t : List Char) : fs.write p t p = some t :=
  Function.update_same _ _ _

@[simp] theorem FS.write_other (fs : FS) {p q : String} (t : List Char) (h : q ≠ p) :
    fs.write p t q = fs q :=
  Function.update_noteq h _ _

@[simp] theorem FS.write_write (fs : FS) (p : String) (t t' : List Char) :
    (fs.write p t).write p t' = fs.write p t' :=
  Function.update_idem _ _ _

@[simp] theorem FS.remove_same (fs : FS) (p : String) : fs.remove p p = none :=
  Function.update_same _ _ _

@[simp] theorem FS.remove_other (fs : FS) {p q : String} (h : q ≠ p) : fs.remove p q = fs q :=
  Function.update_noteq h _ _

/-- `os.path.join(a, b)` for a relative `b`. -/
def join (a b : String) : String := if a = "" ∨ endswith a "/" then a ++ b else a ++ "/" ++ b

/-- A path inside the directory `root`. -/
def IsUnder (root p : String) : Prop := (join root "").data <+: p.data

instance (root p : String) : Decidable (IsUnder root p) :=
  inferInstanceAs (Decidable (List.IsPrefix _ _))

theorem join_data (a b : String) : (join a b).data = (join a "").data ++ b.data := by
  unfold join
  split <;> simp only [String.data_append, List.append_nil, List.append_assoc]

theorem join_empty_data (a : String) : ∃ sep, (join a "").data = a.data ++ sep := by
  unfold join
  split
  · exact ⟨[], by simp only [String.data_append, List.append_nil]⟩
  · exact ⟨['/'], by simp only [String.data_append, List.append_nil]⟩

theorem isUnder_join (a b : String) : IsUnder a (join a b) := by
  rw [IsUnder, join_data a b]
  exact List.prefix_append _ _

theorem ne_of_suffix {x y : String} {s t : List Char} (hs : s <:+ x.data) (ht : t <:+ y.data)
    (hl : s.length = t.length) (hne : s ≠ t) : x ≠ y := by
  rintro rfl
  exact hne ((List.suffix_of_suffix_length_le hs ht hl.le).eq_of_length hl)

/-- `shutil.rmtree(root, ignore_errors=True)`: every file below `root` goes. -/
def FS.removeTree (fs : FS) (root : String) : FS := fun p => if IsUnder root p then none else fs p

def notFound (p : String) : String := "[Errno 2] No such file or directory: " ++ pyRepr p.data

/-- `open(p).read()`. -/
def readFile (p : String) : Py (List Char) := fun fs =>
  match fs p with
  | some t => .ok t fs
  | none => .error (notFound p) fs

/-- `open(p, "w")` followed by the writes of `text` and the close. -/
def writeFile (p : String) (text : List Char) : Py Unit := fun fs => .ok () (fs.write p text)

@[simp] theorem writeFile_apply (p : String) (text : List Char) (fs : FS) :
    writeFile p text fs = .ok () (fs.write p text) := rfl

/-- `os.remove(p)`. -/
def removeFile (p : String) : Py Unit := fun fs =>
  match fs p with
  | some _ => .ok () (fs.remove p)
  | none => .error (notFound p) fs

/-- `shutil.move(src, dst)`, a rename within one file system. -/
def move (src dst : String) : Py Unit := fun fs =>
  match fs src with
  | some t => .ok () ((fs.remove src).write dst t)
  | none => .error (notFound src) fs

/-- The file system a call leaves, whether it returned or raised. -/
def after {α : Type} : EStateM.Result String FS α → FS
  | .ok _ fs => fs
  | .error _ fs => fs

theorem bind_apply {α β : Type} (x : Py α) (f : α → Py β) (fs : FS) :
    (x >>= f) fs = match x fs with
      | .ok a fs' => f a fs'
      | .error e fs' => .error e fs' := by
  show EStateM.bind x f fs = _
  unfold EStateM.bind
  cases x fs <;> rfl

@[simp] theorem pure_apply {α : Type} (a : α) (fs : FS) : (pure a : Py α) fs = .ok a fs := rfl

@[simp] theorem throw_apply {α : Type} (e : String) (fs : FS) :
    (throw e : Py α) fs = .error e fs := rfl

theorem bind_ok {α β : Type} {x : Py α} {f : α → Py β} {fs fs' : FS} {a : α}
    (h : x fs = .ok a fs') : (x >>= f) fs = f a fs' := by
  rw [bind_apply, h]

theorem bind_error {α β : Type} {x : Py α} {f : α → Py β} {fs fs' : FS} {e : String}
    (h : x fs = .error e fs') : (x >>= f) fs = .error e fs' := by
  rw [bind_apply, h]

theorem bind_congr_of_ok {α β : Type} {x : Py α} {f g : α → Py β} {fs : FS}
    (h : ∀ a fs', x fs = .ok a fs' → f a fs' = g a fs') : (x >>= f) fs = (x >>= g) fs := by
  rw [bind_apply, bind_apply]
  cases hx : x fs with
  | ok a fs' => exact h a fs' hx
  | error e fs' => rfl

theorem after_bind {α β : Type} {x : Py α} {f : α → Py β} {fs : FS} {q : String}
    (hx : after (x fs) q = fs q) (hf : ∀ a fs', x fs = .ok a fs' → after (f a fs') q = fs' q) :
    after ((x >>= f) fs) q = fs q := by
  rw [bind_apply]
  cases h : x fs with
  | ok a fs' => rw [h] at hx; exact (hf a fs' h).trans hx
  | error e fs' => rw [h] at hx; exact hx

theorem bind_eq_ok {α β : Type} {x : Py α} {f : α → Py β} {fs fs'' : FS} {b : β}
    (h : (x >>= f) fs = .ok b fs'') : ∃ a fs', x fs = .ok a fs' ∧ f a fs' = .ok b fs'' := by
  rw [bind_apply] at h
  split at h
  · exact ⟨_, _, ‹_›, h⟩
  · cases h

/-! ## Calls that leave a file alone -/

/-- Whether it returns or raises, `x` leaves file `q` as it was. -/
def Keeps {α : Type} (x : Py α) (q : String) : Prop := ∀ fs, after (x fs) q = fs q

section Keeps
variable {α β : Type} {q : String}

theorem Keeps.bind {x : Py α} {f : α → Py β} (hx : Keeps x q) (hf : ∀ a, Keeps (f a) q) :
    Keeps (x >>= f) q := fun fs =>
  after_bind (hx fs) fun a fs' _ => hf a fs'

theorem keeps_pure (a : α) : Keeps (pure a : Py α) q := fun _ => rfl

theorem keeps_throw (e : String) : Keeps (throw e : Py α) q := fun _ => rfl

theorem keeps_readFile (p : String) : Keeps (readFile p) q := fun fs => by
  unfold readFile
  split <;> rfl

theorem keeps_writeFile {p : String} (text : List Char) (h : q ≠ p) : Keeps (writeFile p text) q :=
  fun _ => FS.write_other _ _ h

theorem keeps_move {src dst : String} (hs : q ≠ src) (hd : q ≠ dst) : Keeps (move src dst) q :=
  fun fs => by
    unfold move
    split
    · exact (FS.write_other _ _ hd).trans (FS.remove_other _ hs)
    · rfl

theorem Keeps.forM {l : List β} {f : β → Py PUnit} (h : ∀ b ∈ l, Keeps (f b) q) :
    Keeps (l.forM f) q := by
  induction l with
  | nil => exact keeps_pure _
  | cons b l ih =>
    rw [List.forM_cons']
    exact (h b (List.mem_cons_self _ _)).bind fun _ => ih fun b' hb' => h b' (List.mem_cons_of_mem _ hb')

theorem Keeps.foldlM {f : α → β → Py α} (h : ∀ a b, Keeps (f a b) q) :
    ∀ (l : List β) (init : α), Keeps (l.foldlM f init) q
  | [], _ => keeps_pure _
  | b :: l, init => by
    rw [List.foldlM_cons]
    exact (h init b).bind (Keeps.foldlM h l)

end Keeps

end SzseMerge.FileSystem
