import LunariaOS.Fs.Disk

/-!
What the file system is for: a map from paths to files.

A write replaces the file of one path and then adds the path, as a line, to the directory above it.
Adding a line rewrites that directory, which adds a line to the directory above it in turn. A
directory takes a line when its text has room for it and when its own parent is there (`Takes`).
`Updated` collects the directories that a write reaches in this way.
-/

namespace LunariaOS.Fs

/-- A file: its type and its bytes. -/
structure File where
  type : UInt8
  bytes : List UInt8
  deriving DecidableEq

/-- A map from paths to files. -/
abbrev FileMap := CStr → Option File

/-- The line that stands for a path in the text of a directory. -/
def line (path : CStr) : List UInt8 := path.bytes ++ [10]

lemma line_length (path : CStr) : (line path).length = path.length + 1 := by
  simp [line, CStr.length]

namespace FileMap

variable (m : FileMap)

/-- The map with one file replaced. The empty path names no file. -/
def store (name : CStr) (f : File) : FileMap :=
  if name.bytes = [] then m else Function.update m name (some f)

/-- The map without a path. -/
def erase (name : CStr) : FileMap := Function.update m name none

/-- The directory above a path, if it has one, is in the map. -/
def HasParent (name : CStr) : Prop := ∀ p, parentDir name = some p → m p ≠ none

/-- The directory `dir` takes a line for `path`. -/
def Takes (dir path : CStr) : Prop :=
  ∃ f, m dir = some f ∧ f.bytes.length + path.length + 1 < dirBufSize ∧ m.HasParent dir

/-- The directory `dir` with a line for `path` added. -/
def withLine (dir path : CStr) : File :=
  ⟨fsDir, ((m dir).map File.bytes).getD [] ++ line path⟩

open Classical in
/-- Add a line for `path` to the directory `dir`, and so to the directories above it. -/
noncomputable def append (m : FileMap) (dir path : CStr) : FileMap :=
  if m.Takes dir path then
    match _h : parentDir dir with
    | none => m.store dir (m.withLine dir path)
    | some p => append (m.store dir (m.withLine dir path)) p dir
  else m
termination_by dir.length
decreasing_by exact parentDir_length _h

/-- Replace the file of a path and add the path to the directory above it. -/
noncomputable def write (name : CStr) (f : File) : FileMap :=
  match parentDir name with
  | none => m.store name f
  | some p => (m.store name f).append p name

/-- The directory `a` takes a line when the file of a path is replaced. -/
inductive Updated : CStr → CStr → Prop
  | parent {name p : CStr} : parentDir name = some p → m.Takes p name → Updated p name
  | up {name p a : CStr} : parentDir name = some p → m.Takes p name → Updated a p → Updated a name

variable {m}

lemma store_same {name : CStr} (h : name.bytes ≠ []) (f : File) : m.store name f name = some f := by
  simp [store, h]

lemma store_ne {name n : CStr} (f : File) (h : n ≠ name) : m.store name f n = m n := by
  unfold store
  split_ifs
  · rfl
  · exact Function.update_of_ne h _ _

lemma erase_same (name : CStr) : m.erase name name = none := Function.update_self ..

lemma erase_ne {name n : CStr} (h : n ≠ name) : m.erase name n = m n := Function.update_of_ne h _ _

/-- Replacing a file takes no path out of the map. -/
lemma store_ne_none {name n : CStr} (f : File) (h : m n ≠ none) : m.store name f n ≠ none := by
  by_cases hn : n = name
  · subst hn
    unfold store
    split_ifs
    · exact h
    · simp
  · rwa [store_ne f hn]

lemma Updated.ancestor {a name : CStr} (h : m.Updated a name) : Ancestor a name := by
  induction h with
  | parent hp _ => exact .parent hp
  | up hp _ _ ih => exact .up hp ih

/-- Whether a directory takes a line depends on the directory and on whether its parent is there. -/
lemma takes_congr {m' : FileMap} {dir path : CStr} (h : m' dir = m dir)
    (hp : ∀ p, parentDir dir = some p → (m' p = none ↔ m p = none)) :
    m'.Takes dir path ↔ m.Takes dir path := by
  unfold Takes HasParent
  rw [h]
  refine exists_congr fun f => and_congr_right fun _ => and_congr_right fun _ => ?_
  exact forall₂_congr fun p hpp => not_congr (hp p hpp)

/-- Replacing the file of a path that is in the map decides nothing for the directories above it. -/
lemma takes_store {name dir path : CStr} (f : File) (h : dir.length < name.length) :
    (m.store name f).Takes dir path ↔ m.Takes dir path := by
  have hne : ∀ {n : CStr}, n.length < name.length → n ≠ name := by
    rintro n hn rfl
    exact lt_irrefl _ hn
  refine takes_congr (store_ne f (hne h)) fun p hp => ?_
  rw [store_ne f (hne ((parentDir_length hp).trans h))]

lemma updated_store {name a n : CStr} (f : File) (h : n.length ≤ name.length) :
    (m.store name f).Updated a n ↔ m.Updated a n := by
  constructor
  · intro hu
    induction hu with
    | parent hp ht => exact .parent hp ((takes_store f ((parentDir_length hp).trans_le h)).mp ht)
    | up hp ht _ ih =>
      have hlt := (parentDir_length hp).trans_le h
      exact .up hp ((takes_store f hlt).mp ht) (ih hlt.le)
  · intro hu
    induction hu with
    | parent hp ht => exact .parent hp ((takes_store f ((parentDir_length hp).trans_le h)).mpr ht)
    | up hp ht _ ih =>
      have hlt := (parentDir_length hp).trans_le h
      exact .up hp ((takes_store f hlt).mpr ht) (ih hlt.le)

/-! ### Adding a line -/

lemma append_of_not_takes {dir path : CStr} (h : ¬ m.Takes dir path) : m.append dir path = m := by
  rw [append, if_neg h]

lemma append_top {dir path : CStr} (h : m.Takes dir path) (hp : parentDir dir = none) :
    m.append dir path = m.store dir (m.withLine dir path) := by
  rw [append, if_pos h]
  split
  · rfl
  · rename_i p hp'
    rw [hp] at hp'
    cases hp'

lemma append_up {dir path p : CStr} (h : m.Takes dir path) (hp : parentDir dir = some p) :
    m.append dir path = (m.store dir (m.withLine dir path)).append p dir := by
  rw [append, if_pos h]
  split
  · rename_i hp'
    rw [hp] at hp'
    cases hp'
  · rename_i q hq
    rw [hp] at hq
    cases hq
    rfl

lemma not_updated_top {a dir : CStr} (hp : parentDir dir = none) : ¬ m.Updated a dir := by
  intro h
  cases h with
  | parent hp' _ => rw [hp] at hp'; cases hp'
  | up hp' _ _ => rw [hp] at hp'; cases hp'

lemma updated_up {a dir p : CStr} (hp : parentDir dir = some p) :
    m.Updated a dir ↔ m.Takes p dir ∧ (a = p ∨ m.Updated a p) := by
  constructor
  · intro h
    cases h with
    | parent hp' ht =>
      rw [hp] at hp'
      cases hp'
      exact ⟨ht, Or.inl rfl⟩
    | up hp' ht hu =>
      rw [hp] at hp'
      cases hp'
      exact ⟨ht, Or.inr hu⟩
  · rintro ⟨ht, rfl | hu⟩
    · exact .parent hp ht
    · exact .up hp ht hu

/-- **An append changes the directory itself and the directories it updates above**, and makes each
of them a directory. -/
theorem append_apply (m : FileMap) (dir path n : CStr) (hdir : dir.bytes ≠ []) :
    (m.append dir path n = m n ∧ ¬ (m.Takes dir path ∧ (n = dir ∨ m.Updated n dir))) ∨
      (m.Takes dir path ∧ (n = dir ∨ m.Updated n dir) ∧
        ∃ f, m.append dir path n = some f ∧ f.type = fsDir) := by
  induction h : dir.length using Nat.strong_induction_on generalizing m dir path with
  | _ len ih =>
    subst h
    by_cases ht : m.Takes dir path
    · cases hp : parentDir dir with
      | none =>
        rw [append_top ht hp]
        by_cases hn : n = dir
        · subst hn
          exact Or.inr ⟨ht, Or.inl rfl, _, store_same hdir _, rfl⟩
        · refine Or.inl ⟨store_ne _ hn, fun hu => ?_⟩
          exact hu.2.elim hn (not_updated_top hp)
      | some p =>
        have hlt := parentDir_length hp
        have ih' := ih p.length hlt (m.store dir (m.withLine dir path)) p dir (parentDir_ne_nil hp) rfl
        rw [takes_store _ hlt, updated_store _ hlt.le] at ih'
        rw [append_up ht hp, updated_up hp]
        rcases ih' with ⟨e, hno⟩ | ⟨ht', hn, g, e, hg⟩
        · by_cases hn : n = dir
          · subst hn
            exact Or.inr ⟨ht, Or.inl rfl, _, e.trans (store_same hdir _), rfl⟩
          · refine Or.inl ⟨e.trans (store_ne _ hn), fun hu => ?_⟩
            exact hu.2.elim hn hno
        · exact Or.inr ⟨ht, Or.inr ⟨ht', hn⟩, g, e, hg⟩
    · rw [append_of_not_takes ht]
      exact Or.inl ⟨rfl, fun h => ht h.1⟩

/-! ### Replacing a file -/

lemma write_top {name : CStr} (f : File) (hp : parentDir name = none) :
    m.write name f = m.store name f := by
  unfold write
  rw [hp]

/-- A write whose parent does not take the line changes one file. -/
lemma write_of_not_takes {name p : CStr} (f : File) (hp : parentDir name = some p)
    (h : ¬ m.Takes p name) : m.write name f = m.store name f := by
  unfold write
  rw [hp]
  exact append_of_not_takes fun h' => h ((takes_store f (parentDir_length hp)).mp h')

/-- A write whose parent takes the line, but not the directory above, changes two files. -/
lemma write_of_takes {name p : CStr} {g : File} (f : File) (hp : parentDir name = some p)
    (hg : m p = some g) (h : m.Takes p name) (hup : ∀ q, parentDir p = some q → ¬ m.Takes q p) :
    m.write name f = (m.store name f).store p ⟨fsDir, g.bytes ++ line name⟩ := by
  have hlt := parentDir_length hp
  have ht := (takes_store f hlt).mpr h
  have hline : (m.store name f).withLine p name = ⟨fsDir, g.bytes ++ line name⟩ := by
    unfold withLine
    rw [store_ne f fun e => by rw [e] at hlt; exact lt_irrefl _ hlt, hg]
    rfl
  unfold write
  rw [hp]
  cases hq : parentDir p with
  | none => exact (append_top ht hq).trans (by rw [hline])
  | some q =>
    have hqlt := parentDir_length hq
    refine (append_up ht hq).trans ?_
    rw [hline, append_of_not_takes]
    rw [takes_store _ hqlt, takes_store _ (hqlt.trans hlt)]
    exact hup q hq

/-- **A write changes the file itself and the directories it updates**, and makes each of these a
directory. -/
theorem write_apply (m : FileMap) (name n : CStr) (f : File) :
    (m.write name f n = m.store name f n ∧ ¬ m.Updated n name) ∨
      (m.Updated n name ∧ ∃ g, m.write name f n = some g ∧ g.type = fsDir) := by
  unfold write
  cases hp : parentDir name with
  | none => exact Or.inl ⟨rfl, not_updated_top hp⟩
  | some p =>
    have hlt := parentDir_length hp
    have h := append_apply (m.store name f) p name n (parentDir_ne_nil hp)
    rw [takes_store f hlt, updated_store f hlt.le, ← and_assoc, ← updated_up hp] at h
    exact h

end FileMap

end LunariaOS.Fs
