import LunariaOS.Shell.Desk

/-!
What a line writes to a file is what `cat` shows.

Between the two there may be any lines that name neither the file nor a path below it: a line changes
the files that it names, and the directories above them.
-/

namespace LunariaOS.Shell

open LunariaOS.Lib LunariaOS.Fs
open LunariaOS.Wm (vgaColor black green red)
open LunariaOS.Wm.State (text)

/-! ### Lines about other files -/

/-- A line that names neither `f` nor a path below it. -/
def Elsewhere (f : CStr) (argv : List CStr) : Prop := ∀ w ∈ argv, w ≠ f ∧ ¬ Ancestor f w

section Elsewhere

variable {n : ℕ} {effect : CStr → List CStr → FileMap → FileMap} {f : CStr} {argv : List CStr}

lemma arg_mem {i : ℕ} (h : i < argv.length) : arg argv i ∈ argv := by
  unfold arg
  rw [List.getD_eq_getElem _ _ h]
  exact List.getElem_mem h

lemma write_elsewhere (m : FileMap) {name : CStr} (g : File) (h : name ≠ f ∧ ¬ Ancestor f name) :
    m.write name g f = m f := by
  rcases m.write_apply name f g with ⟨hw, -⟩ | ⟨hu, -⟩
  · rw [hw, FileMap.store_ne _ h.1.symm]
  · exact absurd hu.ancestor h.2

/-- A command leaves `f` alone. -/
def Command.Spares (f : CStr) (c : Command FileMap) : Prop :=
  ∀ env argv m, Elsewhere f argv → (c env argv m).2 f = m f

lemma onMap_ls (name : CStr) (m : FileMap) : ((onMap n effect).ls name m).2.2 = m := by
  unfold onMap
  dsimp only
  cases m name <;> rfl

lemma onMap_cat (name : CStr) (m : FileMap) : ((onMap n effect).cat name m).2.2 = m := by
  unfold onMap
  dsimp only
  cases m name <;> rfl

lemma onMap_write (m : FileMap) {name : CStr} (text : List UInt8) (h : name ≠ f ∧ ¬ Ancestor f name) :
    ((onMap n effect).write name text m).2 f = m f := by
  unfold onMap
  dsimp only
  split_ifs
  · exact write_elsewhere m _ h
  · rfl

lemma quiet_spares {c : Command FileMap} (hc : ∀ env argv m, (c env argv m).2 = m) : c.Spares f :=
  fun env argv m _ => congrFun (hc env argv m) f

lemma cmdMkdir_spares : Command.Spares f (cmdMkdir (onMap n effect)) := by
  intro env argv m h
  have hnames : ∀ w ∈ argv.drop 1, w ≠ f ∧ ¬ Ancestor f w := fun w hw => h w (List.mem_of_mem_drop hw)
  unfold cmdMkdir
  generalize argv.drop 1 = names at hnames
  induction names generalizing m with
  | nil => rfl
  | cons name names ih =>
    have hrest := ih (m := ((onMap n effect).mkdir name m).2) fun w hw => hnames w (List.mem_cons_of_mem _ hw)
    refine hrest.trans ?_
    unfold onMap
    dsimp only
    split_ifs
    · exact write_elsewhere m _ (hnames name List.mem_cons_self)
    · rfl

lemma cmdRm_spares : Command.Spares f (cmdRm (onMap n effect)) := by
  intro env argv m h
  unfold cmdRm
  split_ifs with hlen
  · rfl
  · exact FileMap.erase_ne fun e => (h _ (arg_mem (not_lt.mp hlen))).1 e.symm

variable (heff : ∀ name argv m, effect name argv m f = m f)

include heff

lemma cmdRun_spares : Command.Spares f (cmdRun (onMap n effect)) := by
  intro env argv m _
  unfold cmdRun
  split_ifs
  · rfl
  · exact heff _ _ m

lemma commands_spare : ∀ c ∈ commands (onMap n effect), Command.Spares f c.2 := by
  unfold commands
  simp only [List.forall_mem_cons]
  refine ⟨quiet_spares fun _ _ _ => rfl, quiet_spares fun _ _ _ => rfl, quiet_spares fun _ argv m => ?_,
    quiet_spares fun _ argv m => ?_, quiet_spares fun _ _ _ => rfl, quiet_spares fun _ _ _ => rfl,
    quiet_spares fun _ argv m => ?_, quiet_spares fun _ argv m => ?_, cmdRm_spares, cmdMkdir_spares,
    cmdRun_spares heff, quiet_spares fun _ _ _ => rfl, quiet_spares fun _ argv m => ?_,
    quiet_spares fun _ _ _ => rfl, quiet_spares fun _ _ _ => rfl, List.forall_mem_nil _⟩
  · unfold cmdEcho
    split_ifs <;> rfl
  · unfold cmdRead
    split_ifs <;> rfl
  · unfold cmdLs
    by_cases hlen : argv.length ≥ 2
    · rw [if_pos hlen]
      exact @onMap_ls n effect (arg argv 1) m
    · rw [if_neg hlen]
      rfl
  · unfold cmdCat
    by_cases hlen : argv.length < 2
    · rw [if_pos hlen]
    · rw [if_neg hlen]
      exact @onMap_cat n effect (arg argv 1) m
  · unfold cmdSleep
    split_ifs <;> rfl

/-- **A line leaves the files alone that it does not name**, and that lie above none that it names. -/
lemma obey_spares : Command.Spares f (obey (onMap n effect)) := by
  intro env argv m h
  unfold obey
  split_ifs with h0
  · rfl
  cases redirection argv with
  | none =>
    dsimp only
    unfold runCommand
    cases hc : (commands (onMap n effect)).find? fun c => strcmp (arg argv 0).bytes c.1 = 0 with
    | none => rfl
    | some c => exact commands_spare heff c (List.mem_of_find?_eq_some hc) env argv m h
  | some i =>
    dsimp only
    by_cases hi : i + 1 ≥ argv.length
    · rw [if_pos hi]
    · rw [if_neg hi]
      exact onMap_write m _ (h _ (arg_mem (not_le.mp hi)))

end Elsewhere

/-! ### The text -/

lemma unescape_noNul : ∀ l : List UInt8, 0 ∉ l → 0 ∉ unescape l
  | [], h => h
  | [b], h => h
  | b :: c :: l, h => by
    have hl : 0 ∉ l := fun h0 => h (List.mem_cons_of_mem _ (List.mem_cons_of_mem _ h0))
    have hrest := unescape_noNul l hl
    have hcl := unescape_noNul (c :: l) fun h0 => h (List.mem_cons_of_mem _ h0)
    have hb : (0 : UInt8) ≠ b := fun e => h (e ▸ List.mem_cons_self)
    unfold unescape
    split_ifs
    all_goals
      rw [List.mem_cons, not_or]
      first | exact ⟨by decide, hrest⟩ | exact ⟨hb, hcl⟩

/-- What is written to a file has no NUL. -/
lemma content_noNul (argv : List CStr) (i : ℕ) : 0 ∉ content argv i := by
  unfold content
  refine unescape_noNul _ ?_
  generalize (argv.drop 1).take (i - 1) = ws
  cases ws with
  | nil => exact List.not_mem_nil
  | cons w ws =>
    rw [List.map_cons, intercalate_cons, List.mem_append, List.mem_flatMap, not_or]
    refine ⟨w.noNul, ?_⟩
    rintro ⟨v, hv, h0⟩
    obtain ⟨u, -, rfl⟩ := List.mem_map.mp hv
    rcases List.mem_cons.mp h0 with h0 | h0
    · cases h0
    · exact u.noNul h0

lemma catText_self {l : List UInt8} (h : 0 ∉ l) (hlen : l.length ≤ 512) : catText l = l := by
  by_cases hl : l = []
  · rw [hl, catText, if_pos rfl]
  · have happ := catText_append hl hlen (Or.inl rfl : ([] : List UInt8) = [] ∨ l.length = 512)
    rw [List.append_nil] at happ
    have hnil : catText [] = [] := by rw [catText, if_pos rfl]
    rw [happ, hnil, List.append_nil]
    exact cstr_bytes ⟨l, h⟩

/-! ### Lines on the disk -/

/-- A line that is entered: the numbers of its moment, what `content` holds before, and the buffer. -/
structure Entered where
  env : Env
  junk : Mem
  line : Mem

/-- The disk after a line. -/
def Entered.exec (program : CStr → List CStr → Disk → Disk) (sb : Superblock) (d : Disk) (e : Entered) :
    Disk :=
  ((executeLine program e.env sb e.junk e.line d).map Prod.snd).getD d

/-- The word `cat`. -/
def catWord : CStr := ⟨text "cat", by decide⟩

/-- What `cat` and a name mean, unless the name is taken for a redirection. -/
lemma obey_cat {σ : Type} (F : Files σ) (env : Env) {f : CStr} (hf : f.bytes ≠ [62]) (s : σ) :
    obey F env [catWord, f] s = cmdCat F env [catWord, f] s := by
  have hnone : redirection [catWord, f] = none := by
    unfold redirection
    refine List.find?_eq_none.mpr fun i hi => ?_
    obtain rfl : i = 1 := by
      have := List.mem_range'_1.mp hi
      simp only [List.length_cons, List.length_nil] at this
      omega
    simpa [arg] using hf
  have hfind : ((commands F).find? fun c => strcmp (arg [catWord, f] 0).bytes c.1 = 0) =
      some (text "cat", cmdCat F) := by
    rfl
  unfold obey
  rw [if_neg (by simp), hnone]
  dsimp only
  unfold runCommand
  rw [hfind]

section Lines

variable {sb : Superblock} {program : CStr → List CStr → Disk → Disk}
  {effect : CStr → List CStr → FileMap → FileMap} {f : CStr}
  (hprog : ∀ {k d m} name argv, Backed sb (k + 1) d m →
    Backed sb k (program name argv d) (effect name argv m))

include hprog

lemma exec_backed {e : Entered} {n : ℕ} (he : Typed e.line n) {k : ℕ} {d : Disk} {m : FileMap}
    (h : Backed sb (k + maxArgs) d m) : Backed sb k (e.exec program sb d)
      (obey (onMap (slotCount sb) effect) e.env (typedWords e.line) m).2 := by
  have hs := typedWords_sentence he
  unfold Entered.exec
  rw [execute_obeys he]
  exact (obey_sim (onDisk_sim hprog) e.env _ k d m hs
    (h.mono (Nat.add_le_add_left hs.few k))).2

variable (heff : ∀ name argv m, effect name argv m f = m f)

include heff

/-- Lines about other files leave a file of the map alone. -/
lemma run_spares {es : List Entered}
    (hes : ∀ e ∈ es, (∃ n, Typed e.line n) ∧ Elsewhere f (typedWords e.line)) {k : ℕ} {d : Disk}
    {m : FileMap} (h : Backed sb (k + maxArgs * es.length) d m) :
    ∃ m', Backed sb k (run (Entered.exec program sb) d es) m' ∧ m' f = m f := by
  induction es generalizing d m with
  | nil => exact ⟨m, h, rfl⟩
  | cons e es ih =>
    obtain ⟨⟨n, hn⟩, helse⟩ := hes e List.mem_cons_self
    rw [List.length_cons, Nat.mul_succ, ← Nat.add_assoc] at h
    obtain ⟨m', hb, hm⟩ := ih (fun e he => hes e (List.mem_cons_of_mem _ he)) (exec_backed hprog hn h)
    exact ⟨m', hb, hm.trans (obey_spares heff _ _ m helse)⟩

omit hprog heff in
/-- A redirection on the disk: it fails and changes nothing, or the file has what is written. -/
lemma redirect_backed {e : Entered} {n : ℕ} (he : Typed e.line n) {i : ℕ}
    (hi : redirection (typedWords e.line) = some i) (hlt : i + 1 < (typedWords e.line).length) {k : ℕ}
    {d : Disk} {m : FileMap} (h : Backed sb (k + maxArgs) d m) :
    executeLine program e.env sb e.junk e.line d =
        some ([.print (text "write failed\n") (vgaColor black red)], d) ∨
      ∃ m', Backed sb k (e.exec program sb d) m' ∧
        m' (arg (typedWords e.line) (i + 1)) = some ⟨fsFile, content (typedWords e.line) i⟩ := by
  have hs := typedWords_sentence he
  have hne := hs.arg hlt
  have hobey : obey (onDisk sb program) e.env (typedWords e.line) d =
      (if ((onDisk sb program).write (arg (typedWords e.line) (i + 1)) (content (typedWords e.line) i) d).1 then
          [.print (text "wrote ") (vgaColor black green),
            .print (arg (typedWords e.line) (i + 1)).bytes (vgaColor black green),
            .print (text "\n") (vgaColor black green)]
        else [.print (text "write failed\n") (vgaColor black red)],
        ((onDisk sb program).write (arg (typedWords e.line) (i + 1)) (content (typedWords e.line) i) d).2) := by
    unfold obey
    rw [if_neg (by omega), hi]
    dsimp only
    rw [if_neg (by omega)]
  unfold Entered.exec
  rw [execute_obeys he, hobey]
  have hone : Backed sb (k + 1) d m := h.mono (Nat.add_le_add_left (by decide) k)
  rcases onDisk_write program hone (arg (typedWords e.line) (i + 1)) (hs.short i) with ⟨-, hok, hb⟩ | ⟨-, hfail⟩
  · refine Or.inr ⟨_, hb, ?_⟩
    rcases FileMap.write_apply m (arg (typedWords e.line) (i + 1)) (arg (typedWords e.line) (i + 1))
      ⟨fsFile, content (typedWords e.line) i⟩ with ⟨hw, -⟩ | ⟨hu, -⟩
    · rw [hw, FileMap.store_same hne]
    · exact absurd rfl hu.ancestor.ne
  · left
    rw [hfail]
    rfl

/-- **`cat` shows what a redirection has written**, whatever lines there are between that name neither
the file nor a path below it. -/
theorem written_shows {e : Entered} {n : ℕ} (he : Typed e.line n) {i : ℕ}
    (hi : redirection (typedWords e.line) = some i) (hlt : i + 1 < (typedWords e.line).length)
    (hf : f = arg (typedWords e.line) (i + 1)) (hname : f.bytes ≠ [62]) {es : List Entered}
    (hes : ∀ e ∈ es, (∃ n, Typed e.line n) ∧ Elsewhere f (typedWords e.line)) {c : Entered} {l : ℕ}
    (hc : Typed c.line l) (hcat : typedWords c.line = [catWord, f]) {d : Disk} {m : FileMap}
    (h : Backed sb (maxArgs * (es.length + 1)) d m) :
    executeLine program e.env sb e.junk e.line d =
        some ([.print (text "write failed\n") (vgaColor black red)], d) ∨
      executeLine program c.env sb c.junk c.line (run (Entered.exec program sb) d (e :: es)) =
        some ([.shown (content (typedWords e.line) i ++ [10])],
          run (Entered.exec program sb) d (e :: es)) := by
  rw [Nat.mul_succ] at h
  refine (redirect_backed he hi hlt h).imp_right ?_
  rintro ⟨m₁, hb₁, hm₁⟩
  rw [← hf] at hm₁
  rw [run_cons]
  obtain ⟨m₂, hb₂, hm₂⟩ := run_spares hprog heff hes (k := 0) (by rwa [Nat.zero_add])
  rw [hm₁] at hm₂
  have hlen := (typedWords_sentence he).short i
  have hview := fsCat_view hb₂.ok f
  rw [hb₂.view_eq, hm₂] at hview
  obtain ⟨hrc, hout, hdisk⟩ := hview
  rw [execute_obeys hc, hcat, obey_cat _ _ hname]
  unfold cmdCat
  rw [if_neg (by simp)]
  have hcall : (onDisk sb program).cat f (run (Entered.exec program sb) (e.exec program sb d) es) =
      (true, content (typedWords e.line) i ++ [10],
        run (Entered.exec program sb) (e.exec program sb d) es) := by
    unfold onDisk
    dsimp only
    rw [hrc, hout, hdisk, catText_self (content_noNul _ _) (hlen.le.trans (by decide))]
    rfl
  have harg : arg [catWord, f] 1 = f := rfl
  rw [harg, hcall]
  rfl

end Lines

/-- A line that is typed on an empty terminal. -/
def enter (keys : List ℤ) : Entered :=
  ⟨⟨0, 0, 0, 0, 0⟩, fun _ => 0, (run Input.key ⟨fun _ => 0, 0⟩ keys).line⟩

lemma enter_typed (keys : List ℤ) :
    Typed (enter keys).line (run Input.key ⟨fun _ => 0, 0⟩ keys).len := input_typed _ keys

/-- The words of a line that is typed. -/
lemma enter_words {keys : List ℤ} {ws : List CStr}
    (h : argvOf (bytes (enter keys).line 0 (run Input.key ⟨fun _ => 0, 0⟩ keys).len) = ws) :
    typedWords (enter keys).line = ws := (typedWords_text (enter_typed keys)).trans h

/-- `echo a > f`, `mkdir d` and `cat f`. -/
theorem written_shows_echo :
    let e := enter [101, 99, 104, 111, 32, 97, 32, 62, 32, 102]
    let s := enter [109, 107, 100, 105, 114, 32, 100]
    let c := enter [99, 97, 116, 32, 102]
    let exec := Entered.exec (fun _ _ d => d) blank.sb
    executeLine (fun _ _ d => d) e.env blank.sb e.junk e.line blank.disk =
        some ([.print (text "write failed\n") (vgaColor black red)], blank.disk) ∨
      executeLine (fun _ _ d => d) c.env blank.sb c.junk c.line (run exec blank.disk [e, s]) =
        some ([.shown (content (typedWords e.line) 2 ++ [10])], run exec blank.disk [e, s]) := by
  have he : typedWords (enter [101, 99, 104, 111, 32, 97, 32, 62, 32, 102]).line =
      [⟨[101, 99, 104, 111], by decide⟩, ⟨[97], by decide⟩, ⟨[62], by decide⟩, pathF] :=
    enter_words (by decide +kernel)
  have hs : typedWords (enter [109, 107, 100, 105, 114, 32, 100]).line =
      [⟨[109, 107, 100, 105, 114], by decide⟩, pathD] := enter_words (by decide +kernel)
  have hc : typedWords (enter [99, 97, 116, 32, 102]).line = [catWord, pathF] :=
    enter_words (by decide +kernel)
  refine @written_shows blank.sb (fun _ _ d => d) (fun _ _ m => m) pathF
    (fun _ _ h => h.mono (Nat.le_succ _)) (fun _ _ _ => rfl) _ _ (enter_typed _) 2
    (by rw [he]; decide) (by rw [he]; decide) (by rw [he]; rfl) (by decide) _
    (fun e he => ?_) _ _ (enter_typed _) hc _ (fun _ => none) (blank_backed (by decide))
  obtain rfl := List.mem_singleton.mp he
  refine ⟨⟨_, enter_typed _⟩, fun w hw => ?_⟩
  rw [hs] at hw
  have hone : ∀ w : CStr, parentDir w = none → ¬ Ancestor pathF w := fun w hnone ha => by
    obtain ⟨p, hp, -⟩ := (ancestor_iff pathF w).mp ha
    rw [hnone] at hp
    cases hp
  rcases List.mem_pair.mp hw with rfl | rfl
  · exact ⟨by decide, hone _ (by decide)⟩
  · exact ⟨by decide, hone _ (by decide)⟩

end LunariaOS.Shell
