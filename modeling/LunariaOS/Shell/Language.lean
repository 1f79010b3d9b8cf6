import LunariaOS.Fs.Exit
import LunariaOS.Shell.Commands

namespace LunariaOS.Shell

open LunariaOS.Lib LunariaOS.Fs
open LunariaOS.Wm (vgaColor black green red)
open LunariaOS.Wm.State (text)

/-! ### What a line means -/

section Obey

variable {σ : Type} (F : Files σ)

/-- The place of the first `>` behind the first word. -/
def redirection (argv : List CStr) : Option ℕ :=
  (List.range' 1 (argv.length - 1)).find? fun i => (arg argv i).bytes = [62]

/-- What a redirection writes. -/
def content (argv : List CStr) (i : ℕ) : List UInt8 :=
  unescape ([32].intercalate (((argv.drop 1).take (i - 1)).map CStr.bytes))

/-- What a line of words means. -/
def obey : Command σ := fun env argv s =>
  if argv.length = 0 then ([], s)
  else
    match redirection argv with
    | none => runCommand F env argv s
    | some i =>
      if i + 1 ≥ argv.length then
        ([.print (text "usage: <cmd> ... > <file>\n") (vgaColor black red)], s)
      else
        let name := arg argv (i + 1)
        let r := F.write name (content argv i) s
        (if r.1 then [.print (text "wrote ") (vgaColor black green), .print name.bytes (vgaColor black green),
            .print (text "\n") (vgaColor black green)]
          else [.print (text "write failed\n") (vgaColor black red)], r.2)

end Obey

/-- The words that `parse_line` finds, as strings. -/
def typedWords (line : Mem) : List CStr :=
  match parseLine line with
  | none => []
  | some (argv, line) => argv.map (wordAt line)

/-- A line of words as they are typed: none is empty, and they are few and short. -/
structure Sentence (argv : List CStr) : Prop where
  word : ∀ w ∈ argv, w.bytes ≠ []
  short : ∀ i, (content argv i).length < cmdBufSize
  few : argv.length ≤ maxArgs

section Execute

variable {line : Mem} {n : ℕ}

/-- The words of a line that has been typed, with what the loops of `execute` need of them. -/
lemma typedWords_spec (h : Typed line n) : ∃ l : List (ℕ × ℕ), (∀ v ∈ l, Word line n v) ∧
    (l.Pairwise fun v w => v.2 < w.1) ∧
    parseLine line = some (l.map Prod.fst, cut (l.map Prod.snd) line) ∧
    typedWords line = l.map (fun w => wordAt (cut (l.map Prod.snd) line) w.1) ∧
    (typedWords line).map CStr.bytes = l.map (spell line) ∧
    ∃ all, Words line n 0 all ∧ l = all.take maxArgs := by
  obtain ⟨all, hall⟩ := words_exist h
  have hl : ∀ v ∈ all.take maxArgs, Word line n v := fun v hv =>
    ((hall.mem v).mp (List.mem_of_mem_take hv)).1
  have hparse : parseLine line =
      some ((all.take maxArgs).map Prod.fst, cut ((all.take maxArgs).map Prod.snd) line) :=
    parseWords_eq h maxArgs (Nat.zero_le n) (fun _ => Or.inl rfl) hall fun _ _ => rfl
  refine ⟨all.take maxArgs, hl, hall.sorted.sublist (List.take_sublist _ _), hparse, ?_, ?_,
    all, hall, rfl⟩
  · unfold typedWords
    rw [hparse]
    exact List.map_map
  · unfold typedWords
    rw [hparse]
    dsimp only
    rw [List.map_map, List.map_map]
    exact List.map_congr_left fun w hw => wordAt_word h hl hw

lemma content_words {argv : List CStr} {l : List (ℕ × ℕ)}
    (h : argv.map CStr.bytes = l.map (spell line)) (i : ℕ) :
    content argv i = unescape ([32].intercalate (((l.drop 1).take (i - 1)).map (spell line))) := by
  unfold content
  rw [List.map_take, List.map_drop, h, ← List.map_drop, ← List.map_take]

lemma typedWords_sentence (h : Typed line n) : Sentence (typedWords line) := by
  obtain ⟨l, hl, hs, -, hwords, hbytes, all, -, hall⟩ := typedWords_spec h
  constructor
  · intro w hw
    rw [hwords] at hw
    obtain ⟨v, hv, rfl⟩ := List.mem_map.mp hw
    rw [wordAt_word h hl hv]
    have := (hl v hv).nonempty
    intro he
    have hlen := congrArg List.length he
    unfold spell at hlen
    rw [bytes_length, List.length_nil] at hlen
    omega
  · intro i
    obtain ⟨t, -, htext, hroom⟩ := joinArgs_words h hl
      (fun w hw => List.mem_of_mem_drop (List.mem_of_mem_take hw))
      (hs.sublist ((List.take_sublist (i - 1) _).trans (List.drop_sublist 1 _))) fun _ => 0
    rw [content_words hbytes, ← htext]
    unfold Content.text
    rw [bytes_length]
    exact hroom
  · rw [hwords, List.length_map, hall]
    exact List.length_take_le _ _

/-- **`execute` does what the words of the line mean.** -/
lemma execute_obeys (h : Typed line n) (program : CStr → List CStr → Disk → Disk) (env : Env)
    (sb : Superblock) (junk : Mem) (d : Disk) :
    executeLine program env sb junk line d =
      some (obey (onDisk sb program) env (typedWords line) d) := by
  obtain ⟨l, hl, hs, hparse, hwords, hbytes, -⟩ := typedWords_spec h
  have hlen : (typedWords line).length = l.length := by rw [hwords, List.length_map]
  have harg : ∀ k, k < l.length →
      arg (typedWords line) k = wordAt (cut (l.map Prod.snd) line) ((l.map Prod.fst).getD k 0) := by
    intro k hk
    unfold arg
    rw [List.getD_eq_getElem _ _ (by omega), List.getD_eq_getElem _ _ (by simpa using hk)]
    simp only [hwords, List.getElem_map]
  have hfind : ((List.range' 1 (l.length - 1)).find? fun k =>
      strcmp (rest (cut (l.map Prod.snd) line) ((l.map Prod.fst).getD k 0)) [62] = 0) =
        redirection (typedWords line) := by
    unfold redirection
    rw [hlen]
    refine List.find?_congr fun k hk => ?_
    have hk := List.mem_range'_1.mp hk
    rw [decide_eq_decide, redirect_iff h hl (by omega), target_word h hl (by omega),
      harg k (by omega), Option.some_inj]
  unfold executeLine execute obey
  rw [hparse, Option.bind_some]
  dsimp only
  rw [hlen, List.length_map, hfind]
  by_cases h0 : l.length = 0
  · rw [if_pos h0, if_pos h0]
    rfl
  rw [if_neg h0, if_neg h0]
  cases hr : redirection (typedWords line) with
  | none =>
    rw [Option.map_some, hwords]
    dsimp only
    rw [List.map_map]
    rfl
  | some i =>
    dsimp only
    by_cases hi : i + 1 ≥ l.length
    · rw [if_pos hi, if_pos hi]
      rfl
    rw [if_neg hi, if_neg hi]
    have hsub : ∀ w ∈ (l.drop 1).take (i - 1), w ∈ l := fun w hw =>
      List.mem_of_mem_drop (List.mem_of_mem_take hw)
    obtain ⟨t, ht, htext, hroom⟩ := joinArgs_words h hl hsub
      (hs.sublist ((List.take_sublist _ _).trans (List.drop_sublist _ _))) junk
    have hcontent : content (typedWords line) i = bytes t.mem 0 t.len :=
      (content_words hbytes i).trans htext.symm
    rw [List.map_take, List.map_drop] at ht
    have hwrite : (onDisk sb program).write (arg (typedWords line) (i + 1)) (bytes t.mem 0 t.len) d =
        (decide ((fsWrite sb (arg (typedWords line) (i + 1)) fsFile (Function.update t.mem t.len 0)
          t.len d).1 = 0),
        (fsWrite sb (arg (typedWords line) (i + 1)) fsFile (Function.update t.mem t.len 0) t.len d).2) := by
      have hsame : fsWrite sb (arg (typedWords line) (i + 1)) fsFile
          (fun k => (bytes t.mem 0 t.len).getD k 0) t.len d =
          fsWrite sb (arg (typedWords line) (i + 1)) fsFile (Function.update t.mem t.len 0) t.len d := by
        refine fsWrite_congr (fun x hx => ?_) sb _ _ d
        unfold bytes
        rw [Function.update_of_ne (by omega), List.getD_eq_getElem _ _ (by simpa using hx),
          List.getElem_map, List.getElem_range, Nat.zero_add]
      unfold onDisk
      dsimp only
      rw [bytes_length, hsame]
    rw [ht, Option.bind_some]
    unfold Content.push
    rw [if_pos hroom, Option.map_some, Option.map_some, ← harg (i + 1) (by omega), hcontent, hwrite]
    unfold Ran.wrote
    dsimp only
    generalize fsWrite sb (arg (typedWords line) (i + 1)) fsFile (Function.update t.mem t.len 0)
      t.len d = r
    by_cases hrc : r.1 = 0
    · simp [hrc]
    · simp [hrc]

end Execute

/-! ### Two stores -/

/-- What can be said of an act without the sectors of the disk: the listing of the root, whose lines
stand in the order of the slots, and a sector are left out. -/
def Act.plain : Act → Act
  | .listed _ => .listed []
  | .sector _ => .sector []
  | a => a

/-- The calls of one store do on the results what those of the other do, and keep `R`; a call that
writes uses up one of the writes that `R` counts. -/
structure Files.Sim {σ τ : Type} (F : Files σ) (G : Files τ) (R : ℕ → σ → τ → Prop) : Prop where
  mono : ∀ {j k s t}, R k s t → j ≤ k → R j s t
  write : ∀ {k s t} name {text}, R (k + 1) s t → text.length < cmdBufSize →
    (F.write name text s).1 = (G.write name text t).1 ∧
      R k (F.write name text s).2 (G.write name text t).2
  mkdir : ∀ {k s t} name, R (k + 1) s t →
    (F.mkdir name s).1 = (G.mkdir name t).1 ∧ R k (F.mkdir name s).2 (G.mkdir name t).2
  delete : ∀ {k s t} name, R k s t →
    (F.delete name s).1 = (G.delete name t).1 ∧ R k (F.delete name s).2 (G.delete name t).2
  cat : ∀ {k s t} name, R k s t → (F.cat name s).1 = (G.cat name t).1 ∧
    (F.cat name s).2.1 = (G.cat name t).2.1 ∧ R k (F.cat name s).2.2 (G.cat name t).2.2
  ls : ∀ {k s t} {name : CStr}, R k s t → name.bytes ≠ [] → (F.ls name s).1 = (G.ls name t).1 ∧
    (F.ls name s).2.1 = (G.ls name t).2.1 ∧ R k (F.ls name s).2.2 (G.ls name t).2.2
  lsRoot : ∀ {k s t}, R k s t → R k (F.lsRoot s).2 (G.lsRoot t).2
  sector : ∀ {k s t} lba, R k s t → (F.sector lba s).1.isSome = (G.sector lba t).1.isSome ∧
    R k (F.sector lba s).2 (G.sector lba t).2
  program : ∀ {k s t} name argv, R (k + 1) s t → R k (F.program name argv s) (G.program name argv t)

/-- A search finds related elements in related lists. -/
lemma find_forall₂ {α β : Type} {r : α → β → Prop} {p : α → Bool} {q : β → Bool}
    (hpq : ∀ {a b}, r a b → p a = q b) {l : List α} {l' : List β} (h : List.Forall₂ r l l') :
    Option.Rel r (l.find? p) (l'.find? q) := by
  induction h with
  | nil => exact .none
  | cons hab _ ih =>
    rw [List.find?_cons, List.find?_cons, hpq hab]
    split
    · exact .some hab
    · exact ih

section Sim

variable {σ τ : Type} {F : Files σ} {G : Files τ} {R : ℕ → σ → τ → Prop}

/-- Two commands show the same, and keep `R`. -/
def Command.Sim (R : ℕ → σ → τ → Prop) (c : Command σ) (c' : Command τ) : Prop :=
  ∀ env argv k s t, Sentence argv → R (k + argv.length) s t →
    (c env argv s).1.map Act.plain = (c' env argv t).1.map Act.plain ∧
      R k (c env argv s).2 (c' env argv t).2

lemma Sentence.arg {argv : List CStr} (h : Sentence argv) {i : ℕ} (hi : i < argv.length) :
    (Shell.arg argv i).bytes ≠ [] := by
  unfold Shell.arg
  rw [List.getD_eq_getElem _ _ hi]
  exact h.word _ (List.getElem_mem hi)

variable (h : F.Sim G R)

include h

/-- A command that does not look at the files. -/
lemma quiet_sim {c : Command σ} {c' : Command τ} (acts : Env → List CStr → List Act)
    (hc : ∀ env argv s, c env argv s = (acts env argv, s))
    (hc' : ∀ env argv t, c' env argv t = (acts env argv, t)) : Command.Sim R c c' := by
  intro env argv k s t _ hR
  rw [hc, hc']
  exact ⟨rfl, h.mono hR (Nat.le_add_right _ _)⟩

lemma mkdirWords_sim (names : List CStr) {k : ℕ} {s : σ} {t : τ}
    (hR : R (k + names.length) s t) :
    (mkdirWords F names s).1 = (mkdirWords G names t).1 ∧
      R k (mkdirWords F names s).2 (mkdirWords G names t).2 := by
  induction names generalizing s t with
  | nil => exact ⟨rfl, hR⟩
  | cons name names ih =>
    obtain ⟨hok, hR'⟩ := h.mkdir name (hR : R (k + names.length + 1) s t)
    obtain ⟨hacts, hR''⟩ := ih hR'
    refine ⟨?_, hR''⟩
    simp only [mkdirWords, hok, hacts]

lemma cmdMkdir_sim : Command.Sim R (cmdMkdir F) (cmdMkdir G) := by
  intro env argv k s t _ hR
  obtain ⟨hacts, hR'⟩ := mkdirWords_sim h (argv.drop 1) (k := k) (h.mono hR (by
    rw [List.length_drop]
    omega))
  exact ⟨congrArg _ hacts, hR'⟩

lemma cmdRm_sim : Command.Sim R (cmdRm F) (cmdRm G) := by
  intro env argv k s t _ hR
  have hR := h.mono hR (Nat.le_add_right k _)
  unfold cmdRm
  split_ifs
  · exact ⟨rfl, hR⟩
  · obtain ⟨hok, hR'⟩ := h.delete (arg argv 1) hR
    exact ⟨by simp only [hok], hR'⟩

lemma cmdCat_sim : Command.Sim R (cmdCat F) (cmdCat G) := by
  intro env argv k s t _ hR
  have hR := h.mono hR (Nat.le_add_right k _)
  unfold cmdCat
  split_ifs
  · exact ⟨rfl, hR⟩
  · obtain ⟨hok, htext, hR'⟩ := h.cat (arg argv 1) hR
    exact ⟨by simp only [hok, htext], hR'⟩

lemma cmdLs_sim : Command.Sim R (cmdLs F) (cmdLs G) := by
  intro env argv k s t hs hR
  have hR := h.mono hR (Nat.le_add_right k _)
  unfold cmdLs
  split_ifs with hlen
  · obtain ⟨hok, htext, hR'⟩ := h.ls hR (hs.arg hlen)
    exact ⟨by simp only [hok, htext], hR'⟩
  · exact ⟨rfl, h.lsRoot hR⟩

lemma cmdRead_sim : Command.Sim R (cmdRead F) (cmdRead G) := by
  intro env argv k s t _ hR
  have hR := h.mono hR (Nat.le_add_right k _)
  unfold cmdRead
  split_ifs
  · exact ⟨rfl, hR⟩
  · obtain ⟨hsome, hR'⟩ := h.sector (atoi (arg argv 1) % 4294967296).toNat hR
    rcases hF : F.sector (atoi (arg argv 1) % 4294967296).toNat s with ⟨_ | a, s'⟩ <;>
      rcases hG : G.sector (atoi (arg argv 1) % 4294967296).toNat t with ⟨_ | b, t'⟩ <;>
      rw [hF, hG] at hsome hR'
    · exact ⟨rfl, hR'⟩
    · cases hsome
    · cases hsome
    · exact ⟨rfl, hR'⟩

lemma cmdRun_sim : Command.Sim R (cmdRun F) (cmdRun G) := by
  intro env argv k s t _ hR
  unfold cmdRun
  split_ifs with hlen
  · exact ⟨rfl, h.mono hR (Nat.le_add_right _ _)⟩
  · exact ⟨rfl, h.program _ _ (h.mono hR (by omega))⟩

lemma cmdEcho_sim : Command.Sim R (@cmdEcho σ) (@cmdEcho τ) := by
  intro env argv k s t _ hR
  unfold cmdEcho
  split_ifs <;> exact ⟨rfl, h.mono hR (Nat.le_add_right _ _)⟩

lemma cmdSleep_sim : Command.Sim R (@cmdSleep σ) (@cmdSleep τ) := by
  intro env argv k s t _ hR
  unfold cmdSleep
  split_ifs <;> exact ⟨rfl, h.mono hR (Nat.le_add_right _ _)⟩

/-- The two tables have the same names, and commands that show the same. -/
lemma commands_sim : List.Forall₂ (fun c c' => c.1 = c'.1 ∧ Command.Sim R c.2 c'.2) (commands F)
    (commands G) := by
  have quiet {c : Command σ} {c' : Command τ} := @quiet_sim σ τ F G R h c c'
  unfold commands
  refine .cons ⟨rfl, quiet _ (fun _ _ _ => rfl) fun _ _ _ => rfl⟩ <|
    .cons ⟨rfl, quiet _ (fun _ _ _ => rfl) fun _ _ _ => rfl⟩ <|
    .cons ⟨rfl, cmdEcho_sim h⟩ <| .cons ⟨rfl, cmdRead_sim h⟩ <|
    .cons ⟨rfl, quiet _ (fun _ _ _ => rfl) fun _ _ _ => rfl⟩ <|
    .cons ⟨rfl, quiet _ (fun _ _ _ => rfl) fun _ _ _ => rfl⟩ <|
    .cons ⟨rfl, cmdLs_sim h⟩ <| .cons ⟨rfl, cmdCat_sim h⟩ <| .cons ⟨rfl, cmdRm_sim h⟩ <|
    .cons ⟨rfl, cmdMkdir_sim h⟩ <| .cons ⟨rfl, cmdRun_sim h⟩ <|
    .cons ⟨rfl, quiet _ (fun _ _ _ => rfl) fun _ _ _ => rfl⟩ <|
    .cons ⟨rfl, cmdSleep_sim h⟩ <|
    .cons ⟨rfl, quiet _ (fun _ _ _ => rfl) fun _ _ _ => rfl⟩ <|
    .cons ⟨rfl, quiet _ (fun _ _ _ => rfl) fun _ _ _ => rfl⟩ .nil

lemma runCommand_sim : Command.Sim R (runCommand F) (runCommand G) := by
  intro env argv k s t hs hR
  have hfind := find_forall₂ (p := fun c => strcmp (arg argv 0).bytes c.1 = 0)
    (q := fun c => strcmp (arg argv 0).bytes c.1 = 0) (fun hc => by rw [hc.1]) (commands_sim h)
  unfold runCommand
  revert hfind
  generalize ((commands F).find? fun c => strcmp (arg argv 0).bytes c.1 = 0) = c
  generalize ((commands G).find? fun c => strcmp (arg argv 0).bytes c.1 = 0) = c'
  rintro (⟨hc⟩ | _)
  · exact hc.2 env argv k s t hs hR
  · exact ⟨rfl, h.mono hR (Nat.le_add_right _ _)⟩

/-- **A line means the same over both stores.** -/
theorem obey_sim : Command.Sim R (obey F) (obey G) := by
  intro env argv k s t hs hR
  have hless := h.mono hR (Nat.le_add_right k _)
  unfold obey
  split_ifs with h0
  · exact ⟨rfl, hless⟩
  cases redirection argv with
  | none => exact runCommand_sim h env argv k s t hs hR
  | some i =>
    dsimp only
    by_cases hi : i + 1 ≥ argv.length
    · rw [if_pos hi, if_pos hi]
      exact ⟨rfl, hless⟩
    · rw [if_neg hi, if_neg hi]
      have hone : R (k + 1) s t := h.mono hR (by omega)
      obtain ⟨hok, hR'⟩ := h.write (arg argv (i + 1)) hone (hs.short i)
      exact ⟨by simp only [hok], hR'⟩

end Sim

end LunariaOS.Shell
