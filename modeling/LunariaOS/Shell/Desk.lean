import LunariaOS.Fs.Store
import LunariaOS.Shell.Language

/-!
The shell over a map of files.

From the keys on: each terminal has a text, which a key lengthens or shortens, and enter takes its words
for a command. The shell over the disk does what the shell over a map from paths to files does, with a
bound on their number, and the disk holds the map all the time (`desk_refines`).
-/

namespace LunariaOS.Shell

open LunariaOS.Lib LunariaOS.Fs
open LunariaOS.Wm (termBufSize)
open LunariaOS.Wm.State (workspaceOf)

/-! ### The map as a store -/

open Classical in
/-- The calls on a map with room for `n` files, and what a program does to the map. -/
noncomputable def onMap (n : ℕ) (program : CStr → List CStr → FileMap → FileMap) : Files FileMap where
  write name text m :=
    if m.Storable n name then (true, m.write name ⟨fsFile, text⟩) else (false, m)
  mkdir name m := if m.Storable n name then (true, m.write name ⟨fsDir, []⟩) else (false, m)
  delete name m := ((m name).isSome, m.erase name)
  cat name m :=
    match m name with
    | none => (false, [], m)
    | some f => (true, catText f.bytes ++ [10], m)
  ls name m :=
    match m name with
    | none => (false, [], m)
    | some f => (true, lsText name f.bytes, m)
  lsRoot m := ([], m)
  sector _ m := (some [], m)
  program := program

section Calls

variable {sb : Superblock} {d : Disk} {m : FileMap} {k : ℕ}

lemma map_getD (text : List UInt8) : (List.range text.length).map (fun i => text.getD i 0) = text := by
  refine List.ext_getElem (by simp) fun i _ hi => ?_
  rw [List.getElem_map, List.getElem_range, List.getD_eq_getElem _ _ hi]

lemma lsRoot_disk {σ : Type} (hw : d.Working) (line : σ → List UInt8 → List UInt8 → σ × Bool)
    (n sec : ℕ) (st : σ) : (lsRoot line sb n sec st d).2.2 = d := by
  induction n generalizing sec st with
  | zero => rfl
  | succ n ih =>
    rw [lsRoot, hw.read]
    dsimp only
    split
    · rfl
    · exact ih _ _

lemma fsLs_root (hw : d.Working) : (fsLs sb (some CStr.empty) d).2.2 = d := lsRoot_disk hw _ _ _ _

/-- A redirection fails and changes nothing, or it is a write of the map. -/
lemma onDisk_write (program : CStr → List CStr → Disk → Disk) (h : Backed sb (k + 1) d m) (name : CStr)
    {text : List UInt8} (hlen : text.length < cmdBufSize) :
    m.Storable (slotCount sb) name ∧ ((onDisk sb program).write name text d).1 = true ∧
        Backed sb k ((onDisk sb program).write name text d).2 (m.write name ⟨fsFile, text⟩) ∨
      ¬ m.Storable (slotCount sb) name ∧ (onDisk sb program).write name text d = (false, d) := by
  have hsize : text.length ≤ 512 := hlen.le.trans (by decide)
  unfold onDisk
  dsimp only
  rcases h.write name fsFile (fun i => text.getD i 0) hsize with ⟨hs, hrc, hb⟩ | ⟨hs, hrc⟩
  · rw [map_getD] at hb
    rw [hrc]
    exact Or.inl ⟨hs, rfl, hb⟩
  · rw [hrc]
    exact Or.inr ⟨hs, rfl⟩

/-- **The calls of the disk are those of the map that it holds.** -/
theorem onDisk_sim {program : CStr → List CStr → Disk → Disk}
    {effect : CStr → List CStr → FileMap → FileMap}
    (hprog : ∀ {k d m} name argv, Backed sb (k + 1) d m →
      Backed sb k (program name argv d) (effect name argv m)) :
    (onDisk sb program).Sim (onMap (slotCount sb) effect) (Backed sb) where
  mono h hj := h.mono hj
  write name text h hlen := by
    unfold onMap
    dsimp only
    rcases onDisk_write program h name hlen with ⟨hs, hok, hb⟩ | ⟨hs, hfail⟩
    · rw [if_pos hs, hok]
      exact ⟨rfl, hb⟩
    · rw [if_neg hs, hfail]
      exact ⟨rfl, h.mono (Nat.le_succ _)⟩
  mkdir name h := by
    have hsize : 0 ≤ 512 := by decide
    unfold onDisk onMap fsMkdir
    dsimp only
    rcases h.write name fsDir (fun _ => 0) hsize with ⟨hs, hrc, hb⟩ | ⟨hs, hrc⟩
    · rw [if_pos hs, hrc]
      exact ⟨rfl, hb⟩
    · rw [if_neg hs, hrc]
      exact ⟨rfl, h.mono (Nat.le_succ _)⟩
  delete name h := by
    unfold onDisk onMap
    dsimp only
    rcases h.delete name with ⟨hs, hrc, hb⟩ | ⟨hs, hrc⟩
    · rw [hrc, Option.isSome_iff_ne_none.mpr hs]
      exact ⟨rfl, hb⟩
    · rw [hrc, hs, FileMap.erase, Function.update_eq_self_iff.mpr hs.symm]
      exact ⟨rfl, h⟩
  cat := @fun _ d m name h => by
    have hcat := fsCat_view h.ok name
    rw [h.view_eq] at hcat
    unfold onDisk onMap
    dsimp only
    cases hm : m name with
    | none =>
      rw [hm] at hcat
      obtain ⟨hrc, hout, hdisk⟩ := hcat
      rw [hrc, hout, hdisk]
      exact ⟨rfl, rfl, h⟩
    | some f =>
      rw [hm] at hcat
      obtain ⟨hrc, hout, hdisk⟩ := hcat
      rw [hrc, hout, hdisk]
      exact ⟨rfl, rfl, h⟩
  ls := @fun _ d m name h hname => by
    have hls := fsLs_view h.ok hname
    rw [h.view_eq] at hls
    unfold onDisk onMap
    dsimp only
    rw [hls]
    cases m name <;> exact ⟨rfl, rfl, h⟩
  lsRoot h := by
    unfold onDisk onMap
    dsimp only
    rw [fsLs_root h.ok.working]
    exact h
  sector lba h := by
    unfold onDisk onMap
    dsimp only
    rw [h.ok.working.read, Option.map_some, Option.isSome_some, Option.isSome_some]
    exact ⟨rfl, h⟩
  program name argv h := hprog name argv h

end Calls

/-! ### The words of a text -/

/-- What lies between the spaces of a text. -/
def words (t : List UInt8) : List (List UInt8) := (t.splitOn 32).filter (· ≠ [])

lemma words_nil : words [] = [] := rfl

lemma words_append (t u : List UInt8) : words (t ++ 32 :: u) = words t ++ words u := by
  unfold words
  rw [List.splitOn_append_cons_self, List.filter_append]

lemma words_word {w : List UInt8} (hw : w ≠ []) (h : 32 ∉ w) : words w = [w] := by
  unfold words
  rw [List.splitOn_eq_singleton h, List.filter_cons_of_pos (by simpa using hw), List.filter_nil]

/-- `argv` of a text: its first words. -/
def argvOf (t : List UInt8) : List CStr :=
  ((words t).take maxArgs).map fun w => ⟨cstr w, zero_notMem_cstr w⟩

section Words

variable {line : Mem} {n : ℕ}

lemma bytes_split {p s : ℕ} (h : p ≤ s) (hn : s ≤ n) :
    bytes line p (n - p) = bytes line p (s - p) ++ bytes line s (n - s) := by
  rw [show n - p = (s - p) + (n - s) by omega, bytes_add, Nat.add_sub_cancel' h]

/-- Spaces before a text. -/
lemma words_gap {p s : ℕ} (hp : p ≤ s) (hgap : ∀ k, p ≤ k → k < s → line k = 32) (t : List UInt8) :
    words (bytes line p (s - p) ++ t) = words t := by
  obtain ⟨j, rfl⟩ := Nat.exists_eq_add_of_le hp
  rw [Nat.add_sub_cancel_left]
  induction j generalizing p with
  | zero => rfl
  | succ j ih =>
    rw [bytes_cons, hgap p le_rfl (by omega), List.cons_append]
    have happ := words_append [] (bytes line (p + 1) j ++ t)
    rw [List.nil_append, words_nil, List.nil_append] at happ
    rw [happ]
    exact ih (by omega) fun k hk hk' => hgap k (by omega) (by omega)

/-- The words that `parse_line` looks for are those of the text. -/
lemma spell_words (h : Typed line n) {p : ℕ} {l : List (ℕ × ℕ)} (hl : Words line n p l) (hp : p ≤ n)
    (hleft : p = 0 ∨ line (p - 1) = 32) : l.map (spell line) = words (bytes line p (n - p)) := by
  obtain ⟨m, hm⟩ : ∃ m, n - p = m := ⟨_, rfl⟩
  induction m using Nat.strong_induction_on generalizing p l with
  | _ m ih =>
    rcases next_word h hp hleft with hall | ⟨w, hw, hpw, hgap⟩
    · rw [hl.nil hall]
      have hg := words_gap hp hall []
      rw [List.append_nil] at hg
      rw [hg]
      rfl
    · obtain ⟨l', rfl, hl'⟩ := hl.cons hw hpw hgap
      have hpos := hw.nonempty
      have hin := hw.inside
      have hne : spell line w ≠ [] := fun e => by
        have := congrArg List.length e
        unfold spell at this
        rw [bytes_length, List.length_nil] at this
        omega
      have hno : 32 ∉ spell line w := fun e => by
        obtain ⟨i, hi, hi'⟩ := mem_bytes.mp e
        exact hw.run (w.1 + i) (by omega) (by omega) hi'
      rw [bytes_split hpw (by omega), words_gap hpw hgap, bytes_split hpos.le hin, List.map_cons]
      rcases hw.right with hend | hspace
      · rw [hend, Nat.sub_self, bytes_zero, List.append_nil, ← hend]
        have hnil : l' = [] := hl'.nil fun k hk hk' => by omega
        rw [hnil, List.map_nil]
        exact (words_word hne hno).symm
      · have hlt : w.2 < n := by
          by_contra hge
          obtain rfl : w.2 = n := by omega
          rw [h.ends] at hspace
          cases hspace
        rw [show n - w.2 = (n - (w.2 + 1)) + 1 by omega, bytes_cons, hspace, words_append]
        have hrest := ih (n - (w.2 + 1)) (by omega) hl' (by omega) (Or.inr hspace) rfl
        rw [hrest]
        unfold spell at hne hno ⊢
        rw [words_word hne hno]
        rfl

/-- **`parse_line` finds the words of the text.** -/
theorem typedWords_text (h : Typed line n) : typedWords line = argvOf (bytes line 0 n) := by
  obtain ⟨l, -, -, -, -, hbytes, all, hall, rfl⟩ := typedWords_spec h
  have hsame : all.map (spell line) = words (bytes line 0 n) :=
    spell_words h hall (Nat.zero_le n) (Or.inl rfl)
  rw [List.map_take, hsame] at hbytes
  unfold argvOf
  rw [← hbytes, List.map_map]
  refine (List.map_id _).symm.trans (List.map_congr_left fun s _ => CStr.ext ?_)
  exact (cstr_bytes s).symm

end Words

/-! ### Keys -/

/-- A key that `shell_run` reads, with or without Ctrl, the numbers of its moment, and what `content` of
`execute` holds before. -/
structure Press where
  c : ℤ
  ctrl : Bool
  env : Env
  junk : Mem

/-- The machine stops. -/
def Act.halts : Act → Bool
  | .powerOff => true
  | .halt => true
  | _ => false

/-- What `shell_run` works on: the line of each terminal, which terminal is the current one, and the
disk; and whether the machine has stopped. -/
structure Desk where
  inputs : ℕ → Input
  current : ℕ
  disk : Disk
  halted : Bool

/-- One turn of the inner loop of `shell_run`: what is done on which terminal. The echo of the key and the
prompt are left out. -/
def Desk.press (program : CStr → List CStr → Disk → Disk) (sb : Superblock) (s : Desk) (p : Press) :
    Option (List (ℕ × Act)) × Desk :=
  if s.halted then (some [], s)
  else
    match (if p.ctrl then workspaceOf p.c else none) with
    | some ws => (some [], { s with current := ws })
    | none =>
      let t := s.inputs s.current
      if p.c = 10 then
        match executeLine program p.env sb p.junk t.line s.disk with
        | none => (none, s)
        | some (acts, d) =>
          -- `execute` has cut the line into its words
          let buf := ((parseLine t.line).map Prod.snd).getD t.line
          (some (acts.map (s.current, ·)), { s with
            inputs := Function.update s.inputs s.current ⟨buf, 0⟩
            disk := d
            halted := acts.any Act.halts })
      else (some [], { s with inputs := Function.update s.inputs s.current (t.key p.c) })

/-- The shell over a store: the text on each terminal. -/
structure Talk (τ : Type) where
  texts : ℕ → List UInt8
  current : ℕ
  store : τ
  halted : Bool

/-- What a key does to a text. -/
def typeKey (t : List UInt8) (c : ℤ) : List UInt8 :=
  if c = 8 then t.dropLast
  else if 32 ≤ c ∧ c ≤ 126 ∧ t.length < termBufSize - 1 then t ++ [UInt8.ofNat c.toNat]
  else t

/-- A key, over a store. -/
def Talk.press {τ : Type} (F : Files τ) (u : Talk τ) (p : Press) : List (ℕ × Act) × Talk τ :=
  if u.halted then ([], u)
  else
    match (if p.ctrl then workspaceOf p.c else none) with
    | some ws => ([], { u with current := ws })
    | none =>
      if p.c = 10 then
        let r := obey F p.env (argvOf (u.texts u.current)) u.store
        (r.1.map (u.current, ·), { u with
          texts := Function.update u.texts u.current []
          store := r.2
          halted := r.1.any Act.halts })
      else ([], { u with
        texts := Function.update u.texts u.current (typeKey (u.texts u.current) p.c) })

/-! ### The desk -/

lemma key_text (t : Input) (c : ℤ) :
    bytes (t.key c).buf 0 (t.key c).len = typeKey (bytes t.buf 0 t.len) c := by
  unfold Input.key typeKey
  rw [bytes_length]
  by_cases h8 : c = 8
  · rw [if_pos h8, if_pos h8, bytes_dropLast]
    split_ifs with hpos
    · rfl
    · rw [show t.len = 0 by omega]
  · rw [if_neg h8, if_neg h8]
    by_cases hchar : 32 ≤ c ∧ c ≤ 126
    · rw [if_pos hchar]
      by_cases hroom : t.len < termBufSize - 1
      · rw [if_pos hroom, if_pos ⟨hchar.1, hchar.2, hroom⟩, bytes_succ]
        dsimp only
        rw [Nat.zero_add, Function.update_self]
        congr 1
        exact bytes_congr fun i hi => Function.update_of_ne (by omega) _ _
      · rw [if_neg hroom, if_neg fun h => hroom h.2.2]
    · rw [if_neg hchar, if_neg fun h => hchar ⟨h.1, h.2.1⟩]

/-- What is left out of the acts does not stop the machine. -/
lemma halts_plain {acts acts' : List Act} (h : acts.map Act.plain = acts'.map Act.plain) :
    acts.any Act.halts = acts'.any Act.halts := by
  have hplain : ∀ l : List Act, l.any Act.halts = (l.map Act.plain).any Act.halts := by
    intro l
    rw [List.any_map]
    congr 1
    funext a
    cases a <;> rfl
  rw [hplain acts, h, ← hplain acts']

/-- The lines on the terminals are the texts, and the disk holds the map, with room for `k` lines. -/
structure Desk.Shows (sb : Superblock) (k : ℕ) (s : Desk) (u : Talk FileMap) : Prop where
  ok : ∀ i, (s.inputs i).Ok
  text : ∀ i, bytes (s.inputs i).buf 0 (s.inputs i).len = u.texts i
  current : s.current = u.current
  backed : Backed sb (maxArgs * k) s.disk u.store
  halted : s.halted = u.halted

/-- The acts of a key, without what the sectors of the disk show. -/
def plainActs (acts : List (ℕ × Act)) : List (ℕ × Act) := acts.map fun a => (a.1, a.2.plain)

lemma plainActs_map (i : ℕ) (acts : List Act) :
    plainActs (acts.map (i, ·)) = (acts.map Act.plain).map (i, ·) := by
  unfold plainActs
  rw [List.map_map, List.map_map]
  rfl

lemma update_ok {inputs : ℕ → Input} (h : ∀ i, (inputs i).Ok) (j : ℕ) {t : Input} (ht : t.Ok) (i : ℕ) :
    (Function.update inputs j t i).Ok := by
  by_cases hi : i = j
  · rwa [hi, Function.update_self]
  · rw [Function.update_of_ne hi]
    exact h i

lemma update_text {inputs : ℕ → Input} {texts : ℕ → List UInt8}
    (h : ∀ i, bytes (inputs i).buf 0 (inputs i).len = texts i) (j : ℕ) {t : Input} {l : List UInt8}
    (ht : bytes t.buf 0 t.len = l) (i : ℕ) :
    bytes (Function.update inputs j t i).buf 0 (Function.update inputs j t i).len =
      Function.update texts j l i := by
  by_cases hi : i = j
  · rwa [hi, Function.update_self, Function.update_self]
  · rw [Function.update_of_ne hi, Function.update_of_ne hi]
    exact h i

section Desk

variable {sb : Superblock} {program : CStr → List CStr → Disk → Disk}
  {effect : CStr → List CStr → FileMap → FileMap}
  (hprog : ∀ {k d m} name argv, Backed sb (k + 1) d m →
    Backed sb k (program name argv d) (effect name argv m))

include hprog

/-- **A key does on the desk what it does over the map.** -/
theorem Desk.Shows.press {k : ℕ} {s : Desk} {u : Talk FileMap} (h : s.Shows sb (k + 1) u) (p : Press) :
    (s.press program sb p).1.map plainActs =
        some (plainActs (u.press (onMap (slotCount sb) effect) p).1) ∧
      (s.press program sb p).2.Shows sb k (u.press (onMap (slotCount sb) effect) p).2 := by
  have hless : Backed sb (maxArgs * k) s.disk u.store := h.backed.mono (Nat.mul_le_mul_left _ (Nat.le_succ k))
  unfold Desk.press Talk.press
  rw [h.halted]
  by_cases hhalt : u.halted = true
  · rw [if_pos hhalt, if_pos hhalt]
    exact ⟨rfl, h.ok, h.text, h.current, hless, h.halted⟩
  rw [if_neg hhalt, if_neg hhalt]
  cases hws : (if p.ctrl then workspaceOf p.c else none) with
  | some ws => exact ⟨rfl, h.ok, h.text, rfl, hless, rfl⟩
  | none =>
    dsimp only
    by_cases hc : p.c = 10
    · have hok := h.ok s.current
      have htyped : Typed (s.inputs s.current).line (s.inputs s.current).len :=
        ⟨hok.short, fun i hi => by
          unfold Input.line
          rw [Function.update_of_ne (by omega)]
          exact hok.noNul i hi, Function.update_self _ _ _⟩
      have hwords : typedWords (s.inputs s.current).line = argvOf (u.texts u.current) := by
        rw [typedWords_text htyped, ← h.current, ← h.text]
        congr 1
        exact bytes_congr fun i hi => Function.update_of_ne (by omega) _ _
      have hsent := typedWords_sentence htyped
      rw [if_pos hc, if_pos hc, execute_obeys htyped, hwords]
      rw [hwords] at hsent
      obtain ⟨hacts, hb⟩ := obey_sim (onDisk_sim hprog) p.env _ (maxArgs * k) s.disk u.store hsent
        (h.backed.mono (by
          have := hsent.few
          rw [Nat.mul_succ]
          omega))
      generalize obey (onDisk sb program) p.env (argvOf (u.texts u.current)) s.disk = r at hacts hb ⊢
      generalize obey (onMap (slotCount sb) effect) p.env (argvOf (u.texts u.current)) u.store = q
        at hacts hb ⊢
      refine ⟨?_, ⟨fun i => ?_, fun i => ?_, h.current, hb, halts_plain hacts⟩⟩
      · dsimp only [Option.map_some]
        rw [plainActs_map, plainActs_map, hacts, h.current]
      · exact update_ok h.ok _ ⟨(by decide : 0 < termBufSize), fun i hi => absurd hi (Nat.not_lt_zero i)⟩ i
      · rw [h.current]
        exact update_text h.text _ (bytes_zero _ _) i
    · rw [if_neg hc, if_neg hc]
      refine ⟨rfl, update_ok h.ok _ ((h.ok _).key p.c), fun i => ?_, h.current, hless, rfl⟩
      rw [h.current]
      refine update_text h.text _ ?_ i
      rw [key_text, h.text]

/-- **From the keys on, the shell works on a map of files**: whatever is typed on the terminals, in any
order, the shell over the disk does what the shell over the map does, never reads or writes outside of
its buffers, and the disk is well formed and holds the map. -/
theorem desk_refines {s : Desk} {u : Talk FileMap} {k : ℕ} (ps : List Press)
    (h : s.Shows sb (k + ps.length) u) :
    (trace (Desk.press program sb) s ps).1.map (Option.map plainActs) =
        (trace (Talk.press (onMap (slotCount sb) effect)) u ps).1.map (some ∘ plainActs) ∧
      (trace (Desk.press program sb) s ps).2.Shows sb k
        (trace (Talk.press (onMap (slotCount sb) effect)) u ps).2 :=
  trace_sim_count (R := Desk.Shows sb) (fun _ _ _ p h => h.press hprog p) h

end Desk

/-- An empty file system holds no files. -/
lemma blank_backed {k : ℕ} (hk : k ≤ 48000000) : Backed blank.sb k blank.disk fun _ => none where
  ok := blank_wellFormed
  view_eq := funext fun _ =>
    view_eq_none.mpr (slotOf_eq_none_iff.mpr fun k _ h => blank_not_live k h.1)
  slots := by decide
  room := ⟨2, le_rfl, fun k _ h => absurd h (blank_not_live k), by omega⟩


/-- A desk on which nothing is typed, with an empty file system. -/
def emptyDesk : Desk := ⟨fun _ => ⟨fun _ => 0, 0⟩, 0, blank.disk, false⟩

def emptyTalk : Talk FileMap := ⟨fun _ => [], 0, fun _ => none, false⟩

lemma emptyDesk_shows {k : ℕ} (hk : k ≤ 3000000) : emptyDesk.Shows blank.sb k emptyTalk where
  ok _ := ⟨(by decide : 0 < termBufSize), fun i hi => absurd hi (Nat.not_lt_zero i)⟩
  text _ := rfl
  current := rfl
  backed := blank_backed (by unfold maxArgs; omega)
  halted := rfl

/-- A key without Ctrl. -/
def plainKey (c : ℤ) : Press := ⟨c, false, ⟨0, 0, 0, 0, 0⟩, fun _ => 0⟩

/-- `echo a > f` on the first terminal, Ctrl and `w`, `cat f` on the second. -/
def echoCat : List Press :=
  [101, 99, 104, 111, 32, 97, 32, 62, 32, 102, 10].map plainKey ++
    { plainKey 119 with ctrl := true } :: [99, 97, 116, 32, 102, 10].map plainKey

theorem desk_refines_echo :
    (trace (Desk.press (fun _ _ d => d) blank.sb) emptyDesk echoCat).1.map (Option.map plainActs) =
        (trace (Talk.press (onMap (slotCount blank.sb) fun _ _ m => m)) emptyTalk echoCat).1.map
          (some ∘ plainActs) ∧
      (trace (Desk.press (fun _ _ d => d) blank.sb) emptyDesk echoCat).2.Shows blank.sb 0
        (trace (Talk.press (onMap (slotCount blank.sb) fun _ _ m => m)) emptyTalk echoCat).2 :=
  desk_refines (fun _ _ h => h.mono (Nat.le_succ _)) echoCat (emptyDesk_shows (by decide))

end LunariaOS.Shell
