import LunariaOS.Fs.Success

/-!
The files as a tree.

Every path in the map should have its parent there, as a directory. A write keeps this exactly when
it does not turn a parent into a regular file and when the parent of its own path is a directory or
becomes one by taking the line; a delete keeps it exactly when it takes no parent away.
-/

namespace LunariaOS.Fs

open LunariaOS.Lib

namespace FileMap

variable (m : FileMap)

/-- The path is a directory of the map. -/
def IsDir (p : CStr) : Prop := ∃ g, m p = some g ∧ g.type = fsDir

/-- Every path has its parent in the map, as a directory. -/
def Tree : Prop := ∀ n p, m n ≠ none → parentDir n = some p → m.IsDir p

/-- No path of the map has `n` as its parent. -/
def Childless (n : CStr) : Prop := ∀ x, parentDir x = some n → m x = none

/-- What a write under `n` needs to keep the tree: it stores a directory, or `n` is no parent; and
its own parent is a directory, or takes the line. -/
structure PutOk (n : CStr) (type : UInt8) : Prop where
  own : type = fsDir ∨ m.Childless n
  parent : ∀ p, parentDir n = some p → m.IsDir p ∨ m.Takes p n

variable {m}

lemma updated_ne_none {a n : CStr} (h : m.Updated a n) : m a ≠ none := by
  induction h with
  | parent _ ht =>
    obtain ⟨f, hf, -⟩ := ht
    rw [hf]
    simp
  | up _ _ _ ih => exact ih

/-- The empty path is nobody's parent, and a write under it changes nothing. -/
lemma tree_write_empty (h : m.Tree) {n : CStr} (hn : n.bytes = []) (f : File) :
    (m.write n f).Tree ↔ m.PutOk n f.type := by
  have hp : parentDir n = none := by
    cases hp : parentDir n with
    | none => rfl
    | some p =>
      have := parentDir_length hp
      unfold CStr.length at this
      rw [hn] at this
      exact absurd this (Nat.not_lt_zero _)
  have hsame : m.write n f = m := by
    rw [write_top f hp]
    exact if_pos hn
  rw [hsame]
  refine iff_of_true h ⟨Or.inr fun x hx => absurd hn (parentDir_ne_nil hx), fun p hp' => ?_⟩
  rw [hp] at hp'
  cases hp'

/-- **When a write keeps the tree.** -/
theorem tree_write_iff (h : m.Tree) (n : CStr) (f : File) :
    (m.write n f).Tree ↔ m.PutOk n f.type := by
  by_cases hn : n.bytes = []
  · exact tree_write_empty h hn f
  have hself : ∀ {x p : CStr}, parentDir x = some p → x ≠ p := by
    rintro x p hp rfl
    exact lt_irrefl _ (parentDir_length hp)
  have hnup : ¬ m.Updated n n := fun hu => lt_irrefl _ hu.ancestor.length_lt
  have hown : m.write n f n = some f := by
    rcases write_apply m n n f with ⟨e, -⟩ | ⟨hu, -⟩
    · exact e.trans (store_same hn f)
    · exact absurd hu hnup
  -- any other path is as it was, or is a directory now
  have hother : ∀ {x}, x ≠ n → m.write n f x = m x ∨ m.Updated x n ∧ (m.write n f).IsDir x := by
    intro x hx
    rcases write_apply m n x f with ⟨e, -⟩ | ⟨hu, g, hg, ht⟩
    · exact Or.inl (e.trans (store_ne f hx))
    · exact Or.inr ⟨hu, g, hg, ht⟩
  have hlive : ∀ {x}, x ≠ n → (m.write n f x ≠ none ↔ m x ≠ none) := by
    intro x hx
    rcases hother hx with e | ⟨hu, g, hg, -⟩
    · rw [e]
    · rw [hg]
      exact iff_of_true (by simp) (updated_ne_none hu)
  have hdir : ∀ {x}, x ≠ n → m.IsDir x → (m.write n f).IsDir x := by
    rintro x hx ⟨g, hg, ht⟩
    rcases hother hx with e | ⟨-, hd⟩
    · exact ⟨g, e.trans hg, ht⟩
    · exact hd
  constructor
  · intro h'
    refine ⟨?_, fun p hp => ?_⟩
    · by_contra hno
      rw [not_or] at hno
      obtain ⟨htype, hchild⟩ := hno
      unfold Childless at hchild
      push Not at hchild
      obtain ⟨x, hx, hxm⟩ := hchild
      obtain ⟨g, hg, ht⟩ := h' x n ((hlive (hself hx)).mpr hxm) hx
      rw [hown] at hg
      obtain rfl := Option.some.inj hg
      exact htype ht
    · obtain ⟨g, hg, ht⟩ := h' n p (by rw [hown]; simp) hp
      rcases hother (hself hp).symm with e | ⟨hu, -⟩
      · exact Or.inl ⟨g, e.symm.trans hg, ht⟩
      · exact Or.inr ((updated_up hp).mp hu).1
  · rintro ⟨hown', hparent⟩ x p hx hp
    by_cases hpn : p = n
    · -- the parent is the path that is written
      subst hpn
      rcases hown' with htype | hchild
      · exact ⟨f, hown, htype⟩
      · exact absurd (hchild x hp) ((hlive (hself hp)).mp hx)
    · by_cases hxn : x = n
      · subst hxn
        rcases hparent p hp with hd | ht
        · exact hdir hpn hd
        · rcases write_apply m x p f with ⟨-, hno⟩ | ⟨-, g, hg, ht'⟩
          · exact absurd (Updated.parent hp ht) hno
          · exact ⟨g, hg, ht'⟩
      · exact hdir hpn (h x p ((hlive hxn).mp hx) hp)

/-- An append makes the directories it changes directories, so it keeps the tree. -/
theorem tree_append (h : m.Tree) (dir path : CStr) (hdir : dir.bytes ≠ []) :
    (m.append dir path).Tree := by
  have hother : ∀ x, m.append dir path x = m x ∨ m x ≠ none ∧ (m.append dir path).IsDir x := by
    intro x
    rcases append_apply m dir path x hdir with ⟨e, -⟩ | ⟨ht, hx, g, hg, hd⟩
    · exact Or.inl e
    · refine Or.inr ⟨?_, g, hg, hd⟩
      rcases hx with rfl | hu
      · obtain ⟨f, hf, -⟩ := ht
        rw [hf]
        simp
      · exact updated_ne_none hu
  intro x p hx hp
  have hxm : m x ≠ none := by
    rcases hother x with e | ⟨hxm, -⟩
    · rwa [e] at hx
    · exact hxm
  obtain ⟨g, hg, ht⟩ := h x p hxm hp
  rcases hother p with e | ⟨-, hd⟩
  · exact ⟨g, e.trans hg, ht⟩
  · exact hd

/-- **When a delete keeps the tree.** -/
theorem tree_erase_iff (h : m.Tree) (n : CStr) : (m.erase n).Tree ↔ m.Childless n := by
  have hself : ∀ {x p : CStr}, parentDir x = some p → x ≠ p := by
    rintro x p hp rfl
    exact lt_irrefl _ (parentDir_length hp)
  constructor
  · intro h' x hx
    by_contra hxm
    obtain ⟨g, hg, -⟩ := h' x n (by rwa [erase_ne (hself hx)]) hx
    rw [erase_same] at hg
    cases hg
  · intro hchild x p hx hp
    have hxn : x ≠ n := by
      rintro rfl
      exact hx (erase_same x)
    rw [erase_ne hxn] at hx
    have hpn : p ≠ n := by
      rintro rfl
      exact hx (hchild x hp)
    obtain ⟨g, hg, ht⟩ := h x p hx hp
    exact ⟨g, (erase_ne hpn).trans hg, ht⟩

end FileMap

/-! ### The directory on the disk -/

variable {sb : Superblock} {d : Disk}

/-- Every live entry whose path has a parent has a live directory entry for that parent. -/
def Rooted (sb : Superblock) (d : Disk) : Prop :=
  ∀ n p, ∀ k < slotCount sb, Named sb d n k → parentDir n = some p →
    ∃ j < slotCount sb, Named sb d p j ∧ (entry sb d j).type = fsDir

lemma rooted_iff (hd : DirOk sectorsOf sb d) : Rooted sb d ↔ (view sb d).Tree := by
  have hdir : ∀ p, (view sb d).IsDir p ↔
      ∃ j < slotCount sb, Named sb d p j ∧ (entry sb d j).type = fsDir := by
    intro p
    constructor
    · rintro ⟨g, hg, ht⟩
      obtain ⟨j, hj, rfl⟩ := Option.map_eq_some_iff.mp hg
      exact ⟨j, (slotOf_some hj).1, (slotOf_some hj).2, ht⟩
    · rintro ⟨j, hj, hn, ht⟩
      have hslot := (hd.slotOf_eq hj).mpr hn
      exact ⟨fileAt sb d j, by unfold view; rw [hslot]; rfl, ht⟩
  constructor
  · intro h n p hn hp
    cases hk : slotOf sb d n with
    | none => exact absurd (view_eq_none.mpr hk) hn
    | some k =>
      exact (hdir p).mpr (h n p k (slotOf_some hk).1 (slotOf_some hk).2 hp)
  · intro h n p k hk hnk hp
    refine (hdir p).mp (h n p (fun he => ?_) hp)
    exact slotOf_none (view_eq_none.mp he) hk hnk

/-! ### Runs -/

/-- What a call needs to keep the tree: if it writes, and its checks pass, the write is one that
keeps the tree; and it deletes no parent. -/
def Call.TreeOk (s : State) (c : Call) : Prop :=
  (∀ n type data size, c.writes s = some (n, type, data, size) → CanWrite s.sb s.disk n →
    (view s.sb s.disk).PutOk n type) ∧
  ∀ n, c = .delete n → (view s.sb s.disk).Childless n

/-- **When a call keeps the tree.** -/
theorem step_tree_iff {s : State} (hs : WellFormed s.sb s.disk) (hsec : s.sb.dirSectors ≤ 2147483648)
    {c : Call} (hfit : c.Fits s) (h : (view s.sb s.disk).Tree) :
    (view s.sb (s.step c).disk).Tree ↔ c.TreeOk s := by
  have hd := hs.sound
  have hwrite : ∀ n type data size, c.writes s = some (n, type, data, size) →
      (∀ m, c ≠ .delete m) →
      ((view s.sb (fsWrite s.sb n type data size s.disk).2).Tree ↔ c.TreeOk s) := by
    intro n type data size hwr hnd
    obtain ⟨hsz, hfits⟩ := hfit.1 n type data size hwr
    have hiff : c.TreeOk s ↔ (CanWrite s.sb s.disk n → (view s.sb s.disk).PutOk n type) := by
      unfold Call.TreeOk
      rw [hwr]
      refine ⟨fun hx => hx.1 n type data size rfl, fun hx => ⟨fun n' t' d' z' e => ?_,
        fun m hm => absurd hm (hnd m)⟩⟩
      simp only [Option.some.injEq, Prod.mk.injEq] at e
      obtain ⟨rfl, rfl, rfl, rfl⟩ := e
      exact hx
    rw [hiff]
    rcases fsWrite_refines hs.layout hsec hd type data (by omega) hfits with
      ⟨hc, -, hv⟩ | ⟨hc, he⟩
    · rw [hv, FileMap.tree_write_iff h]
      exact ⟨fun hx _ => hx, fun hx => hx hc⟩
    · rw [he]
      exact iff_of_true h fun hx => absurd hx hc
  have hnone : c.writes s = none → (∀ m, c ≠ .delete m) → c.TreeOk s := fun hwr hnd =>
    ⟨fun n t dt z hx => (by rw [hwr] at hx; cases hx), fun m hm => absurd hm (hnd m)⟩
  rw [step_disk s hd.working]
  split
  · rename_i n
    have hok : Call.TreeOk s (.delete n) ↔ (view s.sb s.disk).Childless n :=
      ⟨fun hx => hx.2 n rfl, fun hx =>
        ⟨fun _ _ _ _ e => (by cases e), fun m hm => (by cases hm; exact hx)⟩⟩
    rw [hok, fsDelete_working hd.working]
    split
    · rename_i hk
      refine iff_of_true h fun x hx => ?_
      by_contra hxm
      obtain ⟨g, hg, -⟩ := h x n hxm hx
      rw [view_eq_none.mpr hk] at hg
      cases hg
    · rename_i k hk
      obtain ⟨hlt, hnk⟩ := slotOf_some hk
      have hdel := clearSlot_deleted hd.working hs.layout hlt
      rw [show view s.sb (clearSlot s.sb s.disk k) = (view s.sb s.disk).erase n from
        hdel.view_eq hd hnk]
      exact FileMap.tree_erase_iff h n
  · rename_i dir path
    refine iff_of_true ?_ (hnone rfl fun m hm => by cases hm)
    rw [(write_append_refines hs.layout hsec _).2 dir path s.disk rfl hd (hfit.2 dir path rfl)]
    by_cases hdir : dir.bytes = []
    · rw [FileMap.append_of_not_takes]
      · exact h
      · rintro ⟨f, hf, -⟩
        rw [view_eq_none.mpr (slotOf_empty hdir)] at hf
        cases hf
    · exact FileMap.tree_append h dir path hdir
  · rename_i hnd _
    split
    · rename_i hwr
      exact iff_of_true h (hnone hwr fun m hm => hnd m hm)
    · rename_i n type data size hwr
      exact hwrite n type data size hwr fun m hm => hnd m hm

lemma run_tree_iff {s : State} (hs : WellFormed s.sb s.disk) (hsec : s.sb.dirSectors ≤ 2147483648)
    (h : (view s.sb s.disk).Tree) {l : List Call}
    (hl : Along State.step (fun s c => c.Fits s) s l) :
    (∀ l', l' <+: l → (view s.sb (run State.step s l').disk).Tree) ↔
      Along State.step (fun s c => c.TreeOk s) s l := by
  induction l generalizing s with
  | nil =>
    refine iff_of_true (fun l' hl' => ?_) trivial
    rw [List.prefix_nil.mp hl']
    exact h
  | cons c l ih =>
    have hstep := step_tree_iff hs hsec hl.1 h
    have hsb := step_sb s hs.working c
    have hnext := step_wellFormed hs hl.1
    constructor
    · intro hall
      have h' : (view s.sb (s.step c).disk).Tree := hall [c] (by simp)
      refine ⟨hstep.mp h', (ih hnext (by rwa [hsb]) (by rwa [hsb]) hl.2).mp fun l' hl' => ?_⟩
      rw [hsb]
      exact hall (c :: l') (by simpa using hl')
    · rintro ⟨hc, hrest⟩ l' hl'
      cases l' with
      | nil => exact h
      | cons c' l' =>
        obtain ⟨rfl, hpre⟩ := List.cons_prefix_cons.mp hl'
        have hall := (ih hnext (by rwa [hsb]) (by rw [hsb]; exact hstep.mpr hc) hl.2).mpr hrest l' hpre
        rwa [hsb] at hall

/-- **When the files stay a tree.** From an empty file system, every live entry has its parent as a
live directory in every state of a run exactly when no call of the run takes a parent away, stores
something other than a directory over a parent, or writes under a path that is not a directory and
does not take the line. -/
theorem rooted_run {s : State} (hs : WellFormed s.sb s.disk) (hsec : s.sb.dirSectors ≤ 2147483648)
    (hempty : ∀ k < slotCount s.sb, ¬ Live s.sb s.disk k) {l : List Call}
    (hl : Along State.step (fun s c => c.Fits s) s l) :
    (∀ l', l' <+: l → Rooted (run State.step s l').sb (run State.step s l').disk) ↔
      Along State.step (fun s c => c.TreeOk s) s l := by
  have h : (view s.sb s.disk).Tree := by
    refine (rooted_iff hs.sound.dirOk).mp fun n p k hk hn => ?_
    exact absurd hn.1 (hempty k hk)
  rw [← run_tree_iff hs hsec h hl]
  refine forall₂_congr fun l' hl' => ?_
  obtain ⟨t, rfl⟩ := hl'
  have hpre := (along_append.mp hl).1
  rw [rooted_iff (run_wellFormed hs hpre).sound.dirOk, run_sb hs hpre]

/-- A directory, a file in it, and the delete of the directory. -/
def orphanCalls : List Call := [.mkdir pathD, .write pathDF fsFile (fun _ => 7) 3, .delete pathD]

lemma orphanCalls_fits : Along State.step (fun s c => c.Fits s) blank orphanCalls :=
  blank_fits (by decide +kernel) (by decide)

theorem rooted_run_blank :
    (∀ l', l' <+: orphanCalls →
      Rooted (run State.step blank l').sb (run State.step blank l').disk) ↔
      Along State.step (fun s c => c.TreeOk s) blank orphanCalls :=
  rooted_run blank_wellFormed (by decide) (fun k _ => blank_not_live k) orphanCalls_fits

/-- **Deleting a directory leaves the file in it without a parent.** -/
theorem delete_orphans :
    Along State.step (fun s c => c.Fits s) blank orphanCalls ∧
      ¬ Rooted (run State.step blank orphanCalls).sb (run State.step blank orphanCalls).disk := by
  refine ⟨orphanCalls_fits, fun h => ?_⟩
  obtain ⟨j, hj, hn, -⟩ := h pathDF pathD 1 (by decide) (by decide +kernel) (by decide)
  have hnone : slotOf (run State.step blank orphanCalls).sb (run State.step blank orphanCalls).disk
      pathD = none := by decide +kernel
  exact slotOf_none hnone hj hn

end LunariaOS.Fs
