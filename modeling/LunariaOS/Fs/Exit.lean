import LunariaOS.Fs.Table

/-!
How a program ends.

The system call 7 chooses a function of the kernel, and the system call 2 makes the interrupt return
to it. `exit_to_shell` closes every handle. The three others stop the machine where it is.
-/

namespace LunariaOS.Fs

open LunariaOS.Lib

/-- The functions that `exit_target` can point to: `exit_to_shell`, `user_halt`, `user_power_off`
and `user_reboot`. -/
inductive ExitTarget where
  | exitToShell
  | userHalt
  | userPowerOff
  | userReboot
  deriving DecidableEq

/-- The system call 7: the new `exit_target`. -/
def exitTo (mode : ℕ) (old : ExitTarget) : ExitTarget :=
  match mode with
  | 0 => .exitToShell
  | 1 => .userHalt
  | 2 => .userPowerOff
  | 3 => .userReboot
  | _ => old

/-- What is left of the file system when the function that the system call 2 returns to has left the
kernel, or has stopped the machine. -/
def ExitTarget.leave (s : State) : ExitTarget → State
  | .exitToShell => fsCloseAll s
  | .userHalt => s
  | .userPowerOff => s
  | .userReboot => s

/-- A program at work: the handle table and the exit target. -/
structure Session where
  table : Table
  exitTarget : ExitTarget

/-- What a program does before it exits: a call on the handles, a system call that works on the disk
alone (reading, writing, listing or removing a whole file), or a choice of the exit. -/
inductive Request where
  | handle (o : Op)
  | disk (f : Superblock → Disk → ℤ × Disk)
  | exitTo (mode : ℕ)

/-- One request. -/
def Session.step (p : Session) : Request → Session
  | .handle o => { p with table := p.table.step o }
  | .disk f => { p with table := { p.table with state := (p.table.state.onDisk f).2 } }
  | .exitTo mode => { p with exitTarget := Fs.exitTo mode p.exitTarget }

/-- A program that has just been entered. -/
def Session.start (s : State) : Session := { table := Table.start s, exitTarget := .exitToShell }

/-- The file system after the system call 2. -/
def Session.exit (p : Session) : State := p.exitTarget.leave p.table.state

/-- What the program left open has been written back, as `fs_close` would have done, and no handle
is in use. -/
def Flushed (s s' : State) : Prop :=
  (∀ i, s.Writer i → s'.disk = (fsClose s (fdOf i)).2.disk) ∧ ∀ i, (s'.handles i).used = false

/-! ### Closing every handle -/

lemma fsClose_reader {s : State} {i : Fin 8} (hw : ¬ s.Writer i) :
    (if (s.handles i).used then (fsClose s (fdOf i)).2 else s) = s.release i := by
  by_cases hu : (s.handles i).used = true
  · have hr : ¬ (s.handles i).writable = true := fun h => hw ⟨hu, h⟩
    rw [if_pos hu]
    unfold fsClose
    rw [fdLookup_fdOf, if_pos hu]
    simp only
    rw [if_neg hr]
    rfl
  · obtain ⟨d, hd⟩ := close_if_used s i
    rw [if_neg hu] at hd ⊢
    have hdisk : d = s.disk := (congrArg State.disk hd).symm
    rwa [hdisk] at hd

lemma release_writer {s : State} {i j : Fin 8} : (s.release i).Writer j ↔ j ≠ i ∧ s.Writer j := by
  unfold State.Writer State.release
  by_cases hji : j = i
  · subst hji
    simp
  · rw [State.setHandle_ne _ _ hji]
    simp [hji]

/-- Read handles are dropped without a transfer. -/
lemma closeEach_readers {s : State} {l : List (Fin 8)} (h : ∀ i ∈ l, ¬ s.Writer i) :
    (closeEach s l).disk = s.disk := by
  induction l generalizing s with
  | nil => rfl
  | cons i l ih =>
    rw [closeEach_cons, fsClose_reader (h i (by simp)),
      ih fun j hj hw => h j (by simp [hj]) (release_writer.mp hw).2]
    rfl

/-- The writable handle is closed in its turn, from the state the others have left as it was. -/
lemma closeEach_writer {s : State} (hs : s.OneWriter) {i : Fin 8} (hi : s.Writer i)
    {l : List (Fin 8)} (hl : l.Nodup) (hmem : i ∈ l) :
    (closeEach s l).disk = (fsClose s (fdOf i)).2.disk := by
  induction l generalizing s with
  | nil => exact absurd hmem List.not_mem_nil
  | cons j l ih =>
    have hl := List.nodup_cons.mp hl
    rw [closeEach_cons]
    by_cases hji : j = i
    · subst hji
      rw [if_pos hi.1]
      apply closeEach_readers
      intro k hk hw
      rcases fsClose_released s (fdOf j) with ⟨hno, -⟩ | ⟨j', d, hj', e⟩
      · rw [fdLookup_fdOf, if_pos hi.1] at hno
        cases hno
      · rw [fdLookup_fdOf, if_pos hi.1] at hj'
        obtain rfl := Option.some.inj hj'
        rw [e] at hw
        obtain ⟨hkj, hw⟩ := release_writer.mp hw
        exact hkj (hs.unique k j hw hi)
    · have hj : ¬ s.Writer j := fun hw => hji (hs.unique j i hw hi)
      have hi' : (s.release j).Writer i := release_writer.mpr ⟨Ne.symm hji, hi⟩
      rw [fsClose_reader hj, ih (OneWriter.release hs j s.disk) hi' hl.2
        (List.mem_of_ne_of_mem (Ne.symm hji) hmem)]
      have hsame : (s.release j).handles i = s.handles i := State.setHandle_ne _ _ (Ne.symm hji)
      rw [(fsClose_writer hi'.1 hi'.2).2, (fsClose_writer hi.1 hi.2).2, hsame]
      rfl

/-- **`fs_close_all` flushes what is open.** -/
theorem fsCloseAll_flushed {s : State} (hs : s.OneWriter) : Flushed s (fsCloseAll s) := by
  refine ⟨fun i hi => ?_, fun i => ?_⟩
  · exact closeEach_writer hs hi (List.nodup_finRange 8) (List.mem_finRange i)
  · obtain ⟨d, e⟩ := fsCloseAll_eq s
    rw [e]

/-! ### Runs -/

lemma Session.step_ok {p : Session} (h : p.table.Ok) (r : Request) : (p.step r).table.Ok := by
  cases r with
  | handle o => exact h.step o
  | disk f => exact h.same (fun _ => rfl) (fun _ => rfl) fun _ => Or.inl rfl
  | exitTo mode => exact h

lemma run_session_ok {s : State} (hs : ∀ i, (s.handles i).used = false) (l : List Request) :
    (run Session.step (Session.start s) l).table.Ok :=
  run_inv_all (P := fun p : Session => p.table.Ok) (fun _ r h => Session.step_ok h r) l (Table.start_ok hs)

/-- **The exit to the shell flushes, the others do not.** At the end of every run of a program, the
exit writes back what was left open and drops the handles if it goes to the shell, or if there is
nothing left open, and in no other case. -/
theorem exit_flushes {s : State} (hs : ∀ i, (s.handles i).used = false) (l : List Request) :
    let p := run Session.step (Session.start s) l
    Flushed p.table.state p.exit ↔ p.exitTarget = .exitToShell ∨ p.table.held = [] := by
  intro p
  have hp : p.table.Ok := run_session_ok hs l
  have hheld : p.table.held = [] ↔ ∀ i, (p.table.state.handles i).used = false := by
    rw [List.eq_nil_iff_forall_not_mem]
    constructor
    · intro h i
      by_contra hu
      exact h (fdOf i) ((hp.mem_iff _).mpr ⟨i, rfl, by simpa using hu⟩)
    · intro h fd hfd
      obtain ⟨i, -, hu⟩ := (hp.mem_iff fd).mp hfd
      rw [h i] at hu
      cases hu
  by_cases hshell : p.exitTarget = .exitToShell
  · refine iff_of_true ?_ (Or.inl hshell)
    unfold Session.exit
    rw [hshell]
    exact fsCloseAll_flushed hp.oneWriter
  · have hexit : p.exit = p.table.state := by
      unfold Session.exit
      cases h : p.exitTarget with
      | exitToShell => exact absurd h hshell
      | userHalt => rfl
      | userPowerOff => rfl
      | userReboot => rfl
    rw [hexit, or_iff_right hshell, hheld]
    constructor
    · exact fun h => h.2
    · intro h
      refine ⟨fun i hi => ?_, h⟩
      exact absurd ((h i).symm.trans hi.1) (by decide)

/-- A program that writes a file and asks for the machine to be powered off. -/
def powerOffRun : List Request :=
  [.handle (.openFd pathF (fsOWronly ||| fsOCreat)), .handle (.writeFd 3 (fun _ => 7) 5), .exitTo 2]

theorem exit_flushes_blank :
    Flushed (run Session.step (Session.start blank) powerOffRun).table.state
        (run Session.step (Session.start blank) powerOffRun).exit ↔
      (run Session.step (Session.start blank) powerOffRun).exitTarget = .exitToShell ∨
        (run Session.step (Session.start blank) powerOffRun).table.held = [] :=
  exit_flushes (fun _ => rfl) powerOffRun

/-- The five bytes stay in the buffer, and the handle stays in use. -/
theorem power_off_loses_write :
    ¬ Flushed (run Session.step (Session.start blank) powerOffRun).table.state
      (run Session.step (Session.start blank) powerOffRun).exit := by
  intro h
  have hused : ((run Session.step (Session.start blank) powerOffRun).exit.handles 0).used = true := by
    decide +kernel
  rw [h.2 0] at hused
  cases hused

end LunariaOS.Fs
