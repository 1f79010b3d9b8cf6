import Mathlib.Tactic

/-!
Runs of a deterministic step function and the invariant rule.

`run` carries out a list of actions from a state. `Along Q` says that every action of the list meets
the side condition `Q` in the state in which it is carried out. The invariant rule: what holds at
the start and is kept by every step that meets its side condition holds at the end of every such
run, and so, a prefix of a run being a run, in every state reached.
-/

namespace LunariaOS.Lib

section Run

variable {σ α : Type*} (step : σ → α → σ)

/-- Carry out a list of actions. -/
def run (s : σ) (l : List α) : σ := l.foldl step s

/-- Every action of the list meets `Q` in the state in which it is carried out. -/
def Along (Q : σ → α → Prop) : σ → List α → Prop
  | _, [] => True
  | s, a :: l => Q s a ∧ Along Q (step s a) l

@[simp] lemma run_nil (s : σ) : run step s [] = s := rfl

@[simp] lemma run_cons (s : σ) (a : α) (l : List α) :
    run step s (a :: l) = run step (step s a) l := rfl

lemma run_append (s : σ) (l₁ l₂ : List α) :
    run step s (l₁ ++ l₂) = run step (run step s l₁) l₂ := List.foldl_append ..

variable {step}

lemma along_nil {Q : σ → α → Prop} {s : σ} : Along step Q s [] := trivial

lemma along_cons {Q : σ → α → Prop} {s : σ} {a : α} {l : List α} :
    Along step Q s (a :: l) ↔ Q s a ∧ Along step Q (step s a) l := Iff.rfl

lemma along_of_forall {Q : α → Prop} {s : σ} {l : List α} (h : ∀ a ∈ l, Q a) :
    Along step (fun _ a => Q a) s l := by
  induction l generalizing s with
  | nil => trivial
  | cons a l ih => exact ⟨h a (by simp), ih fun b hb => h b (by simp [hb])⟩

lemma along_and {Q R : σ → α → Prop} {s : σ} {l : List α} (hq : Along step Q s l)
    (hr : Along step R s l) : Along step (fun s a => Q s a ∧ R s a) s l := by
  induction l generalizing s with
  | nil => trivial
  | cons a l ih => exact ⟨⟨hq.1, hr.1⟩, ih hq.2 hr.2⟩

lemma along_append {Q : σ → α → Prop} {s : σ} {l₁ l₂ : List α} :
    Along step Q s (l₁ ++ l₂) ↔ Along step Q s l₁ ∧ Along step Q (run step s l₁) l₂ := by
  induction l₁ generalizing s with
  | nil => exact (and_iff_right trivial).symm
  | cons a l ih =>
    rw [List.cons_append, along_cons, along_cons, ih, and_assoc, run_cons]

instance Along.decidable {Q : σ → α → Prop} [∀ s a, Decidable (Q s a)] :
    ∀ s l, Decidable (Along step Q s l)
  | _, [] => isTrue trivial
  | s, a :: l =>
    have := Along.decidable (Q := Q) (step s a) l
    inferInstanceAs (Decidable (Q s a ∧ Along step Q (step s a) l))

/-- **The invariant rule.** -/
theorem run_inv {P : σ → Prop} {Q : σ → α → Prop}
    (hstep : ∀ s a, P s → Q s a → P (step s a)) {s : σ} {l : List α} (hs : P s)
    (hl : Along step Q s l) : P (run step s l) := by
  induction l generalizing s with
  | nil => exact hs
  | cons a l ih => exact ih (hstep s a hs hl.1) hl.2

/-- The invariant rule for steps that need no side condition. -/
theorem run_inv_all {P : σ → Prop} (hstep : ∀ s a, P s → P (step s a)) {s : σ} (l : List α)
    (hs : P s) : P (run step s l) := by
  induction l generalizing s with
  | nil => exact hs
  | cons a l ih => exact ih (hstep s a hs)

end Run

/-! ### Runs with outputs -/

section Trace

variable {σ τ α β : Type*}

/-- Carry out a list of actions that each give an output. -/
def trace (step : σ → α → β × σ) : σ → List α → List β × σ
  | s, [] => ([], s)
  | s, a :: l =>
    let (b, s) := step s a
    let (bs, s) := trace step s l
    (b :: bs, s)

/-- The state after an action. -/
def after (step : σ → α → β × σ) (s : σ) (a : α) : σ := (step s a).2

lemma trace_snd (step : σ → α → β × σ) (s : σ) (l : List α) :
    (trace step s l).2 = run (after step) s l := by
  induction l generalizing s with
  | nil => rfl
  | cons a l ih => exact ih (step s a).2

variable {f : σ → α → β × σ} {g : τ → α → β × τ} {R : σ → τ → Prop} {s : σ} {t : τ} {l : List α}

/-- **The simulation rule.** Where every action that meets the side condition keeps two states related
and gives the same output in both, a run of such actions does. -/
theorem trace_sim_along {Q : σ → α → Prop}
    (hstep : ∀ s t a, R s t → Q s a → (f s a).1 = (g t a).1 ∧ R (f s a).2 (g t a).2)
    (h : R s t) (hl : Along (after f) Q s l) :
    (trace f s l).1 = (trace g t l).1 ∧ R (trace f s l).2 (trace g t l).2 := by
  induction l generalizing s t with
  | nil => exact ⟨rfl, h⟩
  | cons a l ih =>
    obtain ⟨h1, h2⟩ := hstep s t a h hl.1
    obtain ⟨h3, h4⟩ := ih h2 hl.2
    exact ⟨by simp only [trace, h1, h3], h4⟩

/-- The simulation rule for a side condition that does not depend on the state. -/
theorem trace_sim {Q : α → Prop}
    (hstep : ∀ s t a, R s t → Q a → (f s a).1 = (g t a).1 ∧ R (f s a).2 (g t a).2)
    (h : R s t) (hl : ∀ a ∈ l, Q a) :
    (trace f s l).1 = (trace g t l).1 ∧ R (trace f s l).2 (trace g t l).2 :=
  trace_sim_along (Q := fun _ a => Q a) hstep h (along_of_forall hl)

/-- The simulation rule for a relation that counts the actions it still allows, with outputs that are
compared as `π` and `ρ` see them. -/
theorem trace_sim_count {β' γ : Type*} {g : τ → α → β' × τ} {π : β → γ} {ρ : β' → γ}
    {R : ℕ → σ → τ → Prop}
    (hstep : ∀ k s t a, R (k + 1) s t → π (f s a).1 = ρ (g t a).1 ∧ R k (f s a).2 (g t a).2)
    {k : ℕ} (h : R (k + l.length) s t) :
    (trace f s l).1.map π = (trace g t l).1.map ρ ∧ R k (trace f s l).2 (trace g t l).2 := by
  induction l generalizing s t with
  | nil => exact ⟨rfl, h⟩
  | cons a l ih =>
    obtain ⟨h1, h2⟩ := hstep (k + l.length) s t a h
    obtain ⟨h3, h4⟩ := ih h2
    exact ⟨by simp only [trace, List.map_cons, h1, h3], h4⟩

/-- A client that chooses every action from the outputs it has got so far, and stops where it
chooses none: the outputs and the state after `n` actions at most. -/
def dialogue (step : σ → α → β × σ) (client : List β → Option α) : ℕ → List β → σ → List β × σ
  | 0, bs, s => (bs, s)
  | n + 1, bs, s =>
    match client bs with
    | none => (bs, s)
    | some a => dialogue step client n (bs ++ [(step s a).1]) (step s a).2

/-- **The simulation rule for clients.** No client can tell the two apart. -/
theorem dialogue_sim
    (hstep : ∀ s t a, R s t → (f s a).1 = (g t a).1 ∧ R (f s a).2 (g t a).2)
    (client : List β → Option α) (n : ℕ) (bs : List β) (h : R s t) :
    (dialogue f client n bs s).1 = (dialogue g client n bs t).1 ∧
      R (dialogue f client n bs s).2 (dialogue g client n bs t).2 := by
  induction n generalizing bs s t with
  | zero => exact ⟨rfl, h⟩
  | succ n ih =>
    unfold dialogue
    cases client bs with
    | none => exact ⟨rfl, h⟩
    | some a =>
      obtain ⟨h1, h2⟩ := hstep s t a h
      dsimp only
      rw [h1]
      exact ih _ h2

end Trace

end LunariaOS.Lib
