import LunariaOS.Lib.Ring
import LunariaOS.Lib.Run

/-!
The ring of scancodes between the keyboard interrupt and its reader in `keyboard.c`.

`keyboard_handler` runs to its end each time a scancode arrives, between any two accesses of
`kbd_getc` or `kbd_flush` to the ring. These two do one access after the other: the test of their
loop, the read of the oldest scancode, the move of `tail`. The interrupt never writes `tail`, so the
test takes place at the moment at which `head` is read.
-/

namespace LunariaOS.Kbd

open LunariaOS.Lib

/-- `BUF_SIZE`. -/
def bufSize : ℕ := 256

/-- What the reader does next. -/
inductive Next where
  /-- No call is going on. -/
  | idle
  /-- `kbd_getc`: `while (head == tail)`. -/
  | wait
  /-- `kbd_getc`: `scancode = buffer[tail]`. -/
  | fetch
  /-- `kbd_getc`: `tail = (tail + 1) % BUF_SIZE`, after which it decodes the scancode. -/
  | take (scancode : UInt8)
  /-- `kbd_flush`: `while (head != tail)`. -/
  | test
  /-- `kbd_flush`: `tail = (tail + 1) % BUF_SIZE`. -/
  | discard

/-- The ring, and how far the reader is. -/
structure State where
  ring : RingBuffer UInt8
  next : Next

/-- The state at boot: an empty ring. -/
def boot : State where
  ring := { buffer := fun _ => 0, head := 0, tail := 0 }
  next := .idle

/-- What happens next: the interrupt of a scancode, a call of the reader, or its next access. A call
while another one goes on does nothing. -/
inductive Event where
  | interrupt (scancode : UInt8)
  | getc
  | flush
  | access

/-- What is seen of an event. -/
inductive Seen where
  /-- The interrupt has stored its scancode. -/
  | stored (scancode : UInt8)
  /-- The interrupt has dropped its scancode. -/
  | dropped (scancode : UInt8)
  /-- `kbd_getc` has taken a scancode from the ring. -/
  | taken (scancode : UInt8)
  /-- `kbd_flush` has passed over a scancode. -/
  | discarded (scancode : UInt8)
  /-- `kbd_flush` has found `head == tail` and leaves its loop. -/
  | flushed
  | nothing

/-- `keyboard_handler`. -/
def keyboardHandler (s : State) (sc : UInt8) : Seen × State :=
  let next := (s.ring.head + 1) % bufSize
  if next ≠ s.ring.tail then (.stored sc, { s with ring := s.ring.put bufSize sc })
  else (.dropped sc, s)

/-- The next access of the call that goes on. -/
def State.access (s : State) : Seen × State :=
  match s.next with
  | .idle => (.nothing, s)
  | .wait => (.nothing, if s.ring.head = s.ring.tail then s else { s with next := .fetch })
  | .fetch => (.nothing, { s with next := .take (s.ring.buffer s.ring.tail) })
  | .take sc => (.taken sc, { ring := s.ring.drop bufSize, next := .idle })
  | .test =>
    if s.ring.head ≠ s.ring.tail then (.nothing, { s with next := .discard })
    else (.flushed, { s with next := .idle })
  | .discard =>
    (.discarded (s.ring.buffer s.ring.tail), { ring := s.ring.drop bufSize, next := .test })

/-- Start a call. -/
def State.start (s : State) (next : Next) : Seen × State :=
  (.nothing, match s.next with
    | .idle => { s with next := next }
    | _ => s)

/-- One event. -/
def Event.exec (s : State) : Event → Seen × State
  | .interrupt sc => keyboardHandler s sc
  | .getc => s.start .wait
  | .flush => s.start .test
  | .access => s.access

/-! ### What is queued -/

/-- The scancodes that wait in the ring, the oldest first. -/
def State.queued (s : State) : List UInt8 := s.ring.queued bufSize

/-- The scancode that an event has put into the ring. -/
def Seen.arrival : Seen → Option UInt8
  | .stored sc => some sc
  | _ => none

/-- The scancode that an event has taken out of the ring. -/
def Seen.departure : Seen → Option UInt8
  | .taken sc => some sc
  | .discarded sc => some sc
  | _ => none

/-- The invariant: both indices lie in the buffer; past its loop test a call finds a scancode, and a
scancode that was read is still the oldest one when `tail` moves. -/
structure Inv (s : State) : Prop where
  bounds : s.ring.InBounds bufSize
  fetch : s.next = .fetch → s.ring.head ≠ s.ring.tail
  take : ∀ sc, s.next = .take sc → s.ring.head ≠ s.ring.tail ∧ s.ring.buffer s.ring.tail = sc
  discard : s.next = .discard → s.ring.head ≠ s.ring.tail

lemma inv_boot : Inv boot where
  bounds := ⟨by decide, by decide⟩
  fetch := by rintro ⟨⟩
  take := by rintro _ ⟨⟩
  discard := by rintro ⟨⟩

/-- What an event does: the invariant stays, and the queue gets what arrives at its end and loses
what departs at its front. -/
structure Moves (s : State) (out : Seen) (s' : State) : Prop where
  inv : Inv s'
  queue : s.queued ++ out.arrival.toList = out.departure.toList ++ s'.queued

variable {s : State}

/-- A scancode arrives: it is dropped when 255 wait, and else it is the last one to wait. -/
lemma keyboardHandler_cases (h : Inv s) (sc : UInt8) :
    s.queued.length = 255 ∧ keyboardHandler s sc = (.dropped sc, s) ∨
      s.queued.length ≠ 255 ∧ (s.ring.head + 1) % bufSize ≠ s.ring.tail ∧
        keyboardHandler s sc = (.stored sc, { s with ring := s.ring.put bufSize sc }) := by
  have hfull := RingBuffer.full_iff h.bounds
  unfold keyboardHandler
  simp only
  by_cases hc : (s.ring.head + 1) % bufSize = s.ring.tail
  · exact Or.inl ⟨hfull.mp hc, if_neg (not_not.mpr hc)⟩
  · exact Or.inr ⟨fun hx => hc (hfull.mpr hx), hc, if_pos hc⟩

/-- A scancode that is stored leaves those that wait where they are. -/
lemma put_oldest (h : s.ring.head ≠ s.ring.tail) (sc : UInt8) :
    (s.ring.put bufSize sc).buffer s.ring.tail = s.ring.buffer s.ring.tail := if_neg h.symm

lemma moves_interrupt (h : Inv s) (sc : UInt8) :
    Moves s (keyboardHandler s sc).1 (keyboardHandler s sc).2 := by
  rcases keyboardHandler_cases h sc with ⟨-, he⟩ | ⟨-, hroom, he⟩
  · rw [he]
    exact ⟨h, List.append_nil _⟩
  · rw [he]
    refine ⟨⟨h.bounds.put sc, fun _ => hroom, fun x hx => ⟨hroom, ?_⟩, fun _ => hroom⟩, ?_⟩
    · obtain ⟨hne, hx⟩ := h.take x hx
      exact (put_oldest hne sc).trans hx
    · exact (RingBuffer.queued_put h.bounds hroom sc).symm

lemma moves_start (h : Inv s) {next : Next} (hn : next = .wait ∨ next = .test) :
    Moves s (s.start next).1 (s.start next).2 := by
  unfold State.start
  obtain ⟨ring, now⟩ := s
  refine ⟨?_, ?_⟩
  · cases now with
    | idle =>
      rcases hn with rfl | rfl <;>
        exact ⟨h.bounds, by rintro ⟨⟩, by rintro _ ⟨⟩, by rintro ⟨⟩⟩
    | _ => exact h
  · cases now <;> exact List.append_nil _

lemma moves_access (h : Inv s) : Moves s s.access.1 s.access.2 := by
  unfold State.access
  obtain ⟨ring, now⟩ := s
  have hb : ring.InBounds bufSize := h.bounds
  cases now with
  | idle => exact ⟨h, List.append_nil _⟩
  | wait =>
    simp only
    split_ifs with hc
    · exact ⟨h, List.append_nil _⟩
    · exact ⟨⟨hb, fun _ => hc, by rintro _ ⟨⟩, by rintro ⟨⟩⟩, List.append_nil _⟩
  | fetch =>
    have hne : ring.head ≠ ring.tail := h.fetch rfl
    refine ⟨⟨hb, by rintro ⟨⟩, fun sc hsc => ⟨hne, ?_⟩, by rintro ⟨⟩⟩, List.append_nil _⟩
    injection hsc
  | take sc =>
    have hsc : ring.head ≠ ring.tail ∧ ring.buffer ring.tail = sc := h.take sc rfl
    obtain ⟨hne, rfl⟩ := hsc
    refine ⟨⟨hb.drop, by rintro ⟨⟩, by rintro _ ⟨⟩, by rintro ⟨⟩⟩, ?_⟩
    exact (List.append_nil _).trans (RingBuffer.queued_drop hb hne)
  | test =>
    simp only
    split_ifs with hc
    · exact ⟨⟨hb, by rintro ⟨⟩, by rintro _ ⟨⟩, fun _ => hc⟩, List.append_nil _⟩
    · exact ⟨⟨hb, by rintro ⟨⟩, by rintro _ ⟨⟩, by rintro ⟨⟩⟩, List.append_nil _⟩
  | discard =>
    have hne : ring.head ≠ ring.tail := h.discard rfl
    refine ⟨⟨hb.drop, by rintro ⟨⟩, by rintro _ ⟨⟩, by rintro ⟨⟩⟩, ?_⟩
    exact (List.append_nil _).trans (RingBuffer.queued_drop hb hne)

/-- `kbd_flush` leaves its loop in a test that finds the ring empty. -/
lemma queued_of_flushed (h : Inv s) {e : Event} (he : (e.exec s).1 = .flushed) : s.queued = [] := by
  obtain ⟨ring, now⟩ := s
  cases e with
  | interrupt sc =>
    rcases keyboardHandler_cases h sc with ⟨-, hx⟩ | ⟨-, -, hx⟩ <;>
      exact absurd ((congrArg Prod.fst hx).symm.trans he) (by rintro ⟨⟩)
  | getc => cases he
  | flush => cases he
  | access =>
    cases now with
    | test =>
      by_cases hc : ring.head = ring.tail
      · exact (RingBuffer.empty_iff h.bounds).mp hc
      · unfold Event.exec State.access at he
        simp only at he
        rw [if_pos hc] at he
        cases he
    | _ => cases he

/-- **The step lemma.** -/
theorem moves (h : Inv s) (e : Event) : Moves s (e.exec s).1 (e.exec s).2 := by
  cases e with
  | interrupt sc => exact moves_interrupt h sc
  | getc => exact moves_start h (Or.inl rfl)
  | flush => exact moves_start h (Or.inr rfl)
  | access => exact moves_access h

/-! ### Runs -/

/-- **The run lemma**: what was queued and what has arrived is, in this order, what has departed and
what is queued now. -/
theorem moves_run (h : Inv s) (l : List Event) :
    Inv (trace Event.exec s l).2 ∧
      s.queued ++ (trace Event.exec s l).1.filterMap Seen.arrival =
        (trace Event.exec s l).1.filterMap Seen.departure ++ (trace Event.exec s l).2.queued := by
  induction l generalizing s with
  | nil => exact ⟨h, List.append_nil _⟩
  | cons e l ih =>
    obtain ⟨hi, hq⟩ := moves h e
    obtain ⟨h1, h2⟩ := ih hi
    refine ⟨h1, ?_⟩
    have hcons : ∀ f : Seen → Option UInt8, ∀ o outs,
        List.filterMap f (o :: outs) = (f o).toList ++ List.filterMap f outs := by
      intro f o outs
      rw [List.filterMap_cons]
      cases f o <;> rfl
    simp only [trace, hcons]
    rw [← List.append_assoc, hq, List.append_assoc, h2, List.append_assoc]

/-- **The keyboard ring is a queue.** Whatever the interrupts and the calls do, and in whatever order:
the indices stay in the buffer and at most 255 scancodes wait; the scancodes that were stored are,
in order of arrival, those that `kbd_getc` has taken or `kbd_flush` has passed over and then those
that wait; a scancode that arrives is dropped exactly when 255 wait, and else it is the last to wait;
`kbd_flush` leaves its loop only when none waits. -/
theorem keyboard_ring (l : List Event) :
    let outs := (trace Event.exec boot l).1
    let s := (trace Event.exec boot l).2
    s.ring.head < 256 ∧ s.ring.tail < 256 ∧ s.queued.length ≤ 255 ∧
      outs.filterMap Seen.arrival = outs.filterMap Seen.departure ++ s.queued ∧
      (∀ sc, (Event.exec s (.interrupt sc)).1 = .dropped sc ∧ s.queued.length = 255 ∨
        (Event.exec s (.interrupt sc)).1 = .stored sc ∧ s.queued.length < 255) ∧
      ∀ e, (Event.exec s e).1 = .flushed → s.queued = [] := by
  obtain ⟨hi, hq⟩ := moves_run inv_boot l
  intro outs s
  have hlt : s.queued.length < 256 := (RingBuffer.length_queued).trans_lt hi.bounds.count_lt
  refine ⟨hi.bounds.head_lt, hi.bounds.tail_lt, by omega, hq, fun sc => ?_, fun e he => ?_⟩
  · rcases keyboardHandler_cases hi sc with ⟨hfull, he⟩ | ⟨hroom, -, he⟩
    · exact Or.inl ⟨congrArg Prod.fst he, hfull⟩
    · have hroom' : s.queued.length ≠ 255 := hroom
      exact Or.inr ⟨congrArg Prod.fst he, by omega⟩
  · exact queued_of_flushed hi he

end LunariaOS.Kbd
