import Mathlib.Data.Fintype.Defs
import LunariaOS.Kbd.Ring

/-!
The modifiers of `keyboard.c`.

`kbd_getc` decodes one scancode after it has taken it from the ring. `Told` is what the keyboard has told
after some of its bytes, by the rules of scancode set 1: which keys are held, and whether a code is
underway. The same bytes are told three times, when they arrive, when they leave the ring, and when
`kbd_getc` has read them.
-/

namespace LunariaOS.Kbd

open LunariaOS.Lib

/-! ### The code -/

def keyUp : ℤ := 0xE0
def keyDown : ℤ := 0xE1
def keyLeft : ℤ := 0xE2
def keyRight : ℤ := 0xE3

/-- The modifiers. -/
inductive Mod where
  | shift
  | ctrl
  | alt
  | super
deriving DecidableEq

instance : Fintype Mod := ⟨{.shift, .ctrl, .alt, .super}, fun m => by cases m <;> decide⟩

/-- `MOD_SHIFT`, `MOD_CTRL`, `MOD_ALT` and `MOD_SUPER`. -/
def Mod.mask : Mod → BitVec 32
  | .shift => 0x01
  | .ctrl => 0x02
  | .alt => 0x04
  | .super => 0x08

/-- The entry of a table of characters, given as the runs of entries that are not NUL. -/
def entry (table : List (ℕ × List Char)) (scancode : UInt8) : ℤ :=
  match table.find? fun r => r.1 ≤ scancode.toNat ∧ scancode.toNat < r.1 + r.2.length with
  | some r => (r.2.getD (scancode.toNat - r.1) '\x00').toNat
  | none => 0

def scancodes : List (ℕ × List Char) :=
  [(0x01, ['\x1b']), (0x02, "1234567890-=\x08\tqwertyuiop[]\n".toList),
    (0x1e, "asdfghjkl;'`".toList), (0x2b, "\\zxcvbnm,./".toList), (0x37, ['*']), (0x39, [' '])]

def scancodesShift : List (ℕ × List Char) :=
  [(0x01, ['\x1b']), (0x02, "!@#$%^&*()_+\x08\tQWERTYUIOP\x7b\x7d\n".toList),
    (0x1e, "ASDFGHJKL:\x22~".toList), (0x2b, "|ZXCVBNM<>?".toList), (0x37, ['*']), (0x39, [' '])]

/-- `modifiers`, `caps_lock` and `extended`. -/
structure Decoder where
  modifiers : BitVec 32
  capsLock : Bool
  extended : Bool

namespace Decoder

/-- `modifiers |= MOD_…`. -/
def set (d : Decoder) (m : Mod) : Decoder := { d with modifiers := d.modifiers ||| m.mask }

/-- `modifiers &= ~MOD_…`. -/
def clear (d : Decoder) (m : Mod) : Decoder := { d with modifiers := d.modifiers &&& ~~~m.mask }

/-- `kbd_mods`. -/
def kbdMods (d : Decoder) : BitVec 32 := d.modifiers

/-- A break code: the switches on `scancode & 0x7f`. -/
def released (d : Decoder) (key : UInt8) : Decoder :=
  if d.extended then
    let d := { d with extended := false }
    if key = 0x1d then d.clear .ctrl
    else if key = 0x38 then d.clear .alt
    else if key = 0x5b ∨ key = 0x5c then d.clear .super
    else d
  else if key = 0x2a ∨ key = 0x36 then d.clear .shift
  else if key = 0x1d then d.clear .ctrl
  else if key = 0x38 then d.clear .alt
  else d

/-- A make code after `0xe0`. -/
def extendedMake (d : Decoder) (scancode : UInt8) : ℤ × Decoder :=
  let d := { d with extended := false }
  if scancode = 0x1d then (0, d.set .ctrl)
  else if scancode = 0x38 then (0, d.set .alt)
  else if scancode = 0x5b ∨ scancode = 0x5c then (0, d.set .super)
  else if scancode = 0x48 then (keyUp, d)
  else if scancode = 0x50 then (keyDown, d)
  else if scancode = 0x4b then (keyLeft, d)
  else if scancode = 0x4d then (keyRight, d)
  else (0, d)

/-- The character of a make code. -/
def character (d : Decoder) (scancode : UInt8) : ℤ :=
  let base := entry scancodes scancode
  let shifted := entry scancodesShift scancode
  let shift : Bool := d.modifiers &&& Mod.shift.mask ≠ 0
  if 97 ≤ base ∧ base ≤ 122 then (if shift ^^ d.capsLock then shifted else base)
  else if shift then shifted else base

/-- A make code without `0xe0`. -/
def plainMake (d : Decoder) (scancode : UInt8) : ℤ × Decoder :=
  if scancode = 0x2a ∨ scancode = 0x36 then (0, d.set .shift)
  else if scancode = 0x1d then (0, d.set .ctrl)
  else if scancode = 0x38 then (0, d.set .alt)
  else if scancode = 0x3a then (0, { d with capsLock := !d.capsLock })
  else (d.character scancode, d)

/-- `kbd_getc` after it has moved `tail`. -/
def decode (d : Decoder) (scancode : UInt8) : ℤ × Decoder :=
  if scancode = 0xe0 then (0, { d with extended := true })
  else if scancode &&& 0x80 ≠ 0 then (0, d.released (scancode &&& 0x7f))
  else if d.extended then d.extendedMake scancode
  else d.plainMake scancode

/-- What an access of the reader does to the decoder: `kbd_getc` decodes the scancode that it has taken,
and `kbd_flush` ends with `extended = 0`. -/
def see (d : Decoder) : Seen → Decoder
  | .taken scancode => (d.decode scancode).2
  | .flushed => { d with extended := false }
  | _ => d

end Decoder

/-! ### Scancode set 1 -/

/-- A key: whether its codes follow `0xE0`, and its make code. -/
structure Key where
  ext : Bool
  code : UInt8
deriving DecidableEq

/-- The keys of a modifier. -/
def Mod.keys : Mod → List Key
  | .shift => [⟨false, 0x2a⟩, ⟨false, 0x36⟩]
  | .ctrl => [⟨false, 0x1d⟩, ⟨true, 0x1d⟩]
  | .alt => [⟨false, 0x38⟩, ⟨true, 0x38⟩]
  | .super => [⟨true, 0x5b⟩, ⟨true, 0x5c⟩]

/-- What the Pause key sends at once when it is pressed. It has no break code. -/
def pauseCode : List UInt8 := [0xe1, 0x1d, 0x45, 0xe1, 0x9d, 0xc5]

/-- What the keyboard has told. -/
structure Told where
  /-- The last byte is `0xE0`. -/
  ext : Bool
  /-- How many bytes of an unfinished `pauseCode` came. -/
  pause : ℕ
  held : Key → Bool

/-- A make code. Its break code has the highest bit set. -/
def IsMake (b : UInt8) : Prop := b &&& 0x80 = 0

instance (b : UInt8) : Decidable (IsMake b) := inferInstanceAs (Decidable (_ = _))

namespace Told

/-- Nothing is held. -/
def start : Told := ⟨false, 0, fun _ => false⟩

/-- The key of which a byte is the code. -/
def key (t : Told) (b : UInt8) : Option Key :=
  if t.pause ≠ 0 then none
  else if t.ext then some ⟨true, b &&& 0x7f⟩
  else if b = 0xe0 ∨ b = 0xe1 then none
  else some ⟨false, b &&& 0x7f⟩

/-- One more byte. -/
def next (t : Told) (b : UInt8) : Told where
  ext := t.pause = 0 ∧ t.ext = false ∧ b = 0xe0
  pause := if t.pause = 0 then (if t.ext = false ∧ b = 0xe1 then 1 else 0) else (t.pause + 1) % 6
  held :=
    match t.key b with
    | some k => Function.update t.held k (decide (IsMake b))
    | none => t.held

/-- A byte the keyboard can send next. A held key repeats its make code, and a break code comes from a
key that is held; the keyboard also puts make and break codes of a shift key behind `0xE0` around
those of other keys. With Ctrl held, Pause sends the codes of Break, which is an ordinary key. No key
has one of the two prefixes as its break code. -/
def Possible (t : Told) (b : UInt8) : Prop :=
  if t.pause ≠ 0 then pauseCode[t.pause]? = some b
  else if t.ext = false ∧ b = 0xe0 then True
  else if t.ext = false ∧ b = 0xe1 then ∀ k ∈ Mod.ctrl.keys, t.held k = false
  else b ≠ 0xe0 ∧ b ≠ 0xe1 ∧
    (IsMake b ∨ t.held ⟨t.ext, b &&& 0x7f⟩ ∨ t.ext ∧ (b &&& 0x7f = 0x2a ∨ b &&& 0x7f = 0x36))

instance (t : Told) (b : UInt8) : Decidable (t.Possible b) := by
  unfold Possible
  infer_instance

/-- A key of a modifier is held. -/
def Holds (t : Told) (m : Mod) : Prop := ∃ k ∈ m.keys, t.held k

instance (t : Told) (m : Mod) : Decidable (t.Holds m) := inferInstanceAs (Decidable (∃ _ ∈ _, _))

/-- A modifier is down in what the keyboard has told. Inside `pauseCode` the code of a Ctrl key stands,
and its break code behind it. -/
def Down (t : Told) (m : Mod) : Prop := t.Holds m ∨ m = .ctrl ∧ 2 ≤ t.pause ∧ t.pause ≤ 4

instance (t : Told) (m : Mod) : Decidable (t.Down m) := inferInstanceAs (Decidable (_ ∨ _))

end Told

/-! ### The keyboard, the ring and its reader -/

/-- The program with what the keyboard has told. -/
structure Sys where
  kbd : State
  dec : Decoder
  /-- With the bytes that have arrived. -/
  pressed : Told
  /-- With the bytes that have left the ring. -/
  passed : Told
  /-- The same, but without the bytes of a `kbd_flush` that goes on. -/
  read : Told

namespace Sys

def boot : Sys where
  kbd := Kbd.boot
  dec := { modifiers := 0, capsLock := false, extended := false }
  pressed := .start
  passed := .start
  read := .start

/-- What is seen of an event, and the ring after it. -/
def absorb (s : Sys) (r : Seen × State) : Sys :=
  let passed := run Told.next s.passed r.1.departure.toList
  { kbd := r.2
    dec := s.dec.see r.1
    pressed := run Told.next s.pressed r.1.arrival.toList
    passed := passed
    read := match r.1 with
      | .taken _ | .flushed => passed
      | _ => s.read }

/-- One event. -/
def step (s : Sys) (e : Event) : Sys := s.absorb (e.exec s.kbd)

/-- The keyboard can send the scancode, and the ring has room for it. -/
def Possible (s : Sys) : Event → Prop
  | .interrupt sc => s.kbd.queued.length < 255 ∧ s.pressed.Possible sc
  | _ => True

instance (s : Sys) : ∀ e, Decidable (s.Possible e)
  | .interrupt _ => inferInstanceAs (Decidable (_ ∧ _))
  | .getc | .flush | .access => isTrue trivial

/-- The other key of the modifier is not held when `kbd_getc` reads the break code of a key. -/
def Single (s : Sys) (sc : UInt8) : Prop :=
  ∀ k ∈ s.passed.key sc, ¬ IsMake sc → ∀ m ≠ Mod.super, k ∈ m.keys →
    ∀ k' ∈ m.keys, k' ≠ k → s.passed.held k' = false

instance (s : Sys) (sc : UInt8) : Decidable (s.Single sc) :=
  inferInstanceAs (Decidable (∀ _ ∈ _, _))

/-- No `kbd_flush` has ended between `0xE0` and the code of a shift key behind it. -/
def Whole (s : Sys) (sc : UInt8) : Prop :=
  s.passed.ext → sc &&& 0x7f = 0x2a ∨ sc &&& 0x7f = 0x36 → s.dec.extended

instance (s : Sys) (sc : UInt8) : Decidable (s.Whole sc) := inferInstanceAs (Decidable (_ → _))

/-- The condition on a step. Where `kbd_flush` ends, the codes that it has passed over have left every
modifier as it was. -/
def Safe (s : Sys) (e : Event) : Prop :=
  match e, s.kbd.next with
  | .access, .take sc => s.Single sc ∧ s.Whole sc
  | .access, .test =>
    s.kbd.ring.head = s.kbd.ring.tail → ∀ m ≠ Mod.super, (s.read.Down m ↔ s.passed.Down m)
  | _, _ => True

instance (s : Sys) (e : Event) : Decidable (s.Safe e) := by
  unfold Safe
  split <;> infer_instance

/-- The ring has been drained, of whole codes. -/
structure Drained (s : Sys) : Prop where
  idle : s.kbd.next = .idle
  empty : s.kbd.queued = []
  whole : s.pressed.pause = 0

/-- `kbd_mods` tells which modifiers are held. -/
def Agrees (s : Sys) : Prop :=
  ∀ m ≠ Mod.super, (s.dec.kbdMods &&& m.mask ≠ 0 ↔ s.pressed.Holds m)

end Sys

/-! ### What a scancode does to the modifiers -/

/-- The place of the bit of a modifier. -/
def Mod.bit : Mod → ℕ
  | .shift => 0
  | .ctrl => 1
  | .alt => 2
  | .super => 3

lemma Mod.mask_eq (m : Mod) : m.mask = BitVec.twoPow 32 m.bit := by cases m <;> rfl

lemma Mod.bit_inj {m n : Mod} : m.bit = n.bit ↔ m = n := by cases m <;> cases n <;> decide

lemma Mod.bit_lt (m : Mod) : m.bit < 32 := by cases m <;> decide

namespace Decoder

variable {d : Decoder} {m n : Mod} {sc : UInt8}

/-- The bit of a modifier is set. -/
def Has (d : Decoder) (m : Mod) : Prop := d.modifiers &&& m.mask ≠ 0

instance : Decidable (d.Has m) := inferInstanceAs (Decidable (_ ≠ _))

lemma has_iff : d.Has m ↔ d.modifiers.getLsbD m.bit = true := by
  have hne : BitVec.twoPow 32 m.bit ≠ 0 := by cases m <;> decide
  unfold Has
  rw [m.mask_eq, BitVec.and_twoPow]
  split_ifs with h
  · exact iff_of_true hne h
  · exact iff_of_false (not_not.mpr rfl) h

lemma has_set : (d.set m).Has n ↔ m = n ∨ d.Has n := by
  rw [has_iff, has_iff, ← Mod.bit_inj]
  unfold set
  simp [m.mask_eq, m.bit_lt, or_comm]

lemma has_clear : (d.clear m).Has n ↔ n ≠ m ∧ d.Has n := by
  rw [has_iff, has_iff, ne_eq, ← Mod.bit_inj]
  unfold clear
  simp [m.mask_eq, n.bit_lt, and_comm]

lemma has_mk {x : BitVec 32} {caps ext : Bool} :
    (⟨x, caps, ext⟩ : Decoder).Has m ↔ x &&& m.mask ≠ 0 := Iff.rfl

/-- The low seven bits of a make code are all of it. -/
lemma low_of_make (h : IsMake sc) : sc &&& 0x7f = sc := by
  have hbits : ∀ x : BitVec 8, x &&& 0x80 = 0 → x &&& 0x7f = x := by decide
  exact UInt8.toBitVec_inj.mp (hbits sc.toBitVec (UInt8.toBitVec_inj.mpr h))

/-- A break code clears the bit of the modifier of its key. -/
lemma has_released {key : UInt8} :
    (d.released key).Has m ↔ ⟨d.extended, key⟩ ∉ m.keys ∧ d.Has m := by
  obtain ⟨modifiers, caps, ext⟩ := d
  unfold released
  cases ext with
  | true =>
    rw [if_pos rfl]
    dsimp only
    split_ifs with h1 h2 h3
    · subst h1
      cases m <;> simp [has_clear, has_mk, Mod.keys]
    · subst h2
      cases m <;> simp [has_clear, has_mk, Mod.keys]
    · obtain rfl | rfl := h3 <;> cases m <;> simp [has_clear, has_mk, Mod.keys]
    · cases m <;> simp_all [has_mk, Mod.keys]
  | false =>
    rw [if_neg Bool.false_ne_true]
    split_ifs with h1 h2 h3
    · obtain rfl | rfl := h1 <;> cases m <;> simp [has_clear, Mod.keys]
    · subst h2
      cases m <;> simp [has_clear, Mod.keys]
    · subst h3
      cases m <;> simp [has_clear, Mod.keys]
    · cases m <;> simp_all [Mod.keys]

lemma has_extendedMake :
    (d.extendedMake sc).2.Has m ↔ ⟨true, sc⟩ ∈ m.keys ∨ d.Has m := by
  obtain ⟨modifiers, caps, ext⟩ := d
  unfold extendedMake
  dsimp only
  split_ifs with h1 h2 h3 h4 h5 h6 h7
  · subst h1
    cases m <;> simp [has_set, has_mk, Mod.keys]
  · subst h2
    cases m <;> simp [has_set, has_mk, Mod.keys]
  · obtain rfl | rfl := h3 <;> cases m <;> simp [has_set, has_mk, Mod.keys]
  -- the arrow keys, and the keys without a meaning
  all_goals cases m <;> simp_all [has_mk, Mod.keys]

lemma has_plainMake :
    (d.plainMake sc).2.Has m ↔ ⟨false, sc⟩ ∈ m.keys ∨ d.Has m := by
  obtain ⟨modifiers, caps, ext⟩ := d
  unfold plainMake
  split_ifs with h1 h2 h3 h4
  · obtain rfl | rfl := h1 <;> cases m <;> simp [has_set, Mod.keys]
  · subst h2
    cases m <;> simp [has_set, Mod.keys]
  · subst h3
    cases m <;> simp [has_set, Mod.keys]
  all_goals cases m <;> simp_all [has_mk, Mod.keys]

/-- **A scancode** behind `0xE0` or not changes the modifier of its key, and no other one. -/
lemma has_decode (h : sc ≠ 0xe0) :
    (d.decode sc).2.Has m ↔
      if ⟨d.extended, sc &&& 0x7f⟩ ∈ m.keys then IsMake sc else d.Has m := by
  unfold decode
  rw [if_neg h]
  by_cases hmake : IsMake sc
  · have hx : ¬ sc &&& 0x80 ≠ 0 := not_not.mpr hmake
    rw [if_neg hx, low_of_make hmake]
    cases hext : d.extended
    · rw [if_neg Bool.false_ne_true, has_plainMake]
      split_ifs with hk
      · exact iff_of_true (Or.inl hk) hmake
      · exact or_iff_right hk
    · rw [if_pos rfl, has_extendedMake]
      split_ifs with hk
      · exact iff_of_true (Or.inl hk) hmake
      · exact or_iff_right hk
  · have hx : sc &&& 0x80 ≠ 0 := hmake
    rw [if_pos hx, has_released]
    split_ifs with hk
    · exact iff_of_false (fun hx => hx.1 hk) hmake
    · exact and_iff_right hk

/-- A scancode leaves `extended` set only if it is the prefix. -/
lemma extended_decode (h : (d.decode sc).2.extended = true) : sc = 0xe0 := by
  by_contra hne
  obtain ⟨modifiers, caps, ext⟩ := d
  unfold decode at h
  rw [if_neg hne] at h
  unfold released extendedMake plainMake clear set at h
  cases ext <;> dsimp only at h <;> grind

end Decoder

/-! ### What a byte tells -/

namespace Told

variable {t : Told} {b : UInt8} {k : Key} {m : Mod}

/-- Inside `pauseCode` no Ctrl key is held. -/
structure Sane (t : Told) : Prop where
  pause_lt : t.pause < 6
  ext : t.pause ≠ 0 → t.ext = false
  ctrl : t.pause ≠ 0 → ∀ k ∈ Mod.ctrl.keys, t.held k = false

lemma held_of_none (h : t.key b = none) : (t.next b).held = t.held := by
  unfold next
  rw [h]

lemma held_of_some (h : t.key b = some k) :
    (t.next b).held = Function.update t.held k (decide (IsMake b)) := by
  unfold next
  rw [h]

lemma key_of_pause (h : t.pause ≠ 0) : t.key b = none := if_pos h

lemma pause_next (h : t.pause ≠ 0) : (t.next b).pause = (t.pause + 1) % 6 := if_neg h

lemma sane_start : start.Sane where
  pause_lt := by decide
  ext := fun _ => rfl
  ctrl := fun _ _ _ => rfl

lemma Sane.next (h : t.Sane) (hb : t.Possible b) : (t.next b).Sane := by
  by_cases hp : t.pause = 0
  · by_cases he : t.ext = false ∧ b = 0xe1
    · -- the first byte of `pauseCode`
      obtain ⟨hext, rfl⟩ := he
      have hkey : t.key 0xe1 = none := by simp [key, hp, hext]
      have hctrl : ∀ k ∈ Mod.ctrl.keys, t.held k = false := by
        simpa [Possible, hp, hext] using hb
      refine ⟨by simp [Told.next, hp, hext], fun _ => by simp [Told.next], fun _ k hk => ?_⟩
      rw [held_of_none hkey]
      exact hctrl k hk
    · have hpause : (t.next b).pause = 0 := by simp [Told.next, hp, he]
      exact ⟨by omega, fun hx => absurd hpause hx, fun hx => absurd hpause hx⟩
  · refine ⟨?_, fun _ => by simp [Told.next, hp], fun _ => ?_⟩
    · rw [pause_next hp]
      omega
    · rw [held_of_none (key_of_pause hp)]
      exact h.ctrl hp

/-- A `0xE0` is always the prefix. -/
lemma ext_next (hs : t.Sane) (h : t.Possible 0xe0) : (t.next 0xe0).ext = true := by
  unfold Possible at h
  split_ifs at h with hp hx hx
  · have hlt := hs.pause_lt
    generalize t.pause = p at *
    interval_cases p <;> exact absurd h (by decide)
  · exact decide_eq_true ⟨not_not.mp hp, hx.1, rfl⟩
  · exact absurd hx.2 (by decide)
  · exact absurd rfl h.1

lemma holds_of_none (h : t.key b = none) : (t.next b).Holds m ↔ t.Holds m := by
  unfold Holds
  rw [held_of_none h]

/-- A code of a key of another modifier. -/
lemma holds_of_not_mem (h : t.key b = some k) (hk : k ∉ m.keys) :
    (t.next b).Holds m ↔ t.Holds m := by
  unfold Holds
  rw [held_of_some h]
  refine exists_congr fun k' => and_congr_right fun hk' => ?_
  have hne : k' ≠ k := fun heq => hk (heq ▸ hk')
  rw [Function.update_of_ne hne]

/-- A code of a key of the modifier whose other key is not held if it is a break code. -/
lemma holds_of_mem (h : t.key b = some k) (hk : k ∈ m.keys)
    (hsingle : ¬ IsMake b → ∀ k' ∈ m.keys, k' ≠ k → t.held k' = false) :
    (t.next b).Holds m ↔ IsMake b := by
  unfold Holds
  rw [held_of_some h]
  constructor
  · rintro ⟨k', hk', hheld⟩
    by_contra hmake
    by_cases heq : k' = k
    · rw [heq, Function.update_self] at hheld
      exact hmake (of_decide_eq_true hheld)
    · rw [Function.update_of_ne heq, hsingle hmake k' hk' heq] at hheld
      cases hheld
  · intro hmake
    exact ⟨k, hk, by rw [Function.update_self]; exact decide_eq_true hmake⟩

lemma down_of_pause (h : t.pause = 0) : t.Down m ↔ t.Holds m := by
  unfold Down
  rw [h]
  simp

end Told

/-! ### One scancode for the decoder and for the keyboard -/

section Decode

variable {t : Told} {d : Decoder} {m : Mod} {sc : UInt8}

/-- Inside `pauseCode` the decoder sees a Ctrl key pressed and released. -/
lemma decode_pause (hs : t.Sane) (hp : t.pause ≠ 0) (hsc : t.Possible sc)
    (hext : d.extended = true → t.ext = true) (hbit : d.Has m ↔ t.Down m) :
    (d.decode sc).2.Has m ↔ (t.next sc).Down m := by
  have hd : d.extended = false := by
    by_contra hx
    have hne := hext (Bool.eq_true_of_not_eq_false hx)
    rw [hs.ext hp] at hne
    cases hne
  have hcode : pauseCode[t.pause]? = some sc := by simpa [Told.Possible, hp] using hsc
  have hctrl : ¬ t.Holds .ctrl := fun ⟨k, hk, hheld⟩ => by
    rw [hs.ctrl hp k hk] at hheld
    cases hheld
  unfold Told.Down
  rw [Told.pause_next hp, Told.holds_of_none (Told.key_of_pause hp)]
  unfold Told.Down at hbit
  have hlt := hs.pause_lt
  generalize t.pause = p at *
  interval_cases p
  · exact absurd rfl hp
  all_goals
    obtain rfl : _ = sc := Option.some.inj hcode
    rw [Decoder.has_decode (by decide), hd]
    cases m <;> simp_all +decide

/-- After a `kbd_flush` inside of a code the decoder takes a key behind `0xE0` for the one without,
which makes no difference to the two Ctrl and the two Alt keys. -/
lemma mem_keys_ext {ext : Bool} (hm : m ≠ .super)
    (hext : d.extended = true → ext = true)
    (hwhole : ext → sc &&& 0x7f = 0x2a ∨ sc &&& 0x7f = 0x36 → d.extended) :
    ⟨d.extended, sc &&& 0x7f⟩ ∈ m.keys ↔ ⟨ext, sc &&& 0x7f⟩ ∈ m.keys := by
  cases hd : d.extended
  · cases ext
    · rfl
    · have hshift : ¬ (sc &&& 0x7f = 0x2a ∨ sc &&& 0x7f = 0x36) := fun hx => by
        rw [hwhole rfl hx] at hd
        cases hd
      cases m <;> simp_all [Mod.keys]
  · rw [hext hd]

/-- A code of a key. -/
lemma decode_key (hp : t.pause = 0) (hkey : t.key sc = some ⟨t.ext, sc &&& 0x7f⟩) (hsc : sc ≠ 0xe0)
    (hpause : (t.next sc).pause = 0) (hm : m ≠ .super) (hext : d.extended = true → t.ext = true)
    (hwhole : t.ext → sc &&& 0x7f = 0x2a ∨ sc &&& 0x7f = 0x36 → d.extended)
    (hsingle : ¬ IsMake sc → ⟨t.ext, sc &&& 0x7f⟩ ∈ m.keys →
      ∀ k' ∈ m.keys, k' ≠ ⟨t.ext, sc &&& 0x7f⟩ → t.held k' = false)
    (hbit : d.Has m ↔ t.Down m) :
    (d.decode sc).2.Has m ↔ (t.next sc).Down m := by
  rw [Decoder.has_decode hsc, Told.down_of_pause hpause]
  rw [Told.down_of_pause hp] at hbit
  by_cases hmem : ⟨t.ext, sc &&& 0x7f⟩ ∈ m.keys
  · rw [if_pos ((mem_keys_ext hm hext hwhole).mpr hmem),
      Told.holds_of_mem hkey hmem fun hmake => hsingle hmake hmem]
  · rw [if_neg fun hx => hmem ((mem_keys_ext hm hext hwhole).mp hx),
      Told.holds_of_not_mem hkey hmem, hbit]

/-- **A scancode that is read** keeps the modifiers of the decoder in step with the keyboard. -/
lemma decode_told (hs : t.Sane) (hsc : t.Possible sc) (hm : m ≠ .super)
    (hext : d.extended = true → t.ext = true)
    (hwhole : t.ext → sc &&& 0x7f = 0x2a ∨ sc &&& 0x7f = 0x36 → d.extended)
    (hsingle : ∀ k, t.key sc = some k → ¬ IsMake sc → k ∈ m.keys →
      ∀ k' ∈ m.keys, k' ≠ k → t.held k' = false)
    (hbit : d.Has m ↔ t.Down m) :
    (d.decode sc).2.Has m ↔ (t.next sc).Down m := by
  by_cases hp : t.pause = 0
  swap
  · exact decode_pause hs hp hsc hext hbit
  unfold Told.Possible at hsc
  rw [if_neg (not_not.mpr hp)] at hsc
  split_ifs at hsc with h0 h1
  · -- the prefix
    obtain ⟨hx, rfl⟩ := h0
    have hkey : t.key 0xe0 = none := by simp [Told.key, hp, hx]
    have hpause : (t.next 0xe0).pause = 0 := by simp [Told.next, hp]
    rw [Told.down_of_pause hpause, Told.holds_of_none hkey, ← Told.down_of_pause hp]
    exact hbit
  · -- the first byte of `pauseCode`
    obtain ⟨hx, rfl⟩ := h1
    have hkey : t.key 0xe1 = none := by simp [Told.key, hp, hx]
    have hpause : (t.next 0xe1).pause = 1 := by simp [Told.next, hp, hx]
    have hmem : ∀ ext : Bool, ⟨ext, 0xe1 &&& 0x7f⟩ ∉ m.keys := by cases m <;> decide
    rw [Decoder.has_decode (by decide), if_neg (hmem _), hbit]
    unfold Told.Down
    rw [hpause, Told.holds_of_none hkey, hp]
    simp
  · obtain ⟨hne0, hne1, -⟩ := hsc
    have hkey : t.key sc = some ⟨t.ext, sc &&& 0x7f⟩ := by
      unfold Told.key
      rw [if_neg (not_not.mpr hp)]
      cases t.ext <;> simp [hne0, hne1]
    have hpause : (t.next sc).pause = 0 := by simp [Told.next, hp, hne1]
    exact decode_key hp hkey hne0 hpause hm hext hwhole (hsingle _ hkey) hbit

end Decode

/-! ### Runs -/

namespace Sys

variable {s : Sys} {e : Event}

/-- A `kbd_flush` goes on. -/
def Flushing (k : State) : Prop := k.next = .test ∨ k.next = .discard

/-- What the ring holds is what the keyboard has told since. -/
structure Queues (s : Sys) : Prop where
  kbd : Inv s.kbd
  arrived : s.pressed = run Told.next s.passed s.kbd.queued
  possible : Along Told.next Told.Possible s.passed s.kbd.queued
  sane : s.passed.Sane

/-- The decoder is in step with what was read. -/
structure Follows (s : Sys) : Prop where
  read : ¬ Flushing s.kbd → s.read = s.passed
  bits : ∀ m ≠ Mod.super, (s.dec.Has m ↔ s.read.Down m)
  ext : ¬ Flushing s.kbd → s.dec.extended = true → s.passed.ext = true

/-- Only an interrupt puts a scancode into the ring. -/
lemma arrival_eq {k : State} {sc : UInt8} (h : (e.exec k).1.arrival = some sc) :
    e = .interrupt sc := by
  cases e with
  | interrupt x =>
    unfold Event.exec keyboardHandler at h
    dsimp only at h
    split_ifs at h
    · exact congrArg Event.interrupt (Option.some.inj h)
    · cases h
  | getc => cases h
  | flush => cases h
  | access =>
    unfold Event.exec State.access at h
    obtain ⟨ring, next⟩ := k
    cases next <;> dsimp only at h <;> try split_ifs at h
    all_goals cases h

lemma queues_step (h : s.Queues) (hp : s.Possible e) : (s.step e).Queues := by
  obtain ⟨hinv, hqueue⟩ := moves h.kbd e
  have harrival : Along Told.next Told.Possible s.pressed (e.exec s.kbd).1.arrival.toList := by
    cases ha : (e.exec s.kbd).1.arrival with
    | none => trivial
    | some sc =>
      obtain rfl := arrival_eq ha
      exact ⟨hp.2, trivial⟩
  have hall : Along Told.next Told.Possible s.passed
      ((e.exec s.kbd).1.departure.toList ++ (e.exec s.kbd).2.queued) := by
    rw [← hqueue, along_append]
    exact ⟨h.possible, h.arrived ▸ harrival⟩
  obtain ⟨hleft, hrest⟩ := along_append.mp hall
  have hsane : Told.Sane (run Told.next s.passed (e.exec s.kbd).1.departure.toList) :=
    run_inv (fun t b (ht : t.Sane) hb => ht.next hb) h.sane hleft
  refine ⟨hinv, ?_, hrest, hsane⟩
  show run Told.next s.pressed (e.exec s.kbd).1.arrival.toList =
    run Told.next (run Told.next s.passed (e.exec s.kbd).1.departure.toList) (e.exec s.kbd).2.queued
  rw [← run_append, ← hqueue, run_append, h.arrived]

/-- An event that takes nothing out of the ring and ends no `kbd_flush`. -/
lemma follows_quiet (h : s.Follows) {r : Seen × State}
    (hr : (∃ sc, r.1 = .stored sc) ∨ (∃ sc, r.1 = .dropped sc) ∨ r.1 = .nothing)
    (hflush : Flushing s.kbd → Flushing r.2) : (s.absorb r).Follows := by
  obtain ⟨out, k⟩ := r
  have hsame : (s.absorb (out, k)).read = s.read ∧ (s.absorb (out, k)).passed = s.passed ∧
      (s.absorb (out, k)).dec = s.dec := by
    obtain ⟨sc, rfl⟩ | ⟨sc, rfl⟩ | rfl := hr <;> exact ⟨rfl, rfl, rfl⟩
  obtain ⟨hread, hpassed, hdec⟩ := hsame
  refine ⟨fun hx => ?_, ?_, fun hx => ?_⟩
  · rw [hread, hpassed]
    exact h.read fun hf => hx (hflush hf)
  · rw [hdec, hread]
    exact h.bits
  · rw [hdec, hpassed]
    exact h.ext fun hf => hx (hflush hf)

lemma follows_interrupt (h : s.Follows) (sc : UInt8) : (s.step (.interrupt sc)).Follows := by
  show (s.absorb (keyboardHandler s.kbd sc)).Follows
  unfold keyboardHandler
  dsimp only
  split_ifs
  · exact follows_quiet h (Or.inl ⟨sc, rfl⟩) id
  · exact follows_quiet h (Or.inr (Or.inl ⟨sc, rfl⟩)) id

lemma follows_start (h : s.Follows) {next : Next} : (s.absorb (s.kbd.start next)).Follows := by
  refine follows_quiet h (Or.inr (Or.inr rfl)) fun hf => ?_
  unfold State.start
  obtain hn | hn := hf <;> simp [hn, Flushing]

/-- `kbd_getc` reads a scancode. -/
lemma follows_take (h : s.Follows) (hq : s.Queues) {sc : UInt8} (hn : s.kbd.next = .take sc)
    (hsafe : s.Safe .access) : (s.step .access).Follows := by
  have hidle : ¬ Flushing s.kbd := by simp [Flushing, hn]
  have hread := h.read hidle
  obtain ⟨hne, holdest⟩ := hq.kbd.take sc hn
  obtain ⟨hsingle, hwhole⟩ : s.Single sc ∧ s.Whole sc := by simpa [Safe, hn] using hsafe
  -- the scancode is the oldest one in the ring
  have hqueue : s.kbd.queued = sc :: (s.kbd.ring.drop bufSize).queued bufSize := by
    rw [← holdest]
    exact RingBuffer.queued_drop hq.kbd.bounds hne
  have hsc : s.passed.Possible sc := by
    have hall := hq.possible
    rw [hqueue] at hall
    exact hall.1
  have hstep : s.step .access =
      s.absorb (.taken sc, { ring := s.kbd.ring.drop bufSize, next := .idle }) := by
    unfold step Event.exec State.access
    rw [hn]
  rw [hstep]
  refine ⟨fun _ => rfl, fun m hm => ?_, fun _ hext => ?_⟩
  · have hbit := h.bits m hm
    rw [hread] at hbit
    exact decode_told hq.sane hsc hm (h.ext hidle) hwhole
      (fun k hk hmake hmem => hsingle k hk hmake m hm hmem) hbit
  · obtain rfl := Decoder.extended_decode hext
    exact Told.ext_next hq.sane hsc

/-- `kbd_flush` passes over a scancode. -/
lemma follows_discard (h : s.Follows) (hn : s.kbd.next = .discard) :
    (s.step .access).Follows := by
  have hstep : s.step .access = s.absorb
      (.discarded (s.kbd.ring.buffer s.kbd.ring.tail),
        { ring := s.kbd.ring.drop bufSize, next := .test }) := by
    unfold step Event.exec State.access
    rw [hn]
  rw [hstep]
  exact ⟨fun hx => absurd (Or.inl rfl) hx, h.bits, fun hx => absurd (Or.inl rfl) hx⟩

/-- The test of the loop of `kbd_flush`. -/
lemma follows_test (h : s.Follows) (hn : s.kbd.next = .test) (hsafe : s.Safe .access) :
    (s.step .access).Follows := by
  have hflush : Flushing s.kbd := Or.inl hn
  by_cases hc : s.kbd.ring.head = s.kbd.ring.tail
  · have hdown : ∀ m ≠ Mod.super, (s.read.Down m ↔ s.passed.Down m) := by
      unfold Safe at hsafe
      rw [hn] at hsafe
      exact hsafe hc
    have hstep : s.step .access = s.absorb (.flushed, { s.kbd with next := .idle }) := by
      unfold step Event.exec State.access
      rw [hn]
      dsimp only
      rw [if_neg (not_not.mpr hc)]
    rw [hstep]
    refine ⟨fun _ => rfl, fun m hm => ?_, fun _ => ?_⟩
    · exact (h.bits m hm).trans (hdown m hm)
    · rintro ⟨⟩
  · have hstep : s.step .access = s.absorb (.nothing, { s.kbd with next := .discard }) := by
      unfold step Event.exec State.access
      rw [hn]
      dsimp only
      rw [if_pos hc]
    rw [hstep]
    exact follows_quiet h (Or.inr (Or.inr rfl)) fun _ => Or.inr rfl

lemma follows_access (h : s.Follows) (hq : s.Queues) (hsafe : s.Safe .access) :
    (s.step .access).Follows := by
  cases hn : s.kbd.next with
  | take sc => exact follows_take h hq hn hsafe
  | test => exact follows_test h hn hsafe
  | discard => exact follows_discard h hn
  | idle | wait | fetch =>
    -- nothing leaves the ring
    have hidle : ¬ Flushing s.kbd := by simp [Flushing, hn]
    refine follows_quiet h (Or.inr (Or.inr ?_)) fun hf => absurd hf hidle
    unfold Event.exec State.access
    rw [hn]

/-- **The step lemma.** -/
theorem step_keeps (h : s.Queues ∧ s.Follows) (hp : s.Possible e) (hsafe : s.Safe e) :
    (s.step e).Queues ∧ (s.step e).Follows := by
  refine ⟨queues_step h.1 hp, ?_⟩
  cases e with
  | interrupt sc => exact follows_interrupt h.2 sc
  | getc => exact follows_start h.2
  | flush => exact follows_start h.2
  | access => exact follows_access h.2 h.1 hsafe

lemma queues_boot : boot.Queues where
  kbd := inv_boot
  arrived := rfl
  possible := trivial
  sane := Told.sane_start

lemma follows_boot : boot.Follows where
  read := fun _ => rfl
  bits := fun m _ => by cases m <;> decide
  ext := by rintro - ⟨⟩

/-- With the ring drained, all that was pressed was read. -/
lemma agrees_of_drained (hq : s.Queues) (h : s.Follows) (hd : s.Drained) : s.Agrees := by
  intro m hm
  have hidle : ¬ Flushing s.kbd := by simp [Flushing, hd.idle]
  have hsame : s.read = s.pressed := by
    rw [h.read hidle, hq.arrived, hd.empty, run_nil]
  have hbit := h.bits m hm
  rw [hsame, Told.down_of_pause hd.whole] at hbit
  exact hbit

/-- **The modifiers.** Whatever keys are pressed and released while `kbd_getc` and `kbd_flush` are
called: if no break code is read while the other key of its modifier is held, and the codes that a
`kbd_flush` passes over leave the modifiers as they were, and it does not separate `0xE0` from the code
of a shift key, then `kbd_mods` tells which modifiers are held whenever the ring has been drained. -/
theorem kbdMods_held (l : List Event) (hp : Along step Possible boot l)
    (hsafe : Along step Safe boot l) (hd : (run step boot l).Drained) :
    (run step boot l).Agrees := by
  have hall := run_inv (P := fun s => Queues s ∧ Follows s)
    (fun s e h hx => step_keeps h hx.1 hx.2) ⟨queues_boot, follows_boot⟩ (along_and hp hsafe)
  exact agrees_of_drained hall.1 hall.2 hd

/-- `kbd_getc` on a ring that is not empty. -/
def getc : List Event := [.getc, .access, .access, .access]

/-- Right Alt is pressed, Shift is pressed and released, and all this is read. A `kbd_flush` passes over
the codes of a letter and over those of Shift, pressed and released while it is underway. -/
def altPressed : List Event :=
  [.interrupt 0xe0, .interrupt 0x38, .interrupt 0x2a, .interrupt 0xaa] ++ getc ++ getc ++ getc ++
    getc ++ [.interrupt 0x1e, .interrupt 0x9e, .flush, .access, .access, .interrupt 0x2a,
      .interrupt 0xaa] ++ List.replicate 7 .access

/-- Both Shift keys are pressed, and the left one is released. -/
def shiftReleased : List Event :=
  [.interrupt 0x2a, .interrupt 0x36, .interrupt 0xaa] ++ getc ++ getc ++ getc

theorem kbdMods_held_alt : (run step boot altPressed).Agrees :=
  kbdMods_held altPressed (by decide +kernel) (by decide +kernel)
    ⟨rfl, by decide +kernel, by decide +kernel⟩

/-- With the right Shift key held, the release of the left one clears `MOD_SHIFT`. -/
theorem kbdMods_shift_lost :
    ¬ ∀ l, Along step Possible boot l → (run step boot l).Drained → (run step boot l).Agrees := by
  intro h
  have hd : (run step boot shiftReleased).Drained :=
    ⟨rfl, by decide +kernel, by decide +kernel⟩
  have hagrees := h shiftReleased (by decide +kernel) hd .shift (by decide)
  revert hagrees
  decide +kernel

end Sys

end LunariaOS.Kbd
