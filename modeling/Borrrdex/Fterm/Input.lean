import Borrrdex.Devices.Pty
import Borrrdex.Lib.Transducer
import Mathlib.Data.List.GetD

/-!
# What can be typed

`fterm` reads scan codes from the keyboard.  `input_manager::poll` looks each of them up in a map
for the Japanese layout, or in the one for shift, keeps track of the modifiers and hands the key to
`on_key`, unless it is released.  `on_key` writes a character to the pseudoterminal, or an escape
sequence, or nothing.

A key that the map does not know is the key 0, which is a character like the others: the right shift
types a null.  And one of the printable characters is on neither map.  `exists_sent_iff` says what
can be typed.
-/

set_option autoImplicit false

namespace Borrrdex.Fterm

/-! ## The keys -/

/-- `KEY_TAB`. -/
def keyTab : ℕ := 9

/-- `KEY_BACKSPACE`. -/
def keyBackspace : ℕ := 8

/-- `KEY_ENTER`. -/
def keyEnter : ℕ := 10

/-- `KEY_ESCAPE`. -/
def keyEscape : ℕ := 27

/-- `KEY_F1`, and with it those up to `KEY_F10`. -/
def keyF (n : ℕ) : ℕ := 255 + n

/-- `KEY_ARROW_UP`. -/
def keyArrowUp : ℕ := 266

/-- `KEY_ARROW_LEFT`. -/
def keyArrowLeft : ℕ := 267

/-- `KEY_ARROW_RIGHT`. -/
def keyArrowRight : ℕ := 268

/-- `KEY_ARROW_DOWN`. -/
def keyArrowDown : ℕ := 269

/-- `KEY_SHIFT`. -/
def keyShift : ℕ := 270

/-- `KEY_ALT`. -/
def keyAlt : ℕ := 271

/-- `KEY_CONTROL`. -/
def keyControl : ℕ := 272

/-- `KEY_CAPS`. -/
def keyCaps : ℕ := 273

/-- `KEY_END`. -/
def keyEnd : ℕ := 275

/-- `KEY_HOME`. -/
def keyHome : ℕ := 276

/-- `KEY_GUI`. -/
def keyGui : ℕ := 280

/-- The second half of both maps, from `KEY_ALT` on. -/
def keymapRest : List ℕ :=
  [keyAlt, 0x20, keyCaps, keyF 1, keyF 2, keyF 3, keyF 4, keyF 5,
    keyF 6, keyF 7, keyF 8, keyF 9, keyF 10, 0, 0, keyHome,
    keyArrowUp, 0, 0x2D, keyArrowLeft, 0, keyArrowRight, 0x2B, keyEnd,
    keyArrowDown, 0, 0, 0, 0, 0, 0, 0,
    0, 0, keyGui, keyGui] ++ List.replicate 36 0

/-- `keymap_jp`. -/
def keymapJp : List ℕ :=
  [0, keyEscape, 0x31, 0x32, 0x33, 0x34, 0x35, 0x36,
    0x37, 0x38, 0x39, 0x30, 0x2D, 0x5E, keyBackspace, keyTab,
    0x71, 0x77, 0x65, 0x72, 0x74, 0x79, 0x75, 0x69,
    0x6F, 0x70, 0x40, 0x5B, keyEnter, keyControl, 0x61, 0x73,
    0x64, 0x66, 0x67, 0x68, 0x6A, 0x6B, 0x6C, 0x3B,
    0x3A, 0x5D, keyShift, 0x5D, 0x7A, 0x78, 0x63, 0x76,
    0x62, 0x6E, 0x6D, 0x2C, 0x2E, 0x2F, 0, 0x5C] ++ keymapRest

/-- `keymap_shift_jp`. -/
def keymapShiftJp : List ℕ :=
  [0, keyEscape, 0x21, 0x22, 0x23, 0x24, 0x25, 0x26,
    0x27, 0x28, 0x29, 0, 0x3D, 0x7E, keyBackspace, keyTab,
    0x51, 0x57, 0x45, 0x52, 0x54, 0x59, 0x55, 0x49,
    0x4F, 0x50, 0x60, 0x7B, keyEnter, keyControl, 0x41, 0x53,
    0x44, 0x46, 0x47, 0x48, 0x4A, 0x4B, 0x4C, 0x2B,
    0x2A, 0x7D, keyShift, 0x7D, 0x5A, 0x58, 0x43, 0x56,
    0x42, 0x4E, 0x4D, 0x3C, 0x3E, 0x3F, 0, 0x5F] ++ keymapRest

/-- `keyboard_state`. -/
structure KeyboardState where
  caps : Bool
  control : Bool
  shift : Bool
  alt : Bool

namespace KeyboardState

/-- A new input manager's. -/
def start : KeyboardState := ⟨false, false, false, false⟩

/-- `buf[i] & 0x7F`. -/
def code (scan : Byte) : ℕ := (scan &&& 0x7F).toNat

/-- `is_pressed`. -/
def isPressed (scan : Byte) : Bool := (scan >>> 7) &&& 1 = 0

/-- The key of a scan code. -/
def key (k : KeyboardState) (scan : Byte) : ℕ :=
  if k.shift then keymapShiftJp.getD (code scan) 0 else keymapJp.getD (code scan) 0

/-- The modifiers, once a key is pressed or released. -/
def turn (k : KeyboardState) (key : ℕ) (isPressed : Bool) : KeyboardState :=
  if key = keyShift then { k with shift := isPressed }
  else if key = keyControl then { k with control := isPressed }
  else if key = keyAlt then { k with alt := isPressed }
  else if key = keyCaps ∧ isPressed then { k with caps := !k.caps }
  else k

/-- The modifiers, once a scan code has been looked at. -/
def next (k : KeyboardState) (scan : Byte) : KeyboardState := k.turn (k.key scan) (isPressed scan)

end KeyboardState

/-- `"\e["`, and a letter. -/
def escapeLetter (letter : Byte) : List Byte := [escape, 0x5B, letter]

/-- The sequence that `on_key` has for a key. -/
def keySequence (key : ℕ) : Option (List Byte) :=
  if key = keyArrowUp then some (escapeLetter 0x41)
  else if key = keyArrowDown then some (escapeLetter 0x42)
  else if key = keyArrowRight then some (escapeLetter 0x43)
  else if key = keyArrowLeft then some (escapeLetter 0x44)
  else if key = keyEnd then some (escapeLetter 0x46)
  else if key = keyHome then some (escapeLetter 0x48)
  else if key = keyEscape then some [escape, escape]
  else none

/-- What `on_key` writes, if anything. -/
def onKey (key : ℕ) : List Byte :=
  match keySequence key with
  | some sequence => sequence
  | none => if key < 128 then [BitVec.ofNat 8 key] else []

/-- `input_manager::poll` and `on_key`, as far as a scan code goes. -/
def inputManager : Transducer KeyboardState Byte Byte where
  step := KeyboardState.next
  say k scan := if KeyboardState.isPressed scan then onKey (k.key scan) else []

/-- What has been written to the terminal after so many scan codes. -/
def sent (scans : List Byte) : List Byte := inputManager.output .start scans

/-! ## What is written -/

/-- The characters that can be typed. -/
def Typable (ch : Byte) : Prop :=
  ch = nul ∨ ch = backspace ∨ ch = 0x09 ∨ ch = newline ∨ 0x20 ≤ ch ∧ ch ≤ 0x7E ∧ ch ≠ 0x7C

instance (ch : Byte) : Decidable (Typable ch) :=
  inferInstanceAs (Decidable (_ ∨ _ ∨ _ ∨ _ ∨ _))

/-- The sequences that can be typed. -/
def keySequences : List (List Byte) :=
  [escapeLetter 0x41, escapeLetter 0x42, escapeLetter 0x43, escapeLetter 0x44, escapeLetter 0x46,
    escapeLetter 0x48, [escape, escape]]

/-- What one key writes. -/
def IsKey (text : List Byte) : Prop := (∃ ch, Typable ch ∧ text = [ch]) ∨ text ∈ keySequences

theorem typable_of_mem {key : ℕ} (h : key ∈ keymapJp ++ keymapShiftJp) (hlt : key < 128)
    (hne : key ≠ keyEscape) : Typable (BitVec.ofNat 8 key) := by
  have hall : ∀ key ∈ keymapJp ++ keymapShiftJp, key < 128 → key ≠ keyEscape →
      Typable (BitVec.ofNat 8 key) := by decide +kernel
  exact hall key h hlt hne

theorem keySequence_mem {key : ℕ} {sequence : List Byte} (h : keySequence key = some sequence) :
    sequence ∈ keySequences := by
  rw [keySequence] at h
  split_ifs at h <;> cases h <;> decide

/-- A key that stands on the maps. -/
theorem isKey_onKey {key : ℕ} (h : key ∈ keymapJp ++ keymapShiftJp) :
    onKey key = [] ∨ IsKey (onKey key) := by
  rw [onKey]
  split
  · next sequence hsequence => exact .inr (.inr (keySequence_mem hsequence))
  · next hnone =>
    split
    · next hlt =>
      have hne : key ≠ keyEscape := fun heq ↦ by
        rw [heq] at hnone
        exact absurd hnone (by decide)
      exact .inr (.inl ⟨_, typable_of_mem h hlt hne, rfl⟩)
    · exact .inl rfl

theorem KeyboardState.key_mem (k : KeyboardState) (scan : Byte) :
    k.key scan ∈ keymapJp ++ keymapShiftJp := by
  have hcode : code scan < 128 := by
    rw [code, BitVec.toNat_and]
    exact Nat.and_lt_two_pow scan.toNat (by decide : 0x7F < 2 ^ 7)
  rw [key, List.mem_append]
  split
  · rw [List.getD_eq_getElem keymapShiftJp 0 hcode]
    exact .inr (List.getElem_mem hcode)
  · rw [List.getD_eq_getElem keymapJp 0 hcode]
    exact .inl (List.getElem_mem hcode)

theorem say_isKey (k : KeyboardState) (scan : Byte) :
    inputManager.say k scan = [] ∨ IsKey (inputManager.say k scan) := by
  simp only [inputManager]
  split
  · exact isKey_onKey (k.key_mem scan)
  · exact .inl rfl

/-! ## Typing -/

namespace KeyboardState

variable {k : KeyboardState} {scan : Byte}

/-- Modifiers apart, a key leaves the shift as it is. -/
theorem shift_next (h : k.key scan ≠ keyShift) : (k.next scan).shift = k.shift := by
  rw [next, turn, if_neg h]
  split
  · rfl
  · split
    · rfl
    · split <;> rfl

theorem next_of_shift (h : k.key scan = keyShift) :
    k.next scan = { k with shift := isPressed scan } := by
  rw [next, turn, if_pos h]

/-- The scan code of a key that is pressed. -/
theorem pressed_ofNat {c : ℕ} (hc : c < 128) :
    code (BitVec.ofNat 8 c) = c ∧ isPressed (BitVec.ofNat 8 c) = true := by
  have hall : ∀ c < 128, code (BitVec.ofNat 8 c) = c ∧ isPressed (BitVec.ofNat 8 c) = true := by
    decide +kernel
  exact hall c hc

/-- The shift stands at one place on both maps. -/
theorem key_shift (k : KeyboardState) : k.key 0x2A = keyShift ∧ k.key 0xAA = keyShift := by
  cases h : k.shift <;> simp only [key, h] <;> decide

end KeyboardState

open KeyboardState

theorem say_shift (k : KeyboardState) :
    inputManager.say k 0x2A = [] ∧ inputManager.say k 0xAA = [] := by
  refine ⟨?_, rfl⟩
  show onKey (k.key 0x2A) = []
  rw [k.key_shift.1]
  rfl

theorem say_pressed {k : KeyboardState} {scan : Byte} (h : isPressed scan = true) :
    inputManager.say k scan = onKey (k.key scan) := if_pos h

/-- **Every key can be typed**: with shift, if it is not on the plain map. -/
theorem exists_strokes {k : KeyboardState} (hk : k.shift = false) {key : ℕ}
    (hkey : key ∈ keymapJp ++ keymapShiftJp) (hshift : key ≠ keyShift) :
    ∃ scans, inputManager.output k scans = onKey key ∧
      (inputManager.state k scans).shift = false := by
  obtain hplain | hshifted := List.mem_append.mp hkey
  · obtain ⟨c, hc, hat⟩ := List.getElem_of_mem hplain
    obtain ⟨hcode, hpressed⟩ := pressed_ofNat (show c < 128 from hc)
    have hpress : k.key (BitVec.ofNat 8 c) = key := by
      rw [KeyboardState.key, hk, hcode, ← hat]
      exact List.getD_eq_getElem keymapJp 0 hc
    refine ⟨[BitVec.ofNat 8 c], ?_, ?_⟩
    · rw [Transducer.output_cons, say_pressed hpressed, hpress, Transducer.output_nil,
        List.append_nil]
    · exact (shift_next (hpress.trans_ne hshift)).trans hk
  · obtain ⟨c, hc, hat⟩ := List.getElem_of_mem hshifted
    obtain ⟨hcode, hpressed⟩ := pressed_ofNat (show c < 128 from hc)
    have hdown : k.next 0x2A = { k with shift := true } := next_of_shift k.key_shift.1
    have hpress : (k.next 0x2A).key (BitVec.ofNat 8 c) = key := by
      rw [KeyboardState.key, hdown, hcode, ← hat]
      exact List.getD_eq_getElem keymapShiftJp 0 hc
    refine ⟨[0x2A, BitVec.ofNat 8 c, 0xAA], ?_, ?_⟩
    · rw [Transducer.output_cons, Transducer.output_cons, Transducer.output_cons,
        (say_shift _).1, (say_shift _).2, say_pressed hpressed]
      show [] ++ (onKey ((k.next 0x2A).key (BitVec.ofNat 8 c)) ++ ([] ++ [])) = onKey key
      rw [hpress, List.nil_append, List.append_nil, List.append_nil]
    · exact congrArg shift (next_of_shift (key_shift _).2)

/-- Every text of a key is one of a key on the maps. -/
theorem exists_key_of_isKey {text : List Byte} (h : IsKey text) :
    ∃ key ∈ keymapJp ++ keymapShiftJp, key ≠ keyShift ∧ onKey key = text := by
  obtain ⟨ch, hch, rfl⟩ | hsequence := h
  · have hall : ∀ n < 256, Typable (BitVec.ofNat 8 n) →
        n ∈ keymapJp ++ keymapShiftJp ∧ n ≠ keyShift ∧ onKey n = [BitVec.ofNat 8 n] := by
      decide +kernel
    obtain ⟨hmem, hshift, hkey⟩ := hall ch.toNat ch.isLt (by simpa using hch)
    exact ⟨ch.toNat, hmem, hshift, by simpa using hkey⟩
  · have hall : ∀ text ∈ keySequences, ∃ key ∈ keymapJp ++ keymapShiftJp,
        key ≠ keyShift ∧ onKey key = text := by decide +kernel
    exact hall text hsequence

/-- **What can be typed**: the texts that are made of the sequences and of the characters but one,
in any order. -/
theorem exists_sent_iff (text : List Byte) :
    (∃ scans, sent scans = text) ↔
      ∃ keys : List (List Byte), (∀ key ∈ keys, IsKey key) ∧ text = keys.flatten := by
  have hsaid (k : KeyboardState) (hk : k.shift = false) (p : List Byte) (hp : IsKey p) :
      ∃ scans, inputManager.output k scans = p ∧ (inputManager.state k scans).shift = false := by
    obtain ⟨key, hmem, hshift, rfl⟩ := exists_key_of_isKey hp
    exact exists_strokes hk hmem hshift
  exact Transducer.exists_output_iff say_isKey hsaid rfl text

end Borrrdex.Fterm
