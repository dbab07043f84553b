import Borrrdex.Fterm.Terminal

/-!
# Escape sequences

A sequence begins with `ANSI_ESC`.  It should end with a letter if it is a control sequence, and
behind one character if it is another, but `print_char` never leaves a sequence for such a reason:
it takes `is_escape_seq` back only if the buffer for the parameters is full.  So a letter behind a
control sequence is another control function, and all that follows another sequence is swallowed.

`parses_iff` says that a stream is handled as it should be just if there are no sequences in it.
The buffer is a string that is not too long, whatever comes (`Terminated`).
-/

set_option autoImplicit false

namespace Borrrdex.Fterm

variable {libc : Libc} {w : WinSize} {t : Terminal} {ch c : Byte}

/-- What a stream is made of: a byte that is not `ANSI_ESC`, a control sequence with its parameters
and its letter, or another sequence. -/
inductive Item
  | text (c : Byte)
  | control (params : List Byte) (letter : Byte)
  | other (c : Byte)

/-- What is on the screen, or is done. -/
inductive Act
  | put (c : Byte)
  | csi (letter : Byte) (params : List Byte)

/-- What of the record is to be seen. -/
def Event.act : Event → Option Act
  | .index .. => none
  | .put c _ _ => some (.put c)
  | .csi letter params => some (.csi letter params)

namespace Item

def bytes : Item → List Byte
  | text c => [c]
  | control params letter => ansiEsc :: ansiCsi :: (params ++ [letter])
  | other c => [ansiEsc, c]

/-- It is what it says: parameters have no letters. -/
def WellFormed : Item → Prop
  | text c => c ≠ ansiEsc
  | control params letter => (∀ c ∈ params, isalpha c = false) ∧ isalpha letter = true
  | other c => c ≠ ansiCsi

/-- What it should lead to: a printable byte is put on the screen. -/
def acts : Item → List Act
  | text c => if c ≠ 0x0a ∧ (isgraph c || isspace c) = true then [.put c] else []
  | control params letter => [.csi letter params]
  | other _ => []

def IsText : Item → Prop
  | text _ => True
  | control .. => False
  | other _ => False

/-- It leads to what it should, and then the parser is in its ground state. -/
def Handled (libc : Libc) (w : WinSize) (item : Item) (t : Terminal) : Prop :=
  (t.printAll libc w item.bytes).1.filterMap Event.act = item.acts ∧
    (t.printAll libc w item.bytes).2.isEscapeSeq = false

end Item

/-- **Each item is handled**, one after the other. -/
def Parses (libc : Libc) (w : WinSize) : List Item → Terminal → Prop
  | [], _ => True
  | item :: items, t =>
    item.Handled libc w t ∧ Parses libc w items (t.printAll libc w item.bytes).2

/-- **`esc_buffer` is a string** that is shorter than `ESC_BUFFER_MAX`. -/
def Terminated (buf : List Byte) : Prop :=
  buf.length = escBufferMax ∧ (cString buf).length < escBufferMax

namespace Terminal

/-- The state of the parser. -/
def parser (t : Terminal) : Bool × Byte × List Byte := (t.isEscapeSeq, t.escapeType, t.escBuffer)

theorem parser_scrollLoop (w : WinSize) (rounds : ℕ) (t : Terminal) :
    (scrollLoop w rounds t).parser = t.parser := by
  induction rounds generalizing t with
  | zero => rfl
  | succ rounds ih =>
    rw [scrollLoop]
    split
    · exact ih _
    · rfl

theorem parser_scroll (w : WinSize) (t : Terminal) : (scroll w t).parser = t.parser :=
  parser_scrollLoop w _ t

theorem parser_forwardLoop (w : WinSize) (rounds : ℕ) (t : Terminal) :
    (forwardLoop w rounds t).parser = t.parser := by
  induction rounds generalizing t with
  | zero => rfl
  | succ rounds ih =>
    rw [forwardLoop]
    split
    · rw [ih, parser_scroll]
      rfl
    · rfl

theorem parser_backLoop (w : WinSize) (rounds : ℕ) (t : Terminal) :
    (backLoop w rounds t).parser = t.parser := by
  induction rounds generalizing t with
  | zero => rfl
  | succ rounds ih =>
    rw [backLoop]
    split
    · exact ih _
    · rfl

/-- A control function leaves the parser alone. -/
theorem parser_doAnsiCsi (libc : Libc) (w : WinSize) (ch : Byte) (t : Terminal) :
    (doAnsiCsi libc w ch t).parser = t.parser := by
  rw [doAnsiCsi]
  split_ifs
  · rfl
  · rfl
  · exact parser_scroll w _
  · exact parser_forwardLoop w _ _
  · dsimp only
    split_ifs
    · exact parser_backLoop w _ _
    · exact parser_backLoop w _ _
  · rfl

theorem parser_setRow (t : Terminal) (r : List TerminalChar) : (t.setRow r).parser = t.parser := by
  rw [setRow]
  split_ifs <;> rfl

theorem parser_printGraphic (w : WinSize) (ch : Byte) (t : Terminal) :
    (t.printGraphic w ch).2.parser = t.parser := by
  have hwrite : (t.writeCell ch).2.parser = t.parser := by
    rw [writeCell]
    split_ifs
    · exact parser_setRow t _
    · exact parser_setRow t _
  rw [printGraphic]
  dsimp only
  rw [advance]
  split_ifs
  · rw [parser_scroll]
    exact hwrite
  · exact hwrite

theorem isEscapeSeq_congr {t t' : Terminal} (h : t'.parser = t.parser) :
    t'.isEscapeSeq = t.isEscapeSeq := congrArg Prod.fst h

theorem escBuffer_congr {t t' : Terminal} (h : t'.parser = t.parser) :
    t'.escBuffer = t.escBuffer := congrArg (fun p ↦ p.2.2) h

theorem parser_printGround (hc : ch ≠ ansiEsc) : (t.printGround w ch).2.parser = t.parser := by
  rw [printGround, if_neg hc]
  split_ifs
  · exact parser_scroll w _
  · rfl
  · rfl
  · exact parser_printGraphic w ch t
  · rfl

/-! ## What each item leads to -/

/-- A row is accessed, and that is not to be seen. -/
theorem acts_writeCell (ch : Byte) (t : Terminal) :
    (t.writeCell ch).1.filterMap Event.act = [] := by
  rw [writeCell]
  split_ifs <;> rfl

theorem acts_printGraphic (w : WinSize) (ch : Byte) (t : Terminal) :
    (t.printGraphic w ch).1.filterMap Event.act = [.put ch] := by
  rw [printGraphic, List.filterMap_append, acts_writeCell]
  rfl

theorem acts_printGround (hc : ch ≠ ansiEsc) :
    (t.printGround w ch).1.filterMap Event.act = (Item.text ch).acts := by
  rw [printGround, if_neg hc, Item.acts]
  by_cases hline : ch = 0x0a
  · rw [if_pos hline, if_neg fun h ↦ h.1 hline]
    rfl
  rw [if_neg hline]
  by_cases hback : ch = 8
  · have hprint : ¬ ((isgraph ch || isspace ch) = true) := by
      rw [hback]
      decide
    have hnone : ¬ (ch ≠ 0x0a ∧ (isgraph ch || isspace ch) = true) := fun h ↦ hprint h.2
    rw [if_pos hback, if_neg hnone]
    rfl
  rw [if_neg hback]
  by_cases hprint : (isgraph ch || isspace ch) = true
  · rw [if_pos hprint, if_pos ⟨hline, hprint⟩]
    exact acts_printGraphic w ch t
  · rw [if_neg hprint, if_neg fun h ↦ hprint h.2]
    rfl

/-- **Text is handled.** -/
theorem handled_text (hground : t.isEscapeSeq = false) (hc : c ≠ ansiEsc) :
    (Item.text c).Handled libc w t := by
  have hone : t.printAll libc w [c] = ((t.printGround w c).1 ++ [], (t.printGround w c).2) := by
    rw [printAll, printAll, printChar, if_neg (by simp [hground])]
  refine ⟨?_, ?_⟩
  · rw [Item.bytes, hone, List.append_nil]
    exact acts_printGround hc
  · rw [Item.bytes, hone]
    exact (isEscapeSeq_congr (parser_printGround hc)).trans hground

/-- A control function is performed at a letter, and the parser stays in the sequence. -/
theorem isEscapeSeq_of_csi {letter : Byte} {params : List Byte}
    (h : Event.csi letter params ∈ (t.printChar libc w ch).1) :
    isalpha ch = true ∧ (t.printChar libc w ch).2.isEscapeSeq = true := by
  have hno : ∀ t' : Terminal, Event.csi letter params ∉ (t'.writeCell ch).1 := by
    intro t'
    rw [writeCell]
    split_ifs <;> simp [access]
  have hparam : ∀ (c : Byte) (t' : Terminal), Event.csi letter params ∈ (t'.printParam libc w c).1 →
      isalpha c = true ∧ (t'.printParam libc w c).2.isEscapeSeq = t'.isEscapeSeq := by
    intro c t' hmem
    rw [printParam] at hmem ⊢
    split_ifs at hmem ⊢ with htype halpha hfull hcsi
    all_goals first | exact absurd hmem (List.not_mem_nil) | skip
    exact ⟨by simpa using halpha, isEscapeSeq_congr (parser_doAnsiCsi libc w c t')⟩
  rw [printChar] at h ⊢
  split_ifs at h ⊢ with hseq
  · rw [printEscape] at h ⊢
    split_ifs at h ⊢ with hspace htype
    · exact absurd h List.not_mem_nil
    · exact absurd (hparam 0 _ h).1 (by decide)
    · exact ⟨(hparam ch t h).1, (hparam ch t h).2.trans hseq⟩
  · rw [printGround] at h
    split_ifs at h
    all_goals first | exact absurd h List.not_mem_nil | skip
    rw [printGraphic] at h
    simp [access] at h
    exact absurd h (hno t)

/-- A control function that is performed in a stream without letters but the last is performed at
the last. -/
theorem isEscapeSeq_of_csi_last {letter : Byte} {params pre : List Byte}
    (hpre : ∀ c ∈ pre, isalpha c = false)
    (h : Event.csi letter params ∈ (t.printAll libc w (pre ++ [ch])).1) :
    (t.printAll libc w (pre ++ [ch])).2.isEscapeSeq = true := by
  induction pre generalizing t with
  | nil =>
    rw [List.nil_append, printAll, printAll] at h ⊢
    exact (isEscapeSeq_of_csi (by simpa using h)).2
  | cons c pre ih =>
    rw [List.cons_append, printAll] at h ⊢
    refine ih (fun c' hc' ↦ hpre c' (List.mem_cons_of_mem _ hc')) ?_
    rcases List.mem_append.mp h with hfirst | hrest
    · have := (isEscapeSeq_of_csi hfirst).1
      simp [hpre c (List.mem_cons_self ..)] at this
    · exact hrest

/-- **No control sequence is handled**: behind the letter the parser is in the sequence. -/
theorem not_handled_control {letter : Byte} {params : List Byte}
    (hwell : (Item.control params letter).WellFormed) :
    ¬ (Item.control params letter).Handled libc w t := by
  rintro ⟨hacts, hground⟩
  have hbytes : (Item.control params letter).bytes = (ansiEsc :: ansiCsi :: params) ++
    [letter] := rfl
  have hpre : ∀ c ∈ ansiEsc :: ansiCsi :: params, isalpha c = false := by
    intro c hc
    rcases List.mem_cons.mp hc with rfl | hc
    · decide
    rcases List.mem_cons.mp hc with rfl | hc
    · decide
    exact hwell.1 c hc
  have hact : Act.csi letter params ∈
      (t.printAll libc w (Item.control params letter).bytes).1.filterMap Event.act := by
    rw [hacts]
    exact List.mem_singleton_self _
  obtain ⟨event, hevent, heq⟩ := List.mem_filterMap.mp hact
  cases event with
  | index => cases heq
  | put => cases heq
  | csi =>
    rw [hbytes] at hevent hground
    rw [isEscapeSeq_of_csi_last hpre hevent] at hground
    cases hground

theorem strnlen_set_zero (buf : List Byte) (n : ℕ) : strnlen (buf.set 0 0) n = 0 := by
  have hempty : cString (buf.set 0 0) = [] := by cases buf <;> rfl
  rw [strnlen, hempty]
  exact Nat.zero_min n

/-- **No other sequence is handled**: its character is kept as a type, and that is all. -/
theorem not_handled_other (hground : t.isEscapeSeq = false) (hc : c ≠ ansiCsi) :
    ¬ (Item.other c).Handled libc w t := by
  rintro ⟨-, hend⟩
  rw [Item.bytes, printAll, printAll, printAll, printChar, if_neg (by simp [hground]), printGround,
    if_pos rfl, printChar, if_pos rfl, printEscape] at hend
  split_ifs at hend with hspace htype
  · rw [printParam] at hend
    dsimp only at hend
    rw [strnlen_set_zero] at hend
    -- the buffer has been emptied, so it is not full
    rw [if_neg (by decide : ¬ (0 = escBufferMax - 1))] at hend
    split_ifs at hend
  · exact htype rfl

/-- **The stream has to be without sequences**, from the ground state. -/
theorem parses_iff_of_ground {items : List Item} (hground : t.isEscapeSeq = false)
    (hwell : ∀ item ∈ items, item.WellFormed) :
    Parses libc w items t ↔ ∀ item ∈ items, item.IsText := by
  induction items generalizing t with
  | nil => simp [Parses]
  | cons item items ih =>
    rw [Parses, List.forall_mem_cons]
    have hfirst := hwell item (List.mem_cons_self ..)
    have hrest := fun item' h ↦ hwell item' (List.mem_cons_of_mem item h)
    cases item with
    | text c =>
      have hhandled : (Item.text c).Handled libc w t := handled_text hground hfirst
      rw [ih hhandled.2 hrest]
      exact ⟨fun h ↦ ⟨trivial, h.2⟩, fun h ↦ ⟨hhandled, h.2⟩⟩
    | control params letter =>
      exact ⟨fun h ↦ absurd h.1 (not_handled_control hfirst), fun h ↦ absurd h.1 id⟩
    | other c =>
      exact ⟨fun h ↦ absurd h.1 (not_handled_other hground hfirst), fun h ↦ absurd h.1 id⟩

/-! ## The buffer -/

theorem terminated_set_zero {buf : List Byte} (h : Terminated buf) : Terminated (buf.set 0 0) := by
  refine ⟨by rw [List.length_set]; exact h.1, ?_⟩
  have hempty : cString (buf.set 0 0) = [] := by cases buf <;> rfl
  rw [hempty]
  exact Nat.zero_lt_succ _

/-- A byte is appended if there is room for it. -/
theorem terminated_strncat {buf : List Byte} (h : Terminated buf)
    (hroom : strnlen buf (escBufferMax - 1) ≠ escBufferMax - 1) :
    Terminated (strncat buf [ch, 0] 2) := by
  obtain ⟨hlen, hlt⟩ := h
  have hsrc : (cString [ch, 0]).length ≤ 1 := by
    by_cases hch : ch = 0
    · subst hch
      decide
    · have hlast : cString [ch, 0] = [ch] :=
        cString_append_cons_zero (w := [ch]) (by simpa using hch) []
      rw [hlast]
      exact le_rfl
  have hs : ∀ c ∈ cString buf ++ (cString [ch, 0]).take 2, c ≠ 0 := by
    intro c hc
    rcases List.mem_append.mp hc with hc | hc
    · simpa using List.mem_takeWhile_imp hc
    · simpa using List.mem_takeWhile_imp (List.mem_of_mem_take hc)
  have hbound : (cString buf ++ (cString [ch, 0]).take 2).length < escBufferMax := by
    rw [strnlen] at hroom
    rw [List.length_append, List.length_take]
    unfold escBufferMax at *
    omega
  rw [strncat]
  refine ⟨?_, ?_⟩
  · rw [List.length_append, List.length_cons, List.length_drop, hlen]
    omega
  · rw [cString_append_cons_zero hs]
    exact hbound

/-- **The buffer is a string after any byte.** -/
theorem terminated_printChar (h : Terminated t.escBuffer) :
    Terminated (t.printChar libc w ch).2.escBuffer := by
  have hparam : ∀ (c : Byte) (t' : Terminal), t'.escBuffer = t.escBuffer →
      Terminated (t'.printParam libc w c).2.escBuffer := by
    intro c t' hbuf
    rw [← hbuf] at h
    rw [printParam]
    split_ifs with htype halpha hfull hcsi
    · exact h
    · exact terminated_strncat h hfull
    · rw [escBuffer_congr (parser_doAnsiCsi libc w c t')]
      exact h
    · exact h
    · exact h
  rw [printChar]
  split_ifs with hseq
  · rw [printEscape]
    split_ifs
    · exact h
    · exact hparam 0 _ rfl
    · exact hparam ch t rfl
  · by_cases hesc : ch = ansiEsc
    · rw [printGround, if_pos hesc]
      exact terminated_set_zero h
    · rw [escBuffer_congr (parser_printGround hesc)]
      exact h

theorem terminated_printAll (chs : List Byte) (h : Terminated t.escBuffer) :
    Terminated (t.printAll libc w chs).2.escBuffer := by
  induction chs generalizing t with
  | nil => exact h
  | cons ch chs ih =>
    rw [printAll]
    exact ih (terminated_printChar h)

theorem terminated_start (w : WinSize) : Terminated (start w).escBuffer := by
  have hbuf : (start w).escBuffer = List.replicate escBufferMax 0 := rfl
  rw [hbuf]
  exact ⟨List.length_replicate, by decide⟩

/-- **A stream is parsed as it should be just if there are no sequences in it**; the buffer is a
string after any stream. -/
theorem parses_iff (libc : Libc) (w : WinSize) (items : List Item)
    (hwell : ∀ item ∈ items, item.WellFormed) :
    (Parses libc w items (start w) ∧
        ∀ chs, Terminated ((start w).printAll libc w chs).2.escBuffer) ↔
      ∀ item ∈ items, item.IsText := by
  rw [parses_iff_of_ground rfl hwell]
  exact and_iff_left fun chs ↦ terminated_printAll chs (terminated_start w)

/-- Two letters are printed. -/
theorem parses_iff_letters :
    (∀ item ∈ [Item.text 0x61, Item.text 0x62], item.WellFormed) ∧
      Parses ⟨fun _ ↦ 0⟩ ⟨1, 2⟩ [.text 0x61, .text 0x62] (start ⟨1, 2⟩) :=
  have hwell : ∀ item ∈ [Item.text 0x61, Item.text 0x62], item.WellFormed := by
    simp [Item.WellFormed, ansiEsc]
  ⟨hwell, ((parses_iff ⟨fun _ ↦ 0⟩ ⟨1, 2⟩ [.text 0x61, .text 0x62] hwell).mpr
    (by simp [Item.IsText])).1⟩

/-- A letter behind `ESC [ m` is not printed. -/
theorem not_parses_sgr :
    (∀ item ∈ [Item.control [] 0x6d, Item.text 0x61], item.WellFormed) ∧
      ¬ Parses ⟨fun _ ↦ 0⟩ ⟨24, 80⟩ [.control [] 0x6d, .text 0x61] (start ⟨24, 80⟩) := by
  have hwell : ∀ item ∈ [Item.control [] 0x6d, Item.text 0x61], item.WellFormed := by
    simp [Item.WellFormed, ansiEsc, isalpha]
  exact ⟨hwell, fun h ↦ not_handled_control (hwell _ (List.mem_cons_self ..)) h.1⟩

end Terminal

end Borrrdex.Fterm
