import Borrrdex.Basic
import Borrrdex.Lib.Components
import Mathlib.Data.List.TakeWhile
import Mathlib.Tactic

/-!
# The kernel's `strtok_r`

The tokenizer works in place: it writes a NUL over the delimiter that ends a token and remembers
where to go on.  A buffer is the list of its characters from the pointer handed in, and a pointer
into it is an offset; what lies past the end of the list reads as NUL, and is never read when the
buffer is NUL-terminated.

`left` is what a saved position stands for, the tokens still to come, and `strtokR_left` says that
a call takes the first of them and leaves the rest.
-/

set_option autoImplicit false

namespace Borrrdex

open Components

/-- The C string a buffer starts with. -/
def cString (buf : List Byte) : List Byte := buf.takeWhile fun c ↦ c != 0

/-- `strchr`: where `c` stands in `s`, the terminator counting as a character. -/
def strchr (s : List Byte) (c : Byte) : Option ℕ :=
  match (cString s).findIdx? (· == c) with
  | some i => some i
  | none => if c = 0 then some (cString s).length else none

/-- What a call of `strtok_r` leaves: the token returned, `*m`, and the buffer. -/
structure Strtok where
  token : Option ℕ
  saved : Option ℕ
  buf : List Byte

/-- `strtok_r(s, del, m)`, with `m` the value of `*m` on entry. -/
def strtokR (s m : Option ℕ) (del buf : List Byte) : Strtok :=
  match s <|> m with
  | none => { token := none, saved := m, buf := buf }
  | some start =>
    -- Skip initial delimiters.
    let tok := start +
      ((buf.drop start).takeWhile fun c ↦ c != 0 && (strchr del c).isSome).length
    let p := tok + ((buf.drop tok).takeWhile fun c ↦ c != 0 && (strchr del c).isNone).length
    let token := if p = tok then none else some tok
    -- Replace the following delimiter by a NUL.
    if buf.getD p 0 ≠ 0 then { token := token, saved := some (p + 1), buf := buf.set p 0 }
    else { token := token, saved := none, buf := buf }

/-- The tokens from a saved position on. -/
def left (del : List Byte) (m : Option ℕ) (buf : List Byte) : List (List Byte) :=
  match m with
  | none => []
  | some i => components (fun c ↦ (strchr del c).isSome) (cString (buf.drop i))

/-- The two loops of `strtok_r` stop at the first character their test rejects. -/
theorem takeWhile_split {α : Type} (q : α → Bool) (l : List α) :
    ∃ rest, l = l.takeWhile q ++ rest ∧ ∀ c rest', rest = c :: rest' → q c = false := by
  refine ⟨l.dropWhile q, List.takeWhile_append_dropWhile.symm, fun c rest' h ↦ ?_⟩
  have := List.head?_dropWhile_not q l
  rw [h] at this
  simpa using this

theorem cString_append_cons_zero {w : List Byte} (hw : ∀ x ∈ w, x ≠ 0) (rest : List Byte) :
    cString (w ++ 0 :: rest) = w := by
  rw [cString, List.takeWhile_append_of_pos fun x hx ↦ by simpa using hw x hx]
  simp

theorem cString_append {w : List Byte} (hw : ∀ x ∈ w, x ≠ 0) (rest : List Byte) :
    cString (w ++ rest) = w ++ cString rest :=
  List.takeWhile_append_of_pos fun x hx ↦ by simpa using hw x hx

theorem cString_eq_self {w : List Byte} (hw : ∀ x ∈ w, x ≠ 0) : cString w = w := by
  have happend := cString_append hw []
  rw [List.append_nil] at happend
  exact happend.trans (List.append_nil w)

/-- The runs a call passes over, from `start` on: delimiters, then a token, then what is left of the
buffer, which does not start with a character of either kind. -/
theorem exists_runs (del buf : List Byte) (start : ℕ) :
    ∃ pre w rest, buf.drop start = pre ++ (w ++ rest) ∧
      pre = (buf.drop start).takeWhile (fun c ↦ c != 0 && (strchr del c).isSome) ∧
      w = (buf.drop (start + pre.length)).takeWhile (fun c ↦ c != 0 && (strchr del c).isNone) ∧
      (∀ c rest', w ++ rest = c :: rest' → c = 0 ∨ (strchr del c).isSome = false) ∧
      ∀ c rest', rest = c :: rest' → c = 0 ∨ (strchr del c).isSome = true := by
  obtain ⟨r, hr, hstop⟩ :=
    takeWhile_split (fun c ↦ c != 0 && (strchr del c).isSome) (buf.drop start)
  set pre := (buf.drop start).takeWhile fun c ↦ c != 0 && (strchr del c).isSome
  have hdrop : buf.drop (start + pre.length) = r := by
    rw [← List.drop_drop, hr, List.drop_left]
  obtain ⟨rest, hrest, hstop'⟩ := takeWhile_split (fun c ↦ c != 0 && (strchr del c).isNone) r
  refine ⟨pre, _, rest, hr.trans (by rw [← hrest]), rfl, by rw [hdrop], ?_, ?_⟩
  · intro c rest' h
    have := hstop c rest' (hrest.trans h)
    rw [or_iff_not_imp_left]
    simpa using this
  · intro c rest' h
    have := hstop' c rest' h
    rw [or_iff_not_imp_left]
    simpa [Option.isSome_iff_ne_none] using this

/-- **What a call does**, by these runs: it ends the token where it does not end anyway. -/
theorem exists_strtokR {s m : Option ℕ} {start : ℕ} (hstart : (s <|> m) = some start)
    (del buf : List Byte) :
    ∃ pre w rest, buf.drop start = pre ++ (w ++ rest) ∧
      (∀ x ∈ pre, x ≠ 0 ∧ (strchr del x).isSome = true) ∧
      (∀ x ∈ w, x ≠ 0 ∧ (strchr del x).isSome = false) ∧
      (∀ c rest', w ++ rest = c :: rest' → c = 0 ∨ (strchr del c).isSome = false) ∧
      (∀ c rest', rest = c :: rest' → c = 0 ∨ (strchr del c).isSome = true) ∧
      buf.getD (start + pre.length + w.length) 0 = rest.headD 0 ∧
      strtokR s m del buf =
        if rest.headD 0 ≠ 0 then
          { token := if w = [] then none else some (start + pre.length),
            saved := some (start + pre.length + w.length + 1),
            buf := buf.set (start + pre.length + w.length) 0 }
        else { token := if w = [] then none else some (start + pre.length), saved := none,
               buf := buf } := by
  obtain ⟨pre, w, rest, hbuf, hpre, hw, hfirst, hnext⟩ := exists_runs del buf start
  have htok : buf.drop (start + pre.length) = w ++ rest := by
    rw [← List.drop_drop, hbuf, List.drop_left]
  have hp : buf.drop (start + pre.length + w.length) = rest := by
    rw [← List.drop_drop, htok, List.drop_left]
  have hget : buf.getD (start + pre.length + w.length) 0 = rest.headD 0 := by
    rw [← hp, List.getD_eq_getElem?_getD, List.headD_eq_head?_getD, List.head?_drop]
  refine ⟨pre, w, rest, hbuf, fun x hx ↦ ?_, fun x hx ↦ ?_, hfirst, hnext, hget, ?_⟩
  · have := List.mem_takeWhile_imp (hpre ▸ hx)
    simpa using this
  · have := List.mem_takeWhile_imp (hw ▸ hx)
    simpa using this
  · simp only [strtokR, hstart]
    rw [← hpre, ← hw, hget]
    simp

/-- A call at a token that a delimiter ends. -/
theorem strtokR_run {del buf w rest : List Byte} {d : Byte} {start : ℕ}
    (hbuf : buf.drop start = w ++ d :: rest) (hne : w ≠ [])
    (hw : ∀ x ∈ w, x ≠ 0 ∧ (strchr del x).isSome = false)
    (hd : d ≠ 0 ∧ (strchr del d).isSome = true) :
    strtokR none (some start) del buf =
      { token := some start, saved := some (start + w.length + 1),
        buf := buf.set (start + w.length) 0 } := by
  have hpre : (buf.drop start).takeWhile (fun c ↦ c != 0 && (strchr del c).isSome) = [] := by
    obtain ⟨c, w', rfl⟩ := List.exists_cons_of_ne_nil hne
    rw [hbuf, List.cons_append, List.takeWhile_cons_of_neg]
    rw [(hw c List.mem_cons_self).2, Bool.and_false]
    decide
  have htoken : (buf.drop start).takeWhile (fun c ↦ c != 0 && (strchr del c).isNone) = w := by
    rw [hbuf, List.takeWhile_append_of_pos fun x hx ↦ ?_, List.takeWhile_cons_of_neg,
      List.append_nil]
    · rw [← Option.not_isSome, hd.2, Bool.not_true, Bool.and_false]
      decide
    · rw [← Option.not_isSome, (hw x hx).2, Bool.not_false, Bool.and_true]
      exact bne_iff_ne.mpr (hw x hx).1
  have hget : buf.getD (start + w.length) 0 = d := by
    rw [List.getD_eq_getElem?_getD, ← List.getElem?_drop, hbuf,
      List.getElem?_append_right le_rfl, Nat.sub_self]
    rfl
  have hlen : w.length ≠ 0 := fun h ↦ hne (List.length_eq_zero_iff.mp h)
  have hstart : (none <|> some start : Option ℕ) = some start := rfl
  simp only [strtokR, hstart, hpre, List.length_nil, Nat.add_zero, htoken, hget]
  rw [if_pos hd.1, if_neg (by omega)]

/-- A call at the end of the string. -/
theorem strtokR_end {del buf : List Byte} {start : ℕ} (hbuf : buf.getD start 0 = 0) :
    strtokR none (some start) del buf = { token := none, saved := none, buf := buf } := by
  obtain ⟨rest, hrest⟩ : ∃ rest, buf.drop start = rest ∧ rest.headD 0 = 0 :=
    ⟨_, rfl, by rwa [List.headD_eq_head?_getD, List.head?_drop, ← List.getD_eq_getElem?_getD]⟩
  have hstop : ∀ q : Byte → Bool, (buf.drop start).takeWhile (fun c ↦ c != 0 && q c) = [] := by
    intro q
    rw [hrest.1]
    cases rest with
    | nil => rfl
    | cons c rest =>
      rw [List.takeWhile_cons_of_neg]
      rw [show c = 0 from hrest.2, bne_self_eq_false, Bool.false_and]
      decide
  have hstart : (none <|> some start : Option ℕ) = some start := rfl
  simp only [strtokR, hstart, hstop, List.length_nil, Nat.add_zero, hbuf]
  rfl

/-- **One call takes one token.**  When none is left the answer is null, and stays null. -/
theorem strtokR_left (s m : Option ℕ) (del buf : List Byte) :
    (left del (s <|> m) buf = [] → strtokR s m del buf =
      { token := none, saved := none, buf := buf }) ∧
    ∀ c cs, left del (s <|> m) buf = c :: cs → ∃ t m' buf',
      strtokR s m del buf = { token := some t, saved := m', buf := buf' } ∧
      cString (buf'.drop t) = c ∧ left del m' buf' = cs ∧ buf'.length = buf.length := by
  cases hstart : s <|> m with
  | none =>
    have hm : m = none := by cases s <;> simp_all
    refine ⟨fun _ ↦ by rw [strtokR, hstart, hm], fun c cs h ↦ ?_⟩
    cases h
  | some start =>
    obtain ⟨pre, w, rest, hbuf, hpre', hw', hfirst, hnext, hget, hcall⟩ :=
      exists_strtokR hstart del buf
    have htok : buf.drop (start + pre.length) = w ++ rest := by
      rw [← List.drop_drop, hbuf, List.drop_left]
    have hleft : left del (some start) buf =
        components (fun c ↦ (strchr del c).isSome) (pre ++ (w ++ cString rest)) := by
      rw [left, hbuf, cString_append fun x hx ↦ (hpre' x hx).1,
        cString_append fun x hx ↦ (hw' x hx).1]
    by_cases hrest : rest.headD 0 = 0
    · -- The string ends behind the run.
      have hend : cString rest = [] := by
        cases rest with
        | nil => rfl
        | cons c rest' =>
          rw [List.headD_cons] at hrest
          rw [hrest]
          rfl
      rw [hcall, hleft, if_neg (not_not.mpr hrest), hend, List.append_nil,
        components_append_of_forall fun x hx ↦ (hpre' x hx).2]
      by_cases hwe : w = []
      · rw [hwe]
        exact ⟨fun _ ↦ rfl, fun c cs h ↦ by cases h⟩
      · rw [components_of_forall_not (fun x hx ↦ (hw' x hx).2) hwe, if_neg hwe]
        refine ⟨fun h ↦ absurd h (List.cons_ne_nil _ _), fun c cs h ↦ ⟨_, _, _, rfl, ?_, ?_, rfl⟩⟩
        · rw [htok, cString_append fun x hx ↦ (hw' x hx).1, hend, List.append_nil]
          exact (List.cons.inj h).1
        · exact (List.cons.inj h).2
    · -- A delimiter ends the run, and a NUL is written over it.
      obtain ⟨d, rest', rfl⟩ : ∃ d rest', rest = d :: rest' :=
        List.exists_cons_of_ne_nil fun h ↦ hrest (by rw [h]; rfl)
      have hd : (strchr del d).isSome = true := (hnext d rest' rfl).resolve_left hrest
      have hwe : w ≠ [] := by
        rintro rfl
        have := (hfirst d rest' rfl).resolve_left hrest
        rw [hd] at this
        cases this
      have hset : (buf.set (start + pre.length + w.length) 0).drop (start + pre.length) =
          w ++ 0 :: rest' := by
        rw [List.drop_set, if_neg (by omega), htok, Nat.add_sub_cancel_left, List.set_append]
        simp
      have hdc : cString (d :: rest') = d :: cString rest' :=
        List.takeWhile_cons_of_pos (by simpa using hrest)
      rw [hcall, hleft, if_pos hrest, if_neg hwe, hdc,
        components_of_run (fun x hx ↦ (hpre' x hx).2) (fun x hx ↦ (hw' x hx).2) hwe hd]
      refine ⟨fun h ↦ absurd h (List.cons_ne_nil _ _), fun c cs h ↦
        ⟨_, _, _, rfl, ?_, ?_, List.length_set⟩⟩
      · rw [hset, cString_append_cons_zero fun x hx ↦ (hw' x hx).1]
        exact (List.cons.inj h).1
      · rw [left, ← (List.cons.inj h).2, Nat.add_assoc _ w.length, ← List.drop_drop, hset,
          ← List.drop_drop, List.drop_left]
        rfl

/-! ## What is written -/

/-- Where a tokenizer with this saved position writes no more. -/
def Behind (saved : Option ℕ) (i : ℕ) : Prop := ∀ k, saved = some k → i < k

/-- A call writes nothing before the saved position, and moves it on. -/
theorem strtokR_behind {m : Option ℕ} {i : ℕ} (del buf : List Byte) (hi : Behind m i) :
    (strtokR none m del buf).buf[i]? = buf[i]? ∧ Behind (strtokR none m del buf).saved i := by
  cases m with
  | none => exact ⟨rfl, fun k hk ↦ absurd hk (by simp [strtokR])⟩
  | some start =>
    obtain ⟨pre, w, rest, -, -, -, -, -, -, hcall⟩ :=
      exists_strtokR (s := none) (m := some start) rfl del buf
    have hlt := hi start rfl
    rw [hcall]
    split
    · refine ⟨List.getElem?_set_ne (by omega), fun k hk ↦ ?_⟩
      have hk := Option.some.inj hk
      omega
    · exact ⟨rfl, fun k hk ↦ nomatch hk⟩

/-- **Where the first token ends.**  What calls from the start on leave of a buffer is the buffer,
if no delimiter ends the first token, and else has a null there. -/
theorem strtokR_first {del buf buf' : List Byte}
    (hkept : ∀ i, Behind (strtokR (some 0) none del buf).saved i →
      buf'[i]? = (strtokR (some 0) none del buf).buf[i]?) :
    ∃ pre w rest, buf = pre ++ (w ++ rest) ∧
      (∀ x ∈ pre, x ≠ 0 ∧ (strchr del x).isSome = true) ∧
      (∀ x ∈ w, x ≠ 0 ∧ (strchr del x).isSome = false) ∧
      ((cString rest = [] ∧ buf' = buf) ∨ (w ≠ [] ∧ ∃ d rest' left, rest = d :: rest' ∧ d ≠ 0 ∧
        (strchr del d).isSome = true ∧ buf' = pre ++ (w ++ 0 :: left))) := by
  obtain ⟨pre, w, rest, hbuf, hpre, hw, hfirst, hnext, -, hcall⟩ :=
    exists_strtokR (s := some 0) (m := none) rfl del buf
  rw [List.drop_zero] at hbuf
  rw [Nat.zero_add] at hcall
  rw [hcall] at hkept
  refine ⟨pre, w, rest, hbuf, hpre, hw, ?_⟩
  by_cases hrest : rest.headD 0 = 0
  · rw [if_neg (not_not.mpr hrest)] at hkept
    refine .inl ⟨?_, List.ext_getElem? fun i ↦ hkept i fun k hk ↦ nomatch hk⟩
    cases rest with
    | nil => rfl
    | cons c rest' =>
      rw [List.headD_cons] at hrest
      rw [hrest]
      rfl
  · rw [if_pos hrest] at hkept
    obtain ⟨d, rest', rfl⟩ : ∃ d rest', rest = d :: rest' :=
      List.exists_cons_of_ne_nil fun hnil ↦ hrest (by rw [hnil]; rfl)
    rw [List.headD_cons] at hrest
    have hd := (hnext d rest' rfl).resolve_left hrest
    refine .inr ⟨?_, d, rest', buf'.drop (pre.length + w.length + 1), rfl, hrest, hd, ?_⟩
    · rintro rfl
      have hnot := (hfirst d rest' rfl).resolve_left hrest
      rw [hd] at hnot
      cases hnot
    · have htake : buf'.take (pre.length + w.length + 1) = pre ++ (w ++ [0]) := by
        have hset : buf.set (pre.length + w.length) 0 = pre ++ (w ++ 0 :: rest') := by
          rw [hbuf, List.set_append_right _ _ (by omega), Nat.add_sub_cancel_left,
            List.set_append_right _ _ le_rfl, Nat.sub_self, List.set_cons_zero]
        have hlen : (pre ++ (w ++ [0#8])).length = pre.length + w.length + 1 := by
          rw [List.length_append, List.length_append, List.length_singleton, Nat.add_assoc]
        refine List.ext_getElem? fun i ↦ ?_
        rw [List.getElem?_take]
        split
        · next hi =>
          rw [hkept i fun k hk ↦ by have := Option.some.inj hk; omega]
          dsimp only
          rw [hset, show pre ++ (w ++ 0 :: rest') = pre ++ (w ++ [0]) ++ rest' by simp,
            List.getElem?_append_left (hlen ▸ hi)]
        · next hi => rw [List.getElem?_eq_none (hlen ▸ not_lt.mp hi)]
      calc buf' = buf'.take (pre.length + w.length + 1) ++
            buf'.drop (pre.length + w.length + 1) := (List.take_append_drop _ _).symm
        _ = pre ++ (w ++ 0 :: buf'.drop (pre.length + w.length + 1)) := by
          rw [htake, List.append_assoc, List.append_assoc, List.singleton_append]

/-- Where the string ends there is a null. -/
theorem getD_length_cString (buf : List Byte) : buf.getD (cString buf).length 0 = 0 := by
  obtain ⟨rest, hrest, hstop⟩ := takeWhile_split (fun c ↦ c != 0) buf
  have hget : buf[(cString buf).length]? = rest.head? :=
    calc buf[(cString buf).length]?
        = (cString buf ++ rest)[(cString buf).length]? :=
          congrArg (fun l : List Byte ↦ l[(cString buf).length]?) hrest
      _ = rest.head? := by
        rw [List.getElem?_append_right le_rfl, Nat.sub_self, List.head?_eq_getElem?]
  rw [List.getD_eq_getElem?_getD, hget]
  cases rest with
  | nil => rfl
  | cons c rest => simpa using hstop c rest rfl

/-- What calls on a string leave of the buffer: only characters of the string have been overwritten,
and none from the saved position on. -/
structure TokensCut (orig buf : List Byte) (m : Option ℕ) : Prop where
  length : buf.length = orig.length
  same : ∀ p, buf[p]? = orig[p]? ∨ p < (cString orig).length ∧ buf[p]? = some 0
  saved : ∀ k, m = some k → k ≤ (cString orig).length ∧ ∀ p, k ≤ p → buf[p]? = orig[p]?

theorem TokensCut.refl (buf : List Byte) : TokensCut buf buf (some 0) where
  length := rfl
  same _ := .inl rfl
  saved k hk := by
    obtain rfl := Option.some.inj hk
    exact ⟨Nat.zero_le _, fun _ _ ↦ rfl⟩

/-- **A call stays in the string.** -/
theorem TokensCut.strtokR {orig buf : List Byte} {m : Option ℕ} (h : TokensCut orig buf m)
    (del : List Byte) :
    TokensCut orig (strtokR none m del buf).buf (strtokR none m del buf).saved := by
  cases m with
  | none => exact ⟨h.length, h.same, fun k hk ↦ nomatch hk⟩
  | some start =>
    obtain ⟨pre, w, rest, hbuf, hpre, hw, -, -, hget, hcall⟩ :=
      exists_strtokR (s := none) (m := some start) rfl del buf
    obtain ⟨hstart, hrest⟩ := h.saved start rfl
    rw [hcall]
    split
    · next hne =>
      have hlt : start + pre.length + w.length < (cString orig).length := by
        by_contra hge
        -- the string would end in a run, or at the delimiter
        have hnull := getD_length_cString orig
        rw [List.getD_eq_getElem?_getD, ← hrest _ hstart,
          ← Nat.add_sub_cancel' hstart, ← List.getElem?_drop, hbuf] at hnull
        rcases Nat.lt_or_ge ((cString orig).length - start) pre.length with hin | hin
        · rw [List.getElem?_append_left hin, List.getElem?_eq_getElem hin,
            Option.getD_some] at hnull
          exact (hpre _ (List.getElem_mem hin)).1 hnull
        · rw [List.getElem?_append_right hin] at hnull
          rcases Nat.lt_or_ge ((cString orig).length - start - pre.length) w.length with hin' | hin'
          · rw [List.getElem?_append_left hin', List.getElem?_eq_getElem hin',
              Option.getD_some] at hnull
            exact (hw _ (List.getElem_mem hin')).1 hnull
          · rw [List.getElem?_append_right hin',
              show (cString orig).length - start - pre.length - w.length = 0 by omega,
              ← List.head?_eq_getElem?, ← List.headD_eq_head?_getD] at hnull
            exact hne hnull
      have hset : ∀ p, p ≠ start + pre.length + w.length →
          (buf.set (start + pre.length + w.length) 0)[p]? = buf[p]? := fun p hp ↦
        List.getElem?_set_ne hp.symm
      refine ⟨List.length_set.trans h.length, fun p ↦ ?_, fun k hk ↦ ?_⟩
      · by_cases hp : p = start + pre.length + w.length
        · refine .inr ⟨hp ▸ hlt, ?_⟩
          have hin : p < buf.length := by
            rw [h.length]
            exact (hp ▸ hlt).trans_le (List.takeWhile_sublist _).length_le
          rw [← hp]
          exact List.getElem?_set_self hin
        · rw [hset p hp]
          exact h.same p
      · obtain rfl := Option.some.inj hk
        refine ⟨hlt, fun p hp ↦ ?_⟩
        rw [hset p (by omega)]
        exact hrest p (by omega)
    · exact ⟨h.length, h.same, fun k hk ↦ nomatch hk⟩

end Borrrdex
