import Borrrdex.Fs.RelativePath

/-!
# What `resolve_path` leaves of a path

The `const` of the path is cast away and the path is tokenized where it is: over the slash behind
each component that the walk comes to, a null is written.  The first of them is written before
anything is looked up, so what becomes of the path depends on the file system only in how much more
of it is cut up, and a second call with the same pointer sees the first component alone.

`pathBytes_iff` says for which paths nothing is written, and for which nothing depends on it.
-/

set_option autoImplicit false

namespace Borrrdex

open Components PathWalk

variable {N : Type}

namespace FileSystem

variable {fs : FileSystem N} {resolve : List Byte → N → Option (Resolved N)}

/-- **The loop on components** leaves what is before the saved position. -/
theorem tokenLoop_behind {follow : Bool} {i : ℕ} :
    ∀ (rounds : ℕ) (cur : N) (st : Strtok) (r : Resolved N), Behind st.saved i →
      fs.tokenLoop resolve follow rounds cur st = some r → r.buf[i]? = st.buf[i]? := by
  intro rounds
  induction rounds with
  | zero => exact fun _ _ _ _ h ↦ nomatch h
  | succ rounds ih =>
    intro cur st r hi h
    rw [tokenLoop] at h
    cases htoken : st.token with
    | none =>
      rw [htoken] at h
      obtain rfl := Option.some.inj h
      rfl
    | some file =>
      simp only [htoken] at h
      cases hfind : fs.findDir cur (cString (st.buf.drop file)) with
      | none =>
        rw [hfind] at h
        obtain rfl := Option.some.inj h
        rfl
      | some node =>
        simp only [hfind] at h
        obtain ⟨⟨l, events⟩, -, h⟩ := Option.bind_eq_some_iff.mp h
        cases l with
        | none =>
          obtain rfl := Option.some.inj h
          rfl
        | some found =>
          obtain ⟨r', hr', rfl⟩ := Option.map_eq_some_iff.mp h
          obtain ⟨hbuf, hsaved⟩ := strtokR_behind slash st.buf hi
          rw [tokenStep] at hr'
          dsimp only at hr' ⊢
          split at hr'
          · exact (ih found.1 _ r' hsaved hr').trans hbuf
          · split at hr'
            · obtain rfl := Option.some.inj hr'
              exact hbuf
            · obtain ⟨l, -, rfl⟩ := Option.map_eq_some_iff.mp hr'
              exact hbuf

/-! ## The first component -/

/-- **What a call leaves**: the path, if no slash is behind its first component, and else a null
there. -/
theorem resolvePath_buf {fuel : ℕ} {path : List Byte} {wd : N} {follow : Bool} {r : Resolved N}
    (h : fs.resolvePath fuel path wd follow = some r) :
    ∃ pre w rest, path = pre ++ (w ++ rest) ∧ (∀ x ∈ pre, x = 0x2F) ∧
      (∀ x ∈ w, x ≠ 0 ∧ x ≠ 0x2F) ∧
      ((cString rest = [] ∧ r.buf = path) ∨ (w ≠ [] ∧ ∃ rest' left, rest = 0x2F :: rest' ∧
        r.buf = pre ++ (w ++ 0 :: left))) := by
  cases fuel with
  | zero => cases h
  | succ fuel =>
    rw [resolvePath] at h
    obtain ⟨pre, w, rest, hpath, hpre, hw, hleft⟩ :=
      strtokR_first fun i hi ↦ tokenLoop_behind _ _ _ r hi h
    refine ⟨pre, w, rest, hpath, fun x hx ↦ ?_, fun x hx ↦ ⟨(hw x hx).1, ?_⟩, ?_⟩
    · have hx := hpre x hx
      rw [strchr_slash hx.1] at hx
      exact beq_iff_eq.mp hx.2
    · have hx := hw x hx
      rw [strchr_slash hx.1] at hx
      exact ne_of_beq_false hx.2
    · refine hleft.imp_right ?_
      rintro ⟨hne, d, rest', left, rfl, hd₀, hd, hbuf⟩
      rw [strchr_slash hd₀] at hd
      obtain rfl := beq_iff_eq.mp hd
      exact ⟨hne, rest', left, rfl, hbuf⟩

theorem cString_of_firstToken {pre w : List Byte} (hpre : ∀ x ∈ pre, x = 0x2F)
    (hw : ∀ x ∈ w, x ≠ 0 ∧ x ≠ 0x2F) (rest : List Byte) :
    cString (pre ++ (w ++ rest)) = pre ++ (w ++ cString rest) := by
  rw [cString_append fun x hx ↦ by rw [hpre x hx]; decide, cString_append fun x hx ↦ (hw x hx).1]

/-- What is left has the first component of the path. -/
theorem pathComponents_buf {fuel : ℕ} {path : List Byte} {wd : N} {follow : Bool} {r : Resolved N}
    (h : fs.resolvePath fuel path wd follow = some r) :
    pathComponents r.buf = (pathComponents path).take 1 := by
  obtain ⟨pre, w, rest, hpath, hpre, hw, hleft⟩ := resolvePath_buf h
  have hpre' : ∀ x ∈ pre, (x == (0x2F : Byte)) = true := fun x hx ↦ beq_iff_eq.mpr (hpre x hx)
  have hw' : ∀ x ∈ w, (x == (0x2F : Byte)) = false := fun x hx ↦ beq_false_of_ne (hw x hx).2
  have hcut : ∀ rest, pathComponents (pre ++ (w ++ rest)) =
      components (· == 0x2F) (w ++ cString rest) := fun rest ↦ by
    rw [pathComponents, cString_of_firstToken hpre hw, components_append_of_forall hpre']
  obtain ⟨hend, hbuf⟩ | ⟨hne, rest', left, rfl, hbuf⟩ := hleft
  · rw [hbuf, hpath, hcut, hend, List.append_nil]
    by_cases hnil : w = []
    · rw [hnil]
      rfl
    · rw [components_of_forall_not hw' hnil]
      rfl
  · have hslash : cString (0x2F :: rest') = 0x2F :: cString rest' :=
      List.takeWhile_cons_of_pos (by decide)
    rw [hbuf, hpath, hcut, hcut, hslash, show cString (0 :: left) = [] from rfl, List.append_nil,
      components_of_forall_not hw' hne, components_append_cons (by decide),
      components_of_forall_not hw' hne]
    rfl

/-- No slash comes behind the first component of a path. -/
def NoSlashBehind (path : List Byte) : Prop := ∀ c ∈ (cString path).dropWhile (· == 0x2F), c ≠ 0x2F

instance (path : List Byte) : Decidable (NoSlashBehind path) :=
  inferInstanceAs (Decidable (∀ c ∈ (cString path).dropWhile (· == 0x2F), c ≠ 0x2F))

/-- Whatever is looked up, nothing is written exactly for these paths. -/
theorem buf_eq_iff {fuel : ℕ} {path : List Byte} {wd : N} {follow : Bool} {r : Resolved N}
    (h : fs.resolvePath fuel path wd follow = some r) : r.buf = path ↔ NoSlashBehind path := by
  obtain ⟨pre, w, rest, hpath, hpre, hw, hleft⟩ := resolvePath_buf h
  have hdrop : ∀ u : List Byte, (∀ c ∈ u.head?, c ≠ 0x2F) →
      (pre ++ u).dropWhile (· == 0x2F) = u := fun u hu ↦ by
    rw [List.dropWhile_append_of_pos fun x hx ↦ beq_iff_eq.mpr (hpre x hx)]
    cases u with
    | nil => rfl
    | cons c u => exact List.dropWhile_cons_of_neg (by simpa using hu c rfl)
  rw [NoSlashBehind, hpath, cString_of_firstToken hpre hw]
  obtain ⟨hend, hbuf⟩ | ⟨hne, rest', left, rfl, hbuf⟩ := hleft
  · rw [hend, List.append_nil, hdrop w fun c hc ↦ (hw c (List.mem_of_mem_head? hc)).2]
    exact iff_of_true (hbuf.trans hpath) fun c hc ↦ (hw c hc).2
  · have hslash : cString (0x2F :: rest') = 0x2F :: cString rest' :=
      List.takeWhile_cons_of_pos (by decide)
    obtain ⟨c, w', rfl⟩ := List.exists_cons_of_ne_nil hne
    rw [hslash, hdrop _ fun c' hc' ↦ by
      obtain rfl : c = c' := Option.some.inj hc'
      exact (hw c List.mem_cons_self).2]
    refine iff_of_false (fun heq ↦ ?_) fun hall ↦ ?_
    · rw [hbuf, List.append_cancel_left_eq, List.append_cancel_left_eq] at heq
      exact absurd (List.cons.inj heq).1 (by decide)
    · exact hall 0x2F (List.mem_append_right _ List.mem_cons_self) rfl

/-- A second call with the same pointer returns the same node. -/
def SameTwice (fs : FileSystem N) (path : List Byte) (follow : Bool) : Prop :=
  ∀ fuel r, fs.resolvePath fuel path fs.root follow = some r →
    ∃ fuel' r', fs.resolvePath fuel' r.buf fs.root follow = some r' ∧ r'.node = r.node

/-- **Which paths survive a call.**  In every file system, those without a slash behind the first
component; and a second call comes to the same node in all of them when there is no second
component. -/
theorem pathBytes_iff (path : List Byte) :
    (∀ (N : Type) (fs : FileSystem N) (fuel : ℕ) (follow : Bool) (r : Resolved N),
      fs.resolvePath fuel path fs.root follow = some r → (r.buf = path ↔ NoSlashBehind path)) ∧
    ((∀ (N : Type) (fs : FileSystem N) (follow : Bool), fs.SameTwice path follow) ↔
      (pathComponents path).length ≤ 1) := by
  refine ⟨fun N fs fuel follow r h ↦ buf_eq_iff h, fun hsame ↦ ?_, fun hlen N fs follow ↦ ?_⟩
  · have hnode := node_namesFs 0 path true
    obtain ⟨r, hr, hfirst⟩ := Option.map_eq_some_iff.mp hnode
    obtain ⟨fuel', r', hr', hsecond⟩ := hsame _ namesFs true 1 r hr
    cases fuel' with
    | zero => cases hr'
    | succ fuel' =>
      have hnode' := node_namesFs fuel' r.buf true
      rw [hr', Option.map_some, hsecond, hfirst, pathComponents_buf hr] at hnode'
      have htake := Option.some.inj (Option.some.inj hnode')
      rw [htake]
      exact (List.length_take_le 1 _)
  · intro fuel r hr
    have hbuf : pathComponents r.buf = pathComponents path := by
      rw [pathComponents_buf hr, List.take_of_length_le hlen]
    have hnode : (fs.resolvePath fuel r.buf fs.root follow).map Resolved.node =
        (fs.resolvePath fuel path fs.root follow).map Resolved.node :=
      node_eq_of_components hbuf fuel follow
    rw [hr] at hnode
    obtain ⟨r', hr', heq⟩ := Option.map_eq_some_iff.mp hnode
    exact ⟨fuel, r', hr', heq⟩

/-- `/a/b` becomes `/a`, and the second call returns the directory. -/
theorem not_sameTwice_namesFs : ¬ namesFs.SameTwice [0x2F, 0x61, 0x2F, 0x62, 0] true ∧
    ∃ r, namesFs.resolvePath 1 [0x2F, 0x61, 0x2F, 0x62, 0] namesFs.root true = some r ∧
      r.buf = [0x2F, 0x61, 0, 0x62, 0] := by
  have hbuf : (namesFs.resolvePath 1 [0x2F, 0x61, 0x2F, 0x62, 0] namesFs.root true).map
      Resolved.buf = some [0x2F, 0x61, 0, 0x62, 0] := by decide
  obtain ⟨r, hr, hcut⟩ := Option.map_eq_some_iff.mp hbuf
  refine ⟨fun hsame ↦ ?_, r, hr, hcut⟩
  obtain ⟨fuel', r', hr', hnode⟩ := hsame 1 r hr
  have hfirst := node_namesFs 0 [0x2F, 0x61, 0x2F, 0x62, 0] true
  rw [hr] at hfirst
  cases fuel' with
  | zero => cases hr'
  | succ fuel' =>
    have hsecond := node_namesFs fuel' r.buf true
    rw [hr', Option.map_some, hnode, hcut] at hsecond
    exact absurd (hsecond.symm.trans hfirst) (by decide)

end FileSystem

end Borrrdex
