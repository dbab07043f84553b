import Borrrdex.Fs.Ext2Mount
import Borrrdex.Fs.DiskImage

/-!
# The partition table

`gpt::parse` loads the table of a GPT disk and registers a device for each entry in use.  The size
of the buffer, the number of sectors and the distance of two entries come from the number of entries
and the size of one, in three different ways, and `gptTableRead_iff` says for which tables they
agree.

`round_up` clears one bit of its result where it should clear all the bits below it, so that the
buffer is too small whenever the number of sectors is odd; entries are taken to be 128 bytes apart,
whatever the header says; and one is in use for the code if its first and its last sector differ.
-/

set_option autoImplicit false

namespace Borrrdex

open Splice

variable {σ : Type}

/-- `kstd::round_up`. -/
def roundUp (x interval : U32) : U32 := (x + interval - 1) &&& ~~~interval

/-- `kstd::intervals_needed`. -/
def intervalsNeeded (x interval : U32) : U32 := (x + interval - 1) / interval

/-- A 64-bit word, little endian. -/
def le64 (bytes : ℕ → Byte) (p : ℕ) : U64 := le32 bytes (p + 4) ++ le32 bytes p

/-- What `parse` uses of a `gpt_header_t`. -/
structure GptHeader where
  signature : U64
  partitionTableLba : U64
  partNum : U32
  partEntrySize : U32

/-- The header, by its bytes. -/
def GptHeader.ofBytes (bytes : ℕ → Byte) : GptHeader where
  signature := le64 bytes 0
  partitionTableLba := le64 bytes 72
  partNum := le32 bytes 80
  partEntrySize := le32 bytes 84

/-- `GPT_HEADER_SIGNATURE`. -/
def gptHeaderSignature : U64 := 0x5452415020494645

/-- What `parse` uses of a `gpt_entry_t`, and gives to a `partition_device`; the type as its
sixteen bytes. -/
structure GptEntry where
  startLba : U64
  endLba : U64
  typeGuid : List Byte
  deriving DecidableEq

namespace GptEntry

/-- An entry, by the bytes from an offset on. -/
def ofBytes (bytes : ℕ → Byte) (o : ℕ) : GptEntry where
  startLba := le64 bytes (o + 32)
  endLba := le64 bytes (o + 40)
  typeGuid := (List.range 16).map fun i ↦ bytes (o + i)

/-- An entry with `nullguid` for a type is unused. -/
def InUse (e : GptEntry) : Prop := e.typeGuid ≠ List.replicate 16 0

instance (e : GptEntry) : Decidable e.InUse := inferInstanceAs (Decidable (_ ≠ _))

/-- `entry->end_lba - entry->start_lba`, as a test. -/
def Registered (e : GptEntry) : Prop := e.endLba - e.startLba ≠ 0

instance (e : GptEntry) : Decidable e.Registered := inferInstanceAs (Decidable (_ ≠ _))

/-- Where `parse` reads an entry: the two sectors, and the type if a device is made. -/
def reads (e : GptEntry) (o : ℕ) : List ℕ :=
  (List.range 16).map (o + 32 + ·) ++ if e.Registered then (List.range 16).map (o + ·) else []

end GptEntry

/-- What a call of `parse` comes to: the code, the partitions that were added, the size of the
buffer for the table, how many bytes were read into it, and where the entries were read from it. -/
structure GptParse (σ : Type) where
  code : ℤ
  partitions : List GptEntry
  tableSize : ℕ
  transferred : ℕ
  reads : List ℕ
  state : σ

namespace Disk

variable (d : Disk σ)

/-- `read_disk_block`, into memory. -/
def readInto (lba : U64) (count : U32) (mem : ℕ → Byte) (s : σ) : ℤ × (ℕ → Byte) × σ :=
  let (e, buffer, s) :=
    d.readDiskBlock lba count ((List.range (count.toNat * d.blockSize.toNat)).map mem) s
  (e, fun p ↦ buffer.getD p (mem p), s)

/-- `gpt::parse`; `header` and `table` are the memory from where the two buffers are. -/
def parse (header table : ℕ → Byte) (s : σ) : GptParse σ :=
  let (e, header, s) := d.readInto 1 1 header s
  if e < 0 then ⟨-1, [], 0, 0, [], s⟩
  else
    let h := GptHeader.ofBytes header
    if h.signature ≠ gptHeaderSignature ∨ h.partNum = 0 then ⟨0, [], 0, 0, [], s⟩
    else
      let tableSize := roundUp (h.partNum * h.partEntrySize) d.blockSize
      let sectors := intervalsNeeded (h.partNum * h.partEntrySize) d.blockSize
      let transferred := sectors.toNat * d.blockSize.toNat
      let (e, table, s) := d.readInto h.partitionTableLba sectors table s
      if e < 0 then ⟨-1, [], tableSize.toNat, transferred, [], s⟩
      else
        -- `part_num` is an `int`
        let offsets := (List.range h.partNum.toInt.toNat).map (· * 128)
        let entries := offsets.map fun o ↦ (o, GptEntry.ofBytes table o)
        { code := 1
          partitions := (entries.map Prod.snd).filter fun e ↦ e.Registered
          tableSize := tableSize.toNat
          transferred := transferred
          reads := entries.flatMap fun (o, e) ↦ e.reads o
          state := s }

end Disk

/-- The disk has these bytes, and the header and the table can be read. -/
structure Media.HoldsGpt {disk : Disk σ} (media : Media disk) (image : ℕ → Byte) : Prop where
  contents : ∀ lba count, media.contents lba count =
    (List.range (count.toNat * 512)).map fun i ↦ image (lba.toNat * 512 + i)
  header_served : ∀ s, media.served 1 1 s = true
  table_served : ∀ s,
    let h := GptHeader.ofBytes fun p ↦ image (512 + p)
    media.served h.partitionTableLba
      (intervalsNeeded (h.partNum * h.partEntrySize) disk.blockSize) s = true

namespace GptHeader

variable (h : GptHeader)

/-- The size of the table, as computed. -/
def tableBytes : ℕ := (h.partNum * h.partEntrySize).toNat

/-- The rounds of the loop. -/
def rounds : ℕ := h.partNum.toInt.toNat

/-- The entries by the header: `part_num` of them, `part_entry_size` apart. -/
def entries (bytes : ℕ → Byte) : List GptEntry :=
  (List.range h.partNum.toNat).map fun i ↦ GptEntry.ofBytes bytes (i * h.partEntrySize.toNat)

/-- What is in memory when the table has been read: the table as far as it is read, and then what
there was. -/
def loaded (bytes table : ℕ → Byte) (p : ℕ) : Byte :=
  if p < (h.tableBytes + 511) % 2 ^ 32 / 512 * 512 then bytes p else table p

/-- **A table that is read right**: the buffer holds what is read into it and all entries that are
read, and the devices are those of the entries in use, in their order. -/
structure TableRead (bytes : ℕ → Byte) (r : GptParse σ) : Prop where
  room : r.transferred ≤ r.tableSize
  inside : ∀ p ∈ r.reads, p < r.tableSize
  registered : r.partitions = (h.entries bytes).filter fun e ↦ e.InUse

/-- When it is: the table has an even number of sectors, a number of entries that is
negative as an `int` or does not overflow the size, and the same entries in use as entries
of 128 bytes not empty. -/
structure RightTable (bytes table : ℕ → Byte) : Prop where
  even : (h.tableBytes + 511) / 512 % 2 = 0
  inside : h.rounds = 0 ∨ 128 * h.rounds ≤ (h.tableBytes + 511) % 2 ^ 32 + 80
  entries_eq : ((List.range h.rounds).map fun i ↦ GptEntry.ofBytes (h.loaded bytes table)
    (i * 128)).filter (fun e ↦ e.Registered) = (h.entries bytes).filter fun e ↦ e.InUse

/-- What the loop takes for the entries in use, of those that it meets at steps of 128 bytes, is
what they are, at steps of `k` times 128. -/
def Meets (k : ℕ) (bytes : ℕ → Byte) : Prop :=
  ((List.range h.partNum.toNat).map fun i ↦ GptEntry.ofBytes bytes (i * 128)).filter
      (fun e ↦ e.Registered) =
    ((List.range h.partNum.toNat).map fun j ↦ GptEntry.ofBytes bytes (j * k * 128)).filter
      fun e ↦ e.InUse

/-- **Which entries it should meet**: between two entries of the table it finds nothing, of those
that it meets it takes the ones in use, and those that it does not get to are not. -/
structure AtSteps (k : ℕ) (bytes : ℕ → Byte) : Prop where
  between : ∀ i < h.partNum.toNat, ¬ k ∣ i → ¬ (GptEntry.ofBytes bytes (i * 128)).Registered
  entry : ∀ j, j * k < h.partNum.toNat →
    ((GptEntry.ofBytes bytes (j * k * 128)).Registered ↔
      (GptEntry.ofBytes bytes (j * k * 128)).InUse)
  behind : ∀ j < h.partNum.toNat, h.partNum.toNat ≤ j * k →
    ¬ (GptEntry.ofBytes bytes (j * k * 128)).InUse

end GptHeader

/-! ## Sizes -/

/-- `round_up` to 512 clears the bit of 512. -/
theorem toNat_roundUp (x : U32) : (roundUp x 512).toNat =
    (x.toNat + 511) % 2 ^ 32 - (x.toNat + 511) / 512 % 2 * 512 := by
  have hy : (x + 512 - 1).toNat = (x.toNat + 511) % 2 ^ 32 := by bv_omega
  set y := x + 512 - 1
  -- what is left and what is cleared have no bit in common
  have hdisjoint : (y &&& ~~~512#32) &&& (y &&& 512#32) = 0#32 := by
    ext i hi
    simp only [BitVec.getElem_and, BitVec.getElem_not, BitVec.getElem_zero]
    cases y[i] <;> cases (512#32)[i] <;> rfl
  have hsum : (y &&& ~~~512#32) + (y &&& 512#32) = y := by
    rw [BitVec.add_eq_or_of_and_eq_zero _ _ hdisjoint]
    ext i hi
    simp only [BitVec.getElem_or, BitVec.getElem_and, BitVec.getElem_not]
    cases y[i] <;> cases (512#32)[i] <;> rfl
  have hget : y.getLsbD 9 = decide (y.toNat / 512 % 2 = 1) := by
    rw [← BitVec.testBit_toNat, Nat.testBit_eq_decide_div_mod_eq]
  have hbit : (y &&& 512#32).toNat = y.toNat / 512 % 2 * 512 := by
    rw [show (512#32) = BitVec.twoPow 32 9 from rfl, BitVec.and_twoPow]
    by_cases hone : y.toNat / 512 % 2 = 1
    · rw [if_pos (hget.trans (decide_eq_true hone)), hone]
      rfl
    · rw [if_neg (by rw [hget, decide_eq_true_eq]; exact hone), Nat.mod_two_ne_one.mp hone]
      rfl
  have hle : (y &&& ~~~512#32).toNat ≤ y.toNat := Nat.and_le_left
  have hnat := congrArg BitVec.toNat hsum
  rw [BitVec.toNat_add, hbit, hy] at hnat
  rw [hy] at hle
  rw [show roundUp x 512 = y &&& ~~~512#32 from rfl]
  omega

theorem toNat_intervalsNeeded (x : U32) :
    (intervalsNeeded x 512).toNat = (x.toNat + 511) % 2 ^ 32 / 512 := by
  have hsum : (x + 512 - 1).toNat = (x.toNat + 511) % 2 ^ 32 := by bv_omega
  rw [intervalsNeeded, BitVec.toNat_udiv, hsum]
  rfl

namespace Disk

/-! ## Reading -/

variable {d : Disk σ} {media : Media d} {image : ℕ → Byte}

theorem readInto_served (hd : media.HoldsGpt image) {lba : U64}
    {count : U32} (hcount : count.toNat < 2 ^ 31) (mem : ℕ → Byte) {s : σ}
    (hserved : media.served lba count s = true) :
    ∃ e s', 0 ≤ e ∧ d.readInto lba count mem s =
      (e, fun p ↦ if p < count.toNat * 512 then image (lba.toNat * 512 + p) else mem p, s') := by
  have hlen : ((List.range (count.toNat * d.blockSize.toNat)).map mem).length =
      count.toNat * d.blockSize.toNat := by
    rw [List.length_map, List.length_range]
  obtain ⟨e, s', he, hread⟩ := media.read_served lba count _ s hserved hcount hlen.ge
  refine ⟨e, s', he, ?_⟩
  have hfull := (media.length_contents lba count).trans hlen.symm
  rw [readInto, hread, splice_zero_of_length hfull, hd.contents]
  refine Prod.ext rfl (Prod.ext (funext fun p ↦ ?_) rfl)
  dsimp only
  rw [List.getD_eq_getElem?_getD, List.getElem?_map]
  by_cases hp : p < count.toNat * 512
  · rw [if_pos hp, List.getElem?_range hp]
    rfl
  · rw [if_neg hp, List.getElem?_eq_none (by rw [List.length_range]; omega)]
    rfl

/-- The header on a disk. -/
def gptHeader (image : ℕ → Byte) : GptHeader := GptHeader.ofBytes fun p ↦ image (512 + p)

/-- The bytes of the table. -/
def gptTable (image : ℕ → Byte) (p : ℕ) : Byte :=
  image ((gptHeader image).partitionTableLba.toNat * 512 + p)

/-- The header is found. -/
theorem ofBytes_header (mem : ℕ → Byte) : GptHeader.ofBytes (fun p ↦
    if p < (1 : U32).toNat * 512 then image ((1 : U64).toNat * 512 + p) else mem p) =
      gptHeader image := by
  have hword : ∀ o < 100, le32 (fun p ↦
      if p < (1 : U32).toNat * 512 then image ((1 : U64).toNat * 512 + p) else mem p) o =
        le32 (fun p ↦ image (512 + p)) o := fun o ho ↦ by
    have hin : ∀ p < 512, (if p < (1 : U32).toNat * 512 then image ((1 : U64).toNat * 512 + p)
        else mem p) = image (512 + p) := fun p hp ↦ if_pos hp
    rw [le32, le32, hin _ (by omega), hin _ (by omega), hin _ (by omega), hin _ (by omega)]
  rw [GptHeader.ofBytes, gptHeader, GptHeader.ofBytes, le64, le64, le64, le64, hword 0 (by decide),
    hword (0 + 4) (by decide), hword 72 (by decide), hword (72 + 4) (by decide),
    hword 80 (by decide), hword 84 (by decide)]

/-- **What `parse` does with a header that it accepts.** -/
theorem parse_eq (hbs : d.blockSize = 512) (hd : media.HoldsGpt image)
    (hsignature : (gptHeader image).signature = gptHeaderSignature)
    (hnum : (gptHeader image).partNum ≠ 0) (header table : ℕ → Byte) (s : σ) :
    ∃ s',
      let h := gptHeader image
      let entries := ((List.range h.rounds).map (· * 128)).map fun o ↦
        (o, GptEntry.ofBytes (h.loaded (gptTable image) table) o)
      d.parse header table s =
        { code := 1
          partitions := (entries.map Prod.snd).filter fun e ↦ e.Registered
          tableSize := (roundUp (h.partNum * h.partEntrySize) 512).toNat
          transferred := (h.tableBytes + 511) % 2 ^ 32 / 512 * 512
          reads := entries.flatMap fun (o, e) ↦ e.reads o
          state := s' } := by
  set h := gptHeader image with hh
  have hsectors : (intervalsNeeded (h.partNum * h.partEntrySize) 512).toNat =
      (h.tableBytes + 511) % 2 ^ 32 / 512 := toNat_intervalsNeeded _
  have hlt : (intervalsNeeded (h.partNum * h.partEntrySize) 512).toNat < 2 ^ 31 := by omega
  obtain ⟨e, s₁, he, hfirst⟩ := readInto_served hd (show (1 : U32).toNat < 2 ^ 31 by decide)
    header (hd.header_served s)
  have htable : media.served h.partitionTableLba
      (intervalsNeeded (h.partNum * h.partEntrySize) 512) s₁ = true := hbs ▸ hd.table_served s₁
  obtain ⟨e', s₂, he', hsecond⟩ := readInto_served hd hlt table htable
  refine ⟨s₂, ?_⟩
  rw [parse, hfirst]
  dsimp only
  rw [if_neg (not_lt.mpr he), ofBytes_header, ← hh,
    if_neg (not_or.mpr ⟨not_not.mpr hsignature, hnum⟩), hbs, hsecond, if_neg (not_lt.mpr he'),
    hsectors]
  rfl

end Disk

/-! ## Right tables -/

namespace GptHeader

variable {h : GptHeader} {bytes table : ℕ → Byte}

/-- The buffer is large enough if the bit that `round_up` clears is not set. -/
theorem room_iff : (h.tableBytes + 511) % 2 ^ 32 / 512 * 512 ≤
    (roundUp (h.partNum * h.partEntrySize) 512).toNat ↔ (h.tableBytes + 511) / 512 % 2 = 0 := by
  rw [toNat_roundUp, tableBytes]
  omega

/-- The last byte that is read is the last one of the last entry's `end_lba`. -/
theorem inside_iff (view : ℕ → GptEntry) (n size : ℕ) :
    (∀ p ∈ (((List.range n).map (· * 128)).map fun o ↦ (o, view o)).flatMap
      (fun (o, e) ↦ e.reads o), p < size) ↔ n = 0 ∨ 128 * n ≤ size + 80 := by
  simp only [List.map_map, List.mem_flatMap, List.mem_map, List.mem_range, Function.comp_apply,
    forall_exists_index, and_imp]
  constructor
  · intro hall
    rcases Nat.eq_zero_or_pos n with rfl | hn
    · exact .inl rfl
    · have hlast := hall ((n - 1) * 128 + 32 + 15) _ (n - 1) (by omega) rfl
        (List.mem_append_left _ (List.mem_map.mpr ⟨15, by decide, rfl⟩))
      omega
  · rintro hn p _ i hi rfl hp
    have hlt : p < i * 128 + 48 := by
      rcases List.mem_append.mp hp with hsectors | htype
      · obtain ⟨j, hj, rfl⟩ := List.mem_map.mp hsectors
        have := List.mem_range.mp hj
        omega
      · split at htype
        · obtain ⟨j, hj, rfl⟩ := List.mem_map.mp htype
          have := List.mem_range.mp hj
          omega
        · exact absurd htype List.not_mem_nil
    omega

/-- Every entry that the loop looks at is within what has been read. -/
theorem looked_eq (hrounds : h.rounds = h.partNum.toNat)
    (hinside : h.partNum.toNat * 128 ≤ h.tableBytes) (hfit : h.tableBytes + 511 < 2 ^ 32) :
    ((List.range h.rounds).map fun i ↦ GptEntry.ofBytes (h.loaded bytes table) (i * 128)) =
      (List.range h.partNum.toNat).map fun i ↦ GptEntry.ofBytes bytes (i * 128) := by
  rw [hrounds]
  refine List.map_congr_left fun i hi ↦ ?_
  have hi := List.mem_range.mp hi
  have hloaded : ∀ j < 128, h.loaded bytes table (i * 128 + j) = bytes (i * 128 + j) :=
    fun j hj ↦ if_pos (by omega)
  have hword : ∀ j < 120, le64 (h.loaded bytes table) (i * 128 + j) = le64 bytes (i * 128 + j) :=
    fun j hj ↦ by simp only [le64, le32, Nat.add_assoc]; simp (disch := omega) only [hloaded]
  rw [GptEntry.ofBytes, GptEntry.ofBytes, hword 32 (by decide), hword 40 (by decide)]
  refine congrArg (GptEntry.mk _ _) (List.map_congr_left fun j hj ↦ hloaded j ?_)
  have := List.mem_range.mp hj
  omega

/-- **With entries of `k` times 128 bytes and a table that is not too large**, what counts is the
number of sectors, and what the loop meets: the table's entry `j` is the entry `j * k` for it. -/
theorem rightTable_multiple_iff {k : ℕ} (hk : 0 < k) (hsize : h.partEntrySize.toNat = 128 * k)
    (hfit : h.partNum.toNat * (128 * k) + 511 < 2 ^ 32) :
    h.RightTable bytes table ↔
      (h.partNum.toNat * (128 * k) + 511) / 512 % 2 = 0 ∧ h.Meets k bytes := by
  have hbytes : h.tableBytes = h.partNum.toNat * (128 * k) := by
    rw [tableBytes, BitVec.toNat_mul, hsize]
    exact Nat.mod_eq_of_lt (by omega)
  have hle : h.partNum.toNat * 128 ≤ h.partNum.toNat * (128 * k) :=
    Nat.mul_le_mul_left _ (Nat.le_mul_of_pos_right 128 hk)
  have hrounds : h.rounds = h.partNum.toNat := by
    rw [rounds, BitVec.toInt_eq_toNat_of_lt (by omega)]
    rfl
  have hlooked : ((List.range h.rounds).map fun i ↦
      GptEntry.ofBytes (h.loaded bytes table) (i * 128)) = _ :=
    looked_eq hrounds (by omega) (by omega)
  have hentries : h.entries bytes =
      (List.range h.partNum.toNat).map fun j ↦ GptEntry.ofBytes bytes (j * k * 128) := by
    rw [entries, hsize]
    refine List.map_congr_left fun j _ ↦ congrArg _ ?_
    rw [Nat.mul_comm 128 k, Nat.mul_assoc]
  constructor
  · rintro ⟨heven, -, heq⟩
    rw [hlooked, hentries] at heq
    exact ⟨hbytes ▸ heven, heq⟩
  · rintro ⟨heven, heq⟩
    refine ⟨hbytes ▸ heven, .inr (by omega), ?_⟩
    rw [hlooked, hentries]
    exact heq

/-- The loop takes for an entry what is one. -/
theorem AtSteps.meets {k : ℕ} (hk : 0 < k) (hsteps : h.AtSteps k bytes) : h.Meets k bytes := by
  let e := fun i ↦ GptEntry.ofBytes bytes (i * 128)
  have hplaces : (List.range h.partNum.toNat).filter (fun i ↦ (e i).Registered) =
      ((List.range h.partNum.toNat).map (· * k)).filter fun i ↦ (e i).InUse := by
    have hlt : ∀ a b, a < b → a * k < b * k := fun a b hab ↦ Nat.mul_lt_mul_of_pos_right hab hk
    refine List.Pairwise.eq_of_mem_iff (r := (· < ·)) (List.pairwise_lt_range.filter _)
      ((List.pairwise_lt_range.map _ hlt).filter _) fun i ↦ ?_
    simp only [List.mem_filter, List.mem_range, List.mem_map, decide_eq_true_eq]
    constructor
    · rintro ⟨hi, hregistered⟩
      have hdvd : k ∣ i := by_contra fun hnot ↦ hsteps.between i hi hnot hregistered
      obtain ⟨j, rfl⟩ := hdvd
      rw [Nat.mul_comm] at hi hregistered ⊢
      refine ⟨⟨j, ?_, rfl⟩, (hsteps.entry j hi).mp hregistered⟩
      exact (Nat.le_mul_of_pos_right j hk).trans_lt hi
    · rintro ⟨⟨j, hj, rfl⟩, huse⟩
      have hi : j * k < h.partNum.toNat := by_contra fun hnot ↦
        hsteps.behind j hj (not_lt.mp hnot) huse
      exact ⟨hi, (hsteps.entry j hi).mpr huse⟩
  have hstrides : ((List.range h.partNum.toNat).map fun j ↦ GptEntry.ofBytes bytes (j * k * 128)) =
      ((List.range h.partNum.toNat).map (· * k)).map e := by
    rw [List.map_map]
    rfl
  rw [Meets, hstrides, List.filter_map, List.filter_map]
  exact congrArg (List.map e) hplaces

/-- **With entries of 128 bytes and a table that is not too large**, what counts is the number of
sectors, and that `nullguid` and an empty range mean the same. -/
theorem rightTable_iff (hsize : h.partEntrySize = 128)
    (hfit : h.partNum.toNat * 128 + 511 < 2 ^ 32) :
    h.RightTable bytes table ↔ (h.partNum.toNat * 128 + 511) / 512 % 2 = 0 ∧
      ∀ i < h.partNum.toNat, let e := GptEntry.ofBytes bytes (i * 128); e.Registered ↔ e.InUse := by
  rw [rightTable_multiple_iff Nat.one_pos (by rw [hsize]; rfl) hfit]
  refine and_congr_right fun _ ↦ ⟨fun hmeets ↦ ?_, fun hall ↦ ?_⟩
  · intro i hi e
    have hmem : e ∈ (List.range h.partNum.toNat).map fun i ↦ GptEntry.ofBytes bytes (i * 128) :=
      List.mem_map.mpr ⟨i, List.mem_range.mpr hi, rfl⟩
    rw [Meets] at hmeets
    simp only [Nat.mul_one] at hmeets
    have he := congrArg (e ∈ ·) hmeets
    simpa only [List.mem_filter, hmem, true_and, decide_eq_true_eq, eq_iff_iff] using he
  · exact AtSteps.meets Nat.one_pos
      ⟨fun i _ hnot ↦ absurd (one_dvd i) hnot, fun j hj ↦ by
        rw [Nat.mul_one] at hj ⊢
        exact hall j hj, fun j hj hle ↦ by omega⟩

end GptHeader

namespace Disk

variable {d : Disk σ} {media : Media d} {image : ℕ → Byte}

/-- The devices are made of the entries at their offsets. -/
theorem map_snd_entries (view : ℕ → GptEntry) (n : ℕ) :
    (((List.range n).map (· * 128)).map fun o ↦ (o, view o)).map Prod.snd =
      (List.range n).map fun i ↦ view (i * 128) := by
  rw [List.map_map, List.map_map]
  rfl

/-- **Which tables are read right**, of those that can be read at all.  With entries of 128 bytes,
and not so many that the size overflows, they are those with an even number of sectors where the
entries in use are the ones that are not empty.  With entries of several times 128 bytes the loop
looks into the entries as well, and does not get to all of them. -/
theorem gptTableRead_iff (hbs : d.blockSize = 512) (hd : media.HoldsGpt image)
    (hsignature : (gptHeader image).signature = gptHeaderSignature)
    (hnum : (gptHeader image).partNum ≠ 0) (header table : ℕ → Byte) (s : σ) :
    let h := gptHeader image
    let read := h.TableRead (gptTable image) (d.parse header table s)
    (read ↔ h.RightTable (gptTable image) table) ∧
      (h.partEntrySize = 128 → h.partNum.toNat * 128 + 511 < 2 ^ 32 →
        (read ↔ (h.partNum.toNat * 128 + 511) / 512 % 2 = 0 ∧ ∀ i < h.partNum.toNat,
          let e := GptEntry.ofBytes (gptTable image) (i * 128); e.Registered ↔ e.InUse)) ∧
      ∀ k, 0 < k → h.partEntrySize.toNat = 128 * k → h.partNum.toNat * (128 * k) + 511 < 2 ^ 32 →
        (read ↔ (h.partNum.toNat * (128 * k) + 511) / 512 % 2 = 0 ∧ h.Meets k (gptTable image)) ∧
          (h.AtSteps k (gptTable image) → h.Meets k (gptTable image)) := by
  intro h read
  have hiff : read ↔ h.RightTable (gptTable image) table := by
    obtain ⟨s', hparse⟩ := parse_eq hbs hd hsignature hnum header table s
    have hfull : (h.tableBytes + 511) / 512 % 2 = 0 →
        (roundUp (h.partNum * h.partEntrySize) 512).toNat = (h.tableBytes + 511) % 2 ^ 32 :=
      fun heven ↦ by
        rw [toNat_roundUp, ← GptHeader.tableBytes, heven, Nat.zero_mul, Nat.sub_zero]
    rw [show read = h.TableRead (gptTable image) _ from congrArg _ hparse]
    constructor
    · rintro ⟨hroom, hinside, hregistered⟩
      have heven := GptHeader.room_iff.mp hroom
      refine ⟨heven, ?_, ?_⟩
      · rw [← hfull heven]
        exact (GptHeader.inside_iff _ _ _).mp hinside
      · rw [map_snd_entries] at hregistered
        exact hregistered
    · rintro ⟨heven, hinside, hentries⟩
      refine ⟨GptHeader.room_iff.mpr heven, ?_, ?_⟩
      · exact (GptHeader.inside_iff _ _ _).mpr (by rw [hfull heven]; exact hinside)
      · rw [map_snd_entries]
        exact hentries
  exact ⟨hiff, fun hsize hfit ↦ hiff.trans (GptHeader.rightTable_iff hsize hfit),
    fun k hk hsize hfit ↦ ⟨hiff.trans (GptHeader.rightTable_multiple_iff hk hsize hfit),
      GptHeader.AtSteps.meets hk⟩⟩

/-- A disk with a header for `entries` entries of 128 bytes, all of them unused. -/
def gptImage (entries : Byte) : DiskImage where
  bytes p := ([(512, 0x45), (513, 0x46), (514, 0x49), (515, 0x20), (516, 0x50), (517, 0x41),
    (518, 0x52), (519, 0x54), (584, 2), (592, entries), (596, 128)].lookup p).getD 0
  fails _ := false

theorem holdsGpt_gptImage (entries : Byte) :
    (gptImage entries).toMedia.HoldsGpt (gptImage entries).bytes where
  contents _ _ := rfl
  header_served _ := rfl
  table_served _ := List.all_eq_true.mpr fun _ _ ↦ rfl

/-- Eight entries, none in use: two sectors. -/
theorem gptTableRead_eight : (gptHeader (gptImage 8).bytes).TableRead (gptTable (gptImage 8).bytes)
    ((gptImage 8).toDisk.parse (fun _ ↦ 0xaa) (fun _ ↦ 0xaa) ()) :=
  ((gptTableRead_iff rfl (holdsGpt_gptImage 8) (by decide) (by decide) _ _ ()).2.1 (by decide)
    (by decide)).mpr ⟨by decide, by decide⟩

/-- Four entries are one sector: the buffer for it has 511 bytes. -/
theorem not_gptTableRead : let h := gptHeader (gptImage 4).bytes
    h.signature = gptHeaderSignature ∧ h.partNum = 4 ∧ h.partEntrySize = 128 ∧
      ¬ h.TableRead (gptTable (gptImage 4).bytes)
        ((gptImage 4).toDisk.parse (fun _ ↦ 0xaa) (fun _ ↦ 0xaa) ()) := by
  refine ⟨by decide, by decide, by decide, fun hread ↦ ?_⟩
  obtain ⟨s', hparse⟩ := parse_eq rfl (holdsGpt_gptImage 4) (by decide) (by decide)
    (fun _ ↦ 0xaa) (fun _ ↦ 0xaa) ()
  have hroom := hread.room
  rw [hparse] at hroom
  exact absurd (GptHeader.room_iff.mp hroom) (by decide)

end Disk

end Borrrdex
