import Borrrdex.Kstd.Memcpy
import Borrrdex.Storage.AhciPort

/-!
# The commands of a read

`ahci_port::read_disk_block` again, now with what it writes for the controller: the command header,
the FIS with its six address bytes, and the table of physical ranges.  The controller executes a
command by what it finds there, and all the data go through one page, the bounce buffer, from which
`memcpy` takes them to the caller.

So the sectors of a call are named twice, by the addresses of its commands and by where the copies
go to, and `readDiskBlock_covers` says that the two agree: the commands name each sector once, in
order, and its bytes are found at its place in the caller's buffer.  That is the call that finds a
free slot and a bounce buffer; another returns a code before any command.
-/

set_option autoImplicit false

namespace Borrrdex

open Splice

namespace Ahci

/-! ## What the controller is given -/

/-- `achi_hba_cmd_header_t`, by the fields that are not left 0. -/
structure CmdHeader where
  commandFisLength : BitVec 5
  prdtEntries : BitVec 16
  commandTableBase : U64

/-- `fis_reg_h2d_t`, likewise. -/
structure FisRegH2d where
  fisType : Byte
  cmdRegister : Byte
  isCommand : Bool
  device : Byte
  lba0 : Byte
  lba1 : Byte
  lba2 : Byte
  lba3 : Byte
  lba4 : Byte
  lba5 : Byte
  count : BitVec 16

/-- `hba_prdt_entry_t`: a range of physical memory; the field has one byte less than the range. -/
structure PrdtEntry where
  dbAddr : U64
  byteCount : BitVec 22

/-- `hba_cmd_tbl_t`. -/
structure CmdTbl where
  commandFis : FisRegH2d
  prdtEntries : List PrdtEntry

/-- A command that was issued: its header and its table. -/
structure Issued where
  header : CmdHeader
  table : CmdTbl

/-- `prepare_cmd_header`; a FIS has five words. -/
def prepareCmdHeader (cmdListBase sectorCount : U64) : CmdHeader where
  commandFisLength := 5
  prdtEntries := ((sectorCount - 1) >>> 4).setWidth 16 + 1
  commandTableBase := cmdListBase + 32 * 32

/-- `prepare_cmd_fis`. -/
def prepareCmdFis (command : Byte) (start count : U64) : FisRegH2d where
  fisType := 0x27
  cmdRegister := command
  isCommand := true
  device := 0x40
  lba0 := start.setWidth 8
  lba1 := (start >>> 8).setWidth 8
  lba2 := (start >>> 16).setWidth 8
  lba3 := (start >>> 24).setWidth 8
  lba4 := (start >>> 32).setWidth 8
  lba5 := (start >>> 40).setWidth 8
  count := (count &&& 0xffff).setWidth 16

/-- The loop of `prepare_prdt_entries`, and the last entry. -/
def prdtLoop (buf sectorCount : U64) : ℕ → List PrdtEntry
  | 0 => [⟨buf, ((sectorCount <<< 9) - 1).setWidth 22⟩]
  | n + 1 => ⟨buf, 0x1fff⟩ :: prdtLoop (buf + 0x2000) (sectorCount - 16) n

/-- `prepare_prdt_entries`, for at least one entry. -/
def preparePrdtEntries (buf : U64) (entryCount : BitVec 16) (sectorCount : U64) : List PrdtEntry :=
  prdtLoop buf sectorCount (entryCount.toNat - 1)

/-- `IDE_COMMAND_DMA_READ_EX`. -/
def ideCommandDmaReadEx : Byte := 0x25

/-- The lambda `do_read`, up to the issue. -/
def doRead (cmdListBase phys lba : U64) (toRead : U32) : Issued :=
  let header := prepareCmdHeader cmdListBase (toRead.setWidth 64)
  { header := header
    table :=
      { commandFis := prepareCmdFis ideCommandDmaReadEx lba (toRead.setWidth 64)
        prdtEntries := preparePrdtEntries phys header.prdtEntries (toRead.setWidth 64) } }

/-! ## What it does -/

namespace Issued

variable (c : Issued)

/-- The address in the FIS. -/
def lba : ℕ :=
  let f := c.table.commandFis
  (f.lba5 ++ f.lba4 ++ f.lba3 ++ f.lba2 ++ f.lba1 ++ f.lba0).toNat

/-- How many sectors it asks for; 0 stands for 2^16. -/
def sectorCount : ℕ :=
  if c.table.commandFis.count = 0 then 2 ^ 16 else c.table.commandFis.count.toNat

/-- The sectors that a command names. -/
def sectorNumbers : List ℕ := (List.range c.sectorCount).map (c.lba + ·)

/-- The ranges that the header counts. -/
def ranges : List PrdtEntry := c.table.prdtEntries.take c.header.prdtEntries.toNat

end Issued

/-- How long a range is. -/
def PrdtEntry.length (e : PrdtEntry) : ℕ := e.byteCount.toNat + 1

/-- Memory with data put at an address. -/
def placed (m : ByteMem) (a : ℕ) (data : List Byte) : ByteMem :=
  fun p ↦ if a ≤ p ∧ p < a + data.length then data.getD (p - a) 0 else m p

/-- Data put into ranges, as far as both go. -/
def scatter : List PrdtEntry → List Byte → ByteMem → ByteMem
  | [], _, m => m
  | e :: es, data, m =>
    scatter es (data.drop e.length) (placed m e.dbAddr.toNat (data.take e.length))

/-- A port with its bounce buffers and where they are, for the kernel and for the controller. -/
structure PortHardware extends PortDisk where
  cmdListBase : U64
  phys : ℕ → U64
  virt : ℕ → ℕ

/-- Physical memory, the memory of the kernel outside the bounce buffers, and the commands of the
call so far. -/
structure PortMemory where
  physical : ByteMem
  memory : ByteMem
  issued : List Issued

namespace PortHardware

variable (p : PortHardware)

/-- Whether an address is in a bounce buffer, as the kernel sees it. -/
def OnPage (i a : ℕ) : Prop := p.virt i ≤ a ∧ a < p.virt i + 4096

instance (i a : ℕ) : Decidable (p.OnPage i a) := inferInstanceAs (Decidable (_ ∧ _))

/-- A command executed: the sectors named by the FIS go to the ranges. -/
def execute (c : Issued) (physical : ByteMem) : ByteMem :=
  scatter c.ranges (sectors p.media c.lba c.sectorCount).flatten physical

/-- Memory as the kernel sees it, with a bounce buffer. -/
def view (i : ℕ) (s : PortMemory) : ByteMem := fun a ↦
  if p.OnPage i a then s.physical ((p.phys i).toNat + (a - p.virt i)) else s.memory a

/-- `memcpy(b, _buffers[buffer_idx].virt, n)`, outside of the bounce buffer. -/
def copyOut (i b n : ℕ) (s : PortMemory) : ByteMem :=
  fun a ↦ if p.OnPage i a then s.memory a else memcpy b (p.virt i) n (p.view i s) a

/-- One round: a command, and its data to the caller.  A command that fails transfers nothing. -/
def round (i : ℕ) (commands : ℕ → Bool) (lba : U64) (toRead : U32) (b : ℕ) (s : PortMemory) :
    Bool × PortMemory :=
  let c := doRead p.cmdListBase (p.phys i) lba toRead
  let ok := commands s.issued.length
  let s := { s with issued := s.issued ++ [c] }
  if ok then
    let s := { s with physical := p.execute c s.physical }
    (true, { s with memory := p.copyOut i b (toRead.toNat * 512) s })
  else (false, s)

/-- The `while` loop, and what is left. -/
def readRounds (i : ℕ) (commands : ℕ → Bool) (remaining : U32) (lba : U64) (b : ℕ)
    (s : PortMemory) : Bool × PortMemory :=
  if _h : maxSectors ≤ remaining.toNat then
    let (ok, s) := p.round i commands lba 8 b s
    if ok then readRounds i commands (remaining - 8) (lba + 8) (b + maxSectors * 512) s
    else (false, s)
  else if remaining ≠ 0 then p.round i commands lba remaining b s
  else (true, s)
termination_by remaining.toNat
decreasing_by
  rw [maxSectors] at _h
  bv_omega

/-- `read_disk_block`. -/
def readDiskBlock (fate : Fate) (lba : U64) (count : U32) (buffer : ℕ) (s : PortMemory) :
    ℤ × PortMemory :=
  let s := { s with issued := [] }
  match findCmdslot fate.commandIssue p.slotCount with
  | none => (-p.errno.ebusy, s)
  | some _ =>
    let bufferIdx := acquireBuffer p.errno fate
    if bufferIdx = -p.errno.eintr then (p.errno.eintr, s)
    else if bufferIdx < 0 ∨ bufferIdx > 7 then (4, s)
    else
      let (ok, s) := p.readRounds bufferIdx.toNat fate.commands count lba buffer s
      if ok then (count.toInt, s) else (1, s)

end PortHardware

/-! ## One command -/

/-- A command whose ranges are in the page at `phys`, and as long as the sectors. -/
structure Issued.InPage (c : Issued) (phys : ℕ) : Prop where
  small : c.sectorCount * 512 ≤ 4096
  within : ∀ e ∈ c.ranges, phys ≤ e.dbAddr.toNat ∧ e.dbAddr.toNat + e.length ≤ phys + 4096
  total : (c.ranges.map PrdtEntry.length).sum = c.sectorCount * 512

/-- A byte more of an address. -/
theorem setWidth_append (x : U64) (k w : ℕ) :
    (x >>> (k + 8)).setWidth w ++ (x >>> k).setWidth 8 = (x >>> k).setWidth (w + 8) := by
  ext i hi
  rw [BitVec.getElem_append]
  split
  · rw [BitVec.getElem_setWidth, BitVec.getElem_setWidth]
  · rw [BitVec.getElem_setWidth, BitVec.getElem_setWidth, BitVec.getLsbD_ushiftRight,
      BitVec.getLsbD_ushiftRight]
    congr 1
    omega

theorem lba_doRead (cmdListBase phys lba : U64) (toRead : U32) :
    (doRead cmdListBase phys lba toRead).lba = lba.toNat % 2 ^ 48 := by
  have happend : ((lba >>> 40).setWidth 8 ++ (lba >>> 32).setWidth 8 ++ (lba >>> 24).setWidth 8 ++
      (lba >>> 16).setWidth 8 ++ (lba >>> 8).setWidth 8 ++ (lba >>> 0).setWidth 8 : BitVec 48) =
        (lba >>> 0).setWidth 48 := by
    rw [setWidth_append lba 32 8, setWidth_append lba 24 16, setWidth_append lba 16 24,
      setWidth_append lba 8 32, setWidth_append lba 0 40]
  exact (congrArg BitVec.toNat happend).trans (BitVec.toNat_setWidth ..)

theorem sectorCount_doRead (cmdListBase phys lba : U64) {toRead : U32} (hpos : 0 < toRead.toNat)
    (hle : toRead.toNat ≤ 8) : (doRead cmdListBase phys lba toRead).sectorCount = toRead.toNat := by
  have hcount : (doRead cmdListBase phys lba toRead).table.commandFis.count.toNat =
      toRead.toNat := by
    change ((toRead.setWidth 64 &&& 0xffff#64).setWidth 16).toNat = _
    rw [BitVec.toNat_setWidth, BitVec.toNat_and, BitVec.toNat_setWidth]
    rw [show (0xffff#64).toNat = 2 ^ 16 - 1 from rfl, Nat.and_two_pow_sub_one_eq_mod]
    omega
  rw [Issued.sectorCount, if_neg, hcount]
  intro hzero
  rw [hzero] at hcount
  exact hpos.ne hcount

/-- One range is enough for eight sectors, and its length is theirs. -/
theorem ranges_doRead (cmdListBase phys lba : U64) {toRead : U32} (hpos : 0 < toRead.toNat)
    (hle : toRead.toNat ≤ 8) : ∃ e, (doRead cmdListBase phys lba toRead).ranges = [e] ∧
      e.dbAddr = phys ∧ e.length = toRead.toNat * 512 := by
  set x : U64 := toRead.setWidth 64 with hx
  have hnat : x.toNat = toRead.toNat := BitVec.toNat_setWidth_of_le (by decide)
  have hshift : ((x - 1) >>> 4).setWidth 16 = 0#16 := by
    apply BitVec.eq_of_toNat_eq
    have hsub : (x - 1).toNat = toRead.toNat - 1 := by bv_omega
    rw [BitVec.toNat_setWidth, BitVec.toNat_ushiftRight, hsub, Nat.shiftRight_eq_div_pow]
    change _ = 0
    omega
  have hbytes : (((x <<< 9) - 1).setWidth 22).toNat + 1 = toRead.toNat * 512 := by
    have hshl : (x <<< 9).toNat = toRead.toNat * 512 := by
      rw [BitVec.toNat_shiftLeft, Nat.shiftLeft_eq, hnat]
      omega
    have hsub : ((x <<< 9) - 1).toNat = toRead.toNat * 512 - 1 := by bv_omega
    rw [BitVec.toNat_setWidth, hsub]
    omega
  have hentries : (doRead cmdListBase phys lba toRead).header.prdtEntries = 1#16 := by
    change ((x - 1) >>> 4).setWidth 16 + 1 = _
    rw [hshift]
    rfl
  refine ⟨⟨phys, ((x <<< 9) - 1).setWidth 22⟩, ?_, rfl, hbytes⟩
  rw [Issued.ranges, hentries]
  change (preparePrdtEntries phys
    (doRead cmdListBase phys lba toRead).header.prdtEntries x).take 1 = _
  rw [hentries]
  rfl

theorem inPage_doRead (cmdListBase phys lba : U64) {toRead : U32} (hpos : 0 < toRead.toNat)
    (hle : toRead.toNat ≤ 8) : (doRead cmdListBase phys lba toRead).InPage phys.toNat := by
  obtain ⟨e, hranges, haddr, hlength⟩ := ranges_doRead cmdListBase phys lba hpos hle
  have hcount := sectorCount_doRead cmdListBase phys lba hpos hle
  refine ⟨by omega, ?_, ?_⟩
  · rw [hranges]
    intro e' he'
    rw [List.mem_singleton.mp he', haddr, hlength]
    omega
  · rw [hranges, hcount, List.map_singleton, List.sum_singleton, hlength]

/-- The sectors that a command of `do_read` names, as long as the addresses have 48 bits. -/
theorem sectorNumbers_doRead (cmdListBase phys : U64) {lba : U64} {toRead : U32}
    (hpos : 0 < toRead.toNat) (hle : toRead.toNat ≤ 8) (hlba : lba.toNat < 2 ^ 48) :
    (doRead cmdListBase phys lba toRead).sectorNumbers =
      (List.range toRead.toNat).map (lba.toNat + ·) := by
  rw [Issued.sectorNumbers, sectorCount_doRead cmdListBase phys lba hpos hle, lba_doRead,
    Nat.mod_eq_of_lt hlba]

/-! ## One round -/

theorem placed_nil (m : ByteMem) (a : ℕ) : placed m a [] = m := by
  funext p
  rw [placed, List.length_nil, if_neg (by omega)]

theorem placed_placed (m : ByteMem) (a : ℕ) (xs ys : List Byte) :
    placed (placed m a xs) (a + xs.length) ys = placed m a (xs ++ ys) := by
  funext p
  simp only [placed, List.length_append]
  by_cases hrest : a + xs.length ≤ p ∧ p < a + xs.length + ys.length
  · rw [if_pos hrest, if_pos (by omega), List.getD_eq_getElem?_getD,
      List.getD_eq_getElem?_getD, List.getElem?_append_right (by omega), Nat.sub_sub]
  · rw [if_neg hrest]
    by_cases hfirst : a ≤ p ∧ p < a + xs.length
    · rw [if_pos hfirst, if_pos (by omega), List.getD_eq_getElem?_getD,
        List.getD_eq_getElem?_getD, List.getElem?_append_left (by omega)]
    · rw [if_neg hfirst, if_neg (by omega)]

namespace PortHardware

variable (p : PortHardware)

/-- The bounce buffer has the sectors, once their command has been executed. -/
theorem execute_doRead (i : ℕ) (lba : U64) {toRead : U32} (hpos : 0 < toRead.toNat)
    (hle : toRead.toNat ≤ 8) (physical : ByteMem) :
    p.execute (doRead p.cmdListBase (p.phys i) lba toRead) physical =
      placed physical (p.phys i).toNat (sectors p.media lba.toNat toRead.toNat).flatten := by
  obtain ⟨e, hranges, haddr, hlength⟩ := ranges_doRead p.cmdListBase (p.phys i) lba hpos hle
  rw [execute, hranges, scatter, scatter, haddr, hlength, lba_doRead,
    sectorCount_doRead p.cmdListBase (p.phys i) lba hpos hle, sectors_mod]
  rw [List.take_of_length_le (p.toPortDisk.length_flatten_sectors _ _).le]

/-- The copy out of the bounce buffer, to a buffer apart from it. -/
theorem copyOut_eq {i b : ℕ} {data : List Byte} (hlen : data.length ≤ 4096)
    (hapart : b + data.length ≤ p.virt i ∨ p.virt i + 4096 ≤ b) (s : PortMemory) :
    p.copyOut i b data.length { s with physical := placed s.physical (p.phys i).toNat data } =
      placed s.memory b data := by
  have hforward : Forward b (p.virt i) data.length := by
    rw [Forward]
    omega
  funext a
  rw [copyOut, placed]
  dsimp only
  rw [memcpy_apply hforward]
  by_cases ha : b ≤ a ∧ a < b + data.length
  · have hpage : p.OnPage i (p.virt i + (a - b)) := ⟨by omega, by omega⟩
    rw [if_neg (fun hoff ↦ by rw [OnPage] at hoff; omega), if_pos ha, if_pos ha, view,
      if_pos hpage]
    dsimp only
    rw [placed, if_pos (by omega)]
    congr 1
    omega
  · rw [if_neg ha, if_neg ha, view]
    split
    · rfl
    · rfl

theorem round_ok {i : ℕ} {commands : ℕ → Bool} (hok : ∀ j, commands j = true) (lba : U64)
    {toRead : U32} (hpos : 0 < toRead.toNat) (hle : toRead.toNat ≤ 8) {b : ℕ}
    (hapart : b + toRead.toNat * 512 ≤ p.virt i ∨ p.virt i + 4096 ≤ b) (s : PortMemory) :
    let data := (sectors p.media lba.toNat toRead.toNat).flatten
    p.round i commands lba toRead b s =
      (true, ⟨placed s.physical (p.phys i).toNat data, placed s.memory b data,
        s.issued ++ [doRead p.cmdListBase (p.phys i) lba toRead]⟩) := by
  intro data
  have hlen : data.length = toRead.toNat * 512 := p.toPortDisk.length_flatten_sectors _ _
  rw [round, hok, if_pos rfl, p.execute_doRead i lba hpos hle, ← hlen]
  rw [← hlen] at hapart
  exact congrArg (fun m ↦ (true, PortMemory.mk _ m _))
    (p.copyOut_eq (by omega) hapart { s with issued := _ })

/-! ## All of them -/

/-- The commands `cs` name `n` sectors from `lba` on, each once and in their order, and no other,
and none is for more than the page at `phys`. -/
structure Covers (cs : List Issued) (phys lba n : ℕ) : Prop where
  sectorNumbers : cs.flatMap Issued.sectorNumbers = (List.range n).map (lba + ·)
  inPage : ∀ c ∈ cs, c.InPage phys

theorem covers_nil (phys lba : ℕ) : Covers [] phys lba 0 :=
  ⟨rfl, fun _ hc ↦ absurd hc List.not_mem_nil⟩

theorem covers_cons {c : Issued} {cs : List Issued} {phys lba k n : ℕ}
    (hc : c.sectorNumbers = (List.range k).map (lba + ·)) (hpage : c.InPage phys)
    (hcs : Covers cs phys (lba + k) n) : Covers (c :: cs) phys lba (k + n) where
  sectorNumbers := by
    rw [List.flatMap_cons, hc, hcs.sectorNumbers, List.range_add, List.map_append, List.map_map]
    simp only [Function.comp_def, Nat.add_assoc]
  inPage := List.forall_mem_cons.mpr ⟨hpage, hcs.inPage⟩

/-- **The rounds join up.**  By induction on what remains: each round takes the first sectors, and
leaves the others at the address and the place behind them. -/
theorem readRounds_ok {i : ℕ} {commands : ℕ → Bool} (hok : ∀ j, commands j = true) {n : ℕ}
    {remaining : U32} (hn : remaining.toNat = n) {lba : U64} (hlba : lba.toNat + n ≤ 2 ^ 48) {b : ℕ}
    (hapart : b + n * 512 ≤ p.virt i ∨ p.virt i + 4096 ≤ b) (s : PortMemory) :
    ∃ physical cs, p.readRounds i commands remaining lba b s =
        (true, ⟨physical, placed s.memory b (sectors p.media lba.toNat n).flatten,
          s.issued ++ cs⟩) ∧
      Covers cs (p.phys i).toNat lba.toNat n := by
  induction n using Nat.strong_induction_on generalizing remaining lba b s with
  | _ n ih =>
    subst hn
    rw [readRounds]
    by_cases hfull : maxSectors ≤ remaining.toNat
    · rw [dif_pos hfull]
      rw [maxSectors] at hfull
      have hfirst : b + 8 * 512 ≤ p.virt i ∨ p.virt i + 4096 ≤ b :=
        hapart.imp_left (Nat.add_le_add_left (Nat.mul_le_mul_right 512 hfull) b).trans
      have hrest : (remaining - 8).toNat = remaining.toNat - 8 := by bv_omega
      have hnext : (lba + 8).toNat = lba.toNat + 8 := by bv_omega
      have hsum : 8 + (remaining.toNat - 8) = remaining.toNat := by omega
      have height : (8 : U32).toNat = 8 := rfl
      have hpos : 0 < (8 : U32).toNat := by decide
      have hdata : (sectors p.media lba.toNat 8).flatten.length = maxSectors * 512 :=
        p.toPortDisk.length_flatten_sectors _ _
      have hnames : (doRead p.cmdListBase (p.phys i) lba 8).sectorNumbers =
          (List.range 8).map (lba.toNat + ·) :=
        sectorNumbers_doRead _ _ hpos height.le (by omega)
      have hpage : (doRead p.cmdListBase (p.phys i) lba 8).InPage (p.phys i).toNat :=
        inPage_doRead _ _ _ hpos height.le
      have hround := p.round_ok hok lba hpos height.le hfirst s
      have hlba' : (lba + 8).toNat + (remaining.toNat - 8) ≤ 2 ^ 48 := by omega
      have hapart' : b + maxSectors * 512 + (remaining.toNat - 8) * 512 ≤ p.virt i ∨
          p.virt i + 4096 ≤ b + maxSectors * 512 := by
        rw [maxSectors]
        omega
      rw [hround, height]
      obtain ⟨physical, cs, hread, hcs⟩ := ih (remaining.toNat - 8) (by omega) hrest hlba' hapart' _
      refine ⟨physical, doRead p.cmdListBase (p.phys i) lba 8 :: cs, ?_, ?_⟩
      · dsimp only
        rw [if_pos rfl, hread, ← hdata, placed_placed, hnext, ← List.flatten_append,
          ← sectors_append, hsum, List.append_assoc]
        rfl
      · rw [hnext] at hcs
        exact hsum ▸ covers_cons hnames hpage hcs
    · rw [dif_neg hfull]
      rw [maxSectors] at hfull
      by_cases hzero : remaining = 0
      · rw [if_neg (not_not.mpr hzero), hzero]
        refine ⟨s.physical, [], ?_, covers_nil _ _⟩
        rw [List.append_nil]
        exact congrArg (fun m ↦ (true, PortMemory.mk _ m _)) (placed_nil _ _).symm
      · rw [if_pos hzero]
        have hpos : 0 < remaining.toNat := by bv_omega
        have hle : remaining.toNat ≤ 8 := by omega
        exact ⟨_, _, p.round_ok hok lba hpos hle hapart s,
          covers_cons (sectorNumbers_doRead _ _ hpos hle (by omega)) (inPage_doRead _ _ _ hpos hle)
            (covers_nil _ _)⟩

section Call

variable {fate : Fate} {lba : U64} {count : U32} {b : ℕ}

/-- A call that gets a slot and a buffer goes through the rounds. -/
theorem readDiskBlock_rounds (hslot : (findCmdslot fate.commandIssue p.slotCount).isSome)
    (hbuffer : 0 ≤ acquireBuffer p.errno fate) (s : PortMemory) :
    p.readDiskBlock fate lba count b s =
      let r := p.readRounds (acquireBuffer p.errno fate).toNat fate.commands count lba b
        { s with issued := [] }
      (if r.1 then count.toInt else 1, r.2) := by
  obtain ⟨slot, hslot⟩ := Option.isSome_iff_exists.mp hslot
  have hne : acquireBuffer p.errno fate ≠ -p.errno.eintr := by
    have := p.errno.eintr_pos
    omega
  have hle := PortDisk.acquireBuffer_lt p.errno fate
  rw [readDiskBlock]
  dsimp only
  rw [hslot, if_neg hne, if_neg (by omega)]
  dsimp only
  split <;> rfl

theorem readDiskBlock_eq (hlba : lba.toNat + count.toNat ≤ 2 ^ 48)
    (hslot : (findCmdslot fate.commandIssue p.slotCount).isSome)
    (hbuffer : 0 ≤ acquireBuffer p.errno fate) (hok : ∀ j, fate.commands j = true)
    (hapart : b + count.toNat * 512 ≤ p.virt (acquireBuffer p.errno fate).toNat ∨
      p.virt (acquireBuffer p.errno fate).toNat + 4096 ≤ b) (s : PortMemory) :
    ∃ physical cs, p.readDiskBlock fate lba count b s =
        (count.toInt, ⟨physical, placed s.memory b (p.contents lba count), cs⟩) ∧
      Covers cs (p.phys (acquireBuffer p.errno fate).toNat).toNat lba.toNat count.toNat := by
  obtain ⟨physical, cs, hread, hcs⟩ := p.readRounds_ok hok rfl hlba hapart { s with issued := [] }
  refine ⟨physical, cs, ?_, hcs⟩
  rw [p.readDiskBlock_rounds hslot hbuffer, hread]
  rfl

/-- The caller's buffer is as in `PortDisk.readDiskBlock`, which has neither commands nor pages. -/
theorem readDiskBlock_refines (hlba : lba.toNat + count.toNat ≤ 2 ^ 48) {t : PortState}
    (hserved : p.served count t = true) (hok : ∀ j, (t.fates t.calls).commands j = true)
    (hapart : let i := (acquireBuffer p.errno (t.fates t.calls)).toNat
      b + count.toNat * 512 ≤ p.virt i ∨ p.virt i + 4096 ≤ b)
    {n : ℕ} (hn : count.toNat * 512 ≤ n) (s : PortMemory) :
    let r := p.readDiskBlock (t.fates t.calls) lba count b s
    let r' := p.toPortDisk.readDiskBlock lba count (bytesAt s.memory b n) t
    r.1 = r'.1 ∧ bytesAt r.2.memory b n = r'.2.1 := by
  have h := hserved
  simp only [PortDisk.served, Bool.and_eq_true, decide_eq_true_eq] at h
  obtain ⟨physical, cs, hread, -⟩ := p.readDiskBlock_eq hlba h.1.1 h.1.2 hok hapart s
  have hlen : (p.contents lba count).length = count.toNat * 512 :=
    p.toPortDisk.length_flatten_sectors _ _
  rw [hread, p.toPortDisk.readDiskBlock_served hserved (by rw [length_bytesAt]; exact hn)]
  refine ⟨rfl, List.ext_getElem? fun j ↦ ?_⟩
  change (bytesAt (placed s.memory b (p.contents lba count)) b n)[j]? = _
  by_cases hj : j < count.toNat * 512
  · rw [getElem?_splice_zero_of_lt (by omega), bytesAt, List.getElem?_map,
      List.getElem?_range (by omega), Option.map_some, placed, if_pos (by omega),
      Nat.add_sub_cancel_left, List.getD_eq_getElem?_getD, List.getElem?_eq_getElem (by omega),
      Option.getD_some]
  · rw [getElem?_splice_of_le (by rw [length_bytesAt]; omega) (by omega)]
    by_cases hjn : j < n
    · rw [bytesAt, bytesAt, List.getElem?_map, List.getElem?_map, List.getElem?_range hjn,
        Option.map_some, Option.map_some, placed, if_neg (by omega)]
    · rw [List.getElem?_eq_none (by rw [length_bytesAt]; omega),
        List.getElem?_eq_none (by rw [length_bytesAt]; omega)]

/-- **Every sector once, and where it belongs**: the call returns the number of sectors, the buffer
has their bytes, nothing else is written outside of the bounce buffer, and the commands cover the
sectors that are asked for, none of them taking more than the page. -/
structure ReadsSectors (p : PortHardware) (fate : Fate) (lba : U64) (count : U32) (b : ℕ)
    (s : PortMemory) : Prop where
  returned : (p.readDiskBlock fate lba count b s).1 = count.toNat
  filled : ∀ j < count.toNat * 512,
    p.view (acquireBuffer p.errno fate).toNat (p.readDiskBlock fate lba count b s).2 (b + j) =
      (p.contents lba count).getD j 0
  frame : ∀ a, ¬ (b ≤ a ∧ a < b + count.toNat * 512) →
    (p.readDiskBlock fate lba count b s).2.memory a = s.memory a
  covers : Covers (p.readDiskBlock fate lba count b s).2.issued
    (p.phys (acquireBuffer p.errno fate).toNat).toNat lba.toNat count.toNat

/-- A call that gets a slot and a buffer and none of whose commands fails, and that is not asked to
read into the bounce buffer, reads the sectors. -/
theorem readDiskBlock_covers (hcount : count.toNat < 2 ^ 31)
    (hlba : lba.toNat + count.toNat ≤ 2 ^ 48)
    (hslot : (findCmdslot fate.commandIssue p.slotCount).isSome)
    (hbuffer : 0 ≤ acquireBuffer p.errno fate) (hok : ∀ j, fate.commands j = true)
    (hapart : b + count.toNat * 512 ≤ p.virt (acquireBuffer p.errno fate).toNat ∨
      p.virt (acquireBuffer p.errno fate).toNat + 4096 ≤ b) (s : PortMemory) :
    p.ReadsSectors fate lba count b s := by
  obtain ⟨physical, cs, hread, hcs⟩ := p.readDiskBlock_eq hlba hslot hbuffer hok hapart s
  have hlen : (p.contents lba count).length = count.toNat * 512 :=
    p.toPortDisk.length_flatten_sectors _ _
  constructor
  · rw [hread]
    exact BitVec.toInt_eq_toNat_of_lt (by omega)
  · intro j hj
    rw [hread, view, if_neg (fun hon ↦ by rw [OnPage] at hon; omega)]
    show placed s.memory b _ (b + j) = _
    rw [placed, if_pos (by omega), Nat.add_sub_cancel_left]
  · intro a ha
    rw [hread]
    show placed s.memory b _ a = _
    rw [placed, hlen, if_neg ha]
  · rw [hread]
    exact hcs

/-- A call into the bounce buffer itself: the last command's data lie over the first's. -/
theorem view_two_rounds {i : ℕ} {commands : ℕ → Bool} (hok : ∀ j, commands j = true) (lba : U64)
    (s : PortMemory) : p.view i (p.readRounds i commands 9 lba (p.virt i) s).2 (p.virt i) =
      (sectors p.media (lba + 8).toNat 1).flatten.getD 0 0 := by
  have hone : (9 - 8 : U32) = 1 := by decide
  have hlen : (sectors p.media (lba + 8).toNat 1).flatten.length = 1 * 512 :=
    p.toPortDisk.length_flatten_sectors _ _
  rw [readRounds, dif_pos (by decide), round, hok, if_pos rfl]
  dsimp only
  rw [if_pos rfl, hone, readRounds, dif_neg (by decide), if_pos (by decide), round, hok,
    if_pos rfl]
  rw [view, if_pos ⟨le_rfl, by omega⟩, Nat.sub_self, Nat.add_zero]
  show p.execute _ _ _ = _
  rw [p.execute_doRead i (lba + 8) (by decide) (by decide), placed]
  rw [show (1 : U32).toNat = 1 from rfl, hlen, if_pos (by omega), Nat.sub_self]

end Call

/-- A port with one slot, on a disk whose sectors hold their numbers. -/
def sampleHardware : PortHardware where
  errno := .library
  slotCount := 1
  media n := List.replicate 512 (BitVec.ofNat 8 n)
  media_length _ := List.length_replicate
  cmdListBase := 0x1000
  phys i := BitVec.ofNat 64 (0x8000 + i * 4096)
  virt i := 0x200000 + i * 4096

/-- Nine sectors are two commands. -/
theorem readDiskBlock_nine :
    sampleHardware.ReadsSectors ⟨fun _ ↦ false, true, fun _ ↦ false, fun _ ↦ true⟩ 5 9 0x300000
      ⟨fun _ ↦ 0, fun _ ↦ 0, []⟩ :=
  sampleHardware.readDiskBlock_covers (by decide) (by decide) (by decide) (by decide)
    (fun _ ↦ rfl) (by decide) _

/-- No command fails, and still: with every slot taken the call returns `-EBUSY`, with the wait for
a buffer interrupted `EINTR`, and into the bounce buffer the second command reads over the first. -/
theorem not_readsSectors :
    let s : PortMemory := ⟨fun _ ↦ 0, fun _ ↦ 0, []⟩
    ¬ sampleHardware.ReadsSectors ⟨fun _ ↦ true, true, fun _ ↦ false, fun _ ↦ true⟩ 5 9 0x300000 s ∧
    ¬ sampleHardware.ReadsSectors ⟨fun _ ↦ false, false, fun _ ↦ false, fun _ ↦ true⟩ 5 9 0x300000
      s ∧
    ¬ sampleHardware.ReadsSectors ⟨fun _ ↦ false, true, fun _ ↦ false, fun _ ↦ true⟩ 5 9 0x200000
      s := by
  refine ⟨fun h ↦ ?_, fun h ↦ ?_, fun h ↦ ?_⟩
  · exact absurd h.returned (by decide)
  · exact absurd h.returned (by decide)
  · have hfirst := h.filled 0 (by decide)
    rw [sampleHardware.readDiskBlock_rounds (by decide) (by decide)] at hfirst
    have hlast := hfirst.symm.trans (sampleHardware.view_two_rounds (i := 0) (fun _ ↦ rfl) 5
      ⟨fun _ ↦ 0, fun _ ↦ 0, []⟩)
    exact absurd hlast (by decide)

end PortHardware

end Ahci

end Borrrdex
