import OswpKernel.Base
import Mathlib.Tactic.Common

/-!
# Transfer — `read` and `write_to_disk` of the AHCI driver (`pci.c`)

Both functions look for a free command slot, fill in its header, its command table with one region
descriptor for each 16 sectors and the command block in it, and issue the command.  They are one
text but for the direction and two fields of the command block that are zero anyway.

The loop over the descriptors moves `buf` on by `4*1024` elements of its type, which are 16 KiB, and
uses up the `count` that is sent afterwards.  `transfers_iff` says for which counts what is sent
covers the buffer.
-/

namespace OswpKernel

namespace Disk

/-- `hba_prdt_entry_t`. -/
structure PrdtEntry where
  dba : Word
  dbc : BitVec 22
  i : Bool
  deriving DecidableEq

/-- `fis_reg_h2d_t`, without the fields that stay as `memset` has left them. -/
structure Fis where
  fisType : BitVec 8
  pmport : BitVec 4
  c : Bool
  command : BitVec 8
  featurel : BitVec 8
  lba0 : BitVec 8
  lba1 : BitVec 8
  lba2 : BitVec 8
  device : BitVec 8
  lba3 : BitVec 8
  lba4 : BitVec 8
  lba5 : BitVec 8
  count : BitVec 16
  deriving DecidableEq

/-- `hba_cmd_tbl_t`, with as many entries as there is memory for. -/
structure CmdTable where
  cfis : Fis
  prdtEntry : Nat → PrdtEntry

/-- `hba_cmd_header_t`. -/
structure CmdHeader where
  cfl : BitVec 5
  w : Bool
  prdtl : BitVec 16
  ctba : Word

/-- What the driver writes: two registers of the port, the command list at `port->clb`, and the
command tables by their addresses. -/
structure Port where
  isRwc : BitVec 32
  ci : BitVec 32
  headers : Nat → CmdHeader
  tables : Word → CmdTable

/-- What the driver reads from the device: `sact` and `ci` at the start, `tfd` in each turn of the
first loop, `ci` and `is_rwc` in each turn of the second one and behind it. -/
structure Device where
  sact : BitVec 32
  ci : BitVec 32
  tfd : Nat → BitVec 32
  ciPoll : Nat → BitVec 32
  isPoll : Nat → BitVec 32
  isEnd : BitVec 32

structure Request where
  startl : BitVec 32
  starth : BitVec 32
  count : BitVec 32
  buf : Word

def ATA_CMD_READ_DMA_EX : BitVec 8 := 0x25

def ATA_CMD_WRITE_DMA_EX : BitVec 8 := 0x35

def FIS_TYPE_REG_H2D : BitVec 8 := 0x27

def HBA_PxIS_TFES : BitVec 32 := 1 <<< 30

/-- `find_cmdslot`; `none` for -1. -/
def findCmdslot (sact ci : BitVec 32) : Option Nat :=
  (List.range 32).find? fun i => ((sact ||| ci) >>> i) &&& 1 = 0

namespace CmdTable

/-- `memset` over the struct, which is 256 bytes long by its alignment and so has room for 8
entries, and over `prdtl - 1` entries more. -/
def zero (prdtl : Nat) (t : CmdTable) : CmdTable where
  cfis := ⟨0, 0, false, 0, 0, 0, 0, 0, 0, 0, 0, 0, 0⟩
  prdtEntry i := if i < prdtl + 7 then ⟨0, 0, false⟩ else t.prdtEntry i

/-- The three assignments to `prdt_entry[i]`. -/
def putEntry (t : CmdTable) (i : Nat) (e : PrdtEntry) : CmdTable :=
  { t with prdtEntry := Function.update t.prdtEntry i e }

end CmdTable

/-- The table and the two parameters that the loop over the entries changes. -/
structure Filling where
  cmdtbl : CmdTable
  buf : Word
  count : BitVec 32

namespace Filling

/-- `buf` is a `uint32_t *`. -/
def turn (f : Filling) (i : Nat) : Filling where
  cmdtbl := f.cmdtbl.putEntry i ⟨f.buf, 8 * 1024, true⟩
  buf := f.buf + 4 * (4 * 1024)
  count := f.count - 16

def last (f : Filling) (i : Nat) : Filling :=
  { f with cmdtbl := f.cmdtbl.putEntry i ⟨f.buf, (f.count <<< 9).setWidth 22, true⟩ }

/-- All entries of a table of `prdtl`. -/
def entries (f : Filling) (prdtl : Nat) : Filling :=
  ((List.range (prdtl - 1)).foldl turn f).last (prdtl - 1)

end Filling

/-- The assignments to the command block that both functions make. -/
def Fis.setup (command : BitVec 8) (startl starth count : BitVec 32) (cmdfis : Fis) : Fis :=
  { cmdfis with
    fisType := FIS_TYPE_REG_H2D
    c := true
    command := command
    lba0 := startl.setWidth 8
    lba1 := (startl >>> 8).setWidth 8
    lba2 := (startl >>> 16).setWidth 8
    device := 1 <<< 6
    lba3 := (startl >>> 24).setWidth 8
    lba4 := starth.setWidth 8
    lba5 := (starth >>> 8).setWidth 8
    count := count.setWidth 16 }

/-- The header, the entries and the command block of slot `slot`; `setup` gets the count that the
loop over the entries has left. -/
def fill (w : Bool) (setup : BitVec 32 → Fis → Fis) (r : Request) (slot : Nat) (p : Port) : Port :=
  let header : CmdHeader :=
    { p.headers slot with
      cfl := 5
      w := w
      prdtl := (((r.count - 1) >>> 4) + 1).setWidth 16 }
  let prdtl := header.prdtl.toNat
  let f := Filling.entries ⟨(p.tables header.ctba).zero prdtl, r.buf, r.count⟩ prdtl
  { p with
    headers := Function.update p.headers slot header
    tables := Function.update p.tables header.ctba
      { f.cmdtbl with cfis := setup f.count f.cmdtbl.cfis } }

/-- `spin` behind the first loop. -/
def spinLoop (tfd : Nat → BitVec 32) : Nat → Nat → Nat
  | 0, spin => spin
  | turns + 1, spin => if tfd spin &&& 0x88 ≠ 0 then spinLoop tfd turns (spin + 1) else spin

/-- The loop that waits for completion, and the check behind it; `none` while it goes on. -/
def wait (dev : Device) (slot : Nat) : Nat → Nat → Option Int
  | 0, _ => none
  | fuel + 1, k =>
      if dev.ciPoll k &&& (1 <<< slot) = 0 then
        some (if dev.isEnd &&& HBA_PxIS_TFES ≠ 0 then 0 else 1)
      else if dev.isPoll k &&& HBA_PxIS_TFES ≠ 0 then some 0
      else wait dev slot fuel (k + 1)

/-- The text of both functions: what they leave behind and what they return, if they do within
`fuel` turns of the last loop. -/
def transfer (w : Bool) (setup : BitVec 32 → Fis → Fis) (fuel : Nat) (dev : Device) (r : Request)
    (p : Port) : Port × Option Int :=
  let p := { p with isRwc := BitVec.allOnes 32 }
  match findCmdslot dev.sact dev.ci with
  | none => (p, some 0)
  | some slot =>
      let p := fill w setup r slot p
      if spinLoop dev.tfd 1000000 0 = 1000000 then (p, some 0)
      else ({ p with ci := 1 <<< slot }, wait dev slot fuel 0)

def read (fuel : Nat) (dev : Device) (r : Request) (p : Port) : Port × Option Int :=
  transfer false (fun count cmdfis =>
    { Fis.setup ATA_CMD_READ_DMA_EX r.startl r.starth count cmdfis with
      pmport := 0
      featurel := 0 }) fuel dev r p

def writeToDisk (fuel : Nat) (dev : Device) (r : Request) (p : Port) : Port × Option Int :=
  transfer true (Fis.setup ATA_CMD_WRITE_DMA_EX r.startl r.starth) fuel dev r p

/-! ## What a command describes -/

/-- `n` bytes from an address on. -/
def addresses (a : Word) (n : Nat) : List Word := (List.range n).map fun k => a + BitVec.ofNat 64 k

/-- The regions of the first `prdtl` entries, one after the other, are the sectors from `buf` on. -/
def Described (prdtl : Nat) (t : CmdTable) (r : Request) : Prop :=
  (List.range prdtl).flatMap (fun i => addresses (t.prdtEntry i).dba (t.prdtEntry i).dbc.toNat) =
    addresses r.buf (512 * r.count.toNat)

/-- The command in a slot transfers the sectors and has their number in its command block. -/
def Covers (p : Port) (slot : Nat) (r : Request) : Prop :=
  Described (p.headers slot).prdtl.toNat (p.tables (p.headers slot).ctba) r ∧
    (p.tables (p.headers slot).ctba).cfis.count.toNat = r.count.toNat

variable {a : Word} {m n : Nat} {f : Filling} {t : CmdTable} {w : Bool}
  {setup : BitVec 32 → Fis → Fis} {fuel slot : Nat} {dev : Device} {r : Request} {p : Port}

theorem addresses_add :
    addresses a (m + n) = addresses a m ++ addresses (a + BitVec.ofNat 64 m) n := by
  rw [addresses, List.range_add, List.map_append, List.map_map]
  refine congrArg (addresses a m ++ ·) (List.map_congr_left fun k _ => ?_)
  rw [Function.comp_apply, BitVec.ofNat_add, BitVec.add_assoc]

theorem addresses_succ : ∃ rest, addresses a (n + 1) = a :: rest := by
  refine ⟨(addresses (a + BitVec.ofNat 64 1) n), ?_⟩
  rw [Nat.add_comm, addresses_add, addresses, List.range_one, List.map_singleton]
  simp

/-! ## The entries -/

/-- The loop over all entries but the last one. -/
theorem turns_eq (f : Filling) (n : Nat) :
    (List.range n).foldl Filling.turn f =
      { cmdtbl := { f.cmdtbl with
          prdtEntry := fun i => if i < n then ⟨f.buf + BitVec.ofNat 64 (16384 * i), 8192, true⟩
            else f.cmdtbl.prdtEntry i }
        buf := f.buf + BitVec.ofNat 64 (16384 * n)
        count := f.count - BitVec.ofNat 32 (16 * n) } := by
  induction n with
  | zero => simp
  | succ n ih =>
      have hentries : Function.update
          (fun i => if i < n then ⟨f.buf + BitVec.ofNat 64 (16384 * i), 8192, true⟩
            else f.cmdtbl.prdtEntry i) n ⟨f.buf + BitVec.ofNat 64 (16384 * n), 8 * 1024, true⟩ =
          fun i => if i < n + 1 then ⟨f.buf + BitVec.ofNat 64 (16384 * i), 8192, true⟩
            else f.cmdtbl.prdtEntry i := by
        funext i
        rw [Function.update_apply]
        rcases lt_trichotomy i n with hlt | rfl | hgt
        · rw [if_neg (by omega), if_pos hlt, if_pos (by omega)]
        · rw [if_pos rfl, if_pos (by omega)]
          rfl
        · rw [if_neg (by omega), if_neg (by omega), if_neg (by omega)]
      have hbuf : f.buf + BitVec.ofNat 64 (16384 * n) + 4 * (4 * 1024) =
          f.buf + BitVec.ofNat 64 (16384 * (n + 1)) := by
        rw [Nat.mul_succ, BitVec.ofNat_add, ← BitVec.add_assoc]
        rfl
      have hcount : f.count - BitVec.ofNat 32 (16 * n) - 16 =
          f.count - BitVec.ofNat 32 (16 * (n + 1)) := by
        rw [Nat.mul_succ, BitVec.ofNat_add, ← BitVec.sub_sub]
        rfl
      rw [List.range_succ, List.foldl_append, ih, List.foldl_cons, List.foldl_nil, Filling.turn,
        CmdTable.putEntry, hbuf, hcount]
      dsimp only
      rw [hentries]

/-- The entries before the last one are 8 KiB each and 16 KiB apart. -/
theorem entries_before {i : Nat} (hi : i < m) :
    (f.entries (m + 1)).cmdtbl.prdtEntry i = ⟨f.buf + BitVec.ofNat 64 (16384 * i), 8192, true⟩ := by
  rw [Filling.entries, Nat.add_sub_cancel, turns_eq, Filling.last, CmdTable.putEntry]
  dsimp only
  rw [Function.update_of_ne (by omega), if_pos hi]

theorem entries_last (hcount : 16 * m + n = f.count.toNat) (hn : n ≤ 16) :
    (f.entries (m + 1)).count.toNat = n ∧
      (f.entries (m + 1)).cmdtbl.prdtEntry m =
        ⟨f.buf + BitVec.ofNat 64 (16384 * m), BitVec.ofNat 22 (512 * n), true⟩ := by
  have hlt := f.count.isLt
  have hleft : f.count - BitVec.ofNat 32 (16 * m) = BitVec.ofNat 32 n := by
    apply BitVec.eq_of_toNat_eq
    rw [BitVec.toNat_sub_of_le (by rw [BitVec.le_def, BitVec.toNat_ofNat]; omega),
      BitVec.toNat_ofNat, BitVec.toNat_ofNat]
    omega
  rw [Filling.entries, Nat.add_sub_cancel, turns_eq, Filling.last, CmdTable.putEntry]
  dsimp only
  rw [Function.update_self, hleft]
  refine ⟨by rw [BitVec.toNat_ofNat]; omega, ?_⟩
  have hdbc : (BitVec.ofNat 32 n <<< 9).setWidth 22 = BitVec.ofNat 22 (512 * n) := by
    apply BitVec.eq_of_toNat_eq
    rw [BitVec.toNat_setWidth, BitVec.toNat_shiftLeft, BitVec.toNat_ofNat, BitVec.toNat_ofNat,
      Nat.shiftLeft_eq]
    omega
  rw [hdbc]

/-- The regions are the buffer when there is one of them: a second one starts 8 KiB too far up. -/
theorem described_iff (hbuf : f.buf = r.buf) (hcount : f.count = r.count)
    (hparts : 16 * m + n = r.count.toNat) (hpos : 1 ≤ n) (hn : n ≤ 16) :
    Described (m + 1) (f.entries (m + 1)).cmdtbl r ↔ r.count.toNat ≤ 16 := by
  obtain ⟨-, hlast⟩ := entries_last (f := f) (by rw [hcount]; exact hparts) hn
  have hbytes : (BitVec.ofNat 22 (512 * n)).toNat = 512 * n := by
    rw [BitVec.toNat_ofNat]
    omega
  rw [Described]
  cases m with
  | zero =>
      refine iff_of_true ?_ (by omega)
      rw [List.range_one, List.flatMap_singleton, hlast, hbytes, hbuf, ← hparts]
      simp
  | succ m =>
      refine iff_of_false (fun heq => ?_) (by omega)
      -- the second region has a first byte
      have hsecond : ∃ k, ((f.entries (m + 1 + 1)).cmdtbl.prdtEntry 1).dba = r.buf + 16384 ∧
          ((f.entries (m + 1 + 1)).cmdtbl.prdtEntry 1).dbc.toNat = k + 1 := by
        cases m with
        | zero =>
            rw [hlast, hbuf]
            exact ⟨512 * n - 1, rfl, by rw [hbytes]; omega⟩
        | succ m =>
            rw [entries_before (by omega), hbuf]
            exact ⟨8191, rfl, rfl⟩
      obtain ⟨k, hdba, hdbc⟩ := hsecond
      obtain ⟨n', hn'⟩ : ∃ n', 512 * r.count.toNat = 8192 + (n' + 1) :=
        ⟨512 * r.count.toNat - 8193, by omega⟩
      rw [List.range_succ_eq_map, List.range_succ_eq_map, List.map_cons, List.flatMap_cons,
        List.flatMap_cons, entries_before (Nat.succ_pos _), hbuf, hn', addresses_add] at heq
      obtain ⟨rest, hrest⟩ := addresses_succ (a := r.buf + 16384) (n := k)
      obtain ⟨rest', hrest'⟩ := addresses_succ (a := r.buf + BitVec.ofNat 64 8192) (n := n')
      rw [hdba, hdbc, hrest, hrest'] at heq
      have hzero : r.buf + BitVec.ofNat 64 (16384 * 0) = r.buf := BitVec.add_zero _
      rw [hzero] at heq
      have hhead := (List.cons.inj (List.append_cancel_left heq)).1
      have hoff : (16384 : Word) = 8192 := (BitVec.add_right_inj r.buf).1 hhead
      exact absurd hoff (by decide)

/-! ## The command -/

/-- What is sent carries the count that the loop over the entries has left. -/
theorem carries_iff (hcount : f.count = r.count) (hparts : 16 * m + n = r.count.toNat)
    (hn : n ≤ 16) :
    ((f.entries (m + 1)).count.setWidth 16).toNat = r.count.toNat ↔ m = 0 := by
  have hleft := (entries_last (f := f) (by rw [hcount]; exact hparts) hn).1
  rw [BitVec.toNat_setWidth, hleft]
  omega

theorem fill_covers_iff (hsetup : ∀ count cmdfis, (setup count cmdfis).count = count.setWidth 16)
    (hcount : 1 ≤ r.count.toNat) (hentries : (r.count.toNat - 1) / 16 + 1 ≤ 65535) :
    Covers (fill w setup r slot p) slot r ↔ r.count.toNat ≤ 16 := by
  obtain ⟨m, n, hparts, hpos, hn⟩ : ∃ m n, 16 * m + n = r.count.toNat ∧ 1 ≤ n ∧ n ≤ 16 :=
    ⟨(r.count.toNat - 1) / 16, r.count.toNat - 16 * ((r.count.toNat - 1) / 16), by omega⟩
  have hprdtl : ((((r.count - 1) >>> 4) + 1).setWidth 16).toNat = m + 1 := by
    have hlt := r.count.isLt
    have hone : (1 : BitVec 32) ≤ r.count := by rw [BitVec.le_def]; exact hcount
    rw [BitVec.toNat_setWidth, BitVec.toNat_add, BitVec.toNat_ushiftRight,
      BitVec.toNat_sub_of_le hone, Nat.shiftRight_eq_div_pow]
    change ((r.count.toNat - 1) / 16 + 1) % 2 ^ 32 % 2 ^ 16 = m + 1
    omega
  rw [Covers, fill]
  dsimp only
  rw [Function.update_self]
  dsimp only
  rw [Function.update_self, hprdtl, hsetup, carries_iff rfl hparts hn]
  refine (and_congr_left fun _ => ?_).trans (and_iff_left_of_imp fun hle => by omega)
  exact described_iff rfl rfl hparts hpos hn

/-- Neither the registers nor the device matter for what is in the slot. -/
theorem transfer_covers_iff (hslot : findCmdslot dev.sact dev.ci = some slot)
    (hsetup : ∀ count cmdfis, (setup count cmdfis).count = count.setWidth 16)
    (hcount : 1 ≤ r.count.toNat) (hentries : (r.count.toNat - 1) / 16 + 1 ≤ 65535) :
    Covers (transfer w setup fuel dev r p).1 slot r ↔ r.count.toNat ≤ 16 := by
  rw [transfer, hslot]
  dsimp only
  split_ifs <;> exact fill_covers_iff hsetup hcount hentries

/-- Both functions cover the buffer, and send the count, for at most 16 sectors. -/
theorem transfers_iff (fuel : Nat) (p : Port) (hslot : findCmdslot dev.sact dev.ci = some slot)
    (hcount : 1 ≤ r.count.toNat) (hentries : (r.count.toNat - 1) / 16 + 1 ≤ 65535) :
    (Covers (read fuel dev r p).1 slot r ↔ r.count.toNat ≤ 16) ∧
      (Covers (writeToDisk fuel dev r p).1 slot r ↔ r.count.toNat ≤ 16) :=
  ⟨transfer_covers_iff hslot (fun _ _ => rfl) hcount hentries,
    transfer_covers_iff hslot (fun _ _ => rfl) hcount hentries⟩

/-- A device with no command outstanding, which answers at once. -/
def idle : Device := ⟨0, 0, fun _ => 0, fun _ => 0, fun _ => 0, 0⟩

/-- A port whose command tables are 8 KiB apart. -/
def samplePort : Port where
  isRwc := 0
  ci := 0
  headers i := ⟨0, false, 0, 0x40a000 + BitVec.ofNat 64 (0x2000 * i)⟩
  tables _ := ⟨⟨0, 0, false, 0, 0, 0, 0, 0, 0, 0, 0, 0, 0⟩, fun _ => ⟨0, 0, false⟩⟩

theorem transfers_one_region :
    (Covers (read 1 idle ⟨0, 0, 16, 0x800000⟩ samplePort).1 0 ⟨0, 0, 16, 0x800000⟩ ↔ 16 ≤ 16) ∧
      (Covers (writeToDisk 1 idle ⟨0, 0, 16, 0x800000⟩ samplePort).1 0 ⟨0, 0, 16, 0x800000⟩ ↔
        16 ≤ 16) :=
  transfers_iff 1 samplePort (by decide) (by decide) (by decide)

/-- With 17 sectors the second region is not behind the first one, and the device is asked for one
sector. -/
theorem not_transfers :
    ¬ ∀ (fuel : Nat) (dev : Device) (r : Request) (p : Port) (slot : Nat),
      findCmdslot dev.sact dev.ci = some slot → 1 ≤ r.count.toNat →
      (r.count.toNat - 1) / 16 + 1 ≤ 65535 →
      Covers (read fuel dev r p).1 slot r ∧ Covers (writeToDisk fuel dev r p).1 slot r := by
  intro h
  have hcovers := (h 1 idle ⟨0, 0, 17, 0x800000⟩ samplePort 0 (by decide) (by decide)
    (by decide)).1
  have hiff : Covers (read 1 idle ⟨0, 0, 17, 0x800000⟩ samplePort).1 0 ⟨0, 0, 17, 0x800000⟩ ↔
      17 ≤ 16 :=
    transfer_covers_iff (by decide) (fun _ _ => rfl) (by decide) (by decide)
  exact absurd (hiff.1 hcovers) (by decide)

end Disk

end OswpKernel
