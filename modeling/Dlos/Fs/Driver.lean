import Dlos.Fs.Device
import Dlos.Kernel.HdTransfer

/-!
# The file system and its drive

`rw_sector` sends the driver a position in bytes. Its parameter has 32 bits, so the positions of sectors
from 2 ^ 23 on are those of low sectors.
-/

namespace Dlos

open Program Bytes

/-- The message of `rw_sector`. -/
def sectorMessage (ioType dev : Int) (pos : BitVec 32) (bytes procNr : Int) (buf : Addr) : Message where
  type := ioType
  u := { m3i4 := minor dev, m3l1 := pos.setWidth 64, m3p2 := buf, m3i2 := bytes, m3i3 := procNr }

/-- However the request ends, the last command names sector `lba`. -/
def Addresses (s : Hd) (p : Message) (lba : Nat) : Prop :=
  wp (hdRdwt p) (fun _ u => u.cmds.head?.map HdCmd.lba = some lba)
    (fun _ u => u.cmds.head?.map HdCmd.lba = some lba) s

section

variable {s : Hd} {p : Message} {part : PartInfo} {cmds : List HdCmd} {type ioType dev bytes procNr : Int}
  {pos : BitVec 32} {buf la : Addr} {n lba : Nat}

/-! ## The command -/

theorem cmds_interruptWait : Preserves (fun u : Hd => u.cmds = cmds) interruptWait :=
  .bind .get fun _ => .ite (.modify fun _ h => h) (.throw _)

theorem cmds_readSector {b : Int} : Preserves (fun u : Hd => u.cmds = cmds) (readSector la b) :=
  .bind cmds_interruptWait fun _ => .bind (.modify fun _ h => h) fun _ => .modify fun _ h => h

theorem cmds_waitforData : Preserves (fun u : Hd => u.cmds = cmds) waitforData :=
  .bind (.bind .get fun _ => .pure _) fun _ => .ite (.pure _) (.throw _)

theorem cmds_portWrite {b : Int} : Preserves (fun u : Hd => u.cmds = cmds) (portWrite la b) :=
  .modify fun u h => by
    split
    · exact h
    · exact h

theorem cmds_rdwtSector {b : Int} : Preserves (fun u : Hd => u.cmds = cmds) (rdwtSector type la b) :=
  .ite (.bind cmds_readSector fun _ => .modify fun _ h => h)
    (.bind (.bind cmds_waitforData fun _ => .bind cmds_portWrite fun _ => cmds_interruptWait) fun _ =>
      .modify fun _ h => h)

theorem cmds_rdwtLoop {fuel : Nat} {b : Int} :
    Preserves (fun u : Hd => u.cmds = cmds) (rdwtLoop type fuel la b) := by
  induction fuel generalizing la b with
  | zero => exact .ite (.throw _) (.pure _)
  | succ fuel ih => exact .ite (.bind cmds_rdwtSector fun _ => ih) (.pure _)

theorem cmds_procAt {i : Int} : Preserves (fun u : Hd => u.cmds = cmds) (procAt i) := by
  unfold procAt
  split
  · exact .pure _
  · exact .throw _

/-- The sector that the driver addresses is the one its command names. -/
theorem addresses_iff (haligned : p.position &&& 0x1FF = 0) (hpart : s.part p.device = some part) :
    Addresses s p lba ↔ (rdwtCmd p part).lba = lba := by
  have hrun : wp (hdRdwt p) (fun _ u => u.cmds = rdwtCmd p part :: s.cmds)
      (fun _ u => u.cmds = rdwtCmd p part :: s.cmds) s := by
    rw [hdRdwt, wp_bind, wp_assert_of position_lt, wp_bind, wp_assert_of haligned, wp_bind, wp_get,
      hpart]
    dsimp only
    rw [wp_bind, hdCmdOut, wp_modify]
    have hrest : Preserves (fun u : Hd => u.cmds = rdwtCmd p part :: s.cmds) (do
        let pid ← procAt p.procNr
        let la ← linear (← get).procTable pid p.buf
        rdwtLoop p.type 257 la p.cnt) :=
      .bind cmds_procAt fun _ => .bind .get fun _ =>
        .bind (.bind (.onlyIf .ensure) fun _ => .pure _) fun _ => cmds_rdwtLoop
    exact hrest _ rfl
  have hhead {u : Hd} (hu : u.cmds = rdwtCmd p part :: s.cmds) :
      u.cmds.head?.map HdCmd.lba = some lba ↔ (rdwtCmd p part).lba = lba := by
    rw [hu]
    exact Option.some_inj
  constructor
  · intro hw
    exact (hrun.and hw).elim (fun _ _ h => (hhead h.1).mp h.2) fun _ _ h => (hhead h.1).mp h.2
  · intro hl
    exact hrun.mono (fun _ _ h => (hhead h).mpr hl) fun _ _ h => (hhead h).mpr hl

theorem aligned_sectPos : (sectorMessage ioType dev (sectPos n) bytes procNr buf).position &&& 0x1FF =
    0 := by
  apply BitVec.eq_of_toNat_eq
  rw [BitVec.toNat_and, show (0x1FF : BitVec 64).toNat = 2 ^ 9 - 1 from rfl,
    Nat.and_two_pow_sub_one_eq_mod]
  change ((sectPos n).setWidth 64).toNat % 2 ^ 9 = 0
  rw [BitVec.toNat_setWidth, toNat_sectPos_mod]
  omega

theorem lba_sectPos (hpart : s.part (minor dev) = some part)
    (hfit : part.base.toNat + part.size.toNat ≤ 2 ^ 28) (hn : n < part.size.toNat) :
    (rdwtCmd (sectorMessage ioType dev (sectPos n) bytes procNr buf) part).lba =
      part.base.toNat + n % 2 ^ 23 := by
  have hdrv : drvOfDev (sectorMessage ioType dev (sectPos n) bytes procNr buf).device = 0 :=
    drvOfDev_of_part hpart
  rw [rdwtCmd, hdrv, lba_lbaCmd, BitVec.toNat_add, BitVec.truncate_eq_setWidth, BitVec.toNat_setWidth,
    BitVec.toNat_ushiftRight, Nat.shiftRight_eq_div_pow]
  change (((sectPos n).setWidth 64).toNat / 2 ^ 9 % 2 ^ 32 + part.base.toNat) % 2 ^ 32 % 2 ^ 28 = _
  rw [BitVec.toNat_setWidth, toNat_sectPos_mod]
  omega

/-- A sector's number arrives at the drive exactly when it is below 2 ^ 23, and different sectors of a
partition are different on the drive exactly when the partition has no more. -/
theorem sectors_addressed (hpart : s.part (minor dev) = some part)
    (hfit : part.base.toNat + part.size.toNat ≤ 2 ^ 28) :
    (∀ n < part.size.toNat,
      Addresses s (sectorMessage ioType dev (sectPos n) bytes procNr buf) (part.base.toNat + n) ↔
        n < 2 ^ 23) ∧
    ((∀ n < part.size.toNat, ∀ n' < part.size.toNat, ∀ lba,
      Addresses s (sectorMessage ioType dev (sectPos n) bytes procNr buf) lba →
      Addresses s (sectorMessage ioType dev (sectPos n') bytes procNr buf) lba → n = n') ↔
        part.size.toNat ≤ 2 ^ 23) := by
  have haddr {n lba : Nat} (hn : n < part.size.toNat) :
      Addresses s (sectorMessage ioType dev (sectPos n) bytes procNr buf) lba ↔
        part.base.toNat + n % 2 ^ 23 = lba := by
    rw [addresses_iff aligned_sectPos hpart, lba_sectPos hpart hfit hn]
  refine ⟨fun n hn => ?_, fun hinj => ?_, fun hle n hn n' hn' lba h h' => ?_⟩
  · rw [haddr hn]
    omega
  · by_contra hlarge
    have := hinj 0 (by omega) (2 ^ 23) (by omega) part.base.toNat
      ((haddr (by omega)).mpr (by omega)) ((haddr (by omega)).mpr (by omega))
    exact absurd this (by decide)
  · rw [haddr hn] at h
    rw [haddr hn'] at h'
    omega

end

theorem sectors_addressed_partHd : Addresses partHd (sectorMessage MsgType.devRead rootDev
    (sectPos (40959 : Nat)) 512 taskFs.val (BitVec.ofNat 32 fsbuf)) (0x100 + 40959) :=
  have hpart : partHd.part (minor rootDev) = some { base := 0x100, size := 40960 } := by rfl
  ((sectors_addressed hpart (by decide)).1 40959 (by decide)).mpr (by decide)

/-- A partition of more than 2 ^ 23 sectors. -/
def largeHd : Hd := { partHd with
  hdInfo := { logical := fun i => if i.val = 16 then { base := 0x100, size := 8388609 } else {} } }

/-- Its last sector is addressed as its first one. -/
theorem not_sectors_addressed_largeHd :
    largeHd.part (minor rootDev) = some { base := 0x100, size := 8388609 } ∧
      0x100 + 8388609 ≤ 2 ^ 28 ∧ 8388608 < 8388609 ∧
      ¬Addresses largeHd (sectorMessage MsgType.devRead rootDev (sectPos (8388608 : Nat)) 512
        taskFs.val (BitVec.ofNat 32 fsbuf)) (0x100 + 8388608) := by
  have hpart : largeHd.part (minor rootDev) = some { base := 0x100, size := 8388609 } := by rfl
  refine ⟨hpart, by decide, by decide, fun h => ?_⟩
  rw [addresses_iff aligned_sectPos hpart, lba_sectPos hpart (by decide) (by decide)] at h
  exact absurd h (by decide)

/-! ## The disk of FS -/

/-- The disk of FS is its partition on the drive. -/
structure Backs (part : PartInfo) (s : Fs) (t : Hd) : Prop where
  disk : ∀ a, s.disk a = t.disk (512 * part.base.toNat + a)
  mem : s.mem = t.mem

section

variable {s : Fs} {t : Hd} {part : PartInfo} {ioType : Int} {n k : Nat}

/-- The request of `rw_sector` for `k` sectors from sector `n` on. -/
abbrev sectorsMessage (ioType : Int) (n k : Nat) : Message :=
  sectorMessage ioType rootDev (sectPos n) (512 * k : Nat) taskFs.val (BitVec.ofNat 32 fsbuf)

/-- On up to 256 sectors below 2 ^ 23 the driver does to the drive what `rw_sector` is taken to do to the
disk of FS. -/
theorem hdRdwt_refines_rwSector (h : Backs part s t) (hpart : t.part (minor rootDev) = some part)
    (hfit : part.base.toNat + part.size.toNat ≤ 2 ^ 28) (hn : n < part.size.toNat) (hn' : n < 2 ^ 23)
    (hbase : ldtSegLinear (t.procTable taskFs) indexLdtRw = 0)
    (htype : ioType = MsgType.devRead ∨ ioType = MsgType.devWrite) (hk : 0 < k) (hk' : k ≤ 256) :
    wp (hdRdwt (sectorsMessage ioType n k))
      (fun _ u => ∃ v, rwSector ioType rootDev (sectPos n) (512 * k) s = .ok () v ∧ Backs part v u)
      (fun _ _ => False) t := by
  have hfsbuf : fsbuf = 0x600000 := rfl
  have hrequest : DiskRequest t (sectorsMessage ioType n k) taskFs part (512 * k) :=
    { type := htype
      part := hpart
      aligned := aligned_sectPos
      procNr := rfl
      segment := .inl hbase
      size := rfl
      pos := by omega
      le := by
        have : fsbufSize = 0x100000 := rfl
        omega }
  have hlba : (rdwtCmd (sectorsMessage ioType n k) part).lba = part.base.toNat + n := by
    rw [lba_sectPos hpart hfit hn]
    omega
  have haddr (j : Nat) (hj : j < 512 * k) : (ldtSegLinear (t.procTable taskFs) indexLdtRw +
      (sectorsMessage ioType n k).buf + BitVec.ofNat 32 j).toNat = fsbuf + j := by
    rw [hbase]
    change (0#32 + BitVec.ofNat 32 fsbuf + BitVec.ofNat 32 j).toNat = _
    rw [BitVec.zero_add, ← BitVec.ofNat_add, BitVec.toNat_ofNat]
    omega
  refine (hrequest.wp_hdRdwt_moves hk').mono (fun _ u hu => ?_) fun _ _ h => h
  have hrw : wp (rwSector ioType rootDev (sectPos n) (512 * k)) (fun _ v => v =
      if ioType = MsgType.devRead then s.io s.disk (blit s.mem fsbuf s.disk (512 * n) (512 * k))
      else s.io (blit s.disk (512 * n) s.mem fsbuf (512 * k)) s.mem) (fun _ _ => False) s := by
    rw [wp_rwSector, toNat_sectPos hn']
    split_ifs <;> rfl
  obtain ⟨_, v, hv, rfl⟩ := hrw.exists_ok
  refine ⟨_, hv, ?_⟩
  rcases htype with rfl | rfl
  · obtain ⟨hdisk, hdata, hframe⟩ := hu.read rfl
    rw [if_pos rfl]
    refine ⟨fun a => ?_, funext fun a => ?_⟩
    · rw [Fs.io_disk, hdisk, h.disk]
    · rw [Fs.io_mem]
      by_cases ha : fsbuf ≤ a ∧ a < fsbuf + 512 * k
      · have hj := hdata (a - fsbuf) (by omega)
        rw [haddr _ (by omega), Nat.add_sub_cancel' ha.1, hlba] at hj
        rw [hj, blit_of_mem ha.1 ha.2, h.disk]
        exact congrArg t.disk (by omega)
      · rw [blit_of_notMem (by omega), h.mem, hframe a fun j hj => by rw [haddr j hj]; omega]
  · obtain ⟨hmem, hdata, hframe⟩ := hu.write rfl
    rw [if_neg (by decide)]
    refine ⟨fun a => ?_, ?_⟩
    · rw [Fs.io_disk]
      rw [hlba] at hdata hframe
      by_cases ha : 512 * n ≤ a ∧ a < 512 * n + 512 * k
      · have hj := hdata (a - 512 * n) (by omega)
        rw [haddr _ (by omega), show 512 * (part.base.toNat + n) + (a - 512 * n) =
          512 * part.base.toNat + a by omega] at hj
        rw [hj, blit_of_mem ha.1 ha.2, h.mem]
      · rw [blit_of_notMem (by omega), h.disk, hframe _ (by omega)]
    · rw [Fs.io_mem, hmem, h.mem]

end

end Dlos
