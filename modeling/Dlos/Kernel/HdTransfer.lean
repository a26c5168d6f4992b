import Mathlib.Algebra.BigOperators.Group.List.Basic
import Dlos.Kernel.Hd

/-!
# Disk transfers

The number of sectors is announced in eight bits and rounded up, but the loop counts down to zero in
whole sectors. A transfer ends when it is announced in full and consists of whole sectors; otherwise the
driver waits for an interrupt or for data that the drive does not ask for.
-/

namespace Dlos

open Program Bytes

/-! ## Registers -/

section

variable {n : BitVec 32} {count command : Byte} {p : Message} {part : PartInfo}

theorem device_mod {y : Nat} (h : y < 16) : (makeDeviceReg 1 0 (BitVec.ofNat 32 y)).toNat % 16 = y := by
  have : ∀ y < 16, (makeDeviceReg 1 0 (BitVec.ofNat 32 y)).toNat % 16 = y := by decide
  exact this y h

/-- The registers hold 28 bits of a sector's number. -/
theorem lba_lbaCmd : (lbaCmd 0 n count command).lba = n.toNat % 2 ^ 28 := by
  have htop : ((n >>> 24) &&& 0xF) = BitVec.ofNat 32 (n.toNat / 2 ^ 24 % 16) := by
    apply BitVec.eq_of_toNat_eq
    rw [BitVec.toNat_and, BitVec.toNat_ushiftRight, BitVec.toNat_ofNat, Nat.shiftRight_eq_div_pow,
      show (0xF : BitVec 32).toNat = 2 ^ 4 - 1 from rfl, Nat.and_two_pow_sub_one_eq_mod]
    omega
  have hdevice : (lbaCmd 0 n count command).device.toNat % 16 = n.toNat / 2 ^ 24 % 16 := by
    change (makeDeviceReg 1 0 ((n >>> 24) &&& 0xF)).toNat % 16 = _
    rw [htop, device_mod (by omega)]
  have hbyte {x : BitVec 32} : ((x &&& 0xFF).truncate 8).toNat = x.toNat % 2 ^ 8 := by
    rw [BitVec.truncate_eq_setWidth, BitVec.toNat_setWidth, BitVec.toNat_and,
      show (0xFF : BitVec 32).toNat = 2 ^ 8 - 1 from rfl, Nat.and_two_pow_sub_one_eq_mod]
    omega
  have hlow : (lbaCmd 0 n count command).lbaLow.toNat = n.toNat % 2 ^ 8 := hbyte
  have hmid : (lbaCmd 0 n count command).lbaMid.toNat = n.toNat / 2 ^ 8 % 2 ^ 8 := by
    change (((n >>> 8) &&& 0xFF).truncate 8).toNat = _
    rw [hbyte, BitVec.toNat_ushiftRight, Nat.shiftRight_eq_div_pow]
  have hhigh : (lbaCmd 0 n count command).lbaHigh.toNat = n.toNat / 2 ^ 16 % 2 ^ 8 := by
    change (((n >>> 16) &&& 0xFF).truncate 8).toNat = _
    rw [hbyte, BitVec.toNat_ushiftRight, Nat.shiftRight_eq_div_pow]
  rw [HdCmd.lba, hdevice, hlow, hmid, hhigh]
  omega

/-- The number of sectors that `cnt` bytes are in. -/
def sectorsOf (cnt : Nat) : Nat := (cnt + 511) / 512

theorem sectors_rdwtCmd {cnt : Nat} (hcnt : p.cnt = (cnt : Int)) : (rdwtCmd p part).sectors =
    if sectorsOf cnt % 256 = 0 then 256 else sectorsOf cnt % 256 := by
  have hdiv : (p.cnt + ((512 : Nat) : Int) - 1).tdiv ((512 : Nat) : Int) = (sectorsOf cnt : Nat) := by
    rw [hcnt, sectorsOf, Int.tdiv_eq_ediv_of_nonneg (by omega)]
    omega
  have hcount : (rdwtCmd p part).count = BitVec.ofNat 8 (sectorsOf cnt) := by
    change BitVec.ofInt 8 _ = _
    rw [show sectorSize = 512 from rfl, hdiv, BitVec.ofInt_natCast]
  have hzero : (rdwtCmd p part).count = 0 ↔ sectorsOf cnt % 256 = 0 := by
    rw [hcount, ← BitVec.toNat_inj, BitVec.toNat_ofNat]
    rfl
  unfold HdCmd.sectors
  split_ifs with h h' h'
  · rfl
  · exact absurd (hzero.mp h) h'
  · exact absurd (hzero.mpr h') h
  · rw [hcount, BitVec.toNat_ofNat]

/-- The drive never transfers more sectors than the bytes need, and as many when they are 256 at most. -/
theorem sectors_le {cnt : Nat} (hcnt : p.cnt = (cnt : Int)) (hpos : 0 < cnt) :
    (rdwtCmd p part).sectors ≤ min 256 (sectorsOf cnt) := by
  rw [sectors_rdwtCmd hcnt]
  unfold sectorsOf
  split_ifs <;> omega

theorem sectors_eq {cnt : Nat} (hcnt : p.cnt = (cnt : Int)) (hpos : 0 < cnt)
    (hle : sectorsOf cnt ≤ 256) : (rdwtCmd p part).sectors = sectorsOf cnt := by
  rw [sectors_rdwtCmd hcnt]
  unfold sectorsOf at hle ⊢
  split_ifs <;> omega

end

/-! ## The loop -/

section

variable {m : Store} {dst la : Addr} {src : Store} {n k fuel : Nat} {s u : Hd} {type b : Int}
  {E : Halt → Hd → Prop}

theorem ne_add_ofNat {i j : Nat} (hij : i ≠ j) (hi : i < 2 ^ 32) (hj : j < 2 ^ 32) :
    (dst + BitVec.ofNat 32 i).toNat ≠ (dst + BitVec.ofNat 32 j).toNat := by
  rw [BitVec.toNat_add, BitVec.toNat_add, BitVec.toNat_ofNat, BitVec.toNat_ofNat]
  omega

theorem copyOut_of_ne {a : Nat} (h : ∀ i < n, a ≠ (dst + BitVec.ofNat 32 i).toNat) :
    copyOut m dst src n a = m a := by
  induction n with
  | zero => rfl
  | succ n ih =>
    rw [copyOut, Function.update_of_ne (h n (Nat.lt_succ_self n)),
      ih fun i hi => h i (Nat.lt_succ_of_lt hi)]

theorem copyOut_apply {i : Nat} (hi : i < n) (hn : n ≤ 2 ^ 32) :
    copyOut m dst src n (dst + BitVec.ofNat 32 i).toNat = src i := by
  induction n with
  | zero => omega
  | succ n ih =>
    rw [copyOut]
    rcases Nat.lt_succ_iff_lt_or_eq.mp hi with hlt | rfl
    · rw [Function.update_of_ne (ne_add_ofNat (by omega) (by omega) (by omega)), ih hlt (by omega)]
    · rw [Function.update_self]

/-- The drive has `k` sectors for a transfer in progress. -/
structure Hd.Transferring (s : Hd) (type : Int) (k : Nat) : Prop where
  left : s.left = k
  intr : s.intr = if type = MsgType.devRead then decide (k ≠ 0) else false

theorem wp_interruptWait {Q : Unit → Hd → Prop} : wp interruptWait Q E s ↔
    (s.intr = true → Q () { s with intr := false }) ∧ (¬s.intr = true → E .diverge s) := by
  rw [interruptWait, wp_bind, wp_get, wp_ite, wp_modify, wp_throw]

theorem wp_waitforData {Q : Unit → Hd → Prop} : wp waitforData Q E s ↔
    (s.left ≠ 0 → Q () s) ∧ (¬s.left ≠ 0 → E (.panic "hd writing error.") s) := by
  rw [waitforData, wp_bind, waitforDrq, wp_bind, wp_get, wp_pure, wp_ite, wp_pure, wp_throw,
    decide_eq_true_eq]

/-- With no sector left a round stops, and so does a WRITE of less than a sector. -/
theorem not_rdwtSector (h : s.Transferring type k)
    (hb : k = 0 ∨ type ≠ MsgType.devRead ∧ -2 ^ 31 ≤ b ∧ b < 512) :
    wp (rdwtSector type la b) (fun _ _ => False) (fun _ _ => True) s := by
  rw [rdwtSector]
  by_cases hread : type = MsgType.devRead
  · have hk : k = 0 := hb.resolve_right fun hb => hb.1 hread
    have hintr : ¬s.intr = true := by
      rw [h.intr, if_pos hread, hk]
      decide
    rw [if_pos hread, wp_bind, readSector, wp_bind, wp_interruptWait]
    exact ⟨fun hc => absurd hc hintr, fun _ => trivial⟩
  · have hintr : ¬s.intr = true := by
      rw [h.intr, if_neg hread]
      decide
    rw [if_neg hread, wp_bind, writeSector, wp_bind, wp_waitforData, h.left]
    refine ⟨fun hk => ?_, fun _ => trivial⟩
    obtain ⟨-, hlow, hlt⟩ := hb.resolve_left hk
    have hpart : 2 * ((BitVec.ofInt 32 b).toNat / 2) ≠ 512 := by
      rw [BitVec.toNat_ofInt]
      omega
    rw [wp_bind, portWrite, wp_modify, if_neg hpart, wp_interruptWait]
    exact ⟨fun hc => absurd hc hintr, fun _ => trivial⟩

/-- A round that transfers a sector. -/
theorem wp_rdwtSector (h : s.Transferring type (k + 1)) (hb : type ≠ MsgType.devRead → b = 512) :
    wp (rdwtSector type la b) (fun _ u => u.Transferring type k ∧ u.lba = s.lba + 1 ∧
        u.transfers = b :: s.transfers ∧
        if type = MsgType.devRead then u.disk = s.disk ∧ ∃ hdbuf,
          (∀ i < 512, hdbuf i = s.disk (512 * s.lba + i)) ∧
          u.mem = copyOut s.mem la hdbuf (BitVec.ofInt 32 b).toNat
        else u.mem = s.mem ∧ u.disk = blit s.disk (512 * s.lba)
          (fun i => s.mem (la + BitVec.ofNat 32 i).toNat) 0 512) E s := by
  have hleft := h.left
  rw [rdwtSector]
  by_cases hread : type = MsgType.devRead
  · have hintr : s.intr = true := by
      rw [h.intr, if_pos hread]
      rfl
    rw [if_pos hread, wp_bind, readSector, wp_bind, wp_interruptWait]
    refine ⟨fun _ => ?_, fun hc => absurd hintr hc⟩
    rw [wp_bind, portRead, wp_modify, copyHdbuf, wp_modify, wp_modify]
    refine ⟨⟨?_, ?_⟩, rfl, rfl, ?_⟩
    · dsimp only
      omega
    · rw [if_pos hread]
      dsimp only
      rw [hleft, Nat.add_sub_cancel]
    · rw [if_pos hread]
      refine ⟨rfl, _, fun i hi => ?_, rfl⟩
      exact (blit_of_mem (Nat.zero_le i) (by omega)).trans (by rw [Nat.sub_zero])
  · have hwhole : 2 * ((BitVec.ofInt 32 b).toNat / 2) = sectorSize := by
      rw [hb hread]
      rfl
    rw [if_neg hread, wp_bind, writeSector, wp_bind, wp_waitforData, hleft]
    refine ⟨fun _ => ?_, fun hc => absurd (Nat.succ_ne_zero k) hc⟩
    rw [wp_bind, portWrite, wp_modify, if_pos hwhole, wp_interruptWait]
    refine ⟨fun _ => ?_, fun hc => absurd rfl hc⟩
    rw [wp_modify]
    refine ⟨⟨?_, ?_⟩, rfl, rfl, ?_⟩
    · dsimp only
      omega
    · rw [if_neg hread]
    · rw [if_neg hread]
      exact ⟨rfl, rfl⟩

/-- The loop does not end when the bytes are not as many whole sectors as the drive has, or fewer. -/
theorem not_rdwtLoop (h : s.Transferring type k) (hlow : -2 ^ 31 + 512 * k ≤ b)
    (hb : ∀ j ≤ k, b ≠ 512 * (j : Nat)) :
    wp (rdwtLoop type fuel la b) (fun _ _ => False) (fun _ _ => True) s := by
  induction fuel generalizing s la b k with
  | zero =>
    have hzero : b ≠ 0 := hb 0 (Nat.zero_le k)
    rw [rdwtLoop, if_pos hzero]
    trivial
  | succ fuel ih =>
    have hzero : b ≠ 0 := hb 0 (Nat.zero_le k)
    have hsize : ((sectorSize : Nat) : Int) = 512 := rfl
    rw [rdwtLoop, if_pos hzero, wp_bind, hsize]
    have hrest {u : Hd} {j : Nat} (hk : k = j + 1) (hu : u.Transferring type j) :
        wp (rdwtLoop type fuel (la + BitVec.ofNat 32 sectorSize) (b - 512)) (fun _ _ => False)
          (fun _ _ => True) u :=
      ih hu (by omega) fun i hi he => hb (i + 1) (by omega) (by omega)
    by_cases hstop : k = 0 ∨ type ≠ MsgType.devRead ∧ b < 512
    · have hpart : k = 0 ∨ type ≠ MsgType.devRead ∧ -2 ^ 31 ≤ min 512 b ∧ min 512 b < 512 :=
        hstop.imp_right fun hc => ⟨hc.1, by omega, by omega⟩
      exact (not_rdwtSector h hpart).mono (fun _ _ hf => hf.elim) fun _ _ h => h
    · obtain ⟨hk, hwhole⟩ := not_or.mp hstop
      obtain ⟨j, rfl⟩ := Nat.exists_eq_succ_of_ne_zero hk
      refine (wp_rdwtSector h fun hwrite => ?_).mono (fun _ u hu => hrest rfl hu.1) fun _ _ h => h
      have : ¬b < 512 := fun hlt => hwhole ⟨hwrite, hlt⟩
      omega

/-- What `k` sectors transferred leave, from sector `lba` and address `la` on. -/
structure Transferred (type : Int) (la : Addr) (k : Nat) (s u : Hd) : Prop where
  left : u.left = 0
  intr : u.intr = false
  transfers : u.transfers = List.replicate k 512 ++ s.transfers
  read : type = MsgType.devRead → u.disk = s.disk ∧
    (∀ j < 512 * k, u.mem (la + BitVec.ofNat 32 j).toNat = s.disk (512 * s.lba + j)) ∧
    ∀ a, (∀ j < 512 * k, a ≠ (la + BitVec.ofNat 32 j).toNat) → u.mem a = s.mem a
  write : type ≠ MsgType.devRead → u.mem = s.mem ∧
    (∀ j < 512 * k, u.disk (512 * s.lba + j) = s.mem (la + BitVec.ofNat 32 j).toNat) ∧
    ∀ a, (a < 512 * s.lba ∨ 512 * (s.lba + k) ≤ a) → u.disk a = s.disk a

/-- The loop transfers whole sectors when the drive has as many. -/
theorem wp_rdwtLoop (h : s.Transferring type k) (hfuel : k ≤ fuel) (hk : k ≤ 256) :
    wp (rdwtLoop type fuel la (512 * (k : Nat))) (fun _ u => Transferred type la k s u) E s := by
  induction k generalizing s la fuel with
  | zero =>
    have hend : wp (rdwtLoop type fuel la (512 * ((0 : Nat) : Int)))
        (fun _ u => u = s) E s := by
      cases fuel with
      | zero => rw [rdwtLoop, if_neg (by decide)]; rfl
      | succ fuel => rw [rdwtLoop, if_neg (by decide)]; rfl
    refine hend.mono (fun _ u hu => ?_) fun _ _ h => h
    subst hu
    refine ⟨h.left, ?_, rfl, fun _ => ⟨rfl, fun j hj => by omega, fun _ _ => rfl⟩, fun _ =>
      ⟨rfl, fun j hj => by omega, fun _ _ => rfl⟩⟩
    rw [h.intr]
    split_ifs <;> rfl
  | succ k ih =>
    obtain ⟨fuel, rfl⟩ : ∃ f, fuel = f + 1 := ⟨fuel - 1, by omega⟩
    have hsize : ((sectorSize : Nat) : Int) = 512 := rfl
    have hmin : min (512 : Int) (512 * ((k + 1 : Nat) : Int)) = 512 := by omega
    have hnext : 512 * ((k + 1 : Nat) : Int) - 512 = 512 * (k : Nat) := by omega
    rw [rdwtLoop, if_pos (by omega), wp_bind, hsize, hmin, hnext]
    refine (wp_rdwtSector h fun _ => rfl).mono (fun _ v hv => ?_) fun _ _ h => h
    obtain ⟨hv, hlba, htransfers, hdata⟩ := hv
    refine (ih hv (by omega) (by omega)).mono (fun _ u hu => ?_) fun _ _ h => h
    have haddr (j : Nat) : la + BitVec.ofNat 32 sectorSize + BitVec.ofNat 32 j =
        la + BitVec.ofNat 32 (512 + j) := by
      rw [BitVec.add_assoc, ← BitVec.ofNat_add]
    refine ⟨hu.left, hu.intr, ?_, fun hread => ?_, fun hwrite => ?_⟩
    · rw [hu.transfers, htransfers, List.replicate_succ']
      simp
    · rw [if_pos hread] at hdata
      obtain ⟨hdisk, hdbuf, hbuf, hmem⟩ := hdata
      obtain ⟨hudisk, hudata, huframe⟩ := hu.read hread
      simp only [haddr, hlba, hdisk] at hudata huframe hudisk
      have hcopy : (BitVec.ofInt 32 512).toNat = 512 := rfl
      rw [hcopy] at hmem
      refine ⟨hudisk, fun j hj => ?_, fun a ha => ?_⟩
      · rcases lt_or_ge j 512 with hlt | hge
        · rw [huframe _ fun i hi => ne_add_ofNat (by omega) (by omega) (by omega), hmem,
            copyOut_apply hlt (by decide), hbuf j hlt]
        · have hj' := hudata (j - 512) (by omega)
          rw [Nat.add_sub_cancel' hge] at hj'
          rw [hj']
          exact congrArg s.disk (by omega)
      · rw [huframe a fun i hi => ha (512 + i) (by omega), hmem,
          copyOut_of_ne fun i hi => ha i (by omega)]
    · rw [if_neg hwrite] at hdata
      obtain ⟨hmem, hdisk⟩ := hdata
      obtain ⟨humem, hudata, huframe⟩ := hu.write hwrite
      simp only [haddr, hlba, hmem] at hudata huframe humem
      refine ⟨humem, fun j hj => ?_, fun a ha => ?_⟩
      · rcases lt_or_ge j 512 with hlt | hge
        · rw [huframe _ (.inl (by omega)), hdisk, blit_of_mem (by omega) (by omega), Nat.zero_add,
            Nat.add_sub_cancel_left]
        · have hj' := hudata (j - 512) (by omega)
          rw [Nat.add_sub_cancel' hge, show 512 * (s.lba + 1) + (j - 512) = 512 * s.lba + j by omega]
            at hj'
          exact hj'
      · rw [huframe a (by omega), hdisk, blit_of_notMem (by omega)]

end

/-! ## A request -/

/-- A DEV_READ or DEV_WRITE of `cnt` bytes of a partition from a sector on, for a process whose addresses
`va2la` takes. -/
structure DiskRequest (s : Hd) (p : Message) (pid : Pid) (part : PartInfo) (cnt : Nat) : Prop where
  type : p.type = MsgType.devRead ∨ p.type = MsgType.devWrite
  part : s.part p.device = some part
  aligned : p.position &&& 0x1FF = 0
  procNr : pidOf p.procNr = some pid
  segment : ldtSegLinear (s.procTable pid) indexLdtRw = 0 ∨ nrTasks + nrNativeProcs ≤ pid.val
  size : p.cnt = (cnt : Int)
  pos : 0 < cnt
  le : cnt ≤ fsbufSize

/-- What a transfer of `cnt` bytes from sector `lba` and address `la` on should do: as many sectors as
the bytes need are announced and transferred, with all the bytes and no others, and the drive is left
with nothing. -/
structure Moves (p : Message) (part : PartInfo) (la : Addr) (lba cnt : Nat) (s u : Hd) : Prop where
  announced : (rdwtCmd p part).sectors = sectorsOf cnt
  transfers : ∃ l, u.transfers = l ++ s.transfers ∧ l.length = sectorsOf cnt ∧ l.sum = (cnt : Int)
  left : u.left = 0
  intr : u.intr = false
  read : p.type = MsgType.devRead → u.disk = s.disk ∧
    (∀ j < cnt, u.mem (la + BitVec.ofNat 32 j).toNat = s.disk (512 * lba + j)) ∧
    ∀ a, (∀ j < cnt, a ≠ (la + BitVec.ofNat 32 j).toNat) → u.mem a = s.mem a
  write : p.type = MsgType.devWrite → u.mem = s.mem ∧
    (∀ j < cnt, u.disk (512 * lba + j) = s.mem (la + BitVec.ofNat 32 j).toNat) ∧
    ∀ a, (a < 512 * lba ∨ 512 * lba + cnt ≤ a) → u.disk a = s.disk a

section

variable {s : Hd} {p : Message} {pid : Pid} {part : PartInfo} {cnt : Nat} {E : Halt → Hd → Prop}
  {Q : Unit → Hd → Prop}

theorem drvOfDev_of_part {device : Int} (h : s.part device = some part) : drvOfDev device = 0 := by
  by_contra hne
  rw [Hd.part, if_pos hne] at h
  exact absurd h (by simp)

/-- The state when the command was sent. -/
def Hd.sent (s : Hd) (cmd : HdCmd) : Hd :=
  { s with cmds := cmd :: s.cmds, lba := cmd.lba, left := cmd.sectors, intr := cmd.command = ataRead }

/-- A position that an `u64` holds never reaches the limit of the first assertion. -/
theorem position_lt {pos : BitVec 64} : pos >>> 9 < (1#32 <<< 31).signExtend 64 := by
  have hlimit : ((1#32 <<< 31).signExtend 64).toNat = 2 ^ 64 - 2 ^ 31 := by decide
  rw [BitVec.lt_def, hlimit, BitVec.toNat_ushiftRight, Nat.shiftRight_eq_div_pow]
  omega

theorem transferring :
    (s.sent (rdwtCmd p part)).Transferring p.type (rdwtCmd p part).sectors where
  left := rfl
  intr := by
    have hpos : 0 < (rdwtCmd p part).sectors := by
      unfold HdCmd.sectors
      split_ifs with hc
      · decide
      · exact Nat.pos_of_ne_zero fun hz => hc (BitVec.eq_of_toNat_eq hz)
    have hcmd : (rdwtCmd p part).command = if p.type = MsgType.devRead then ataRead else ataWrite := rfl
    rw [Hd.sent, hcmd]
    split_ifs
    · simp only [decide_true]
      rw [decide_eq_true hpos.ne']
    · rfl

namespace DiskRequest

theorem wp_hdRdwt (h : DiskRequest s p pid part cnt) : wp (hdRdwt p) Q E s ↔
    wp (rdwtLoop p.type 257 (ldtSegLinear (s.procTable pid) indexLdtRw + p.buf) cnt) Q E
      (s.sent (rdwtCmd p part)) := by
  rw [hdRdwt, wp_bind, wp_assert_of position_lt, wp_bind, wp_assert_of h.aligned, wp_bind, wp_get,
    h.part]
  dsimp only
  rw [wp_bind, hdCmdOut, wp_modify, wp_bind, procAt, h.procNr]
  dsimp only
  rw [wp_pure, wp_bind, wp_get, wp_bind, wp_linear_of h.segment, h.size]
  rfl

/-- A request that is not for whole sectors, or for too many, does not end. -/
theorem not_hdRdwt (h : DiskRequest s p pid part cnt) (hbad : ¬(512 ∣ cnt ∧ cnt ≤ 256 * 512)) :
    wp (hdRdwt p) (fun _ _ => False) (fun _ _ => True) s := by
  rw [h.wp_hdRdwt]
  have hle : (rdwtCmd p part).sectors ≤ min 256 (sectorsOf cnt) := sectors_le h.size h.pos
  refine not_rdwtLoop transferring ?_ fun j hj he => ?_
  · omega
  · have := h.pos
    exact hbad ⟨⟨j, by omega⟩, by omega⟩

/-- A request for whole sectors, 256 of them at most, moves them. -/
theorem wp_hdRdwt_moves {k : Nat} (h : DiskRequest s p pid part (512 * k)) (hk : k ≤ 256) :
    wp (hdRdwt p) (fun _ u => Moves p part (ldtSegLinear (s.procTable pid) indexLdtRw + p.buf)
      (rdwtCmd p part).lba (512 * k) s u) E s := by
  have hsectorsOf : sectorsOf (512 * k) = k := by
    rw [sectorsOf]
    omega
  have hsectors : (rdwtCmd p part).sectors = sectorsOf (512 * k) :=
    sectors_eq h.size h.pos (by omega)
  have hstart : (s.sent (rdwtCmd p part)).Transferring p.type k := by
    rw [← hsectorsOf, ← hsectors]
    exact transferring
  rw [h.wp_hdRdwt, Nat.cast_mul, Nat.cast_ofNat]
  refine (wp_rdwtLoop hstart (by omega) (by omega)).mono (fun _ u hu => ?_) fun _ _ h => h
  refine ⟨hsectors, ⟨_, hu.transfers, ?_, ?_⟩, hu.left, hu.intr, hu.read, fun hwrite => ?_⟩
  · rw [List.length_replicate, hsectorsOf]
  · rw [List.sum_replicate, nsmul_eq_mul, Nat.cast_mul, mul_comm]
    rfl
  · obtain ⟨hmem, hdata, hframe⟩ := hu.write (by rw [hwrite]; decide)
    refine ⟨hmem, hdata, fun a ha => hframe a ?_⟩
    rw [Nat.mul_add]
    exact ha

end DiskRequest

/-- A transfer moves what it announces exactly when it is for whole sectors, 256 of them at most. -/
theorem hdRdwt_moves_iff (h : DiskRequest s p pid part cnt) :
    wp (hdRdwt p) (fun _ u => Moves p part (ldtSegLinear (s.procTable pid) indexLdtRw + p.buf)
      (rdwtCmd p part).lba cnt s u) (fun _ _ => False) s ↔ 512 ∣ cnt ∧ cnt ≤ 256 * 512 := by
  constructor
  · intro hw
    by_contra hbad
    exact (hw.and (h.not_hdRdwt hbad)).elim (fun _ _ hf => hf.2) fun _ _ hf => hf.1
  · rintro ⟨⟨k, rfl⟩, hle⟩
    exact h.wp_hdRdwt_moves (by omega)

end

/-- A drive with one logical partition. -/
def partHd : Hd where
  hdInfo := { logical := fun i => if i.val = 16 then { base := 0x100, size := 40960 } else {} }
  hdbuf _ := 0
  mem _ := 0
  procTable _ := {}
  disk _ := 0
  cmds := []
  lba := 0
  left := 0
  intr := false
  transfers := []

/-- A request of FS to read `cnt` bytes from the start of it. -/
def readRequest (cnt : Nat) : Message where
  type := MsgType.devRead
  u := { m3i2 := (cnt : Int), m3i3 := (taskFs.val : Int), m3i4 := 0x20, m3p2 := BitVec.ofNat 32 fsbuf }

theorem readRequest_partHd {cnt : Nat} (hpos : 0 < cnt) (hle : cnt ≤ fsbufSize) :
    DiskRequest partHd (readRequest cnt) taskFs { base := 0x100, size := 40960 } cnt where
  type := .inl rfl
  part := by rfl
  aligned := by change (0 : BitVec 64) &&& 0x1FF = 0; decide
  procNr := rfl
  segment := .inl (by change ldtSegLinear {} indexLdtRw = 0; decide)
  size := rfl
  pos := hpos
  le := hle

theorem hdRdwt_moves_partHd :
    wp (hdRdwt (readRequest 1024)) (fun _ u => Moves (readRequest 1024) { base := 0x100, size := 40960 }
      (ldtSegLinear (partHd.procTable taskFs) indexLdtRw + (readRequest 1024).buf)
      (rdwtCmd (readRequest 1024) { base := 0x100, size := 40960 }).lba 1024 partHd u)
      (fun _ _ => False) partHd :=
  (hdRdwt_moves_iff (readRequest_partHd (by decide) (by decide))).mpr (by decide)

/-- One sector is announced for a chunk of 257, and the driver waits for the second one for ever. -/
theorem not_hdRdwt_moves_partHd :
    DiskRequest partHd (readRequest (257 * 512)) taskFs { base := 0x100, size := 40960 } (257 * 512) ∧
      ¬wp (hdRdwt (readRequest (257 * 512)))
        (fun _ u => Moves (readRequest (257 * 512)) { base := 0x100, size := 40960 }
          (ldtSegLinear (partHd.procTable taskFs) indexLdtRw + (readRequest (257 * 512)).buf)
          (rdwtCmd (readRequest (257 * 512)) { base := 0x100, size := 40960 }).lba (257 * 512) partHd u)
        (fun _ _ => False) partHd := by
  have h := readRequest_partHd (show 0 < 257 * 512 by decide) (by decide)
  refine ⟨h, fun hw => ?_⟩
  exact (hw.and (h.not_hdRdwt (by decide))).elim (fun _ _ hf => hf.2) fun _ _ hf => hf.1

end Dlos
