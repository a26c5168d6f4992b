import Dlos.Kernel.HdTransfer

/-!
# Partition discovery

The first boot record of the drive has four entries. An entry that is extended is the start of a chain of
boot records: each describes one partition in its first entry, and says in its second entry where the next
record is, counted from the start of the chain. A chain may have any records in it, and may be cyclic.
-/

namespace Dlos

open Program Bytes

/-! ## Boot records -/

/-- The sector of the drive that an address means; a command holds 28 bits of it. -/
def lbaOf (a : BitVec 32) : Nat := a.toNat % 2 ^ 28

/-- Entry `i` of the boot record at address `a`. -/
def bootEnt (disk : Store) (a : BitVec 32) (i : Fin nrPartPerDrive) : PartEnt :=
  partEnt disk (sectorSize * lbaOf a) i

/-- The address of record `k` of the chain that starts at address `e`. -/
def chainAddr (disk : Store) (e : BitVec 32) : Nat → BitVec 32
  | 0 => e
  | k + 1 => e + (bootEnt disk (chainAddr disk e k) 1).startSect

/-- The chain has a record `k`: no record before it is the last one. -/
def InChain (disk : Store) (e : BitVec 32) (k : Nat) : Prop :=
  ∀ j < k, (bootEnt disk (chainAddr disk e j) 1).sysId ≠ noPart

instance {disk : Store} {e : BitVec 32} {k : Nat} : Decidable (InChain disk e k) :=
  inferInstanceAs (Decidable (∀ j < k, (bootEnt disk (chainAddr disk e j) 1).sysId ≠ noPart))

/-- The partition that record `k` of a chain describes. -/
def subPart (disk : Store) (e : BitVec 32) (k : Nat) : PartInfo where
  base := chainAddr disk e k + (bootEnt disk (chainAddr disk e k) 0).startSect
  size := (bootEnt disk (chainAddr disk e k) 0).nrSects

/-- The sectors of the records from record `k` on, `n` of them at most. -/
def chainSectors (disk : Store) (e : BitVec 32) (k n : Nat) : List Nat :=
  ((List.range' k n).filter (InChain disk e ·)).map fun j => lbaOf (chainAddr disk e j)

/-- The slot of partition `k` of extended partition `i`. -/
def subSlot (i : Fin nrPartPerDrive) (k : Fin nrSubPerPart) : Fin nrSubPerDrive :=
  ⟨nrSubPerPart * i.val + k.val, by
    have := i.isLt
    have := k.isLt
    simp only [nrSubPerDrive, nrSubPerPart, nrPartPerDrive] at *
    omega⟩

/-- Entry `i` of the first boot record of the drive. -/
abbrev mbrEnt (disk : Store) (i : Fin nrPartPerDrive) : PartEnt := bootEnt disk 0 i

/-- The partition that it describes. -/
def mbrPart (disk : Store) (i : Fin nrPartPerDrive) : PartInfo where
  base := (mbrEnt disk i).startSect
  size := (mbrEnt disk i).nrSects

section

variable {disk : Store} {e a : BitVec 32} {k n : Nat} {s u v : Hd} {E : Halt → Hd → Prop}
  {i j : Fin nrPartPerDrive}

theorem inChain_zero : InChain disk e 0 := fun _ hj => absurd hj (Nat.not_lt_zero _)

theorem inChain_succ : InChain disk e (k + 1) ↔
    InChain disk e k ∧ (bootEnt disk (chainAddr disk e k) 1).sysId ≠ noPart := by
  constructor
  · intro h
    exact ⟨fun j hj => h j (Nat.lt_succ_of_lt hj), h k (Nat.lt_succ_self k)⟩
  · rintro ⟨h, hk⟩ j hj
    rcases Nat.lt_succ_iff_lt_or_eq.mp hj with hlt | rfl
    · exact h j hlt
    · exact hk

theorem InChain.mono {j : Nat} (h : InChain disk e k) (hjk : j ≤ k) : InChain disk e j :=
  fun i hi => h i (hi.trans_le hjk)

theorem subSlot_injective {k k' : Fin nrSubPerPart} (h : subSlot i k = subSlot j k') :
    i = j ∧ k = k' := by
  have hval : nrSubPerPart * i.val + k.val = nrSubPerPart * j.val + k'.val := congrArg Fin.val h
  have := k.isLt
  have := k'.isLt
  simp only [nrSubPerPart] at *
  constructor <;> ext <;> omega

/-- The sectors from record `k` on, when the chain ends there and when it does not. -/
theorem chainSectors_last (h : InChain disk e k)
    (hlast : (bootEnt disk (chainAddr disk e k) 1).sysId = noPart) :
    chainSectors disk e k (n + 1) = [lbaOf (chainAddr disk e k)] := by
  have hrest : (List.range' (k + 1) n).filter (InChain disk e ·) = [] := by
    rw [List.filter_eq_nil_iff]
    intro j hj hin
    have hle : k + 1 ≤ j := (List.mem_range'_1.mp hj).1
    exact (inChain_succ.mp ((of_decide_eq_true hin).mono hle)).2 hlast
  rw [chainSectors, List.range'_succ, List.filter_cons, if_pos (decide_eq_true h), hrest]
  rfl

theorem chainSectors_succ (h : InChain disk e k) : chainSectors disk e k (n + 1) =
    lbaOf (chainAddr disk e k) :: chainSectors disk e (k + 1) n := by
  rw [chainSectors, List.range'_succ, List.filter_cons, if_pos (decide_eq_true h)]
  rfl

/-! ## Reading a record -/

theorem partEnt_blit {hdbuf : Store} {d : Nat} :
    partEnt (blit hdbuf 0 disk d sectorSize) 0 i = partEnt disk d i := by
  have hi := i.isLt
  simp only [partEnt, partitionTableOffset, sectorSize, nrPartPerDrive] at hi ⊢
  rw [blit_of_mem (by omega) (by omega), word_blit (by omega) (by omega),
    word_blit (by omega) (by omega)]
  simp only [Nat.sub_zero, Nat.zero_add, Nat.add_assoc]

/-- What reading records changes: the commands, the sector buffer and the drive's progress. -/
structure Reads (sectors : List Nat) (s u : Hd) : Prop where
  cmds : u.cmds.map HdCmd.lba = sectors.reverse ++ s.cmds.map HdCmd.lba
  disk : u.disk = s.disk
  mem : u.mem = s.mem
  procTable : u.procTable = s.procTable
  transfers : u.transfers = s.transfers

theorem Reads.rfl' : Reads [] s s := ⟨rfl, rfl, rfl, rfl, rfl⟩

theorem Reads.trans {l l' : List Nat} (h : Reads l s v) (h' : Reads l' v u) : Reads (l ++ l') s u where
  cmds := by rw [h'.cmds, h.cmds, List.reverse_append, List.append_assoc]
  disk := h'.disk.trans h.disk
  mem := h'.mem.trans h.mem
  procTable := h'.procTable.trans h.procTable
  transfers := h'.transfers.trans h.transfers

theorem wp_getPartTable : wp (getPartTable 0 a)
    (fun t u => t = bootEnt s.disk a ∧ u.hdInfo = s.hdInfo ∧ Reads [lbaOf a] s u) E s := by
  have hlba : (lbaCmd 0 a 1 ataRead).lba = lbaOf a := lba_lbaCmd
  rw [getPartTable, wp_bind, hdCmdOut, wp_modify, wp_bind, wp_interruptWait]
  refine ⟨fun _ => ?_, fun hintr => absurd rfl hintr⟩
  rw [wp_bind, portRead, wp_modify, wp_bind, wp_get, wp_pure]
  refine ⟨funext fun i => ?_, rfl, ?_, rfl, rfl, rfl, rfl⟩
  · rw [bootEnt, ← hlba]
    exact partEnt_blit
  · rw [← hlba]
    rfl

/-! ## A chain -/

def Hd.putLogical (s : Hd) (x : Fin nrSubPerDrive) (part : PartInfo) : Hd :=
  { s with hdInfo := { s.hdInfo with logical := Function.update s.hdInfo.logical x part } }

def Hd.putPrimary (s : Hd) (x : Fin nrPrimPerDrive) (part : PartInfo) : Hd :=
  { s with hdInfo := { s.hdInfo with primary := Function.update s.hdInfo.primary x part } }

theorem Reads.putLogical {l : List Nat} {x : Fin nrSubPerDrive} {part : PartInfo} (h : Reads l s u) :
    Reads l s (u.putLogical x part) := ⟨h.cmds, h.disk, h.mem, h.procTable, h.transfers⟩

theorem Reads.putPrimary {l : List Nat} {x : Fin nrPrimPerDrive} {part : PartInfo} (h : Reads l s u) :
    Reads l s (u.putPrimary x part) := ⟨h.cmds, h.disk, h.mem, h.procTable, h.transfers⟩

theorem wp_setLogical {y : Int} {x : Fin nrSubPerDrive} {part : PartInfo} {Q : Unit → Hd → Prop}
    (hy : y = (x.val : Int)) : wp (setLogical y part) Q E s ↔ Q () (s.putLogical x part) := by
  subst hy
  have hx : 0 ≤ (x.val : Int) ∧ (x.val : Int) < (nrSubPerDrive : Nat) :=
    ⟨Int.natCast_nonneg _, Int.ofNat_lt.mpr x.isLt⟩
  rw [setLogical, wp_bind, logicalIndex, dif_pos hx, wp_pure, wp_modify]
  rfl

theorem wp_primaryIndex {y : Int} {x : Fin nrPrimPerDrive} {Q : Fin nrPrimPerDrive → Hd → Prop}
    (hy : y = (x.val : Int)) : wp (primaryIndex y) Q E s ↔ Q x s := by
  subst hy
  have hx : 0 ≤ (x.val : Int) ∧ (x.val : Int) < (nrPrimPerDrive : Nat) :=
    ⟨Int.natCast_nonneg _, Int.ofNat_lt.mpr x.isLt⟩
  rw [primaryIndex, dif_pos hx, wp_pure]
  rfl

theorem wp_setPrimary {y : Int} {x : Fin nrPrimPerDrive} {part : PartInfo} {Q : Unit → Hd → Prop}
    (hy : y = (x.val : Int)) : wp (setPrimary y part) Q E s ↔ Q () (s.putPrimary x part) := by
  rw [setPrimary, wp_bind, wp_primaryIndex hy, wp_modify]
  rfl

/-- What the records of a chain from record `k` on leave. -/
structure ChainRead (i : Fin nrPartPerDrive) (e : BitVec 32) (k : Nat) (s u : Hd) : Prop where
  reads : Reads (chainSectors s.disk e k (nrSubPerPart - k)) s u
  primary : u.hdInfo.primary = s.hdInfo.primary
  logical : ∀ x : Fin nrSubPerPart, k ≤ x.val → InChain s.disk e x.val →
    u.hdInfo.logical (subSlot i x) = subPart s.disk e x.val
  frame : ∀ y, (∀ x : Fin nrSubPerPart, k ≤ x.val → InChain s.disk e x.val → y ≠ subSlot i x) →
    u.hdInfo.logical y = s.hdInfo.logical y

/-- The last record of a chain. -/
theorem ChainRead.last (hk : k < nrSubPerPart) (hin : InChain s.disk e k)
    (hlast : (bootEnt s.disk (chainAddr s.disk e k) 1).sysId = noPart)
    (hreads : Reads [lbaOf (chainAddr s.disk e k)] s u) (hprimary : u.hdInfo.primary = s.hdInfo.primary)
    (hlogical : u.hdInfo.logical =
      Function.update s.hdInfo.logical (subSlot i ⟨k, hk⟩) (subPart s.disk e k)) :
    ChainRead i e k s u := by
  obtain ⟨m, hm⟩ : ∃ m, nrSubPerPart - k = m + 1 := ⟨nrSubPerPart - k - 1, by omega⟩
  refine ⟨?_, hprimary, fun x hx hxin => ?_, fun y hy => ?_⟩
  · rw [hm, chainSectors_last hin hlast]
    exact hreads
  · have hxk : x.val = k := by
      by_contra hne
      exact (inChain_succ.mp (hxin.mono (by omega : k + 1 ≤ x.val))).2 hlast
    subst hxk
    rw [hlogical, Function.update_self]
  · rw [hlogical, Function.update_of_ne (hy ⟨k, hk⟩ le_rfl hin)]

/-- A record before others. -/
theorem ChainRead.cons (hk : k < nrSubPerPart) (hin : InChain s.disk e k)
    (hreads : Reads [lbaOf (chainAddr s.disk e k)] s v) (hprimary : v.hdInfo.primary = s.hdInfo.primary)
    (hlogical : v.hdInfo.logical =
      Function.update s.hdInfo.logical (subSlot i ⟨k, hk⟩) (subPart s.disk e k))
    (h : ChainRead i e (k + 1) v u) : ChainRead i e k s u := by
  obtain ⟨m, hm⟩ : ∃ m, nrSubPerPart - k = m + 1 := ⟨nrSubPerPart - k - 1, by omega⟩
  obtain ⟨hureads, huprimary, hulogical, huframe⟩ := h
  rw [hreads.disk] at hureads hulogical huframe
  refine ⟨?_, huprimary.trans hprimary, fun x hx hxin => ?_, fun y hy => ?_⟩
  · rw [hm, chainSectors_succ hin, show m = nrSubPerPart - (k + 1) by omega]
    exact hreads.trans hureads
  · rcases hx.lt_or_eq with hlt | rfl
    · exact hulogical x hlt hxin
    · rw [huframe _ fun z hz _ heq => by have := (subSlot_injective heq).2; omega, hlogical,
        Function.update_self]
  · rw [huframe y fun x hx hxin => hy x (by omega) hxin, hlogical,
      Function.update_of_ne (hy ⟨k, hk⟩ le_rfl hin)]

/-- The loop follows a chain to its last record, or to as many records as there are slots. -/
theorem wp_extLoop (hn : k + n = nrSubPerPart) (hin : n ≠ 0 → InChain s.disk e k) :
    wp (extLoop 0 e ((i.val : Int) * (nrSubPerPart : Nat)) n k (chainAddr s.disk e k))
      (fun _ u => ChainRead i e k s u) E s := by
  induction n generalizing k s with
  | zero =>
    have hk : k = nrSubPerPart := hn
    rw [extLoop, wp_pure]
    refine ⟨?_, rfl, fun x hx => ?_, fun _ _ => rfl⟩
    · rw [hk, Nat.sub_self]
      exact ⟨rfl, rfl, rfl, rfl, rfl⟩
    · have := x.isLt
      omega
  | succ n ih =>
    have hk : k < nrSubPerPart := by omega
    have hin' := hin n.succ_ne_zero
    have hslot : (i.val : Int) * (nrSubPerPart : Nat) + (k : Nat) =
        ((subSlot i ⟨k, hk⟩).val : Int) := by
      simp only [subSlot, nrSubPerPart]
      omega
    rw [extLoop, wp_bind]
    refine wp_getPartTable.mono (fun t v hv => ?_) fun _ _ h => h
    obtain ⟨rfl, hinfo, hreads⟩ := hv
    rw [wp_bind, wp_setLogical hslot]
    change wp _ _ E (v.putLogical (subSlot i ⟨k, hk⟩) (subPart s.disk e k))
    obtain ⟨w, hw⟩ : ∃ w, w = v.putLogical (subSlot i ⟨k, hk⟩) (subPart s.disk e k) := ⟨_, rfl⟩
    have hwreads : Reads [lbaOf (chainAddr s.disk e k)] s w := hw ▸ hreads.putLogical
    have hprimary : w.hdInfo.primary = s.hdInfo.primary := by
      rw [hw, ← hinfo]
      rfl
    have hlogical : w.hdInfo.logical =
        Function.update s.hdInfo.logical (subSlot i ⟨k, hk⟩) (subPart s.disk e k) := by
      rw [hw, ← hinfo]
      rfl
    rw [← hw]
    by_cases hlast : (bootEnt s.disk (chainAddr s.disk e k) 1).sysId = noPart
    · rw [if_pos hlast, wp_pure]
      exact .last hk hin' hlast hwreads hprimary hlogical
    · have hnext : e + (bootEnt s.disk (chainAddr s.disk e k) 1).startSect =
          chainAddr w.disk e (k + 1) := by
        rw [hwreads.disk]
        rfl
      have hin'' : InChain w.disk e (k + 1) := by
        rw [hwreads.disk]
        exact inChain_succ.mpr ⟨hin', hlast⟩
      rw [if_neg hlast, hnext]
      exact (ih (by omega) fun _ => hin'').mono
        (fun _ u hu => .cons hk hin' hwreads hprimary hlogical hu) fun _ _ h => h

theorem wp_partitionExtended : wp (partitionExtended (0 + ((i.val : Int) + 1)))
    (fun _ u => ChainRead i (s.hdInfo.primary i.succ).base 0 s u) E s := by
  have hdrv : ∀ i : Fin nrPartPerDrive, drvOfDev (0 + ((i.val : Int) + 1)) = 0 := by decide
  have hj : ∀ i : Fin nrPartPerDrive,
      (0 + ((i.val : Int) + 1)).tmod (nrPrimPerDrive : Nat) = (i.succ.val : Int) := by decide
  have hsub : (i.succ.val : Int) - 1 = i.val := by
    rw [Fin.val_succ]
    omega
  rw [partitionExtended, hdrv i, wp_bind, oneDrive, if_neg (by decide), wp_pure, hj i, wp_bind,
    wp_primaryIndex rfl, wp_bind, wp_get, hsub]
  exact wp_extLoop (by rfl) fun _ => inChain_zero

/-! ## The first record -/

/-- The entries `l` of the first boot record are in the tables `t'`, with the chains of those that are
extended, and nothing else in them has changed. -/
structure Discovered (disk : Store) (l : List (Fin nrPartPerDrive)) (t t' : HdInfo) : Prop where
  primary : ∀ i ∈ l, (mbrEnt disk i).sysId ≠ noPart → t'.primary i.succ = mbrPart disk i
  primary_frame : ∀ y, (∀ i ∈ l, (mbrEnt disk i).sysId ≠ noPart → y ≠ i.succ) →
    t'.primary y = t.primary y
  logical : ∀ i ∈ l, (mbrEnt disk i).sysId = extPart → ∀ k : Fin nrSubPerPart,
    InChain disk (mbrEnt disk i).startSect k.val →
      t'.logical (subSlot i k) = subPart disk (mbrEnt disk i).startSect k.val
  logical_frame : ∀ y, (∀ i ∈ l, (mbrEnt disk i).sysId = extPart → ∀ k : Fin nrSubPerPart,
    InChain disk (mbrEnt disk i).startSect k.val → y ≠ subSlot i k) → t'.logical y = t.logical y

/-- The sectors that the entries `l` of the first boot record lead to. -/
def extSectors (disk : Store) (l : List (Fin nrPartPerDrive)) : List Nat :=
  l.flatMap fun i => if (mbrEnt disk i).sysId = extPart then
    chainSectors disk (mbrEnt disk i).startSect 0 nrSubPerPart else []

section

variable {l : List (Fin nrPartPerDrive)} {t t₁ t' : HdInfo}

namespace Discovered

theorem nil : Discovered disk [] t t :=
  ⟨fun _ hi => absurd hi List.not_mem_nil, fun _ _ => rfl, fun _ hi => absurd hi List.not_mem_nil,
    fun _ _ => rfl⟩

/-- The entries are in different slots, and so are the records of different chains. -/
theorem cons (h : Discovered disk [i] t t₁) (hi : i ∉ l) (h' : Discovered disk l t₁ t') :
    Discovered disk (i :: l) t t' := by
  have hne {j : Fin nrPartPerDrive} (hj : j ∈ l) : i ≠ j := fun heq => hi (heq ▸ hj)
  refine ⟨fun j hj hpart => ?_, fun y hy => ?_, fun j hj hext k hk => ?_, fun y hy => ?_⟩
  · rcases List.mem_cons.mp hj with rfl | hj
    · rw [h'.primary_frame _ fun j hj _ heq => hne hj (Fin.succ_injective _ heq)]
      exact h.primary _ (List.mem_singleton_self _) hpart
    · exact h'.primary j hj hpart
  · rw [h'.primary_frame y fun j hj => hy j (List.mem_cons_of_mem _ hj)]
    exact h.primary_frame y fun j hj => hy j (List.mem_singleton.mp hj ▸ List.mem_cons_self)
  · rcases List.mem_cons.mp hj with rfl | hj
    · rw [h'.logical_frame _ fun j hj _ k' _ heq => hne hj (subSlot_injective heq).1]
      exact h.logical _ (List.mem_singleton_self _) hext k hk
    · exact h'.logical j hj hext k hk
  · rw [h'.logical_frame y fun j hj => hy j (List.mem_cons_of_mem _ hj)]
    exact h.logical_frame y fun j hj => hy j (List.mem_singleton.mp hj ▸ List.mem_cons_self)

/-- An empty entry. -/
theorem empty (hpart : (mbrEnt disk i).sysId = noPart) : Discovered disk [i] t t := by
  refine ⟨fun j hj h => ?_, fun _ _ => rfl, fun j hj h => ?_, fun _ _ => rfl⟩
  · rw [List.mem_singleton.mp hj] at h
    exact absurd hpart h
  · rw [List.mem_singleton.mp hj, hpart] at h
    exact absurd h (by decide)

/-- An entry of another kind. -/
theorem plain (hpart : (mbrEnt disk i).sysId ≠ noPart) (hext : (mbrEnt disk i).sysId ≠ extPart) :
    Discovered disk [i] t { t with primary := Function.update t.primary i.succ (mbrPart disk i) } := by
  refine ⟨fun j hj _ => ?_, fun y hy => ?_, fun j hj h => ?_, fun _ _ => rfl⟩
  · rw [List.mem_singleton.mp hj]
    exact Function.update_self ..
  · exact Function.update_of_ne (hy i (List.mem_singleton_self i) hpart) ..
  · rw [List.mem_singleton.mp hj] at h
    exact absurd h hext

/-- An extended entry. -/
theorem extended (hext : (mbrEnt s.disk i).sysId = extPart)
    (h : ChainRead i (mbrEnt s.disk i).startSect 0 (s.putPrimary i.succ (mbrPart s.disk i)) u) :
    Discovered s.disk [i] s.hdInfo u.hdInfo := by
  have hpart : (mbrEnt s.disk i).sysId ≠ noPart := by
    rw [hext]
    decide
  refine ⟨fun j hj _ => ?_, fun y hy => ?_, fun j hj _ k hk => ?_, fun y hy => ?_⟩
  · rw [List.mem_singleton.mp hj, h.primary]
    exact Function.update_self ..
  · rw [h.primary]
    exact Function.update_of_ne (hy i (List.mem_singleton_self i) hpart) ..
  · rw [List.mem_singleton.mp hj] at hk ⊢
    exact h.logical k (Nat.zero_le _) hk
  · exact h.frame y fun k _ hk => hy i (List.mem_singleton_self i) hext k hk

end Discovered

theorem extSectors_cons : extSectors disk (i :: l) = (if (mbrEnt disk i).sysId = extPart then
    chainSectors disk (mbrEnt disk i).startSect 0 nrSubPerPart else []) ++ extSectors disk l := rfl

/-- The loop puts the entries in the tables and counts those that are not empty. -/
theorem wp_primLoop {count : Int} (hl : l.Nodup) :
    wp (primLoop 0 (mbrEnt s.disk) l count) (fun r u => Discovered s.disk l s.hdInfo u.hdInfo ∧
      Reads (extSectors s.disk l) s u ∧
      r = count + (l.countP fun i => (mbrEnt s.disk i).sysId ≠ noPart)) E s := by
  induction l generalizing s count with
  | nil =>
    rw [primLoop, wp_pure]
    exact ⟨.nil, .rfl', (Int.add_zero count).symm⟩
  | cons i l ih =>
    obtain ⟨hi, hl⟩ := List.nodup_cons.mp hl
    rw [primLoop, extSectors_cons]
    by_cases hpart : (mbrEnt s.disk i).sysId = noPart
    · have hext : (mbrEnt s.disk i).sysId ≠ extPart := by
        rw [hpart]
        decide
      rw [if_pos hpart, if_neg hext, List.countP_cons_of_neg (by simpa using hpart)]
      exact (ih hl).mono (fun r u hu => ⟨.cons (.empty hpart) hi hu.1, hu.2⟩) fun _ _ h => h
    · have hrest {v : Hd} {sectors : List Nat} (hv : Discovered s.disk [i] s.hdInfo v.hdInfo)
          (hreads : Reads sectors s v) : wp (primLoop 0 (mbrEnt s.disk) l (count + 1))
            (fun r u => Discovered s.disk (i :: l) s.hdInfo u.hdInfo ∧
              Reads (sectors ++ extSectors s.disk l) s u ∧
              r = count + ((i :: l).countP fun i => (mbrEnt s.disk i).sysId ≠ noPart)) E v := by
        have hcount : (i :: l).countP (fun i => (mbrEnt s.disk i).sysId ≠ noPart) =
            l.countP (fun i => (mbrEnt s.disk i).sysId ≠ noPart) + 1 :=
          List.countP_cons_of_pos (by simpa using hpart)
        rw [hcount, ← hreads.disk] at *
        refine (ih hl).mono (fun r u hu => ⟨.cons hv hi hu.1, hreads.trans hu.2.1, ?_⟩) fun _ _ h => h
        rw [hu.2.2]
        omega
      have hslot : (i.val : Int) + 1 = (i.succ.val : Int) := rfl
      have hset : (s.putPrimary i.succ (mbrPart s.disk i)).hdInfo.primary i.succ = mbrPart s.disk i :=
        Function.update_self ..
      rw [if_neg hpart, wp_bind, wp_setPrimary hslot, wp_bind, wp_onlyIf]
      change (_ → wp _ _ E (s.putPrimary i.succ (mbrPart s.disk i))) ∧ (_ → wp _ _ E _)
      refine ⟨fun hext => ?_, fun hext => ?_⟩
      · have hchain : wp (partitionExtended (0 + ((i.val : Int) + 1)))
            (fun _ u => ChainRead i (mbrEnt s.disk i).startSect 0
              (s.putPrimary i.succ (mbrPart s.disk i)) u) E (s.putPrimary i.succ (mbrPart s.disk i)) := by
          have hread := wp_partitionExtended (s := s.putPrimary i.succ (mbrPart s.disk i)) (E := E) (i := i)
          rwa [hset] at hread
        rw [if_pos hext]
        exact hchain.mono (fun _ v hv => hrest (.extended hext hv) (Reads.rfl'.putPrimary.trans hv.reads))
          fun _ _ h => h
      · rw [if_neg hext]
        exact hrest (.plain hpart hext) Reads.rfl'.putPrimary

/-- Partition discovery ends with the partitions of the first boot record and of the chains in the
tables. -/
theorem partitionPrimary_discovered (h : ∃ i, (mbrEnt s.disk i).sysId ≠ noPart) :
    wp (partitionPrimary 0) (fun _ u =>
      Discovered s.disk (List.finRange nrPartPerDrive) s.hdInfo u.hdInfo ∧
      Reads (0 :: extSectors s.disk (List.finRange nrPartPerDrive)) s u) (fun _ _ => False) s := by
  rw [partitionPrimary, show drvOfDev 0 = 0 from rfl, wp_bind, oneDrive, if_neg (by decide), wp_pure,
    wp_bind]
  refine wp_getPartTable.mono (fun t v hv => ?_) fun _ _ h => h
  obtain ⟨rfl, hinfo, hreads⟩ := hv
  have hcount : 0 < (List.finRange nrPartPerDrive).countP fun i => (mbrEnt v.disk i).sysId ≠ noPart := by
    obtain ⟨i, hi⟩ := h
    rw [hreads.disk]
    exact List.countP_pos_iff.mpr ⟨i, List.mem_finRange i, decide_eq_true hi⟩
  rw [wp_bind, ← hreads.disk, ← hinfo]
  refine (wp_primLoop (List.nodup_finRange _)).mono (fun r u hu => ?_) fun _ _ h => h
  obtain ⟨hdiscovered, hu, rfl⟩ := hu
  rw [wp_assert_of (by omega)]
  exact ⟨hdiscovered, hreads.trans hu⟩

end

end

/-- A drive whose first partition is extended and starts at sector `start`, where `sector` says what is
in the entries of sector 1. -/
def extendedHd (start : BitVec 32) (sector : Store) : Hd := { partHd with
  disk := fun x => if x = 0x1C2 then 5 else
    putWords (fun y => if 512 ≤ y ∧ y < 1024 then sector (y - 512) else 0) 0x1C6 [start] x }

/-- In sector 1 a partition of 7 sectors starts after 63 sectors, and the next record is sector 1. -/
def cyclicSector : Store := fun x =>
  if x = 0x1C6 then 63 else if x = 0x1CA then 7 else if x = 0x1D2 then 5 else 0

/-- A cyclic chain fills the slots of its entry. -/
theorem partitionPrimary_cyclic : ∃ u, partitionPrimary 0 (extendedHd 1 cyclicSector) = .ok () u ∧
    ∀ k, u.hdInfo.logical (subSlot 0 k) = { base := 64, size := 7 } := by
  have hsys : (mbrEnt (extendedHd 1 cyclicSector).disk 0).sysId = extPart := by decide +kernel
  have hchain : ∀ k : Fin nrSubPerPart, InChain (extendedHd 1 cyclicSector).disk
      (mbrEnt (extendedHd 1 cyclicSector).disk 0).startSect k.val := by decide +kernel
  have hpart : ∀ k : Fin nrSubPerPart, subPart (extendedHd 1 cyclicSector).disk
      (mbrEnt (extendedHd 1 cyclicSector).disk 0).startSect k.val = { base := 64, size := 7 } := by
    decide +kernel
  have hfirst : ∃ i, (mbrEnt (extendedHd 1 cyclicSector).disk i).sysId ≠ noPart :=
    ⟨0, by decide +kernel⟩
  generalize extendedHd 1 cyclicSector = s at hsys hchain hpart hfirst ⊢
  obtain ⟨_, u, hu, hdiscovered, -⟩ := (partitionPrimary_discovered hfirst).exists_ok
  refine ⟨u, hu, fun k => ?_⟩
  rw [hdiscovered.logical 0 (List.mem_finRange 0) hsys k (hchain k), hpart k]

/-- Of a chain that starts at sector 2 ^ 28 + 1, sector 1 is read. -/
theorem not_partitionPrimary_far :
    (mbrEnt (extendedHd 0x10000001 cyclicSector).disk 0).sysId = extPart ∧
    (mbrEnt (extendedHd 0x10000001 cyclicSector).disk 0).startSect = 0x10000001 ∧
    wp (partitionPrimary 0) (fun _ u => 0x10000001 ∉ u.cmds.map HdCmd.lba ∧
        (u.hdInfo.logical (subSlot 0 0)).size ≠
          (partEnt (extendedHd 0x10000001 cyclicSector).disk (sectorSize * 0x10000001) 0).nrSects)
      (fun _ _ => False) (extendedHd 0x10000001 cyclicSector) := by
  decide +kernel

end Dlos
