import Mathlib.Order.Interval.Finset.Nat
import Dlos.Library.Tiles
import Dlos.Fs.Log
import Dlos.Fs.Removal

/-!
# Who owns the sectors

A set bit of the sector map has one owner: the reserved bit, the root directory, a regular file whose
inode is in use, or the log. `Volume` says that of the tables on the disk, and each of the operations on
them keeps it.
-/

namespace Dlos

open Program Bytes Slot

/-! ## Owners -/

inductive SectOwner
  /-- Bit 0, which stands for no sector. -/
  | reserved
  | inode (m : Nat)
  | log
  deriving DecidableEq

/-- The bit of an inode's first sector, as `do_unlink` computes it. -/
def Record.firstBit (size : BitVec 32) (r : Record) : Nat :=
  (r.start - (rootSuper size).n1stSect + 1).toNat

/-- Inode `m` is in use and has sectors: it is the root directory or a regular file. -/
structure DiskTables.Live (T : DiskTables) (m : Nat) : Prop where
  imap : T.imap m = true
  file : m = 1 ∨ 2 ≤ m ∧ (T.record m).mode = iRegular

def DiskTables.owns (T : DiskTables) (logged : Prop) : SectOwner → Prop
  | .reserved => True
  | .inode m => T.Live m
  | .log => logged

/-- The bits from `b` on, `cnt` of them. -/
def bitRange (b cnt : Nat) : Set Nat := {x | b ≤ x ∧ x < b + cnt}

def DiskTables.firstBit (size : BitVec 32) (T : DiskTables) : SectOwner → Nat
  | .reserved => 0
  | .inode m => (T.record m).firstBit size
  | .log => logSect size

def DiskTables.bitCount (T : DiskTables) : SectOwner → Nat
  | .reserved => 1
  | .inode m => (T.record m).sects.toNat
  | .log => nrSectsForLog

/-- The bits of an owner. -/
def DiskTables.extent (size : BitVec 32) (T : DiskTables) (o : SectOwner) : Set Nat :=
  bitRange (T.firstBit size o) (T.bitCount o)

/-- The set bits of the sector map are divided among their owners, and the bits of a regular file are
`NR_DEFAULT_FILE_SECTS` bits of the map. -/
structure Volume (size : BitVec 32) (T : DiskTables) (logged : Prop) : Prop where
  reserved : T.imap 0 = true
  root : T.imap 1 = true
  rootMap : (T.record 1).InMap size 1 nrDefaultFileSects
  inMap : ∀ m, 2 ≤ m → T.imap m = true → (T.record m).mode = iRegular →
    ∃ b, (T.record m).InMap size b nrDefaultFileSects
  imap_lt : ∀ m, T.imap m = true → m < 4096
  tiles : Tiles {b | T.smap b = true} {o | T.owns logged o} (T.extent size)

section

variable {size : BitVec 32} {T T' : DiskTables} {logged : Prop} {r : Record} {b cnt m x : Nat}

theorem mem_bitRange : x ∈ bitRange b cnt ↔ b ≤ x ∧ x < b + cnt := Iff.rfl

theorem Record.InMap.firstBit (h : r.InMap size b cnt) : r.firstBit size = b := by
  have hlt := h.lt
  rw [Record.firstBit, h.start, bitSect, BitVec.add_sub_cancel, BitVec.sub_add_cancel, BitVec.toNat_ofNat,
    Nat.mod_eq_of_lt (by omega)]

theorem Record.InMap.toNat_sects (h : r.InMap size b cnt) : r.sects.toNat = cnt := by
  have hcnt := h.cnt
  rw [h.sects, BitVec.toNat_ofNat, Nat.mod_eq_of_lt (by omega)]

theorem extent_inode (h : (T.record m).InMap size b cnt) :
    T.extent size (.inode m) = bitRange b cnt := by
  rw [DiskTables.extent, DiskTables.firstBit, DiskTables.bitCount, h.firstBit, h.toNat_sects]

namespace Volume

theorem live_root (h : Volume size T logged) : T.Live 1 := ⟨h.root, .inl rfl⟩

/-- The bits of a live inode are set. -/
theorem set_of_live (h : Volume size T logged) (hm : T.Live m) (hin : (T.record m).InMap size b cnt)
    (hx : x ∈ bitRange b cnt) : T.smap x = true :=
  h.tiles.subset (i := .inode m) hm (extent_inode hin ▸ hx)

theorem smap_zero (h : Volume size T logged) : T.smap 0 = true := by
  have howner : SectOwner.reserved ∈ {o | T.owns logged o} := trivial
  exact h.tiles.subset howner (mem_bitRange.mpr ⟨Nat.le_refl 0, Nat.one_pos⟩)

/-- An owner has `NR_DEFAULT_FILE_SECTS` bits at most. -/
theorem bitCount_le (h : Volume size T logged) {o : SectOwner} (ho : T.owns logged o) :
    T.bitCount o ≤ 2048 := by
  cases o with
  | reserved => exact Nat.le_add_left 1 2047
  | log => exact Nat.le_refl 2048
  | inode m =>
    have hlive : T.Live m := ho
    obtain ⟨b, hin⟩ : ∃ b, (T.record m).InMap size b nrDefaultFileSects := by
      rcases hlive.file with rfl | ⟨hm, hmode⟩
      · exact ⟨1, h.rootMap⟩
      · exact h.inMap m hm hlive.imap hmode
    exact hin.toNat_sects.le

/-- The bits that are not those of the directory come behind it. -/
theorem low_set (h : Volume size T logged) (hx : x < 2049) : T.smap x = true := by
  by_cases h0 : x = 0
  · rw [h0]
    exact h.smap_zero
  · have hsects : nrDefaultFileSects = 2048 := rfl
    exact h.set_of_live h.live_root h.rootMap (mem_bitRange.mpr (by omega))

/-- There are not so many owners that they could fill the map beyond this. -/
theorem full_le (h : Volume size T logged) (hx : ∀ j < x, T.smap j = true) : x ≤ 4098 * 2048 := by
  obtain ⟨t, ht⟩ : ∃ t : Finset SectOwner,
      t = insert .reserved (insert .log ((Finset.range 4096).image .inode)) := ⟨_, rfl⟩
  have hcard : t.card ≤ 4098 := by
    rw [ht]
    have himage : ((Finset.range 4096).image SectOwner.inode).card ≤ 4096 := by
      simpa using Finset.card_image_le (s := Finset.range 4096) (f := SectOwner.inode)
    have hlog := Finset.card_insert_le SectOwner.log ((Finset.range 4096).image .inode)
    have hall := Finset.card_insert_le SectOwner.reserved
      (insert .log ((Finset.range 4096).image SectOwner.inode))
    omega
  have hsub : {o | T.owns logged o} ⊆ (t : Set SectOwner) := by
    intro o ho
    rw [ht]
    cases o with
    | reserved => simp
    | log => simp
    | inode m =>
      have hlt := h.imap_lt m (show T.Live m from ho).imap
      simpa using hlt
  have hle := h.tiles.le_of_subset (m := 2048) (fun j hj => hx j hj) t hsub
    (fun o => Finset.Ico (T.firstBit size o) (T.firstBit size o + 2048)) (fun o ho j hj => ?_)
    fun o _ => by rw [Nat.card_Ico, Nat.add_sub_cancel_left]
  · exact hle.trans (Nat.mul_le_mul_right _ hcard)
  · have hcount := h.bitCount_le ho
    rw [DiskTables.extent, mem_bitRange] at hj
    simp only [Finset.coe_Ico, Set.mem_Ico]
    omega

/-! ### The operations -/

/-- A free inode and clear bits become a file. -/
theorem create (h : Volume size T logged) (hx : T.imap x = false) (hx' : x < 4096)
    (hclear : ∀ j ∈ bitRange b nrDefaultFileSects, T.smap j = false)
    (hin : (T'.record x).InMap size b nrDefaultFileSects) (hmode : (T'.record x).mode = iRegular)
    (himap : T'.imap = Function.update T.imap x true)
    (hsmap : ∀ j, T'.smap j = if b ≤ j ∧ j < b + nrDefaultFileSects then true else T.smap j)
    (hrecord : ∀ m, m ≠ 1 → m ≠ x → T'.record m = T.record m)
    (hroot : (T'.record 1).InMap size 1 nrDefaultFileSects) : Volume size T' logged := by
  have hx0 : x ≠ 0 := by
    rintro rfl
    exact Bool.false_ne_true (hx.symm.trans h.reserved)
  have hx1 : x ≠ 1 := by
    rintro rfl
    exact Bool.false_ne_true (hx.symm.trans h.root)
  have hset (m : Nat) : T'.imap m = true ↔ m = x ∨ T.imap m = true := by
    rw [himap, Function.update_apply]
    split_ifs with hm
    · simp [hm]
    · simp [hm]
  have hlive (m : Nat) : T'.Live m ↔ m = x ∨ T.Live m := by
    constructor
    · intro hm
      by_cases hmx : m = x
      · exact .inl hmx
      · refine .inr ⟨((hset m).mp hm.imap).resolve_left hmx, hm.file.imp_right fun hfile => ⟨hfile.1, ?_⟩⟩
        rw [← hrecord m (by omega) hmx]
        exact hfile.2
    · rintro (rfl | hm)
      · exact ⟨(hset m).mpr (.inl rfl), .inr ⟨by omega, hmode⟩⟩
      · refine ⟨(hset m).mpr (.inr hm.imap), hm.file.imp_right fun hfile => ⟨hfile.1, ?_⟩⟩
        rw [hrecord m (by omega) fun he => Bool.false_ne_true (hx.symm.trans (he ▸ hm.imap))]
        exact hfile.2
  have hext : ∀ o ∈ {o | T.owns logged o}, T'.extent size o = T.extent size o := by
    intro o ho
    cases o with
    | reserved => rfl
    | log => rfl
    | inode m =>
      have hm : T.Live m := ho
      by_cases hm1 : m = 1
      · rw [hm1, extent_inode hroot, extent_inode h.rootMap]
      · have hmx : m ≠ x := fun he => Bool.false_ne_true (hx.symm.trans (he ▸ hm.imap))
        simp only [DiskTables.extent, DiskTables.firstBit, DiskTables.bitCount, hrecord m hm1 hmx]
  have hnew : T'.extent size (.inode x) = bitRange b nrDefaultFileSects := extent_inode hin
  refine ⟨(hset 0).mpr (.inr h.reserved), (hset 1).mpr (.inr h.root), hroot, fun m hm hmap hmode' => ?_,
    fun m hm => ?_, ?_⟩
  · by_cases hmx : m = x
    · exact ⟨b, hmx ▸ hin⟩
    · rw [hrecord m (by omega) hmx] at hmode' ⊢
      exact h.inMap m hm (((hset m).mp hmap).resolve_left hmx) hmode'
  · rcases (hset m).mp hm with rfl | hm
    · exact hx'
    · exact h.imap_lt m hm
  · have hinsert := (h.tiles.congr hext).insert (i := .inode x) (Set.disjoint_left.mpr fun j hj hset' => ?_)
    · rw [hnew] at hinsert
      convert hinsert using 1
      · ext j
        simp only [Set.mem_ofPred_eq, Set.mem_union, hsmap, mem_bitRange]
        split_ifs with hj
        · simp [hj]
        · simp [hj]
      · ext o
        cases o with
        | reserved => simp [DiskTables.owns]
        | log => simp [DiskTables.owns]
        | inode m => simp [DiskTables.owns, hlive m]
    · rw [hnew] at hj
      exact Bool.false_ne_true ((hclear j hj).symm.trans hset')

/-- A file is removed. -/
theorem remove (h : Volume size T logged) (hm : 2 ≤ m) (hset : T.imap m = true)
    (hmode : (T.record m).mode = iRegular) (hin : (T.record m).InMap size b cnt)
    (himap : T'.imap = Function.update T.imap m false)
    (hsmap : ∀ j, T'.smap j = if b ≤ j ∧ j < b + cnt then false else T.smap j)
    (hrecord : ∀ m', m' ≠ 1 → m' ≠ m → T'.record m' = T.record m')
    (hroot : (T'.record 1).InMap size 1 nrDefaultFileSects) : Volume size T' logged := by
  have hlive' : T.Live m := ⟨hset, .inr ⟨hm, hmode⟩⟩
  have hset' (m' : Nat) : T'.imap m' = true ↔ m' ≠ m ∧ T.imap m' = true := by
    rw [himap, Function.update_apply]
    split_ifs with he
    · simp [he]
    · simp [he]
  have hlive (m' : Nat) : T'.Live m' ↔ m' ≠ m ∧ T.Live m' := by
    constructor
    · intro h'
      obtain ⟨hne, hbit⟩ := (hset' m').mp h'.imap
      refine ⟨hne, hbit, h'.file.imp_right fun hfile => ⟨hfile.1, ?_⟩⟩
      rw [← hrecord m' (by omega) hne]
      exact hfile.2
    · rintro ⟨hne, h'⟩
      refine ⟨(hset' m').mpr ⟨hne, h'.imap⟩, h'.file.imp_right fun hfile => ⟨hfile.1, ?_⟩⟩
      rw [hrecord m' (by omega) hne]
      exact hfile.2
  have hext : ∀ o ∈ {o | T.owns logged o} \ {.inode m}, T'.extent size o = T.extent size o := by
    rintro o ⟨ho, hne⟩
    cases o with
    | reserved => rfl
    | log => rfl
    | inode m' =>
      have hne' : m' ≠ m := fun he => hne (by rw [he]; rfl)
      by_cases hm1 : m' = 1
      · rw [hm1, extent_inode hroot, extent_inode h.rootMap]
      · simp only [DiskTables.extent, DiskTables.firstBit, DiskTables.bitCount, hrecord m' hm1 hne']
  refine ⟨(hset' 0).mpr ⟨by omega, h.reserved⟩, (hset' 1).mpr ⟨by omega, h.root⟩, hroot,
    fun m' hm' hmap hmode' => ?_, fun m' hm' => h.imap_lt m' ((hset' m').mp hm').2, ?_⟩
  · obtain ⟨hne, hbit⟩ := (hset' m').mp hmap
    rw [hrecord m' (by omega) hne] at hmode' ⊢
    exact h.inMap m' hm' hbit hmode'
  · have herase := (h.tiles.erase (i := .inode m) hlive').congr hext
    rw [extent_inode hin] at herase
    convert herase using 1
    · ext j
      simp only [Set.mem_ofPred_eq, Set.mem_sdiff, hsmap, mem_bitRange]
      split_ifs with hj
      · simp [hj]
      · simp [hj]
    · ext o
      cases o with
      | reserved => simp [DiskTables.owns]
      | log => simp [DiskTables.owns]
      | inode m' => simp [DiskTables.owns, hlive m', and_comm]

/-- The sizes of the files do not matter. -/
theorem congr (h : Volume size T logged) (himap : T'.imap = T.imap) (hsmap : T'.smap = T.smap)
    (hrecord : ∀ m, (T'.record m).mode = (T.record m).mode ∧ (T'.record m).start = (T.record m).start ∧
      (T'.record m).sects = (T.record m).sects) : Volume size T' logged := by
  have hin {m b cnt : Nat} (hm : (T.record m).InMap size b cnt) : (T'.record m).InMap size b cnt :=
    ⟨(hrecord m).2.1.trans hm.start, (hrecord m).2.2.trans hm.sects, hm.le, hm.lt, hm.cnt⟩
  have hlive (m : Nat) : T'.Live m ↔ T.Live m := by
    constructor
    · exact fun hm => ⟨himap ▸ hm.imap, hm.file.imp_right fun hf => ⟨hf.1, (hrecord m).1 ▸ hf.2⟩⟩
    · exact fun hm => ⟨himap ▸ hm.imap, hm.file.imp_right fun hf => ⟨hf.1, (hrecord m).1.trans hf.2⟩⟩
  have howns : {o | T'.owns logged o} = {o | T.owns logged o} := by
    ext o
    cases o with
    | reserved => rfl
    | log => rfl
    | inode m => exact hlive m
  have hext (o : SectOwner) : T'.extent size o = T.extent size o := by
    cases o with
    | reserved => rfl
    | log => rfl
    | inode m =>
      simp only [DiskTables.extent, DiskTables.firstBit, DiskTables.bitCount, Record.firstBit, (hrecord m).2.1,
        (hrecord m).2.2]
  refine ⟨himap ▸ h.reserved, himap ▸ h.root, hin h.rootMap, fun m hm hmap hmode => ?_,
    fun m hm => h.imap_lt m (himap ▸ hm), ?_⟩
  · rw [himap] at hmap
    rw [(hrecord m).1] at hmode
    obtain ⟨b, hb⟩ := h.inMap m hm hmap hmode
    exact ⟨b, hin hb⟩
  · rw [howns, hsmap]
    exact h.tiles.congr fun o _ => hext o

/-- The log's bits are marked. -/
theorem startLog (h : Volume size T logged)
    (hclear : ∀ j ∈ bitRange (logSect size) nrSectsForLog, T.smap j = false)
    (himap : T'.imap = T.imap) (hrecord : T'.record = T.record)
    (hsmap : ∀ j, T'.smap j =
      if logSect size ≤ j ∧ j < logSect size + nrSectsForLog then true else T.smap j) :
    Volume size T' True := by
  have hlive (m : Nat) : T'.Live m ↔ T.Live m := by
    constructor
    · exact fun hm => ⟨himap ▸ hm.imap, hrecord ▸ hm.file⟩
    · exact fun hm => ⟨himap ▸ hm.imap, hrecord ▸ hm.file⟩
  have hext (o : SectOwner) : T'.extent size o = T.extent size o := by
    cases o with
    | reserved => rfl
    | log => rfl
    | inode m => simp only [DiskTables.extent, DiskTables.firstBit, DiskTables.bitCount, hrecord]
  refine ⟨himap ▸ h.reserved, himap ▸ h.root, hrecord ▸ h.rootMap, fun m hm hmap hmode => ?_,
    fun m hm => h.imap_lt m (himap ▸ hm), ?_⟩
  · rw [hrecord] at hmode ⊢
    exact h.inMap m hm (himap ▸ hmap) hmode
  · have hinsert := (h.tiles.congr fun o _ => hext o).insert (i := .log)
      (Set.disjoint_left.mpr fun j hj hset => ?_)
    · rw [show T'.extent size .log = bitRange (logSect size) nrSectsForLog from rfl] at hinsert
      convert hinsert using 1
      · ext j
        simp only [Set.mem_ofPred_eq, Set.mem_union, hsmap, mem_bitRange]
        split_ifs with hj
        · simp [hj]
        · simp [hj]
      · ext o
        cases o with
        | reserved => simp [DiskTables.owns]
        | log => simp [DiskTables.owns]
        | inode m => simp [DiskTables.owns, hlive m]
    · exact Bool.false_ne_true ((hclear j hj).symm.trans hset)

end Volume

end

end Dlos
