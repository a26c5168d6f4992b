import Mathlib.Data.Nat.Count
import Dlos.Fs.FileStore
import Dlos.Fs.UnlinkName

/-!
# The names of a run

The root directory as a map from names to inodes. As long as the entry in the last slot is removed only when
no hole lies before it, every inode that is in use has one name, and every request is one step on this map.
-/

namespace Dlos

open Program Bytes Slot

/-! ## A directory without lost entries -/

/-- Every inode that is in use has an entry, and there are only zeros behind the entries. -/
structure Named (T : DiskTables) (S : Nat → Slot (List Byte) (BitVec 32)) (n : Nat) : Prop extends Listing S n where
  blank : ∀ k, n ≤ k → k < dirLimit → S k = ⟨0, padName []⟩
  onto : ∀ m, 1 ≤ m → T.imap m = true → ∃ k < n, (S k).val = BitVec.ofNat 32 m

/-- What the names lead to. A name is the key that is compared. -/
def namesOn (S : Nat → Slot (List Byte) (BitVec 32)) (n : Nat) (key : List Byte) : Option Nat :=
  if lookup S (n + 1) key = 0 then none else some (lookup S (n + 1) key).toNat

section

variable {size : BitVec 32} {n m x k : Nat} {p q : Fin nrInode} {extra : Fin nrInode → Int} {s t u : Fs}
  {T T' : DiskTables} {S S' : Nat → Slot (List Byte) (BitVec 32)} {path name key : List Byte} {e : FsEvent}

/-- What `strip_path` leaves of a path is a name, or nothing. -/
theorem copyName_spec (h : copyName m path = some name) :
    name.length ≤ m ∧ slash ∉ name ∧ ∀ b ∈ name, b ∈ path := by
  induction m generalizing path name with
  | zero =>
    obtain rfl : [] = name := Option.some.inj h
    simp
  | succ m ih =>
    cases path with
    | nil =>
      obtain rfl : [] = name := Option.some.inj h
      simp
    | cons c path =>
      rw [copyName] at h
      split_ifs at h with hc
      obtain ⟨rest, hrest, rfl⟩ := Option.map_eq_some_iff.mp h
      obtain ⟨hlen, hslash, hmem⟩ := ih hrest
      refine ⟨by rw [List.length_cons]; omega, ?_, fun b hb => ?_⟩
      · rw [List.mem_cons, not_or]
        exact ⟨Ne.symm hc, hslash⟩
      · rcases List.mem_cons.mp hb with rfl | hb
        · exact List.mem_cons_self
        · exact List.mem_cons_of_mem _ (hmem b hb)

theorem fileName_of_stripName (h : stripName path = some name) (hne : name ≠ []) (hzero : 0 ∉ path) :
    FileName name := by
  obtain ⟨hlen, hslash, hmem⟩ := copyName_spec h
  refine ⟨List.length_pos_iff.mpr hne, hlen, hslash, fun h0 => hzero ?_⟩
  have := hmem 0 h0
  split_ifs at this
  · exact List.mem_of_mem_tail this
  · exact this

/-- A path ends with the first 0. -/
theorem zero_notMem_path (h : fetchPathname s = .ok path s) : 0 ∉ path := by
  have hwp : wp fetchPathname (fun path _ => 0 ∉ path) (fun _ _ => True) s := by
    rw [fetchPathname, wp_bind, wp_get, wp_bind, procAt]
    split
    · rw [wp_pure, wp_bind, wp_assert]
      refine ⟨fun _ => ?_, fun _ => trivial⟩
      exact wp_bind_any (fun _ _ => trivial) fun _ _ => wp_bind_any (fun _ _ => trivial) fun _ _ => zero_notMem_cString
    · trivial
  exact (wp_of_ok h).mp hwp

theorem ofNat_ne_zero (hm : 1 ≤ m) (hm' : m < 2 ^ 32) : BitVec.ofNat 32 m ≠ 0 := fun he => by
  have hnat := congrArg BitVec.toNat he
  have hzero : (0 : BitVec 32).toNat = 0 := rfl
  rw [BitVec.toNat_ofNat, Nat.mod_eq_of_lt hm', hzero] at hnat
  omega

namespace Named

theorem congr (h : Named T S n) (himap : T'.imap = T.imap) (hn : n ≤ 4096) (hS : ∀ k < dirLimit, S' k = S k) :
    Named T' S' n where
  named k hk := by
    rw [hS k (lt_dirLimit (by omega))]
    exact h.named k hk
  hole k hk := by
    rw [hS k (lt_dirLimit (by omega))]
    exact h.hole k hk
  behind := by
    rw [hS n (lt_dirLimit hn)]
    exact h.behind
  names j hj k hk := by
    rw [hS j (lt_dirLimit (by omega)), hS k (lt_dirLimit (by omega))]
    exact h.names j hj k hk
  numbers j hj k hk := by
    rw [hS j (lt_dirLimit (by omega)), hS k (lt_dirLimit (by omega))]
    exact h.numbers j hj k hk
  blank k hk hk' := by
    rw [hS k hk']
    exact h.blank k hk hk'
  onto m hm hset := by
    obtain ⟨k, hk, hval⟩ := h.onto m hm (himap ▸ hset)
    exact ⟨k, hk, by rw [hS k (lt_dirLimit (by omega)), hval]⟩

/-- A name leads to the inode of the entry that has it. -/
theorem names_iff (h : Named T S n) : namesOn S n key = some x ↔
    ∃ k < n, (S k).key = key ∧ (S k).val ≠ 0 ∧ (S k).val.toNat = x := by
  rw [namesOn]
  constructor
  · intro hx
    split_ifs at hx with hzero
    rcases found_or_absent S (n + 1) key with ⟨k, hk⟩ | hno
    · rw [hk.lookup] at hx hzero
      refine ⟨k, Nat.lt_of_le_of_ne (Nat.lt_succ_iff.mp hk.lt) ?_, hk.key, hzero, Option.some.inj hx⟩
      rintro rfl
      exact hzero h.behind
    · exact absurd (lookup_of_absent hno) hzero
  · rintro ⟨k, hk, hkey, hval, rfl⟩
    obtain ⟨y, hy, hkey'⟩ := h.named k hk hval
    rw [← hkey, hkey', h.lookup_of_key hy hk hkey', if_neg hval]

/-- Two names do not lead to the same inode. -/
theorem names_inj {key' : List Byte} (h : Named T S n) (hx : namesOn S n key = some x)
    (hx' : namesOn S n key' = some x) : key = key' := by
  obtain ⟨k, hk, rfl, hval, hnum⟩ := h.names_iff.mp hx
  obtain ⟨j, hj, rfl, hval', hnum'⟩ := h.names_iff.mp hx'
  rw [h.numbers k hk j hj hval (BitVec.eq_of_toNat_eq (hnum.trans hnum'.symm))]

/-- The inodes that are in use are those with a name. -/
theorem exists_name_iff (h : Named T S n) (hentries : Entries T S) (himap : ∀ m, T.imap m = true → m < 4096)
    (hn : n ≤ 4096) (hx : 1 ≤ x) : T.imap x = true ↔ ∃ key, namesOn S n key = some x := by
  constructor
  · intro hset
    have hlt := himap x hset
    have hnat : (BitVec.ofNat 32 x).toNat = x := Nat.mod_eq_of_lt (by omega)
    obtain ⟨k, hk, hval⟩ := h.onto x hx hset
    exact ⟨(S k).key, h.names_iff.mpr ⟨k, hk, rfl, hval ▸ ofNat_ne_zero hx (by omega), by rw [hval, hnat]⟩⟩
  · rintro ⟨key, hkey⟩
    obtain ⟨k, hk, -, hval, rfl⟩ := h.names_iff.mp hkey
    exact hentries.imap k (by omega) hval

/-! ### A new name -/

theorem key_ne (h : Named T S n) (hname : FileName name) (hnew : lookup S (n + 1) (padName name) = 0) :
    ∀ j < n, (S j).val ≠ 0 → (S j).key ≠ padName name := fun _ hj hval hkey =>
  hval ((h.lookup_of_key hname hj hkey).symm.trans hnew)

theorem place_spec (h : Named T S n) (hk : place S n = k) : k ≤ n ∧ (S k).val = 0 ∧ (S k).key = padName [] := by
  have hle : k ≤ n := hk ▸ place_le
  have hval : (S k).val = 0 := by
    rcases Nat.lt_or_eq_of_le hle with hlt | rfl
    · subst hk
      exact val_place hlt
    · exact h.behind
  exact ⟨hle, hval, h.hole k hle hval⟩

/-- A new name for an inode that was free takes a hole or the slot behind the last. -/
theorem add (h : Named T S n) (hn : n ≤ 4096) (hmap : ∀ m, T.imap m = true → m < 4096) (hx : 1 ≤ x)
    (hlt : x < 4096) (hold : ∀ j < n, (S j).val ≠ BitVec.ofNat 32 x)
    (hname : FileName name) (hnew : lookup S (n + 1) (padName name) = 0) (hk : place S n = k)
    (hS : S' = Function.update S k ⟨BitVec.ofNat 32 x, padName name⟩)
    (himap : T'.imap = Function.update T.imap x true) : Named T' S' (if k = n then n + 1 else n) := by
  obtain ⟨hkn, hzero, -⟩ := h.place_spec hk
  have hne : BitVec.ofNat 32 x ≠ 0 := ofNat_ne_zero hx (by omega)
  obtain ⟨n', hn'⟩ : ∃ n', n' = if k = n then n + 1 else n := ⟨_, rfl⟩
  have hself : S' k = ⟨BitVec.ofNat 32 x, padName name⟩ := by rw [hS, Function.update_self]
  have hother (j : Nat) (hj : j ≠ k) : S' j = S j := by rw [hS, Function.update_of_ne hj]
  have hlt' (j : Nat) (hj : j < n') (hjk : j ≠ k) : j < n := by
    split_ifs at hn' <;> omega
  have hk' : k < n' := by split_ifs at hn' <;> omega
  have hlimit : dirLimit = 4160 := rfl
  rw [← hn']
  refine ⟨⟨fun j hj hval => ?_, fun j hj hval => ?_, ?_, fun i hi j hj hval hval' hkey => ?_,
    fun i hi j hj hval he => ?_⟩, fun j hj hj' => ?_, fun m hm hset => ?_⟩
  · by_cases hjk : j = k
    · exact ⟨name, hname, by rw [hjk, hself]⟩
    · rw [hother j hjk] at hval ⊢
      exact h.named j (hlt' j hj hjk) hval
  · have hjk : j ≠ k := by
      rintro rfl
      rw [hself] at hval
      exact hne hval
    rw [hother j hjk] at hval ⊢
    by_cases hjn : j ≤ n
    · exact h.hole j hjn hval
    · rw [h.blank j (by omega) (by split_ifs at hn' <;> omega)]
  · have hnk : n' ≠ k := by omega
    rw [hother n' hnk]
    split_ifs at hn' with hlast
    · rw [h.blank n' (by omega) (by omega)]
    · rw [hn']
      exact h.behind
  · by_cases hik : i = k
    · by_cases hjk : j = k
      · rw [hik, hjk]
      · rw [hother j hjk] at hval' hkey
        rw [hik, hself] at hkey
        exact absurd hkey.symm (h.key_ne hname hnew j (hlt' j hj hjk) hval')
    · by_cases hjk : j = k
      · rw [hother i hik] at hval hkey
        rw [hjk, hself] at hkey
        exact absurd hkey (h.key_ne hname hnew i (hlt' i hi hik) hval)
      · rw [hother i hik] at hval hkey
        rw [hother j hjk] at hval' hkey
        exact h.names i (hlt' i hi hik) j (hlt' j hj hjk) hval hval' hkey
  · by_cases hik : i = k
    · by_cases hjk : j = k
      · rw [hik, hjk]
      · rw [hother j hjk, hik, hself] at he
        exact absurd he.symm (hold j (hlt' j hj hjk))
    · by_cases hjk : j = k
      · rw [hother i hik, hjk, hself] at he
        exact absurd he (hold i (hlt' i hi hik))
      · rw [hother i hik] at hval he
        rw [hother j hjk] at he
        exact h.numbers i (hlt' i hi hik) j (hlt' j hj hjk) hval he
  · have hjk : j ≠ k := by omega
    rw [hother j hjk]
    exact h.blank j (by split_ifs at hn' <;> omega) hj'
  · rw [himap, Function.update_apply] at hset
    split_ifs at hset with hmx
    · exact ⟨k, hk', by rw [hself, hmx]⟩
    · obtain ⟨j, hj, hval⟩ := h.onto m hm hset
      have hjk : j ≠ k := by
        rintro rfl
        exact ofNat_ne_zero hm (by have := hmap m hset; omega) (hval.symm.trans hzero)
      exact ⟨j, by split_ifs at hn' <;> omega, by rw [hother j hjk, hval]⟩

/-- The new name leads to the inode, and the other names to what they led to. -/
theorem names_add {n' : Nat} (h : Named T S n) (h' : Named T' S' n') (hn' : n' = if k = n then n + 1 else n)
    (hx : 1 ≤ x) (hlt : x < 4096) (hk : place S n = k)
    (hS : S' = Function.update S k ⟨BitVec.ofNat 32 x, padName name⟩) :
    namesOn S' n' = Function.update (namesOn S n) (padName name) (some x) := by
  obtain ⟨hkn, hzero, -⟩ := h.place_spec hk
  have hself : S' k = ⟨BitVec.ofNat 32 x, padName name⟩ := by rw [hS, Function.update_self]
  have hother (j : Nat) (hj : j ≠ k) : S' j = S j := by rw [hS, Function.update_of_ne hj]
  funext key
  by_cases hkey : key = padName name
  · rw [hkey, Function.update_self, h'.names_iff]
    refine ⟨k, by split_ifs at hn' <;> omega, by rw [hself], by rw [hself]; exact ofNat_ne_zero hx (by omega), ?_⟩
    rw [hself]
    exact Nat.mod_eq_of_lt (by omega)
  · rw [Function.update_of_ne hkey]
    refine Option.ext fun y => ?_
    rw [h'.names_iff, h.names_iff]
    constructor
    · rintro ⟨j, hj, hj', hval, hnum⟩
      have hjk : j ≠ k := by
        rintro rfl
        rw [hself] at hj'
        exact hkey hj'.symm
      rw [hother j hjk] at hj' hval hnum
      exact ⟨j, by split_ifs at hn' <;> omega, hj', hval, hnum⟩
    · rintro ⟨j, hj, hj', hval, hnum⟩
      have hjk : j ≠ k := fun he => hval (he ▸ hzero)
      rw [← hother j hjk] at hj' hval hnum
      exact ⟨j, by split_ifs at hn' <;> omega, hj', hval, hnum⟩

/-! ### A name less -/

/-- When the last slot is given up, no hole comes to be behind the directory. -/
theorem used_eq (hcompact : k + 1 = n → ∀ j < k, (S j).val ≠ 0) (hk : k < n) {n' : Nat}
    (hn' : n' = if k + 1 = n then used S k else n) : n' ≤ n ∧ k < n' + 1 ∧ (n' = n ∨ n' = k ∧ k + 1 = n) := by
  split_ifs at hn' with hlast
  · rw [used, Nat.count_of_forall (hcompact hlast)] at hn'
    omega
  · omega

/-- A name is cleared with the inode that it led to. -/
theorem remove (h : Named T S n) (hn : n ≤ 4096) (hk : k < n) (hval : (S k).val = BitVec.ofNat 32 x)
    (hx : 1 ≤ x) (hlt : x < 4096) (hmap : ∀ m, T.imap m = true → m < 4096)
    (hcompact : k + 1 = n → ∀ j < k, (S j).val ≠ 0) (hS : S' = Function.update S k ⟨0, padName []⟩)
    (himap : T'.imap = Function.update T.imap x false) : Named T' S' (if k + 1 = n then used S k else n) := by
  obtain ⟨n', hn'⟩ : ∃ n', n' = if k + 1 = n then used S k else n := ⟨_, rfl⟩
  obtain ⟨hle, hkn', hcases⟩ := used_eq hcompact hk hn'
  have hself : S' k = ⟨0, padName []⟩ := by rw [hS, Function.update_self]
  have hother (j : Nat) (hj : j ≠ k) : S' j = S j := by rw [hS, Function.update_of_ne hj]
  have hused (j : Nat) (hj : (S' j).val ≠ 0) : j ≠ k := by
    rintro rfl
    exact hj (by rw [hself])
  rw [← hn']
  refine ⟨⟨fun j hj hval => ?_, fun j hj hval => ?_, ?_, fun i hi j hj hval hval' hkey => ?_,
    fun i hi j hj hval he => ?_⟩, fun j hj hj' => ?_, fun m hm hset => ?_⟩
  · have hjk := hused j hval
    rw [hother j hjk] at hval ⊢
    exact h.named j (by omega) hval
  · by_cases hjk : j = k
    · rw [hjk, hself]
    · rw [hother j hjk] at hval ⊢
      exact h.hole j (by omega) hval
  · by_cases hjk : n' = k
    · rw [hjk, hself]
    · rw [hother n' hjk]
      obtain rfl : n' = n := by omega
      exact h.behind
  · have hik := hused i hval
    have hjk := hused j hval'
    rw [hother i hik] at hval hkey
    rw [hother j hjk] at hval' hkey
    exact h.names i (by omega) j (by omega) hval hval' hkey
  · have hik := hused i hval
    have hjk := hused j (he ▸ hval)
    rw [hother i hik] at hval he
    rw [hother j hjk] at he
    exact h.numbers i (by omega) j (by omega) hval he
  · by_cases hjk : j = k
    · rw [hjk, hself]
    · rw [hother j hjk]
      exact h.blank j (by omega) hj'
  · rw [himap, Function.update_apply] at hset
    split_ifs at hset with hmx
    obtain ⟨j, hj, hval'⟩ := h.onto m hm hset
    have hm' := hmap m hset
    have hjk : j ≠ k := by
      rintro rfl
      have hnat := congrArg BitVec.toNat (hval'.symm.trans hval)
      rw [BitVec.toNat_ofNat, BitVec.toNat_ofNat, Nat.mod_eq_of_lt (by omega), Nat.mod_eq_of_lt (by omega)] at hnat
      exact hmx hnat
    exact ⟨j, by omega, by rw [hother j hjk, hval']⟩

theorem names_remove {n' : Nat} (h : Named T S n) (h' : Named T' S' n')
    (hn' : n' = if k + 1 = n then used S k else n) (hk : k < n) (hval : (S k).val ≠ 0)
    (hcompact : k + 1 = n → ∀ j < k, (S j).val ≠ 0) (hS : S' = Function.update S k ⟨0, padName []⟩) :
    namesOn S' n' = Function.update (namesOn S n) (S k).key none := by
  obtain ⟨hle, hkn', hcases⟩ := used_eq hcompact hk hn'
  have hself : S' k = ⟨0, padName []⟩ := by rw [hS, Function.update_self]
  have hother (j : Nat) (hj : j ≠ k) : S' j = S j := by rw [hS, Function.update_of_ne hj]
  funext key
  refine Option.ext fun y => ?_
  rw [h'.names_iff, Function.update_apply]
  split_ifs with hkey
  · refine ⟨fun hy => ?_, fun hy => hy.elim⟩
    obtain ⟨j, hj, hj', hval', -⟩ := hy
    have hjk : j ≠ k := by
      rintro rfl
      exact hval' (by rw [hself])
    rw [hother j hjk] at hj' hval'
    exact absurd (h.names j (by omega) k hk hval' hval (hj'.trans hkey)) hjk
  · rw [h.names_iff]
    constructor
    · rintro ⟨j, hj, hj', hval', hnum⟩
      have hjk : j ≠ k := by
        rintro rfl
        exact hval' (by rw [hself])
      rw [hother j hjk] at hj' hval' hnum
      exact ⟨j, by omega, hj', hval', hnum⟩
    · rintro ⟨j, hj, hj', hval', hnum⟩
      have hjk : j ≠ k := by
        rintro rfl
        exact hkey hj'.symm
      rw [← hother j hjk] at hj' hval' hnum
      exact ⟨j, by omega, hj', hval', hnum⟩

end Named

/-! ## The directory of a state -/

/-- The number of slots in the root directory. -/
def Fs.rootSlots (s : Fs) : Nat :=
  match s.rootInode with
  | some p => (s.inodeTable p).iSize.toNat / dirEntrySize
  | none => 0

def Fs.names (s : Fs) : List Byte → Option Nat := namesOn (dirSlots s.disk (dirAddr s.geoSize)) s.rootSlots

def Fs.WellNamed (s : Fs) : Prop :=
  Named (diskTables s.geoSize s.disk) (dirSlots s.disk (dirAddr s.geoSize)) s.rootSlots

/-- When an UNLINK is for the name in the last slot, no hole lies before it. -/
def Fs.Compact (s : Fs) (e : FsEvent) : Prop := ∀ pid m path name, e.Asks pid m → m.type = MsgType.unlink →
  fetchPathname (s.withMessage e pid m) = .ok path (s.withMessage e pid m) → stripName path = some name →
    ∀ k, k + 1 = s.rootSlots → (dirSlots s.disk (dirAddr s.geoSize) k).key = padName name →
      ∀ j < k, (dirSlots s.disk (dirAddr s.geoSize) j).val ≠ 0

/-- One step on the names: nothing, a new name for an inode that had none, or a name less. -/
inductive Fs.NamesStep (s : Fs) (e : FsEvent) : (List Byte → Option Nat) → Prop
  | same : NamesStep s e s.names
  | create {pid : Pid} {m : Message} {path name : List Byte} {x : Nat} : e.Asks pid m → m.type = MsgType.openFile →
    hasFlag m.flags oCreat → fetchPathname (s.withMessage e pid m) = .ok path (s.withMessage e pid m) →
    stripName path = some name → s.names (padName name) = none → (∀ key, s.names key ≠ some x) →
    NamesStep s e (Function.update s.names (padName name) (some x))
  | remove {pid : Pid} {m : Message} {path name : List Byte} {x : Nat} : e.Asks pid m → m.type = MsgType.unlink →
    fetchPathname (s.withMessage e pid m) = .ok path (s.withMessage e pid m) → stripName path = some name →
    s.names (padName name) = some x → NamesStep s e (Function.update s.names (padName name) none)

theorem RootDir.rootSlots (h : RootDir size n p s) : s.rootSlots = n := by
  have hle := h.le
  have hsize : dirEntrySize = 16 := rfl
  rw [Fs.rootSlots, h.rootInode]
  dsimp only
  rw [h.iSize, BitVec.toNat_ofNat, hsize]
  omega

namespace Coherent

theorem wellNamed_iff (h : Coherent size n p s) :
    s.WellNamed ↔ Named (diskTables size s.disk) (dirSlots s.disk (dirAddr size)) n := by
  rw [Fs.WellNamed, h.geoSize, h.dir.rootSlots]

theorem names_eq (h : Coherent size n p s) : s.names = namesOn (dirSlots s.disk (dirAddr size)) n := by
  rw [Fs.names, h.geoSize, h.dir.rootSlots]

/-- The slots of the directory are as they were. -/
theorem wellNamed_of_same (h : Coherent size n p s) (hs : s.WellNamed) (hu : Coherent size n p u)
    (himap : (diskTables size u.disk).imap = (diskTables size s.disk).imap)
    (hslots : ∀ k < dirLimit, dirSlots u.disk (dirAddr size) k = dirSlots s.disk (dirAddr size) k) :
    u.WellNamed ∧ s.NamesStep e u.names := by
  have hle := h.le
  have hlimit : dirLimit = 4160 := rfl
  have hnames : u.names = s.names := by
    rw [h.names_eq, hu.names_eq]
    funext key
    have hlookup : lookup (dirSlots u.disk (dirAddr size)) (n + 1) key =
        lookup (dirSlots s.disk (dirAddr size)) (n + 1) key :=
      lookup_congr fun k hk => .inl (hslots k (by omega))
    rw [namesOn, namesOn, hlookup]
  exact ⟨hu.wellNamed_iff.mpr ((h.wellNamed_iff.mp hs).congr himap hle hslots), hnames ▸ .same⟩

/-- A file was created. -/
theorem wellNamed_created {name : List Byte} {b : Nat} (h : Coherent size n p s) (hs : s.WellNamed)
    (hname : FileName name) (hlen : name.length < maxFilenameLen)
    (hnew : lookup (dirSlots s.disk (dirAddr size)) (n + 1) (padName name) = 0) (hx : 2 ≤ x)
    (hu : FileCreated size n p s name x b k q u) (hgeo : u.geoSize = s.geoSize) :
    u.WellNamed ∧ u.names = Function.update s.names (padName name) (some x) ∧
      s.names (padName name) = none ∧ ∀ key, s.names key ≠ some x := by
  have hmax : maxFilenameLen = 12 := rfl
  have hle := h.le
  have hlt := hu.free.lt
  have hnamed := h.wellNamed_iff.mp hs
  have hblank := (hnamed.place_spec hu.slot).2.2
  have hslots : dirSlots u.disk (dirAddr size) =
      Function.update (dirSlots s.disk (dirAddr size)) k ⟨BitVec.ofNat 32 x, padName name⟩ := by
    rw [hu.slots]
    refine dirSlots_addEntry (by omega) fun i _ hi => ?_
    rw [(key_eq_padName (by decide)).mp hblank i hi, if_neg (by simp)]
  have hfree : (diskTables size s.disk).imap x = false := imap_eq_false hu.free.clear
  have hnat : (BitVec.ofNat 32 x).toNat = x := Nat.mod_eq_of_lt (by omega)
  have hold (j : Nat) (hj : j < n) (hval : (dirSlots s.disk (dirAddr size) j).val = BitVec.ofNat 32 x) : False := by
    have hset := h.entries.imap j (by omega) (hval ▸ ofNat_ne_zero (by omega) (by omega))
    rw [hval, hnat] at hset
    exact Bool.false_ne_true (hfree.symm.trans hset)
  have hnamed' := hnamed.add hle (fun m => h.imap_lt) (by omega) hlt hold hname hnew hu.slot hslots hu.imap
  have hwell : u.WellNamed := by
    rw [Fs.WellNamed, hgeo, h.geoSize, hu.dir.rootSlots]
    exact hnamed'
  refine ⟨hwell, ?_, ?_, fun key hkey => ?_⟩
  · rw [Fs.names, hgeo, h.geoSize, hu.dir.rootSlots, h.names_eq]
    exact hnamed.names_add hnamed' rfl (by omega) hlt hu.slot hslots
  · rw [h.names_eq, namesOn, if_pos hnew]
  · rw [h.names_eq] at hkey
    obtain ⟨j, hj, -, -, hnum⟩ := hnamed.names_iff.mp hkey
    exact hold j hj (BitVec.eq_of_toNat_eq (hnum.trans hnat.symm))

/-- A file was removed. -/
theorem wellNamed_removed {b cnt num : Nat} (h : Coherent size n p s) (hs : s.WellNamed)
    (hfile : FileOf size n s path name num b cnt)
    (hk : first (fun k => (dirSlots s.disk (dirAddr size) k).val = BitVec.ofNat 32 num) n = some k)
    (hu : FileRemoved size n p s num b cnt k u)
    (hcompact : k + 1 = n → (dirSlots s.disk (dirAddr size) k).key = padName name →
      ∀ j < k, (dirSlots s.disk (dirAddr size) j).val ≠ 0) :
    u.WellNamed ∧ u.names = Function.update s.names (padName name) none ∧ s.names (padName name) = some num := by
  have hle := h.le
  have hlt := hfile.lt
  have h2 := hfile.two_le
  have hnamed := h.wellNamed_iff.mp hs
  obtain ⟨hkn, hval, -⟩ := first_eq_some.mp hk
  have hne : BitVec.ofNat 32 num ≠ 0 := ofNat_ne_zero (by omega) (by omega)
  have hnat : (BitVec.ofNat 32 num).toNat = num := Nat.mod_eq_of_lt (by omega)
  have hnum : s.names (padName name) = some num := by
    rw [h.names_eq, namesOn, hfile.lookup, if_neg hne, hnat]
  -- the entry that is removed is the one that was found
  have hkey : (dirSlots s.disk (dirAddr size) k).key = padName name := by
    rw [h.names_eq] at hnum
    obtain ⟨j, hj, hkey, hvalj, hj'⟩ := hnamed.names_iff.mp hnum
    have hjk : j = k := hnamed.numbers j hj k hkn hvalj
      ((BitVec.eq_of_toNat_eq (hj'.trans hnat.symm)).trans hval.symm)
    exact hjk ▸ hkey
  have hcompact' : k + 1 = n → ∀ j < k, (dirSlots s.disk (dirAddr size) j).val ≠ 0 := fun hlast => hcompact hlast hkey
  have hnamed' := hnamed.remove hle hkn hval (by omega) hlt (fun m => h.imap_lt) hcompact' hu.slots hu.imap
  refine ⟨?_, ?_, hnum⟩
  · rw [Fs.WellNamed, hu.geoSize, h.geoSize, hu.dir.rootSlots]
    exact hnamed'
  · rw [Fs.names, hu.geoSize, h.geoSize, hu.dir.rootSlots, h.names_eq, ← hkey]
    exact hnamed.names_remove hnamed' rfl hkn (hval ▸ hne) hcompact' hu.slots

end Coherent

/-! ## Requests -/

/-- A file was created by `do_open`. -/
theorem Consistent.names_created {b : Nat} (h : Consistent size n p extra s) (hs : s.WellNamed) (hfits : s.NameFits)
    (hpath : fetchPathname s = .ok path s) (hcreat : hasFlag s.fsMsg.flags oCreat) (hzero : s.searched size n path = 0)
    (hstrip : stripName path = some name) (hx : 2 ≤ x) (hu : FileCreated size n p s name x b k q u) :
    u.WellNamed ∧ u.names = Function.update s.names (padName name) (some x) ∧
      s.names (padName name) = none ∧ ∀ key, s.names key ≠ some x := by
  have hne : name ≠ [] := by
    rintro rfl
    rw [Fs.searched, hstrip] at hzero
    exact absurd hzero Int.one_ne_zero
  rw [searched_of_ne hstrip hne, toInt_eq_zero] at hzero
  obtain ⟨D, M, tab, hrest⟩ := hu.rest
  have hgeo : u.geoSize = s.geoSize := by rw [hrest]
  exact h.wellNamed_created hs (fileName_of_stripName hstrip hne (zero_notMem_path hpath))
    (hfits _ _ hpath hstrip hcreat) hzero hx hu hgeo

theorem Fs.Served.namesStep (h : Consistent size n p extra s) (hs : s.WellNamed) (he : s.Allows e)
    (hc : s.Compact e) (hu : s.Served size n p e u) : u.WellNamed ∧ s.NamesStep e u.names := by
  rw [Fs.Allows] at he
  have hsame {v : Fs} (hv : Coherent size n p v) (hdisk : v.disk = s.disk) : v.WellNamed ∧ s.NamesStep e v.names :=
    h.wellNamed_of_same hs hv (by rw [hdisk]) fun k _ => by rw [hdisk]
  cases hu with
  | @opened pid m r v hask htype hv =>
    cases hv with
    | refused => exact hsame (h.toCoherent.congr rfl rfl rfl rfl rfl rfl) rfl
    | @found _ _ _ _ t _ _ _ _ hne hgot =>
      obtain ⟨x, hx, hpos, himap⟩ := h.withMessage.searched_eq.resolve_left hne
      rw [hx] at hgot
      exact hsame ((h.withMessage.got hpos himap hgot).1.congr rfl rfl rfl rfl rfl rfl) hgot.disk
    | @created path name _ _ _ x _ _ t hpath hplace hcreat hzero hstrip hx hv =>
      rw [hask.request] at he
      obtain ⟨hwell, hnames, hnone, hfresh⟩ := h.withMessage.names_created hs ((he.2 _ hask.source).1 htype) hpath hcreat
        hzero hstrip hx hv
      refine ⟨hwell, ?_⟩
      change s.NamesStep e t.names
      rw [hnames]
      exact .create hask htype hcreat hpath hstrip hnone hfresh
  | closed hask htype hv =>
    have hdisk := disk_of_dropsAll (.single hv)
    exact hsame (h.withMessage.of_drops hv).answered.toCoherent hdisk
  | moved hask hopen hw hv =>
    obtain ⟨htables, hslots, -⟩ := h.withMessage.moved_disk (h.withMessage.cached_of_desc hw.inode) hw hv
    have himap := congrArg DiskTables.imap htables
    exact h.wellNamed_of_same hs (h.withMessage.of_moved hw hv).answered.toCoherent himap hslots
  | passed => exact hsame (h.toCoherent.congr rfl rfl rfl rfl rfl rfl) rfl
  | @unlinked pid m r v hask htype hv =>
    cases hv with
    | same => exact hsame (h.toCoherent.congr rfl rfl rfl rfl rfl rfl) rfl
    | refused _ hne hgot =>
      obtain ⟨x, hx, hpos, himap⟩ := h.withMessage.searched_eq.resolve_left hne
      rw [hx] at hgot
      exact hsame ((h.withMessage.got hpos himap hgot).1.congr rfl rfl rfl rfl rfl rfl) hgot.disk
    | removed hfile hk hv hq =>
      have hcompact := hc pid m _ _ hask htype hfile.fetched hfile.stripped
      rw [h.geoSize, h.dir.rootSlots] at hcompact
      obtain ⟨hwell, hnames, hnum⟩ := h.withMessage.wellNamed_removed hs hfile hk hv (hcompact _)
      refine ⟨hwell, ?_⟩
      change s.NamesStep e v.names
      rw [hnames]
      exact .remove hask htype hfile.fetched hfile.stripped hnum
  | resumed => exact hsame h.withMessage.toCoherent rfl
  | exited hask htype hv =>
    have hdisk := disk_of_dropsAll hv
    exact hsame (h.withMessage.of_dropsAll hv).answered.toCoherent hdisk
  | logged hrequest hv =>
    rw [hrequest] at he
    have hsize : HasLog size := h.geoSize ▸ he.hasLog
    obtain ⟨htables, hslots, -⟩ := h.meeting.logged_disk hsize hv
    have himap := congrArg DiskTables.imap htables
    exact h.wellNamed_of_same hs (h.meeting.of_logged hsize hv).toCoherent himap hslots
  | forked hrequest hv hfilp hcounts =>
    rw [hrequest] at he
    have hdisk := disk_of_sharesAll hv
    exact hsame (h.of_forked he hv hcounts).answered.toCoherent hdisk

/-! ## A run -/

theorem wellNamed_initial (h : newMachine.initial s) : s.WellNamed := by
  obtain ⟨p, hp, hblank⟩ := started_initial h
  have hlimit : dirLimit = 4160 := rfl
  have hslots (k : Nat) (hk : k < dirLimit) : dirSlots s.disk (dirAddr s.geoSize) k = newSlot k :=
    slots_started hp.disk hblank hk
  have hnames : ∀ k < 4, ∃ name, FileName name ∧ (newSlot k).key = padName name := by
    have hname {t : String} (hpos : 1 ≤ (fileName t).length) (hle : (fileName t).length ≤ 12)
        (hslash : slash ∉ fileName t) (hzero : 0 ∉ fileName t) : FileName (fileName t) := ⟨hpos, hle, hslash, hzero⟩
    intro k hk
    obtain rfl | rfl | rfl | rfl : k = 0 ∨ k = 1 ∨ k = 2 ∨ k = 3 := by omega
    · exact ⟨fileName ".", hname (by decide) (by decide) (by decide) (by decide), rfl⟩
    · exact ⟨fileName "dev_tty0", hname (by decide) (by decide) (by decide) (by decide), rfl⟩
    · exact ⟨fileName "dev_tty1", hname (by decide) (by decide) (by decide) (by decide), rfl⟩
    · exact ⟨fileName "dev_tty2", hname (by decide) (by decide) (by decide) (by decide), rfl⟩
  have hdistinct : ∀ j < 4, ∀ k < 4, (newSlot j).key = (newSlot k).key ∨ (newSlot j).val = (newSlot k).val → j = k := by
    decide
  have hblank' (k : Nat) (hk : 4 ≤ k) : newSlot k = ⟨0, padName []⟩ := by
    have hnone : newNames[k]? = none := List.getElem?_eq_none (by
      have hlen : newNames.length = 4 := by decide
      omega)
    rw [newSlot, hnone]
  rw [Fs.WellNamed, hp.rootDir.rootSlots]
  refine ⟨⟨fun k hk _ => ?_, fun k hk hval => ?_, ?_, fun j hj k hk _ _ hkey => ?_, fun j hj k hk _ he => ?_⟩,
    fun k hk hk' => ?_, fun m hm hset => ?_⟩
  · rw [hslots k (by omega)]
    exact hnames k hk
  · rw [hslots k (by omega)] at hval ⊢
    by_cases hk4 : k < 4
    · rw [val_newSlot, if_pos hk4] at hval
      exact absurd hval (ofNat_ne_zero (by omega) (by omega))
    · rw [hblank' k (by omega)]
  · rw [hslots 4 (by omega), hblank' 4 (Nat.le_refl 4)]
  · rw [hslots j (by omega), hslots k (by omega)] at hkey
    exact hdistinct j hj k hk (.inl hkey)
  · rw [hslots j (by omega), hslots k (by omega)] at he
    exact hdistinct j hj k hk (.inr he)
  · rw [hslots k hk', hblank' k hk]
  · have hlt := (imap_started hp.disk).mp hset
    refine ⟨m - 1, by omega, ?_⟩
    rw [hslots (m - 1) (by omega), val_newSlot, if_pos (by omega), Nat.sub_add_cancel hm]

/-- The requests of `Allows`, of which an UNLINK of the last name comes only when no hole lies before it. -/
def Fs.AllowsCompact (s : Fs) (e : FsEvent) : Prop := s.Allows e ∧ s.Compact e

theorem wellNamed_of_reached (h : newMachine.Reached Fs.AllowsCompact s none) :
    s.WellNamed ∧ ∃ n p extra, Consistent s.geoSize n p extra s := by
  refine ⟨?_, consistent_of_reached (h.mono fun _ _ he => he.1)⟩
  have hinv : (none : Option Halt) = none → s.WellNamed := by
    refine Machine.Reached.invariant (I := fun s o => o = none → s.WellNamed)
      (fun s hs _ => wellNamed_initial hs) (fun s e hr ih he hnone => ?_) h
    obtain ⟨n, p, extra, hs⟩ := consistent_of_reached (hr.mono fun _ _ he => he.1)
    exact ((hs.served he.1 hnone).namesStep hs (ih rfl) he.1 he.2).1
  exact hinv rfl

theorem allowsCompact_createA : startedFs.AllowsCompact createA := by
  refine ⟨allows_createA.1, fun pid m path name hask htype => ?_⟩
  obtain rfl : m = _ := (Request.message.inj hask.request).symm
  exact absurd htype (by decide)

theorem reached_createdFs_compact : newMachine.Reached Fs.AllowsCompact createdFs none := by
  rw [createdFs]
  exact .goOn (.start initial_startedFs) allowsCompact_createA goesOn_createA

/-- In every such run each inode that is in use has exactly one name. -/
theorem inodes_have_one_name (h : newMachine.Reached Fs.AllowsCompact s none) (hx : 1 ≤ x) :
    (diskTables s.geoSize s.disk).imap x = true ↔ ∃! key, s.names key = some x := by
  obtain ⟨hwell, n, p, extra, hs⟩ := wellNamed_of_reached h
  have hnamed := hs.wellNamed_iff.mp hwell
  rw [hnamed.exists_name_iff hs.entries (fun m => hs.imap_lt) hs.le hx, hs.names_eq]
  constructor
  · rintro ⟨key, hkey⟩
    exact ⟨key, hkey, fun key' hkey' => hnamed.names_inj hkey' hkey⟩
  · rintro ⟨key, hkey, -⟩
    exact ⟨key, hkey⟩

theorem inodes_have_one_name_createdFs :
    (diskTables createdFs.geoSize createdFs.disk).imap 5 = true ↔ ∃! key, createdFs.names key = some 5 :=
  inodes_have_one_name reached_createdFs_compact (by decide)

/-- Each request of such a run is one step on the names. -/
theorem request_is_names_step (h : newMachine.Reached Fs.AllowsCompact s none) (he : s.AllowsCompact e)
    (hgo : (newMachine.step e s).2 = none) : s.NamesStep e (newMachine.step e s).1.names := by
  obtain ⟨hwell, n, p, extra, hs⟩ := wellNamed_of_reached h
  exact ((hs.served he.1 hgo).namesStep hs hwell he.1 he.2).2

theorem request_is_names_step_createA :
    startedFs.NamesStep createA (newMachine.step createA startedFs).1.names :=
  request_is_names_step (.start initial_startedFs) allowsCompact_createA goesOn_createA

/-- An OPEN that is not refused: process `pid` has a new file `i` at its first byte, whose inode is the one that
the name leads to. -/
structure Fs.OpensName (s u : Fs) (pid : Pid) (name : List Byte) (i : Fin nrFiles) : Prop where
  free : s.filp pid i = none
  leads : ∃ d q x, u.filp pid i = some d ∧ (u.fDescTable d).fdInode = some q ∧ (u.fDescTable d).fdPos = 0 ∧
    (u.inodeTable q).iNum = (x : Nat) ∧ (name = [] ∧ x = 1 ∨ u.names (padName name) = some x)

theorem OpenPlace.opensName {d : Fin nrFileDesc} {i : Fin nrFiles} {flags : Int} (hplace : OpenPlace s i d)
    (hnum : (t.inodeTable q).iNum = (x : Nat))
    (hname : name = [] ∧ x = 1 ∨ (t.opened s.pcaller i d q flags).names (padName name) = some x) :
    s.OpensName (t.opened s.pcaller i d q flags) s.pcaller name i where
  free := of_decide_eq_true (List.find?_some hplace.file :)
  leads := by
    have hfilp : (t.opened s.pcaller i d q flags).filp s.pcaller i = some d := by
      simp [Fs.opened, Fs.setFilp, Fs.setDesc]
    have hdesc : (t.opened s.pcaller i d q flags).fDescTable d =
        { fdInode := some q, fdMode := flags, fdCnt := 1, fdPos := 0 } := by
      simp [Fs.opened, Fs.setDesc]
    exact ⟨d, q, x, hfilp, by rw [hdesc], by rw [hdesc], hnum, hname⟩

theorem Got.iNum {num : Int} (h : Got size s num q t) : (t.inodeTable q).iNum = num := by
  cases h with
  | counted hc hdev hnum =>
    rw [Fs.io_inodeTable, Fs.setInode_self]
    exact hnum
  | read =>
    rw [Fs.io_inodeTable, Fs.setInode_self]
    rfl

/-- What OPEN answers: -1, or the number of a file for the name that it was given. -/
theorem Fs.Served.opensName {pid : Pid} {m : Message} (h : Consistent size n p extra s) (hs : s.WellNamed)
    (he : s.Allows e) (hask : e.Asks pid m) (htype : m.type = MsgType.openFile) (hu : s.Served size n p e u) :
    u.fsMsg.fd = -1 ∨ ∃ path name i, fetchPathname (s.withMessage e pid m) = .ok path (s.withMessage e pid m) ∧
      stripName path = some name ∧ u.fsMsg.fd = (i.val : Int) ∧ s.OpensName u pid name i := by
  have hother {pid' : Pid} {m' : Message} (hask' : e.Asks pid' m') : m'.type = MsgType.openFile := by
    obtain rfl : m = m' := Request.message.inj (hask.request.symm.trans hask'.request)
    exact htype
  cases hu with
  | @opened pid' m' r v hask' htype' hv =>
    obtain rfl : m = m' := Request.message.inj (hask.request.symm.trans hask'.request)
    obtain rfl : pid = pid' := Option.some.inj (hask.source.symm.trans hask'.source)
    cases hv with
    | refused => exact .inl rfl
    | @found path i d q t hpath hplace hcreat _ hne hgot =>
      obtain ⟨x, hx, hpos, himap⟩ := h.withMessage.searched_eq.resolve_left hne
      rw [hx] at hgot
      have hcoherent := (h.withMessage.got hpos himap hgot).1
      cases hstrip : stripName path with
      | none =>
        rw [Fs.searched, hstrip] at hne
        exact absurd rfl hne
      | some name =>
        suffices hname : name = [] ∧ x = 1 ∨ (t.opened pid i d q m.flags).names (padName name) = some x by
          have hopens := hplace.opensName hgot.iNum hname
          exact .inr ⟨path, name, i, hpath, hstrip, rfl, hopens.free, hopens.leads⟩
        by_cases hnil : name = []
        · rw [Fs.searched, hstrip, hnil] at hx
          exact .inl ⟨hnil, (Int.ofNat.inj hx).symm⟩
        · rw [searched_of_ne hstrip hnil] at hx
          refine .inr ?_
          have hnames : (t.opened pid i d q m.flags).names = namesOn (dirSlots t.disk (dirAddr size)) n :=
            hcoherent.names_eq
          have hlt := h.imap_lt himap
          obtain ⟨w, hw⟩ : ∃ w, w = lookup (dirSlots s.disk (dirAddr size)) (n + 1) (padName name) := ⟨_, rfl⟩
          have hx' : w.toInt = (x : Int) := hw ▸ hx
          rw [← toInt_ofNat_of_lt (show x < 2 ^ 31 by omega), BitVec.toInt_inj] at hx'
          have hdisk : t.disk = s.disk := hgot.disk
          rw [hnames, namesOn, hdisk, ← hw, hx', if_neg (ofNat_ne_zero hpos (by omega)), BitVec.toNat_ofNat,
            Nat.mod_eq_of_lt (by omega)]
    | @created path name i d q x b k t hpath hplace hcreat hzero hstrip hx hv =>
      rw [Fs.Allows, hask.request] at he
      obtain ⟨-, hnames, -⟩ := h.withMessage.names_created hs ((he.2 _ hask.source).1 htype) hpath hcreat hzero hstrip
        hx hv
      have hname : (t.opened pid i d q m.flags).names (padName name) = some x := by
        change t.names (padName name) = some x
        rw [hnames, Function.update_self]
      have hnum : (t.inodeTable q).iNum = (x : Nat) := by
        rw [hv.inode]
        rfl
      have hopens := hplace.opensName hnum (.inr hname)
      exact .inr ⟨path, name, i, hpath, hstrip, rfl, hopens.free, hopens.leads⟩
  | closed hask' htype' => exact absurd ((hother hask').symm.trans htype') (by decide)
  | moved hask' _ hw =>
    rcases hw.type with htype' | htype'
    · exact absurd ((hother hask').symm.trans htype') (by decide)
    · exact absurd ((hother hask').symm.trans htype') (by decide)
  | passed hask' htype' =>
    rw [hother hask'] at htype'
    exact absurd htype' (by decide)
  | unlinked hask' htype' => exact absurd ((hother hask').symm.trans htype') (by decide)
  | resumed hask' htype' => exact absurd ((hother hask').symm.trans htype') (by decide)
  | exited hask' htype' => exact absurd ((hother hask').symm.trans htype') (by decide)
  | logged hrequest => exact Request.noConfusion (hask.request.symm.trans hrequest)
  | forked hrequest => exact Request.noConfusion (hask.request.symm.trans hrequest)

/-- In every such run a file that OPEN has opened is the one that its name leads to. -/
theorem open_leads_to_name {pid : Pid} {m : Message} (h : newMachine.Reached Fs.AllowsCompact s none)
    (he : s.AllowsCompact e) (hask : e.Asks pid m) (htype : m.type = MsgType.openFile)
    (hgo : (newMachine.step e s).2 = none) : (newMachine.step e s).1.fsMsg.fd = -1 ∨ ∃ path name i,
      fetchPathname (s.withMessage e pid m) = .ok path (s.withMessage e pid m) ∧ stripName path = some name ∧
        (newMachine.step e s).1.fsMsg.fd = (i.val : Int) ∧ s.OpensName (newMachine.step e s).1 pid name i := by
  obtain ⟨hwell, n, p, extra, hs⟩ := wellNamed_of_reached h
  exact (hs.served he.1 hgo).opensName hs hwell he.1 hask htype
theorem open_leads_to_name_createA : ∃ m, createA.Asks 6 m ∧
    ((newMachine.step createA startedFs).1.fsMsg.fd = -1 ∨ ∃ path name i,
      fetchPathname (startedFs.withMessage createA 6 m) = .ok path (startedFs.withMessage createA 6 m) ∧
        stripName path = some name ∧ (newMachine.step createA startedFs).1.fsMsg.fd = (i.val : Int) ∧
          startedFs.OpensName (newMachine.step createA startedFs).1 6 name i) := by
  have hask : createA.Asks 6
      { source := 6, type := MsgType.openFile, u := { m3i1 := 3, m3i2 := 1, m3p1 := 0x1000000 } } :=
    ⟨rfl, (by decide : pidOf 6 = some 6)⟩
  exact ⟨_, hask, open_leads_to_name (.start initial_startedFs) allowsCompact_createA hask rfl goesOn_createA⟩

end

end Dlos
