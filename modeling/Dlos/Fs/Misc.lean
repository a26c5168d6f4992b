import Dlos.Fs.Inode

/-!
# Path names and directory look-up (`fs/misc.c`, `lib/misc.c`)
-/

namespace Dlos

open Program Bytes

abbrev slash : Byte := 0x2F

/-- `strcmp` of two C strings: it ends with the shorter one. -/
def strcmp : List Byte → List Byte → Int
  | a :: s, b :: t => if a ≠ b then a.toInt - b.toInt else strcmp s t
  | _, _ => 0

/-! ## Comparing strings -/

section

variable {s t : List Byte}

/-- The strings are equal when nothing is left between them, and the sign says which one comes first. -/
structure ComparesRight (s t : List Byte) : Prop where
  equal : strcmp s t = 0 ↔ s = t
  sign : (strcmp s t).sign = -(strcmp t s).sign

theorem strcmp_symm : strcmp s t = -strcmp t s := by
  induction s generalizing t with
  | nil => cases t <;> rfl
  | cons a s ih =>
    cases t with
    | nil => rfl
    | cons b t =>
      rw [strcmp, strcmp, ih]
      by_cases hab : a = b
      · rw [if_neg (not_not.mpr hab), if_neg (not_not.mpr hab.symm)]
      · rw [if_pos hab, if_pos (Ne.symm hab)]
        omega

/-- `strcmp` sees no difference between a string and its beginnings. -/
theorem strcmp_eq_zero_iff : strcmp s t = 0 ↔ s <+: t ∨ t <+: s := by
  induction s generalizing t with
  | nil => simp [strcmp]
  | cons a s ih =>
    cases t with
    | nil => simp [strcmp]
    | cons b t =>
      rw [strcmp, List.cons_prefix_cons, List.cons_prefix_cons]
      by_cases hab : a = b
      · rw [if_neg (not_not.mpr hab), ih]
        simp [hab]
      · have hne : a.toInt - b.toInt ≠ 0 := fun h => hab (BitVec.eq_of_toInt_eq (by omega))
        rw [if_pos hab]
        simp [hne, hab, Ne.symm hab]

/-- `strcmp` is right unless one of the strings is a beginning of the other one. -/
theorem comparesRight_iff (s t : List Byte) :
    ComparesRight s t ↔ ¬(s <+: t ∧ s ≠ t) ∧ ¬(t <+: s ∧ t ≠ s) := by
  constructor
  · intro h
    refine ⟨fun hst => hst.2 ?_, fun hts => hts.2 ?_⟩
    · exact h.equal.mp (strcmp_eq_zero_iff.mpr (.inl hst.1))
    · exact (h.equal.mp (strcmp_eq_zero_iff.mpr (.inr hts.1))).symm
  · rintro ⟨hst, hts⟩
    refine ⟨?_, by rw [strcmp_symm, Int.sign_neg]⟩
    rw [strcmp_eq_zero_iff]
    constructor
    · rintro (h | h)
      · exact not_not.mp fun hne => hst ⟨h, hne⟩
      · exact not_not.mp fun hne => hts ⟨h, Ne.symm hne⟩
    · rintro rfl
      exact .inl (List.prefix_refl s)

/-- `strcmp("/a", "/")`: the test of `do_unlink` takes the path of any file for the root. -/
theorem not_comparesRight_root : ¬ComparesRight [slash, 0x61] [slash] := fun h =>
  absurd (h.equal.mp (by decide)) (by decide)

end

/-! ## Path names -/

/-- The loop of `strip_path`, with room for `n` more characters. -/
def copyName : Nat → List Byte → Option (List Byte)
  | 0, _ => some []
  | _ + 1, [] => some []
  | n + 1, c :: s => if c = slash then none else (copyName n s).map (c :: ·)

/-- The file name `strip_path` leaves; `none` is its answer -1. -/
def stripName (pathname : List Byte) : Option (List Byte) :=
  copyName maxFilenameLen (if pathname.head? = some slash then pathname.tail else pathname)

/-- `strip_path`, with the directory the name is to be looked up in. -/
def stripPath (pathname : List Byte) : FM (Option (List Byte × Option (Fin nrInode))) := do
  let s ← get
  pure ((stripName pathname).map fun filename => (filename, s.rootInode))

/-- What is left of a path name without at most one slash at its start. -/
def flatName (pathname : List Byte) : List Byte :=
  if pathname.head? = some slash then pathname.tail else pathname

/-- A path is accepted when its name has no slash, and the name is cut to what an entry can hold. -/
structure StripsFlat (s : Fs) (pathname : List Byte) (r : Option (List Byte × Option (Fin nrInode)))
    (u : Fs) : Prop where
  accepts : r.isSome ↔ slash ∉ flatName pathname
  name : ∀ filename dir, r = some (filename, dir) →
    filename = (flatName pathname).take maxFilenameLen ∧ dir = s.rootInode
  state : u = s

/-- The loop ends after `n` characters, and does not see a slash behind them. -/
theorem copyName_eq {n : Nat} {s : List Byte} :
    copyName n s = if slash ∈ s.take n then none else some (s.take n) := by
  induction n generalizing s with
  | zero => simp [copyName]
  | succ n ih =>
    cases s with
    | nil => simp [copyName]
    | cons c s =>
      rw [copyName, ih, List.take_succ_cons]
      by_cases hc : c = slash
      · rw [if_pos hc, if_pos (List.mem_cons.mpr (.inl hc.symm))]
      · have hmem : slash ∈ c :: s.take n ↔ slash ∈ s.take n :=
          List.mem_cons.trans (or_iff_right (Ne.symm hc))
        rw [if_neg hc]
        by_cases hs : slash ∈ s.take n
        · rw [if_pos hs, if_pos (hmem.mpr hs), Option.map_none]
        · rw [if_neg hs, if_neg (mt hmem.mp hs), Option.map_some]

/-- `strip_path` accepts exactly the flat paths when a slash is among the characters it looks at, if
there is one. -/
theorem stripPath_flat_iff (s : Fs) (pathname : List Byte) :
    wp (stripPath pathname) (StripsFlat s pathname) (fun _ _ => False) s ↔
      (slash ∈ flatName pathname → slash ∈ (flatName pathname).take maxFilenameLen) := by
  have hstrip : stripName pathname = if slash ∈ (flatName pathname).take maxFilenameLen then none
      else some ((flatName pathname).take maxFilenameLen) := copyName_eq
  rw [stripPath, wp_bind, wp_get, wp_pure, hstrip]
  by_cases hseen : slash ∈ (flatName pathname).take maxFilenameLen
  · rw [if_pos hseen]
    have hmem : slash ∈ flatName pathname := List.mem_of_mem_take hseen
    exact ⟨fun _ _ => hseen, fun _ => ⟨⟨nofun, fun h => absurd hmem h⟩, nofun, rfl⟩⟩
  · rw [if_neg hseen]
    refine ⟨fun h hmem => absurd hmem (h.accepts.mp rfl), fun h => ⟨⟨fun _ => mt h hseen, fun _ => rfl⟩,
      ?_, rfl⟩⟩
    · rintro filename dir hsome
      obtain ⟨rfl, rfl⟩ := Prod.mk.inj (Option.some.inj hsome)
      exact ⟨rfl, rfl⟩

/-- `123456789012/x` -/
def deepPath : List Byte :=
  [0x31, 0x32, 0x33, 0x34, 0x35, 0x36, 0x37, 0x38, 0x39, 0x30, 0x31, 0x32, slash, 0x78]

/-- A slash behind the twelfth character is not seen. -/
theorem not_stripsFlat_deepPath :
    ¬∀ s : Fs, wp (stripPath deepPath) (StripsFlat s deepPath) (fun _ _ => False) s := by
  intro h
  have hstrip := h {
    disk := fun _ => 0
    mem := fun _ => 0
    procTable := fun _ => {}
    filp := fun _ _ => none
    fDescTable := fun _ => {}
    inodeTable := fun _ => {}
    superBlock := fun _ => {}
    rootInode := some 0
    pcaller := 5
    fsMsg := {}
    logPos := 0
    geoSize := 0
    ttyReply := fun m => m
    copies := [] }
  rw [stripPath, wp_bind, wp_get, wp_pure] at hstrip
  exact absurd (hstrip.accepts.mp (by decide)) (by decide)

/-! ## Directory entries in the buffer -/

/-- The first `MAX_FILENAME_LEN` bytes of an array that was zeroed and then got a name. -/
def padName (filename : List Byte) : List Byte :=
  filename ++ List.replicate (maxFilenameLen - filename.length) 0

/-- `pde->inode_nr` of entry `j` -/
def deInode (j : Nat) : FM Int := do return (← bufWord (dirEntrySize * j)).toInt

/-- `pde->name` of entry `j` -/
def deName (j : Nat) : FM (List Byte) := do
  return bytes (← get).mem (fsbuf + dirEntrySize * j + 4) maxFilenameLen

/-- The number of entries in a sector. -/
abbrev entriesPerSect : Nat := sectorSize / dirEntrySize

/-- The entries of one sector from entry `j` on, `fuel` of them, after `m` were counted: what
`search_file` returns, or the new count. -/
def searchEntries (filename : List Byte) (nrDirEntries : Int) : Nat → Nat → Int → FM (Int ⊕ Int)
  | 0, _, m => pure (.inr m)
  | fuel + 1, j, m => do
    if padName filename = (← deName j) then return .inl (← deInode j)
    else if m + 1 > nrDirEntries then pure (.inl 0)
    else searchEntries filename nrDirEntries fuel (j + 1) (m + 1)

/-- The directory's sectors from sector `i` on, `fuel` of them. -/
def searchBlks (filename : List Byte) (dir : Inode) (nrDirEntries : Int) :
    Nat → Int → Int → FM Int
  | 0, _, _ => pure 0
  | fuel + 1, i, m => do
    rdSect dir.iDev (dir.iStartSect.toInt + i)
    match ← searchEntries filename nrDirEntries entriesPerSect 0 m with
    | .inl r => pure r
    | .inr m => searchBlks filename dir nrDirEntries fuel (i + 1) m

def searchFile (path : List Byte) : FM Int := do
  match ← stripPath path with
  | none => pure 0
  | some (filename, dirInode) => do
    let dirInode ← deref dirInode
    let dir := (← get).inodeTable dirInode
    if filename = [] then pure dir.iNum
    else
      let nrDirBlks := ((dir.iSize + BitVec.ofNat 32 sectorSize + 1) /
        BitVec.ofNat 32 sectorSize).toInt
      let nrDirEntries := (dir.iSize / BitVec.ofNat 32 dirEntrySize).toInt
      searchBlks filename dir nrDirEntries nrDirBlks.toNat 0 0

end Dlos
