import Dlos.Kernel.Console

/-!
# Each console keeps to its own memory

`Console.Fits` is the invariant of one console, and `Screen.Drawn c s t` says that the step from
`s` to `t` was made on behalf of console `c` alone: the console fits, the others and all memory
outside its cells are as before.
-/

namespace Dlos

open Program Bytes

/-- The first cell of a console; a console has 5461 cells. -/
def conBase (c : Fin nrConsoles) : Nat := 5461 * c.val

/-- The cursor is inside the console's memory, and the display has been scrolled by whole rows. -/
structure Console.Fits (base : Nat) (con : Console) : Prop where
  original : con.originalAddr.toNat = base
  limit : con.vMemLimit.toNat = 5461
  le_cursor : base ≤ con.cursor.toNat
  cursor_lt : con.cursor.toNat < base + 5461
  start : ∃ k, con.currentStartAddr.toNat = base + 80 * k ∧ k ≤ 44

/-- The bytes of a console's cells. -/
def InCells (c : Fin nrConsoles) (a : Nat) : Prop :=
  0xB8000 + 2 * conBase c ≤ a ∧ a < 0xB8000 + 2 * (conBase c + 5461)

/-- Made on behalf of console `c`. -/
structure Screen.Drawn (c : Fin nrConsoles) (s t : Screen) : Prop where
  fits : (t.consoleTable c).Fits (conBase c)
  others : ∀ d, d ≠ c → t.consoleTable d = s.consoleTable d
  mem : ∀ a, ¬ InCells c a → t.mem a = s.mem a
  writes : ∃ ws, t.writes = ws ++ s.writes ∧ ∀ w ∈ ws, w.1 = c ∧ InCells c w.2

section

variable {c d : Fin nrConsoles} {s t u : Screen} {con : Console} {f : Console → Console}
  {Q : Unit → Screen → Prop} {E : Halt → Screen → Prop} {a : BitVec 32} {b : Byte} {base fuel : Nat}

theorem conBase_le : conBase c ≤ 10922 := by
  have hc : c.val < 3 := c.isLt
  rw [conBase]
  omega

/-- The cells of different consoles are different. -/
theorem InCells.unique {x : Nat} (h : InCells c x) (h' : InCells d x) : c = d := by
  have hc : c.val < 3 := c.isLt
  have hd : d.val < 3 := d.isLt
  unfold InCells conBase at *
  exact Fin.ext (by omega)

namespace Screen.Drawn

theorem refl (h : (s.consoleTable c).Fits (conBase c)) : Drawn c s s :=
  ⟨h, fun _ _ => rfl, fun _ _ => rfl, ⟨[], rfl, List.forall_mem_nil _⟩⟩

theorem trans (h : Drawn c s t) (h' : Drawn c t u) : Drawn c s u where
  fits := h'.fits
  others d hd := (h'.others d hd).trans (h.others d hd)
  mem a ha := (h'.mem a ha).trans (h.mem a ha)
  writes := by
    obtain ⟨ws, hws, hall⟩ := h.writes
    obtain ⟨ws', hws', hall'⟩ := h'.writes
    refine ⟨ws' ++ ws, by rw [hws', hws, List.append_assoc], fun w hw => ?_⟩
    exact (List.mem_append.mp hw).elim (hall' w) (hall w)

theorem setConsole (h : Drawn c s t) (hf : (f (t.consoleTable c)).Fits (conBase c)) :
    Drawn c s (t.setConsole c f) where
  fits := by simpa [Screen.setConsole] using hf
  others d hd := by simpa [Screen.setConsole, hd] using h.others d hd
  mem := h.mem
  writes := h.writes

theorem put (h : Drawn c s t) (ha : InCells c a.toNat) : Drawn c s (t.put c a b) where
  fits := h.fits
  others := h.others
  mem x hx := by
    have hne : x ≠ a.toNat := fun e => hx (e ▸ ha)
    simpa [Screen.put, hne] using h.mem x hx
  writes := by
    obtain ⟨ws, hws, hall⟩ := h.writes
    refine ⟨(c, a.toNat) :: ws, by simp [Screen.put, hws], fun w hw => ?_⟩
    rcases List.mem_cons.mp hw with rfl | hw
    · exact ⟨rfl, ha⟩
    · exact hall w hw

/-- The hardware's registers do not matter. -/
theorem crtc (h : Drawn c s t) (r : Crtc) : Drawn c s { t with crtc := r } :=
  ⟨h.fits, h.others, h.mem, h.writes⟩

end Screen.Drawn

/-! ## Reading the state -/

@[simp] theorem wp_setConsole :
    wp (setConsole c f) Q E s ↔ Q () (s.setConsole c f) := Iff.rfl

@[simp] theorem wp_putVideo : wp (putVideo c a b) Q E s ↔ Q () (s.put c a b) := Iff.rfl

@[simp] theorem Screen.setConsole_self : (s.setConsole c f).consoleTable c = f (s.consoleTable c) := by
  simp [Screen.setConsole]

theorem Screen.setConsole_of_ne (h : d ≠ c) :
    (s.setConsole c f).consoleTable d = s.consoleTable d := by
  simp [Screen.setConsole, h]

@[simp] theorem Screen.put_consoleTable : (s.put c a b).consoleTable = s.consoleTable := rfl

theorem wp_flush (h : s.Drawn c t) : wp (flush c) (fun _ => s.Drawn c) E t := by
  rw [flush, wp_bind, wp_get, wp_onlyIf]
  exact ⟨fun _ => h.crtc _, fun _ => h⟩

/-! ## Scrolling -/

theorem Console.Fits.toNat_bound (h : con.Fits base) (hbase : base ≤ 10922) :
    (con.originalAddr + con.vMemLimit).toNat = base + 5461 := by
  rw [BitVec.toNat_add, h.original, h.limit]
  omega

theorem Console.Fits.start_lt (h : con.Fits base) : con.currentStartAddr.toNat < base + 3541 := by
  obtain ⟨k, hk⟩ := h.start
  omega

theorem wp_scrollScreen (h : s.Drawn c t) (direction : Int) :
    wp (scrollScreen c direction) (fun _ => s.Drawn c) E t := by
  obtain ⟨k, hk, hle⟩ := h.fits.start
  have hbase := conBase_le (c := c)
  have hlimit := h.fits.toNat_bound hbase
  have horiginal := h.fits.original
  rw [scrollScreen, wp_bind, wp_get]
  generalize hcon : t.consoleTable c = con at *
  have fits {x : BitVec 32} {j : Nat} (hx : x.toNat = conBase c + 80 * j)
      (hj : j ≤ 44) :
      Console.Fits (conBase c) { t.consoleTable c with currentStartAddr := x } := by
    obtain ⟨h₁, h₂, h₃, h₄, -⟩ := h.fits
    exact ⟨h₁, h₂, h₃, h₄, j, hx, hj⟩
  split
  · rw [wp_bind, wp_onlyIf, wp_setConsole]
    refine ⟨fun hup => ?_, fun _ => wp_flush h⟩
    refine wp_flush (h.setConsole ?_)
    rw [gt_iff_lt, BitVec.lt_def, horiginal, hk] at hup
    refine fits (j := k - 1) ?_ (by omega)
    rw [hcon, BitVec.toNat_sub, hk]
    simp
    omega
  · split
    · rw [wp_bind, wp_onlyIf, wp_setConsole]
      refine ⟨fun hdn => ?_, fun _ => wp_flush h⟩
      refine wp_flush (h.setConsole ?_)
      rw [BitVec.lt_def, hlimit, BitVec.toNat_add, hk] at hdn
      simp at hdn
      refine fits (j := k + 1) ?_ (by omega)
      rw [hcon, BitVec.toNat_add, hk]
      simp
      omega
    · exact wp_flush h

/-- Scrolling down makes progress while the console has rows left. -/
theorem wp_scrollDown {k : Nat} (h : s.Drawn c t)
    (hk : (t.consoleTable c).currentStartAddr.toNat = conBase c + 80 * k)
    (hlt : 2000 + 80 * k < 5461)
    (hQ : ∀ t', s.Drawn c t' →
      (t'.consoleTable c).currentStartAddr.toNat = conBase c + 80 * (k + 1) →
      (t'.consoleTable c).cursor = (t.consoleTable c).cursor → Q () t') :
    wp (scrollScreen c scrDn) Q E t := by
  have hbase := conBase_le (c := c)
  have hlimit := h.fits.toNat_bound hbase
  have hadd : ((t.consoleTable c).currentStartAddr + screenSize).toNat = conBase c + 80 * k + 2000 := by
    rw [BitVec.toNat_add, hk]
    simp
    omega
  have hmove : ((t.consoleTable c).currentStartAddr + screenWidth).toNat =
      conBase c + 80 * (k + 1) := by
    rw [BitVec.toNat_add, hk]
    simp
    omega
  have hcond : (t.consoleTable c).currentStartAddr + screenSize <
      (t.consoleTable c).originalAddr + (t.consoleTable c).vMemLimit := by
    rw [BitVec.lt_def, hadd, hlimit]
    omega
  have hscrolled : s.Drawn c (t.setConsole c fun con =>
      { con with currentStartAddr := con.currentStartAddr + screenWidth }) := by
    obtain ⟨h₁, h₂, h₃, h₄, -⟩ := h.fits
    exact h.setConsole ⟨h₁, h₂, h₃, h₄, k + 1, hmove, by omega⟩
  rw [scrollScreen, wp_bind, wp_get, if_neg (by decide), if_pos rfl, wp_bind, wp_onlyIf,
    wp_setConsole]
  refine ⟨fun _ => ?_, fun hno => absurd hcond hno⟩
  rw [flush, wp_bind, wp_get, wp_onlyIf]
  refine ⟨fun _ => hQ _ (hscrolled.crtc _) ?_ ?_, fun _ => hQ _ hscrolled ?_ ?_⟩
  · simpa [Screen.setConsole] using hmove
  · simp [Screen.setConsole]
  · simpa using hmove
  · simp

/-- The loop ends, as the cursor is inside the console's memory. -/
theorem wp_scrollToCursor {n k : Nat} (h : s.Drawn c t)
    (hk : (t.consoleTable c).currentStartAddr.toNat = conBase c + 80 * k)
    (hn : (t.consoleTable c).cursor.toNat < conBase c + 80 * k + 80 * n + 2000) :
    wp (scrollToCursor c (n + 1)) (fun _ => s.Drawn c) E t := by
  induction n generalizing t k with
  | zero =>
    have hbase := conBase_le (c := c)
    have hstart := h.fits.start_lt
    have hadd : ((t.consoleTable c).currentStartAddr + screenSize).toNat =
        conBase c + 80 * k + 2000 := by
      rw [BitVec.toNat_add, hk]
      simp
      omega
    rw [scrollToCursor_succ, wp_bind, wp_get, if_neg, wp_pure]
    · exact h
    · rw [ge_iff_le, BitVec.le_def, hadd]
      omega
  | succ n ih =>
    have hbase := conBase_le (c := c)
    have hstart := h.fits.start_lt
    have hadd : ((t.consoleTable c).currentStartAddr + screenSize).toNat =
        conBase c + 80 * k + 2000 := by
      rw [BitVec.toNat_add, hk]
      simp
      omega
    have hcursor := h.fits.cursor_lt
    rw [scrollToCursor_succ, wp_bind, wp_get, wp_ite, wp_bind, wp_pure]
    refine ⟨fun hge => ?_, fun _ => h⟩
    rw [ge_iff_le, BitVec.le_def, hadd] at hge
    refine wp_scrollDown h hk (by omega) fun t' h' hk' hc' => ?_
    refine ih h' hk' ?_
    rw [hc']
    omega

/-! ## Characters -/

/-- Moving the cursor inside the console's memory. -/
theorem Console.Fits.setCursor (h : con.Fits base) {x : BitVec 32} (hle : base ≤ x.toNat)
    (hlt : x.toNat < base + 5461) : Console.Fits base { con with cursor := x } :=
  ⟨h.original, h.limit, hle, hlt, h.start⟩

theorem toNat_cell (h : con.Fits (conBase c)) :
    (vMemBase + con.cursor * 2).toNat = 0xB8000 + 2 * con.cursor.toNat := by
  have hbase := conBase_le (c := c)
  have hcursor := h.cursor_lt
  rw [BitVec.toNat_add, BitVec.toNat_mul]
  simp
  omega

theorem Console.Fits.toNat_row (h : con.Fits base) {n : BitVec 32}
    (hn : n.toNat ≤ con.cursor.toNat - base) :
    (con.row n).toNat = (con.cursor.toNat - base - n.toNat) / 80 := by
  have hle := h.le_cursor
  rw [row, BitVec.toNat_udiv, BitVec.toNat_sub, BitVec.toNat_sub, h.original]
  have := con.cursor.isLt
  have := n.isLt
  simp
  omega

theorem wp_newLine (h : s.Drawn c t) : wp (newLine c) (fun _ => s.Drawn c) E t := by
  have hbase := conBase_le (c := c)
  have hlimit := h.fits.toNat_bound hbase
  have hrow := h.fits.toNat_row (n := 0) (by simp)
  have hcursor := h.fits.cursor_lt
  have hle := h.fits.le_cursor
  rw [newLine, wp_bind, wp_get, wp_onlyIf, wp_setConsole]
  refine ⟨fun hlt => h.setConsole (h.fits.setCursor ?_ ?_), fun _ => h⟩ <;>
  · rw [BitVec.lt_def, hlimit, BitVec.toNat_add] at hlt
    simp at hlt
    rw [BitVec.toNat_add, BitVec.toNat_mul, BitVec.toNat_add, hrow, h.fits.original]
    simp
    omega

theorem wp_printChar (h : s.Drawn c t) (ch : Byte) :
    wp (printChar c (vMemBase + (t.consoleTable c).cursor * 2) ch) (fun _ => s.Drawn c) E t := by
  have hbase := conBase_le (c := c)
  have hlimit := h.fits.toNat_bound hbase
  have hcell := toNat_cell h.fits
  have hcursor := h.fits.cursor_lt
  have hle := h.fits.le_cursor
  have hnext : (vMemBase + (t.consoleTable c).cursor * 2 + 1).toNat =
      0xB8000 + 2 * (t.consoleTable c).cursor.toNat + 1 := by
    rw [BitVec.toNat_add, hcell]
    simp
    omega
  rw [printChar, wp_bind, wp_get, wp_onlyIf, wp_bind, wp_putVideo, wp_bind, wp_putVideo,
    wp_setConsole]
  refine ⟨fun hlt => ?_, fun _ => h⟩
  have hsucc : ((t.consoleTable c).cursor + 1).toNat = (t.consoleTable c).cursor.toNat + 1 := by
    rw [BitVec.toNat_add]
    simp
    omega
  rw [BitVec.lt_def, hlimit, hsucc] at hlt
  refine ((h.put ?_).put ?_).setConsole (h.fits.setCursor ?_ ?_)
  · rw [hcell, InCells]
    omega
  · rw [hnext, InCells]
    omega
  · rw [Screen.put_consoleTable, Screen.put_consoleTable, hsucc]
    omega
  · rw [Screen.put_consoleTable, Screen.put_consoleTable, hsucc]
    omega

/-- The cursor after an erased character. -/
theorem wp_eraseChar {Q : BitVec 32 → Screen → Prop} (h : s.Drawn c t)
    (hQ : ∀ t', s.Drawn c t' → Q (vMemBase + (t'.consoleTable c).cursor * 2) t') :
    wp (eraseChar c (vMemBase + (t.consoleTable c).cursor * 2)) Q E t := by
  have hbase := conBase_le (c := c)
  have hcell := toNat_cell h.fits
  have hlt := h.fits.cursor_lt
  rw [eraseChar, wp_bind, wp_get, wp_ite]
  refine ⟨fun hgt => ?_, fun _ => hQ t h⟩
  rw [gt_iff_lt, BitVec.lt_def, h.fits.original] at hgt
  have hpred : ((t.consoleTable c).cursor - 1).toNat = (t.consoleTable c).cursor.toNat - 1 := by
    rw [BitVec.toNat_sub]
    simp
    omega
  have htwo : (vMemBase + (t.consoleTable c).cursor * 2 - 2).toNat =
      0xB8000 + 2 * (t.consoleTable c).cursor.toNat - 2 := by
    rw [BitVec.toNat_sub, hcell]
    simp
    omega
  have hone : (vMemBase + (t.consoleTable c).cursor * 2 - 1).toNat =
      0xB8000 + 2 * (t.consoleTable c).cursor.toNat - 1 := by
    rw [BitVec.toNat_sub, hcell]
    simp
    omega
  have hmove : vMemBase + (t.consoleTable c).cursor * 2 - 2 =
      vMemBase + ((t.consoleTable c).cursor - 1) * 2 := by
    bv_omega
  simp only [wp_bind, wp_setConsole, wp_putVideo, wp_pure]
  have hdrawn := ((h.setConsole (f := fun con => { con with cursor := con.cursor - 1 })
    (h.fits.setCursor (by omega) (by omega))).put (b := blank)
      (a := vMemBase + (t.consoleTable c).cursor * 2 - 2) ?_).put (b := defaultCharColor)
        (a := vMemBase + (t.consoleTable c).cursor * 2 - 1) ?_
  · have := hQ _ hdrawn
    rwa [Screen.put_consoleTable, Screen.put_consoleTable, Screen.setConsole_self, ← hmove] at this
  · rw [htwo, InCells]
    omega
  · rw [hone, InCells]
    omega

/-- The loop over blanks ends at the first cell of the console at the latest. -/
theorem wp_skipBlanks {n : Nat} {row : BitVec 32} (h : s.Drawn c t)
    (hn : (t.consoleTable c).cursor.toNat ≤ conBase c + n) (p : BitVec 32) :
    wp (skipBlanks c row (n + 1) p) (fun _ => s.Drawn c) E t := by
  induction n generalizing t p with
  | zero =>
    rw [skipBlanks_succ, wp_bind, wp_get, if_neg, wp_pure]
    · exact h
    · rw [gt_iff_lt, BitVec.lt_def, h.fits.original]
      omega
  | succ n ih =>
    have hlt := h.fits.cursor_lt
    rw [skipBlanks_succ, wp_bind, wp_get, wp_ite, wp_ite, wp_bind, wp_setConsole, wp_pure]
    refine ⟨fun hgt => ⟨fun _ => h, fun _ => ?_⟩, fun _ => h⟩
    rw [gt_iff_lt, BitVec.lt_def, h.fits.original] at hgt
    have hpred : ((t.consoleTable c).cursor - 1).toNat = (t.consoleTable c).cursor.toNat - 1 := by
      rw [BitVec.toNat_sub]
      simp
      omega
    refine ih (h.setConsole (h.fits.setCursor (by omega) (by omega))) ?_ _
    rw [Screen.setConsole_self, hpred]
    omega

theorem exists_loopFuel : ∃ n, loopFuel = n + 1 ∧ 2 ^ 31 ≤ n := ⟨2 ^ 32 - 1, by decide, by decide⟩

theorem wp_backspace (h : s.Drawn c t) (oldRow : BitVec 32) :
    wp (backspace c (vMemBase + (t.consoleTable c).cursor * 2) oldRow) (fun _ => s.Drawn c) E t := by
  rw [backspace, wp_bind]
  refine wp_eraseChar h fun t' h' => ?_
  have hlt := h'.fits.cursor_lt
  obtain ⟨n, hn, hle⟩ := exists_loopFuel
  rw [wp_bind, wp_get, wp_onlyIf, hn]
  exact ⟨fun _ => wp_skipBlanks h' (by omega) _, fun _ => h'⟩

theorem wp_outChar (h : s.Drawn c t) (ch : Byte) :
    wp (outChar c ch) (fun _ => s.Drawn c) (fun _ _ => False) t := by
  have finish (t' : Screen) (h' : s.Drawn c t') : wp (do
      scrollToCursor c loopFuel
      flush c) (fun _ => s.Drawn c) (fun _ _ => False) t' := by
    obtain ⟨k, hk, -⟩ := h'.fits.start
    have hlt := h'.fits.cursor_lt
    obtain ⟨n, hn, hle⟩ := exists_loopFuel
    rw [wp_bind, hn]
    exact (wp_scrollToCursor h' hk (by omega)).mono (fun _ u hu => wp_flush hu) fun _ _ h => h
  rw [outChar, wp_bind, wp_get]
  split
  · rw [wp_bind]
    exact (wp_newLine h).mono (fun _ t' h' => finish t' h') fun _ _ h => h
  · split
    · rw [wp_bind]
      exact (wp_backspace h _).mono (fun _ t' h' => finish t' h') fun _ _ h => h
    · rw [wp_bind]
      exact (wp_printChar h ch).mono (fun _ t' h' => finish t' h') fun _ _ h => h

attribute [local irreducible] outChar

/-! ## Runs -/

/-- The consoles of a list fit, and what was written for a console are its own cells. -/
structure Screen.Ready (s : Screen) (l : List (Fin nrConsoles)) : Prop where
  fits : ∀ c ∈ l, (s.consoleTable c).Fits (conBase c)
  writes : ∀ w ∈ s.writes, InCells w.1 w.2

/-- Every console fits, and what was written for it are its own cells. -/
abbrev Screen.Inv (s : Screen) : Prop := s.Ready (List.finRange nrConsoles)

theorem Screen.Drawn.ready {l : List (Fin nrConsoles)} (h : s.Drawn c t) (hs : s.Ready l) :
    t.Ready (c :: l) where
  fits d hd := by
    by_cases hdc : d = c
    · subst hdc
      exact h.fits
    · rw [h.others d hdc]
      exact hs.fits d ((List.mem_cons.mp hd).resolve_left hdc)
  writes w hw := by
    obtain ⟨ws, hws, hall⟩ := h.writes
    rw [hws] at hw
    rcases List.mem_append.mp hw with hw | hw
    · obtain ⟨rfl, hcells⟩ := hall w hw
      exact hcells
    · exact hs.writes w hw

theorem Screen.Drawn.inv (h : s.Drawn c t) (hs : s.Inv) : t.Inv where
  fits d hd := (h.ready hs).fits d (List.mem_cons_of_mem c hd)
  writes := (h.ready hs).writes

theorem Screen.Ready.setConsole {l : List (Fin nrConsoles)} (hs : s.Ready l) (hc : c ∉ l) :
    (s.setConsole c f).Ready l where
  fits d hd := by
    have hdc : d ≠ c := fun e => hc (e ▸ hd)
    simpa [Screen.setConsole, hdc] using hs.fits d hd
  writes := hs.writes

/-- A console before anything is written to it. -/
def freshConsole (c : Fin nrConsoles) : Console where
  originalAddr := BitVec.ofNat 32 (c.val * (vMemBytes / 2 / nrConsoles))
  vMemLimit := BitVec.ofNat 32 (vMemBytes / 2 / nrConsoles)
  currentStartAddr := BitVec.ofNat 32 (c.val * (vMemBytes / 2 / nrConsoles))
  cursor := BitVec.ofNat 32 (c.val * (vMemBytes / 2 / nrConsoles))

theorem toNat_freshConsole : (freshConsole c).currentStartAddr.toNat = conBase c := by
  have hlt : c.val < 3 := c.isLt
  have hcells : vMemBytes / 2 / nrConsoles = 5461 := by decide
  rw [freshConsole, hcells, BitVec.toNat_ofNat, conBase]
  omega

theorem freshConsole_fits : (freshConsole c).Fits (conBase c) := by
  have hbase := toNat_freshConsole (c := c)
  exact ⟨hbase, rfl, hbase.ge, hbase.trans_lt (by omega), 0, hbase, Nat.zero_le _⟩

theorem Screen.Drawn.fresh :
    (s.setConsole c fun _ => freshConsole c).Drawn c (s.setConsole c fun _ => freshConsole c) := by
  refine .refl ?_
  rw [Screen.setConsole_self]
  exact freshConsole_fits

/-- `init_screen` makes a console ready. -/
theorem wp_initScreen {l : List (Fin nrConsoles)} (hs : s.Ready l) (hc : c ∉ l)
    (hpos : c = 0 → (BitVec.ofInt 32 (s.dispPos.tdiv 2)).toNat < 5461) :
    wp (initScreen c) (fun _ t => t.Ready (c :: l)) (fun _ _ => False) s := by
  have hdrawn := Screen.Drawn.fresh (c := c) (s := s)
  have hready := hs.setConsole (f := fun _ => freshConsole c) hc
  rw [initScreen, wp_bind, wp_setConsole, wp_ite]
  refine ⟨fun h0 => ?_, fun _ => ?_⟩
  · subst h0
    rw [wp_bind, wp_get, wp_bind, wp_setConsole, wp_bind, wp_modify, wp_bind, wp_get]
    have hmoved := hdrawn.setConsole (f := fun con =>
      { con with cursor := BitVec.ofInt 32 (s.dispPos.tdiv 2) })
      (hdrawn.fits.setCursor (Nat.zero_le _) (by simpa [conBase] using hpos rfl))
    have hfinal := hmoved.ready hready
    exact ⟨hfinal.fits, hfinal.writes⟩
  · rw [wp_bind]
    refine (wp_outChar hdrawn _).mono (fun _ t ht => ?_) fun _ _ h => h
    rw [wp_bind]
    refine (wp_outChar ht _).mono (fun _ u hu => ?_) fun _ _ h => h
    rw [wp_bind, wp_get]
    exact (hu.crtc _).ready hready

attribute [local irreducible] initScreen

theorem wp_initScreens (h : s.Booted) : wp initScreens (fun _ t => t.Inv) (fun _ _ => False) s := by
  have hlist : List.finRange nrConsoles = [0, 1, 2] := by decide
  have hnone : s.Ready [] := ⟨List.forall_mem_nil _, by simp [h.2]⟩
  rw [initScreens, hlist, wp_forM_cons]
  refine (wp_initScreen hnone (by decide) fun _ => h.1).mono (fun _ t ht => ?_) fun _ _ h => h
  rw [wp_forM_cons]
  refine (wp_initScreen ht (by decide) fun h => absurd h (by decide)).mono (fun _ u hu => ?_) fun _ _ h => h
  rw [wp_forM_cons]
  refine (wp_initScreen hu (by decide) fun h => absurd h (by decide)).mono (fun _ v hv => ?_) fun _ _ h => h
  rw [wp_forM_nil]
  exact ⟨fun c _ => hv.fits c (by revert c; decide), hv.writes⟩

/-- The consoles themselves do not depend on which is current. -/
theorem wp_selectConsole (hs : s.Inv) (n : Int) :
    wp (selectConsole n) (fun _ t => t.Inv) E s := by
  rw [selectConsole]
  split
  · generalize hc : (⟨n.toNat, _⟩ : Fin nrConsoles) = c
    have hdrawn : s.Drawn c { s with nrCurrentConsole := c } :=
      ⟨hs.fits c (List.mem_finRange c), fun _ _ => rfl, fun _ _ => rfl,
        [], rfl, List.forall_mem_nil _⟩
    rw [wp_bind, wp_modify]
    exact (wp_flush hdrawn).mono (fun _ _ h => h.inv hs) fun _ _ h => h
  · exact hs

attribute [local irreducible] initScreens scrollScreen selectConsole

theorem wp_screenEvent (hs : s.Inv) (e : ScreenEvent) :
    wp e.run (fun _ t => t.Inv) (fun _ _ => False) s := by
  have fits (c : Fin nrConsoles) : s.Drawn c s := .refl (hs.fits c (List.mem_finRange c))
  cases e with
  | outChar c ch => exact (wp_outChar (fits c) ch).mono (fun _ _ h => h.inv hs) fun _ _ h => h
  | scrollScreen c direction =>
    exact (wp_scrollScreen (fits c) direction).mono (fun _ _ h => h.inv hs) fun _ _ h => h
  | selectConsole n => exact wp_selectConsole hs n

/-- A byte of a console's cells. -/
def Console.Owns (con : Console) (a : Nat) : Prop :=
  vMemBase.toNat + 2 * con.originalAddr.toNat ≤ a ∧
    a < vMemBase.toNat + 2 * (con.originalAddr.toNat + con.vMemLimit.toNat)

/-- Cursors stay in the consoles' own memory, and so does what is written. -/
structure ConsolesApart (s : Screen) : Prop where
  le_cursor : ∀ c, (s.consoleTable c).originalAddr.toNat ≤ (s.consoleTable c).cursor.toNat
  cursor_lt : ∀ c, (s.consoleTable c).cursor.toNat <
    (s.consoleTable c).originalAddr.toNat + (s.consoleTable c).vMemLimit.toNat
  le_start : ∀ c, (s.consoleTable c).originalAddr.toNat ≤ (s.consoleTable c).currentStartAddr.toNat
  writes : ∀ w ∈ s.writes, (s.consoleTable w.1).Owns w.2
  unique : ∀ c d a, (s.consoleTable c).Owns a → (s.consoleTable d).Owns a → c = d

theorem Screen.Inv.owns (hs : s.Inv) (c : Fin nrConsoles) (x : Nat) :
    (s.consoleTable c).Owns x ↔ InCells c x := by
  have h := hs.fits c (List.mem_finRange c)
  rw [Console.Owns, h.original, h.limit]
  rfl

theorem Screen.Inv.apart (hs : s.Inv) : ConsolesApart s where
  le_cursor c := by
    have h := hs.fits c (List.mem_finRange c)
    rw [h.original]
    exact h.le_cursor
  cursor_lt c := by
    have h := hs.fits c (List.mem_finRange c)
    rw [h.original, h.limit]
    exact h.cursor_lt
  le_start c := by
    have h := hs.fits c (List.mem_finRange c)
    obtain ⟨k, hk, -⟩ := h.start
    rw [h.original, hk]
    exact Nat.le_add_right _ _
  writes w hw := (Screen.Inv.owns hs w.1 w.2).mpr (hs.writes w hw)
  unique c d x hc hd :=
    InCells.unique ((Screen.Inv.owns hs c x).mp hc) ((Screen.Inv.owns hs d x).mp hd)

theorem reached_screen {o : Option Halt} (hr : screenMachine.Reached (fun _ _ => True) s o) :
    o = none ∧ s.Inv := by
  refine hr.invariant (I := fun s o => o = none ∧ s.Inv) ?_ ?_
  · rintro s ⟨s₀, hbooted, hinit⟩
    exact ⟨rfl, (wp_of_ok hinit).mp (wp_initScreens hbooted)⟩
  · rintro s e - ⟨-, hs⟩ -
    have hwp := wp_screenEvent hs e
    exact exec_of_wp (P := fun t r => r = none ∧ t.Inv)
      (hwp.mono (fun _ _ h => ⟨rfl, h⟩) fun _ _ h => h.elim)

/-- In every run every call ends, every console keeps its cursor and its writes in its own memory,
and a character leaves all cells of the other consoles as they were. -/
theorem consoles_apart {o : Option Halt} (hr : screenMachine.Reached (fun _ _ => True) s o) :
    o = none ∧ ConsolesApart s ∧ ∀ c ch x, ¬ (s.consoleTable c).Owns x →
      (screenMachine.step (.outChar c ch) s).1.mem x = s.mem x := by
  obtain ⟨hnone, hs⟩ := reached_screen hr
  refine ⟨hnone, hs.apart, fun c ch x hx => ?_⟩
  rw [Screen.Inv.owns hs] at hx
  exact exec_of_wp (P := fun t _ => t.mem x = s.mem x)
    ((wp_outChar (.refl (hs.fits c (List.mem_finRange c))) ch).mono (fun _ _ h => h.mem x hx)
      fun _ _ h => h.elim)

/-- Nothing has been printed before the consoles are set up. -/
def Screen.boot : Screen where
  consoleTable _ := {}
  nrCurrentConsole := 0
  dispPos := 0
  mem _ := 0
  crtc := {}
  writes := []

theorem Screen.boot_booted : Screen.boot.Booted := ⟨by decide, rfl⟩

theorem Screen.boot_initial : screenMachine.initial (exec initScreens Screen.boot).1 := by
  have hinit := wp_initScreens Screen.boot_booted
  refine ⟨Screen.boot, Screen.boot_booted, ?_⟩
  unfold exec
  cases hrun : initScreens Screen.boot with
  | ok a t => rfl
  | error e t => exact ((wp_of_error hrun).mp hinit).elim

theorem Screen.boot_reached :
    screenMachine.Reached (fun _ _ => True) (exec initScreens Screen.boot).1 none :=
  .start Screen.boot_initial

theorem consoles_apart_boot : none = (none : Option Halt) ∧
    ConsolesApart (exec initScreens Screen.boot).1 ∧
    ∀ c ch x, ¬ ((exec initScreens Screen.boot).1.consoleTable c).Owns x →
      (screenMachine.step (.outChar c ch) (exec initScreens Screen.boot).1).1.mem x =
        (exec initScreens Screen.boot).1.mem x :=
  consoles_apart Screen.boot_reached

end

end Dlos
