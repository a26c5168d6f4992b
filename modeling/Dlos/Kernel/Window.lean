import Dlos.Kernel.Screen

/-!
# The part of a console that is shown

`scroll_screen` moves the window by a row whenever it does not end at the end of the console's memory,
which is not a whole number of rows. In calls with a whole row left no console shows what is behind
its memory.
-/

namespace Dlos

open Program Bytes

/-! ## Windows -/

/-- The window of a console is in its own memory, and in the video memory. -/
structure Console.WindowInside (con : Console) : Prop where
  le_start : con.originalAddr.toNat ≤ con.currentStartAddr.toNat
  end_le : con.currentStartAddr.toNat + screenSize.toNat ≤ con.originalAddr.toNat + con.vMemLimit.toNat
  video : con.currentStartAddr.toNat + screenSize.toNat ≤ vMemBytes / 2

/-- What `set_video_start_addr` was called with. -/
def Screen.shownAddr (s : Screen) : Nat := s.crtc.startHigh.toNat * 256 + s.crtc.startLow.toNat

/-- Where a character moves the cursor, before blanks are skipped. -/
def Console.cursorFor (con : Console) (ch : Byte) : BitVec 32 :=
  if ch = 0x0A then
    if con.cursor + screenWidth < con.originalAddr + con.vMemLimit then
      con.originalAddr + screenWidth * (con.row 0 + 1)
    else con.cursor
  else if ch = 0x08 then if con.cursor > con.originalAddr then con.cursor - 1 else con.cursor
  else if con.cursor + 1 < con.originalAddr + con.vMemLimit then con.cursor + 1
  else con.cursor

/-- The end of the last window of whole rows. -/
def Console.lastEnd (con : Console) : Nat :=
  con.originalAddr.toNat + screenSize.toNat +
    (con.vMemLimit.toNat - screenSize.toNat) / screenWidth.toNat * screenWidth.toNat

/-- The cursor stays in front of the end of the last window of whole rows, and scrolling down has a
whole row left. -/
def RoomyEvent (s : Screen) : ScreenEvent → Prop
  | .outChar c ch => ((s.consoleTable c).cursorFor ch).toNat < (s.consoleTable c).lastEnd
  | .scrollScreen c direction => direction = scrDn →
    (s.consoleTable c).currentStartAddr.toNat + screenSize.toNat + screenWidth.toNat ≤
      (s.consoleTable c).originalAddr.toNat + (s.consoleTable c).vMemLimit.toNat
  | .selectConsole _ => True

/-- The console that a call is for. -/
def ScreenEvent.console : ScreenEvent → Option (Fin nrConsoles)
  | .outChar c _ => some c
  | .scrollScreen c _ => some c
  | .selectConsole _ => none

/-- No console shows what is not its own. -/
structure WindowsInside (s : Screen) : Prop where
  inside : ∀ c, (s.consoleTable c).WindowInside
  shown : ∀ e c, e.console = some c → c = (screenMachine.step e s).1.nrCurrentConsole →
    (screenMachine.step e s).1.shownAddr =
      ((screenMachine.step e s).1.consoleTable c).currentStartAddr.toNat

/-- The window starts `k` rows behind the start of the console's memory. -/
def Screen.StartsAt (c : Fin nrConsoles) (k : Nat) (s : Screen) : Prop :=
  (s.consoleTable c).currentStartAddr.toNat = conBase c + 80 * k

section

variable {c d : Fin nrConsoles} {s t u : Screen} {con : Console} {Q : Unit → Screen → Prop}
  {E : Halt → Screen → Prop} {k n : Nat} {a row : BitVec 32} {ch : Byte}

theorem Console.Fits.lastEnd_eq {base : Nat} (h : con.Fits base) : con.lastEnd = base + 5440 := by
  rw [lastEnd, h.original, h.limit]
  rfl

theorem Console.Fits.windowInside (h : con.Fits (conBase c))
    (hk : con.currentStartAddr.toNat = conBase c + 80 * k) (hle : k ≤ 43) : con.WindowInside := by
  have hbase := conBase_le (c := c)
  have hsize : screenSize.toNat = 2000 := rfl
  refine ⟨?_, ?_, ?_⟩
  · rw [h.original, hk]
    exact Nat.le_add_right _ _
  · rw [h.original, h.limit, hk, hsize]
    omega
  · rw [hk, hsize]
    change _ ≤ 16384
    omega

/-! ## What a character does to the window -/

/-- A character has moved the cursor of console `c`, and not the window. -/
structure Screen.Typed (c : Fin nrConsoles) (k bound : Nat) (s t : Screen) : Prop where
  drawn : s.Drawn c t
  start : t.StartsAt c k
  cursor : (t.consoleTable c).cursor.toNat ≤ bound

/-- The cursor moves. -/
theorem Screen.Typed.setCursor {bound : Nat} {x : BitVec 32} (h : s.Typed c k n t)
    (hle : conBase c ≤ x.toNat) (hlt : x.toNat < conBase c + 5461) (hx : x.toNat ≤ bound) :
    s.Typed c k bound (t.setConsole c fun con => { con with cursor := x }) where
  drawn := h.drawn.setConsole (h.drawn.fits.setCursor hle hlt)
  start := by
    rw [StartsAt, Screen.setConsole_self]
    exact h.start
  cursor := by
    rw [Screen.setConsole_self]
    exact hx

theorem wp_newLine_typed (h : s.Typed c k n t) :
    wp (newLine c) (fun _ => s.Typed c k ((t.consoleTable c).cursorFor 0x0A).toNat) E t := by
  have hdrawn := (wp_newLine (E := E) h.drawn)
  rw [newLine, wp_bind, wp_get, wp_onlyIf, wp_setConsole] at hdrawn ⊢
  refine ⟨fun hlt => ⟨hdrawn.1 hlt, ?_, ?_⟩, fun hlt => ⟨h.drawn, h.start, ?_⟩⟩
  · rw [Screen.StartsAt, Screen.setConsole_self]
    exact h.start
  · rw [Screen.setConsole_self, Console.cursorFor, if_pos rfl, if_pos hlt]
  · rw [Console.cursorFor, if_pos rfl, if_neg hlt]

theorem wp_printChar_typed (h : s.Typed c k n t) (hnl : ch ≠ 0x0A) (hbs : ch ≠ 0x08) :
    wp (printChar c (vMemBase + (t.consoleTable c).cursor * 2) ch)
      (fun _ => s.Typed c k ((t.consoleTable c).cursorFor ch).toNat) E t := by
  have hdrawn := (wp_printChar (E := E) h.drawn ch)
  rw [printChar, wp_bind, wp_get, wp_onlyIf, wp_bind, wp_putVideo, wp_bind, wp_putVideo,
    wp_setConsole] at hdrawn ⊢
  refine ⟨fun hlt => ⟨hdrawn.1 hlt, ?_, ?_⟩, fun hlt => ⟨h.drawn, h.start, ?_⟩⟩
  · rw [Screen.StartsAt, Screen.setConsole_self]
    exact h.start
  · rw [Screen.setConsole_self, Console.cursorFor, if_neg hnl, if_neg hbs, if_pos hlt]
    exact le_rfl
  · rw [Console.cursorFor, if_neg hnl, if_neg hbs, if_neg hlt]

/-- The loop over blanks moves the cursor back. -/
theorem wp_skipBlanks_typed {m : Nat} (h : s.Typed c k n t)
    (hm : (t.consoleTable c).cursor.toNat ≤ conBase c + m) (p : BitVec 32) :
    wp (skipBlanks c row (m + 1) p) (fun _ => s.Typed c k n) E t := by
  induction m generalizing t p with
  | zero =>
    rw [skipBlanks_succ, wp_bind, wp_get, if_neg, wp_pure]
    · exact h
    · rw [gt_iff_lt, BitVec.lt_def, h.drawn.fits.original]
      omega
  | succ m ih =>
    have hlt := h.drawn.fits.cursor_lt
    rw [skipBlanks_succ, wp_bind, wp_get, wp_ite, wp_ite, wp_bind, wp_setConsole, wp_pure]
    refine ⟨fun hgt => ⟨fun _ => h, fun _ => ?_⟩, fun _ => h⟩
    rw [gt_iff_lt, BitVec.lt_def, h.drawn.fits.original] at hgt
    have hpred : ((t.consoleTable c).cursor - 1).toNat = (t.consoleTable c).cursor.toNat - 1 := by
      rw [BitVec.toNat_sub]
      simp
      omega
    have hcursor := h.cursor
    refine ih (h.setCursor (by omega) (by omega) (by omega)) ?_ _
    rw [Screen.setConsole_self, hpred]
    omega

theorem wp_backspace_typed (h : s.Typed c k n t) (oldRow : BitVec 32) :
    wp (backspace c (vMemBase + (t.consoleTable c).cursor * 2) oldRow)
      (fun _ => s.Typed c k ((t.consoleTable c).cursorFor 0x08).toNat) E t := by
  have herased : wp (eraseChar c (vMemBase + (t.consoleTable c).cursor * 2))
      (fun _ => s.Typed c k ((t.consoleTable c).cursorFor 0x08).toNat) E t := by
    have hdrawn := wp_eraseChar (E := E) (Q := fun _ => s.Drawn c) h.drawn fun _ h' => h'
    rw [eraseChar, wp_bind, wp_get, wp_ite] at hdrawn ⊢
    refine ⟨fun hgt => ⟨hdrawn.1 hgt, ?_, ?_⟩, fun hgt => ⟨h.drawn, h.start, ?_⟩⟩
    · rw [Screen.StartsAt, Screen.put_consoleTable, Screen.put_consoleTable, Screen.setConsole_self]
      exact h.start
    · rw [Screen.put_consoleTable, Screen.put_consoleTable, Screen.setConsole_self, Console.cursorFor,
        if_neg (by decide), if_pos rfl, if_pos hgt]
    · rw [Console.cursorFor, if_neg (by decide), if_pos rfl, if_neg hgt]
  rw [backspace, wp_bind]
  refine herased.mono (fun p t' h' => ?_) fun _ _ he => he
  obtain ⟨m, hm, hle⟩ := exists_loopFuel
  have hlt := h'.drawn.fits.cursor_lt
  rw [wp_bind, wp_get, wp_onlyIf, hm]
  exact ⟨fun _ => wp_skipBlanks_typed h' (by omega) _, fun _ => h'⟩

/-! ## Scrolling to the cursor -/

/-- The cursor is in front of the end of the last window, and so the loop stops there. -/
theorem wp_scrollToCursor_typed {m : Nat} (h : s.Typed c k n t) (hk : k ≤ 43)
    (hn : n < conBase c + 5440)
    (hm : (t.consoleTable c).cursor.toNat < conBase c + 80 * k + 80 * m + 2000) :
    wp (scrollToCursor c (m + 1)) (fun _ u => ∃ k ≤ 43, s.Typed c k n u) E t := by
  have hbase := conBase_le (c := c)
  have hadd : ((t.consoleTable c).currentStartAddr + screenSize).toNat =
      conBase c + 80 * k + 2000 := by
    rw [BitVec.toNat_add, h.start]
    simp
    omega
  induction m generalizing t k with
  | zero =>
    rw [scrollToCursor_succ, wp_bind, wp_get, if_neg, wp_pure]
    · exact ⟨k, hk, h⟩
    · rw [ge_iff_le, BitVec.le_def, hadd]
      omega
  | succ m ih =>
    have hcursor := h.cursor
    rw [scrollToCursor_succ, wp_bind, wp_get, wp_ite, wp_bind, wp_pure]
    refine ⟨fun hge => ?_, fun _ => ⟨k, hk, h⟩⟩
    rw [ge_iff_le, BitVec.le_def, hadd] at hge
    refine wp_scrollDown h.drawn h.start (by omega) fun t' h' hk' hc' => ?_
    refine ih ⟨h', hk', ?_⟩ (by omega) ?_ ?_
    · rw [hc']
      exact hcursor
    · rw [hc']
      omega
    · rw [BitVec.toNat_add, hk']
      simp
      omega

theorem wp_flush_typed (h : s.Typed c k n t) : wp (flush c) (fun _ => s.Typed c k n) E t := by
  rw [flush, wp_bind, wp_get, wp_onlyIf]
  exact ⟨fun _ => ⟨h.drawn.crtc _, h.start, h.cursor⟩, fun _ => h⟩

/-- A character that leaves the cursor in front of the end of the last window leaves the window in the
console's memory. -/
theorem wp_outChar_typed (h : s.Typed c k n t) (hk : k ≤ 43)
    (hroom : ((t.consoleTable c).cursorFor ch).toNat < (t.consoleTable c).lastEnd) :
    wp (outChar c ch) (fun _ u => ∃ k ≤ 43, s.Typed c k ((t.consoleTable c).cursorFor ch).toNat u)
      (fun _ _ => False) t := by
  rw [h.drawn.fits.lastEnd_eq] at hroom
  have finish (t' : Screen) (h' : s.Typed c k ((t.consoleTable c).cursorFor ch).toNat t') : wp (do
      scrollToCursor c loopFuel
      flush c) (fun _ u => ∃ k ≤ 43, s.Typed c k ((t.consoleTable c).cursorFor ch).toNat u)
        (fun _ _ => False) t' := by
    have hlt := h'.drawn.fits.cursor_lt
    obtain ⟨m, hm, hle⟩ := exists_loopFuel
    rw [wp_bind, hm]
    refine (wp_scrollToCursor_typed h' hk hroom (by omega)).mono (fun _ u ⟨k', hk', hu⟩ => ?_)
      fun _ _ h => h
    exact (wp_flush_typed hu).mono (fun _ v hv => ⟨k', hk', hv⟩) fun _ _ h => h
  rw [outChar, wp_bind, wp_get]
  split_ifs with hnl hbs
  · subst hnl
    rw [wp_bind]
    exact (wp_newLine_typed h).mono (fun _ t' h' => finish t' h') fun _ _ h => h
  · subst hbs
    rw [wp_bind]
    exact (wp_backspace_typed h _).mono (fun _ t' h' => finish t' h') fun _ _ h => h
  · rw [wp_bind]
    exact (wp_printChar_typed h hnl hbs).mono (fun _ t' h' => finish t' h') fun _ _ h => h

/-! ## What scrolling does to the window -/

theorem wp_scrollScreen_window (h : s.Drawn c t) (hstart : t.StartsAt c k) (hk : k ≤ 43)
    {direction : Int} (hroom : direction = scrDn →
      (t.consoleTable c).currentStartAddr.toNat + screenSize.toNat + screenWidth.toNat ≤
        (t.consoleTable c).originalAddr.toNat + (t.consoleTable c).vMemLimit.toNat) :
    wp (scrollScreen c direction) (fun _ u => s.Drawn c u ∧ ∃ k ≤ 43, u.StartsAt c k)
      (fun _ _ => False) t := by
  have hbase := conBase_le (c := c)
  by_cases hdn : direction = scrDn
  · subst hdn
    have hle := hroom rfl
    rw [hstart, h.fits.original, h.fits.limit, show screenSize.toNat = 2000 from rfl,
      show screenWidth.toNat = 80 from rfl] at hle
    exact wp_scrollDown h hstart (by omega) fun u hu hu' _ => ⟨hu, k + 1, by omega, hu'⟩
  · have hdrawn := wp_scrollScreen (E := fun _ _ => False) h direction
    suffices hstarts : wp (scrollScreen c direction) (fun _ u => ∃ k ≤ 43, u.StartsAt c k)
        (fun _ _ => False) t from (hdrawn.and hstarts).mono (fun _ _ h => h) fun _ _ h => h.1
    rw [scrollScreen, wp_bind, wp_get]
    split_ifs with hup
    · rw [wp_bind, wp_onlyIf, wp_setConsole]
      refine ⟨fun hgt => ?_, fun _ => ?_⟩
      · rw [gt_iff_lt, BitVec.lt_def, h.fits.original, hstart] at hgt
        rw [flush, wp_bind, wp_get, wp_onlyIf]
        have hmove : ((t.consoleTable c).currentStartAddr - screenWidth).toNat =
            conBase c + 80 * (k - 1) := by
          rw [BitVec.toNat_sub, hstart]
          simp
          omega
        have hmoved : (t.setConsole c fun con =>
            { con with currentStartAddr := con.currentStartAddr - screenWidth }).StartsAt c (k - 1) := by
          rw [Screen.StartsAt, Screen.setConsole_self]
          exact hmove
        exact ⟨fun _ => ⟨k - 1, by omega, hmoved⟩, fun _ => ⟨k - 1, by omega, hmoved⟩⟩
      · rw [flush, wp_bind, wp_get, wp_onlyIf]
        exact ⟨fun _ => ⟨k, hk, hstart⟩, fun _ => ⟨k, hk, hstart⟩⟩
    · rw [flush, wp_bind, wp_get, wp_onlyIf]
      exact ⟨fun _ => ⟨k, hk, hstart⟩, fun _ => ⟨k, hk, hstart⟩⟩

/-! ## What the hardware shows -/

/-- The hardware shows console `c`, if it is the current one. -/
def Screen.Shows (c : Fin nrConsoles) (s : Screen) : Prop :=
  c = s.nrCurrentConsole → s.shownAddr = (s.consoleTable c).currentStartAddr.toNat % 65536

theorem wp_flush_shows : wp (flush c) (fun _ => Screen.Shows c) E t := by
  rw [flush, wp_bind, wp_get, wp_onlyIf]
  refine ⟨fun _ _ => ?_, fun hne h => absurd h hne⟩
  change ((t.consoleTable c).currentStartAddr >>> 8).truncate 8 |>.toNat |> (· * 256 +
    ((t.consoleTable c).currentStartAddr.truncate 8).toNat) |> (· = _)
  simp only [BitVec.truncate_eq_setWidth, BitVec.toNat_setWidth, BitVec.toNat_ushiftRight,
    Nat.shiftRight_eq_div_pow]
  omega

/-- `flush` is the last thing that is done. -/
theorem wp_outChar_shows : wp (outChar c ch) (fun _ => Screen.Shows c) (fun _ _ => True) t := by
  have finish (u : Screen) : wp (do
      scrollToCursor c loopFuel
      flush c) (fun _ => Screen.Shows c) (fun _ _ => True) u :=
    wp_bind_any (fun _ _ => trivial) fun _ _ => wp_flush_shows
  rw [outChar, wp_bind, wp_get]
  split_ifs
  · exact wp_bind_any (fun _ _ => trivial) fun _ => finish
  · exact wp_bind_any (fun _ _ => trivial) fun _ => finish
  · exact wp_bind_any (fun _ _ => trivial) fun _ => finish

theorem wp_scrollScreen_shows {direction : Int} :
    wp (scrollScreen c direction) (fun _ => Screen.Shows c) (fun _ _ => True) t := by
  rw [scrollScreen, wp_bind, wp_get]
  split_ifs
  · exact wp_bind_any (fun _ _ => trivial) fun _ _ => wp_flush_shows
  · exact wp_bind_any (fun _ _ => trivial) fun _ _ => wp_flush_shows
  · exact wp_flush_shows

/-! ## Runs -/

/-- The windows of the consoles of a list are whole rows behind the start, and not too many. -/
def Screen.Windows (l : List (Fin nrConsoles)) (s : Screen) : Prop :=
  ∀ c ∈ l, ∃ k ≤ 43, s.StartsAt c k

theorem Screen.Drawn.windows {l : List (Fin nrConsoles)} (h : s.Drawn c t) (hs : s.Windows l)
    (hc : ∃ k ≤ 43, t.StartsAt c k) : t.Windows (c :: l) := by
  intro d hd
  by_cases hdc : d = c
  · subst hdc
    exact hc
  · obtain ⟨k, hk, hstart⟩ := hs d ((List.mem_cons.mp hd).resolve_left hdc)
    refine ⟨k, hk, ?_⟩
    rw [Screen.StartsAt, h.others d hdc]
    exact hstart

theorem Screen.Typed.fresh : (s.setConsole c fun _ => freshConsole c).Typed c 0 (conBase c)
    (s.setConsole c fun _ => freshConsole c) where
  drawn := .fresh
  start := by
    rw [StartsAt, Screen.setConsole_self]
    exact toNat_freshConsole
  cursor := by
    rw [Screen.setConsole_self]
    exact toNat_freshConsole.le

/-- A character in front of the end of the last window. -/
theorem Screen.Typed.cursorFor_lt (h : s.Typed c k n t) (hn : n + 1 < conBase c + 5440)
    (hnl : ch ≠ 0x0A) (hbs : ch ≠ 0x08) :
    ((t.consoleTable c).cursorFor ch).toNat < (t.consoleTable c).lastEnd ∧
      ((t.consoleTable c).cursorFor ch).toNat ≤ n + 1 := by
  have hcursor := h.cursor
  have hle : ((t.consoleTable c).cursorFor ch).toNat ≤ n + 1 := by
    rw [Console.cursorFor, if_neg hnl, if_neg hbs]
    split
    · rw [BitVec.toNat_add]
      simp
      omega
    · omega
  rw [h.drawn.fits.lastEnd_eq]
  exact ⟨by omega, hle⟩

theorem wp_initScreen_windows {l : List (Fin nrConsoles)} (hs : s.Windows l) (hc : c ∉ l)
    (hpos : c = 0 → (BitVec.ofInt 32 (s.dispPos.tdiv 2)).toNat < 5461) :
    wp (initScreen c) (fun _ t => t.Windows (c :: l)) (fun _ _ => False) s := by
  have hlt : c.val < 3 := c.isLt
  have hfresh := Screen.Typed.fresh (c := c) (s := s)
  have hothers : (s.setConsole c fun _ => freshConsole c).Windows l := by
    intro d hd
    have hdc : d ≠ c := fun e => hc (e ▸ hd)
    obtain ⟨k, hk, hstart⟩ := hs d hd
    refine ⟨k, hk, ?_⟩
    rw [Screen.StartsAt, Screen.setConsole_of_ne hdc]
    exact hstart
  rw [initScreen, wp_bind, wp_setConsole, wp_ite]
  refine ⟨fun h0 => ?_, fun hne => ?_⟩
  · subst h0
    rw [wp_bind, wp_get, wp_bind, wp_setConsole, wp_bind, wp_modify, wp_bind, wp_get]
    have hmoved := hfresh.setCursor (x := BitVec.ofInt 32 (s.dispPos.tdiv 2)) (Nat.zero_le _)
      (by simpa [conBase] using hpos rfl) le_rfl
    exact hmoved.drawn.windows hothers ⟨0, Nat.zero_le _, hmoved.start⟩
  · have hdigit (c : Fin nrConsoles) :
        BitVec.ofNat 8 c.val + 0x30 ≠ 0x0A ∧ BitVec.ofNat 8 c.val + 0x30 ≠ 0x08 := by
      revert c
      decide
    have hroom := hfresh.cursorFor_lt (by omega) (hdigit c).1 (hdigit c).2
    rw [wp_bind]
    refine (wp_outChar_typed hfresh (Nat.zero_le _) hroom.1).mono ?_ fun _ _ h => h
    rintro _ t ⟨k, hk, ht⟩
    have hroom' := ht.cursorFor_lt (by omega) (show (0x23 : Byte) ≠ 0x0A by decide) (by decide)
    rw [wp_bind]
    refine (wp_outChar_typed ht hk hroom'.1).mono ?_ fun _ _ h => h
    rintro _ u ⟨j, hj, hu⟩
    rw [wp_bind, wp_get]
    exact (hu.drawn.crtc _).windows hothers ⟨j, hj, hu.start⟩

attribute [local irreducible] initScreen outChar

theorem wp_initScreens_windows (h : s.Booted) :
    wp initScreens (fun _ => Screen.Windows (List.finRange nrConsoles)) (fun _ _ => False) s := by
  have hlist : List.finRange nrConsoles = [0, 1, 2] := by decide
  rw [initScreens, hlist, wp_forM_cons]
  refine (wp_initScreen_windows (List.forall_mem_nil _) (by decide) fun _ => h.1).mono
    (fun _ t ht => ?_) fun _ _ h => h
  rw [wp_forM_cons]
  refine (wp_initScreen_windows ht (by decide) fun h => absurd h (by decide)).mono
    (fun _ u hu => ?_) fun _ _ h => h
  rw [wp_forM_cons]
  refine (wp_initScreen_windows hu (by decide) fun h => absurd h (by decide)).mono
    (fun _ v hv => ?_) fun _ _ h => h
  rw [wp_forM_nil]
  exact fun c _ => hv c (by revert c; decide)

attribute [local irreducible] initScreens scrollScreen selectConsole

theorem wp_screenEvent_windows (hs : s.Inv) (hw : s.Windows (List.finRange nrConsoles))
    {e : ScreenEvent} (he : RoomyEvent s e) :
    wp e.run (fun _ => Screen.Windows (List.finRange nrConsoles)) (fun _ _ => False) s := by
  have fits (c : Fin nrConsoles) : s.Drawn c s := .refl (hs.fits c (List.mem_finRange c))
  have all {c : Fin nrConsoles} {t : Screen} (h : t.Windows (c :: List.finRange nrConsoles)) :
      t.Windows (List.finRange nrConsoles) := fun d hd => h d (List.mem_cons_of_mem c hd)
  cases e with
  | outChar c ch =>
    obtain ⟨k, hk, hstart⟩ := hw c (List.mem_finRange c)
    refine (wp_outChar_typed ⟨fits c, hstart, le_rfl⟩ hk he).mono (fun _ t ⟨j, hj, ht⟩ => ?_)
      fun _ _ h => h
    exact all (ht.drawn.windows hw ⟨j, hj, ht.start⟩)
  | scrollScreen c direction =>
    obtain ⟨k, hk, hstart⟩ := hw c (List.mem_finRange c)
    refine (wp_scrollScreen_window (fits c) hstart hk he).mono (fun _ t ht => ?_) fun _ _ h => h
    exact all (ht.1.windows hw ht.2)
  | selectConsole n =>
    change wp (selectConsole n) _ _ s
    rw [selectConsole]
    split
    · rw [wp_bind, wp_modify, flush, wp_bind, wp_get, wp_onlyIf]
      exact ⟨fun _ => hw, fun _ => hw⟩
    · exact hw

theorem Screen.Inv.windowsInside (hs : s.Inv) (hw : s.Windows (List.finRange nrConsoles)) :
    WindowsInside s where
  inside c := by
    obtain ⟨k, hk, hstart⟩ := hw c (List.mem_finRange c)
    exact (hs.fits c (List.mem_finRange c)).windowInside hstart hk
  shown e c hc hcur := by
    -- the invariant bounds the address that the hardware gets, whatever the event
    have hwp := (wp_screenEvent hs e).and (show wp e.run (fun _ => Screen.Shows c) (fun _ _ => True) s
      from match e, hc with
      | .outChar _ _, rfl => wp_outChar_shows
      | .scrollScreen _ _, rfl => wp_scrollScreen_shows)
    obtain ⟨ht, hshown⟩ := exec_of_wp (P := fun t _ => t.Inv ∧ t.Shows c)
      (hwp.mono (fun _ _ h => h) fun _ _ h => h.1.elim)
    have hbase := conBase_le (c := c)
    have hlt := (ht.fits c (List.mem_finRange c)).start_lt
    rw [← Nat.mod_eq_of_lt (show ((screenMachine.step e s).1.consoleTable c).currentStartAddr.toNat <
      65536 from hlt.trans (by omega))]
    exact hshown hcur

/-- Scrolling down `n` rows. -/
theorem reached_scrolled (hr : screenMachine.Reached (fun _ _ => True) s none)
    (hstart : s.StartsAt c k) (hn : k + n ≤ 44) : ∃ t : Screen,
    screenMachine.Reached (fun _ _ => True) t none ∧ t.StartsAt c (k + n) := by
  induction n with
  | zero => exact ⟨s, hr, hstart⟩
  | succ n ih =>
    obtain ⟨t, ht, hrow⟩ := ih (by omega)
    have hfits := (reached_screen ht).2.fits c (List.mem_finRange c)
    have hwp := wp_scrollDown (Q := fun _ u => u.StartsAt c (k + (n + 1))) (E := fun _ _ => False)
      (.refl hfits) hrow (by omega) fun _ _ h _ => h
    obtain ⟨_, u, hu, hnext⟩ := hwp.exists_ok
    have hstep : screenMachine.step (.scrollScreen c scrDn) t = (u, none) := by
      change exec (scrollScreen c scrDn) t = _
      rw [exec, hu]
    have hreached := ht.step (e := .scrollScreen c scrDn) trivial
    rw [hstep] at hreached
    exact ⟨u, hreached, hnext⟩

end

end Dlos
