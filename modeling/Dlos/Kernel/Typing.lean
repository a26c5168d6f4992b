import Dlos.Kernel.ScanCodes
import Dlos.Kernel.Tty

/-!
# Reading what is typed

Bytes come in whenever the keyboard sends them, `keyboard_read` is called again and again, and TTY does
other things in between. As long as no byte is dropped, a call reads the bytes of one code.
-/

namespace Dlos

open Program Bytes

/-- TTY, the bytes the keyboard has sent and the arguments `in_process` got from `keyboard_read`. -/
structure Typing where
  tty : TtyState
  arrived : List Byte
  calls : List (BitVec 32)

/-- What `in_process` gets in the next stretch of `keyboard_read`. -/
def TtyState.calling (s : TtyState) : List (BitVec 32) :=
  match s.pc with
  | .keyboardRead _ (.decode scanCode codeWithE0) =>
    (s.keyboard.modifiers.decode scanCode codeWithE0).2.toList
  | _ => []

/-- TTY is not in `keyboard_read`. -/
def TtyPc.Outside : TtyPc → Prop
  | keyboardRead _ _ => False
  | _ => True

/-- A stretch of `keyboard_read`. -/
def Typing.stretch (s : Typing) (i : Fin nrConsoles) (kpc : KbPc) : Typing × Option Halt :=
  (⟨(exec (keyboardRead i kpc) s.tty).1, s.arrived, s.calls ++ s.tty.calling⟩,
    (exec (keyboardRead i kpc) s.tty).2)

/-- A call of `keyboard_read` for a terminal. -/
def Typing.call (s : Typing) (i : Fin nrConsoles) : Typing :=
  { s with tty := s.tty.goto (.keyboardRead i .first) }

/-- What has happened since `init_keyboard`; no byte was dropped. -/
inductive Typed : Typing → Option Halt → Prop
  | start {s : TtyState} {kb : Keyboard} : s.keyboard = kb.init → s.pc.Outside → Typed ⟨s, [], []⟩ none
  | interrupt {s : Typing} {b : Byte} : Typed s none → s.tty.keyboard.kbIn.count < (kbInBytes : Nat) →
    Typed { s with tty := (exec (keyboardHandler b) s.tty).1, arrived := s.arrived ++ [b] } none
  | call {s : Typing} {i : Fin nrConsoles} : Typed s none → s.tty.pc.Outside →
    0 < s.tty.keyboard.kbIn.count → Typed (s.call i) none
  | stretch {s : Typing} {i : Fin nrConsoles} {kpc : KbPc} : Typed s none →
    s.tty.pc = .keyboardRead i kpc → Typed (s.stretch i kpc).1 (s.stretch i kpc).2
  /-- Other processes run, or TTY does something else. -/
  | other {s : Typing} {t : TtyState} {o : Option Halt} : Typed s none →
    t.keyboard = s.tty.keyboard → (t.pc = s.tty.pc ∨ s.tty.pc.Outside ∧ t.pc.Outside) →
    Typed { s with tty := t } o

/-- `keyboard_read` goes on, or is called. -/
def Typing.read (s : Typing) : Typing × Option Halt :=
  match s.tty.pc with
  | .keyboardRead i kpc => s.stretch i kpc
  | _ => if s.tty.keyboard.kbIn.count > 0 then (s.call 0, none) else (s, none)

/-- Nothing but `keyboard_read` happens, for `n` steps. -/
def Typing.reads : Nat → Typing → Typing × Option Halt
  | 0, s => (s, none)
  | n + 1, s => match s.read with
    | (t, none) => t.reads n
    | r => r

/-- The bytes of `done` have been read, and those in `taken` of the next code; the modifiers and the
calls of `in_process` are those for `done`. -/
structure InStep (codes : List Code) (s : Typing) (o : Option Halt) (done rest : List Code)
    (taken : List Byte) : Prop where
  split : codes = done ++ rest
  arrived : s.arrived = bytesOf done ++ taken ++ s.tty.keyboard.unread
  begun : taken <+: (rest.head?.map Code.bytes).getD []
  modifiers : s.tty.keyboard.modifiers = Modifiers.after done
  calls : List.Forall₂ GivesKey (makes [] done) s.calls
  outside : o = none → s.tty.pc.Outside → taken = []

/-- The code of F12 when no ALT is down. -/
def StopsAt (codes before rest : List Code) : Prop :=
  ∃ range notPrint, codes = before ++ .key f12Key true range notPrint :: rest ∧
    altLKey.down before = false ∧ altRKey.down before = false

/-- All bytes have been read; the modifiers and the calls of `in_process` are those of the stream. -/
structure AllRead (codes : List Code) (s : Typing) : Prop where
  outside : s.tty.pc.Outside
  unread : s.tty.keyboard.unread = []
  modifiers : s.tty.keyboard.modifiers = Modifiers.after codes
  calls : List.Forall₂ GivesKey (makes [] codes) s.calls

/-- At every time a beginning of the codes has been read. Once all bytes have come, `keyboard_read`
reads them all, unless F12 stops the machine. -/
structure ReadsCodes (codes : List Code) (s : Typing) (o : Option Halt) : Prop where
  inStep : ∃ done rest taken, InStep codes s o done rest taken
  afterwards : o = none → s.arrived = bytesOf codes → s.tty.pc.Outside → s.tty.keyboard.unread = [] →
    AllRead codes s
  ends : o = none → s.arrived = bytesOf codes → ∃ n,
    (s.reads n).2 = none ∧ AllRead codes (s.reads n).1 ∨
      (s.reads n).2 = some .diverge ∧ ∃ before rest, StopsAt codes before rest ∧
        (s.reads n).1.tty.keyboard.unread = bytesOf rest

/-! ## Steps of `keyboard_read` -/

section

variable {s t : Typing} {tty : TtyState} {o : Option Halt} {i : Fin nrConsoles} {kpc : KbPc} {b : Byte}
  {codes done rest : List Code} {c : Code} {taken : List Byte} {key : BitVec 32} {K : Keyboard}

/-- A byte is read. -/
theorem wp_keyboardRead_reads (hr : kpc.Reads) (hcount : 0 < tty.keyboard.kbIn.count) :
    wp (keyboardRead i kpc) (fun _ t =>
        t.keyboard = { tty.keyboard with kbIn := tty.keyboard.kbIn.drop kbInBytes } ∧
          t.pc = .keyboardRead i (kpc.feed tty.keyboard.kbIn.first))
      (fun _ _ => False) tty := by
  have hpos : ¬tty.keyboard.kbIn.count ≤ 0 := by omega
  rw [keyboardRead_of_reads hr, wp_bind, wp_get, if_neg hpos]
  exact ⟨rfl, rfl⟩

/-- There is no byte to read. -/
theorem wp_keyboardRead_waits (hr : kpc.Reads) (hcount : tty.keyboard.kbIn.count ≤ 0) :
    wp (keyboardRead i kpc) (fun _ t => t = tty) (fun _ _ => False) tty := by
  rw [keyboardRead_of_reads hr, wp_bind, wp_get, if_pos hcount]
  rfl

/-- `in_process` never returns from F12 without ALT. -/
def Hangs (key : BitVec 32) (e : Halt) : Prop :=
  e = .diverge ∧ key &&& flagExt ≠ 0 ∧ key &&& maskRaw = keyF12 ∧ key &&& flagAltL = 0 ∧
    key &&& flagAltR = 0

theorem keyboard_setTty {f : Tty → Tty} :
    Preserves (fun t : TtyState => t.keyboard = K) (setTty i f) := .modify fun _ h => h

theorem keyboard_ttyScreen {α : Type} {x : SM α} :
    Preserves (fun t : TtyState => t.keyboard = K) (ttyScreen x) := .focus fun _ _ h => h

theorem keyboard_inProcess : Preserves (fun t : TtyState => t.keyboard = K) (inProcess i key) :=
  .ite keyboard_setTty <| .ite keyboard_setTty <| .ite keyboard_setTty <|
    .ite (.onlyIf keyboard_ttyScreen) <| .ite (.onlyIf keyboard_ttyScreen) <|
      .ite (.ite keyboard_ttyScreen (.onlyIf (.throw _))) (.pure _)

theorem tame_flush : Tame (fun _ => True) (fun _ : Halt => False) (flush i) :=
  .bind .get fun _ => .onlyIf (.bind (.modify fun _ h => h) fun _ => .modify fun _ h => h)

theorem tame_setConsole {f : Console → Console} :
    Tame (fun _ => True) (fun _ : Halt => False) (setConsole i f) := .modify fun _ h => h

theorem tame_scrollScreen {direction : Int} :
    Tame (fun _ => True) (fun _ : Halt => False) (scrollScreen i direction) :=
  .bind .get fun _ => .ite (.bind (.onlyIf tame_setConsole) fun _ => tame_flush)
    (.ite (.bind (.onlyIf tame_setConsole) fun _ => tame_flush) tame_flush)

theorem tame_selectConsole {n : Int} :
    Tame (fun _ => True) (fun _ : Halt => False) (selectConsole n) := by
  unfold selectConsole
  split
  · exact .bind (.modify fun _ h => h) fun _ => tame_flush
  · exact .pure _

theorem tame_ttyScreen {x : SM Unit} (hx : Tame (fun _ => True) (fun _ : Halt => False) x) :
    Tame (fun _ : TtyState => True) (Hangs key) (ttyScreen x) := by
  intro s _
  rw [ttyScreen, wp_focus]
  exact (hx _ trivial).mono (fun _ _ _ => trivial) fun _ _ h => h.elim

theorem tame_inProcess : Tame (fun _ : TtyState => True) (Hangs key) (inProcess i key) := by
  have hput {ch : BitVec 32} : Tame (fun _ : TtyState => True) (Hangs key) (putKey i ch) :=
    .modify fun _ h => h
  unfold inProcess
  split
  · exact hput
  next hext =>
    refine .ite hput (.ite hput (.ite (.onlyIf (tame_ttyScreen tame_scrollScreen))
      (.ite (.onlyIf (tame_ttyScreen tame_scrollScreen)) ?_)))
    split
    · split
      · exact tame_ttyScreen tame_selectConsole
      next halt =>
        unfold onlyIf
        split
        next hf12 => 
          exact .throw ⟨rfl, hext, hf12, by_contra fun h => halt (.inl h), by_contra fun h => halt (.inr h)⟩
        · exact .pure _
    · exact .pure _

/-- A code has been read, and its key is given to `in_process`. -/
theorem wp_keyboardRead_decode {scanCode : Byte} {codeWithE0 : Bool} :
    wp (keyboardRead i (.decode scanCode codeWithE0)) (fun _ t => t.keyboard = { tty.keyboard with
          modifiers := (tty.keyboard.modifiers.decode scanCode codeWithE0).1 } ∧ t.pc = .devWrite i)
      (fun e t => t.keyboard = { tty.keyboard with
          modifiers := (tty.keyboard.modifiers.decode scanCode codeWithE0).1 } ∧
        ∃ key, (tty.keyboard.modifiers.decode scanCode codeWithE0).2 = some key ∧ Hangs key e) tty := by
  rw [keyboardRead, wp_bind, wp_get]
  rcases tty.keyboard.modifiers.decode scanCode codeWithE0 with ⟨modifiers, _ | key⟩
  · exact ⟨rfl, rfl⟩
  · rw [wp_bind, wp_modify, wp_bind]
    exact ((keyboard_inProcess _ rfl).and (tame_inProcess _ trivial)).mono (fun _ _ h => ⟨h.1, rfl⟩)
      fun _ _ h => ⟨h.1, key, rfl, h.2⟩

/-! ## The place in a code -/

/-- While nothing has stopped, the place in `keyboard_read` is that after `taken`. -/
structure Placed (codes : List Code) (s : Typing) (o : Option Halt) (done rest : List Code)
    (taken : List Byte) : Prop extends InStep codes s o done rest taken where
  ring : s.tty.keyboard.kbIn.Valid kbInBytes
  place : o = none → ∀ i kpc, s.tty.pc = .keyboardRead i kpc →
    kpc = taken.foldl KbPc.feed .first ∧ (taken = [] → s.tty.keyboard.unread ≠ [])

theorem bytesOf_cons : bytesOf (c :: rest) = c.bytes ++ bytesOf rest := List.flatMap_cons

theorem bytesOf_append : bytesOf (done ++ rest) = bytesOf done ++ bytesOf rest := List.flatMap_append

theorem Code.bytes_ne_nil (c : Code) : c.bytes ≠ [] := by
  cases c <;> simp [Code.bytes]

theorem makes_append {before : List Code} : makes before (done ++ [c]) =
    makes before done ++ if c.isMake then [(before ++ done, c)] else [] := by
  induction done generalizing before with
  | nil => simp [makes]
  | cons d done ih =>
    rw [List.cons_append, makes, makes, ih, List.append_assoc, List.append_assoc, List.singleton_append]

theorem calling_of_reads (hpc : tty.pc = .keyboardRead i kpc) (hr : kpc.Reads) : tty.calling = [] := by
  rw [TtyState.calling, hpc]
  cases kpc with
  | decode _ _ => exact hr.elim
  | finish | first | pause _ | extended | printMake _ | printBreak _ => rfl

/-- The next byte belongs to the next code. -/
theorem InStep.next {l : List Byte} (h : InStep codes s o done rest taken)
    (hs : s.arrived <+: bytesOf codes) (hl : s.tty.keyboard.unread = b :: l)
    (hmore : ∀ c ∈ rest.head?, taken ≠ c.bytes) :
    ∃ c rest', rest = c :: rest' ∧ taken ++ [b] <+: c.bytes := by
  have hbegun := h.begun
  rw [h.arrived, h.split, bytesOf_append, hl, List.append_assoc, List.prefix_append_right_inj] at hs
  cases rest with
  | nil =>
    obtain ⟨t, ht⟩ := hs
    simp [bytesOf] at ht
  | cons c rest =>
    obtain ⟨q, hq⟩ : taken <+: c.bytes := hbegun
    rw [bytesOf_cons, ← hq, List.append_assoc, List.prefix_append_right_inj] at hs
    cases q with
    | nil => exact absurd ((List.append_nil taken).symm.trans hq) (hmore c rfl)
    | cons x q =>
      obtain rfl : b = x := (List.cons_prefix_cons.mp hs).1
      exact ⟨c, rest, rfl, q, by rw [← hq, List.append_assoc, List.singleton_append]⟩

/-- In the middle of a code `keyboard_read` waits, if no byte is there. -/
theorem Typing.stretch_waits (hpc : s.tty.pc = .keyboardRead i kpc) (hr : kpc.Reads)
    (hcount : s.tty.keyboard.kbIn.count ≤ 0) : s.stretch i kpc = (s, none) := by
  have hexec := exec_of_wp (P := fun t o => t = s.tty ∧ o = none)
    ((wp_keyboardRead_waits (i := i) hr hcount).mono (fun _ _ h => ⟨h, rfl⟩) fun _ _ h => h.elim)
  rw [Typing.stretch, hexec.1, hexec.2, calling_of_reads hpc hr, List.append_nil]

/-- A byte of a code is read. -/
theorem Placed.readByte (h : Placed codes s none done rest taken) (hs : s.arrived <+: bytesOf codes)
    (hpc : s.tty.pc = .keyboardRead i kpc) (hr : kpc.Reads) (hcount : 0 < s.tty.keyboard.kbIn.count) :
    (s.stretch i kpc).2 = none ∧ ∃ b, ¬(s.stretch i kpc).1.tty.pc.Outside ∧
      Placed codes (s.stretch i kpc).1 none done rest (taken ++ [b]) := by
  obtain ⟨⟨hkb, hpc'⟩, hnone⟩ := exec_of_wp (P := fun (t : TtyState) o =>
      (t.keyboard = { s.tty.keyboard with kbIn := s.tty.keyboard.kbIn.drop kbInBytes } ∧
        t.pc = .keyboardRead i (kpc.feed s.tty.keyboard.kbIn.first)) ∧ o = none)
    ((wp_keyboardRead_reads (i := i) hr hcount).mono (fun _ _ h => ⟨h, rfl⟩) fun _ _ h => h.elim)
  obtain ⟨hplace, -⟩ := h.place rfl i kpc hpc
  have hunread := RingBuffer.contents_drop h.ring hcount
  have hmore : ∀ c ∈ rest.head?, taken ≠ c.bytes := by
    rintro c hc rfl
    rw [hplace, (foldl_feed c (List.prefix_refl _)).1 rfl] at hr
    cases c <;> exact hr
  obtain ⟨c, rest', rfl, hnext⟩ := h.next hs hunread hmore
  refine ⟨hnone, s.tty.keyboard.kbIn.first, ?_, ⟨⟨h.split, ?_, hnext, ?_, ?_, ?_⟩, ?_, ?_⟩⟩
  · change ¬(exec (keyboardRead i kpc) s.tty).1.pc.Outside
    rw [hpc']
    exact id
  · change s.arrived = _ ++ _ ++ (exec (keyboardRead i kpc) s.tty).1.keyboard.unread
    rw [hkb, h.arrived, Keyboard.unread, hunread]
    simp [Keyboard.unread]
  · change (exec (keyboardRead i kpc) s.tty).1.keyboard.modifiers = _
    rw [hkb]
    exact h.modifiers
  · change List.Forall₂ _ _ (s.calls ++ s.tty.calling)
    rw [calling_of_reads hpc hr, List.append_nil]
    exact h.calls
  · intro _ hout
    change (exec (keyboardRead i kpc) s.tty).1.pc.Outside at hout
    rw [hpc'] at hout
    exact hout.elim
  · change (exec (keyboardRead i kpc) s.tty).1.keyboard.kbIn.Valid kbInBytes
    rw [hkb]
    exact h.ring.drop hcount
  · intro _ i' kpc' hpc''
    change (exec (keyboardRead i kpc) s.tty).1.pc = _ at hpc''
    rw [hpc', TtyPc.keyboardRead.injEq] at hpc''
    obtain ⟨-, rfl⟩ := hpc''
    rw [List.foldl_append, ← hplace]
    exact ⟨rfl, fun hnil => absurd hnil (by simp)⟩

/-- All bytes of a code have been read. -/
theorem Placed.whole (h : Placed codes s none done rest taken) (hpc : s.tty.pc = .keyboardRead i kpc)
    (hr : ¬kpc.Reads) : ∃ c rest', rest = c :: rest' ∧ taken = c.bytes ∧ kpc = c.last := by
  obtain ⟨hplace, -⟩ := h.place rfl i kpc hpc
  have hbegun := h.begun
  cases rest with
  | nil =>
    obtain rfl : taken = [] := List.prefix_nil.mp hbegun
    rw [hplace] at hr
    exact absurd trivial hr
  | cons c rest =>
    obtain ⟨hlast, hreads⟩ := foldl_feed c hbegun
    by_cases htaken : taken = c.bytes
    · exact ⟨c, rest, rfl, htaken, hplace.trans (hlast htaken)⟩
    · exact absurd (hreads htaken) (hplace ▸ hr)

/-- A call ends: its code is done, and nothing is read of the next one. -/
theorem Placed.endCode (h : Placed codes s none done rest taken) (hpc : s.tty.pc = .keyboardRead i kpc)
    (hr : ¬kpc.Reads) : ∃ c rest', rest = c :: rest' ∧
      Placed codes (s.stretch i kpc).1 (s.stretch i kpc).2 (done ++ [c]) rest' [] ∧
      ((s.stretch i kpc).2 = none ∧ (s.stretch i kpc).1.tty.pc.Outside ∨
        (s.stretch i kpc).2 = some .diverge ∧ StopsAt codes done rest') := by
  obtain ⟨c, rest, rfl, rfl, rfl⟩ := h.whole hpc hr
  have hsplit : codes = done ++ [c] ++ rest := by rw [h.split, List.append_assoc, List.singleton_append]
  have harrived (kb : Keyboard) (hkb : kb.kbIn = s.tty.keyboard.kbIn) :
      s.arrived = bytesOf (done ++ [c]) ++ [] ++ kb.unread := by
    rw [h.arrived, bytesOf_append, bytesOf_cons, List.append_nil, Keyboard.unread, Keyboard.unread, hkb]
    simp [bytesOf]
  -- what is left to show once the step is known
  have finish (t : TtyState) (calls : List (BitVec 32)) (o : Option Halt)
      (hkb : t.keyboard.kbIn = s.tty.keyboard.kbIn)
      (hmod : t.keyboard.modifiers = Modifiers.after (done ++ [c]))
      (hcalls : List.Forall₂ GivesKey (makes [] (done ++ [c])) calls)
      (hpc : o = none → t.pc = .devWrite i) :
      Placed codes ⟨t, s.arrived, calls⟩ o (done ++ [c]) rest [] := by
    refine ⟨⟨hsplit, harrived _ hkb, List.nil_prefix, hmod, hcalls, fun _ _ => rfl⟩, ?_, ?_⟩
    · change t.keyboard.kbIn.Valid kbInBytes
      rw [hkb]
      exact h.ring
    · intro ho i' kpc' hpc'
      rw [show t.pc = _ from hpc ho] at hpc'
      cases hpc'
  have ends (hlast : c.last = .finish) (hmake : c.isMake = false) :
      Placed codes (s.stretch i c.last).1 (s.stretch i c.last).2 (done ++ [c]) rest [] ∧
        ((s.stretch i c.last).2 = none ∧ (s.stretch i c.last).1.tty.pc.Outside ∨
          (s.stretch i c.last).2 = some .diverge ∧ StopsAt codes done rest) := by
    have hcalling : s.tty.calling = [] := by rw [TtyState.calling, hpc, hlast]
    rw [Typing.stretch, hlast, hcalling, List.append_nil]
    refine ⟨finish (s.tty.goto (.devWrite i)) _ _ rfl ?_ ?_ fun _ => rfl, .inl ⟨rfl, trivial⟩⟩
    · rw [after_append_of_finish hlast]
      exact h.modifiers
    · rw [makes_append, hmake, if_neg (by decide), List.append_nil]
      exact h.calls
  refine ⟨c, rest, rfl, ?_⟩
  cases c with
  | printMake | printBreak | pause => exact ends rfl rfl
  | key k make range notPrint =>
    obtain ⟨hkb, hret⟩ := exec_of_wp (P := fun (t : TtyState) o =>
        t.keyboard = { s.tty.keyboard with
          modifiers := (s.tty.keyboard.modifiers.decode (k.scanCode make) k.ext).1 } ∧
        (o = none ∧ t.pc = .devWrite i ∨ ∃ e key, o = some e ∧
          (s.tty.keyboard.modifiers.decode (k.scanCode make) k.ext).2 = some key ∧ Hangs key e))
      ((wp_keyboardRead_decode (i := i)).mono (fun _ _ h => ⟨h.1, .inl ⟨rfl, h.2⟩⟩)
        fun e _ ⟨h, key, hkey, hhang⟩ => ⟨h, .inr ⟨e, key, rfl, hkey, hhang⟩⟩)
    have hsome : (s.tty.keyboard.modifiers.decode (k.scanCode make) k.ext).2.isSome = make :=
      isSome_decode range.2
    have hmod : (exec (keyboardRead i (.decode (k.scanCode make) k.ext)) s.tty).1.keyboard.modifiers =
        Modifiers.after (done ++ [.key k make range notPrint]) := by
      rw [hkb, ← decode_after, h.modifiers]
    have hcalls : List.Forall₂ GivesKey (makes [] (done ++ [.key k make range notPrint]))
        (s.calls ++ s.tty.calling) := by
      have hcalling : s.tty.calling =
          (s.tty.keyboard.modifiers.decode (k.scanCode make) k.ext).2.toList := by
        rw [TtyState.calling, hpc]
        rfl
      rw [makes_append, hcalling]
      refine List.rel_append h.calls ?_
      cases hkey : (s.tty.keyboard.modifiers.decode (k.scanCode make) k.ext).2 with
      | none =>
        rw [hkey] at hsome
        obtain rfl : false = make := hsome
        exact .nil
      | some key =>
        rw [hkey] at hsome
        obtain rfl : true = make := hsome
        rw [h.modifiers] at hkey
        exact .cons (delivers_decode hkey) .nil
    have hkbIn : (exec (keyboardRead i (.decode (k.scanCode make) k.ext)) s.tty).1.keyboard.kbIn =
        s.tty.keyboard.kbIn := by rw [hkb]
    rcases hret with ⟨hnone, hpc'⟩ | ⟨e, key, he, hkey, rfl, -, hf12, hL, hR⟩
    · refine ⟨finish _ _ _ hkbIn hmod hcalls fun _ => hpc', .inl ⟨hnone, ?_⟩⟩
      change (exec (keyboardRead i (.decode (k.scanCode make) k.ext)) s.tty).1.pc.Outside
      rw [hpc']
      exact trivial
    · refine ⟨finish _ _ _ hkbIn hmod hcalls fun ho => ?_, .inr ⟨he, ?_⟩⟩
      · cases ho.symm.trans he
      · rw [h.modifiers] at hkey
        obtain ⟨rfl, rfl, hdown⟩ := f12_of_decode range.2 hkey hf12 hL hR
        exact ⟨range, notPrint, h.split, hdown⟩

/-- A call starts before a code. -/
theorem Placed.call (h : Placed codes s none done rest taken) (hout : s.tty.pc.Outside)
    (hcount : 0 < s.tty.keyboard.kbIn.count) : Placed codes (s.call i) none done rest taken := by
  obtain rfl := h.outside rfl hout
  refine ⟨⟨h.split, h.arrived, h.begun, h.modifiers, h.calls, fun _ _ => rfl⟩, h.ring, ?_⟩
  intro _ i' kpc hpc
  obtain ⟨-, rfl⟩ : i = i' ∧ KbPc.first = kpc := by simpa [Typing.call, TtyState.goto] using hpc
  exact ⟨rfl, fun _ hnil => hcount.ne' ((RingBuffer.contents_eq_nil h.ring).mp hnil)⟩

/-! ## All that happens -/

theorem Typed.placed (h : Typed s o) (hs : s.arrived <+: bytesOf codes) :
    ∃ done rest taken, Placed codes s o done rest taken := by
  induction h with
  | @start s kb hkb hpc =>
    have hring : s.keyboard.kbIn.Valid kbInBytes := by
      rw [hkb]
      exact .empty rfl rfl (Nat.zero_lt_succ 31)
    have hunread : s.keyboard.unread = [] := by
      rw [Keyboard.unread, RingBuffer.contents_eq_nil hring, hkb]
      rfl
    refine ⟨[], codes, [], ⟨rfl, ?_, List.nil_prefix, ?_, .nil, fun _ _ => rfl⟩, hring, ?_⟩
    · change [] = _
      rw [hunread]
      rfl
    · change s.keyboard.modifiers = _
      rw [hkb]
      rfl
    · intro _ i kpc hin
      rw [show s.pc = _ from hin] at hpc
      exact hpc.elim
  | @interrupt s b _ hroom ih =>
    obtain ⟨done, rest, taken, h⟩ := ih ((List.prefix_append _ _).trans hs)
    have hput := RingBuffer.contents_put_of_lt h.ring hroom b
    refine ⟨done, rest, taken, ⟨h.split, ?_, h.begun, h.modifiers, h.calls, h.outside⟩, h.ring.put b, ?_⟩
    · change s.arrived ++ [b] = _ ++ _ ++ (s.tty.keyboard.kbIn.put kbInBytes b).contents kbInBytes
      rw [hput, h.arrived, Keyboard.unread, List.append_assoc, List.append_assoc]
    · intro ho i kpc hpc
      refine ⟨(h.place ho i kpc hpc).1, fun _ => ?_⟩
      change (s.tty.keyboard.kbIn.put kbInBytes b).contents kbInBytes ≠ []
      rw [hput]
      simp
  | @call s i _ hout hcount ih =>
    obtain ⟨done, rest, taken, h⟩ := ih hs
    exact ⟨done, rest, taken, h.call hout hcount⟩
  | @stretch s i kpc _ hpc ih =>
    obtain ⟨done, rest, taken, h⟩ := ih hs
    by_cases hr : kpc.Reads
    · by_cases hcount : 0 < s.tty.keyboard.kbIn.count
      · obtain ⟨hnone, b, -, hread⟩ := h.readByte hs hpc hr hcount
        rw [hnone]
        exact ⟨done, rest, _, hread⟩
      · rw [Typing.stretch_waits hpc hr (by omega)]
        exact ⟨done, rest, taken, h⟩
    · obtain ⟨c, rest', -, hend, -⟩ := h.endCode hpc hr
      exact ⟨_, rest', [], hend⟩
  | @other s t o _ hkb hpc ih =>
    obtain ⟨done, rest, taken, h⟩ := ih hs
    have hout : t.pc.Outside → taken = [] := by
      intro hout
      rcases hpc with hpc | ⟨hpc, -⟩
      · exact h.outside rfl (hpc ▸ hout)
      · exact h.outside rfl hpc
    have harrived : s.arrived = bytesOf done ++ taken ++ t.keyboard.unread := hkb ▸ h.arrived
    refine ⟨done, rest, taken, ⟨h.split, harrived, h.begun, hkb ▸ h.modifiers, h.calls,
      fun _ => hout⟩, hkb ▸ h.ring, fun _ i kpc hin => ?_⟩
    change t.pc = _ at hin
    rcases hpc with hpc | ⟨-, hpc⟩
    · obtain ⟨hplace, hne⟩ := h.place rfl i kpc (hpc ▸ hin)
      exact ⟨hplace, fun hnil => hkb ▸ hne hnil⟩
    · rw [hin] at hpc
      exact hpc.elim

/-! ## Reading on -/

/-- The steps of `keyboard_read` until all bytes that are there have been read, at most. -/
def Typing.left (s : Typing) : Nat :=
  3 * s.tty.keyboard.unread.length + match s.tty.pc with
    | .keyboardRead _ kpc => if kpc.Reads then 0 else 2
    | _ => 1

theorem left_of_outside (h : s.tty.pc.Outside) : s.left = 3 * s.tty.keyboard.unread.length + 1 := by
  unfold Typing.left
  split
  next hpc =>
    rw [hpc] at h
    exact h.elim
  next => rfl

theorem left_of_place (hpc : s.tty.pc = .keyboardRead i kpc) :
    s.left = 3 * s.tty.keyboard.unread.length + if kpc.Reads then 0 else 2 := by
  rw [Typing.left, hpc]

theorem left_le : s.left ≤ 3 * s.tty.keyboard.unread.length + 2 := by
  unfold Typing.left
  split
  · split <;> omega
  · omega

theorem bytesOf_eq_nil (h : bytesOf codes = []) : codes = [] := by
  cases codes with
  | nil => rfl
  | cons c codes =>
    rw [bytesOf_cons, List.append_eq_nil_iff] at h
    exact absurd h.1 c.bytes_ne_nil

/-- When all bytes have come, what is left is left in the ring. -/
theorem InStep.unread_eq (h : InStep codes s o done rest taken) (hs : s.arrived = bytesOf codes) :
    taken ++ s.tty.keyboard.unread = bytesOf rest := by
  rw [h.arrived, h.split, bytesOf_append, List.append_assoc] at hs
  exact List.append_cancel_left hs

theorem InStep.allRead (h : InStep codes s none done rest taken) (hs : s.arrived = bytesOf codes)
    (hout : s.tty.pc.Outside) (hunread : s.tty.keyboard.unread = []) : AllRead codes s := by
  have hrest := h.unread_eq hs
  rw [h.outside rfl hout, hunread] at hrest
  obtain rfl : rest = [] := bytesOf_eq_nil hrest.symm
  obtain rfl : codes = done := by rw [h.split, List.append_nil]
  exact ⟨hout, hunread, h.modifiers, h.calls⟩

/-- `keyboard_read` never waits for more bytes than come. -/
theorem Placed.unread_ne_nil (h : Placed codes s none done rest taken) (hs : s.arrived = bytesOf codes)
    (hpc : s.tty.pc = .keyboardRead i kpc) (hr : kpc.Reads) : s.tty.keyboard.unread ≠ [] := by
  intro hunread
  obtain ⟨hplace, hfirst⟩ := h.place rfl i kpc hpc
  have hrest := h.unread_eq hs
  rw [hunread, List.append_nil] at hrest
  cases rest with
  | nil => exact hfirst hrest hunread
  | cons c rest =>
    have hbegun : taken <+: c.bytes := h.begun
    rw [bytesOf_cons] at hrest
    have hle : taken.length ≤ c.bytes.length := hbegun.length_le
    obtain rfl : taken = c.bytes := hbegun.eq_of_length (by
      rw [hrest, List.length_append] at hle ⊢
      omega)
    rw [hplace, (foldl_feed c (List.prefix_refl _)).1 rfl] at hr
    cases c <;> exact hr

/-- A step of `keyboard_read` comes nearer to the end, or it is the last one. -/
theorem Placed.read (h : Placed codes s none done rest taken) (hs : s.arrived = bytesOf codes)
    (hmore : ¬(s.tty.pc.Outside ∧ s.tty.keyboard.unread = [])) :
    s.read.2 = none ∧ s.read.1.arrived = s.arrived ∧ s.read.1.left < s.left ∧
        (∃ done rest taken, Placed codes s.read.1 none done rest taken) ∨
      s.read.2 = some .diverge ∧ ∃ before rest, StopsAt codes before rest ∧
        s.read.1.tty.keyboard.unread = bytesOf rest := by
  have hcount (hne : s.tty.keyboard.unread ≠ []) : 0 < s.tty.keyboard.kbIn.count := by
    have := h.ring.nonneg
    have := mt (RingBuffer.contents_eq_nil h.ring).mpr hne
    omega
  by_cases hout : s.tty.pc.Outside
  · have hpos := hcount fun hnil => hmore ⟨hout, hnil⟩
    have hread : s.read = (s.call 0, none) := by
      unfold Typing.read
      split
      next hpc =>
        rw [hpc] at hout
        exact hout.elim
      next => exact if_pos hpos
    rw [hread]
    refine .inl ⟨rfl, rfl, ?_, done, rest, taken, h.call hout hpos⟩
    rw [left_of_outside hout]
    exact Nat.lt_succ_self _
  · obtain ⟨i, kpc, hpc⟩ : ∃ i kpc, s.tty.pc = .keyboardRead i kpc := by
      revert hout
      cases s.tty.pc with
      | keyboardRead i kpc => exact fun _ => ⟨i, kpc, rfl⟩
      | initKeyboard | initTty _ | selectConsole | devRead _ | devWrite _ | resumed _ | receive
        | dispatch | output _ _ _ => exact fun hout => absurd trivial hout
    have hread : s.read = s.stretch i kpc := by rw [Typing.read, hpc]
    rw [hread, left_of_place hpc]
    by_cases hr : kpc.Reads
    · have hpos := hcount (h.unread_ne_nil hs hpc hr)
      obtain ⟨hnone, b, -, hbyte⟩ := h.readByte (hs ▸ List.prefix_refl _) hpc hr hpos
      have hlen := congrArg List.length ((h.unread_eq hs).trans (hbyte.unread_eq hs).symm)
      have := left_le (s := (s.stretch i kpc).1)
      simp only [List.length_append, List.length_singleton] at hlen
      rw [if_pos hr]
      exact .inl ⟨hnone, rfl, by omega, _, _, _, hbyte⟩
    · obtain ⟨c, rest', rfl, hend, hret⟩ := h.endCode hpc hr
      obtain ⟨c', rest'', hcons, rfl, -⟩ := h.whole hpc hr
      obtain ⟨rfl, rfl⟩ := List.cons.inj hcons
      have hunread : (s.stretch i kpc).1.tty.keyboard.unread = bytesOf rest' := by
        simpa using hend.unread_eq hs
      have hsame : s.tty.keyboard.unread = bytesOf rest' :=
        List.append_cancel_left ((h.unread_eq hs).trans bytesOf_cons)
      rcases hret with ⟨hnone, hout'⟩ | ⟨hdiverge, hstops⟩
      · rw [hnone] at hend
        rw [if_neg hr, left_of_outside hout', hunread, hsame]
        exact .inl ⟨hnone, rfl, Nat.lt_succ_self _, _, _, _, hend⟩
      · exact .inr ⟨hdiverge, done, rest', hstops, hunread⟩

theorem Placed.reads (h : Placed codes s none done rest taken) (hs : s.arrived = bytesOf codes) :
    ∃ n, (s.reads n).2 = none ∧ AllRead codes (s.reads n).1 ∨
      (s.reads n).2 = some .diverge ∧ ∃ before rest, StopsAt codes before rest ∧
        (s.reads n).1.tty.keyboard.unread = bytesOf rest := by
  induction hn : s.left using Nat.strong_induction_on generalizing s done rest taken with
  | _ n ih =>
    by_cases hmore : s.tty.pc.Outside ∧ s.tty.keyboard.unread = []
    · exact ⟨0, .inl ⟨rfl, h.allRead hs hmore.1 hmore.2⟩⟩
    · rcases h.read hs hmore with ⟨hnone, harrived, hlt, _, _, _, hread⟩ | ⟨hdiverge, hstop⟩
      · obtain ⟨k, hk⟩ := ih _ (hn ▸ hlt) hread (harrived.trans hs) rfl
        have hstep : s.reads (k + 1) = s.read.1.reads k := by
          rw [Typing.reads, ← Prod.mk.eta (p := s.read), hnone]
        exact ⟨k + 1, hstep ▸ hk⟩
      · have hstep : s.reads 1 = s.read := by
          rw [Typing.reads, ← Prod.mk.eta (p := s.read), hdiverge]
        exact ⟨1, .inr (hstep ▸ ⟨hdiverge, hstop⟩)⟩

/-- No byte is dropped. -/
def KeptEvent (s : TtyState) (e : TtyEvent) : Prop :=
  ValidTty s e ∧ ∀ b, e = .keyboard b → s.keyboard.kbIn.count < (kbInBytes : Nat)

/-- TTY is not in `keyboard_read`, and the keyboard is as it was. -/
def AtRest (K : Keyboard) (t : TtyState) : Prop := t.keyboard = K ∧ t.pc.Outside

section

variable {L : TtyLayout} {m : Addr} {e : TtyEvent} {pc : TtyPc}

theorem apart_goto (h : pc.Outside) : Preserves (AtRest K) (ttyGoto pc) := .modify fun _ ht => ⟨ht.1, h⟩

theorem apart_setTty {f : Tty → Tty} : Preserves (AtRest K) (setTty i f) := .modify fun _ h => h

theorem apart_ttyScreen {α : Type} {x : SM α} : Preserves (AtRest K) (ttyScreen x) :=
  .focus fun _ _ h => h

theorem apart_ttyKernel {α : Type} {x : KM α} : Preserves (AtRest K) (ttyKernel x) :=
  .focus fun _ _ h => h

theorem apart_setTtyMsg {f : Message → Message} : Preserves (AtRest K) (setTtyMsg m f) := apart_ttyKernel

theorem apart_ttySendrec {function n : Int} : Preserves (AtRest K) (ttySendrec function n m) :=
  .bind apart_ttyKernel fun _ => .pure _

theorem apart_nextTty : Preserves (AtRest K) (nextTty i) := by
  refine .bind .get fun s => .ite (apart_goto trivial) ?_
  split
  · exact apart_goto trivial
  · exact apart_goto trivial

theorem apart_ttyTypeChar {ch : Byte} : Preserves (AtRest K) (ttyTypeChar i ch) :=
  .bind .get fun _ => .ite
    (.bind apart_ttyScreen fun _ => .bind apart_ttyScreen fun _ => apart_setTty)
    (.onlyIf (.bind apart_ttyScreen fun _ => apart_setTty))

theorem apart_ttyResume : Preserves (AtRest K) (ttyResume L i) :=
  .bind apart_ttyScreen fun _ => .bind .get fun _ => .bind apart_setTtyMsg fun _ =>
    .bind apart_ttySendrec fun _ => apart_goto trivial

theorem apart_ttyDevWrite : Preserves (AtRest K) (ttyDevWrite L i) :=
  .bind .get fun _ => .ite apart_nextTty <| .bind apart_setTty fun _ => .ite apart_nextTty <|
    .bind apart_ttyTypeChar fun _ => .bind .get fun _ => .ite apart_ttyResume apart_nextTty

/-- TTY answers a request. -/
theorem apart_answer {n : Int} {f : Message → Message} : Preserves (AtRest K) (do
    setTtyMsg m f
    ttySendrec send n m
    ttyGoto (.devRead 0)) :=
  .bind apart_setTtyMsg fun _ => .bind apart_ttySendrec fun _ => apart_goto trivial

theorem apart_ttyDoRead {msg : Message} : Preserves (AtRest K) (ttyDoRead L i msg) := by
  refine .bind apart_setTty fun _ => .bind ?_ fun _ => .bind apart_ttyKernel fun _ =>
    .bind apart_setTty fun _ => apart_answer
  unfold procAt
  split
  · exact .pure _
  · exact .throw _

theorem apart_ttyOutput {p : Addr} {left : Int} : Preserves (AtRest K) (ttyOutput L i p left) := by
  refine .ite (.bind apart_setTtyMsg fun _ => .bind .get fun _ => .bind apart_ttySendrec fun _ =>
    apart_goto trivial) (.ite (.throw _) ?_)
  exact .bind .get fun _ => .bind (.forM fun _ => apart_ttyScreen) fun _ => apart_goto trivial

theorem apart_ttyDispatch : Preserves (AtRest K) (ttyDispatch L) := by
  have hat {n : Int} : Preserves (AtRest K) (ttyAt n) := by
    unfold ttyAt
    split
    · exact .pure _
    · exact .throw _
  have hproc {n : Int} : Preserves (AtRest K) (procAt n) := by
    unfold procAt
    split
    · exact .pure _
    · exact .throw _
  exact .bind .get fun _ => .bind .ensure fun _ => .ite apart_answer <|
    .ite (.bind hat fun _ => apart_ttyDoRead) <|
      .ite (.bind hat fun _ => .bind hproc fun _ => .bind apart_ttyKernel fun _ => apart_goto trivial) <|
        .ite (.bind apart_ttyKernel fun _ => apart_goto trivial) (apart_goto trivial)

variable {arrived : List Byte} {calls : List (BitVec 32)}

/-- Steps outside `keyboard_read` are among the other things. -/
theorem Typed.apart {x : TM Unit} (h : Typed ⟨tty, arrived, calls⟩ none) (hout : tty.pc.Outside)
    (hx : Preserves (AtRest tty.keyboard) x) :
    Typed ⟨(exec x tty).1, arrived, calls⟩ (exec x tty).2 := by
  obtain ⟨hkb, hpc⟩ := exec_of_wp (P := fun t _ => AtRest tty.keyboard t) (hx tty ⟨rfl, hout⟩)
  exact .other h hkb (.inr ⟨hout, hpc⟩)

/-- A step of TTY is one of `keyboard_read`, or apart from it. -/
theorem Typed.step (h : Typed ⟨tty, arrived, calls⟩ none) (hinit : tty.pc ≠ .initKeyboard) :
    ∃ calls', Typed ⟨(exec (tty.pc.run L) tty).1, arrived, calls'⟩ (exec (tty.pc.run L) tty).2 := by
  cases hpc : tty.pc with
  | initKeyboard => exact absurd hpc hinit
  | keyboardRead i kpc => exact ⟨_, h.stretch hpc⟩
  | devRead i =>
    have hout : tty.pc.Outside := by rw [hpc]; trivial
    by_cases hcall : i = tty.screen.nrCurrentConsole ∧ tty.keyboard.kbIn.count > 0
    · have hexec := exec_of_wp (P := fun t o => t = tty.goto (.keyboardRead i .first) ∧ o = none)
        (x := TtyPc.run L (.devRead i)) (s := tty)
        (by rw [TtyPc.run, ttyDevRead, wp_bind, wp_get, if_pos hcall]; exact ⟨rfl, rfl⟩)
      rw [hexec.1, hexec.2]
      exact ⟨calls, h.call hout hcall.2⟩
    · have hexec := exec_of_wp (P := fun t o => t = tty.goto (.devWrite i) ∧ o = none)
        (x := TtyPc.run L (.devRead i)) (s := tty)
        (by rw [TtyPc.run, ttyDevRead, wp_bind, wp_get, if_neg hcall]; exact ⟨rfl, rfl⟩)
      rw [hexec.1, hexec.2]
      exact ⟨calls, .other h rfl (.inr ⟨hout, trivial⟩)⟩
  | initTty i =>
    refine ⟨calls, h.apart (by rw [hpc]; trivial) (.bind apart_setTty fun _ =>
      .bind apart_ttyScreen fun _ => ?_)⟩
    split
    · exact apart_goto trivial
    · exact apart_goto trivial
  | selectConsole =>
    exact ⟨calls, h.apart (by rw [hpc]; trivial) (.bind apart_ttyScreen fun _ => apart_goto trivial)⟩
  | devWrite i => exact ⟨calls, h.apart (by rw [hpc]; trivial) apart_ttyDevWrite⟩
  | resumed i =>
    exact ⟨calls, h.apart (by rw [hpc]; trivial) (.bind apart_setTty fun _ => apart_nextTty)⟩
  | receive =>
    exact ⟨calls, h.apart (by rw [hpc]; trivial) (.bind apart_setTtyMsg fun _ =>
      .bind apart_ttySendrec fun _ => apart_goto trivial)⟩
  | dispatch => exact ⟨calls, h.apart (by rw [hpc]; trivial) apart_ttyDispatch⟩
  | output i p left => exact ⟨calls, h.apart (by rw [hpc]; trivial) apart_ttyOutput⟩

/-- In every run of TTY in which no byte is dropped the keyboard is read so. -/
theorem reached_typed (hr : (ttyMachine L).Reached KeptEvent tty o) :
    tty.pc = .initKeyboard ∨ ∃ arrived calls, Typed ⟨tty, arrived, calls⟩ o := by
  refine hr.invariant
    (I := fun s o => s.pc = .initKeyboard ∨ ∃ arrived calls, Typed ⟨s, arrived, calls⟩ o)
    (fun s (h : s.Initial) => .inl h.pc) ?_
  intro s e _ hs he
  obtain ⟨hvalid, hroom⟩ := he
  cases e with
  | kernel e =>
    have hpres : Preserves (fun t : TtyState => t.keyboard = s.keyboard ∧ t.pc = s.pc)
        (ttyKernel e.run) := .focus fun _ _ h => h
    have hsame := exec_of_wp (P := fun (t : TtyState) _ => t.keyboard = s.keyboard ∧ t.pc = s.pc)
      (hpres s ⟨rfl, rfl⟩)
    rcases hs with hinit | ⟨arrived, calls, h⟩
    · exact .inl (hsame.2.trans hinit)
    · exact .inr ⟨arrived, calls, .other h hsame.1 (.inl hsame.2)⟩
  | keyboard b =>
    rcases hs with hinit | ⟨arrived, calls, h⟩
    · exact absurd hinit hvalid
    · exact .inr ⟨_, calls, h.interrupt (hroom b rfl)⟩
  | tty =>
    change (exec (s.pc.run L) s).1.pc = _ ∨ ∃ _ _, Typed ⟨(exec (s.pc.run L) s).1, _, _⟩
      (exec (s.pc.run L) s).2
    by_cases hinit : s.pc = .initKeyboard
    · rw [hinit]
      exact .inr ⟨[], [], .start rfl trivial⟩
    · obtain ⟨arrived, calls, h⟩ := hs.resolve_left hinit
      exact .inr ⟨arrived, h.step hinit⟩

end

end

/-! ## A letter, and F12 -/

/-- TTY after `init_keyboard`. -/
def typingBegin : Typing := ⟨{ TtyState.begin with pc := .devRead 0 }, [], []⟩

theorem typed_begin : Typed typingBegin none := @Typed.start _ TtyState.begin.keyboard rfl trivial

/-- The code of a key without `0xE0` that is pressed. -/
def pressed (b : Byte) (h : 1 ≤ b.toNat ∧ b.toNat ≤ 0x58) : Code := .key ⟨false, b⟩ true h nofun

/-- A byte comes in. -/
def Typing.press (s : Typing) (b : Byte) : Typing :=
  { s with tty := (exec (keyboardHandler b) s.tty).1, arrived := s.arrived ++ [b] }

end Dlos
