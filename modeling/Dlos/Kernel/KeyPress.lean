import Dlos.Kernel.Steady
import Dlos.Kernel.Tty

/-!
# What a key press waits for

TTY clears `key_pressed` when it takes the interrupt, and then reads the code of one key in its
pass over the terminals: every character produced is taken out again before the loop asks for
more. Further codes wait for the next key press. In runs where TTY never finds more than one code
when it takes an interrupt, no key press waits.
-/

namespace Dlos

open Program Bytes

/-- From this place on `keyboard_read` reads all of the bytes, if no others come. -/
def KbPc.ReadsAll : KbPc → List Byte → Prop
  | _, [] => True
  | pc, b :: l => pc.Reads ∧ (pc.feed b).ReadsAll l

/-- The pass over the terminals still comes to the current console, and reads all of the bytes. -/
def TtyPc.ReadsAll (current : Fin nrConsoles) (l : List Byte) : TtyPc → Prop
  | devRead i => i ≤ current ∧ KbPc.first.ReadsAll l
  | keyboardRead _ pc => pc.ReadsAll l
  | devWrite i => i < current ∧ KbPc.first.ReadsAll l
  | resumed i => i < current ∧ KbPc.first.ReadsAll l
  | _ => False

/-- TTY sleeps, scan codes are unread, and no wake-up is pending. -/
structure TtyState.KeyWaits (s : TtyState) : Prop where
  asleep : (s.kernel.procTable taskTty).isReceiving
  noInterrupt : (s.kernel.procTable taskTty).hasIntMsg = 0
  notPressed : s.kernel.keyPressed = 0
  unread : 0 < s.keyboard.kbIn.count

/-- When TTY takes an interrupt, the code of one key at most is unread. -/
def TtyEvent.Prompt (L : TtyLayout) (s : TtyState) : TtyEvent → Prop
  | .tty => s.pc = .dispatch → (s.kernel.msgs L.msg).type = MsgType.hardInt →
      KbPc.first.ReadsAll s.keyboard.unread
  | _ => True

def PromptEvent (L : TtyLayout) (s : TtyState) (e : TtyEvent) : Prop := ValidTty s e ∧ e.Prompt L s

namespace TtyState

/-- Nothing is unread, or a wake-up is on its way, or TTY is about to read all there is. -/
def Alert (s : TtyState) (pc : TtyPc) : Prop :=
  s.keyboard.unread = [] ∨ s.kernel.keyPressed ≠ 0 ∨
    pc.ReadsAll s.screen.nrCurrentConsole s.keyboard.unread

/-- What holds in the middle of a step of TTY. -/
structure Busy (s : TtyState) (o : Option Halt) : Prop where
  steady : s.kernel.Steady o
  awake : ¬ (s.kernel.procTable taskTty).isReceiving
  ring : s.keyboard.kbIn.Valid kbInBytes

/-- What holds between the steps. -/
structure Inv (s : TtyState) (o : Option Halt) : Prop where
  steady : s.kernel.Steady o
  asleep : (s.kernel.procTable taskTty).isReceiving → s.pc = .dispatch ∨ s.pc = .receive
  ring : s.pc ≠ .initKeyboard → s.keyboard.kbIn.Valid kbInBytes
  alert : s.pc ≠ .initKeyboard → s.Alert s.pc

/-- A step on the terminals and consoles led from `s` to `t`. -/
structure Same (s t : TtyState) : Prop where
  kernel : t.kernel = s.kernel
  kbIn : t.keyboard.kbIn = s.keyboard.kbIn
  pc : t.pc = s.pc

end TtyState

section

variable {L : TtyLayout} {s t : TtyState} {o : Option Halt} {e : TtyEvent} {pc pc' : TtyPc}
  {i current : Fin nrConsoles} {m : Addr} {k : Kernel} {l : List Byte} {kpc : KbPc}

/-! ## Steps on the terminals -/

theorem TtyState.Same.refl (s : TtyState) : s.Same s := ⟨rfl, rfl, rfl⟩

theorem same_setTty {f : Tty → Tty} : Preserves s.Same (setTty i f) :=
  .modify fun _ h => ⟨h.kernel, h.kbIn, h.pc⟩

theorem same_ttyScreen {α : Type} {x : SM α} : Preserves s.Same (ttyScreen x) :=
  .focus fun _ _ h => ⟨h.kernel, h.kbIn, h.pc⟩

theorem same_inProcess {key : BitVec 32} : Preserves s.Same (inProcess i key) :=
  .ite same_setTty <| .ite same_setTty <| .ite same_setTty <| .ite (.onlyIf same_ttyScreen) <|
    .ite (.onlyIf same_ttyScreen) <| .ite (.ite same_ttyScreen (.onlyIf (.throw _))) (.pure _)

/-! ## The current console -/

/-- Neither scrolling nor characters select a console. -/
abbrev Screen.At (current : Fin nrConsoles) (c : Screen) : Prop := c.nrCurrentConsole = current

theorem current_setConsole {f : Console → Console} :
    Preserves (Screen.At current) (setConsole i f) := .modify fun _ h => h

theorem current_flush : Preserves (Screen.At current) (flush i) :=
  .bind .get fun _ => .onlyIf (.bind (.modify fun _ h => h) fun _ => .modify fun _ h => h)

theorem current_scrollScreen {direction : Int} :
    Preserves (Screen.At current) (scrollScreen i direction) :=
  .bind .get fun _ => .ite (.bind (.onlyIf current_setConsole) fun _ => current_flush)
    (.ite (.bind (.onlyIf current_setConsole) fun _ => current_flush) current_flush)

theorem current_scrollToCursor {fuel : Nat} :
    Preserves (Screen.At current) (scrollToCursor i fuel) := by
  induction fuel with
  | zero =>
    rw [scrollToCursor_zero]
    exact .throw _
  | succ fuel ih =>
    rw [scrollToCursor_succ]
    intro c hc
    rw [wp_bind, wp_get, wp_ite]
    exact ⟨fun _ => current_scrollScreen.bind (fun _ => ih) c hc, fun _ => hc⟩

theorem current_skipBlanks {newRow pVmem : BitVec 32} {fuel : Nat} :
    Preserves (Screen.At current) (skipBlanks i newRow fuel pVmem) := by
  induction fuel generalizing pVmem with
  | zero =>
    rw [skipBlanks_zero]
    exact .throw _
  | succ fuel ih =>
    rw [skipBlanks_succ]
    intro c hc
    rw [wp_bind, wp_get, wp_ite, wp_ite]
    exact ⟨fun _ => ⟨fun _ => hc, fun _ => current_setConsole.bind (fun _ => ih) c hc⟩, fun _ => hc⟩

theorem current_putVideo {a : BitVec 32} {b : Byte} :
    Preserves (Screen.At current) (putVideo i a b) := .modify fun _ h => h

theorem current_backspace {a row : BitVec 32} :
    Preserves (Screen.At current) (backspace i a row) := by
  have erase : Preserves (Screen.At current) (eraseChar i a) :=
    .bind .get fun _ => .ite (.bind current_setConsole fun _ => .bind current_putVideo fun _ =>
      .bind current_putVideo fun _ => .pure _) (.pure _)
  exact .bind erase fun _ => .bind .get fun _ => .onlyIf current_skipBlanks

theorem current_printChar {a : BitVec 32} {ch : Byte} :
    Preserves (Screen.At current) (printChar i a ch) :=
  .bind .get fun _ => .onlyIf (.bind current_putVideo fun _ => .bind current_putVideo fun _ =>
    current_setConsole)

theorem current_outChar {ch : Byte} : Preserves (Screen.At current) (outChar i ch) := by
  have newline : Preserves (Screen.At current) (newLine i) :=
    .bind .get fun _ => .onlyIf current_setConsole
  have finish : Preserves (Screen.At current) (do
      scrollToCursor i loopFuel
      flush i) := .bind current_scrollToCursor fun _ => current_flush
  exact .bind .get fun _ => .ite (.bind newline fun _ => finish)
    (.ite (.bind current_backspace fun _ => finish) (.bind current_printChar fun _ => finish))

/-! ## In the middle of a step -/

namespace TtyState

theorem Same.trans {u : TtyState} (h : s.Same t) (h' : t.Same u) : s.Same u :=
  ⟨h'.kernel.trans h.kernel, h'.kbIn.trans h.kbIn, h'.pc.trans h.pc⟩

theorem Busy.same (h : s.Busy o) (hs : s.Same t) : t.Busy o :=
  ⟨hs.kernel ▸ h.steady, hs.kernel ▸ h.awake, hs.kbIn ▸ h.ring⟩

theorem Alert.same (h : s.Alert pc) (hs : s.Same t)
    (hcur : t.screen.nrCurrentConsole = s.screen.nrCurrentConsole) : t.Alert pc := by
  rw [Alert, Keyboard.unread, hs.kernel, hs.kbIn, hcur]
  exact h

/-- Nothing is unread or a wake-up is on its way: it does not matter where TTY is. -/
theorem Alert.anywhere (h : s.Alert pc) (hpc : ∀ c l, ¬ pc.ReadsAll c l ∨ l = []) (pc' : TtyPc) :
    s.Alert pc' := by
  rcases h with h | h | h
  · exact .inl h
  · exact .inr (.inl h)
  · exact .inl ((hpc _ _).resolve_left (not_not_intro h))

theorem Busy.goto (h : s.Busy none) (ha : s.Alert pc) : (s.goto pc).Inv none :=
  ⟨h.steady, fun hr => absurd hr h.awake, fun _ => h.ring, fun _ => ha⟩

theorem Busy.halt (h : s.Busy none) (ha : s.Alert s.pc) (e : Halt) : s.Inv (some e) :=
  ⟨h.steady.halt _, fun hr => absurd hr h.awake, fun _ => h.ring, fun _ => ha⟩

theorem Inv.busy (h : s.Inv none) (hready : s.kernel.pProcReady = taskTty)
    (hpc : s.pc ≠ .initKeyboard) : s.Busy none :=
  ⟨h.steady, hready ▸ h.steady.not_isReceiving, h.ring hpc⟩

end TtyState

/-- Steps on the terminals, when it does not matter where TTY is. -/
theorem TtyState.Busy.setUp (h : s.Busy none) (ha : ∀ pc, s.Alert pc) {x : TM Unit}
    (hx : Preserves s.Same x) (hst : s.Same t) :
    wp x (fun _ t => t.Busy none ∧ ∀ pc, t.Alert pc) (fun e t => t.Inv (some e)) t := by
  have calm {t : TtyState} (ht : s.Same t) (pc) : t.Alert pc := by
    have := (ha .receive).imp_right fun h => h.resolve_right id
    rw [Keyboard.unread, ← ht.kbIn, ← ht.kernel] at this
    exact this.imp_right .inl
  refine (hx t hst).mono (fun _ t ht => ?_) fun e t ht => ?_
  · exact ⟨h.same ht, calm ht⟩
  · exact (h.same ht).halt (calm ht _) e

/-- Steps on the terminals that leave the current console as it is. -/
theorem wp_same {x : TM Unit} (hx : Preserves s.Same x)
    (hcur : Preserves (fun t => t.screen.nrCurrentConsole = s.screen.nrCurrentConsole) x)
    (h : s.Busy none) (ha : s.Alert pc) (ha' : s.Alert s.pc) {Q : Unit → TtyState → Prop}
    (hQ : ∀ t, t.Busy none → t.Alert pc → t.Alert t.pc → s.Same t → Q () t) :
    wp x Q (fun e t => t.Inv (some e)) s := by
  refine ((hx s (.refl s)).and (hcur s rfl)).mono (fun _ t ht => ?_) fun e t ht => ?_
  · exact hQ t (h.same ht.1) (ha.same ht.1 ht.2) (ht.1.pc ▸ ha'.same ht.1 ht.2) ht.1
  · exact (h.same ht.1).halt (ht.1.pc ▸ ha'.same ht.1 ht.2) e

theorem wp_ttyGoto {Q : Unit → TtyState → Prop} {E : Halt → TtyState → Prop} :
    wp (ttyGoto pc) Q E s ↔ Q () (s.goto pc) := Iff.rfl

theorem wp_setTtyMsg {f : Message → Message} {Q : Unit → TtyState → Prop}
    {E : Halt → TtyState → Prop} : wp (setTtyMsg m f) Q E s ↔
      Q () { s with kernel := s.kernel.setMsg m (f (s.kernel.msgs m)) } := by
  rw [setTtyMsg, ttyKernel, wp_focus, wp_modify]

/-- A message of TTY does not matter. -/
theorem TtyState.Busy.setMsg (h : s.Busy none) (m : Addr) (content : Message) :
    TtyState.Busy { s with kernel := s.kernel.setMsg m content } none :=
  ⟨h.steady.setMsg m content, h.awake, h.ring⟩

/-- TTY sends a message and goes on. -/
theorem wp_ttySend_goto {i : Int} (h : s.Busy none) (hready : s.kernel.pProcReady = taskTty)
    (hm : m ≠ 0) (ha : s.Alert pc) (ha' : s.Alert s.pc) :
    wp (do
      ttySendrec send i m
      ttyGoto pc) (fun _ t => t.Inv none) (fun e t => t.Inv (some e)) s := by
  rw [wp_bind, ttySendrec, wp_bind, ttyKernel, wp_focus]
  refine (wp_send h.steady hready hm).mono (fun _ k' hk => ?_) fun e k' hk => ?_
  · refine ⟨hk.1.steady, fun hr => absurd hr hk.2, fun _ => h.ring, fun _ => ?_⟩
    simpa only [TtyState.Alert, TtyState.goto, hk.1.keyPressed] using ha
  · refine ⟨hk.1.steady, fun hr => absurd hr hk.2, fun _ => h.ring, fun _ => ?_⟩
    simpa only [TtyState.Alert, hk.1.keyPressed] using ha'

/-! ## The loop over the terminals -/

/-- The places after a terminal has been polled. -/
theorem wp_nextTty (h : s.Busy none) (ha : s.Alert (.devWrite i)) :
    wp (nextTty i) (fun _ t => t.Inv none) (fun e t => t.Inv (some e)) s := by
  rw [nextTty, wp_bind, wp_get]
  have next (pc : TtyPc) (hpc : i < s.screen.nrCurrentConsole →
      KbPc.first.ReadsAll s.keyboard.unread →
      pc.ReadsAll s.screen.nrCurrentConsole s.keyboard.unread) : (s.goto pc).Inv none :=
    h.goto (ha.imp_right fun h => h.imp_right fun h => hpc h.1 h.2)
  split
  · exact next _ fun hi hl => ⟨hi.le, hl⟩
  · split
    · exact next _ fun hi hl => ⟨hi, hl⟩
    · exact next _ fun hi _ => absurd (Fin.lt_def.mp hi) (by omega)

theorem wp_ttyDevRead (h : s.Busy none) (ha : s.Alert (.devRead i)) :
    wp (ttyDevRead i) (fun _ t => t.Inv none) (fun e t => t.Inv (some e)) s := by
  rw [ttyDevRead, wp_bind, wp_get, wp_ite]
  constructor
  · intro _
    exact h.goto (ha.imp_right fun h => h.imp_right fun h => h.2)
  · intro hno
    refine h.goto ?_
    by_cases hcount : s.keyboard.kbIn.count = 0
    · exact .inl ((RingBuffer.contents_eq_nil h.ring).mpr hcount)
    · have hpos : s.keyboard.kbIn.count > 0 := lt_of_le_of_ne h.ring.nonneg (Ne.symm hcount)
      have hne : i ≠ s.screen.nrCurrentConsole := fun hi => hno ⟨hi, hpos⟩
      exact ha.imp_right fun h => h.imp_right fun h => ⟨lt_of_le_of_ne h.1 hne, h.2⟩

/-- A stretch of `keyboard_read` reads a byte or, with nothing left to read, ends. -/
theorem wp_keyboardRead (h : s.Busy none) (hpc : s.pc = .keyboardRead i kpc) (ha : s.Alert s.pc) :
    wp (keyboardRead i kpc) (fun _ t => t.Inv none) (fun e t => t.Inv (some e)) s := by
  rw [hpc] at ha
  have reads (hr : kpc.Reads) : wp (do
      let s ← get
      if s.keyboard.kbIn.count ≤ 0 then pure ()
      else do
        modify fun s => { s with keyboard := { s.keyboard with
          kbIn := s.keyboard.kbIn.drop kbInBytes } }
        ttyGoto (.keyboardRead i (kpc.feed s.keyboard.kbIn.first)) : TM Unit)
      (fun _ t => t.Inv none) (fun e t => t.Inv (some e)) s := by
    rw [wp_bind, wp_get, wp_ite, wp_bind, wp_modify, wp_ttyGoto]
    constructor
    · intro _
      exact ⟨h.steady, fun hr => absurd hr h.awake, fun _ => h.ring, fun _ => hpc ▸ ha⟩
    · intro hcount
      have hpos : 0 < s.keyboard.kbIn.count := by omega
      have hunread := RingBuffer.contents_drop h.ring hpos
      refine ⟨h.steady, fun hr => absurd hr h.awake, fun _ => h.ring.drop hpos, fun _ => ?_⟩
      rcases ha with hnil | hpressed | hall
      · rw [Keyboard.unread, hunread] at hnil
        exact absurd hnil (List.cons_ne_nil _ _)
      · exact .inr (.inl hpressed)
      · rw [Keyboard.unread, hunread] at hall
        exact .inr (.inr hall.2)
  have done (hr : ¬ kpc.Reads) : ∀ pc, s.Alert pc :=
    ha.anywhere fun _ l => by
      cases l with
      | nil => exact .inr rfl
      | cons b l => exact .inl fun hall => hr hall.1
  cases kpc with
  | decode scanCode codeWithE0 =>
    rw [keyboardRead, wp_bind, wp_get]
    rcases s.keyboard.modifiers.decode scanCode codeWithE0 with ⟨modifiers, key⟩
    have hall := done id
    have hmod : s.Same { s with keyboard := { s.keyboard with modifiers } } := ⟨rfl, rfl, rfl⟩
    have finish (x : TM Unit) (hx : Preserves s.Same x) : wp (do
        x
        ttyGoto (.devWrite i)) (fun _ t => t.Inv none) (fun e t => t.Inv (some e))
        { s with keyboard := { s.keyboard with modifiers } } := by
      rw [wp_bind]
      exact (h.setUp hall hx hmod).mono (fun _ t ht => ht.1.goto (ht.2 _)) fun _ _ h => h
    cases key with
    | some key => exact finish _ same_inProcess
    | none => exact finish (pure ()) (.pure ())
  | finish => exact h.goto (done id _)
  | first | pause _ | extended | printMake _ | printBreak _ => exact reads trivial

/-! ## Characters and requests -/

theorem current_ttyScreen {α : Type} {x : SM α} (hx : Preserves (Screen.At current) x) :
    Preserves (fun t : TtyState => t.screen.nrCurrentConsole = current) (ttyScreen x) := by
  intro t ht
  rw [ttyScreen, wp_focus]
  exact hx _ ht

theorem current_setTty {f : Tty → Tty} :
    Preserves (fun t : TtyState => t.screen.nrCurrentConsole = current) (setTty i f) :=
  .modify fun _ h => h

theorem same_ttyTypeChar {ch : Byte} : Preserves s.Same (ttyTypeChar i ch) :=
  .bind .get fun _ => .ite
    (.bind same_ttyScreen fun _ => .bind same_ttyScreen fun _ => same_setTty)
    (.onlyIf (.bind same_ttyScreen fun _ => same_setTty))

theorem current_ttyTypeChar {ch : Byte} :
    Preserves (fun t : TtyState => t.screen.nrCurrentConsole = current) (ttyTypeChar i ch) :=
  .bind .get fun _ => .ite
    (.bind (current_ttyScreen current_outChar) fun _ =>
      .bind (current_ttyScreen (.modify fun _ h => h)) fun _ => current_setTty)
    (.onlyIf (.bind (current_ttyScreen current_outChar) fun _ => current_setTty))

theorem wp_ttyResume (h : s.Busy none) (hready : s.kernel.pProcReady = taskTty)
    (ha : s.Alert (.devWrite i)) (ha' : s.Alert s.pc) :
    wp (ttyResume L i) (fun _ t => t.Inv none) (fun e t => t.Inv (some e)) s := by
  rw [ttyResume, wp_bind]
  refine wp_same same_ttyScreen (current_ttyScreen current_outChar) h ha ha' fun t ht hat hat' hs => ?_
  rw [wp_bind, wp_get, wp_bind, wp_setTtyMsg]
  exact wp_ttySend_goto (ht.setMsg _ _) (hs.kernel ▸ hready) L.resumeMsg_ne_zero hat hat'

theorem wp_ttyDevWrite (h : s.Busy none) (hready : s.kernel.pProcReady = taskTty)
    (hpc : s.pc = .devWrite i) (ha : s.Alert s.pc) :
    wp (ttyDevWrite L i) (fun _ t => t.Inv none) (fun e t => t.Inv (some e)) s := by
  have ha' := ha
  rw [hpc] at ha'
  rw [ttyDevWrite, wp_bind, wp_get, wp_ite]
  refine ⟨fun _ => wp_nextTty h ha', fun _ => ?_⟩
  rw [wp_bind]
  refine wp_same same_setTty current_setTty h ha' ha fun t ht hat hat' hst => ?_
  rw [wp_ite]
  refine ⟨fun _ => wp_nextTty ht hat, fun _ => ?_⟩
  rw [wp_bind]
  refine wp_same same_ttyTypeChar current_ttyTypeChar ht hat hat' fun u hu hau hau' htu => ?_
  rw [wp_bind, wp_get, wp_ite]
  exact ⟨fun _ => wp_ttyResume hu ((hst.trans htu).kernel ▸ hready) hau hau',
    fun _ => wp_nextTty hu hau⟩

/-- TTY answers a request and starts the next pass. -/
theorem wp_answer {n : Int} (h : s.Busy none) (hready : s.kernel.pProcReady = taskTty)
    (ha : ∀ pc, s.Alert pc) {f : Message → Message} :
    wp (do
      setTtyMsg L.msg f
      ttySendrec send n L.msg
      ttyGoto (.devRead 0)) (fun _ t => t.Inv none) (fun e t => t.Inv (some e)) s := by
  rw [wp_bind, wp_setTtyMsg]
  exact wp_ttySend_goto (h.setMsg _ _) hready L.msg_ne_zero (ha _) (ha _)

theorem wp_procAt_any {n : Int} {Q : Pid → TtyState → Prop} {E : Halt → TtyState → Prop}
    (hok : ∀ pid, Q pid s) (herr : E .wildIndex s) : wp (procAt n) Q E s := by
  unfold procAt
  split
  · exact hok _
  · exact herr

theorem wp_ttyAt {n : Int} {Q : Fin nrConsoles → TtyState → Prop} {E : Halt → TtyState → Prop}
    (hok : ∀ i, Q i s) (herr : E .wildIndex s) : wp (ttyAt n) Q E s := by
  unfold ttyAt
  split
  · exact hok _
  · exact herr

/-- Addresses of the processes' segments can be computed in every state of a run. -/
theorem wp_ttyVa2la {pid : Pid} {va : Addr} {Q : Addr → TtyState → Prop}
    {E : Halt → TtyState → Prop} (h : s.Busy none) (hQ : ∀ la, Q la s) :
    wp (ttyKernel (va2la pid va)) Q E s := by
  obtain ⟨⟨a, ha⟩, -⟩ := h.steady
  rw [ttyKernel, wp_focus, ha.implements.wp_va2la]
  exact hQ _

theorem wp_ttyDoRead {msg : Message} (h : s.Busy none) (hready : s.kernel.pProcReady = taskTty)
    (ha : ∀ pc, s.Alert pc) :
    wp (ttyDoRead L i msg) (fun _ t => t.Inv none) (fun e t => t.Inv (some e)) s := by
  have set {t : TtyState} (ht : t.Busy none) (f : Tty → Tty) : (t.setTty i f).Busy none :=
    ht.same ⟨rfl, rfl, rfl⟩
  rw [ttyDoRead, wp_bind, setTty, wp_modify, wp_bind]
  refine wp_procAt_any (fun pid => ?_) ((set h _).halt (ha _) _)
  rw [wp_bind]
  refine wp_ttyVa2la (set h _) fun la => ?_
  rw [wp_bind, setTty, wp_modify]
  exact wp_answer (set (set h _) _) hready ha

theorem wp_ttyOutput {p : Addr} {left : Int} (h : s.Busy none)
    (hready : s.kernel.pProcReady = taskTty) (ha : ∀ pc, s.Alert pc) :
    wp (ttyOutput L i p left) (fun _ t => t.Inv none) (fun e t => t.Inv (some e)) s := by
  rw [ttyOutput, wp_ite, wp_ite]
  refine ⟨fun _ => ?_, fun _ => ⟨fun _ => h.halt (ha _) _, fun _ => ?_⟩⟩
  · rw [wp_bind, wp_setTtyMsg, wp_bind, wp_get]
    exact wp_ttySend_goto (h.setMsg _ _) hready L.msg_ne_zero (ha _) (ha _)
  · rw [wp_bind, wp_get, wp_bind]
    refine wp_same (.forM fun _ => same_ttyScreen)
      (.forM fun _ => current_ttyScreen current_outChar) h
      (ha (.output i (p + BitVec.ofNat 32 (min ttyOutBufLen left.toNat))
        (left - (min ttyOutBufLen left.toNat : Nat)))) (ha _) fun t ht hat _ _ => ?_
    exact ht.goto hat

/-- A message is answered; taking an interrupt is safe when one code at most is unread. -/
theorem wp_ttyDispatch (h : s.Busy none) (hready : s.kernel.pProcReady = taskTty)
    (hpc : s.pc = .dispatch) (ha : s.Alert s.pc)
    (hprompt : (s.kernel.msgs L.msg).type = MsgType.hardInt →
      KbPc.first.ReadsAll s.keyboard.unread) :
    wp (ttyDispatch L) (fun _ t => t.Inv none) (fun e t => t.Inv (some e)) s := by
  have ha : ∀ pc, s.Alert pc := by
    rw [hpc] at ha
    exact ha.anywhere fun _ _ => .inl id
  rw [ttyDispatch, wp_bind, wp_get, wp_bind, wp_assert]
  refine ⟨fun _ => ?_, fun _ => h.halt (ha _) _⟩
  rw [wp_ite, wp_ite, wp_ite, wp_ite]
  refine ⟨fun _ => wp_answer h hready ha, fun _ => ⟨fun _ => ?_, fun _ => ⟨fun _ => ?_,
    fun _ => ⟨fun hint => ?_, fun _ => h.goto (ha _)⟩⟩⟩⟩
  · rw [wp_bind]
    exact wp_ttyAt (fun _ => wp_ttyDoRead h hready ha) (h.halt (ha _) _)
  · rw [wp_bind]
    refine wp_ttyAt (fun _ => ?_) (h.halt (ha _) _)
    rw [wp_bind]
    refine wp_procAt_any (fun _ => ?_) (h.halt (ha _) _)
    rw [wp_bind]
    exact wp_ttyVa2la h fun _ => h.goto (ha _)
  · rw [wp_bind, ttyKernel, wp_focus, wp_modify]
    refine ⟨h.steady.congr rfl rfl rfl, fun hr => absurd hr h.awake, fun _ => h.ring, fun _ => ?_⟩
    exact .inr (.inr ⟨Fin.zero_le _, hprompt hint⟩)

/-! ## Runs -/

/-- A prompt step of TTY. -/
theorem wp_ttyPc (h : s.Inv none) (hready : s.kernel.pProcReady = taskTty)
    (hprompt : TtyEvent.tty.Prompt L s) :
    wp (s.pc.run L) (fun _ t => t.Inv none) (fun e t => t.Inv (some e)) s := by
  have hawake : ¬ (s.kernel.procTable taskTty).isReceiving :=
    hready ▸ h.steady.not_isReceiving
  cases hpc : s.pc with
  | initKeyboard =>
    have hring : s.keyboard.init.kbIn.Valid kbInBytes := .empty rfl rfl (Nat.zero_lt_succ 31)
    rw [TtyPc.run, wp_bind, wp_modify]
    exact ⟨h.steady, fun hr => absurd hr hawake, fun _ => hring,
      fun _ => .inl ((RingBuffer.contents_eq_nil hring).mpr rfl)⟩
  | initTty i =>
    have hb := h.busy hready (by simp [hpc])
    have ha : ∀ pc, s.Alert pc := (h.alert (by simp [hpc])).anywhere
      fun _ _ => .inl (by rw [hpc]; exact id)
    rw [TtyPc.run, wp_bind]
    refine (hb.setUp ha same_setTty (.refl s)).mono (fun _ t ht => ?_) fun _ _ h => h
    rw [wp_bind]
    refine (ht.1.setUp ht.2 same_ttyScreen (.refl t)).mono (fun _ u hu => ?_) fun _ _ h => h
    split
    · exact hu.1.goto (hu.2 _)
    · exact hu.1.goto (hu.2 _)
  | selectConsole =>
    have hb := h.busy hready (by simp [hpc])
    have ha : ∀ pc, s.Alert pc := (h.alert (by simp [hpc])).anywhere
      fun _ _ => .inl (by rw [hpc]; exact id)
    rw [TtyPc.run, wp_bind]
    exact (hb.setUp ha same_ttyScreen (.refl s)).mono (fun _ t ht => ht.1.goto (ht.2 _)) fun _ _ h => h
  | devRead i =>
    exact wp_ttyDevRead (h.busy hready (by simp [hpc])) (hpc ▸ h.alert (by simp [hpc]))
  | keyboardRead i kpc =>
    exact wp_keyboardRead (h.busy hready (by simp [hpc])) hpc (h.alert (by simp [hpc]))
  | devWrite i =>
    exact wp_ttyDevWrite (h.busy hready (by simp [hpc])) hready hpc
      (h.alert (by simp [hpc]))
  | resumed i =>
    have hb := h.busy hready (by simp [hpc])
    have ha := h.alert (by simp [hpc])
    have hat : s.Alert (.devWrite i) := by
      rw [hpc] at ha
      exact ha
    rw [TtyPc.run, wp_bind]
    exact wp_same same_setTty current_setTty hb hat ha fun t ht hat _ _ => wp_nextTty ht hat
  | receive =>
    have hb := h.busy hready (by simp [hpc])
    have ha : ∀ pc, s.Alert pc := (h.alert (by simp [hpc])).anywhere
      fun _ _ => .inl (by rw [hpc]; exact id)
    rw [TtyPc.run, wp_bind, wp_setTtyMsg, wp_bind, ttySendrec, wp_bind, ttyKernel, wp_focus]
    refine (wp_receive (hb.setMsg _ _).steady hready L.msg_ne_zero (.inl rfl)).mono
      (fun _ k' hk => ?_) fun e k' hk => ?_
    · refine ⟨hk.steady, fun _ => .inl rfl, fun _ => hb.ring, fun _ => ?_⟩
      have hpressed : k'.keyPressed = s.kernel.keyPressed := hk.keyPressed
      simpa only [TtyState.Alert, TtyState.goto, hpressed] using ha .dispatch
    · refine ⟨hk.steady, fun _ => .inr hpc, fun _ => hb.ring, fun _ => ?_⟩
      have hpressed : k'.keyPressed = s.kernel.keyPressed := hk.keyPressed
      simpa only [TtyState.Alert, hpressed] using ha s.pc
  | dispatch =>
    exact wp_ttyDispatch (h.busy hready (by simp [hpc])) hready hpc
      (h.alert (by simp [hpc])) (hprompt hpc)
  | output i p left =>
    have hb := h.busy hready (by simp [hpc])
    have ha : ∀ pc, s.Alert pc := (h.alert (by simp [hpc])).anywhere
      fun _ _ => .inl (by rw [hpc]; exact id)
    exact wp_ttyOutput hb hready ha

theorem Event.Led.keyPressed_eq {a a' : Ipc} {k' : Kernel} {e : Event} (h : e.Led k a k' a')
    (he : ¬ e.IsKey) : k'.keyPressed = k.keyPressed := by
  refine h.keyPressed.trans ?_
  cases e with
  | key pressed => exact absurd trivial he
  | sendrec _ _ _ | write _ _ | informInt _ | clock => rfl

theorem TtyState.Inv.step (h : s.Inv none) (he : PromptEvent L s e) :
    wp (e.run L) (fun _ t => t.Inv none) (fun e t => t.Inv (some e)) s := by
  obtain ⟨hv, hprompt⟩ := he
  cases e with
  | kernel e =>
    obtain ⟨hvalid, hkey, hother⟩ := hv
    obtain ⟨⟨a, ha⟩, hr⟩ := h.steady
    have hinv {k' a' o} (hled : e.Led s.kernel a k' a') (hsteady : k'.Steady o) :
        TtyState.Inv { s with kernel := k' } o := by
      refine ⟨hsteady, fun hrecv => h.asleep ?_, h.ring, fun hpc => ?_⟩
      · by_contra hn
        exact hled.not_isReceiving ha hother hn hrecv
      · have := h.alert hpc
        rwa [TtyState.Alert, ← hled.keyPressed_eq hkey] at this
    rw [TtyEvent.run, ttyKernel, wp_focus]
    refine wp_event ha (hr (by simp)) hvalid (fun k' a' hled hr => ?_) fun k' a' e hled hr => ?_
    · exact hinv hled ⟨⟨a', hled.sound⟩, fun _ => hr⟩
    · exact hinv hled ⟨⟨a', hled.sound⟩, fun hne => hr fun heq => hne (by rw [heq])⟩
  | keyboard scanCode =>
    rw [TtyEvent.run, keyboardHandler, wp_bind, wp_modify, ttyKernel, wp_focus, wp_modify]
    exact ⟨h.steady.congr rfl rfl rfl, h.asleep, fun hpc => (h.ring hpc).put scanCode,
      fun _ => .inr (.inl one_ne_zero)⟩
  | tty =>
    rw [TtyEvent.run, wp_bind, wp_get]
    exact wp_ttyPc h hv hprompt

theorem TtyState.Initial.inv (h : s.Initial) : s.Inv none := by
  obtain ⟨⟨kBase, kLimit, hk⟩, -, -, hpc⟩ := h
  have hflags (p : Pid) (hp : p.val < nrTasks + nrNativeProcs) :
      (s.kernel.procTable p).pFlags = 0 := by
    rw [hk.procTable]
    exact (initProc_of_native _ _ hp).1.1
  have hruns : s.kernel.Runs := by
    rw [Kernel.Runs, hk.pProcReady]
    exact hflags 0 (by decide)
  refine ⟨⟨⟨_, hk.implements, initialIpc_wellFormed, hk.kReenter⟩, fun _ => hruns⟩, fun hr => ?_,
    fun h => absurd hpc h, fun h => absurd hpc h⟩
  rw [Proc.isReceiving, hflags taskTty (by decide)] at hr
  exact absurd hr (by decide)

theorem reached_keyPress (hr : (ttyMachine L).Reached (PromptEvent L) s o) : s.Inv o := by
  refine hr.invariant (I := TtyState.Inv) (fun s (h : s.Initial) => h.inv) ?_
  intro s e _ hs he
  exact exec_of_wp (P := TtyState.Inv) (hs.step he)

/-- In every run in which TTY finds at most one code when it takes an interrupt, a wake-up is
pending whenever TTY sleeps and scan codes are unread. -/
theorem no_key_waits (hr : (ttyMachine L).Reached (PromptEvent L) s o) : ¬ s.KeyWaits := by
  intro hwaits
  have h := reached_keyPress hr
  have hpc : s.pc ≠ .initKeyboard := by
    rcases h.asleep hwaits.asleep with hpc | hpc <;> rw [hpc] <;> nofun
  rcases h.alert hpc with hnil | hpressed | hreads
  · exact absurd ((RingBuffer.contents_eq_nil (h.ring hpc)).mp hnil) hwaits.unread.ne'
  · exact hpressed hwaits.notPressed
  · rcases h.asleep hwaits.asleep with hpc | hpc
    · rw [hpc] at hreads
      exact hreads
    · rw [hpc] at hreads
      exact hreads

/-! ## One key and two keys -/

instance : (kpc : KbPc) → (l : List Byte) → Decidable (kpc.ReadsAll l)
  | _, [] => isTrue trivial
  | kpc, b :: l =>
    have := instDecidableReadsAll (kpc.feed b) l
    inferInstanceAs (Decidable (_ ∧ _))

instance : (e : TtyEvent) → Decidable (e.Prompt L s)
  | .tty => inferInstanceAs (Decidable (_ → _ → _))
  | .kernel _ | .keyboard _ => isTrue trivial

instance : Decidable (PromptEvent L s e) := inferInstanceAs (Decidable (_ ∧ _))

end

/-- TTY starts and polls its first terminal. -/
def ttyStart : List TtyEvent := List.replicate 6 .tty

/-- Keys are released, the clock ticks, and TTY finishes its pass, takes the interrupt, makes
another pass and goes to sleep. -/
def releases (codes : List Byte) : List TtyEvent :=
  ttyStart ++ codes.map .keyboard ++ [.kernel .clock] ++ List.replicate 16 .tty

def TtyState.released : TtyState × Option Halt :=
  ((ttyMachine .low).run (PromptEvent .low) (releases [0x9E])
    (TtyState.begin, none)).get (by decide +kernel)

theorem TtyState.released_reached : (ttyMachine .low).Reached (PromptEvent .low)
    TtyState.released.1 TtyState.released.2 := .of_get (.start TtyState.begin_initial) _

theorem no_key_waits_released : ¬ TtyState.released.1.KeyWaits :=
  no_key_waits TtyState.released_reached

theorem key_waits :
    ¬ ∀ s o, (ttyMachine .low).Reached ValidTty s o → ¬ s.KeyWaits := by
  intro hall
  have hrun : ((ttyMachine .low).run ValidTty (releases [0x9E, 0xB0]) (TtyState.begin, none)).map
      (fun r => ((r.1.kernel.procTable taskTty).pFlags, (r.1.kernel.procTable taskTty).hasIntMsg,
        r.1.kernel.keyPressed, r.1.keyboard.kbIn.count)) = some (receiving, 0, 0, 1) := by
    decide +kernel
  obtain ⟨⟨s, o⟩, hr, hs⟩ := Option.map_eq_some_iff.mp hrun
  simp only [Prod.mk.injEq] at hs
  obtain ⟨hflags, hint, hpressed, hcount⟩ := hs
  refine hall s o (.of_run (.start TtyState.begin_initial) hr) ⟨?_, hint, hpressed, ?_⟩
  · rw [Proc.isReceiving, hflags]
    decide
  · rw [hcount]
    decide

end Dlos
