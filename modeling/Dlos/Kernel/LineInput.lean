import Dlos.Kernel.KeyPress
import Dlos.Kernel.Screen

/-!
# Reading a line from a terminal

`tty_dev_write` puts the characters of a line straight into the reader's buffer and takes them back
on a backspace, so between two keys the buffer begins with the line as it is edited, and the two
counters add up to what was asked for.
-/

namespace Dlos

open Program Bytes

/-! ## The edited line -/

/-- `char ch` of a key. -/
def keyChar (key : BitVec 32) : Byte := key.truncate 8

/-- Printable characters are appended, a backspace removes the last one, others are ignored. -/
def typeChar (text : List Byte) (ch : Byte) : List Byte :=
  if 0x20 ≤ ch ∧ ch ≤ 0x7E then text ++ [ch]
  else if ch = 0x08 then text.dropLast
  else text

structure Line where
  text : List Byte := []
  finished : Bool := false

/-- One more key: a newline or the character that makes `n` finishes the line. -/
def Line.type (n : Nat) (l : Line) (key : BitVec 32) : Line :=
  if l.finished then l
  else
    let text := typeChar l.text (keyChar key)
    { text, finished := keyChar key = 0x0A ∨ text.length = n }

/-- The line of the first `n` characters that the keys make. -/
def line (n : Nat) (keys : List (BitVec 32)) : Line := keys.foldl (Line.type n) {}

/-! ## The reader's buffer -/

/-- Byte `j` of a buffer. -/
def bufByte (la : Addr) (j : Nat) : Nat := (la + BitVec.ofNat 32 j).toNat

/-- The terminal knows the reader and how many characters its buffer has; these are the text. -/
structure Holds (i : Fin nrConsoles) (la : Addr) (msg : Message) (text : List Byte)
    (t : TtyState) : Prop where
  caller : (t.ttyTable i).ttyCaller = msg.source
  procnr : (t.ttyTable i).ttyProcnr = msg.procNr
  reqBuf : (t.ttyTable i).ttyReqBuf = la
  trans : (t.ttyTable i).ttyTransCnt = (text.length : Nat)
  bytes : ∀ j < text.length, text[j]? = some (t.screen.mem (bufByte la j))
  inv : t.screen.Inv

/-- The buffer of `n` bytes is not in the video memory. -/
def BufferApart (la : Addr) (n : Nat) : Prop := ∀ j < n, ∀ c, ¬InCells c (bufByte la j)

/-- Only the buffer and the cells of the terminal's console are written. -/
def WrittenIn (i : Fin nrConsoles) (la : Addr) (n : Nat) (t u : TtyState) : Prop :=
  ∀ a, ¬InCells i a → (∀ j < n, a ≠ bufByte la j) → u.screen.mem a = t.screen.mem a

/-- What other code may do between two keys: it leaves the terminal and the buffer alone. -/
structure Apart (i : Fin nrConsoles) (la : Addr) (n : Nat) (t u : TtyState) : Prop where
  tty : u.ttyTable i = t.ttyTable i
  mem : ∀ j < n, u.screen.mem (bufByte la j) = t.screen.mem (bufByte la j)
  inv : u.screen.Inv

section

variable {L : TtyLayout} {i : Fin nrConsoles} {la : Addr} {n : Nat} {msg : Message}
  {text : List Byte} {s t u : TtyState} {ch : Byte} {E : Halt → TtyState → Prop}

theorem bufByte_ne {j k : Nat} (hjk : j ≠ k) (hj : j < 2 ^ 31) (hk : k < 2 ^ 31) :
    bufByte la j ≠ bufByte la k := by
  rw [bufByte, bufByte, BitVec.toNat_add, BitVec.toNat_add, BitVec.toNat_ofNat, BitVec.toNat_ofNat]
  omega

/-- A character on the screen. -/
theorem wp_ttyOutChar {Q : Unit → TtyState → Prop} (hinv : t.screen.Inv)
    (hQ : ∀ c, t.screen.Drawn i c → Q () { t with screen := c }) :
    wp (ttyScreen (outChar i ch)) Q E t := by
  rw [ttyScreen, wp_focus]
  exact (wp_outChar (.refl (hinv.fits i (List.mem_finRange i))) ch).mono (fun _ c hc => hQ c hc)
    fun _ _ h => h.elim

theorem Holds.screen (h : Holds i la msg text t) (hbuf : BufferApart la n) (hle : text.length ≤ n)
    {c : Screen} (hc : t.screen.Drawn i c) : Holds i la msg text { t with screen := c } where
  caller := h.caller
  procnr := h.procnr
  reqBuf := h.reqBuf
  trans := h.trans
  bytes j hj := (h.bytes j hj).trans (congrArg some (hc.mem _ (hbuf j (by omega) i)).symm)
  inv := hc.inv h.inv

theorem writtenIn_screen {c : Screen} (hc : t.screen.Drawn i c) :
    WrittenIn i la n t { t with screen := c } := fun a ha _ => hc.mem a ha

/-- The state after a character was stored behind the text. -/
def TtyState.store (t : TtyState) (i : Fin nrConsoles) (a : Nat) (ch : Byte) : TtyState :=
  TtyState.setTty { t with screen := { t.screen with mem := Function.update t.screen.mem a ch } } i
    fun tty => { tty with ttyTransCnt := tty.ttyTransCnt + 1, ttyLeftCnt := tty.ttyLeftCnt - 1 }

@[simp] theorem TtyState.setTty_self {f : Tty → Tty} :
    (t.setTty i f).ttyTable i = f (t.ttyTable i) := by
  simp [setTty]

theorem wp_store {Q : Unit → TtyState → Prop} {a : BitVec 32} :
    wp (do
      ttyScreen (modify fun c => { c with mem := Function.update c.mem a.toNat ch })
      setTty i fun tty =>
        { tty with ttyTransCnt := tty.ttyTransCnt + 1, ttyLeftCnt := tty.ttyLeftCnt - 1 }) Q E t ↔
      Q () (t.store i a.toNat ch) := Iff.rfl

theorem store_ttyTable {a : Nat} : (t.store i a ch).ttyTable i = { t.ttyTable i with
    ttyTransCnt := (t.ttyTable i).ttyTransCnt + 1
    ttyLeftCnt := (t.ttyTable i).ttyLeftCnt - 1 } :=
  TtyState.setTty_self

theorem Holds.store (h : Holds i la msg text t) (hlt : text.length < 2 ^ 31 - 1) :
    Holds i la msg (text ++ [ch]) (t.store i (bufByte la text.length) ch) where
  caller := store_ttyTable ▸ h.caller
  procnr := store_ttyTable ▸ h.procnr
  reqBuf := store_ttyTable ▸ h.reqBuf
  trans := by
    rw [store_ttyTable]
    simp [h.trans]
  bytes j hj := by
    rw [List.length_append, List.length_singleton] at hj
    change _ = some (Function.update t.screen.mem (bufByte la text.length) ch (bufByte la j))
    rcases Nat.lt_succ_iff_lt_or_eq.mp hj with hlt' | rfl
    · rw [Function.update_of_ne (bufByte_ne (by omega) (by omega) (by omega)), ← h.bytes j hlt',
        List.getElem?_append_left hlt']
    · simp
  inv := ⟨h.inv.fits, h.inv.writes⟩

theorem writtenIn_store (hlt : text.length < n) :
    WrittenIn i la n t (t.store i (bufByte la text.length) ch) := fun _ _ hne =>
  Function.update_of_ne (hne _ hlt) _ _

/-- The state after the last character was taken back. -/
def TtyState.takeBack (t : TtyState) (i : Fin nrConsoles) : TtyState :=
  t.setTty i fun tty =>
    { tty with ttyTransCnt := tty.ttyTransCnt - 1, ttyLeftCnt := tty.ttyLeftCnt + 1 }

theorem wp_takeBack {Q : Unit → TtyState → Prop} :
    wp (setTty i fun tty =>
      { tty with ttyTransCnt := tty.ttyTransCnt - 1, ttyLeftCnt := tty.ttyLeftCnt + 1 }) Q E t ↔
      Q () (t.takeBack i) := Iff.rfl

theorem takeBack_ttyTable : (t.takeBack i).ttyTable i = { t.ttyTable i with
    ttyTransCnt := (t.ttyTable i).ttyTransCnt - 1
    ttyLeftCnt := (t.ttyTable i).ttyLeftCnt + 1 } :=
  TtyState.setTty_self

theorem Holds.takeBack (h : Holds i la msg text t) (hne : text ≠ []) :
    Holds i la msg text.dropLast (t.takeBack i) where
  caller := takeBack_ttyTable ▸ h.caller
  procnr := takeBack_ttyTable ▸ h.procnr
  reqBuf := takeBack_ttyTable ▸ h.reqBuf
  trans := by
    have := List.length_pos_iff.mpr hne
    rw [takeBack_ttyTable]
    simp only [h.trans, List.length_dropLast]
    omega
  bytes j hj := by
    rw [List.length_dropLast] at hj
    rw [List.getElem?_dropLast, if_pos hj]
    exact h.bytes j (by omega)
  inv := h.inv

/-- The character of a key does to the buffer what it does to the line. -/
theorem wp_ttyTypeChar (ch : Byte) (h : Holds i la msg text t) (hn : n < 2 ^ 31) (hbuf : BufferApart la n)
    (hleft : (t.ttyTable i).ttyLeftCnt = n - text.length) (hlt : text.length < n) :
    wp (ttyTypeChar i ch) (fun _ u => Holds i la msg (typeChar text ch) u ∧
        (u.ttyTable i).ttyLeftCnt = n - (typeChar text ch).length ∧
        (typeChar text ch).length ≤ n ∧ u.kernel = t.kernel ∧
        (u.ttyTable i).inBuf = (t.ttyTable i).inBuf ∧ WrittenIn i la n t u)
      (fun _ _ => False) t := by
  rw [ttyTypeChar, wp_bind, wp_get]
  dsimp only
  rw [wp_ite, typeChar]
  refine ⟨fun hprint => ?_, fun hprint => ?_⟩
  · rw [if_pos hprint, wp_bind]
    refine wp_ttyOutChar h.inv fun c hc => ?_
    have haddr : (t.ttyTable i).ttyReqBuf + BitVec.ofInt 32 (t.ttyTable i).ttyTransCnt =
        la + BitVec.ofNat 32 text.length := by
      rw [h.reqBuf, h.trans, BitVec.ofInt_natCast]
    have hscreen := h.screen hbuf hlt.le hc
    rw [haddr]
    refine wp_store.mpr ⟨hscreen.store (by omega), ?_, ?_, rfl, ?_, fun a ha hne => ?_⟩
    · rw [store_ttyTable, List.length_append, List.length_singleton]
      dsimp only
      rw [hleft]
      omega
    · rw [List.length_append, List.length_singleton]
      omega
    · rw [store_ttyTable]
    · exact (writtenIn_store hlt a ha hne).trans (hc.mem a ha)
  · rw [if_neg hprint, wp_onlyIf]
    refine ⟨fun hback => ?_, fun hback => ?_⟩
    · rw [if_pos hback.1, wp_bind]
      refine wp_ttyOutChar h.inv fun c hc => ?_
      have hne : text ≠ [] := fun he => hback.2 (by rw [h.trans, he]; rfl)
      refine wp_takeBack.mpr
        ⟨(h.screen hbuf hlt.le hc).takeBack hne, ?_, ?_, rfl, ?_, fun a ha hne => ?_⟩
      · have := List.length_pos_iff.mpr hne
        rw [takeBack_ttyTable, List.length_dropLast]
        dsimp only
        rw [hleft]
        omega
      · rw [List.length_dropLast]
        omega
      · rw [takeBack_ttyTable]
      · exact hc.mem a ha
    · have htext : (if ch = 0x08 then text.dropLast else text) = text := by
        split_ifs with hch
        · have hzero : (t.ttyTable i).ttyTransCnt = 0 := not_not.mp fun hne => hback ⟨hch, hne⟩
          rw [h.trans] at hzero
          have : text = [] := List.length_eq_zero_iff.mp (by omega)
          rw [this, List.dropLast_nil]
        · rfl
      rw [htext]
      exact ⟨h, hleft, hlt.le, rfl, rfl, fun _ _ _ => rfl⟩

/-! ## One key -/

theorem exists_nextTty : ∃ pc, (∀ c, pc ≠ .resumed c) ∧ nextTty i t = .ok () (t.goto pc) := by
  rw [nextTty]
  by_cases hcount : (t.ttyTable i).inBuf.count ≠ 0
  · exact ⟨.devRead i, by simp, (bind_of_ok (x := get) rfl).trans (by rw [if_pos hcount]; rfl)⟩
  · by_cases hi : i.val + 1 < nrConsoles
    · exact ⟨.devRead ⟨i.val + 1, hi⟩, by simp,
        (bind_of_ok (x := get) rfl).trans (by rw [if_neg hcount, dif_pos hi]; rfl)⟩
    · exact ⟨.receive, by simp,
        (bind_of_ok (x := get) rfl).trans (by rw [if_neg hcount, dif_neg hi]; rfl)⟩

/-- The next key to be consumed. -/
def TtyState.nextKey (t : TtyState) (i : Fin nrConsoles) : BitVec 32 := (t.ttyTable i).inBuf.first

/-- The state after the next key was taken out of the ring. -/
def TtyState.dropKey (t : TtyState) (i : Fin nrConsoles) : TtyState :=
  t.setTty i fun tty => { tty with inBuf := tty.inBuf.drop ttyInBytes }

theorem dropKey_ttyTable : (t.dropKey i).ttyTable i =
    { t.ttyTable i with inBuf := (t.ttyTable i).inBuf.drop ttyInBytes } :=
  TtyState.setTty_self

theorem Holds.dropKey (h : Holds i la msg text t) : Holds i la msg text (t.dropKey i) where
  caller := dropKey_ttyTable ▸ h.caller
  procnr := dropKey_ttyTable ▸ h.procnr
  reqBuf := dropKey_ttyTable ▸ h.reqBuf
  trans := dropKey_ttyTable ▸ h.trans
  bytes := h.bytes
  inv := h.inv

/-- With no read pending a key is dropped. -/
theorem ttyDevWrite_idle (hcount : (t.ttyTable i).inBuf.count ≠ 0)
    (hleft : (t.ttyTable i).ttyLeftCnt = 0) :
    ∃ pc, (∀ c, pc ≠ .resumed c) ∧ ttyDevWrite L i t = .ok () ((t.dropKey i).goto pc) := by
  obtain ⟨pc, hpc, hnext⟩ := exists_nextTty (i := i) (t := t.dropKey i)
  refine ⟨pc, hpc, ?_⟩
  rw [ttyDevWrite]
  refine (bind_of_ok (x := get) rfl).trans ?_
  rw [if_neg hcount]
  refine (bind_of_ok (x := setTty i _) (t := t.dropKey i) rfl).trans ?_
  rw [if_pos hleft, hnext]

/-- With a read pending the line is edited, and the reader resumed when it is finished. -/
theorem ttyDevWrite_pending (h : Holds i la msg text t) (hn : n < 2 ^ 31)
    (hbuf : BufferApart la n) (hleft : (t.ttyTable i).ttyLeftCnt = n - text.length)
    (hlt : text.length < n) (hcount : (t.ttyTable i).inBuf.count ≠ 0)
    (hch : keyChar (t.nextKey i) = ch) :
    ∃ u, Holds i la msg (typeChar text ch) u ∧
      (u.ttyTable i).ttyLeftCnt = n - (typeChar text ch).length ∧
      (typeChar text ch).length ≤ n ∧ u.kernel = t.kernel ∧
      (u.ttyTable i).inBuf = (t.ttyTable i).inBuf.drop ttyInBytes ∧ WrittenIn i la n t u ∧
      if ch = 0x0A ∨ (typeChar text ch).length = n then ttyDevWrite L i t = ttyResume L i u
      else ∃ pc, (∀ c, pc ≠ .resumed c) ∧ ttyDevWrite L i t = .ok () (u.goto pc) := by
  have hleft' : ((t.dropKey i).ttyTable i).ttyLeftCnt = n - text.length := dropKey_ttyTable ▸ hleft
  obtain ⟨_, u, htype, hu, huleft, hle, hkernel, hring, hwritten⟩ :=
    (wp_ttyTypeChar ch h.dropKey hn hbuf hleft' hlt).exists_ok
  refine ⟨u, hu, huleft, hle, hkernel, hring.trans (by rw [dropKey_ttyTable]), hwritten, ?_⟩
  have hrun : ttyDevWrite L i t = (if ch = 0x0A ∨ (u.ttyTable i).ttyLeftCnt = 0 then ttyResume L i
      else nextTty i) u := by
    rw [ttyDevWrite]
    refine (bind_of_ok (x := get) rfl).trans ?_
    rw [if_neg hcount]
    refine (bind_of_ok (x := setTty i _) (t := t.dropKey i) rfl).trans ?_
    rw [if_neg (by rw [hleft]; omega)]
    subst hch
    exact (bind_of_ok htype).trans (bind_of_ok (x := get) rfl)
  have hzero : (u.ttyTable i).ttyLeftCnt = 0 ↔ (typeChar text ch).length = n := by
    rw [huleft]
    omega
  by_cases hend : ch = 0x0A ∨ (typeChar text ch).length = n
  · rw [if_pos hend, hrun, if_pos (hend.imp_right hzero.mpr)]
  · rw [if_neg hend, hrun, if_neg fun hc => hend (hc.imp_right hzero.mp)]
    obtain ⟨pc, hpc, hnext⟩ := exists_nextTty (i := i) (t := u)
    exact ⟨pc, hpc, hnext⟩

/-- Send RESUME_PROC for the process that reads to the one that asked for it, with the number of
characters that were read. -/
def resumeReader (L : TtyLayout) (i : Fin nrConsoles) (msg : Message) (cnt : Nat) : TM Unit := do
  ttyScreen (outChar i 0x0A)
  setTtyMsg L.resumeMsg fun m => { m with
    type := MsgType.resumeProc
    u := { m.u with m3i3 := msg.procNr, m3i2 := (cnt : Nat) } }
  ttySendrec send msg.source L.resumeMsg
  ttyGoto (.resumed i)

theorem ttyResume_eq (h : Holds i la msg text t) :
    ttyResume L i t = resumeReader L i msg text.length t := by
  have hdraw : wp (ttyScreen (outChar i 0x0A)) (fun _ u => u.ttyTable = t.ttyTable)
      (fun _ _ => False) t :=
    wp_ttyOutChar h.inv fun _ _ => rfl
  obtain ⟨_, u, hout, hu⟩ := hdraw.exists_ok
  rw [ttyResume, resumeReader]
  refine (bind_of_ok hout).trans (Eq.trans ?_ (bind_of_ok hout).symm)
  refine (bind_of_ok (x := get) rfl).trans ?_
  simp only [hu, h.caller, h.procnr, h.trans]

/-- The kernel's part does not touch the terminals. -/
theorem wp_resumeReader {cnt : Nat} (h : Holds i la msg text t) :
    wp (resumeReader L i msg cnt) (fun _ u => u.ttyTable = t.ttyTable ∧
        t.screen.Drawn i u.screen ∧ u.pc = .resumed i)
      (fun _ u => t.screen.Drawn i u.screen) t := by
  rw [resumeReader, wp_bind]
  refine wp_ttyOutChar h.inv fun c hc => ?_
  rw [wp_bind, wp_setTtyMsg, wp_bind, ttySendrec, wp_bind, ttyKernel, wp_focus]
  exact wp_trivial.mono (fun _ _ _ => ⟨rfl, hc, rfl⟩) fun _ _ _ => hc

/-! ## Runs -/

/-- A read of `n` bytes at `la` after `s`: keys come in, those which the ring takes are `puts`; other
code runs; and `keys` are consumed one by one. A call of `tty_dev_write` that resumes the reader goes on
when its message has been sent. -/
inductive LineRun (L : TtyLayout) (i : Fin nrConsoles) (la : Addr) (n : Nat) (s : TtyState) :
    List (BitVec 32) → List (BitVec 32) → TtyState → Prop
  | start : LineRun L i la n s [] [] s
  | put {puts keys t u key} : LineRun L i la n s puts keys t → putKey i key t = .ok () u →
      LineRun L i la n s
        (if (t.ttyTable i).inBuf.count < ttyInBytes then puts ++ [key] else puts) keys u
  | other {puts keys t u} : LineRun L i la n s puts keys t → Apart i la n t u →
      LineRun L i la n s puts keys u
  | consume {puts keys t u} : LineRun L i la n s puts keys t → (t.ttyTable i).inBuf.count ≠ 0 →
      ttyDevWrite L i t = .ok () u → u.pc ≠ .resumed i →
      LineRun L i la n s puts (keys ++ [t.nextKey i]) u
  | resume {puts keys t u v w} : LineRun L i la n s puts keys t → (t.ttyTable i).inBuf.count ≠ 0 →
      ttyDevWrite L i t = .ok () u → u.pc = .resumed i → Apart i la n u v →
      (TtyPc.resumed i).run L v = .ok () w →
      LineRun L i la n s puts (keys ++ [t.nextKey i]) w

/-- The next call of `tty_dev_write`: at the key that finishes the line it sends RESUME_PROC with the
number of characters, which the buffer begins with; at every other key it sends nothing. -/
structure NextKey (L : TtyLayout) (i : Fin nrConsoles) (la : Addr) (n : Nat) (msg : Message)
    (keys : List (BitVec 32)) (t : TtyState) : Prop where
  finishes : (line n keys).finished = false → (line n (keys ++ [t.nextKey i])).finished = true →
    ∃ u, ttyDevWrite L i t =
        resumeReader L i msg (line n (keys ++ [t.nextKey i])).text.length u ∧
      Holds i la msg (line n (keys ++ [t.nextKey i])).text u
  silent : (line n keys).finished = true ∨ (line n (keys ++ [t.nextKey i])).finished = false →
    ∃ u, ttyDevWrite L i t = .ok () u ∧ u.kernel = t.kernel ∧ u.pc ≠ .resumed i
  written : wp (ttyDevWrite L i) (fun _ u => WrittenIn i la n t u)
    (fun _ u => WrittenIn i la n t u) t

/-- What holds in every state of a read. -/
structure Delivers (L : TtyLayout) (i : Fin nrConsoles) (msg : Message) (s : TtyState)
    (puts keys : List (BitVec 32)) (t : TtyState) : Prop where
  queue : keys ++ (t.ttyTable i).inBuf.contents ttyInBytes =
    (s.ttyTable i).inBuf.contents ttyInBytes ++ puts
  text : Holds i (s.ttyTable i).ttyReqBuf msg (line msg.cnt.toNat keys).text t
  pending : (line msg.cnt.toNat keys).finished = false →
    (t.ttyTable i).ttyTransCnt + (t.ttyTable i).ttyLeftCnt = msg.cnt
  idle : (line msg.cnt.toNat keys).finished = true → (t.ttyTable i).ttyLeftCnt = 0
  next : (t.ttyTable i).inBuf.count ≠ 0 →
    NextKey L i (s.ttyTable i).ttyReqBuf msg.cnt.toNat msg keys t

/-! ## What a run keeps -/

theorem line_append {keys : List (BitVec 32)} {key : BitVec 32} :
    line n (keys ++ [key]) = (line n keys).type n key := by
  rw [line, List.foldl_append]
  rfl

theorem Line.type_finished {l : Line} {key : BitVec 32} (h : l.finished = true) :
    l.type n key = l := by
  rw [Line.type, if_pos h]

theorem Line.type_pending {l : Line} {key : BitVec 32} (h : l.finished = false) :
    l.type n key = ⟨typeChar l.text (keyChar key),
      decide (keyChar key = 0x0A ∨ (typeChar l.text (keyChar key)).length = n)⟩ := by
  rw [Line.type, if_neg (by rw [h]; exact Bool.false_ne_true)]

/-- The invariant of a read, with the line so far. -/
structure Kept (i : Fin nrConsoles) (la : Addr) (n : Nat) (msg : Message) (l : Line)
    (t : TtyState) : Prop where
  ring : (t.ttyTable i).inBuf.Valid ttyInBytes
  text : Holds i la msg l.text t
  le : l.text.length ≤ n
  pending : l.finished = false →
    (t.ttyTable i).ttyLeftCnt = n - l.text.length ∧ l.text.length < n
  idle : l.finished = true → (t.ttyTable i).ttyLeftCnt = 0

/-- The state after a key was put into the ring. -/
def TtyState.putKey (t : TtyState) (i : Fin nrConsoles) (key : BitVec 32) : TtyState :=
  t.setTty i fun tty => { tty with inBuf := tty.inBuf.put ttyInBytes key }

theorem putKey_ttyTable {key : BitVec 32} : (t.putKey i key).ttyTable i =
    { t.ttyTable i with inBuf := (t.ttyTable i).inBuf.put ttyInBytes key } :=
  TtyState.setTty_self

theorem Kept.putKey {l : Line} {key : BitVec 32} (h : Kept i la n msg l t) :
    Kept i la n msg l (t.putKey i key) where
  ring := by
    rw [putKey_ttyTable]
    exact h.ring.put key
  text :=
    { caller := putKey_ttyTable ▸ h.text.caller
      procnr := putKey_ttyTable ▸ h.text.procnr
      reqBuf := putKey_ttyTable ▸ h.text.reqBuf
      trans := putKey_ttyTable ▸ h.text.trans
      bytes := h.text.bytes
      inv := h.text.inv }
  le := h.le
  pending hf := putKey_ttyTable ▸ h.pending hf
  idle hf := putKey_ttyTable ▸ h.idle hf

theorem Kept.apart {l : Line} (h : Kept i la n msg l t) (ha : Apart i la n t u) :
    Kept i la n msg l u where
  ring := ha.tty ▸ h.ring
  text :=
    { caller := ha.tty ▸ h.text.caller
      procnr := ha.tty ▸ h.text.procnr
      reqBuf := ha.tty ▸ h.text.reqBuf
      trans := ha.tty ▸ h.text.trans
      bytes := fun j hj => by
        rw [ha.mem j (hj.trans_le h.le)]
        exact h.text.bytes j hj
      inv := ha.inv }
  le := h.le
  pending hf := ha.tty ▸ h.pending hf
  idle hf := ha.tty ▸ h.idle hf

theorem Kept.goto {l : Line} {pc : TtyPc} (h : Kept i la n msg l t) :
    Kept i la n msg l (t.goto pc) :=
  ⟨h.ring, ⟨h.text.caller, h.text.procnr, h.text.reqBuf, h.text.trans, h.text.bytes, h.text.inv⟩,
    h.le, h.pending, h.idle⟩

/-- When the message has been sent the terminal forgets the reader. -/
theorem Kept.resumed {l : Line} {v w : TtyState} (htext : Holds i la msg l.text t)
    (hle : l.text.length ≤ n) (hring : (t.ttyTable i).inBuf.Valid ttyInBytes)
    (hfin : l.finished = true) (hbuf : BufferApart la n) (htable : u.ttyTable = t.ttyTable)
    (hdrawn : t.screen.Drawn i u.screen) (hapart : Apart i la n u v)
    (hrest : (TtyPc.resumed i).run L v = .ok () w) :
    Kept i la n msg l w ∧ (w.ttyTable i).inBuf = (t.ttyTable i).inBuf := by
  obtain ⟨pc, -, hnext⟩ := exists_nextTty (i := i) (t := v.setTty i ({ · with ttyLeftCnt := 0 }))
  obtain rfl : (v.setTty i ({ · with ttyLeftCnt := 0 })).goto pc = w := by
    have : (TtyPc.resumed i).run L v = nextTty i (v.setTty i ({ · with ttyLeftCnt := 0 })) :=
      bind_of_ok rfl
    rw [this, hnext] at hrest
    injection hrest
  have htty : v.ttyTable i = t.ttyTable i := hapart.tty.trans (congrFun htable i)
  have hset : (v.setTty i ({ · with ttyLeftCnt := 0 })).ttyTable i =
      { t.ttyTable i with ttyLeftCnt := 0 } := by
    rw [TtyState.setTty_self, htty]
  refine ⟨Kept.goto ⟨?_, ⟨?_, ?_, ?_, ?_, fun j hj => ?_, hapart.inv⟩, hle, fun hf => ?_, fun _ => ?_⟩,
    ?_⟩
  · rw [hset]
    exact hring
  · rw [hset]
    exact htext.caller
  · rw [hset]
    exact htext.procnr
  · rw [hset]
    exact htext.reqBuf
  · rw [hset]
    exact htext.trans
  · have hj' := hj.trans_le hle
    exact (htext.bytes j hj).trans
      (congrArg some ((hapart.mem j hj').trans (hdrawn.mem _ (hbuf j hj' i))).symm)
  · rw [hfin] at hf
    exact absurd hf (by decide)
  · rw [hset]
  · have := congrArg Tty.inBuf hset
    exact this

/-- How a call of `tty_dev_write` ends. -/
theorem Kept.devWrite {l : Line} (h : Kept i la n msg l t) (hn : n < 2 ^ 31)
    (hbuf : BufferApart la n) (hcount : (t.ttyTable i).inBuf.count ≠ 0) :
    let l' := l.type n (t.nextKey i)
    ∃ u, Holds i la msg l'.text u ∧ l'.text.length ≤ n ∧ u.kernel = t.kernel ∧
      (u.ttyTable i).inBuf = (t.ttyTable i).inBuf.drop ttyInBytes ∧ WrittenIn i la n t u ∧
      if l.finished = false ∧ l'.finished = true then
        ttyDevWrite L i t = resumeReader L i msg l'.text.length u
      else (Kept i la n msg l' u ∧ ∃ pc, (∀ c, pc ≠ .resumed c) ∧
        ttyDevWrite L i t = .ok () (u.goto pc)) := by
  have hring := h.ring.drop (by have := h.ring.nonneg; omega)
  intro l'
  cases hfin : l.finished with
  | true =>
    have hl' : l' = l := Line.type_finished hfin
    obtain ⟨pc, hpc, hwrite⟩ := ttyDevWrite_idle (L := L) hcount (h.idle hfin)
    have htext := h.text.dropKey
    refine ⟨t.dropKey i, hl' ▸ htext, hl' ▸ h.le, rfl, by rw [dropKey_ttyTable], fun _ _ _ => rfl, ?_⟩
    rw [if_neg (by simp), hl']
    refine ⟨⟨?_, htext, h.le, fun hf => absurd (hfin ▸ hf) (by simp), fun _ => ?_⟩, pc, hpc, hwrite⟩
    · rw [dropKey_ttyTable]
      exact hring
    · rw [dropKey_ttyTable]
      exact h.idle hfin
  | false =>
    have hl' : l' = _ := Line.type_pending hfin
    obtain ⟨hleft, hlt⟩ := h.pending hfin
    obtain ⟨u, htext, huleft, hle, hkernel, hinBuf, hwritten, hend⟩ :=
      ttyDevWrite_pending (L := L) h.text hn hbuf hleft hlt hcount rfl
    refine ⟨u, by rw [hl']; exact htext, by rw [hl']; exact hle, hkernel, hinBuf, hwritten, ?_⟩
    simp only [hl', true_and, decide_eq_true_eq]
    split_ifs at hend ⊢ with hc
    · rw [hend, ttyResume_eq htext]
    · refine ⟨⟨hinBuf ▸ hring, htext, hle, fun _ =>
        ⟨huleft, lt_of_le_of_ne hle fun he => hc (.inr he)⟩, fun hf => ?_⟩, hend⟩
      exact absurd (of_decide_eq_true hf) hc

/-- A read begins with an empty line. -/
theorem wp_ttyDoRead_begin :
    wp (ttyDoRead L i msg) (fun _ u => u.screen = s.screen ∧ ∃ la,
        u.ttyTable i = { s.ttyTable i with
          ttyCaller := msg.source
          ttyProcnr := msg.procNr
          ttyReqBuf := la
          ttyLeftCnt := msg.cnt
          ttyTransCnt := 0 })
      (fun _ _ => True) s := by
  rw [ttyDoRead, wp_bind, setTty, wp_modify, wp_bind]
  refine wp_procAt_any (fun pid => ?_) trivial
  rw [wp_bind, ttyKernel, wp_focus]
  refine wp_trivial.mono (fun la k _ => ?_) fun _ _ _ => trivial
  rw [wp_bind, setTty, wp_modify, wp_bind, wp_setTtyMsg, wp_bind, ttySendrec, wp_bind, ttyKernel,
    wp_focus]
  refine wp_trivial.mono (fun _ k' _ => ⟨rfl, la, ?_⟩) fun _ _ _ => trivial
  simp [TtyState.setTty, TtyState.goto]

theorem kept_start (hread : ttyDoRead L i msg s = .ok () t) (hcnt : 0 < msg.cnt)
    (hring : (s.ttyTable i).inBuf.Valid ttyInBytes) (hinv : s.screen.Inv) :
    Kept i (t.ttyTable i).ttyReqBuf msg.cnt.toNat msg {} t := by
  obtain ⟨hscreen, la, htty⟩ := (wp_of_ok hread).mp wp_ttyDoRead_begin
  refine ⟨?_, ⟨?_, ?_, rfl, ?_, nofun, hscreen ▸ hinv⟩, Nat.zero_le _, fun _ => ⟨?_, ?_⟩, nofun⟩
  · rw [htty]
    exact hring
  · rw [htty]
  · rw [htty]
  · rw [htty]
    rfl
  · rw [htty]
    simp only [List.length_nil]
    omega
  · simp only [List.length_nil]
    omega

/-- A key that was consumed was the first in the ring. -/
theorem queue_drop {l keys : List (BitVec 32)} (hring : (t.ttyTable i).inBuf.Valid ttyInBytes)
    (hcount : (t.ttyTable i).inBuf.count ≠ 0)
    (hqueue : keys ++ (t.ttyTable i).inBuf.contents ttyInBytes = l)
    (hinBuf : (u.ttyTable i).inBuf = (t.ttyTable i).inBuf.drop ttyInBytes) :
    keys ++ [t.nextKey i] ++ (u.ttyTable i).inBuf.contents ttyInBytes = l := by
  have hnonneg := hring.nonneg
  rw [hinBuf, List.append_assoc, List.singleton_append, TtyState.nextKey,
    ← RingBuffer.contents_drop hring (by omega), hqueue]

/-- Every state of a read keeps the invariant, and the keys are consumed in their order. -/
theorem LineRun.kept {puts keys : List (BitVec 32)} (hrun : LineRun L i la n s puts keys t)
    (hs : Kept i la n msg {} s) (hn : n < 2 ^ 31) (hbuf : BufferApart la n) :
    Kept i la n msg (line n keys) t ∧ keys ++ (t.ttyTable i).inBuf.contents ttyInBytes =
      (s.ttyTable i).inBuf.contents ttyInBytes ++ puts := by
  induction hrun with
  | start => exact ⟨hs, (List.append_nil _).symm⟩
  | @put puts keys t u key _ hput ih =>
    obtain ⟨h, hqueue⟩ := ih
    obtain rfl : t.putKey i key = u := by injection hput
    refine ⟨h.putKey, ?_⟩
    rw [putKey_ttyTable]
    dsimp only
    split_ifs with hroom
    · rw [RingBuffer.contents_put_of_lt h.ring hroom, ← List.append_assoc, hqueue,
        List.append_assoc]
    · rw [RingBuffer.put_of_full hroom, hqueue]
  | @other puts keys t u _ hapart ih =>
    obtain ⟨h, hqueue⟩ := ih
    exact ⟨h.apart hapart, hapart.tty ▸ hqueue⟩
  | @consume puts keys t u _ hcount hwrite hpc ih =>
    obtain ⟨h, hqueue⟩ := ih
    obtain ⟨u', htext, -, -, hinBuf, -, hend⟩ := h.devWrite (L := L) hn hbuf hcount
    rw [line_append]
    split_ifs at hend with hfin
    · rw [hend] at hwrite
      exact absurd ((wp_of_ok hwrite).mp (wp_resumeReader htext)).2.2 hpc
    · obtain ⟨hkept, pc, -, hok⟩ := hend
      obtain rfl : u'.goto pc = u := by
        rw [hok] at hwrite
        injection hwrite
      exact ⟨hkept.goto, queue_drop h.ring hcount hqueue hinBuf⟩
  | @resume puts keys t u v w _ hcount hwrite hpc hapart hrest ih =>
    obtain ⟨h, hqueue⟩ := ih
    obtain ⟨u', htext, hle, -, hinBuf, -, hend⟩ := h.devWrite (L := L) hn hbuf hcount
    rw [line_append]
    split_ifs at hend with hfin
    · rw [hend] at hwrite
      obtain ⟨htable, hdrawn, -⟩ := (wp_of_ok hwrite).mp (wp_resumeReader htext)
      have hring := h.ring.drop (by have := h.ring.nonneg; omega)
      obtain ⟨hkept, hw⟩ := Kept.resumed htext hle (hinBuf ▸ hring) hfin.2 hbuf htable hdrawn hapart
        hrest
      exact ⟨hkept, queue_drop h.ring hcount hqueue (hw.trans hinBuf)⟩
    · obtain ⟨hkept, pc, hne, hok⟩ := hend
      rw [hok] at hwrite
      obtain rfl : u'.goto pc = u := by injection hwrite
      exact absurd hpc (hne i)

/-- Line input: until the line is finished the counters add up to what was asked for; the buffer always
begins with the line; and RESUME_PROC is sent at the key that finishes it. -/
theorem line_input {puts keys : List (BitVec 32)} {s₁ : TtyState}
    (hread : ttyDoRead L i msg s = .ok () s₁) (hcnt : 0 < msg.cnt) (hint : msg.cnt < 2 ^ 31)
    (hring : (s.ttyTable i).inBuf.Valid ttyInBytes) (hinv : s.screen.Inv)
    (hbuf : BufferApart (s₁.ttyTable i).ttyReqBuf msg.cnt.toNat)
    (hrun : LineRun L i (s₁.ttyTable i).ttyReqBuf msg.cnt.toNat s₁ puts keys t) :
    Delivers L i msg s₁ puts keys t := by
  have hn : msg.cnt.toNat < 2 ^ 31 := by omega
  obtain ⟨h, hqueue⟩ := hrun.kept (kept_start hread hcnt hring hinv) hn hbuf
  refine ⟨hqueue, h.text, fun hf => ?_, h.idle, fun hcount => ?_⟩
  · rw [h.text.trans, (h.pending hf).1]
    omega
  · obtain ⟨u, htext, -, hkernel, -, hwritten, hend⟩ := h.devWrite (L := L) hn hbuf hcount
    rw [← line_append] at htext hend
    refine ⟨fun hf hf' => ?_, fun hsilent => ?_, ?_⟩
    · rw [if_pos ⟨hf, hf'⟩] at hend
      exact ⟨u, hend, htext⟩
    · rw [if_neg (by rintro ⟨hf, hf'⟩; rcases hsilent with h | h <;> simp_all)] at hend
      obtain ⟨-, pc, hpc, hok⟩ := hend
      exact ⟨u.goto pc, hok, hkernel, hpc i⟩
    · split_ifs at hend
      · have hdrawn {v : TtyState} (hd : u.screen.Drawn i v.screen) : WrittenIn i _ _ t v :=
          fun a ha hne => (hd.mem a ha).trans (hwritten a ha hne)
        exact (wp_congr hend).mpr
          ((wp_resumeReader htext).mono (fun _ _ hv => hdrawn hv.2.1) fun _ _ hv => hdrawn hv)
      · obtain ⟨-, pc, -, hok⟩ := hend
        exact (wp_of_ok hok).mpr hwritten

end

/-! ## The consoles -/

/-- The consoles fit. -/
def TtyState.Fits (t : TtyState) : Prop := t.screen.Inv

section

variable {L : TtyLayout} {i : Fin nrConsoles} {ch : Byte}

theorem fits_outChar : Preserves TtyState.Fits (ttyScreen (outChar i ch)) := fun t ht =>
  wp_ttyOutChar (t := t) ht fun _ hc => hc.inv ht

theorem fits_nextTty : Preserves TtyState.Fits (nextTty i) :=
  .bind .get fun _ => .ite (.modify fun _ h => h) (by
    split
    · exact .modify fun _ h => h
    · exact .modify fun _ h => h)

theorem fits_ttyTypeChar : Preserves TtyState.Fits (ttyTypeChar i ch) :=
  .bind .get fun _ => .ite
    (.bind fits_outChar fun _ => .bind (fun _ ht => ⟨ht.fits, ht.writes⟩) fun _ => .modify fun _ h => h)
    (.onlyIf (.bind fits_outChar fun _ => .modify fun _ h => h))

theorem fits_ttyKernel {α : Type} {x : KM α} : Preserves TtyState.Fits (ttyKernel x) :=
  .focus fun _ _ h => h

theorem fits_ttySendrec {function srcDest : Int} {m : Addr} :
    Preserves TtyState.Fits (ttySendrec function srcDest m) :=
  .bind fits_ttyKernel fun _ => .pure _

theorem fits_ttyResume : Preserves TtyState.Fits (ttyResume L i) :=
  .bind fits_outChar fun _ => .bind .get fun _ => .bind fits_ttyKernel fun _ =>
    .bind fits_ttySendrec fun _ => .modify fun _ h => h

/-- A call of `tty_dev_write` keeps the consoles as `line_input` needs them. -/
theorem fits_ttyDevWrite : Preserves TtyState.Fits (ttyDevWrite L i) :=
  .bind .get fun _ => .ite fits_nextTty <| .bind (.modify fun _ h => h) fun _ =>
    .ite fits_nextTty <| .bind fits_ttyTypeChar fun _ => .bind .get fun _ =>
      .ite fits_ttyResume fits_nextTty

theorem fits_procAt {pid : Int} : Preserves TtyState.Fits (procAt pid) := by
  unfold procAt
  split
  · exact .pure _
  · exact .throw _

theorem fits_ttyDoRead {msg : Message} : Preserves TtyState.Fits (ttyDoRead L i msg) :=
  .bind (.modify fun _ h => h) fun _ => .bind fits_procAt fun _ => .bind fits_ttyKernel fun _ =>
    .bind (.modify fun _ h => h) fun _ => .bind fits_ttyKernel fun _ =>
      .bind fits_ttySendrec fun _ => .modify fun _ h => h

end

/-! ## A line of two keys -/

/-- The terminals before anything is typed. -/
def typing : TtyState := { TtyState.begin with
  screen := { TtyState.begin.screen with
    consoleTable := fun c =>
      { originalAddr := BitVec.ofNat 32 (conBase c)
        vMemLimit := 5461
        currentStartAddr := BitVec.ofNat 32 (conBase c)
        cursor := BitVec.ofNat 32 (conBase c) } } }

/-- Process 6 wants `cnt` characters at `buf`. -/
def readMessage (cnt : Int) (buf : BitVec 32) : Message :=
  { source := taskFs.val, type := MsgType.devRead, u := { m3i2 := cnt, m3i3 := 6, m3p2 := buf } }

def reading (msg : Message) : TtyState := (exec (ttyDoRead .low 0 msg) typing).1

/-- Two keys wait in the ring, the first of them an a. -/
def typed (msg : Message) (key : BitVec 32) : TtyState :=
  ((reading msg).putKey 0 0x61).putKey 0 key

/-- The a is consumed, and the kernel has delivered the answer to the request. -/
def typedA (msg : Message) (key : BitVec 32) : TtyState :=
  { (exec (ttyDevWrite .low 0) (typed msg key)).1 with kernel := typing.kernel }

/-- The key after it is consumed, and the message to the reader is sent. -/
def typedKey (msg : Message) (key : BitVec 32) : TtyState :=
  (exec (ttyDevWrite .low 0) (typedA msg key)).1

def typedLine (msg : Message) (key : BitVec 32) : TtyState :=
  (exec ((TtyPc.resumed 0).run .low) (typedKey msg key)).1

theorem typing_inv : typing.screen.Inv where
  fits c _ := by
    have hbase := conBase_le (c := c)
    refine ⟨?_, rfl, ?_, ?_, 0, ?_, by decide⟩ <;>
    · simp only [typing, BitVec.toNat_ofNat]
      omega
  writes := nofun

theorem typedA_inv {msg : Message} {key : BitVec 32} : (typedA msg key).Fits := by
  have hreading : (reading msg).Fits :=
    exec_of_wp (P := fun (t : TtyState) _ => t.Fits)
      (fits_ttyDoRead (L := .low) (i := 0) typing typing_inv)
  exact exec_of_wp (P := fun (t : TtyState) _ => t.Fits)
    (fits_ttyDevWrite (L := .low) (i := 0) (typed msg key) hreading)

/-- Both keys are consumed, the second one with a message to the reader. -/
theorem typedLine_run {msg : Message} {key : BitVec 32} {n : Nat}
    (hroom : ((reading msg).ttyTable 0).inBuf.count < ttyInBytes)
    (hroom' : (((reading msg).putKey 0 0x61).ttyTable 0).inBuf.count < ttyInBytes)
    (hcount : ((typed msg key).ttyTable 0).inBuf.count ≠ 0)
    (hfirst : (exec (ttyDevWrite .low 0) (typed msg key)).2 = none)
    (hpc : (typedA msg key).pc ≠ .resumed 0)
    (hcount' : ((typedA msg key).ttyTable 0).inBuf.count ≠ 0)
    (hsecond : (exec (ttyDevWrite .low 0) (typedA msg key)).2 = none)
    (hresumed : (typedKey msg key).pc = .resumed 0)
    (hrest : (exec ((TtyPc.resumed 0).run .low) (typedKey msg key)).2 = none)
    (hkeys : (typed msg key).nextKey 0 = 0x61 ∧ (typedA msg key).nextKey 0 = key) :
    LineRun .low 0 ((reading msg).ttyTable 0).ttyReqBuf n (reading msg) [0x61, key] [0x61, key]
      (typedLine msg key) := by
  have hstart : LineRun .low 0 ((reading msg).ttyTable 0).ttyReqBuf n (reading msg) [] []
      (reading msg) := .start
  have hputA := hstart.put (u := (reading msg).putKey 0 0x61) rfl
  rw [if_pos hroom] at hputA
  have hputs := hputA.put (u := typed msg key) rfl
  rw [if_pos hroom'] at hputs
  have htyped := hputs.consume hcount (ok_of_exec hfirst) hpc
  have hanswer := htyped.other (u := typedA msg key) ⟨rfl, fun _ _ => rfl, typedA_inv⟩
  have hinv := exec_of_wp (P := fun (t : TtyState) _ => t.Fits)
    (fits_ttyDevWrite (L := .low) (i := 0) (typedA msg key) typedA_inv)
  have hline := hanswer.resume hcount' (ok_of_exec hsecond) hresumed ⟨rfl, fun _ _ => rfl, hinv⟩
    (ok_of_exec hrest)
  rw [hkeys.1, hkeys.2] at hline
  exact hline

theorem typedLine_newline {n : Nat} : LineRun .low 0
    ((reading (readMessage 5 0x1000)).ttyTable 0).ttyReqBuf n (reading (readMessage 5 0x1000))
    [0x61, 0x0A] [0x61, 0x0A] (typedLine (readMessage 5 0x1000) 0x0A) :=
  typedLine_run (by decide +kernel) (by decide +kernel) (by decide +kernel) (by decide +kernel)
    (by decide +kernel) (by decide +kernel) (by decide +kernel) (by decide +kernel)
    (by decide +kernel) (by decide +kernel)

/-- Line input, for a reader that wants five characters and a line of one. -/
theorem line_input_newline : Delivers .low 0 (readMessage 5 0x1000) (reading (readMessage 5 0x1000))
    [0x61, 0x0A] [0x61, 0x0A] (typedLine (readMessage 5 0x1000) 0x0A) := by
  have hbuf : BufferApart ((reading (readMessage 5 0x1000)).ttyTable 0).ttyReqBuf 5 := by
    intro j hj c hcell
    have hreq : ((reading (readMessage 5 0x1000)).ttyTable 0).ttyReqBuf = 0x1000 := by
      decide +kernel
    rw [hreq, InCells, bufByte, BitVec.toNat_add, BitVec.toNat_ofNat] at hcell
    have : (0x1000 : Addr).toNat = 0x1000 := rfl
    omega
  exact line_input (s := typing) (ok_of_exec (by decide +kernel)) (by decide) (by decide)
    (RingBuffer.Valid.empty rfl rfl (by decide)) typing_inv hbuf typedLine_newline

/-- After a newline the counters do not add up to what was asked for, and a line that is drawn over
the buffer is not what the buffer begins with. -/
theorem not_line_input :
    LineRun .low 0 ((reading (readMessage 5 0x1000)).ttyTable 0).ttyReqBuf 5
      (reading (readMessage 5 0x1000)) [0x61, 0x0A] [0x61, 0x0A]
      (typedLine (readMessage 5 0x1000) 0x0A) ∧
    ((typedLine (readMessage 5 0x1000) 0x0A).ttyTable 0).ttyTransCnt +
      ((typedLine (readMessage 5 0x1000) 0x0A).ttyTable 0).ttyLeftCnt = 1 ∧
    LineRun .low 0 ((reading (readMessage 2 0xB8002)).ttyTable 0).ttyReqBuf 2
      (reading (readMessage 2 0xB8002)) [0x61, 0x62] [0x61, 0x62]
      (typedLine (readMessage 2 0xB8002) 0x62) ∧
    (line 2 [0x61, 0x62]).text = [0x61, 0x62] ∧
    (typedLine (readMessage 2 0xB8002) 0x62).screen.mem
      (bufByte ((reading (readMessage 2 0xB8002)).ttyTable 0).ttyReqBuf 0) = 0x62 :=
  ⟨typedLine_newline, by decide +kernel,
    typedLine_run (by decide +kernel) (by decide +kernel) (by decide +kernel) (by decide +kernel)
      (by decide +kernel) (by decide +kernel) (by decide +kernel) (by decide +kernel)
      (by decide +kernel) (by decide +kernel), by decide +kernel, by decide +kernel⟩

end Dlos
