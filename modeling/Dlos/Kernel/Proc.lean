import Dlos.Library.Program
import Dlos.Library.Linked
import Dlos.Kernel.Protect

/-!
# Processes and message passing (`proc.c`)

The process table and the functions on it. The kernel's state is passed explicitly; a failed
`assert` and a `panic` stop the machine (`Halt`). Memory is seen through the messages in it: an
address holds a whole `Message`. Loops run on fuel and end in `Halt.diverge` when it is used up;
the fuel given is never used up by a loop that ends.
-/

namespace Dlos

/-- Why the machine stops. -/
inductive Halt
  /-- `assertion_failure`, with the text of the expression. -/
  | assertion (exp : String)
  | panic (text : String)
  /-- An index outside its table. -/
  | wildIndex
  /-- A loop that never ends. -/
  | diverge
  deriving DecidableEq, Repr

/-- `struct proc`, without what only the context switch and the file system use. -/
structure Proc where
  ldts : Fin 2 → Descriptor := fun _ => {}
  ticks : Int := 0
  priority : Int := 0
  name : String := ""
  pFlags : BitVec 32 := 0
  pMsg : Addr := 0
  pRecvfrom : Int := 0
  pSendto : Int := 0
  hasIntMsg : Int := 0
  qSending : Option Pid := none
  nextSending : Option Pid := none
  pParent : Int := 0

/-- A record of a message put into a buffer: by `phys_copy` from another process, or by the
kernel itself with `source` `INTERRUPT`. No function reads these records. -/
structure Copy where
  receiver : Pid
  buf : Addr
  source : Int
  content : Message
  deriving DecidableEq, Repr

structure Kernel where
  procTable : Pid → Proc
  pProcReady : Pid
  ticks : Int
  keyPressed : Int
  kReenter : Int
  msgs : Addr → Message
  copies : List Copy

abbrev KM := EStateM Halt Kernel

open Program

namespace Kernel

def setProc (k : Kernel) (p : Pid) (f : Proc → Proc) : Kernel :=
  { k with procTable := Function.update k.procTable p (f (k.procTable p)) }

def setMsg (k : Kernel) (la : Addr) (m : Message) : Kernel :=
  { k with msgs := Function.update k.msgs la m }

/-- Put a message into a buffer and record it. -/
def put (k : Kernel) (c : Copy) : Kernel :=
  { k.setMsg c.buf c.content with copies := c :: k.copies }

end Kernel

def setProc (p : Pid) (f : Proc → Proc) : KM Unit := modify (·.setProc p f)

def assert {σ : Type} (exp : String) (c : Prop) [Decidable c] : EStateM Halt σ Unit :=
  ensure c (.assertion exp)

section

variable {σ : Type} {Q : Unit → σ → Prop} {E : Halt → σ → Prop} {s : σ} {exp : String} {c : Prop}
  [Decidable c]

theorem wp_assert : wp (assert exp c) Q E s ↔ (c → Q () s) ∧ (¬c → E (.assertion exp) s) :=
  wp_ensure

/-- An assertion that holds does nothing. -/
theorem wp_assert_of (h : c) : wp (assert exp c) Q E s ↔ Q () s := by
  simp [wp_assert, h]

end

/-- The process with a table index. -/
def pidOf (i : Int) : Option Pid :=
  if h : 0 ≤ i ∧ i < (nrTasks + nrProcs : Nat) then some ⟨i.toNat, toNat_lt h⟩ else none

@[simp] theorem pidOf_val {p : Pid} : pidOf (p.val : Int) = some p := by
  have hp : (0 : Int) ≤ p.val ∧ (p.val : Int) < (nrTasks + nrProcs : Nat) := by omega
  rw [pidOf, dif_pos hp]
  rfl

/-- `proc_table + i`, where `i` comes from outside or from a field. -/
def procAt {σ : Type} (i : Int) : EStateM Halt σ Pid :=
  match pidOf i with
  | some p => pure p
  | none => throw .wildIndex

/-! ## The scheduler -/

/-- One pass over the table: the runnable process with the most ticks, the first one if several
have as many. -/
def mostTicks (table : Pid → Proc) : Int × Option Pid :=
  (List.finRange (nrTasks + nrProcs)).foldl
    (fun best p =>
      if (table p).pFlags = 0 ∧ (table p).ticks > best.1 then ((table p).ticks, some p) else best)
    (0, none)

/-- Give the runnable processes their priority as ticks. -/
def refill (table : Pid → Proc) : Pid → Proc := fun p =>
  if (table p).pFlags = 0 then { table p with ticks := (table p).priority } else table p

/-- The rounds of `schedule`'s loop. -/
def scheduleLoop : Nat → KM Unit
  | 0 => throw .diverge
  | fuel + 1 => do
    let k ← get
    match mostTicks k.procTable with
    | (_, some p) => modify fun k => { k with pProcReady := p }
    | (_, none) => do
      modify fun k => { k with procTable := refill k.procTable }
      scheduleLoop fuel

/-- A refilled table is not changed by a refill: two rounds decide. -/
def schedule : KM Unit := scheduleLoop 2

/-! ## Addresses -/

def ldtSegLinear (p : Proc) (idx : Fin 2) : BitVec 32 := (p.ldts idx).base

/-- The body of `va2la`, over any state that has a process table. -/
def linear {σ : Type} (table : Pid → Proc) (pid : Pid) (va : Addr) : EStateM Halt σ Addr := do
  let la := ldtSegLinear (table pid) indexLdtRw + va
  onlyIf (pid.val < nrTasks + nrNativeProcs) (assert "la == (u32)va" (la = va))
  pure la

/-- The address of a process that is not native, or whose segment starts at 0. -/
theorem wp_linear_of {σ : Type} {table : Pid → Proc} {pid : Pid} {va : Addr} {Q : Addr → σ → Prop}
    {E : Halt → σ → Prop} {s : σ}
    (h : ldtSegLinear (table pid) indexLdtRw = 0 ∨ nrTasks + nrNativeProcs ≤ pid.val) :
    wp (linear table pid va) Q E s ↔ Q (ldtSegLinear (table pid) indexLdtRw + va) s := by
  have hnative : pid.val < nrTasks + nrNativeProcs →
      ldtSegLinear (table pid) indexLdtRw + va = va := fun hpid => by
    rw [h.resolve_right (by omega)]
    exact BitVec.zero_add va
  rw [linear, wp_bind, wp_onlyIf]
  refine ⟨fun hw => ?_, fun hQ => ⟨fun hpid => ?_, fun _ => hQ⟩⟩
  · by_cases hpid : pid.val < nrTasks + nrNativeProcs
    · have := hw.1 hpid
      rwa [wp_assert_of (hnative hpid)] at this
    · exact hw.2 hpid
  · rwa [wp_assert_of (hnative hpid)]

def va2la (pid : Pid) (va : Addr) : KM Addr := do
  let k ← get
  linear k.procTable pid va

/-- `phys_copy` of a whole message, from the linear address `src` of a message of `source`. -/
def copyMessage (receiver : Pid) (dst : Addr) (source : Int) (src : Addr) : KM Unit :=
  modify fun k => k.put ⟨receiver, dst, source, k.msgs src⟩

/-! ## Blocking -/

def block (p : Pid) : KM Unit := do
  let k ← get
  assert "p->p_flags" ((k.procTable p).pFlags ≠ 0)
  schedule

def unblock (p : Pid) : KM Unit := do
  let k ← get
  assert "p->p_flags == 0" ((k.procTable p).pFlags = 0)

def Proc.isSending (p : Proc) : Prop := p.pFlags &&& sending ≠ 0
def Proc.isReceiving (p : Proc) : Prop := p.pFlags &&& receiving ≠ 0

instance (p : Proc) : Decidable p.isSending := inferInstanceAs (Decidable (_ ≠ _))
instance (p : Proc) : Decidable p.isReceiving := inferInstanceAs (Decidable (_ ≠ _))

/-! ## Deadlock detection -/

/-- No walk over the table visits more processes than it has. -/
abbrev tableSize : Nat := nrTasks + nrProcs

/-- The walk that prints the cycle from `p` to `src`. -/
def printPath (src : Pid) : Nat → Pid → KM Unit
  | 0, _ => throw .diverge
  | fuel + 1, p => do
    let k ← get
    assert "p->p_msg" ((k.procTable p).pMsg ≠ 0)
    let q ← procAt (k.procTable p).pSendto
    if q ≠ src then printPath src fuel q else pure ()

/-- The `while (1)` of `deadlock`. -/
def deadlockLoop (src dest : Pid) : Nat → Pid → KM Int
  | 0, _ => throw .diverge
  | fuel + 1, p => do
    let k ← get
    if (k.procTable p).isSending then
      if (k.procTable p).pSendto = (src.val : Int) then do
        printPath src tableSize dest
        pure 1
      else do
        let q ← procAt (k.procTable p).pSendto
        deadlockLoop src dest fuel q
    else pure 0

def deadlock (src dest : Pid) : KM Int := deadlockLoop src dest tableSize dest

/-! ## Sending -/

/-- The end of a queue: `while (p->next_sending) p = p->next_sending`. -/
def queueEnd (p : Pid) : KM Pid := do
  let k ← get
  match Linked.last (fun q => (k.procTable q).nextSending) tableSize p with
  | some q => pure q
  | none => throw .diverge

/-- The closing assertions of a delivery: both processes are runnable and wait for nothing. -/
def assertReleased (p : Pid) (flags msg recvfrom sendto : String) : KM Unit := do
  let k ← get
  assert flags ((k.procTable p).pFlags = 0)
  assert msg ((k.procTable p).pMsg = 0)
  assert recvfrom ((k.procTable p).pRecvfrom = noTask)
  assert sendto ((k.procTable p).pSendto = noTask)

/-- `msg_send` to a process that waits for this message. -/
def deliver (sender dest : Pid) (m : Addr) : KM Unit := do
  let k ← get
  assert "p_dest->p_msg" ((k.procTable dest).pMsg ≠ 0)
  assert "m" (m ≠ 0)
  let dst ← va2la dest (k.procTable dest).pMsg
  let src ← va2la sender m
  copyMessage dest dst sender.val src
  setProc dest ({ · with pMsg := 0 })
  setProc dest fun p => { p with pFlags := p.pFlags &&& ~~~receiving }
  setProc dest ({ · with pRecvfrom := noTask })
  unblock dest
  assertReleased dest "p_dest->p_flags == 0" "p_dest->p_msg == 0"
    "p_dest->p_recvfrom == NO_TASK" "p_dest->p_sendto == NO_TASK"
  assertReleased sender "sender->p_flags == 0" "sender->p_msg == 0"
    "sender->p_recvfrom == NO_TASK" "sender->p_sendto == NO_TASK"

/-- Append the sender to the queue of `dest`. -/
def enqueue (sender dest : Pid) : KM Unit := do
  let k ← get
  match (k.procTable dest).qSending with
  | some head => do
    let p ← queueEnd head
    setProc p ({ · with nextSending := some sender })
  | none => setProc dest ({ · with qSending := some sender })
  setProc sender ({ · with nextSending := none })

/-- `msg_send` to a process that does not wait for this message. -/
def awaitReceiver (sender dest : Pid) (m : Addr) : KM Unit := do
  setProc sender fun p => { p with pFlags := p.pFlags ||| sending }
  let k ← get
  assert "sender->p_flags == SENDING" ((k.procTable sender).pFlags = sending)
  setProc sender ({ · with pSendto := dest.val })
  setProc sender ({ · with pMsg := m })
  enqueue sender dest
  block sender
  let k ← get
  assert "sender->p_flags == SENDING" ((k.procTable sender).pFlags = sending)
  assert "sender->p_msg != 0" ((k.procTable sender).pMsg ≠ 0)
  assert "sender->p_recvfrom == NO_TASK" ((k.procTable sender).pRecvfrom = noTask)
  assert "sender->p_sendto == dest" ((k.procTable sender).pSendto = dest.val)

def msgSend (current : Pid) (dest : Int) (m : Addr) : KM Int := do
  let pDest ← procAt dest
  assert "proc2pid(sender) != dest" ((current.val : Int) ≠ dest)
  let cycle ← deadlock current pDest
  let k ← get
  onlyIf (cycle ≠ 0) (throw (.panic
    (">>DEADLOCK<< " ++ (k.procTable current).name ++ "->" ++ (k.procTable pDest).name)))
  if (k.procTable pDest).isReceiving ∧
      ((k.procTable pDest).pRecvfrom = current.val ∨ (k.procTable pDest).pRecvfrom = anyTask) then do
    deliver current pDest m
    pure 0
  else do
    awaitReceiver current pDest m
    pure 0

/-! ## Receiving -/

/-- The message that stands for an interrupt. -/
def hardIntMessage : Message := { source := interrupt, type := MsgType.hardInt }

/-- `msg_receive` of a pending interrupt. -/
def takeInterrupt (p : Pid) (m : Addr) : KM Unit := do
  assert "m" (m ≠ 0)
  let dst ← va2la p m
  modify fun k => k.put ⟨p, dst, interrupt, hardIntMessage⟩
  setProc p ({ · with hasIntMsg := 0 })
  let k ← get
  assert "p_who_wanna_recv->p_flags == 0" ((k.procTable p).pFlags = 0)
  assert "p_who_wanna_recv->p_msg == 0" ((k.procTable p).pMsg = 0)
  assert "p_who_wanna_recv->p_sendto == NO_TASK" ((k.procTable p).pSendto = noTask)
  assert "p_who_wanna_recv->has_int_msg == 0" ((k.procTable p).hasIntMsg = 0)

/-- The assertions made once the sender is known. -/
def assertMatch (who from_ : Pid) : KM Unit := do
  let k ← get
  assert "p_who_wanna_recv->p_flags == 0" ((k.procTable who).pFlags = 0)
  assert "p_who_wanna_recv->p_msg == 0" ((k.procTable who).pMsg = 0)
  assert "p_who_wanna_recv->p_recvfrom == NO_TASK" ((k.procTable who).pRecvfrom = noTask)
  assert "p_who_wanna_recv->p_sendto == NO_TASK" ((k.procTable who).pSendto = noTask)
  assert "p_who_wanna_recv->q_sending != 0" ((k.procTable who).qSending ≠ none)
  assert "p_from->p_flags == SENDING" ((k.procTable from_).pFlags = sending)
  assert "p_from->p_msg != 0" ((k.procTable from_).pMsg ≠ 0)
  assert "p_from->p_recvfrom == NO_TASK" ((k.procTable from_).pRecvfrom = noTask)
  assert "p_from->p_sendto == proc2pid(p_who_wanna_recv)" ((k.procTable from_).pSendto = who.val)

/-- Unlink the sender, whose predecessor in the queue is `prev`. -/
def unlink (who from_ : Pid) (prev : Option Pid) : KM Unit := do
  let k ← get
  if (k.procTable who).qSending = some from_ then do
    assert "prev == 0" (prev = none)
    setProc who ({ · with qSending := (k.procTable from_).nextSending })
    setProc from_ ({ · with nextSending := none })
  else match prev with
    | none => throw (.assertion "prev")
    | some q => do
      setProc q ({ · with nextSending := (k.procTable from_).nextSending })
      setProc from_ ({ · with nextSending := none })

/-- Take the sender out of the queue and copy its message. -/
def takeFrom (who from_ : Pid) (prev : Option Pid) (m : Addr) : KM Unit := do
  unlink who from_ prev
  assert "m" (m ≠ 0)
  let k ← get
  assert "p_from->p_msg" ((k.procTable from_).pMsg ≠ 0)
  let dst ← va2la who m
  let src ← va2la from_ (k.procTable from_).pMsg
  copyMessage who dst from_.val src
  setProc from_ ({ · with pMsg := 0 })
  setProc from_ ({ · with pSendto := noTask })
  setProc from_ fun p => { p with pFlags := p.pFlags &&& ~~~sending }
  unblock from_

/-- `msg_receive` with no message to take. -/
def awaitSender (who : Pid) (src : Int) (m : Addr) : KM Unit := do
  setProc who fun p => { p with pFlags := p.pFlags ||| receiving }
  setProc who ({ · with pMsg := m })
  setProc who ({ · with pRecvfrom := src })
  block who
  let k ← get
  assert "p_who_wanna_recv->p_flags == RECEIVING" ((k.procTable who).pFlags = receiving)
  assert "p_who_wanna_recv->p_msg != 0" ((k.procTable who).pMsg ≠ 0)
  assert "p_who_wanna_recv->p_recvfrom != NO_TASK" ((k.procTable who).pRecvfrom ≠ noTask)
  assert "p_who_wanna_recv->p_sendto == NO_TASK" ((k.procTable who).pSendto = noTask)
  assert "p_who_wanna_recv->has_int_msg == 0" ((k.procTable who).hasIntMsg = 0)

/-- The sender to take a message from, with its predecessor in the queue. -/
def findSender (who : Pid) (src : Int) : KM (Option (Pid × Option Pid)) := do
  let k ← get
  if src = anyTask then
    match (k.procTable who).qSending with
    | some from_ => do
      assertMatch who from_
      pure (some (from_, none))
    | none => pure none
  else if 0 ≤ src ∧ src < (nrTasks + nrProcs : Nat) then do
    let from_ ← procAt src
    if (k.procTable from_).isSending ∧ (k.procTable from_).pSendto = who.val then do
      assert "p" ((k.procTable who).qSending ≠ none)
      match Linked.seek (fun q => (k.procTable q).nextSending) from_ (tableSize + 1) none
          (k.procTable who).qSending with
      | some prev => do
        assertMatch who from_
        pure (some (from_, prev))
      | none => throw .diverge
    else pure none
  else pure none

def msgReceive (current : Pid) (src : Int) (m : Addr) : KM Int := do
  let k ← get
  assert "proc2pid(p_who_wanna_recv) != src" ((current.val : Int) ≠ src)
  if (k.procTable current).hasIntMsg ≠ 0 ∧ (src = anyTask ∨ src = interrupt) then do
    takeInterrupt current m
    pure 0
  else do
    match ← findSender current src with
    | some (from_, prev) => takeFrom current from_ prev m
    | none => awaitSender current src m
    pure 0

/-! ## The system call and the interrupt -/

def sysSendrec (function srcDest : Int) (m : Addr) (p : Pid) : KM Int := do
  let k ← get
  assert "k_reenter == 0" (k.kReenter = 0)
  assert ("(src_dest >= 0 && src_dest < NR_TASKS + NR_PROCS) || " ++
      "src_dest == ANY || src_dest == INTERRUPT")
    ((0 ≤ srcDest ∧ srcDest < (nrTasks + nrProcs : Nat)) ∨ srcDest = anyTask ∨ srcDest = interrupt)
  let mla ← va2la p m
  modify fun k => k.setMsg mla { k.msgs mla with source := p.val }
  assert "mla->source != src_dest" ((p.val : Int) ≠ srcDest)
  if function = send then msgSend p srcDest m
  else if function = receive then msgReceive p srcDest m
  else throw (.panic ("\x7bsys_sendrec\x7d invalid function: " ++ toString function ++ " (SEND:" ++
    toString send ++ ", RECEIVE:" ++ toString receive ++ ")."))

/-- The address in `p_msg` is used untranslated. -/
def informInt (taskNr : Pid) : KM Unit := do
  let k ← get
  if (k.procTable taskNr).isReceiving ∧ ((k.procTable taskNr).pRecvfrom = interrupt ∨
      (k.procTable taskNr).pRecvfrom = anyTask) then do
    let buf := (k.procTable taskNr).pMsg
    let msg := { k.msgs buf with source := interrupt, type := MsgType.hardInt }
    modify fun k => k.put ⟨taskNr, buf, interrupt, msg⟩
    setProc taskNr ({ · with pMsg := 0 })
    setProc taskNr ({ · with hasIntMsg := 0 })
    setProc taskNr fun p => { p with pFlags := p.pFlags &&& ~~~receiving }
    setProc taskNr ({ · with pRecvfrom := noTask })
    let k ← get
    assert "p->p_flags == 0" ((k.procTable taskNr).pFlags = 0)
    unblock taskNr
    assertReleased taskNr "p->p_flags == 0" "p->p_msg == 0" "p->p_recvfrom == NO_TASK"
      "p->p_sendto == NO_TASK"
  else setProc taskNr ({ · with hasIntMsg := 1 })

end Dlos
