import Dlos.Include.Mm
import Dlos.Kernel.History
import Dlos.Library.Bytes

/-!
# The memory manager (`mm/main.c`, `mm/forkexit.c`)

`task_mm` as a program with a place: between two of its steps the clock may take the processor
away from it, and other processes and interrupts may change the process table. A step is one
system call or one stretch of `do_fork` on one table entry; `phys_copy` copies one byte a step.
-/

namespace Dlos

open Program Bytes

/-- Where MM's messages are: `mm_msg`, and on its stack `msg2fs` and `m`. -/
structure MmLayout where
  mmMsg : Addr
  msg2fs : Addr
  m : Addr
  mmMsg_ne_zero : mmMsg ≠ 0
  msg2fs_ne_zero : msg2fs ≠ 0
  m_ne_zero : m ≠ 0

/-- A slot of the table behind the native processes. -/
abbrev Child := { p : Pid // nrTasks + nrNativeProcs ≤ p.val }

/-- The places in `do_fork`, before each of its steps. -/
inductive ForkPc
  | search
  | copyEntry (child : Child)
  | nameEntry (child : Child) (pid : Pid)
  | allocMem (child : Child) (pid : Pid)
  /-- `phys_copy` has copied `done` of `size` bytes. -/
  | copyImage (child : Child) (pid : Pid) (childBase callerBase : BitVec 32) (done size : Nat)
  | initCode (child : Child) (pid : Pid) (childBase : BitVec 32)
  | initData (child : Child) (pid : Pid) (childBase : BitVec 32)
  | sendFs (child : Child)
  | receiveFs (child : Child)
  | resume (child : Child)
  deriving DecidableEq

/-- The places in `task_mm`. -/
inductive MmPc
  | receive
  | dispatch
  | fork (src : Int) (pc : ForkPc)
  | reply (src retval : Int)
  deriving DecidableEq

/-- A record of a byte that `phys_copy` copied for a child. No function reads these records. -/
structure Moved where
  child : Child
  dst : BitVec 32
  src : BitVec 32
  deriving DecidableEq

structure MmState where
  kernel : Kernel
  memory : Store
  memorySize : Int
  pc : MmPc
  moved : List Moved

abbrev MM := EStateM Halt MmState

/-- A step of the kernel. -/
def onKernel {α : Type} (x : KM α) : MM α := fun s =>
  match x s.kernel with
  | .ok a k => .ok a { s with kernel := k }
  | .error e k => .error e { s with kernel := k }

theorem wp_onKernel {α : Type} {x : KM α} {Q : α → MmState → Prop} {E : Halt → MmState → Prop}
    {s : MmState} : wp (onKernel x) Q E s ↔
      wp x (fun a k => Q a { s with kernel := k }) (fun e k => E e { s with kernel := k })
        s.kernel := by
  unfold wp onKernel
  cases x s.kernel <;> rfl

def MmState.goto (s : MmState) (pc : MmPc) : MmState := { s with pc := pc }

def goto (pc : MmPc) : MM Unit := modify (·.goto pc)

/-! ## The child's name -/

/-- What lies behind `name` in `struct proc`: `p_flags` and `p_msg`. -/
def Proc.behindName (p : Proc) : Store := putWords (fun _ => 0) 0 [p.pFlags, p.pMsg]

/-- The string that starts at `p->name`; `none` when it goes on behind `p_msg`. -/
def Proc.nameString (p : Proc) : Option String :=
  if p.name.length < nameSize then some p.name
  else
    let rest := (bytes p.behindName 0 8).takeWhile (· ≠ 0)
    if rest.length < 8 then some (p.name ++ String.ofList (rest.map fun b => Char.ofNat b.toNat))
    else none

/-- Write a string to `p->name`. What does not fit goes over the fields behind it; `none` when it
reaches further than `p_msg`. -/
def Proc.printName (p : Proc) (text : String) : Option Proc :=
  if text.length < nameSize then some { p with name := text }
  else
    let rest := (text.toList.drop nameSize).map (fun c => BitVec.ofNat 8 c.toNat) ++ [0]
    if rest.length ≤ 8 then
      let behind := putBytes p.behindName 0 rest
      some { p with
        name := String.ofList (text.toList.take nameSize)
        pFlags := word behind 0
        pMsg := word behind 4 }
    else none

/-- `sprintf(p->name, "%s_%d", proc_table[pid].name, child_pid)` -/
def childName (name : String) (child : Child) : String := name ++ "_" ++ toString child.1.val

/-! ## The caller's image -/

/-- `reassembly(ppd->base_high, 24, ppd->base_mid, 16, ppd->base_low)` -/
def Descriptor.reassembleBase (d : Descriptor) : BitVec 32 :=
  (d.baseHigh.zeroExtend 32 <<< 24) + (d.baseMid.zeroExtend 32 <<< 16) + d.baseLow.zeroExtend 32

/-- `reassembly(0, 0, ppd->limit_high_attr2 & 0xF, 16, ppd->limit_low)`, where the macro shifts
`0xF` and not the masked field. -/
def Descriptor.reassembleLimit (d : Descriptor) : BitVec 32 :=
  (0 <<< 0) + (d.limitHighAttr2.zeroExtend 32 &&& 0xF <<< 16) + d.limitLow.zeroExtend 32

/-- `(ppd->limit_high_attr2 & (DA_LIMIT_4K >> 8)) ? 4096 : 1` -/
def Descriptor.granularity (d : Descriptor) : Nat :=
  if d.limitHighAttr2 &&& 0x80 ≠ 0 then 4096 else 1

def Descriptor.reassembleSize (limit : BitVec 32) (d : Descriptor) : Nat :=
  (limit.toNat + 1) * d.granularity

/-- `PROCS_BASE + (pid - (NR_TASKS + NR_NATIVE_PROCS)) * PROC_IMAGE_SIZE_DEFAULT` -/
def childBase (pid : Pid) : Nat :=
  procsBase + (pid.val - (nrTasks + nrNativeProcs)) * procImageSizeDefault

def allocMem (pid : Pid) (memsize : Nat) : MM (BitVec 32) := do
  assert "pid >= (NR_TASKS + NR_NATIVE_PROCS)" (pid.val ≥ nrTasks + nrNativeProcs)
  onlyIf (memsize > procImageSizeDefault) (throw (.panic ("unsupported memory request: " ++
    toString memsize ++ ". (should be less than " ++ toString procImageSizeDefault ++ ")")))
  let s ← get
  onlyIf ((childBase pid + memsize : Nat) ≥ s.memorySize)
    (throw (.panic ("memory allocation failed. pid:" ++ toString pid.val)))
  pure (BitVec.ofNat 32 (childBase pid))

/-- One round of the loop of `phys_copy`. -/
def MmState.copyByte (s : MmState) (child : Child) (dst src : BitVec 32) : MmState :=
  { s with
    memory := Function.update s.memory dst.toNat (s.memory src.toNat)
    moved := ⟨child, dst, src⟩ :: s.moved }

/-- The attributes of the segments of a child. -/
def userSegment (type : BitVec 16) : BitVec 16 := da32 ||| daLimit4k ||| type ||| privilegeUser <<< 5

/-- `init_descriptor(&p->ldts[idx], child_base, …)` -/
def initSegment (child : Child) (idx : Fin 2) (base : BitVec 32) : MM Unit :=
  onKernel (setProc child.1 fun p => { p with
    ldts := Function.update p.ldts idx (initDescriptor base
      (BitVec.ofNat 32 ((procImageSizeDefault - 1) >>> limit4kShift))
      (userSegment (if idx = indexLdtC then daC else daDrw))) })

/-! ## `do_fork` -/

/-- MM's own system calls. -/
def mmSendrec (function srcDest : Int) (m : Addr) : MM Unit := do
  let _ ← onKernel (sysSendrec function srcDest m taskMm)

/-- Set fields of a message in memory. -/
def setFields (la : Addr) (f : Message → Message) : MM Unit :=
  onKernel (modify fun k => k.setMsg la (f (k.msgs la)))

/-- The first free slot. -/
def freeEntry (table : Pid → Proc) : Option Pid :=
  (List.finRange (nrTasks + nrProcs)).find? fun p => (table p).pFlags = freeSlot

def ForkPc.run (L : MmLayout) (src : Int) : ForkPc → MM Unit
  | search => do
    let s ← get
    match freeEntry s.kernel.procTable with
    | none => goto (.reply src (-1))
    | some child =>
      if h : nrTasks + nrNativeProcs ≤ child.val then goto (.fork src (.copyEntry ⟨child, h⟩))
      else throw (.assertion "child_pid >= NR_TASKS + NR_NATIVE_PROCS")
  | copyEntry child => do
    let s ← get
    let pid ← procAt (s.kernel.msgs L.mmMsg).source
    onKernel (setProc child.1 fun _ => s.kernel.procTable pid)
    goto (.fork src (.nameEntry child pid))
  | nameEntry child pid => do
    onKernel (setProc child.1 ({ · with pParent := pid.val }))
    let s ← get
    match (s.kernel.procTable pid).nameString.bind fun name =>
        (s.kernel.procTable child.1).printName (childName name child) with
    | none => throw .wildIndex
    | some entry => do
      onKernel (setProc child.1 fun _ => entry)
      goto (.fork src (.allocMem child pid))
  | allocMem child pid => do
    let s ← get
    let code := (s.kernel.procTable pid).ldts indexLdtC
    let data := (s.kernel.procTable pid).ldts indexLdtRw
    let limit := code.reassembleLimit
    let size := code.reassembleSize limit
    assert ("(caller_T_base == caller_D_S_base) && (caller_T_limit == caller_D_S_limit) && " ++
        "(caller_T_size == caller_D_S_size)")
      (code.reassembleBase = data.reassembleBase ∧ limit = data.reassembleLimit ∧
        size = data.reassembleSize limit)
    let childBase ← Dlos.allocMem child.1 size
    goto (.fork src (.copyImage child pid childBase code.reassembleBase 0 size))
  | copyImage child pid childBase callerBase done size => do
    if done = size then goto (.fork src (.initCode child pid childBase))
    else do
      modify (·.copyByte child (childBase + BitVec.ofNat 32 done) (callerBase + BitVec.ofNat 32 done))
      goto (.fork src (.copyImage child pid childBase callerBase (done + 1) size))
  | initCode child pid childBase => do
    initSegment child indexLdtC childBase
    goto (.fork src (.initData child pid childBase))
  | initData child _ childBase => do
    initSegment child indexLdtRw childBase
    goto (.fork src (.sendFs child))
  | sendFs child => do
    setFields L.msg2fs fun m => { m with type := MsgType.fork, u := { m.u with m3i2 := child.1.val } }
    mmSendrec send taskFs.val L.msg2fs
    goto (.fork src (.receiveFs child))
  | receiveFs child => do
    mmSendrec receive taskFs.val L.msg2fs
    goto (.fork src (.resume child))
  | resume child => do
    setFields L.mmMsg fun m => { m with u := { m.u with m3i2 := child.1.val } }
    setFields L.m fun m =>
      { m with type := MsgType.syscallRet, u := { m.u with m3i1 := 0, m3i2 := 0 } }
    mmSendrec send child.1.val L.m
    goto (.reply src 0)

/-! ## `task_mm` -/

def MmPc.run (L : MmLayout) : MmPc → MM Unit
  | receive => do
    setFields L.mmMsg fun _ => {}
    mmSendrec Dlos.receive anyTask L.mmMsg
    goto .dispatch
  | dispatch => do
    let s ← get
    let msg := s.kernel.msgs L.mmMsg
    assert "0" (msg.type = MsgType.fork)
    goto (.fork msg.source .search)
  | fork src pc => pc.run L src
  | reply src retval => do
    setFields L.mmMsg fun m => { m with u := { m.u with m3i1 := retval } }
    setFields L.mmMsg fun m => { m with type := MsgType.syscallRet }
    mmSendrec send src L.mmMsg
    goto .receive

/-- The slot that MM is about to fill. -/
def MmPc.slot : MmPc → Option Child
  | fork _ (.copyEntry child) => some child
  | _ => none

/-! ## What the steps do -/

section

variable {s : MmState} {child : Child} {pid : Pid} {Q : Unit → MmState → Prop}
  {E : Halt → MmState → Prop}

theorem wp_setFields {la : Addr} {f : Message → Message} : wp (setFields la f) Q E s ↔
      Q () { s with kernel := s.kernel.setMsg la (f (s.kernel.msgs la)) } := by
  rw [setFields, wp_onKernel, wp_modify]

theorem wp_goto {pc : MmPc} : wp (goto pc) Q E s ↔ Q () (s.goto pc) := Iff.rfl

/-- A name that fits changes nothing but the name. -/
theorem Proc.printName_eq {entry : Proc} {text : String} (h : text.length < nameSize) :
    entry.printName text = some { entry with name := text } := if_pos h

/-- A name that is short enough for the child's name to fit is read as it is. -/
theorem Proc.nameString_eq {parent : Proc} (h : (childName parent.name child).length < nameSize) :
    parent.nameString = some parent.name := by
  refine if_pos (Nat.lt_of_le_of_lt ?_ h)
  simp only [childName, String.length_append]
  omega

theorem wp_allocMem {pid : Pid} {memsize : Nat} {Q : BitVec 32 → MmState → Prop}
    {E : Halt → MmState → Prop} (herr : ∀ e, E e s)
    (hok : nrTasks + nrNativeProcs ≤ pid.val → memsize ≤ procImageSizeDefault →
      (childBase pid + memsize : Nat) < s.memorySize → Q (BitVec.ofNat 32 (childBase pid)) s) :
    wp (Dlos.allocMem pid memsize) Q E s := by
  simp only [Dlos.allocMem, wp_bind, wp_assert, wp_onlyIf, wp_throw, wp_get, wp_pure]
  refine ⟨fun hpid => ⟨fun _ => herr _, fun hsize => ⟨fun _ => herr _, fun hmem => ?_⟩⟩,
    fun _ => herr _⟩
  exact hok hpid (Nat.not_lt.mp hsize) (not_le.mp hmem)

theorem wp_initSegment {Q : Unit → MmState → Prop} {E : Halt → MmState → Prop} {idx : Fin 2}
    {base : BitVec 32} : wp (initSegment child idx base) Q E s ↔
      Q () { s with kernel := s.kernel.setProc child.1 fun p => { p with
        ldts := Function.update p.ldts idx (initDescriptor base
          (BitVec.ofNat 32 ((procImageSizeDefault - 1) >>> limit4kShift))
          (userSegment (if idx = indexLdtC then daC else daDrw))) } } := by
  rw [initSegment, wp_onKernel, wp_setProc]

/-- The child's entry is named. -/
theorem wp_nameEntry {L : MmLayout} {src : Int}
    (hfits : (childName (s.kernel.procTable pid).name child).length < nameSize)
    (hQ : Q () ({ s with kernel := s.kernel.setProc child.1 fun p => { p with
      pParent := pid.val
      name := childName (s.kernel.procTable pid).name child } }.goto
        (.fork src (.allocMem child pid)))) :
    wp ((ForkPc.nameEntry child pid).run L src) Q E s := by
  have hname : ((s.kernel.setProc child.1 ({ · with pParent := pid.val })).procTable pid).name =
      (s.kernel.procTable pid).name := by
    by_cases hp : pid = child.1
    · subst hp; simp
    · simp [hp]
  have hfits' := hname ▸ hfits
  rw [ForkPc.run, wp_bind, wp_onKernel, wp_setProc, wp_bind, wp_get]
  simp only [Proc.nameString_eq hfits', Option.bind_some, Proc.printName_eq hfits']
  rw [wp_bind, wp_onKernel, wp_setProc, wp_goto, hname]
  simp only [Kernel.setProc_setProc, Kernel.setProc_self]
  exact hQ

end

/-! ## Runs -/

/-- The running process, unless it is MM, or an interrupt does something; or MM does a step. -/
inductive MmEvent
  | kernel (e : Event)
  | mm

def MmEvent.run (L : MmLayout) : MmEvent → MM Unit
  | kernel e => onKernel e.run
  | mm => do
    let s ← get
    s.pc.run L

/-- MM is waiting to be started, and nothing has been forked. -/
structure MmState.Initial (s : MmState) : Prop where
  kernel : ∃ kBase kLimit, KernelMain kBase kLimit s.kernel
  pc : s.pc = .receive
  moved : s.moved = []

def mmMachine (L : MmLayout) : Machine MmState MmEvent Halt where
  initial := MmState.Initial
  step e := exec (e.run L)

/-- Each step is a step of the process that runs, or an interrupt. -/
def ValidMm (s : MmState) : MmEvent → Prop
  | .kernel e => e.Valid s.kernel ∧ (e.ByProcess → s.kernel.pProcReady ≠ taskMm)
  | .mm => s.kernel.pProcReady = taskMm

instance (s : MmState) : (e : MmEvent) → Decidable (ValidMm s e)
  | .kernel _ => inferInstanceAs (Decidable (_ ∧ (_ → _)))
  | .mm => inferInstanceAs (Decidable (_ = _))

/-! ## A start -/

def MmLayout.low : MmLayout := ⟨0xA000, 0xA100, 0xA200, by decide, by decide, by decide⟩

/-- One start, with 32 MB of memory. -/
def MmState.begin : MmState where
  kernel := History.begin.kernel
  memory _ := 0
  memorySize := 0x2000000
  pc := .receive
  moved := []

theorem MmState.begin_initial : MmState.begin.Initial :=
  ⟨⟨0x1000, 0x1ffff, rfl, rfl, rfl, rfl, rfl⟩, rfl, rfl⟩

/-- The tasks start waiting, and INIT asks MM for a fork. -/
def forkRequest : List MmEvent := [.kernel (.sendrec receive anyTask 0x9000),
  .kernel (.sendrec receive anyTask 0x9100), .kernel (.sendrec receive interrupt 0x9200),
  .kernel (.sendrec receive anyTask 0x9300), .mm,
  .kernel (.write 0x9400 { type := MsgType.fork }), .kernel (.sendrec send 4 0x9400)]

end Dlos
