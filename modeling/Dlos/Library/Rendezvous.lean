import Mathlib.Data.List.Nodup
import Mathlib.Logic.Function.Basic
import Dlos.Library.WaitGraph

/-!
# Synchronous message passing with queues and interrupts

Processes `α` hand messages to each other through buffers `β`. A send hands the message over at
once when the destination waits for it, is refused when waiting would close a cycle of senders,
and otherwise puts the sender at the end of the destination's queue. A receive takes a pending
interrupt, else the first acceptable message of the queue, else waits. An interrupt wakes a
process that waits for it and is remembered otherwise.
-/

namespace Rendezvous

open WaitGraph

/-- Whose message a receive accepts. -/
inductive Source (α : Type*)
  | any
  | interrupt
  | only (a : α)

inductive Phase (α β : Type*)
  | free
  | idle
  | sending (dest : α) (buf : β)
  | receiving (src : Source α) (buf : β)

structure State (α β : Type*) where
  phase : α → Phase α β
  queue : α → List α
  pending : α → Prop

/-- What a step did: who got a message and through which buffers. -/
inductive Effect (α β : Type*)
  | deadlock
  | transfer (sender : α) (src : β) (receiver : α) (dst : β)
  | interrupt (receiver : α) (dst : β)
  | blocked
  | noted

variable {α β : Type*}

def Source.Takes : Source α → α → Prop
  | any, _ => True
  | interrupt, _ => False
  | only b, a => a = b

def Source.TakesInterrupt : Source α → Prop
  | any => True
  | interrupt => True
  | only _ => False

namespace State

variable [DecidableEq α]

def setPhase (s : State α β) (a : α) (p : Phase α β) : State α β :=
  { s with phase := Function.update s.phase a p }

def setPending (s : State α β) (a : α) (p : Prop) : State α β :=
  { s with pending := Function.update s.pending a p }

/-- The wait-for graph of the senders. -/
def waits (s : State α β) (a : α) : Option α :=
  match s.phase a with
  | .sending d _ => some d
  | _ => none

/-- `x` sleeps at the end of the queue of `d`. -/
def enqueue (s : State α β) (x d : α) (b : β) : State α β :=
  { s.setPhase x (.sending d b) with
    queue := Function.update s.queue d (s.queue d ++ [x]) }

/-- `x` is awake and no longer in the queue of `d`. -/
def dequeue (s : State α β) (x d : α) : State α β :=
  { s.setPhase x .idle with queue := Function.update s.queue d ((s.queue d).erase x) }

open Classical in
/-- The buffer in which `d` waits for a message of `x`. -/
noncomputable def inbox (s : State α β) (d x : α) : Option β :=
  match s.phase d with
  | .receiving src c => if src.Takes x then some c else none
  | _ => none

def outbox (s : State α β) (x : α) : Option β :=
  match s.phase x with
  | .sending _ c => some c
  | _ => none

/-- The buffer of a blocked process. -/
def buffer (s : State α β) (x : α) : Option β :=
  match s.phase x with
  | .sending _ c => some c
  | .receiving _ c => some c
  | _ => none

open Classical in
/-- The first acceptable message in the queue of `a`. -/
noncomputable def offer (s : State α β) (a : α) (src : Source α) : Option (α × β) :=
  ((s.queue a).find? (fun x => src.Takes x)).bind fun x => (s.outbox x).map (x, ·)

open Classical in
noncomputable def send (s : State α β) (x d : α) (b : β) : State α β × Effect α β :=
  if Reaches s.waits d x then (s, .deadlock)
  else match s.inbox d x with
    | some c => (s.setPhase d .idle, .transfer x b d c)
    | none => (s.enqueue x d b, .blocked)

open Classical in
noncomputable def receive (s : State α β) (a : α) (src : Source α) (b : β) :
    State α β × Effect α β :=
  if s.pending a ∧ src.TakesInterrupt then (s.setPending a False, .interrupt a b)
  else match s.offer a src with
    | some (x, c) => (s.dequeue x a, .transfer x c a b)
    | none => (s.setPhase a (.receiving src b), .blocked)

open Classical in
noncomputable def notify (s : State α β) (a : α) : State α β × Effect α β :=
  match s.phase a with
  | .receiving src c =>
    if src.TakesInterrupt then ((s.setPhase a .idle).setPending a False, .interrupt a c)
    else (s.setPending a True, .noted)
  | _ => (s.setPending a True, .noted)

/-- The queues hold the senders, no wait is in vain and no circle of senders waits. -/
structure WellFormed (s : State α β) : Prop where
  queued : ∀ x d, x ∈ s.queue d ↔ s.waits x = some d
  nodup : ∀ d, (s.queue d).Nodup
  acyclic : Acyclic s.waits
  unmatched : ∀ d src b, s.phase d = .receiving src b → ∀ x ∈ s.queue d, ¬ src.Takes x
  alert : ∀ d src b, s.phase d = .receiving src b → src.TakesInterrupt → ¬ s.pending d

/-- The queues are in the order of the numbers. -/
def Ordered (no : α → Nat) (s : State α β) : Prop :=
  ∀ d, (s.queue d).Pairwise (no · < no ·)

variable {s : State α β} {x d a : α} {b c : β} {src : Source α}

/-! ## Reading a changed state -/

@[simp] theorem phase_setPhase (p : Phase α β) :
    (s.setPhase a p).phase = Function.update s.phase a p := rfl

@[simp] theorem queue_setPhase (p : Phase α β) : (s.setPhase a p).queue = s.queue := rfl

@[simp] theorem pending_setPhase (p : Phase α β) : (s.setPhase a p).pending = s.pending := rfl

@[simp] theorem phase_setPending (p : Prop) : (s.setPending a p).phase = s.phase := rfl

@[simp] theorem queue_setPending (p : Prop) : (s.setPending a p).queue = s.queue := rfl

@[simp] theorem pending_setPending (p : Prop) :
    (s.setPending a p).pending = Function.update s.pending a p := rfl

@[simp] theorem setPhase_self : s.setPhase a (s.phase a) = s := by simp [setPhase]

@[simp] theorem setPending_self : s.setPending a (s.pending a) = s := by simp [setPending]

omit [DecidableEq α] in
theorem waits_eq_some : s.waits x = some d ↔ ∃ b, s.phase x = .sending d b := by
  unfold waits
  cases s.phase x <;> simp

omit [DecidableEq α] in
theorem buffer_eq_some : s.buffer x = some b ↔
    (∃ d, s.phase x = .sending d b) ∨ ∃ src, s.phase x = .receiving src b := by
  unfold buffer
  cases s.phase x <;> simp

omit [DecidableEq α] in
theorem inbox_eq_some :
    s.inbox d x = some c ↔ ∃ src, s.phase d = .receiving src c ∧ src.Takes x := by
  unfold inbox
  cases hp : s.phase d with
  | receiving src' c' =>
    by_cases ht : src'.Takes x
    · simp only [if_pos ht, Option.some.injEq, Phase.receiving.injEq]
      constructor
      · rintro rfl
        exact ⟨src', ⟨rfl, rfl⟩, ht⟩
      · rintro ⟨_, ⟨-, rfl⟩, -⟩
        rfl
    · simp only [if_neg ht, reduceCtorEq, Phase.receiving.injEq, false_iff]
      rintro ⟨_, ⟨rfl, -⟩, h⟩
      exact ht h
  | free => simp
  | idle => simp
  | sending d' b' => simp

theorem waits_setPhase_idle :
    (s.setPhase a .idle).waits = Function.update s.waits a none := by
  funext y
  by_cases hy : y = a
  · subst hy; simp [waits]
  · simp [waits, hy]

theorem waits_setPhase_receiving :
    (s.setPhase a (.receiving src b)).waits = Function.update s.waits a none := by
  funext y
  by_cases hy : y = a
  · subst hy; simp [waits]
  · simp [waits, hy]

@[simp] theorem waits_enqueue : (s.enqueue x d b).waits = Function.update s.waits x (some d) := by
  funext y
  by_cases hy : y = x
  · subst hy; simp [waits, enqueue]
  · simp [waits, enqueue, hy]

@[simp] theorem waits_dequeue : (s.dequeue x d).waits = Function.update s.waits x none := by
  funext y
  by_cases hy : y = x
  · subst hy; simp [waits, dequeue]
  · simp [waits, dequeue, hy]

omit [DecidableEq α] in
theorem waits_of_idle (h : s.phase a = .idle) : s.waits a = none := by simp [waits, h]

omit [DecidableEq α] in
/-- A process that is not sending is in nobody's queue. -/
theorem WellFormed.notMem (h : s.WellFormed) (hx : s.waits x = none) : x ∉ s.queue d := by
  rw [h.queued, hx]
  simp

omit [DecidableEq α] in
/-- The offered message is that of the first sender in the queue that is accepted. -/
theorem WellFormed.offer_eq_some (h : s.WellFormed) (ho : s.offer a src = some (x, c)) :
    s.phase x = .sending a c ∧ src.Takes x ∧
      ∃ l₁ l₂, s.queue a = l₁ ++ x :: l₂ ∧ ∀ y ∈ l₁, ¬ src.Takes y := by
  obtain ⟨y, hfind, hy⟩ := Option.bind_eq_some_iff.mp ho
  obtain ⟨c', hc', heq⟩ := Option.map_eq_some_iff.mp hy
  obtain ⟨rfl, rfl⟩ := Prod.mk.inj heq
  obtain ⟨htakes, l₁, l₂, hsplit, hfirst⟩ := List.find?_eq_some_iff_append.mp hfind
  obtain ⟨b, hb⟩ := waits_eq_some.mp ((h.queued y a).mp (by rw [hsplit]; simp))
  refine ⟨?_, by simpa using htakes, l₁, l₂, hsplit, by simpa using hfirst⟩
  rw [hb]
  simp [outbox, hb] at hc'
  rw [hc']

omit [DecidableEq α] in
/-- When nothing is offered, nobody in the queue is accepted. -/
theorem WellFormed.offer_eq_none (h : s.WellFormed) (ho : s.offer a src = none) :
    ∀ y ∈ s.queue a, ¬ src.Takes y := by
  intro y hy
  rw [offer, Option.bind_eq_none_iff] at ho
  cases hfind : (s.queue a).find? (fun x => @decide (src.Takes x) (Classical.propDecidable _)) with
  | none => simpa using List.find?_eq_none.mp hfind y hy
  | some z =>
    obtain ⟨b, hb⟩ := waits_eq_some.mp ((h.queued z a).mp (List.mem_of_find?_eq_some hfind))
    have := ho z hfind
    simp [outbox, hb] at this

omit [DecidableEq α] in
/-- The first accepted sender of the queue is offered. -/
theorem WellFormed.offer_of_split (h : s.WellFormed) {l₁ l₂ : List α}
    (hq : s.queue a = l₁ ++ x :: l₂) (src : Source α) (ht : src.Takes x) (hfirst : ∀ y ∈ l₁, ¬ src.Takes y) :
    ∃ c, s.phase x = .sending a c ∧ s.offer a src = some (x, c) := by
  classical
  obtain ⟨c, hc⟩ := waits_eq_some.mp ((h.queued x a).mp (by rw [hq]; simp))
  have hfind : (s.queue a).find? (fun x => src.Takes x) = some x := by
    rw [List.find?_eq_some_iff_append]
    exact ⟨by simpa using ht, l₁, l₂, hq, by simpa using hfirst⟩
  refine ⟨c, hc, ?_⟩
  rw [offer, hfind]
  simp [outbox, hc]

omit [DecidableEq α] in
theorem offer_of_none (hnone : ∀ y ∈ s.queue a, ¬ src.Takes y) : s.offer a src = none := by
  unfold offer
  rw [List.find?_eq_none.mpr (by simpa using hnone)]
  rfl

/-! ## The operations keep the state well formed -/

theorem WellFormed.setPhase_idle (h : s.WellFormed) (hd : s.waits d = none) :
    (s.setPhase d .idle).WellFormed where
  queued y e := by
    rw [queue_setPhase, h.queued, waits_setPhase_idle]
    by_cases hy : y = d
    · subst hy; simp [hd]
    · simp [hy]
  nodup := h.nodup
  acyclic := by
    rw [waits_setPhase_idle]
    refine h.acyclic.mono fun y z hyz => ?_
    by_cases hy : y = d
    · subst hy; simp at hyz
    · simpa [hy] using hyz
  unmatched e src b he := by
    by_cases hed : e = d
    · subst hed; simp at he
    · exact h.unmatched e src b (by simpa [hed] using he)
  alert e src b he := by
    by_cases hed : e = d
    · subst hed; simp at he
    · exact h.alert e src b (by simpa [hed] using he)

theorem WellFormed.enqueue (h : s.WellFormed) (hx : s.phase x = .idle) (hne : d ≠ x)
    (hbox : s.inbox d x = none) (hreach : ¬ Reaches s.waits d x) :
    (s.enqueue x d b).WellFormed where
  queued y e := by
    have hxe : x ∉ s.queue e := h.notMem (waits_of_idle hx)
    rw [waits_enqueue]
    by_cases hy : y = x <;> by_cases he : e = d <;>
      simp_all [State.enqueue, h.queued, eq_comm]
  nodup e := by
    have hxd : x ∉ s.queue d := h.notMem (waits_of_idle hx)
    by_cases he : e = d
    · subst he
      simpa [State.enqueue] using List.Nodup.append (h.nodup e) (List.nodup_singleton x)
        (by simpa using hxd)
    · simpa [State.enqueue, he] using h.nodup e
  acyclic := by
    rw [waits_enqueue]
    exact h.acyclic.add hne hreach
  unmatched e src c he y hy := by
    by_cases hex : e = x
    · subst hex; simp [State.enqueue] at he
    · have he' : s.phase e = .receiving src c := by simpa [State.enqueue, hex] using he
      by_cases hed : e = d
      · subst hed
        have hy' : y ∈ s.queue e ∨ y = x := by simpa [State.enqueue] using hy
        rcases hy' with hy | rfl
        · exact h.unmatched e src c he' y hy
        · intro ht
          rw [inbox_eq_some.mpr ⟨src, he', ht⟩] at hbox
          exact Option.some_ne_none _ hbox
      · exact h.unmatched e src c he' y (by simpa [State.enqueue, hed] using hy)
  alert e src c he := by
    by_cases hex : e = x
    · subst hex; simp [State.enqueue] at he
    · exact h.alert e src c (by simpa [State.enqueue, hex] using he)

theorem WellFormed.dequeue (h : s.WellFormed) (hx : s.waits x = some d) :
    (s.dequeue x d).WellFormed where
  queued y e := by
    rw [waits_dequeue]
    by_cases hy : y = x
    · subst hy
      by_cases he : e = d
      · subst he; simpa [State.dequeue] using (h.nodup e).not_mem_erase
      · have : s.waits y ≠ some e := by rw [hx]; simpa using Ne.symm he
        simpa [State.dequeue, he] using mt (h.queued y e).mp this
    · by_cases he : e = d
      · subst he; simp [State.dequeue, hy, List.mem_erase_of_ne hy, h.queued]
      · simp [State.dequeue, hy, he, h.queued]
  nodup e := by
    by_cases he : e = d
    · subst he; simpa [State.dequeue] using (h.nodup e).erase x
    · simpa [State.dequeue, he] using h.nodup e
  acyclic := by
    rw [waits_dequeue]
    refine h.acyclic.mono fun y z hyz => ?_
    by_cases hy : y = x
    · subst hy; simp at hyz
    · simpa [hy] using hyz
  unmatched e src c he y hy := by
    by_cases hex : e = x
    · subst hex; simp [State.dequeue] at he
    · refine h.unmatched e src c (by simpa [State.dequeue, hex] using he) y ?_
      by_cases hed : e = d
      · subst hed; exact List.mem_of_mem_erase (by simpa [State.dequeue] using hy)
      · simpa [State.dequeue, hed] using hy
  alert e src c he := by
    by_cases hex : e = x
    · subst hex; simp [State.dequeue] at he
    · exact h.alert e src c (by simpa [State.dequeue, hex] using he)

theorem WellFormed.sleep (h : s.WellFormed) (ha : s.phase a = .idle)
    (hint : ¬ (s.pending a ∧ src.TakesInterrupt)) (hoffer : s.offer a src = none) :
    (s.setPhase a (.receiving src b)).WellFormed where
  queued y e := by
    rw [queue_setPhase, h.queued, waits_setPhase_receiving]
    by_cases hy : y = a
    · subst hy; simp [waits_of_idle ha]
    · simp [hy]
  nodup := h.nodup
  acyclic := by
    rw [waits_setPhase_receiving]
    refine h.acyclic.mono fun y z hyz => ?_
    by_cases hy : y = a
    · subst hy; simp at hyz
    · simpa [hy] using hyz
  unmatched e src' c he y hy := by
    by_cases hea : e = a
    · subst hea
      obtain ⟨rfl, rfl⟩ : src = src' ∧ b = c := by simpa using he
      exact h.offer_eq_none hoffer y hy
    · exact h.unmatched e src' c (by simpa [hea] using he) y hy
  alert e src' c he ht := by
    by_cases hea : e = a
    · subst hea
      obtain ⟨rfl, rfl⟩ : src = src' ∧ b = c := by simpa using he
      exact fun hp => hint ⟨hp, ht⟩
    · exact h.alert e src' c (by simpa [hea] using he) ht

/-- A change of a pending interrupt matters only to a process that waits for it. -/
theorem WellFormed.setPending (h : s.WellFormed) {p : Prop}
    (hp : ∀ src c, s.phase a = .receiving src c → src.TakesInterrupt → ¬ p) :
    (s.setPending a p).WellFormed where
  queued := h.queued
  nodup := h.nodup
  acyclic := h.acyclic
  unmatched := h.unmatched
  alert e src c he ht := by
    by_cases hea : e = a
    · subst hea; simpa using hp src c he ht
    · simpa [hea] using h.alert e src c he ht

theorem WellFormed.send (h : s.WellFormed) (hx : s.phase x = .idle) (hne : d ≠ x) :
    (s.send x d b).1.WellFormed := by
  unfold State.send
  by_cases hreach : Reaches s.waits d x
  · rw [if_pos hreach]
    exact h
  · rw [if_neg hreach]
    cases hbox : s.inbox d x with
    | none => exact h.enqueue hx hne hbox hreach
    | some c =>
      obtain ⟨src, hd, -⟩ := inbox_eq_some.mp hbox
      exact h.setPhase_idle (by simp [waits, hd])

theorem WellFormed.receive (h : s.WellFormed) (ha : s.phase a = .idle) :
    (s.receive a src b).1.WellFormed := by
  unfold State.receive
  by_cases hint : s.pending a ∧ src.TakesInterrupt
  · rw [if_pos hint]
    exact h.setPending (by simp)
  · rw [if_neg hint]
    cases hoffer : s.offer a src with
    | none => exact h.sleep ha hint hoffer
    | some xc =>
      obtain ⟨hphase, -⟩ := h.offer_eq_some hoffer
      exact h.dequeue (waits_eq_some.mpr ⟨_, hphase⟩)

theorem WellFormed.notify (h : s.WellFormed) : (s.notify a).1.WellFormed := by
  unfold State.notify
  cases hp : s.phase a with
  | receiving src c =>
    by_cases ht : src.TakesInterrupt
    · simp only [if_pos ht]
      refine (h.setPhase_idle (by simp [waits, hp])).setPending ?_
      simp
    · simp only [if_neg ht]
      refine h.setPending fun src' c' he ht' => ?_
      obtain ⟨rfl, -⟩ : src = src' ∧ c = c' := by simpa [hp] using he
      exact absurd ht' ht
  | free => exact h.setPending (by simp [hp])
  | idle => exact h.setPending (by simp [hp])
  | sending d b => exact h.setPending (by simp [hp])

/-! ## What an operation may do -/

theorem send_cases (s : State α β) (x d : α) (b : β) :
    (Reaches s.waits d x ∧ s.send x d b = (s, .deadlock)) ∨
    (∃ src c, s.phase d = .receiving src c ∧ src.Takes x ∧
      s.send x d b = (s.setPhase d .idle, .transfer x b d c)) ∨
    (¬ Reaches s.waits d x ∧ s.inbox d x = none ∧ s.send x d b = (s.enqueue x d b, .blocked)) := by
  by_cases hreach : Reaches s.waits d x
  · exact .inl ⟨hreach, by rw [send, if_pos hreach]⟩
  · cases hbox : s.inbox d x with
    | some c =>
      obtain ⟨src, hd, ht⟩ := inbox_eq_some.mp hbox
      exact .inr (.inl ⟨src, c, hd, ht, by rw [send, if_neg hreach, hbox]⟩)
    | none => exact .inr (.inr ⟨hreach, rfl, by rw [send, if_neg hreach, hbox]⟩)

theorem receive_cases (s : State α β) (a : α) (src : Source α) (b : β) :
    (s.pending a ∧ src.TakesInterrupt ∧
      s.receive a src b = (s.setPending a False, .interrupt a b)) ∨
    (¬ (s.pending a ∧ src.TakesInterrupt) ∧ ∃ x c, s.offer a src = some (x, c) ∧
      s.receive a src b = (s.dequeue x a, .transfer x c a b)) ∨
    (¬ (s.pending a ∧ src.TakesInterrupt) ∧ s.offer a src = none ∧
      s.receive a src b = (s.setPhase a (.receiving src b), .blocked)) := by
  by_cases hint : s.pending a ∧ src.TakesInterrupt
  · exact .inl ⟨hint.1, hint.2, by rw [receive, if_pos hint]⟩
  · cases hoffer : s.offer a src with
    | some xc =>
      exact .inr (.inl ⟨hint, xc.1, xc.2, rfl, by rw [receive, if_neg hint, hoffer]⟩)
    | none => exact .inr (.inr ⟨hint, rfl, by rw [receive, if_neg hint, hoffer]⟩)

theorem notify_cases (s : State α β) (a : α) :
    (∃ src c, s.phase a = .receiving src c ∧ src.TakesInterrupt ∧
      s.notify a = ((s.setPhase a .idle).setPending a False, .interrupt a c)) ∨
    s.notify a = (s.setPending a True, .noted) := by
  cases hp : s.phase a with
  | receiving src c =>
    by_cases ht : src.TakesInterrupt
    · exact .inl ⟨src, c, rfl, ht, by simp [notify, hp, ht]⟩
    · exact .inr (by simp [notify, hp, ht])
  | free => exact .inr (by simp [notify, hp])
  | idle => exact .inr (by simp [notify, hp])
  | sending d b => exact .inr (by simp [notify, hp])

/-- A refused send changes nothing. -/
theorem send_of_deadlock (h : (s.send x d b).2 = .deadlock) : s.send x d b = (s, .deadlock) := by
  unfold State.send at h ⊢
  split
  · rfl
  · rename_i hreach
    rw [if_neg hreach] at h
    split at h <;> simp at h

theorem receive_ne_deadlock : (s.receive a src b).2 ≠ .deadlock := by
  unfold State.receive
  split
  · simp
  · split <;> simp

/-- An interrupt blocks nobody. -/
theorem phase_notify_of_idle {y : α} (hy : s.phase y = .idle) :
    (s.notify a).1.phase y = .idle := by
  unfold State.notify
  split
  · split
    · by_cases hya : y = a
      · subst hya; simp
      · simpa [hya] using hy
    · exact hy
  · exact hy

/-! ## The order of the queues -/

variable {no : α → Nat}

omit [DecidableEq α] in
theorem Ordered.congr {no' : α → Nat} (h : Ordered no s)
    (same : ∀ d, ∀ y ∈ s.queue d, no' y = no y) : Ordered no' s := by
  intro d
  refine (h d).imp_of_mem fun hy hz hlt => ?_
  rw [same d _ hy, same d _ hz]
  exact hlt

theorem Ordered.enqueue (h : Ordered no s) (newest : ∀ y ∈ s.queue d, no y < no x) :
    Ordered no (s.enqueue x d b) := by
  intro e
  by_cases he : e = d
  · subst he
    simpa [State.enqueue, List.pairwise_append] using ⟨h e, newest⟩
  · simpa [State.enqueue, he] using h e

omit [DecidableEq α] in
theorem Ordered.sublist {s' : State α β} (h : Ordered no s)
    (hsub : ∀ d, (s'.queue d).Sublist (s.queue d)) : Ordered no s' :=
  fun d => (h d).sublist (hsub d)

/-- A send only lengthens a queue when the sender falls asleep. -/
theorem queue_send : (s.send x d b).1.queue = s.queue ∨ (s.send x d b).1 = s.enqueue x d b := by
  unfold State.send
  split
  · exact .inl rfl
  · split
    · exact .inl rfl
    · exact .inr rfl

theorem queue_receive (d : α) : ((s.receive a src b).1.queue d).Sublist (s.queue d) := by
  unfold State.receive
  split
  · exact List.Sublist.refl _
  · split
    · rename_i x c _
      by_cases hd : d = a
      · subst hd; simpa [State.dequeue] using List.erase_sublist
      · simp [State.dequeue, hd]
    · exact List.Sublist.refl _

theorem queue_notify : (s.notify a).1.queue = s.queue := by
  unfold State.notify
  split
  · split <;> rfl
  · rfl

end State

end Rendezvous
