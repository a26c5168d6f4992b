import Dlos.Kernel.Table

/-!
# Every message is delivered at most once, and to whom it was sent

The ledger of a run in which the buffers of blocked processes are apart from each other and
written by the kernel only. A message waits in its sender's buffer until the one step that
copies it, so what arrives is what was sent.
-/

namespace Dlos

open Program Rendezvous

def Proc.isBlocked (p : Proc) : Prop := p.isSending ∨ p.isReceiving

/-- The event touches no buffer of another, blocked process. -/
def Event.Apart (k : Kernel) : Event → Prop
  | .sendrec _ _ m => ∀ q, q ≠ k.pProcReady → (k.procTable q).isBlocked →
    k.la q (k.procTable q).pMsg ≠ k.la k.pProcReady m
  | .write la _ => ∀ q, (k.procTable q).isBlocked → k.la q (k.procTable q).pMsg ≠ la
  | _ => True

def ApartEvent (h : History) (e : Event) : Prop := ValidEvent h e ∧ e.Apart h.kernel

instance (p : Proc) : Decidable p.isBlocked := inferInstanceAs (Decidable (_ ∨ _))

instance (k : Kernel) : (e : Event) → Decidable (e.Apart k)
  | .sendrec _ _ m => inferInstanceAs (Decidable (∀ q, q ≠ k.pProcReady →
      (k.procTable q).isBlocked → k.la q (k.procTable q).pMsg ≠ k.la k.pProcReady m))
  | .write la _ => inferInstanceAs (Decidable (∀ q,
      (k.procTable q).isBlocked → k.la q (k.procTable q).pMsg ≠ la))
  | .informInt _ => isTrue trivial
  | .clock => isTrue trivial
  | .key _ => isTrue trivial

instance (h : History) (e : Event) : Decidable (ApartEvent h e) :=
  inferInstanceAs (Decidable (_ ∧ _))

/-- What a delivery must look like: the message of a SEND to the receiver, put into the buffer of
a RECEIVE that accepts its sender; or a HARD_INT for a RECEIVE that accepts interrupts. -/
inductive Delivery.Sound : Delivery → Prop
  | message (m : SendCall) (c : ReceiveCall) (dest : m.dest = c.receiver.val)
      (accepts : c.src = anyTask ∨ c.src = m.sender.val) (source : m.content.source = m.sender.val) :
      Sound ⟨some m, some c, ⟨c.receiver, c.buf, m.sender.val, m.content⟩⟩
  | interrupt (c : ReceiveCall) (content : Message) (accepts : c.src = anyTask ∨ c.src = interrupt)
      (source : content.source = Dlos.interrupt) (type : content.type = MsgType.hardInt) :
      Sound ⟨none, some c, ⟨c.receiver, c.buf, Dlos.interrupt, content⟩⟩

/-- The numbers of the messages delivered, and of the calls they were delivered for. -/
def History.deliveredIds (h : History) : List Nat :=
  (h.deliveries.filterMap (·.msg)).map (·.id)

def History.answeredIds (h : History) : List Nat :=
  (h.deliveries.filterMap (·.call)).map (·.id)

/-- The ledger of a history whose kernel implements `s`. -/
structure Ledger (h : History) (s : Ipc) : Prop where
  sender : ∀ x d b, s.phase x = .sending d b →
    ∃ id, h.sent x = some ⟨id, x, d.val, h.kernel.msgs (h.kernel.la x b)⟩ ∧
      (h.kernel.msgs (h.kernel.la x b)).source = x.val ∧ id ∉ h.deliveredIds
  receiver : ∀ p src b, s.phase p = .receiving src b →
    ∃ id, h.asked p = some ⟨id, p, sourceCode src, h.kernel.la p b⟩ ∧ id ∉ h.answeredIds
  apart : ∀ p q a b, p ≠ q → s.buffer p = some a → s.buffer q = some b →
    h.kernel.la p a ≠ h.kernel.la q b
  sentId : ∀ x m, h.sent x = some m → m.id < h.time ∧ m.sender = x
  askedId : ∀ p c, h.asked p = some c → c.id < h.time ∧ c.receiver = p
  sentOnce : ∀ x y m n, h.sent x = some m → h.sent y = some n → m.id = n.id → x = y
  askedOnce : ∀ p q c d, h.asked p = some c → h.asked q = some d → c.id = d.id → p = q
  sound : ∀ δ ∈ h.deliveries, δ.Sound
  delivered : h.deliveredIds.Nodup ∧ ∀ id ∈ h.deliveredIds, id < h.time
  answered : h.answeredIds.Nodup ∧ ∀ id ∈ h.answeredIds, id < h.time

section

variable {h : History} {s s' : Ipc} {e : Event} {k' : Kernel} {p q x y : Pid} {b : Addr}
  {t : Pid → Nat} {δ : Delivery}

theorem Kernel.Implements.blocked {k : Kernel} (hk : k.Implements s) (hb : s.buffer p = some b) :
    (k.procTable p).isBlocked ∧ (k.procTable p).pMsg = b := by
  have hp := hk.proc p
  rcases State.buffer_eq_some.mp hb with ⟨d, hd⟩ | ⟨src, hd⟩
  · rw [hd] at hp
    exact ⟨.inl (hp.isSending.mpr ⟨_, _, rfl⟩), hp.2.1⟩
  · rw [hd] at hp
    exact ⟨.inr (hp.isReceiving.mpr ⟨_, _, rfl⟩), hp.2.1⟩

/-! ## Entering the call -/

/-- The history once the call is in the ledger and its buffer is stamped. -/
def History.enter (h : History) (e : Event) : History :=
  { h.note e with kernel := e.prepare h.kernel, time := h.time + 1 }

theorem History.step_eq : (History.step e h).1 =
    { h.enter e with
      kernel := (exec e.run h.kernel).1
      blockedAt := (History.step e h).1.blockedAt
      deliveries := h.delivered e (exec e.run h.kernel).1 ++ (h.enter e).deliveries } := by
  cases e with
  | sendrec function srcDest a =>
    simp only [step, enter, note]
    split <;> rfl
  | _ => rfl

theorem Event.prepare_la (k : Kernel) : (e.prepare k).la p b = k.la p b := by cases e <;> rfl

theorem Event.prepare_copies (k : Kernel) : (e.prepare k).copies = k.copies := by cases e <;> rfl

/-- Buffers of blocked processes are not touched before the message passing starts. -/
theorem Event.Apart.msgs {k : Kernel} (ha : e.Apart k) (hk : k.Implements s)
    (hrun : s.phase k.pProcReady = .idle) (hb : s.buffer q = some b) :
    (e.prepare k).msgs (k.la q b) = k.msgs (k.la q b) := by
  obtain ⟨hblocked, hmsg⟩ := hk.blocked hb
  have hne : q ≠ k.pProcReady := by
    rintro rfl
    simp [State.buffer, hrun] at hb
  cases e with
  | sendrec function srcDest m =>
    have := ha q hne hblocked
    rw [hmsg] at this
    simp [prepare, Kernel.stamp, Kernel.setMsg, this]
  | write la content =>
    have := ha q hblocked
    rw [hmsg] at this
    simp [prepare, Kernel.setMsg, this]
  | informInt task => rfl
  | clock => rfl
  | key pressed => rfl

theorem History.enter_sent {m : SendCall} (hm : (h.enter e).sent x = some m) :
    h.sent x = some m ∨ x = h.kernel.pProcReady ∧ m.id = h.time ∧ m.sender = x := by
  cases e with
  | sendrec function srcDest a =>
    simp only [enter, note] at hm
    split at hm
    · by_cases hx : x = h.kernel.pProcReady
      · subst hx
        simp only [Function.update_self, Option.some.injEq] at hm
        subst hm
        exact .inr ⟨rfl, rfl, rfl⟩
      · exact .inl (by simpa [hx] using hm)
    · exact .inl hm
  | _ => exact .inl hm

theorem History.enter_asked {c : ReceiveCall} (hc : (h.enter e).asked p = some c) :
    h.asked p = some c ∨ p = h.kernel.pProcReady ∧ c.id = h.time ∧ c.receiver = p := by
  cases e with
  | sendrec function srcDest a =>
    simp only [enter, note] at hc
    split at hc
    · exact .inl hc
    · by_cases hx : p = h.kernel.pProcReady
      · subst hx
        simp only [Function.update_self, Option.some.injEq] at hc
        subst hc
        exact .inr ⟨rfl, rfl, rfl⟩
      · exact .inl (by simpa [hx] using hc)
  | _ => exact .inl hc

theorem History.enter_of_ne (hx : x ≠ h.kernel.pProcReady) :
    (h.enter e).sent x = h.sent x ∧ (h.enter e).asked x = h.asked x := by
  cases e with
  | sendrec function srcDest a =>
    simp only [enter, note]
    split <;> simp [hx]
  | _ => exact ⟨rfl, rfl⟩

theorem History.enter_deliveries : (h.enter e).deliveries = h.deliveries := by
  cases e with
  | sendrec function srcDest a =>
    simp only [enter, note]
    split <;> rfl
  | _ => rfl

theorem Ledger.enter (hl : Ledger h s) (hk : h.kernel.Implements s) (ha : e.Apart h.kernel)
    (hrun : s.phase h.kernel.pProcReady = .idle) : Ledger (h.enter e) s := by
  have hne {x b} (hb : s.buffer x = some b) : x ≠ h.kernel.pProcReady := by
    rintro rfl
    simp [State.buffer, hrun] at hb
  have hids : (h.enter e).deliveredIds = h.deliveredIds ∧
      (h.enter e).answeredIds = h.answeredIds := by
    simp only [History.deliveredIds, History.answeredIds, History.enter_deliveries, and_self]
  constructor
  · intro x d b hx
    have hb : s.buffer x = some b := State.buffer_eq_some.mpr (.inl ⟨d, hx⟩)
    obtain ⟨id, hsent, hsrc, hid⟩ := hl.sender x d b hx
    have hmsgs : (h.enter e).kernel.msgs ((h.enter e).kernel.la x b) =
        h.kernel.msgs (h.kernel.la x b) := by
      simp only [History.enter, Event.prepare_la]
      exact ha.msgs hk hrun hb
    rw [hmsgs, (History.enter_of_ne (hne hb)).1, hids.1]
    exact ⟨id, hsent, hsrc, hid⟩
  · intro p src b hp
    have hb : s.buffer p = some b := State.buffer_eq_some.mpr (.inr ⟨src, hp⟩)
    obtain ⟨id, hasked, hid⟩ := hl.receiver p src b hp
    rw [(History.enter_of_ne (hne hb)).2, hids.2]
    simp only [History.enter, Event.prepare_la]
    exact ⟨id, hasked, hid⟩
  · simp only [History.enter, Event.prepare_la]
    exact hl.apart
  · intro x m hm
    rcases History.enter_sent hm with hm | ⟨rfl, hid, hs⟩
    · exact ⟨Nat.lt_succ_of_lt (hl.sentId x m hm).1, (hl.sentId x m hm).2⟩
    · exact ⟨by simp [History.enter, hid], hs⟩
  · intro p c hc
    rcases History.enter_asked hc with hc | ⟨rfl, hid, hr⟩
    · exact ⟨Nat.lt_succ_of_lt (hl.askedId p c hc).1, (hl.askedId p c hc).2⟩
    · exact ⟨by simp [History.enter, hid], hr⟩
  · intro x y m n hm hn hmn
    rcases History.enter_sent hm with hm | ⟨rfl, hm', -⟩ <;>
      rcases History.enter_sent hn with hn | ⟨rfl, hn', -⟩
    · exact hl.sentOnce x y m n hm hn hmn
    · have := (hl.sentId x m hm).1
      omega
    · have := (hl.sentId y n hn).1
      omega
    · rfl
  · intro p q c d hc hd hcd
    rcases History.enter_asked hc with hc | ⟨rfl, hc', -⟩ <;>
      rcases History.enter_asked hd with hd | ⟨rfl, hd', -⟩
    · exact hl.askedOnce p q c d hc hd hcd
    · have := (hl.askedId p c hc).1
      omega
    · have := (hl.askedId q d hd).1
      omega
    · rfl
  · rw [History.enter_deliveries]
    exact hl.sound
  · rw [hids.1]
    exact ⟨hl.delivered.1, fun id hid => Nat.lt_succ_of_lt (hl.delivered.2 id hid)⟩
  · rw [hids.2]
    exact ⟨hl.answered.1, fun id hid => Nat.lt_succ_of_lt (hl.answered.2 id hid)⟩

/-! ## What each effect does to the ledger -/

/-- Nothing is delivered and nobody falls asleep. -/
theorem Ledger.quiet (hl : Ledger h s) (hphase : s'.phase = s.phase)
    (hla : ∀ p b, k'.la p b = h.kernel.la p b) (hmsgs : k'.msgs = h.kernel.msgs) :
    Ledger { h with kernel := k', blockedAt := t } s' := by
  constructor
  · intro x d b hx
    rw [hphase] at hx
    simp only [hla, hmsgs]
    exact hl.sender x d b hx
  · intro p src b hp
    rw [hphase] at hp
    simp only [hla]
    exact hl.receiver p src b hp
  · intro p q a b hpq hp hq
    rw [State.buffer, hphase] at hp hq
    simpa only [hla] using hl.apart p q a b hpq hp hq
  exacts [hl.sentId, hl.askedId, hl.sentOnce, hl.askedOnce, hl.sound, hl.delivered, hl.answered]

/-- A process falls asleep with the call it has just made. -/
theorem Ledger.sleep {ph : Phase Pid Addr} (hl : Ledger h s)
    (hphase : s'.phase = Function.update s.phase x ph)
    (hla : ∀ p b, k'.la p b = h.kernel.la p b) (hmsgs : k'.msgs = h.kernel.msgs)
    (hsend : ∀ d b, ph = .sending d b →
      ∃ id, h.sent x = some ⟨id, x, d.val, h.kernel.msgs (h.kernel.la x b)⟩ ∧
        (h.kernel.msgs (h.kernel.la x b)).source = x.val ∧ id ∉ h.deliveredIds)
    (hreceive : ∀ src b, ph = .receiving src b →
      ∃ id, h.asked x = some ⟨id, x, sourceCode src, h.kernel.la x b⟩ ∧ id ∉ h.answeredIds)
    (hapart : ∀ q a b, q ≠ x → s.buffer q = some a → s'.buffer x = some b →
      h.kernel.la q a ≠ h.kernel.la x b) :
    Ledger { h with kernel := k', blockedAt := t } s' := by
  have hother {p} (hp : p ≠ x) : s'.phase p = s.phase p := by rw [hphase, Function.update_of_ne hp]
  have hself : s'.phase x = ph := by rw [hphase, Function.update_self]
  have hbuf {p} (hp : p ≠ x) : s'.buffer p = s.buffer p := by rw [State.buffer, hother hp]; rfl
  constructor
  · intro y d b hy
    simp only [hla, hmsgs]
    by_cases hyx : y = x
    · subst hyx
      exact hsend d b (hself.symm.trans hy)
    · exact hl.sender y d b (hother hyx ▸ hy)
  · intro p src b hp
    simp only [hla]
    by_cases hpx : p = x
    · subst hpx
      exact hreceive src b (hself.symm.trans hp)
    · exact hl.receiver p src b (hother hpx ▸ hp)
  · intro p q a b hpq hp hq
    simp only [hla]
    by_cases hpx : p = x
    · subst hpx
      exact (hapart q b a hpq.symm (hbuf hpq.symm ▸ hq) hp).symm
    · by_cases hqx : q = x
      · subst hqx
        exact hapart p a b hpq (hbuf hpq ▸ hp) hq
      · exact hl.apart p q a b hpq (hbuf hpx ▸ hp) (hbuf hqx ▸ hq)
  exacts [hl.sentId, hl.askedId, hl.sentOnce, hl.askedOnce, hl.sound, hl.delivered, hl.answered]

/-- A message or an interrupt is delivered and the processes concerned are released. -/
theorem Ledger.deliver (hl : Ledger h s) (hphase : ∀ p, s'.phase p = s.phase p ∨ s'.phase p = .idle)
    (hla : ∀ p b, k'.la p b = h.kernel.la p b)
    (hmsgs : ∀ y d b, s'.phase y = .sending d b →
      k'.msgs (h.kernel.la y b) = h.kernel.msgs (h.kernel.la y b))
    (hsound : δ.Sound)
    (hmsg : ∀ m, δ.msg = some m → m.id ∉ h.deliveredIds ∧ m.id < h.time ∧
      ∃ x, h.sent x = some m ∧ s'.phase x = .idle)
    (hcall : ∀ c, δ.call = some c → c.id ∉ h.answeredIds ∧ c.id < h.time ∧
      ∃ p, h.asked p = some c ∧ s'.phase p = .idle) :
    Ledger { h with kernel := k', blockedAt := t, deliveries := δ :: h.deliveries } s' := by
  have hids : ∀ id, id ∈ ({ h with deliveries := δ :: h.deliveries } : History).deliveredIds ↔
      (∃ m, δ.msg = some m ∧ m.id = id) ∨ id ∈ h.deliveredIds := by
    intro id
    cases hm : δ.msg <;> simp [History.deliveredIds, hm, eq_comm]
  have hcalls : ∀ id, id ∈ ({ h with deliveries := δ :: h.deliveries } : History).answeredIds ↔
      (∃ c, δ.call = some c ∧ c.id = id) ∨ id ∈ h.answeredIds := by
    intro id
    cases hc : δ.call <;> simp [History.answeredIds, hc, eq_comm]
  have hsending {y d b} (hy : s'.phase y = .sending d b) : s.phase y = .sending d b := by
    rcases hphase y with h | h <;> simp_all
  have hreceiving {y src b} (hy : s'.phase y = .receiving src b) : s.phase y = .receiving src b := by
    rcases hphase y with h | h <;> simp_all
  have hbuffer {y b} (hy : s'.buffer y = some b) : s.buffer y = some b := by
    rw [State.buffer_eq_some] at hy ⊢
    exact hy.imp (fun ⟨d, hd⟩ => ⟨d, hsending hd⟩) fun ⟨src, hd⟩ => ⟨src, hreceiving hd⟩
  constructor
  · intro y d b hy
    obtain ⟨id, hsent, hsrc, hid⟩ := hl.sender y d b (hsending hy)
    simp only [hla, hmsgs y d b hy]
    refine ⟨id, hsent, hsrc, fun hmem => ?_⟩
    rcases (hids id).mp hmem with ⟨m, hm, rfl⟩ | hmem
    · obtain ⟨-, -, x, hx, hidle⟩ := hmsg m hm
      obtain rfl := hl.sentOnce x y _ _ hx hsent rfl
      simp [hidle] at hy
    · exact hid hmem
  · intro p src b hp
    obtain ⟨id, hasked, hid⟩ := hl.receiver p src b (hreceiving hp)
    simp only [hla]
    refine ⟨id, hasked, fun hmem => ?_⟩
    rcases (hcalls id).mp hmem with ⟨c, hc, rfl⟩ | hmem
    · obtain ⟨-, -, x, hx, hidle⟩ := hcall c hc
      obtain rfl := hl.askedOnce x p _ _ hx hasked rfl
      simp [hidle] at hp
    · exact hid hmem
  · intro p q a b hpq hp hq
    simpa only [hla] using hl.apart p q a b hpq (hbuffer hp) (hbuffer hq)
  · exact hl.sentId
  · exact hl.askedId
  · exact hl.sentOnce
  · exact hl.askedOnce
  · intro δ' hδ'
    rcases List.mem_cons.mp hδ' with rfl | hδ'
    · exact hsound
    · exact hl.sound δ' hδ'
  · refine ⟨?_, fun id hid => ?_⟩
    · have := hl.delivered.1
      cases hm : δ.msg with
      | none => simpa [History.deliveredIds, hm] using this
      | some m => simpa [History.deliveredIds, hm] using ⟨by simpa [History.deliveredIds] using (hmsg m hm).1, this⟩
    · rcases (hids id).mp hid with ⟨m, hm, rfl⟩ | hid
      · exact (hmsg m hm).2.1
      · exact hl.delivered.2 id hid
  · refine ⟨?_, fun id hid => ?_⟩
    · have := hl.answered.1
      cases hc : δ.call with
      | none => simpa [History.answeredIds, hc] using this
      | some c => simpa [History.answeredIds, hc] using ⟨by simpa [History.answeredIds] using (hcall c hc).1, this⟩
    · rcases (hcalls id).mp hid with ⟨c, hc, rfl⟩ | hid
      · exact (hcall c hc).2.1
      · exact hl.answered.2 id hid

/-! ## One event -/

/-- Who is no longer blocked as before got the one message of the step, or gave it away. -/
def Released (h : History) (s s' : Ipc) (news : List Delivery) : Prop :=
  ∀ p, s.phase p ≠ .idle → s'.phase p = s.phase p ∨ ∃ δ, news = [δ] ∧
    ((∃ d b, s.phase p = .sending d b ∧ δ.msg = h.sent p) ∨
      ∃ src b, s.phase p = .receiving src b ∧ δ.call = h.asked p)

theorem History.delivered_nil (hc : k'.copies = (e.prepare h.kernel).copies) :
    h.delivered e k' = [] := by
  simp [delivered, hc, Event.prepare_copies]

theorem History.delivered_cons {c : Copy} (hc : k'.copies = c :: (e.prepare h.kernel).copies) :
    h.delivered e k' = [(h.enter e).deliveryOf c] := by
  simp [delivered, hc, Event.prepare_copies, deliveryOf, enter]

theorem History.deliveryOf_message {d : Pid} {a : Addr} {content : Message} {m : SendCall}
    {c : ReceiveCall} (hm : h.sent x = some m) (hc : h.asked d = some c) :
    h.deliveryOf ⟨d, a, x.val, content⟩ = ⟨some m, some c, ⟨d, a, x.val, content⟩⟩ := by
  rw [deliveryOf, pidOf_val, Option.bind_some, hm, hc]

theorem History.deliveryOf_interrupt {d : Pid} {a : Addr} {content : Message} {c : ReceiveCall}
    (hc : h.asked d = some c) :
    h.deliveryOf ⟨d, a, interrupt, content⟩ = ⟨none, some c, ⟨d, a, interrupt, content⟩⟩ := by
  rw [deliveryOf, hc]
  rfl

theorem Kernel.stamp_msgs (k : Kernel) (m : Addr) :
    (k.stamp p m).msgs (k.la p m) = { k.msgs (k.la p m) with source := p.val } := by
  simp [Kernel.stamp, Kernel.setMsg]

theorem History.enter_send {d : Pid} {m : Addr} (he : e = .sendrec send d.val m) :
    (h.enter e).sent h.kernel.pProcReady = some ⟨h.time, h.kernel.pProcReady, d.val,
      (h.enter e).kernel.msgs ((h.enter e).kernel.la h.kernel.pProcReady m)⟩ ∧
    ((h.enter e).kernel.msgs ((h.enter e).kernel.la h.kernel.pProcReady m)).source =
      h.kernel.pProcReady.val := by
  subst he
  simp only [enter, note, Event.prepare_la]
  simp only [Event.prepare, Kernel.stamp_msgs, if_true, Function.update_self, and_self]

theorem History.enter_receive {sd : Int} {m : Addr} (he : e = .sendrec receive sd m) :
    (h.enter e).asked h.kernel.pProcReady = some ⟨h.time, h.kernel.pProcReady, sd,
      (h.enter e).kernel.la h.kernel.pProcReady m⟩ := by
  subst he
  simp only [enter, note, Event.prepare_la, if_neg (by decide : ¬ receive = send),
    Function.update_self]

theorem Ledger.time_fresh (hl : Ledger h s) :
    h.time ∉ (h.enter e).deliveredIds ∧ h.time ∉ (h.enter e).answeredIds ∧
      h.time < (h.enter e).time := by
  simp only [History.deliveredIds, History.answeredIds, History.enter_deliveries]
  exact ⟨fun hmem => Nat.lt_irrefl _ (hl.delivered.2 _ hmem),
    fun hmem => Nat.lt_irrefl _ (hl.answered.2 _ hmem), Nat.lt_succ_self _⟩

/-- The ledger after an event that leaves the kernel `k'` and the state `s'`. -/
def Follows (h : History) (e : Event) (k' : Kernel) (t : Pid → Nat) (s s' : Ipc) : Prop :=
  Ledger { h.enter e with
    kernel := k', blockedAt := t, deliveries := h.delivered e k' ++ (h.enter e).deliveries } s' ∧
  Released h s s' (h.delivered e k')

/-- The caller's buffer is not that of a blocked process. -/
theorem Event.Apart.caller {function sd : Int} {m : Addr} (ha : e.Apart h.kernel)
    (he : e = .sendrec function sd m) (hk : h.kernel.Implements s)
    (hrun : s.phase h.kernel.pProcReady = .idle) (hb : s.buffer q = some b) :
    (h.enter e).kernel.la q b ≠ (h.enter e).kernel.la h.kernel.pProcReady m := by
  have hq : q ≠ h.kernel.pProcReady := by
    rintro rfl
    simp [State.buffer, hrun] at hb
  obtain ⟨hblocked, rfl⟩ := hk.blocked hb
  subst he
  simpa only [History.enter, Event.prepare_la] using ha q hq hblocked

theorem Ledger.step_quiet (hl : Ledger (h.enter e) s) (hphase : s'.phase = s.phase)
    (hp : (e.prepare h.kernel).Frame k') (hmsgs : k'.msgs = (e.prepare h.kernel).msgs)
    (hcopies : k'.copies = (e.prepare h.kernel).copies) : Follows h e k' t s s' := by
  rw [Follows, History.delivered_nil hcopies]
  exact ⟨hl.quiet hphase (fun p b => hp.la b) hmsgs, fun p _ => .inl (by rw [hphase])⟩

theorem Ledger.step_send {m : Addr} {d : Pid} (hl : Ledger h s) (hk : h.kernel.Implements s)
    (hrun : s.phase h.kernel.pProcReady = .idle) (hne : d ≠ h.kernel.pProcReady)
    (he : e = .sendrec send d.val m) (ha : e.Apart h.kernel)
    (hp : (e.prepare h.kernel).Passed (s.send h.kernel.pProcReady d m) k') :
    Follows h e k' t s (s.send h.kernel.pProcReady d m).1 := by
  have hl₁ := hl.enter hk ha hrun
  have hla (p b) : k'.la p b = (h.enter e).kernel.la p b := hp.frame.la b
  obtain ⟨hsent, hsrc⟩ := History.enter_send (h := h) he
  rcases s.send_cases h.kernel.pProcReady d m with
    ⟨-, heq⟩ | ⟨src, c, hd, ht, heq⟩ | ⟨-, hbox, heq⟩ <;> rw [heq] at hp ⊢
  · exact hl₁.step_quiet rfl hp.frame hp.moved.1 hp.moved.2
  · obtain ⟨hmsgs, hcopies⟩ := hp.moved
    obtain ⟨id, hasked, hid⟩ := hl₁.receiver d src c hd
    rw [Follows, History.delivered_cons hcopies, History.deliveryOf_message hsent hasked]
    refine ⟨hl₁.deliver (fun p => ?_) hla (fun y d' b hy => ?_) ?_ (fun _ hm => ?_)
      (fun _ hc => ?_), fun p hpi => ?_⟩
    · by_cases hpd : p = d
      · subst hpd; simp
      · simp [hpd]
    · have hyd : y ≠ d := by
        rintro rfl
        simp at hy
      have hb : s.buffer y = some b := State.buffer_eq_some.mpr (.inl ⟨d', by simpa [hyd] using hy⟩)
      have hdc : s.buffer d = some c := State.buffer_eq_some.mpr (.inr ⟨src, hd⟩)
      have happ := hl₁.apart y d b c hyd hb hdc
      rw [hmsgs]
      exact Function.update_of_ne happ _ _
    · exact .message _ ⟨id, d, sourceCode src, _⟩ rfl
        ((sourceCode_takes (x := h.kernel.pProcReady)).mpr ht).symm hsrc
    · obtain rfl := Option.some.inj hm
      exact ⟨hl.time_fresh.1, hl.time_fresh.2.2, _, hsent, by simp [hne.symm, hrun]⟩
    · obtain rfl := Option.some.inj hc
      exact ⟨hid, (hl₁.askedId d _ hasked).1, _, hasked, by simp⟩
    · by_cases hpd : p = d
      · subst hpd
        refine .inr ⟨_, rfl, .inr ⟨src, c, hd, ?_⟩⟩
        rw [← (History.enter_of_ne hne).2, hasked]
      · exact .inl (by simp [hpd])
  · obtain ⟨hmsgs, hcopies⟩ := hp.moved
    rw [Follows, History.delivered_nil hcopies]
    refine ⟨hl₁.sleep (x := h.kernel.pProcReady) rfl hla hmsgs (fun d' b hph => ?_)
      (fun src b hph => by simp at hph) (fun q a b hq hqa hxb => ?_), fun p hpi => .inl ?_⟩
    · obtain ⟨rfl, rfl⟩ : d = d' ∧ m = b := by simpa using hph
      exact ⟨_, hsent, hsrc, hl.time_fresh.1⟩
    · obtain rfl : m = b := by simpa [State.buffer, State.enqueue] using hxb
      exact ha.caller he hk hrun hqa
    · have : p ≠ h.kernel.pProcReady := by
        rintro rfl
        exact hpi hrun
      simp [State.enqueue, this]

theorem Ledger.step_interrupt {src : Source Pid} {id : Nat} (hl : Ledger (h.enter e) s)
    (hp : (e.prepare h.kernel).Passed (s', .interrupt p b) k')
    (hasked : (h.enter e).asked p =
      some ⟨id, p, sourceCode src, (h.enter e).kernel.la p b⟩)
    (hid : id ∉ (h.enter e).answeredIds) (ht : src.TakesInterrupt)
    (hphase : s'.phase = Function.update s.phase p .idle)
    (hbuffers : ∀ y d b', y ≠ p → s.phase y = .sending d b' →
      (h.enter e).kernel.la y b' ≠ (h.enter e).kernel.la p b)
    (hwas : s.phase p = .idle ∨
      (∃ src b, s.phase p = .receiving src b) ∧ (h.enter e).asked p = h.asked p) :
    Follows h e k' t s s' := by
  obtain ⟨m, hsrc, htype, hmsgs, hcopies⟩ := hp.moved
  rw [Follows, History.delivered_cons hcopies, History.deliveryOf_interrupt hasked]
  refine ⟨hl.deliver (fun q => ?_) (fun q b => hp.frame.la b) (fun y d b' hy => ?_) ?_
    (fun _ hm => by simp at hm) (fun _ hc => ?_), fun q hq => ?_⟩
  · by_cases hqp : q = p
    · subst hqp; simp [hphase]
    · simp [hphase, hqp]
  · have hyp : y ≠ p := by
      rintro rfl
      simp [hphase] at hy
    rw [hmsgs]
    exact Function.update_of_ne (hbuffers y d b' hyp (by simpa [hphase, hyp] using hy)) _ _
  · exact .interrupt ⟨id, p, sourceCode src, _⟩ m (sourceCode_takesInterrupt.mpr ht).symm hsrc htype
  · obtain rfl := Option.some.inj hc
    exact ⟨hid, (hl.askedId p _ hasked).1, _, hasked, by simp [hphase]⟩
  · by_cases hqp : q = p
    · subst hqp
      rcases hwas with hidle | ⟨⟨src', b', hr⟩, hsame⟩
      · exact absurd hidle hq
      · exact .inr ⟨_, rfl, .inr ⟨src', b', hr, by rw [← hsame, hasked]⟩⟩
    · exact .inl (by simp [hphase, hqp])

theorem Ledger.step_receive {m : Addr} {src : Source Pid} (hl : Ledger h s)
    (hk : h.kernel.Implements s) (hs : s.WellFormed)
    (hrun : s.phase h.kernel.pProcReady = .idle)
    (he : e = .sendrec receive (sourceCode src) m) (ha : e.Apart h.kernel)
    (hp : (e.prepare h.kernel).Passed (s.receive h.kernel.pProcReady src m) k') :
    Follows h e k' t s (s.receive h.kernel.pProcReady src m).1 := by
  have hl₁ := hl.enter hk ha hrun
  have hla (p b) : k'.la p b = (h.enter e).kernel.la p b := hp.frame.la b
  have hasked := History.enter_receive (h := h) he
  rcases s.receive_cases h.kernel.pProcReady src m with
    ⟨-, ht, heq⟩ | ⟨-, x, c, hoffer, heq⟩ | ⟨-, -, heq⟩ <;> rw [heq] at hp ⊢
  · refine hl₁.step_interrupt hp hasked hl.time_fresh.2.1 ht ?_ (fun y d b' _ hy => ?_) (.inl hrun)
    · rw [State.phase_setPending, ← hrun, Function.update_eq_self]
    · exact ha.caller he hk hrun (State.buffer_eq_some.mpr (.inl ⟨d, hy⟩))
  · obtain ⟨hmsgs, hcopies⟩ := hp.moved
    obtain ⟨hx, ht, -⟩ := hs.offer_eq_some hoffer
    obtain ⟨id, hsent, hsrc, hid⟩ := hl₁.sender x _ c hx
    have hxr : x ≠ h.kernel.pProcReady := by
      rintro rfl
      simp [hrun] at hx
    rw [Follows, History.delivered_cons hcopies, History.deliveryOf_message hsent hasked]
    refine ⟨hl₁.deliver (fun p => ?_) hla (fun y d b hy => ?_) ?_ (fun _ hm => ?_)
      (fun _ hc => ?_), fun p hpi => ?_⟩
    · by_cases hpx : p = x
      · subst hpx; simp [State.dequeue]
      · simp [State.dequeue, hpx]
    · have hyx : y ≠ x := by
        rintro rfl
        simp [State.dequeue] at hy
      have hb : s.buffer y = some b :=
        State.buffer_eq_some.mpr (.inl ⟨d, by simpa [State.dequeue, hyx] using hy⟩)
      rw [hmsgs]
      exact Function.update_of_ne (ha.caller he hk hrun hb) _ _
    · exact .message _ ⟨h.time, h.kernel.pProcReady, sourceCode src, _⟩ rfl
        (sourceCode_takes.mpr ht).symm hsrc
    · obtain rfl := Option.some.inj hm
      exact ⟨hid, (hl₁.sentId x _ hsent).1, _, hsent, by simp [State.dequeue]⟩
    · obtain rfl := Option.some.inj hc
      exact ⟨hl.time_fresh.2.1, hl.time_fresh.2.2, _, hasked, by simp [State.dequeue, hxr.symm, hrun]⟩
    · by_cases hpx : p = x
      · subst hpx
        refine .inr ⟨_, rfl, .inl ⟨_, _, hx, ?_⟩⟩
        rw [← (History.enter_of_ne hxr).1, hsent]
      · exact .inl (by simp [State.dequeue, hpx])
  · obtain ⟨hmsgs, hcopies⟩ := hp.moved
    rw [Follows, History.delivered_nil hcopies]
    refine ⟨hl₁.sleep (x := h.kernel.pProcReady) rfl hla hmsgs (fun d b hph => by simp at hph)
      (fun src' b hph => ?_) (fun q a b hq hqa hxb => ?_), fun p hpi => .inl ?_⟩
    · obtain ⟨rfl, rfl⟩ : src = src' ∧ m = b := by simpa using hph
      exact ⟨_, hasked, hl.time_fresh.2.1⟩
    · obtain rfl : m = b := by simpa [State.buffer] using hxb
      exact ha.caller he hk hrun hqa
    · have : p ≠ h.kernel.pProcReady := by
        rintro rfl
        exact hpi hrun
      simp [this]

theorem Ledger.step_notify (hl : Ledger (h.enter e) s)
    (hsame : (h.enter e).asked = h.asked)
    (hp : (e.prepare h.kernel).Passed (s.notify p) k') : Follows h e k' t s (s.notify p).1 := by
  rcases s.notify_cases p with ⟨src, c, hr, ht, heq⟩ | heq <;> rw [heq] at hp ⊢
  · obtain ⟨id, hasked, hid⟩ := hl.receiver p src c hr
    refine hl.step_interrupt hp hasked hid ht rfl (fun y d b' hy hyd => ?_)
      (.inr ⟨⟨src, c, hr⟩, by rw [hsame]⟩)
    exact hl.apart y p b' c hy (State.buffer_eq_some.mpr (.inl ⟨d, hyd⟩))
      (State.buffer_eq_some.mpr (.inr ⟨src, hr⟩))
  · exact hl.step_quiet rfl hp.frame hp.moved.1 hp.moved.2

theorem Ledger.step {o : Ipc × Effect Pid Addr} (hl : Ledger h s) (hi : h.Inv s)
    (hrun : h.kernel.Runs) (ha : e.Apart h.kernel) (ho : e.Outcome h.kernel s o)
    (hp : (e.prepare h.kernel).Passed o k') : Follows h e k' t s o.1 := by
  have hidle := hi.implements.idle_of_runs hrun
  have hl₁ := hl.enter hi.implements ha hidle
  cases e with
  | sendrec function srcDest m =>
    obtain ⟨call, hv, -, rfl, rfl, rfl⟩ := ho
    cases call with
    | send d => exact hl.step_send hi.implements hidle hv rfl ha hp
    | receive src => exact hl.step_receive hi.implements hi.wellFormed hidle rfl ha hp
  | informInt task =>
    obtain ⟨-, rfl⟩ := ho
    exact hl₁.step_notify rfl hp
  | clock =>
    rcases ho with rfl | rfl
    · exact hl₁.step_quiet rfl hp.frame hp.moved.1 hp.moved.2
    · exact hl₁.step_notify rfl hp
  | write la content =>
    obtain rfl := ho
    exact hl₁.step_quiet rfl hp.frame hp.moved.1 hp.moved.2
  | key pressed =>
    obtain rfl := ho
    exact hl₁.step_quiet rfl hp.frame hp.moved.1 hp.moved.2

theorem History.Initial.ledger (h₀ : h.Initial) : Ledger h initialIpc := by
  have hphase (p : Pid) : initialIpc.phase p = .idle ∨ initialIpc.phase p = .free := by
    by_cases hp : p.val < nrTasks + nrNativeProcs <;> simp [initialIpc, hp]
  constructor
  · intro x d b hx
    rcases hphase x with h | h <;> simp [h] at hx
  · intro x src b hx
    rcases hphase x with h | h <;> simp [h] at hx
  · intro p q a b _ hpa
    rcases hphase p with h | h <;> simp [State.buffer, h] at hpa
  all_goals simp [h₀.sent, h₀.asked, h₀.deliveries, deliveredIds, answeredIds]

/-- What the ledger of a run always says. -/
structure RendezvousInvariant (h : History) : Prop where
  sound : ∀ δ ∈ h.deliveries, δ.Sound
  deliveredOnce : h.deliveredIds.Nodup
  answeredOnce : h.answeredIds.Nodup
  undelivered : ∀ p, (h.kernel.procTable p).isSending →
    ∃ m, h.sent p = some m ∧ m.sender = p ∧ m.id ∉ h.deliveredIds
  unanswered : ∀ p, (h.kernel.procTable p).isReceiving →
    ∃ c, h.asked p = some c ∧ c.receiver = p ∧ c.id ∉ h.answeredIds
  emptyQueue : ∀ d, (h.kernel.procTable d).isReceiving →
    (h.kernel.procTable d).pRecvfrom = anyTask → (h.kernel.procTable d).qSending = none

/-- What one event does: a sender leaves SENDING only when its message is copied, a receiver
leaves RECEIVING only with one message for its call, and a RECEIVE from `ANY` takes the sender
that blocked first. -/
structure RendezvousStep (h : History) (e : Event) (h' : History) : Prop where
  sender : ∀ p, (h.kernel.procTable p).isSending → ¬ (h'.kernel.procTable p).isSending →
    ∃ δ m, h'.deliveries = δ :: h.deliveries ∧ δ.msg = some m ∧ h.sent p = some m
  receiver : ∀ p, (h.kernel.procTable p).isReceiving → ¬ (h'.kernel.procTable p).isReceiving →
    ∃ δ c, h'.deliveries = δ :: h.deliveries ∧ δ.call = some c ∧ h.asked p = some c
  first : ∀ m, e = .sendrec receive anyTask m →
    (h.kernel.procTable h.kernel.pProcReady).hasIntMsg = 0 →
    (∃ x, h.kernel.SendsTo x h.kernel.pProcReady) →
    ∃ x δ m, h.kernel.SendsTo x h.kernel.pProcReady ∧
      (∀ y, y ≠ x → h.kernel.SendsTo y h.kernel.pProcReady → h.blockedAt x < h.blockedAt y) ∧
      h'.deliveries = δ :: h.deliveries ∧ δ.msg = some m ∧ h.sent x = some m ∧
      ¬ (h'.kernel.procTable x).isSending

theorem Ledger.invariant (hl : Ledger h s) (hi : h.Inv s) : RendezvousInvariant h where
  sound := hl.sound
  deliveredOnce := hl.delivered.1
  answeredOnce := hl.answered.1
  undelivered p hp := by
    obtain ⟨d, b, hph⟩ := (hi.implements.proc p).isSending.mp hp
    obtain ⟨id, hsent, -, hid⟩ := hl.sender p d b hph
    exact ⟨_, hsent, rfl, hid⟩
  unanswered p hp := by
    obtain ⟨src, b, hph⟩ := (hi.implements.proc p).isReceiving.mp hp
    obtain ⟨id, hasked, hid⟩ := hl.receiver p src b hph
    exact ⟨_, hasked, rfl, hid⟩
  emptyQueue d hd hany := by
    have hproc := hi.implements.proc d
    obtain ⟨src, b, hph⟩ := hproc.isReceiving.mp hd
    rw [hph] at hproc
    have hsrc : src = .any := by
      have hcode := hproc.2.2.2.1.symm.trans hany
      cases src with
      | any => rfl
      | interrupt => exact absurd hcode (by decide)
      | only q => exact absurd hcode q.val_lt.1.ne
    have hqueue := hi.implements.queue d
    cases hq : s.queue d with
    | nil => rw [hq] at hqueue; exact hqueue
    | cons x l =>
      exact absurd (hsrc ▸ trivial) (hi.wellFormed.unmatched d src b hph x (by simp [hq]))

/-- The run invariant: the kernel implements a state whose ledger is in order. -/
theorem reached_ledger {o : Option Halt} (hr : kernelMachine.Reached ApartEvent h o) :
    (∃ s, h.Inv s ∧ Ledger h s) ∧ (o ≠ some .diverge → h.kernel.Runs) := by
  refine hr.invariant
    (I := fun h o => (∃ s, h.Inv s ∧ Ledger h s) ∧ (o ≠ some Halt.diverge → h.kernel.Runs))
    (fun h (h₀ : h.Initial) => ⟨⟨_, h₀.inv, h₀.ledger⟩, fun _ => h₀.runs⟩) ?_
  rintro h e - ⟨⟨s, hi, hl⟩, hruns⟩ ⟨hv, ha⟩
  have hrun := hruns (by simp)
  obtain ⟨o, ho, hp, hr⟩ := hi.step_passed hrun hv
  refine ⟨⟨_, hi.step hrun ho hp, ?_⟩, hr⟩
  change Ledger (History.step e h).1 o.1
  rw [History.step_eq]
  exact (hl.step hi hrun ha ho hp).1

/-- A RECEIVE from `ANY` without a pending interrupt takes the head of the queue. -/
theorem History.Inv.takes_first {o : Ipc × Effect Pid Addr} {m : Addr} (hi : h.Inv s)
    (ho : (Event.sendrec receive anyTask m).Outcome h.kernel s o)
    (hint : (h.kernel.procTable h.kernel.pProcReady).hasIntMsg = 0)
    (hsome : ∃ x, h.kernel.SendsTo x h.kernel.pProcReady) :
    ∃ x, h.kernel.SendsTo x h.kernel.pProcReady ∧
      (∀ y, y ≠ x → h.kernel.SendsTo y h.kernel.pProcReady → h.blockedAt x < h.blockedAt y) ∧
      o.1.phase x = .idle := by
  obtain ⟨call, -, -, hf, hsd, rfl⟩ := ho
  have hcall : call = .receive .any := by
    cases call with
    | send d => exact absurd hf (by decide : receive ≠ send)
    | receive src =>
      cases src with
      | any => rfl
      | interrupt => exact absurd hsd (by decide)
      | only q => exact absurd hsd q.val_lt.1.ne'
  subst hcall
  have hpending : ¬ s.pending h.kernel.pProcReady := by
    rw [← hi.implements.pending]
    exact fun h => h hint
  have hmem (y : Pid) : h.kernel.SendsTo y h.kernel.pProcReady ↔
      y ∈ s.queue h.kernel.pProcReady := by
    rw [hi.wellFormed.queued, hi.implements.waits_eq]
    rfl
  rcases s.receive_cases h.kernel.pProcReady .any m with
    ⟨hp, -⟩ | ⟨-, x, c, hoffer, heq⟩ | ⟨-, hoffer, -⟩
  · exact absurd hp hpending
  · obtain ⟨hx, -, l₁, l₂, hq, hfirst⟩ := hi.wellFormed.offer_eq_some hoffer
    have hnil : l₁ = [] := List.eq_nil_iff_forall_not_mem.mpr fun y hy => hfirst y hy trivial
    rw [hnil, List.nil_append] at hq
    have hord := hi.ordered h.kernel.pProcReady
    rw [hq] at hord
    refine ⟨x, (hmem x).mpr (by simp [hq]), fun y hy hys => ?_, by simp [Call.run, heq, State.dequeue]⟩
    have hmy := (hmem y).mp hys
    rw [hq] at hmy
    exact List.rel_of_pairwise_cons hord ((List.mem_cons.mp hmy).resolve_left hy)
  · obtain ⟨x, hx⟩ := hsome
    exact absurd trivial (hi.wellFormed.offer_eq_none hoffer x ((hmem x).mp hx))

/-- The handover, in buffers apart from each other. -/
def History.apartHandover : History × Option Halt :=
  (kernelMachine.run ApartEvent Dlos.handover (History.begin, none)).get (by decide +kernel)

theorem History.apartHandover_reached :
    kernelMachine.Reached ApartEvent History.apartHandover.1 History.apartHandover.2 :=
  have h : kernelMachine.run ApartEvent Dlos.handover (History.begin, none) = some History.apartHandover :=
    (Option.some_get _).symm
  Machine.Reached.of_run (.start History.begin_initial) h

end

end Dlos
