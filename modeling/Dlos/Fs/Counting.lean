import Dlos.Library.Sharing
import Dlos.Fs.Requests

/-!
# References

The places of the processes hold descriptors, and the descriptors lead to inodes. `fd_cnt` and `i_cnt`
count them, and opening, closing, forking and exiting keep the counts right.
-/

namespace Dlos

open Program Bytes Sharing

/-- A place for an open file: a process and its file number. -/
abbrev FilePlace : Type := Pid × Fin nrFiles

/-- The descriptor in a place. -/
def Fs.held (s : Fs) (x : FilePlace) : Option (Fin nrFileDesc) := s.filp x.1 x.2

/-- With the descriptors `f` in the places the counts are right; besides the places inode `q` has
`extra q` references. -/
def Fs.Counts (s : Fs) (f : FilePlace → Option (Fin nrFileDesc)) (extra : Fin nrInode → Int) : Prop :=
  Counted f (fun d => (s.fDescTable d).fdInode) (fun d => (s.fDescTable d).fdCnt)
    (fun q => (s.inodeTable q).iCnt) extra

/-- The descriptor in a place is given up. -/
def Fs.dropped (s : Fs) (pid : Pid) (fd : Fin nrFiles) (d : Fin nrFileDesc) (q : Fin nrInode) : Fs :=
  ((s.setInode q fun i => { i with iCnt := i.iCnt - 1 }).setDesc d fun f =>
    { f with fdCnt := f.fdCnt - 1, fdInode := if f.fdCnt - 1 = 0 then none else f.fdInode }).setFilp
      pid fd none

/-- Descriptor `d`, which leads to inode `q`, is counted once more. -/
def Fs.shared (s : Fs) (d : Fin nrFileDesc) (q : Fin nrInode) : Fs :=
  (s.setDesc d fun f => { f with fdCnt := f.fdCnt + 1 }).setInode q fun i => { i with iCnt := i.iCnt + 1 }

section

variable {s t u : Fs} {f : FilePlace → Option (Fin nrFileDesc)} {extra extra' : Fin nrInode → Int}
  {pid : Pid} {fd : Fin nrFiles} {d : Fin nrFileDesc} {q : Fin nrInode} {flags : Int}
  {E : Halt → Fs → Prop}

theorem held_setFilp {o : Option (Fin nrFileDesc)} :
    (s.setFilp pid fd o).held = Function.update s.held (pid, fd) o := by
  funext x
  obtain ⟨pid', fd'⟩ := x
  change Function.update s.filp pid (Function.update (s.filp pid) fd o) pid' fd' = _
  by_cases hp : pid' = pid
  · subst hp
    rw [Function.update_self]
    by_cases hf : fd' = fd
    · subst hf
      rw [Function.update_self, Function.update_self]
    · have hne : (pid', fd') ≠ (pid', fd) := fun he => hf (Prod.mk.inj he).2
      rw [Function.update_of_ne hf, Function.update_of_ne hne]
      rfl
  · have hne : (pid', fd') ≠ (pid, fd) := fun he => hp (Prod.mk.inj he).1
    rw [Function.update_of_ne hp, Function.update_of_ne hne]
    rfl

theorem field_update {ι α β : Type} [DecidableEq ι] {T : ι → α} {i : ι} {v : α} (g : α → β) :
    (fun j => g (Function.update T i v j)) = Function.update (fun j => g (T j)) i (g v) :=
  funext fun j => Function.apply_update (fun _ => g) T i v j

/-- Only these fields count. -/
theorem Fs.Counts.congr (h : s.Counts f extra)
    (hdesc : ∀ d, (u.fDescTable d).fdInode = (s.fDescTable d).fdInode)
    (hcnt : ∀ d, (u.fDescTable d).fdCnt = (s.fDescTable d).fdCnt)
    (hinode : ∀ q, (u.inodeTable q).iCnt = (s.inodeTable q).iCnt) : u.Counts f extra := by
  rw [Fs.Counts, funext hdesc, funext hcnt, funext hinode]
  exact h

theorem Fs.Counts.opened (h : s.Counts s.held extra) (hfree : s.filp pid fd = none)
    (hdesc : (s.fDescTable d).fdInode = none) (hfilp : t.filp = s.filp) (htable : t.fDescTable = s.fDescTable)
    (hcnt : ∀ q', (t.inodeTable q').iCnt = if q' = q then (s.inodeTable q).iCnt + 1 else
      (s.inodeTable q').iCnt) : (t.opened pid fd d q flags).Counts (t.opened pid fd d q flags).held extra := by
  have htake := h.take (x := (pid, fd)) (q := q) hfree hdesc
  have hheld : (t.opened pid fd d q flags).held = Function.update s.held (pid, fd) (some d) := by
    have hsame : t.held = s.held := by
      funext x
      rw [Fs.held, hfilp, Fs.held]
    rw [← hsame, ← held_setFilp]
    rfl
  have hentry : (t.opened pid fd d q flags).fDescTable = Function.update s.fDescTable d
      { fdInode := some q, fdMode := flags, fdCnt := 1, fdPos := 0 } := by
    rw [← htable]
    rfl
  rw [hheld, Fs.Counts, hentry, field_update FileDesc.fdInode, field_update FileDesc.fdCnt]
  convert htake using 1
  funext q'
  rw [Function.update_apply]
  exact hcnt q'

theorem Fs.Counts.dropped (h : s.Counts s.held extra) (hfd : s.filp pid fd = some d)
    (hd : (s.fDescTable d).fdInode = some q) :
    (s.dropped pid fd d q).Counts (s.dropped pid fd d q).held extra := by
  have hdrop := h.drop (x := (pid, fd)) hfd hd
  have hheld : (s.dropped pid fd d q).held = Function.update s.held (pid, fd) none := held_setFilp
  have hentry : (s.dropped pid fd d q).fDescTable = Function.update s.fDescTable d { s.fDescTable d with
      fdCnt := (s.fDescTable d).fdCnt - 1
      fdInode := if (s.fDescTable d).fdCnt - 1 = 0 then none else (s.fDescTable d).fdInode } := rfl
  have hinode : (s.dropped pid fd d q).inodeTable = Function.update s.inodeTable q
      { s.inodeTable q with iCnt := (s.inodeTable q).iCnt - 1 } := rfl
  rw [hheld, Fs.Counts, hentry, hinode, field_update FileDesc.fdInode, field_update FileDesc.fdCnt,
    field_update Inode.iCnt]
  convert hdrop using 1
  split_ifs
  · rfl
  · exact Function.update_eq_self _ _

theorem Fs.Counts.shared (h : s.Counts f extra) (hx : f (pid, fd) = none)
    (hd : (s.fDescTable d).fdInode = some q) :
    (s.shared d q).Counts (Function.update f (pid, fd) (some d)) extra := by
  have hshare := h.share (x := (pid, fd)) hx hd
  have hentry : (s.shared d q).fDescTable = Function.update s.fDescTable d
      { s.fDescTable d with fdCnt := (s.fDescTable d).fdCnt + 1 } := rfl
  have hinode : (s.shared d q).inodeTable = Function.update s.inodeTable q
      { s.inodeTable q with iCnt := (s.inodeTable q).iCnt + 1 } := rfl
  rw [Fs.Counts, hentry, hinode, field_update FileDesc.fdInode, field_update FileDesc.fdCnt,
    field_update Inode.iCnt, Function.update_eq_self_iff.mpr rfl]
  exact hshare

/-! ## Closing -/

theorem dropped_eq : s.dropped pid fd d q = (if (s.fDescTable d).fdCnt - 1 = 0 then
      ((s.setInode q fun i => { i with iCnt := i.iCnt - 1 }).setDesc d fun f =>
        { f with fdCnt := f.fdCnt - 1 }).setDesc d ({ · with fdInode := none })
    else (s.setInode q fun i => { i with iCnt := i.iCnt - 1 }).setDesc d fun f =>
      { f with fdCnt := f.fdCnt - 1 }).setFilp pid fd none := by
  split_ifs with hlast
  · simp only [Fs.dropped, Fs.setInode, Fs.setDesc, Function.update_self, Function.update_idem, hlast, if_true]
  · simp only [Fs.dropped, Fs.setInode, Fs.setDesc, hlast, if_false]

/-- A descriptor is counted once less, and freed when that was the last time. -/
theorem wp_dropDesc {Q : Unit → Fs → Prop} (hQ : Q () (s.dropped pid fd d q)) :
    wp (setDesc d fun f => { f with fdCnt := f.fdCnt - 1 })
      (fun _ t => wp (onlyIf ((s.fDescTable d).fdCnt - 1 = 0) (setDesc d ({ · with fdInode := none })))
        (fun _ t => wp (setFilp pid fd none) Q E t) E t) E
      (s.setInode q fun i => { i with iCnt := i.iCnt - 1 }) := by
  rw [dropped_eq] at hQ
  rw [wp_setDesc, wp_onlyIf]
  refine ⟨fun hlast => ?_, fun hlast => ?_⟩
  · rw [if_pos hlast] at hQ
    exact hQ
  · rw [if_neg hlast] at hQ
    exact hQ

theorem wp_doClose {Q : Int → Fs → Prop}
    (hQ : ∀ fd d q, s.filp s.pcaller fd = some d → (s.fDescTable d).fdInode = some q →
      Q 0 (s.dropped s.pcaller fd d q)) : wp doClose Q (fun _ _ => True) s := by
  rw [doClose, wp_bind, wp_get, wp_bind, filpIndex]
  split
  case isFalse => trivial
  case isTrue hfd =>
    rw [wp_pure, wp_bind]
    cases hd : s.filp s.pcaller ⟨s.fsMsg.fd.toNat, toNat_lt hfd⟩ with
    | none => trivial
    | some d =>
      rw [wp_deref_some, wp_bind]
      cases hq : (s.fDescTable d).fdInode with
      | none => trivial
      | some q =>
        rw [wp_deref_some, wp_bind, putInode, wp_bind, wp_get, wp_bind, wp_assert]
        refine ⟨fun _ => ?_, fun _ => trivial⟩
        rw [wp_setInode]
        simp only [wp_bind]
        exact wp_dropDesc (hQ _ d q hd hq)

theorem wp_exitFilp {Q : Unit → Fs → Prop} (hnone : s.filp pid fd = none → Q () s)
    (hdrop : ∀ d q, s.filp pid fd = some d → (s.fDescTable d).fdInode = some q →
      Q () (s.dropped pid fd d q))
    (hE : ∀ d, s.filp pid fd = some d → (s.fDescTable d).fdInode = none → ∀ e t, E e t) :
    wp (exitFilp pid fd) Q E s := by
  rw [exitFilp, wp_bind, wp_get]
  cases hd : s.filp pid fd with
  | none => exact hnone hd
  | some d =>
    dsimp only
    rw [wp_bind]
    cases hq : (s.fDescTable d).fdInode with
    | none => exact hE d hd hq _ _
    | some q =>
      rw [wp_deref_some, wp_bind, wp_setInode]
      simp only [wp_bind]
      exact wp_dropDesc (hdrop d q hd hq)

/-- A process that exits gives up its descriptors one after the other, and has none in the end. -/
theorem wp_fsExit {I : Fs → Prop} (hdrop : ∀ t pid fd d q, I t → t.filp pid fd = some d →
      (t.fDescTable d).fdInode = some q → I (t.dropped pid fd d q)) (hs : I s)
    (hE : ∀ t pid fd d, I t → t.filp pid fd = some d → (t.fDescTable d).fdInode = none → ∀ e u, E e u)
    (hpid : pidOf s.fsMsg.pid = none → ∀ e u, E e u) :
    wp fsExit (fun r u => r = 0 ∧ I u ∧ ∃ pid, pidOf s.fsMsg.pid = some pid ∧ ∀ i, u.filp pid i = none) E s := by
  rw [fsExit, wp_bind, wp_get, wp_bind, procAt]
  cases hcaller : pidOf s.fsMsg.pid with
  | none => exact hpid hcaller _ _
  | some pid =>
    rw [wp_pure, wp_bind]
    refine (wp_forM_upTo (I := fun l t => I t ∧ ∀ i ∈ l, t.filp pid i = none)
      ⟨hs, fun i hi => absurd hi List.not_mem_nil⟩ fun l₁ i l₂ _ t ht => ?_).imp fun _ u hu => ?_
    · have hmem (j : Fin nrFiles) : j ∈ l₁ ++ [i] ↔ j ∈ l₁ ∨ j = i := by simp
      refine wp_exitFilp (fun hnone => ⟨ht.1, fun j hj => ?_⟩) (fun d q hd hq => ⟨hdrop t pid i d q ht.1 hd hq,
        fun j hj => ?_⟩) fun d hd hq => hE t pid i d ht.1 hd hq
      · rcases (hmem j).mp hj with hj | rfl
        · exact ht.2 j hj
        · exact hnone
      · change Function.update t.filp pid (Function.update (t.filp pid) i none) pid j = none
        rw [Function.update_self, Function.update_apply]
        split_ifs with hji
        · rfl
        · exact ht.2 j (((hmem j).mp hj).resolve_right hji)
    · exact ⟨rfl, hu.1, pid, rfl, fun i => hu.2 i (List.mem_finRange i)⟩

/-! ## Forking -/

/-- The descriptors in the places, when those of a process are counted up to a list of its files only. -/
def pending (f : FilePlace → Option (Fin nrFileDesc)) (child : Pid) (l : List (Fin nrFiles))
    (x : FilePlace) : Option (Fin nrFileDesc) := if x.1 = child ∧ x.2 ∉ l then none else f x

theorem pending_of_forall {child : Pid} {l : List (Fin nrFiles)} (h : ∀ i, i ∈ l) : pending f child l = f :=
  funext fun x => if_neg fun hx => hx.2 (h x.2)

/-- The next file. -/
theorem pending_append {child : Pid} {l : List (Fin nrFiles)} {i : Fin nrFiles} :
    pending f child (l ++ [i]) = Function.update (pending f child l) (child, i) (f (child, i)) := by
  funext x
  obtain ⟨pid, j⟩ := x
  by_cases hx : (pid, j) = (child, i)
  · obtain ⟨rfl, rfl⟩ := Prod.mk.inj hx
    rw [Function.update_self, pending, if_neg (by simp)]
  · rw [Function.update_of_ne hx, pending, pending]
    have hmem : pid = child → (j ∉ l ++ [i] ↔ j ∉ l) := fun hp => by
      have hj : j ≠ i := fun hj => hx (by rw [hp, hj])
      simp [hj]
    refine if_congr ?_ rfl rfl
    exact and_congr_right hmem

theorem wp_forkFilp {Q : Unit → Fs → Prop} (hnone : s.filp pid fd = none → Q () s)
    (hshare : ∀ d q, s.filp pid fd = some d → (s.fDescTable d).fdInode = some q → Q () (s.shared d q))
    (hE : ∀ d, s.filp pid fd = some d → (s.fDescTable d).fdInode = none → ∀ e t, E e t) :
    wp (forkFilp pid fd) Q E s := by
  rw [forkFilp, wp_bind, wp_get]
  cases hd : s.filp pid fd with
  | none => exact hnone hd
  | some d =>
    rw [wp_bind, wp_setDesc]
    cases hq : (s.fDescTable d).fdInode with
    | none => exact hE d hd hq _ _
    | some q =>
      rw [wp_bind, wp_deref_some, wp_setInode]
      exact hshare d q hd hq

/-- The descriptors that a child has from its parent are counted one after the other. -/
theorem wp_fsFork {I : Fs → Prop} {child : Pid} (hchild : pidOf s.fsMsg.pid = some child)
    (hshare : ∀ t d q, I t → (t.fDescTable d).fdInode = some q → I (t.shared d q)) (hs : I s)
    (hE : ∀ t i d, I t → s.filp child i = some d → (t.fDescTable d).fdInode = none → ∀ e u, E e u) :
    wp fsFork (fun r u => r = 0 ∧ I u ∧ u.filp = s.filp ∧
      ∀ extra, s.Counts (pending s.held child []) extra → u.Counts u.held extra) E s := by
  rw [fsFork, wp_bind, wp_get, wp_bind, procAt, hchild]
  dsimp only
  rw [wp_pure, wp_bind]
  refine (wp_forM_upTo (I := fun l t => I t ∧ t.filp = s.filp ∧
      ∀ extra, s.Counts (pending s.held child []) extra → t.Counts (pending s.held child l) extra)
    ⟨hs, rfl, fun _ => id⟩ fun l₁ i l₂ hl t ht => ?_).imp fun _ u hu => ?_
  · obtain ⟨ht, hfilp, hcounts⟩ := ht
    have hnodup : (l₁ ++ i :: l₂).Nodup := hl ▸ List.nodup_finRange nrFiles
    have hnew : i ∉ l₁ := fun hi => (List.nodup_append.mp hnodup).2.2 i hi i List.mem_cons_self rfl
    have hnone : pending s.held child l₁ (child, i) = none := if_pos ⟨rfl, hnew⟩
    have hheld : t.filp child i = s.held (child, i) := by rw [hfilp, Fs.held]
    refine wp_forkFilp (fun hfree => ⟨ht, hfilp, fun extra hs => ?_⟩)
      (fun d q hd hq => ⟨hshare t d q ht hq, hfilp, fun extra hs => ?_⟩) fun d hd hq => hE t i d ht (hfilp ▸ hd) hq
    · rw [pending_append, ← hheld, hfree, ← hnone, Function.update_eq_self]
      exact hcounts extra hs
    · rw [pending_append, ← hheld, hd]
      exact (hcounts extra hs).shared hnone hq
  · obtain ⟨hu, hfilp, hcounts⟩ := hu
    have hheld : u.held = s.held := by
      funext x
      rw [Fs.held, hfilp, Fs.held]
    refine ⟨rfl, hu, hfilp, fun extra hs => ?_⟩
    have hall := hcounts extra hs
    rwa [pending_of_forall List.mem_finRange, ← hheld] at hall

end

end Dlos
