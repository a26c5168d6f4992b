import Dlos.Fs.Device
import Dlos.Fs.DiskLog
import Dlos.Fs.Link

/-!
# What the work on the disk leaves alone

Looking names up, taking bits from the maps, writing an inode back and logging change the disk, the
memory and the log's position. Whatever does not depend on these stays.
-/

namespace Dlos

open Program Bytes

/-- The condition depends on nothing but the tables and the message. -/
def IgnoresIo (I : Fs → Prop) : Prop :=
  ∀ s D M n, I s → I { s with disk := D, mem := M, logPos := n }

namespace IgnoresIo

variable {I : Fs → Prop} (h : IgnoresIo I)

include h

theorem io {s : Fs} {D M : Store} (hs : I s) : I (s.io D M) := h s D M s.logPos hs

/-! ## The basic operations -/

theorem rwSector {ioType dev : Int} {pos : BitVec 32} {n : Nat} :
    Preserves I (rwSector ioType dev pos n) := fun _ hs =>
  wp_rwSector_of (h.io hs) (fun _ => h.io hs) fun _ => hs

theorem rdSect {dev x : Int} : Preserves I (rdSect dev x) := h.rwSector

theorem wrSect {dev x : Int} : Preserves I (wrSect dev x) := h.rwSector

theorem setBuf {i : Nat} {b : Byte} : Preserves I (setBuf i b) := fun _ hs => h.io hs

theorem memsetBuf {i n : Nat} {b : Byte} : Preserves I (memsetBuf i b n) := fun _ hs => h.io hs

theorem putBuf {i : Nat} {bs : List Byte} : Preserves I (putBuf i bs) := fun _ hs => h.io hs

theorem putBufWords {i : Nat} {ws : List (BitVec 32)} : Preserves I (putBufWords i ws) := fun _ hs =>
  h.io hs

omit h

theorem bufAt {i : Nat} : Preserves I (bufAt i) := .bind .get fun _ => .pure _

theorem bufWord {i : Nat} : Preserves I (bufWord i) := .bind .get fun _ => .pure _

theorem deInode {j : Nat} : Preserves I (deInode j) := .bind bufWord fun _ => .pure _

theorem deName {j : Nat} : Preserves I (deName j) := .bind .get fun _ => .pure _

theorem natOf {x : Int} : Preserves I (natOf x) := .ite (.pure _) (.throw _)

theorem deref {α : Type} {a : Option α} : Preserves I (deref a) := by
  cases a with
  | none => exact .throw _
  | some a => exact .pure a

theorem procAt {x : Int} : Preserves I (procAt x) := by
  unfold Dlos.procAt
  split
  · exact .pure _
  · exact .throw _

theorem filpIndex {fd : Int} : Preserves I (filpIndex fd) := by
  unfold Dlos.filpIndex
  split
  · exact .pure _
  · exact .throw _

theorem driverOf {dev : Int} : Preserves I (driverOf dev) := by
  unfold Dlos.driverOf
  split
  · exact .pure _
  · exact .throw _
  · exact .throw _

theorem getSuperBlock {dev : Int} : Preserves I (getSuperBlock dev) := by
  refine .bind .get fun _ => ?_
  split
  · exact .pure _
  · exact .throw _

theorem fsVa2la {pid : Pid} {va : Addr} : Preserves I (fsVa2la pid va) :=
  .bind .get fun _ => .bind (.onlyIf .ensure) fun _ => .pure _

theorem fetchPathname : Preserves I fetchPathname :=
  .bind .get fun _ => .bind procAt fun _ => .bind .ensure fun _ => .bind fsVa2la fun _ =>
    .bind natOf fun _ => .pure _

theorem stripPath {path : List Byte} : Preserves I (stripPath path) := .bind .get fun _ => .pure _

include h

theorem syncInode {p : Fin nrInode} : Preserves I (syncInode p) :=
  .bind .get fun _ => .bind getSuperBlock fun _ => .bind h.rdSect fun _ => .bind natOf fun _ =>
    .bind h.putBufWords fun _ => h.wrSect

/-! ## Looking a name up -/

omit h in
theorem searchEntries {filename : List Byte} {n m : Int} {fuel j : Nat} :
    Preserves I (searchEntries filename n fuel j m) := by
  induction fuel generalizing j m with
  | zero => exact .pure _
  | succ fuel ih =>
    exact .bind deName fun _ => .ite (.bind deInode fun _ => .pure _) (.ite (.pure _) ih)

theorem searchBlks {filename : List Byte} {dir : Inode} {n i m : Int} {fuel : Nat} :
    Preserves I (searchBlks filename dir n fuel i m) := by
  induction fuel generalizing i m with
  | zero => exact .pure _
  | succ fuel ih =>
    refine .bind h.rdSect fun _ => .bind searchEntries fun r => ?_
    cases r with
    | inl r => exact .pure r
    | inr m => exact ih

theorem searchFile {path : List Byte} : Preserves I (searchFile path) := by
  refine .bind stripPath fun r => ?_
  cases r with
  | none => exact .pure 0
  | some r => exact .bind deref fun _ => .bind .get fun _ => .ite (.pure _) h.searchBlks

/-! ## The bitmaps -/

theorem allocImapBytes {dev : Int} {i fuel j : Nat} : Preserves I (allocImapBytes dev i fuel j) := by
  induction fuel generalizing j with
  | zero => exact .pure _
  | succ fuel ih =>
    exact .bind bufAt fun _ => .ite ih (.bind h.setBuf fun _ => .bind h.wrSect fun _ => .pure _)

theorem allocImapBit {dev : Int} : Preserves I (allocImapBit dev) :=
  .bind getSuperBlock fun _ => .ite (.bind h.rdSect fun _ => h.allocImapBytes) (.throw _)

theorem takeBits {exp : String} {j fuel k left : Nat} : Preserves I (takeBits exp j fuel k left) := by
  induction fuel generalizing k left with
  | zero => exact .pure _
  | succ fuel ih =>
    exact .bind bufAt fun _ => .bind .ensure fun _ => .bind h.setBuf fun _ => .ite (.pure _) ih

theorem allocSmapBytes {n1stSect free : BitVec 32} {i fuel j left : Nat} :
    Preserves I (allocSmapBytes n1stSect i fuel j free left) := by
  induction fuel generalizing j free left with
  | zero => exact .pure _
  | succ fuel ih =>
    exact .ite (.pure _) (.ite (.bind bufAt fun _ => .ite ih (.bind h.takeBits fun _ => ih))
      (.bind h.takeBits fun _ => ih))

theorem allocSmapSects {dev : Int} {sb : SuperBlock} {fuel i left : Nat} {free : BitVec 32} :
    Preserves I (allocSmapSects dev sb fuel i free left) := by
  induction fuel generalizing i free left with
  | zero => exact .pure _
  | succ fuel ih =>
    exact .bind h.rdSect fun _ => .bind h.allocSmapBytes fun _ => .bind (.onlyIf h.wrSect) fun _ =>
      .ite (.pure _) ih

theorem allocSmapBit {dev : Int} {n : Nat} : Preserves I (allocSmapBit dev n) :=
  .bind getSuperBlock fun _ => .bind h.allocSmapSects fun _ => .bind .ensure fun _ => .pure _

theorem freeImapBit {dev num : Int} : Preserves I (freeImapBit dev num) :=
  .bind .ensure fun _ => .bind h.rdSect fun _ => .bind natOf fun _ => .bind natOf fun _ =>
    .bind bufAt fun _ => .bind .ensure fun _ => .bind h.setBuf fun _ => h.wrSect

theorem clearBits {j fuel k : Nat} {left : Int} : Preserves I (clearBits j fuel k left) := by
  induction fuel generalizing k left with
  | zero => exact .pure _
  | succ fuel ih =>
    exact .ite (.pure _) (.bind bufAt fun _ => .bind .ensure fun _ => .bind h.setBuf fun _ => ih)

theorem nextSect {dev x : Int} {i : Nat} : Preserves I (nextSect dev i x) :=
  .ite (.bind h.wrSect fun _ => .bind h.rdSect fun _ => .pure _) (.pure _)

theorem clearBytes {dev x left : Int} {fuel i : Nat} : Preserves I (clearBytes dev fuel i x left) := by
  induction fuel generalizing i x left with
  | zero => exact .pure _
  | succ fuel ih =>
    exact .bind h.nextSect fun _ => .bind bufAt fun _ => .bind .ensure fun _ =>
      .bind h.setBuf fun _ => ih

theorem freeSmapBits {dev x left : Int} {sb : SuperBlock} :
    Preserves I (freeSmapBits dev sb x left) :=
  .bind h.rdSect fun _ => .bind natOf fun _ => .bind natOf fun _ => .bind h.clearBits fun _ =>
    .bind h.clearBytes fun _ => .bind h.nextSect fun _ => .bind natOf fun _ => .bind bufAt fun _ =>
      .bind .ensure fun _ => .bind h.setBuf fun _ => h.wrSect

/-! ## Entries of a directory -/

omit h in
theorem slotEntries {n m : Int} {fuel j : Nat} : Preserves I (slotEntries n fuel j m) := by
  induction fuel generalizing j m with
  | zero => exact .pure _
  | succ fuel ih => exact .ite (.pure _) (.bind deInode fun _ => .ite (.pure _) ih)

theorem slotBlks {dir : Inode} {n i m : Int} {fuel : Nat} : Preserves I (slotBlks dir n fuel i m) := by
  induction fuel generalizing i m with
  | zero => exact .ite (.throw _) (.pure _)
  | succ fuel ih =>
    refine .bind h.rdSect fun _ => .bind slotEntries fun r => ?_
    cases r with
    | inl slot => exact .pure _
    | inr m => exact ih

theorem clearEntry {dev sect num n m size : Int} {fuel j : Nat} :
    Preserves I (clearEntry dev sect num n fuel j m size) := by
  induction fuel generalizing j m size with
  | zero => exact .pure _
  | succ fuel ih =>
    exact .ite (.pure _) (.bind deInode fun _ =>
      .ite (.bind h.memsetBuf fun _ => .bind h.wrSect fun _ => .pure _) ih)

theorem clearEntryBlks {dir : Inode} {num n i m size : Int} {fuel : Nat} :
    Preserves I (clearEntryBlks dir num n fuel i m size) := by
  induction fuel generalizing i m size with
  | zero => exact .pure _
  | succ fuel ih => exact .bind h.rdSect fun _ => .bind h.clearEntry fun _ => .ite (.pure _) ih

/-! ## The log -/

theorem markLogBytes {fuel byteOff bitOff left : Nat} :
    Preserves I (markLogBytes fuel byteOff bitOff left) := by
  induction fuel generalizing byteOff bitOff left with
  | zero => exact .pure _
  | succ fuel ih => exact .ite (.pure _) (.bind h.takeBits fun _ => ih)

theorem markLogSects {dev x : Int} {fuel byteOff bitOff left : Nat} :
    Preserves I (markLogSects dev fuel x byteOff bitOff left) := by
  induction fuel generalizing x byteOff bitOff left with
  | zero => exact .pure _
  | succ fuel ih =>
    exact .bind h.rdSect fun _ => .bind h.markLogBytes fun _ => .bind h.wrSect fun _ =>
      .ite (.pure _) ih

theorem blankLog {dev i : Int} {chunk fuel : Nat} : Preserves I (blankLog dev chunk fuel i) := by
  induction fuel generalizing i with
  | zero => exact .pure _
  | succ fuel ih => exact .bind h.memsetBuf fun _ => .bind h.rwSector fun _ => ih

theorem startLog {dev x : Int} {sb : SuperBlock} : Preserves I (startLog dev sb x) :=
  .bind (.bind natOf fun _ => .bind natOf fun _ => .bind h.markLogSects fun _ => .ensure) fun _ =>
    .bind (.modify fun s => h s s.disk s.mem _) fun _ => .bind .ensure fun _ => h.blankLog

theorem writeLog {dev x : Int} {fuel : Nat} {p : List Byte} : Preserves I (writeLog dev fuel x p) := by
  induction fuel generalizing x p with
  | zero => exact .ite (.pure _) (.throw _)
  | succ fuel ih =>
    exact .ite (.pure _) (.bind h.rdSect fun _ => .bind .get fun _ => .bind natOf fun _ =>
      .bind h.putBuf fun _ => .bind h.wrSect fun _ =>
        .bind (.modify fun s => h s s.disk s.mem _) fun _ => ih)

theorem disklog {str : List Byte} : Preserves I (disklog str) :=
  .bind .get fun _ => .bind deref fun _ => .bind .get fun _ => .bind getSuperBlock fun _ =>
    .bind .get fun _ => .bind (.onlyIf h.startLog) fun _ => .bind .get fun _ =>
      .bind h.writeLog fun _ => .bind .get fun _ => .bind h.rdSect fun _ => .bind h.putBuf fun _ =>
        .bind h.memsetBuf fun _ => .bind h.setBuf fun _ => .bind h.memsetBuf fun _ =>
          .bind h.setBuf fun _ => .bind h.wrSect fun _ => .bind bufAt fun _ =>
            .bind h.memsetBuf fun _ => .bind h.wrSect fun _ => .pure _

end IgnoresIo

end Dlos
