import SBlktrace.IoAccounting
import Mathlib

namespace SBlktrace

attribute [ext] IoStats

namespace IoStats

def add (a b : IoStats) : IoStats where
  qreads := a.qreads + b.qreads
  qwrites := a.qwrites + b.qwrites
  creads := a.creads + b.creads
  cwrites := a.cwrites + b.cwrites
  mreads := a.mreads + b.mreads
  mwrites := a.mwrites + b.mwrites
  ireads := a.ireads + b.ireads
  iwrites := a.iwrites + b.iwrites
  rrqueue := a.rrqueue + b.rrqueue
  wrqueue := a.wrqueue + b.wrqueue
  qreadKb := a.qreadKb + b.qreadKb
  qwriteKb := a.qwriteKb + b.qwriteKb
  creadKb := a.creadKb + b.creadKb
  cwriteKb := a.cwriteKb + b.cwriteKb
  qreadB := a.qreadB + b.qreadB
  qwriteB := a.qwriteB + b.qwriteB
  creadB := a.creadB + b.creadB
  cwriteB := a.cwriteB + b.cwriteB
  ireadKb := a.ireadKb + b.ireadKb
  iwriteKb := a.iwriteKb + b.iwriteKb
  mreadKb := a.mreadKb + b.mreadKb
  mwriteKb := a.mwriteKb + b.mwriteKb
  mreadB := a.mreadB + b.mreadB
  mwriteB := a.mwriteB + b.mwriteB
  ireadB := a.ireadB + b.ireadB
  iwriteB := a.iwriteB + b.iwriteB
  qreadsPc := a.qreadsPc + b.qreadsPc
  qwritesPc := a.qwritesPc + b.qwritesPc
  ireadsPc := a.ireadsPc + b.ireadsPc
  iwritesPc := a.iwritesPc + b.iwritesPc
  rrqueuePc := a.rrqueuePc + b.rrqueuePc
  wrqueuePc := a.wrqueuePc + b.wrqueuePc
  creadsPc := a.creadsPc + b.creadsPc
  cwritesPc := a.cwritesPc + b.cwritesPc
  qreadKbPc := a.qreadKbPc + b.qreadKbPc
  qwriteKbPc := a.qwriteKbPc + b.qwriteKbPc
  ireadKbPc := a.ireadKbPc + b.ireadKbPc
  iwriteKbPc := a.iwriteKbPc + b.iwriteKbPc
  qreadBPc := a.qreadBPc + b.qreadBPc
  qwriteBPc := a.qwriteBPc + b.qwriteBPc
  ireadBPc := a.ireadBPc + b.ireadBPc
  iwriteBPc := a.iwriteBPc + b.iwriteBPc
  ioUnplugs := a.ioUnplugs + b.ioUnplugs
  timerUnplugs := a.timerUnplugs + b.timerUnplugs

instance : Add IoStats := ⟨add⟩

instance : Zero IoStats := ⟨zeroIoStats⟩

instance : AddCommMonoid IoStats where
  add_assoc a b c := by ext : 1 <;> apply add_assoc
  zero_add a := by ext : 1 <;> apply zero_add
  add_zero a := by ext : 1 <;> apply add_zero
  add_comm a b := by ext : 1 <;> apply add_comm
  nsmul := nsmulRec

def Translates (f : IoStats → IoStats) : Prop := ∀ a b, f (a + b) = f a + b

theorem Translates.add_right {f : IoStats → IoStats} (h : Translates f) (a b : IoStats) :
    a + f b = f (a + b) := by
  rw [add_comm a b, h, add_comm]

section Accounts

variable (t : BlkIoTraceRecord) (w : Bool) (bytes : UInt32)

theorem accountM_translates : Translates (·.accountM t w) := by
  intro a b
  cases w <;> ext : 1 <;> first | rfl | apply add_right_comm

theorem accountPcQueue_translates : Translates (·.accountPcQueue t w) := by
  intro a b
  cases w <;> ext : 1 <;> first | rfl | apply add_right_comm

theorem accountPcIssue_translates : Translates (·.accountPcIssue w bytes) := by
  intro a b
  cases w <;> ext : 1 <;> first | rfl | apply add_right_comm

theorem accountPcRequeue_translates : Translates (·.accountPcRequeue t w) := by
  intro a b
  cases w <;> ext : 1 <;> first | rfl | apply add_right_comm | apply add_sub_right_comm

theorem accountPcC_translates : Translates (·.accountPcC w) := by
  intro a b
  cases w <;> ext : 1 <;> first | rfl | apply add_right_comm

theorem accountQueue_translates : Translates (·.accountQueue t w) := by
  intro a b
  cases w <;> ext : 1 <;> first | rfl | apply add_right_comm

theorem accountC_translates : Translates (·.accountC w bytes) := by
  intro a b
  cases w <;> ext : 1 <;> first | rfl | apply add_right_comm

theorem accountIssue_translates : Translates (·.accountIssue w bytes) := by
  intro a b
  cases w <;> ext : 1 <;> first | rfl | apply add_right_comm

theorem accountUnplug_translates : Translates (·.accountUnplug w) := by
  intro a b
  cases w <;> ext : 1 <;> first | rfl | apply add_right_comm

theorem accountRequeue_translates : Translates (·.accountRequeue t w) := by
  intro a b
  cases w <;> ext : 1 <;> first | rfl | apply add_right_comm | apply add_sub_right_comm

end Accounts

end IoStats

namespace BlkIoTraceRecord

def accountPc (t : BlkIoTraceRecord) : Option (IoStats → IoStats) :=
  let w := t.has blkTcWrite
  let act := t.action &&& 0xffff
  if act = blkTaQueue then some (·.accountPcQueue t w)
  else if act = blkTaRequeue then some (·.accountPcRequeue t w)
  else if act = blkTaIssue then some (·.accountPcIssue w t.bytes)
  else if act = blkTaComplete then some (·.accountPcC w)
  else none

def accountFs (t : BlkIoTraceRecord) : Option (IoStats → IoStats) :=
  let w := t.has blkTcWrite
  let act := t.action &&& 0xffff
  if act = blkTaQueue then some (·.accountQueue t w)
  else if act = blkTaBackmerge then some (·.accountM t w)
  else if act = blkTaFrontmerge then some (·.accountM t w)
  else if act = blkTaRequeue then some (·.accountRequeue t w)
  else if act = blkTaIssue then some (·.accountIssue w t.bytes)
  else if act = blkTaComplete then some (·.accountC w t.bytes)
  else if act = blkTaUnplugIo then some (·.accountUnplug false)
  else if act = blkTaUnplugTimer then some (·.accountUnplug true)
  else none

def accountOf (t : BlkIoTraceRecord) : Option (IoStats → IoStats) :=
  if t.action = blkTnMessage then none
  else if t.has blkTcPc then t.accountPc
  else t.accountFs

theorem accountPc_getD (t : BlkIoTraceRecord) : t.accountPc.getD id = t.accountedPc := by
  unfold accountPc accountedPc
  dsimp only
  split_ifs <;> rfl

theorem accountFs_getD (t : BlkIoTraceRecord) : t.accountFs.getD id = t.accountedFs := by
  unfold accountFs accountedFs
  dsimp only
  split_ifs <;> rfl

theorem accountOf_getD (t : BlkIoTraceRecord) : t.accountOf.getD id = t.accounted := by
  unfold accountOf accounted
  split_ifs
  · rfl
  · apply accountPc_getD
  · apply accountFs_getD

theorem accountPc_translates {t : BlkIoTraceRecord} {f : IoStats → IoStats}
    (h : t.accountPc = some f) : IoStats.Translates f := by
  unfold accountPc at h
  dsimp only at h
  split_ifs at h <;> obtain rfl := Option.some.inj h
  · apply IoStats.accountPcQueue_translates
  · apply IoStats.accountPcRequeue_translates
  · apply IoStats.accountPcIssue_translates
  · apply IoStats.accountPcC_translates

theorem accountFs_translates {t : BlkIoTraceRecord} {f : IoStats → IoStats}
    (h : t.accountFs = some f) : IoStats.Translates f := by
  unfold accountFs at h
  dsimp only at h
  split_ifs at h <;> obtain rfl := Option.some.inj h
  · apply IoStats.accountQueue_translates
  · apply IoStats.accountM_translates
  · apply IoStats.accountM_translates
  · apply IoStats.accountRequeue_translates
  · apply IoStats.accountIssue_translates
  · apply IoStats.accountC_translates
  · apply IoStats.accountUnplug_translates
  · apply IoStats.accountUnplug_translates

theorem accountOf_translates {t : BlkIoTraceRecord} {f : IoStats → IoStats}
    (h : t.accountOf = some f) : IoStats.Translates f := by
  unfold accountOf at h
  split_ifs at h
  · exact accountPc_translates h
  · exact accountFs_translates h

end BlkIoTraceRecord

end SBlktrace
