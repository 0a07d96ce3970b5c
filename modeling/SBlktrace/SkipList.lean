import SBlktrace.DoublyLinked
import Mathlib

namespace SBlktrace

open Function DoublyLinked

structure SkipInfo where
  start : UInt64
  stop : UInt64
  prev : Option ℕ
  next : Option ℕ

/-- The skip list of a `per_cpu_info`. A `skip_info` is named by its place in `sips`; `brk` is
the place the next `malloc` returns. -/
structure SkipList where
  sips : ℕ → SkipInfo
  skipsHead : Option ℕ
  skipsTail : Option ℕ
  brk : ℕ

namespace SkipList

def prev (pci : SkipList) (sip : ℕ) : Option ℕ := (pci.sips sip).prev

def next (pci : SkipList) (sip : ℕ) : Option ℕ := (pci.sips sip).next

def range (pci : SkipList) (sip : ℕ) : UInt64 × UInt64 :=
  ((pci.sips sip).start, (pci.sips sip).stop)

def setRange (pci : SkipList) (sip : ℕ) (start stop : UInt64) : SkipList :=
  { pci with sips := update pci.sips sip { pci.sips sip with start := start, stop := stop } }

def setPrev (pci : SkipList) (sip : ℕ) (v : Option ℕ) : SkipList :=
  { pci with sips := update pci.sips sip { pci.sips sip with prev := v } }

def setNext (pci : SkipList) (sip : ℕ) (v : Option ℕ) : SkipList :=
  { pci with sips := update pci.sips sip { pci.sips sip with next := v } }

def setEnds (pci : SkipList) (head tail : Option ℕ) : SkipList :=
  { pci with skipsHead := head, skipsTail := tail }

/-- The loop `for (sip = skips_tail; sip != NULL; sip = sip->prev)` up to the first `sip` at
which the body returns; the outer `none` is a walk that never ends. -/
def findBack (pci : SkipList) (p : UInt64 × UInt64 → Bool) (sip : Option ℕ) : Option (Option ℕ) :=
  match sip with
  | none => some none
  | some e => if p (pci.range e) then some (some e) else pci |>.findBack p (pci.prev e)
partial_fixpoint

def newSip (pci : SkipList) (start stop : UInt64) : SkipList :=
  { pci with sips := update pci.sips pci.brk ⟨start, stop, none, none⟩, brk := pci.brk + 1 }

def adjoins (start stop : UInt64) (r : UInt64 × UInt64) : Bool :=
  stop = r.1 - 1 || start = r.2 + 1

def inSkip (seq : UInt64) (r : UInt64 × UInt64) : Bool := r.1 ≤ seq && seq ≤ r.2

def appendSip (pci : SkipList) (start stop : UInt64) : SkipList :=
  let sip := pci.brk
  let pci := pci.newSip start stop
  match pci.skipsTail with
  | none => pci.setEnds (some sip) (some sip)
  | some t => ((pci.setPrev sip (some t)).setNext t (some sip)).setEnds pci.skipsHead (some sip)

def insertSkip (pci : SkipList) (start stop : UInt64) : Option SkipList := do
  match ← pci.findBack (adjoins start stop) pci.skipsTail with
  | some sip =>
    let r := pci.range sip
    if stop = r.1 - 1 then some (pci.setRange sip start r.2)
    else some (pci.setRange sip r.1 stop)
  | none => some (pci.appendSip start stop)

def removeSip (pci : SkipList) (sip : ℕ) : SkipList :=
  let pci := match pci.prev sip, pci.next sip with
    | none, none => pci.setEnds none none
    | none, some q => (pci.setEnds (some q) pci.skipsTail).setPrev q none
    | some p, none => (pci.setEnds pci.skipsHead (some p)).setNext p none
    | some p, some q => (pci.setNext p (some q)).setPrev q (some p)
  (pci.setPrev sip none).setNext sip none

def checkCurrentSkips (pci : SkipList) (seq : UInt64) : Option (SkipList × ℤ) := do
  match ← pci.findBack (inSkip seq) pci.skipsTail with
  | some sip =>
    let r := pci.range sip
    if r.1 = seq then
      if r.2 = seq then some (pci.removeSip sip, 1)
      else some (pci.setRange sip (r.1 + 1) r.2, 1)
    else if r.2 = seq then some (pci.setRange sip r.1 (r.2 - 1), 1)
    else do
      -- `sip->end` is overwritten before it is read as the end of the second half
      let pci := pci.setRange sip r.1 (seq - 1)
      let pci ← pci.insertSkip (seq + 1) (pci.range sip).2
      some (pci, 1)
  | none => some (pci, 0)

def collectFrom (pci : SkipList) (sip : Option ℕ) (acc : UInt64 × UInt64) :
    Option (UInt64 × UInt64) :=
  match sip with
  | none => some acc
  | some e =>
    let r := pci.range e
    pci |>.collectFrom (pci.next e) (acc.1 + 1, acc.2 + (r.2 - r.1 + 1))
partial_fixpoint

def empty : SkipList := ⟨fun _ => ⟨0, 0, none, none⟩, none, none, 0⟩

end SkipList

def collectPdiSkips (cpus : List SkipList) : Option (UInt64 × UInt64) :=
  cpus.foldlM (fun acc pci => pci.collectFrom pci.skipsHead acc) (0, 0)

inductive SkipOp where
  | insert (start stop : UInt64)
  | check (seq : UInt64)

namespace SkipList

def step (pci : SkipList) : SkipOp → Option (SkipList × Option ℤ)
  | .insert start stop => (pci.insertSkip start stop).map (fun pci => (pci, none))
  | .check seq => (pci.checkCurrentSkips seq).map (fun r => (r.1, some r.2))

def run (pci : SkipList) : List SkipOp → Option (SkipList × List (Option ℤ))
  | [] => some (pci, [])
  | op :: ops => do
    let (pci, out) ← pci.step op
    let (pci, outs) ← SkipList.run pci ops
    some (pci, out :: outs)

end SkipList

end SBlktrace
