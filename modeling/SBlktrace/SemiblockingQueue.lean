import SBlktrace.FifoQueue
import Mathlib

namespace SBlktrace

open Function FifoQueue

/-- Where a thread stands in `queue_put`: the read of `in_queue`, the write of `new->next`, the
compare-and-swap. -/
inductive PutPc (ν : Type*) where
  | read
  | link (inQueue : Option ν)
  | cas (inQueue : Option ν)

inductive GetPc (ν : Type*) where
  | lock
  | test
  | read
  | cas (head : ν)
  | next (head : ν)
  | out (head : ν) (next : Option ν)
  | link (head : ν) (next : Option ν) (out : Option ν)
  | push (head : ν) (next : Option ν)
  | head
  | rest (head : ν)
  | pop (head : ν) (rest : Option ν)
  | unlock (head : Option ν)

inductive Pc (ν : Type*) where
  | idle
  | queuePut (new : ν) (pc : PutPc ν)
  | queueGet (pc : GetPc ν)

/-- The root of a queue, the nodes with the values they carry, and the threads. A node is fresh
until a producer takes it, and again when a consumer has got it. -/
structure QueueRoot (τ ν α : Type*) where
  inQueue : Option ν
  outQueue : Option ν
  lock : Option τ
  next : ν → Option ν
  value : ν → α
  fresh : ν → Bool
  pc : τ → Pc ν
  history : List (Event τ α)

/-- A thread calls `queue_put` or `queue_get`, or goes on by one access to the memory. -/
inductive ThreadAction (τ ν α : Type*) where
  | queuePut (t : τ) (new : ν) (v : α)
  | queueGet (t : τ)
  | run (t : τ)

namespace QueueRoot

variable {τ ν α : Type*} [DecidableEq τ] [DecidableEq ν]

def alloc (next : ν → Option ν) (value : ν → α) : QueueRoot τ ν α where
  inQueue := none
  outQueue := none
  lock := none
  next := next
  value := value
  fresh _ := true
  pc _ := .idle
  history := []

def goto (st : QueueRoot τ ν α) (t : τ) (pc : Pc ν) : QueueRoot τ ν α :=
  { st with pc := update st.pc t pc }

def queuePut (st : QueueRoot τ ν α) (t : τ) (new : ν) : PutPc ν → QueueRoot τ ν α
  | .read => st.goto t (.queuePut new (.link st.inQueue))
  | .link inQueue =>
    { st with next := update st.next new inQueue }.goto t (.queuePut new (.cas inQueue))
  | .cas inQueue =>
    if st.inQueue = inQueue then
      { st with
        inQueue := some new
        history := st.history ++ [Event.put (st.value new)] }.goto t .idle
    else st.goto t (.queuePut new .read)

def released (fresh : ν → Bool) : Option ν → ν → Bool
  | none => fresh
  | some node => update fresh node true

/-- A thread that waits for the lock cannot go on. -/
def queueGet (st : QueueRoot τ ν α) (t : τ) : GetPc ν → Option (QueueRoot τ ν α)
  | .lock =>
    if st.lock = none then some ({ st with lock := some t }.goto t (.queueGet .test)) else none
  | .test => some (st.goto t (.queueGet (if st.outQueue = none then .read else .head)))
  | .read =>
    match st.inQueue with
    | none => some (st.goto t (.queueGet .head))
    | some head => some (st.goto t (.queueGet (.cas head)))
  | .cas head =>
    if st.inQueue = some head then
      some ({ st with inQueue := none }.goto t (.queueGet (.next head)))
    else some (st.goto t (.queueGet .read))
  | .next head => some (st.goto t (.queueGet (.out head (st.next head))))
  | .out head next => some (st.goto t (.queueGet (.link head next st.outQueue)))
  | .link head next out =>
    some ({ st with next := update st.next head out }.goto t (.queueGet (.push head next)))
  | .push head next =>
    match next with
    | none => some ({ st with outQueue := some head }.goto t (.queueGet .head))
    | some next => some ({ st with outQueue := some head }.goto t (.queueGet (.next next)))
  | .head =>
    match st.outQueue with
    | none => some (st.goto t (.queueGet (.unlock none)))
    | some head => some (st.goto t (.queueGet (.rest head)))
  | .rest head => some (st.goto t (.queueGet (.pop head (st.next head))))
  | .pop head rest => some ({ st with outQueue := rest }.goto t (.queueGet (.unlock (some head))))
  | .unlock head =>
    some ({ st with
      lock := none
      fresh := released st.fresh head
      history := st.history ++ [Event.returned t (head.map st.value)] }.goto t .idle)

def perform (st : QueueRoot τ ν α) : ThreadAction τ ν α → Option (QueueRoot τ ν α)
  | .queuePut t new v =>
    match st.pc t with
    | .idle =>
      if st.fresh new then
        some ({ st with
          fresh := update st.fresh new false
          value := update st.value new v }.goto t (.queuePut new .read))
      else none
    | _ => none
  | .queueGet t =>
    match st.pc t with
    | .idle =>
      some ({ st with history := st.history ++ [Event.called t] }.goto t (.queueGet .lock))
    | _ => none
  | .run t =>
    match st.pc t with
    | .idle => none
    | .queuePut new pc => some (st.queuePut t new pc)
    | .queueGet pc => st.queueGet t pc

def Steps (st st' : QueueRoot τ ν α) : Prop := ∃ a, st.perform a = some st'

def Reachable (st : QueueRoot τ ν α) : Prop :=
  ∃ next value, Relation.ReflTransGen Steps (alloc next value) st

end QueueRoot

end SBlktrace
