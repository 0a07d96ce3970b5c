import SBlktrace.SemiblockingQueue
import Mathlib

namespace SBlktrace

open Function FifoQueue Relation

inductive Owner (τ : Type*) where
  | fresh
  | thread (t : τ)
  | queue

structure Nodes (τ ν : Type*) where
  rev : List ν
  out : List ν
  inn : List ν
  owner : ν → Owner τ

namespace Nodes

variable {τ ν : Type*}

def queued (g : Nodes τ ν) : List ν := g.rev ++ g.out ++ g.inn

def inOrder (g : Nodes τ ν) : List ν := g.rev.reverse ++ g.out ++ g.inn.reverse

end Nodes

namespace Pc

variable {ν : Type*}

def node : Pc ν → Option ν
  | .idle => none
  | .queuePut new _ => some new
  | .queueGet (.unlock head) => head
  | .queueGet _ => none

def critical : Pc ν → Bool
  | .idle => false
  | .queuePut _ _ => false
  | .queueGet .lock => false
  | .queueGet _ => true

def At (next : ν → Option ν) (outQueue : Option ν) (rev out : List ν) : Pc ν → Prop
  | .queuePut new (.cas inQueue) => next new = inQueue
  | .queueGet .test => rev = []
  | .queueGet .read => rev = [] ∧ out = []
  | .queueGet (.cas _) => rev = [] ∧ out = []
  | .queueGet (.next head) => Chain next (some head) rev
  | .queueGet (.out head n) => ∃ rest, rev = head :: rest ∧ Chain next n rest
  | .queueGet (.link head n q) => ∃ rest, rev = head :: rest ∧ Chain next n rest ∧ q = outQueue
  | .queueGet (.push head n) =>
    ∃ rest, rev = head :: rest ∧ Chain next n rest ∧ next head = outQueue
  | .queueGet .head => rev = []
  | .queueGet (.rest head) => rev = [] ∧ outQueue = some head
  | .queueGet (.pop head q) => rev = [] ∧ outQueue = some head ∧ next head = q
  | .queueGet (.unlock _) => rev = []
  | _ => True

def status {α : Type*} (value : ν → α) (out : List ν) : Pc ν → Status α
  | .idle => .idle
  | .queuePut _ _ => .idle
  | .queueGet .head => if out.isEmpty then .replied none else .called
  | .queueGet (.unlock head) => .replied (head.map value)
  | .queueGet _ => .called

variable {next next' : ν → Option ν} {outQueue outQueue' : Option ν} {rev rev' out out' : List ν}
  {pc : Pc ν}

theorem At.frame (h : At next outQueue rev out pc) (hpc : pc.critical = false)
    (hnext : ∀ n, pc.node = some n → next' n = next n) : At next' outQueue' rev' out' pc := by
  cases pc with
  | idle => trivial
  | queuePut new pc =>
    cases pc with
    | read => trivial
    | link => trivial
    | cas => exact (hnext new rfl).trans h
  | queueGet pc =>
    cases pc with
    | lock => trivial
    | _ => simp [critical] at hpc

theorem At.update [DecidableEq ν] (h : At next outQueue rev out pc)
    (hchain : Chain next outQueue out) {n : ν} (hrev : n ∉ rev) (hout : n ∉ out)
    (hnode : pc.node ≠ some n) (q : Option ν) : At (update next n q) outQueue rev out pc := by
  cases pc with
  | idle => trivial
  | queuePut new pc =>
    cases pc with
    | read => trivial
    | link => trivial
    | cas =>
      have hne : new ≠ n := by simpa [node] using hnode
      exact (update_of_ne hne _ _).trans h
  | queueGet pc =>
    cases pc with
    | next head => exact Chain.update h hrev q
    | out head p =>
      obtain ⟨rest, rfl, hrest⟩ := h
      exact ⟨rest, rfl, hrest.update (by simp_all) q⟩
    | link head p s =>
      obtain ⟨rest, rfl, hrest, hs⟩ := h
      exact ⟨rest, rfl, hrest.update (by simp_all) q, hs⟩
    | push head p =>
      obtain ⟨rest, rfl, hrest, hhead⟩ := h
      have hne : head ≠ n := by
        rintro rfl
        exact hrev List.mem_cons_self
      refine ⟨rest, rfl, hrest.update (by simp_all) q, ?_⟩
      rw [update_of_ne hne]
      exact hhead
    | pop head p =>
      obtain ⟨hnil, hsome, hhead⟩ := h
      have hne : head ≠ n := by
        rintro rfl
        rw [hsome] at hchain
        obtain ⟨out', rfl, -⟩ := chain_some hchain
        exact hout List.mem_cons_self
      refine ⟨hnil, hsome, ?_⟩
      rw [update_of_ne hne]
      exact hhead
    | _ => exact h

theorem status_frame {α : Type*} {value value' : ν → α} (hpc : pc.critical = false) :
    pc.status value out = pc.status value' out' := by
  cases pc with
  | idle => rfl
  | queuePut new pc => rfl
  | queueGet pc =>
    cases pc with
    | lock => rfl
    | _ => simp [critical] at hpc

theorem status_not_replied {α : Type*} {value : ν → α} (hpc : pc.critical = false) :
    ¬ (pc.status value out).isReplied := by
  cases pc with
  | idle => exact id
  | queuePut new pc => exact id
  | queueGet pc =>
    cases pc with
    | lock => exact id
    | _ => simp [critical] at hpc

end Pc

namespace QueueRoot

variable {τ ν α : Type*} {st : QueueRoot τ ν α} {g : Nodes τ ν} {t : τ} {new head : ν} {pc : Pc ν}

/-- Each node is where its owner says, and the lists are those that the pointers lead along. -/
structure Layout (st : QueueRoot τ ν α) (g : Nodes τ ν) : Prop where
  inn : Chain st.next st.inQueue g.inn
  out : Chain st.next st.outQueue g.out
  nodup : g.queued.Nodup
  fresh : ∀ n, st.fresh n = true → g.owner n = .fresh
  queue : ∀ n ∈ g.queued, g.owner n = .queue
  node : ∀ t n, (st.pc t).node = some n → g.owner n = .thread t
  known : ∀ t, (st.pc t).At st.next st.outQueue g.rev g.out
  critical : ∀ t, (st.pc t).critical = true ↔ st.lock = some t
  unlocked : st.lock = none → g.rev = []

theorem layout_alloc (next : ν → Option ν) (value : ν → α) :
    Layout (alloc next value : QueueRoot τ ν α) ⟨[], [], [], fun _ => .fresh⟩ where
  inn := rfl
  out := rfl
  nodup := List.nodup_nil
  fresh _ _ := rfl
  queue n hn := by simp [Nodes.queued] at hn
  node t n hn := by simp [alloc, Pc.node] at hn
  known t := trivial
  critical t := by simp [alloc, Pc.critical]
  unlocked _ := rfl

theorem Layout.others (h : Layout st g) (ht : (st.pc t).critical = true) {u : τ} (hu : u ≠ t) :
    (st.pc u).critical = false := by
  have hlock := (h.critical t).mp ht
  cases hcrit : (st.pc u).critical with
  | false => rfl
  | true =>
    rw [(h.critical u).mp hcrit] at hlock
    exact absurd (Option.some_inj.mp hlock) hu

theorem Layout.not_queued (h : Layout st g) {n : ν} (hn : g.owner n ≠ .queue) : n ∉ g.queued :=
  fun hmem => hn (h.queue n hmem)

theorem Layout.node_ne (h : Layout st g) {n : ν} (hn : g.owner n = .queue) (u : τ) :
    (st.pc u).node ≠ some n := by
  rintro hu
  rw [h.node u n hu] at hn
  cases hn

theorem Layout.known_others (h : Layout st g) (hcrit : (st.pc t).critical = true) {u : τ}
    (hu : u ≠ t) (outQueue : Option ν) (rev out : List ν) :
    (st.pc u).At st.next outQueue rev out :=
  (h.known u).frame (h.others hcrit hu) fun _ _ => rfl

theorem Layout.holds_lock (h : Layout st g) (hcrit : (st.pc t).critical = true) :
    ¬ st.lock = none := by
  rw [(h.critical t).mp hcrit]
  simp

variable [DecidableEq τ]

theorem Layout.node_update (h : Layout st g) (hnode : pc.node = (st.pc t).node) :
    ∀ u n, (update st.pc t pc u).node = some n → g.owner n = .thread u := by
  apply (forall_update_iff st.pc fun u pc => ∀ n, pc.node = some n → g.owner n = .thread u).mpr
  refine ⟨?_, fun u _ => h.node u⟩
  rw [hnode]
  exact h.node t

theorem Layout.critical_update (h : Layout st g) (hcrit : pc.critical = (st.pc t).critical) :
    ∀ u, (update st.pc t pc u).critical = true ↔ st.lock = some u := by
  apply (forall_update_iff st.pc fun u pc => pc.critical = true ↔ st.lock = some u).mpr
  refine ⟨?_, fun u _ => h.critical u⟩
  rw [hcrit]
  exact h.critical t

theorem known_update {next : ν → Option ν} {outQueue : Option ν} {rev out : List ν}
    (hat : pc.At next outQueue rev out)
    (hothers : ∀ u ≠ t, (st.pc u).At next outQueue rev out) (u : τ) :
    (update st.pc t pc u).At next outQueue rev out :=
  (forall_update_iff st.pc fun _ pc => pc.At next outQueue rev out).mpr ⟨hat, hothers⟩ u

theorem Layout.goto (h : Layout st g) (hnode : pc.node = (st.pc t).node)
    (hcrit : pc.critical = (st.pc t).critical)
    (hat : pc.At st.next st.outQueue g.rev g.out) : Layout (st.goto t pc) g :=
  { h with
    node := h.node_update hnode
    known := known_update hat fun u _ => h.known u
    critical := h.critical_update hcrit }

theorem Layout.lock (h : Layout st g) (hpc : st.pc t = .queueGet .lock) (hlock : st.lock = none) :
    Layout ({ st with lock := some t }.goto t (.queueGet .test)) g := by
  refine { h with
    node := h.node_update (by rw [hpc]; rfl)
    known := known_update (h.unlocked hlock) fun u _ => h.known u
    critical := ?_
    unlocked := fun hnone => by cases hnone }
  apply (forall_update_iff st.pc fun u pc => pc.critical = true ↔ some t = some u).mpr
  refine ⟨by simp [Pc.critical], fun u hu => ?_⟩
  have hcrit := h.critical u
  rw [hlock] at hcrit
  simp only [reduceCtorEq, iff_false] at hcrit
  simp [hcrit, Ne.symm hu]

theorem Layout.drain (h : Layout st g) (hpc : st.pc t = .queueGet (.cas head))
    (hhead : st.inQueue = some head) :
    Layout ({ st with inQueue := none }.goto t (.queueGet (.next head)))
      { g with rev := g.inn, inn := [] } := by
  have hcrit : (st.pc t).critical = true := by rw [hpc]; rfl
  have hknown := h.known t
  rw [hpc] at hknown
  obtain ⟨hrev, hout⟩ := hknown
  have hqueued : g.queued = g.inn := by simp [Nodes.queued, hrev, hout]
  have hinn : Chain st.next (some head) g.inn := by
    rw [← hhead]
    exact h.inn
  have hnodup := h.nodup
  have hqueue := h.queue
  rw [hqueued] at hnodup hqueue
  refine { h with
    inn := rfl
    nodup := by simpa [Nodes.queued, hout] using hnodup
    queue := by simpa [Nodes.queued, hout] using hqueue
    node := h.node_update (by rw [hpc]; rfl)
    known := known_update hinn fun u hu => h.known_others hcrit hu _ _ _
    critical := h.critical_update (by rw [hpc]; rfl)
    unlocked := fun hnone => ?_ }
  have hlock := (h.critical t).mp hcrit
  have hnone' : st.lock = none := hnone
  rw [hlock] at hnone'
  cases hnone'

theorem Layout.get_push (h : Layout st g) {n : Option ν} {rest : List ν}
    (hpc : st.pc t = .queueGet (.push head n)) (hrev : g.rev = head :: rest)
    (hnode : pc.node = none) (hcrit' : pc.critical = true)
    (hat : pc.At st.next (some head) rest (head :: g.out)) :
    Layout ({ st with outQueue := some head }.goto t pc)
      { g with rev := rest, out := head :: g.out } := by
  have hcrit : (st.pc t).critical = true := by rw [hpc]; rfl
  have hknown := h.known t
  rw [hpc] at hknown
  obtain ⟨-, -, -, hhead⟩ := hknown
  have hout : Chain st.next (st.next head) g.out := by
    rw [hhead]
    exact h.out
  have hperm : (rest ++ head :: g.out ++ g.inn).Perm g.queued := by
    rw [Nodes.queued, hrev]
    exact List.perm_middle.append_right g.inn
  refine { h with
    out := ⟨rfl, hout⟩
    nodup := hperm.nodup_iff.mpr h.nodup
    queue := fun m hm => h.queue m (hperm.mem_iff.mp hm)
    node := h.node_update (by rw [hpc]; exact hnode)
    known := known_update hat fun u hu => h.known_others hcrit hu _ _ _
    critical := h.critical_update (by rw [hcrit, hcrit'])
    unlocked := fun hnone => (h.holds_lock hcrit hnone).elim }

def view (st : QueueRoot τ ν α) (g : Nodes τ ν) : Queue τ α where
  items := g.inOrder.map st.value
  status t := (st.pc t).status st.value g.out
  history := st.history

def Refines (st : QueueRoot τ ν α) (g : Nodes τ ν) (st' : QueueRoot τ ν α) : Prop :=
  ∃ g', Layout st' g' ∧ ReflGen Queue.Step (st.view g) (st'.view g')

variable {st' : QueueRoot τ ν α} {g' : Nodes τ ν}

theorem view_eq (hpc : st'.pc = update st.pc t pc)
    (hothers : ∀ u ≠ t, (st.pc u).status st'.value g'.out = (st.pc u).status st.value g.out) :
    st'.view g' = ⟨g'.inOrder.map st'.value,
      update (st.view g).status t (pc.status st'.value g'.out), st'.history⟩ := by
  have hstatus : (fun u => (st'.pc u).status st'.value g'.out) =
      update (st.view g).status t (pc.status st'.value g'.out) := by
    funext u
    rw [hpc]
    by_cases hu : u = t
    · rw [hu, update_self, update_self]
    · rw [update_of_ne hu, update_of_ne hu]
      exact hothers u hu
  rw [view, hstatus]

theorem Layout.refines_step (h : Layout st' g') (hpc : st'.pc = update st.pc t pc)
    (hothers : ∀ u ≠ t, (st.pc u).status st'.value g'.out = (st.pc u).status st.value g.out)
    (hstep : Queue.Step (st.view g) ⟨g'.inOrder.map st'.value,
      update (st.view g).status t (pc.status st'.value g'.out), st'.history⟩) :
    st.Refines g st' := by
  refine ⟨g', h, ReflGen.single ?_⟩
  rw [view_eq hpc hothers]
  exact hstep

theorem status_same {s : Status α} (hs : s = (st.pc t).status st.value g.out) :
    update (st.view g).status t s = (st.view g).status := by
  rw [hs]
  exact update_eq_self t _

theorem Layout.refines_silent (h : Layout st' g') (hpc : st'.pc = update st.pc t pc)
    (hothers : ∀ u ≠ t, (st.pc u).status st'.value g'.out = (st.pc u).status st.value g.out)
    (hstatus : pc.status st'.value g'.out = (st.pc t).status st.value g.out)
    (hitems : g'.inOrder.map st'.value = g.inOrder.map st.value)
    (hhistory : st'.history = st.history) : st.Refines g st' := by
  refine ⟨g', h, ?_⟩
  rw [view_eq hpc hothers, status_same hstatus, hitems, hhistory]
  exact ReflGen.refl

theorem Layout.refines_goto (h : Layout st g) (hnode : pc.node = (st.pc t).node)
    (hcrit : pc.critical = (st.pc t).critical) (hat : pc.At st.next st.outQueue g.rev g.out)
    (hstatus : pc.status st.value g.out = (st.pc t).status st.value g.out) :
    st.Refines g (st.goto t pc) :=
  (h.goto hnode hcrit hat).refines_silent rfl (fun _ _ => rfl) hstatus rfl rfl

theorem Layout.refines_critical (h : Layout st g) (hcrit : (st.pc t).critical = true)
    (h' : Layout st' g') (hpc : st'.pc = update st.pc t pc)
    (hstatus : pc.status st'.value g'.out = (st.pc t).status st.value g.out)
    (hitems : g'.inOrder.map st'.value = g.inOrder.map st.value)
    (hhistory : st'.history = st.history) : st.Refines g st' :=
  h'.refines_silent hpc (fun _ hu => Pc.status_frame (h.others hcrit hu)) hstatus hitems hhistory

theorem Layout.not_replied (h : Layout st g) (hcrit : (st.pc t).critical = true)
    (hstatus : (st.pc t).status st.value g.out = .called) (u : τ) :
    ¬ ((st.view g).status u).isReplied := by
  by_cases hu : u = t
  · rw [hu, view]
    dsimp only
    rw [hstatus]
    exact id
  · exact Pc.status_not_replied (h.others hcrit hu)

theorem Layout.refines_read (h : Layout st g) (hpc : st.pc t = .queueGet .read)
    (hnone : st.inQueue = none) : st.Refines g (st.goto t (.queueGet .head)) := by
  have hcrit : (st.pc t).critical = true := by rw [hpc]; rfl
  have hknown := h.known t
  rw [hpc] at hknown
  obtain ⟨hrev, hout⟩ := hknown
  have hinn : g.inn = [] := by
    have hchain := h.inn
    rw [hnone] at hchain
    exact chain_none hchain
  have hcalled : (st.pc t).status st.value g.out = .called := by rw [hpc]; rfl
  have hempty : Status.replied none = (Pc.queueGet .head).status st.value g.out := by
    rw [hout]
    rfl
  have hgoto : Layout (st.goto t (.queueGet .head)) g :=
    h.goto (by rw [hpc]; rfl) (by rw [hpc]; rfl) hrev
  refine hgoto.refines_step rfl (fun _ _ => rfl) ?_
  have hitems : (st.view g).items = [] := by simp [view, Nodes.inOrder, hrev, hout, hinn]
  have hstep := Queue.Step.none (st.view g) t hcalled (h.not_replied hcrit hcalled) hitems
  rw [hempty] at hstep
  exact hstep

theorem Layout.refines_get_start (h : Layout st g) (hpc : st.pc t = .idle) :
    st.Refines g
      ({ st with history := st.history ++ [Event.called t] }.goto t (.queueGet .lock)) := by
  have hidle : (st.view g).status t = .idle := by
    rw [view]
    dsimp only
    rw [hpc]
    rfl
  have hlayout : Layout (st.goto t (.queueGet .lock)) g :=
    h.goto (by rw [hpc]; rfl) (by rw [hpc]; rfl) trivial
  have hlayout' : Layout
      ({ st with history := st.history ++ [Event.called t] }.goto t (.queueGet .lock)) g :=
    { hlayout with }
  refine hlayout'.refines_step rfl (fun _ _ => rfl) ?_
  exact Queue.Step.call (st.view g) t hidle

theorem Layout.refines_test (h : Layout st g) (hpc : st.pc t = .queueGet .test) :
    st.Refines g (st.goto t (.queueGet (if st.outQueue = none then .read else .head))) := by
  have hknown := h.known t
  rw [hpc] at hknown
  have hrev : g.rev = [] := hknown
  have hchain := h.out
  split
  case isTrue hnone =>
    rw [hnone] at hchain
    exact h.refines_goto (by rw [hpc]; rfl) (by rw [hpc]; rfl) ⟨hrev, chain_none hchain⟩
      (by rw [hpc]; rfl)
  case isFalse hsome =>
    obtain ⟨head, hhead⟩ := Option.ne_none_iff_exists'.mp hsome
    rw [hhead] at hchain
    obtain ⟨out, hout, -⟩ := chain_some hchain
    exact h.refines_goto (by rw [hpc]; rfl) (by rw [hpc]; rfl) hrev (by rw [hpc, hout]; rfl)

theorem Layout.refines_drain (h : Layout st g) (hpc : st.pc t = .queueGet (.cas head))
    (hhead : st.inQueue = some head) :
    st.Refines g ({ st with inQueue := none }.goto t (.queueGet (.next head))) := by
  have hknown := h.known t
  rw [hpc] at hknown
  obtain ⟨hrev, hout⟩ := hknown
  have hcrit : (st.pc t).critical = true := by rw [hpc]; rfl
  have hitems : (g.inn.reverse ++ g.out ++ [].reverse).map st.value =
      g.inOrder.map st.value := by simp [Nodes.inOrder, hrev, hout]
  exact h.refines_critical hcrit (h.drain hpc hhead) rfl (by rw [hpc]; rfl) hitems rfl

theorem Layout.refines_head_none (h : Layout st g) (hpc : st.pc t = .queueGet .head)
    (hhead : st.outQueue = none) : st.Refines g (st.goto t (.queueGet (.unlock none))) := by
  have hknown := h.known t
  rw [hpc] at hknown
  have hchain := h.out
  rw [hhead] at hchain
  have hout := chain_none hchain
  exact h.refines_goto (by rw [hpc]; rfl) (by rw [hpc]; rfl) hknown (by rw [hpc, hout]; rfl)

theorem Layout.refines_head_some (h : Layout st g) (hpc : st.pc t = .queueGet .head)
    (hhead : st.outQueue = some head) : st.Refines g (st.goto t (.queueGet (.rest head))) := by
  have hknown := h.known t
  rw [hpc] at hknown
  have hchain := h.out
  rw [hhead] at hchain
  obtain ⟨out, hout, -⟩ := chain_some hchain
  exact h.refines_goto (by rw [hpc]; rfl) (by rw [hpc]; rfl) ⟨hknown, hhead⟩
    (by rw [hpc, hout]; rfl)

variable [DecidableEq ν]

theorem Layout.put_link (h : Layout st g) {q : Option ν} (hpc : st.pc t = .queuePut new (.link q)) :
    Layout ({ st with next := update st.next new q }.goto t (.queuePut new (.cas q))) g := by
  have howner : g.owner new = .thread t := h.node t new (by rw [hpc, Pc.node])
  have hne : g.owner new ≠ .queue := by simp [howner]
  have hnot := h.not_queued hne
  simp only [Nodes.queued, List.mem_append, not_or] at hnot
  obtain ⟨⟨hrev, hout⟩, hinn⟩ := hnot
  have hself : update st.next new q new = q := update_self new q st.next
  refine { h with
    inn := h.inn.update hinn q
    out := h.out.update hout q
    node := h.node_update (by rw [hpc]; rfl)
    known := known_update hself fun u hu => ?_
    critical := h.critical_update (by rw [hpc]; rfl) }
  refine (h.known u).update h.out hrev hout (fun hnew => ?_) q
  have hsame := h.node u new hnew
  rw [howner] at hsame
  exact hu (Owner.thread.inj hsame).symm

theorem Layout.put_cas (h : Layout st g) {q : Option ν} (hpc : st.pc t = .queuePut new (.cas q))
    (hq : st.inQueue = q) (history : List (Event τ α)) :
    Layout ({ st with inQueue := some new, history := history }.goto t .idle)
      { g with inn := new :: g.inn, owner := update g.owner new .queue } := by
  have howner : g.owner new = .thread t := h.node t new (by rw [hpc, Pc.node])
  have hne : g.owner new ≠ .queue := by simp [howner]
  have hnot := h.not_queued hne
  have hlink : st.next new = q := by
    have hknown := h.known t
    rwa [hpc] at hknown
  have hinn : Chain st.next (st.next new) g.inn := by
    rw [hlink, ← hq]
    exact h.inn
  have hperm : (g.rev ++ g.out ++ new :: g.inn).Perm (new :: g.queued) := List.perm_middle
  refine { h with
    inn := ⟨rfl, hinn⟩
    nodup := hperm.nodup_iff.mpr (List.nodup_cons.mpr ⟨hnot, h.nodup⟩)
    fresh := fun n hn => ?_
    queue := fun n hn => ?_
    node := ?_
    known := known_update trivial fun u _ => h.known u
    critical := h.critical_update (by rw [hpc]; rfl) }
  · have hne : n ≠ new := by
      rintro rfl
      rw [h.fresh n hn] at howner
      cases howner
    exact (update_of_ne hne _ _).trans (h.fresh n hn)
  · obtain rfl | hmem := List.mem_cons.mp (hperm.mem_iff.mp hn)
    · exact update_self _ _ _
    · have hne : n ≠ new := by
        rintro rfl
        exact hnot hmem
      exact (update_of_ne hne _ _).trans (h.queue n hmem)
  · apply (forall_update_iff st.pc fun u pc => ∀ n, pc.node = some n →
      update g.owner new .queue n = .thread u).mpr
    refine ⟨fun n hn => by simp [Pc.node] at hn, fun u hu n hn => ?_⟩
    have hne : n ≠ new := by
      rintro rfl
      have hsame := h.node u n hn
      rw [howner] at hsame
      exact hu (Owner.thread.inj hsame).symm
    exact (update_of_ne hne _ _).trans (h.node u n hn)

theorem Layout.put_start (h : Layout st g) (hpc : st.pc t = .idle) (hnew : st.fresh new = true)
    (v : α) :
    Layout ({ st with
        fresh := update st.fresh new false
        value := update st.value new v }.goto t (.queuePut new .read))
      { g with owner := update g.owner new (.thread t) } := by
  have howner := h.fresh new hnew
  refine { h with
    fresh := fun n hn => ?_
    queue := fun n hn => ?_
    node := ?_
    known := known_update trivial fun u _ => h.known u
    critical := h.critical_update (by rw [hpc]; rfl) }
  · have hne : n ≠ new := by
      rintro rfl
      have hself : update st.fresh n false n = true := hn
      rw [update_self] at hself
      cases hself
    have hold : update st.fresh new false n = true := hn
    rw [update_of_ne hne] at hold
    exact (update_of_ne hne _ _).trans (h.fresh n hold)
  · have hne : n ≠ new := by
      rintro rfl
      have hqueue := h.queue n hn
      rw [howner] at hqueue
      cases hqueue
    exact (update_of_ne hne _ _).trans (h.queue n hn)
  · apply (forall_update_iff st.pc fun u pc => ∀ n, pc.node = some n →
      update g.owner new (.thread t) n = .thread u).mpr
    refine ⟨fun n hn => ?_, fun u hu n hn => ?_⟩
    · obtain rfl := Option.some_inj.mp hn
      exact update_self _ _ _
    · have hne : n ≠ new := by
        rintro rfl
        have hthread := h.node u n hn
        rw [howner] at hthread
        cases hthread
      exact (update_of_ne hne _ _).trans (h.node u n hn)

theorem Layout.get_link (h : Layout st g) {n q : Option ν}
    (hpc : st.pc t = .queueGet (.link head n q)) :
    Layout ({ st with next := update st.next head q }.goto t (.queueGet (.push head n))) g := by
  have hcrit : (st.pc t).critical = true := by rw [hpc]; rfl
  have hknown := h.known t
  rw [hpc] at hknown
  obtain ⟨rest, hrev, hrest, hq⟩ := hknown
  have hnodup := h.nodup
  rw [Nodes.queued, hrev, List.cons_append, List.cons_append, List.nodup_cons] at hnodup
  obtain ⟨hhead, -⟩ := hnodup
  simp only [List.mem_append, not_or] at hhead
  obtain ⟨⟨hrest', hout⟩, hinn⟩ := hhead
  have howner : g.owner head = .queue := h.queue head (by simp [Nodes.queued, hrev])
  have hself : update st.next head q head = st.outQueue := (update_self head q st.next).trans hq
  refine { h with
    inn := h.inn.update hinn q
    out := h.out.update hout q
    node := h.node_update (by rw [hpc]; rfl)
    known := known_update ⟨rest, hrev, hrest.update hrest' q, hself⟩ fun u hu => ?_
    critical := h.critical_update (by rw [hpc]; rfl) }
  refine (h.known u).frame (h.others hcrit hu) fun n hn => ?_
  have hne : n ≠ head := by
    rintro rfl
    exact h.node_ne howner u hn
  exact update_of_ne hne q st.next

theorem Layout.get_pop (h : Layout st g) {q : Option ν} {out : List ν}
    (hpc : st.pc t = .queueGet (.pop head q)) (hout : g.out = head :: out) :
    Layout ({ st with outQueue := q }.goto t (.queueGet (.unlock (some head))))
      { g with out := out, owner := update g.owner head (.thread t) } := by
  have hcrit : (st.pc t).critical = true := by rw [hpc]; rfl
  have hknown := h.known t
  rw [hpc] at hknown
  obtain ⟨hrev, hhead, hq⟩ := hknown
  have hchain := h.out
  rw [hout, chain_cons, hq] at hchain
  have hperm : g.queued.Perm (head :: (g.rev ++ out ++ g.inn)) := by
    rw [Nodes.queued, hout]
    exact List.perm_middle.append_right g.inn
  have hnodup := List.nodup_cons.mp (hperm.nodup_iff.mp h.nodup)
  have howner : g.owner head = .queue := h.queue head (hperm.mem_iff.mpr List.mem_cons_self)
  refine { h with
    out := hchain.2
    nodup := hnodup.2
    fresh := fun n hn => ?_
    queue := fun n hn => ?_
    node := ?_
    known := known_update hrev fun u hu => h.known_others hcrit hu _ _ _
    critical := h.critical_update (by rw [hpc]; rfl) }
  · have hne : n ≠ head := by
      rintro rfl
      rw [h.fresh n hn] at howner
      cases howner
    exact (update_of_ne hne _ _).trans (h.fresh n hn)
  · have hne : n ≠ head := by
      rintro rfl
      exact hnodup.1 hn
    have hmem := hperm.mem_iff.mpr (List.mem_cons_of_mem head hn)
    exact (update_of_ne hne _ _).trans (h.queue n hmem)
  · apply (forall_update_iff st.pc fun u pc => ∀ n, pc.node = some n →
      update g.owner head (.thread t) n = .thread u).mpr
    refine ⟨fun n hn => ?_, fun u hu n hn => ?_⟩
    · obtain rfl := Option.some_inj.mp hn
      exact update_self _ _ _
    · have hne : n ≠ head := by
        rintro rfl
        exact h.node_ne howner u hn
      exact (update_of_ne hne _ _).trans (h.node u n hn)

def release (owner : ν → Owner τ) : Option ν → ν → Owner τ
  | none => owner
  | some head => update owner head .fresh

theorem Layout.unlock (h : Layout st g) {r : Option ν} (hpc : st.pc t = .queueGet (.unlock r))
    (history : List (Event τ α)) :
    Layout ({ st with
        lock := none
        fresh := released st.fresh r
        history := history }.goto t .idle)
      { g with owner := release g.owner r } := by
  have hcrit : (st.pc t).critical = true := by rw [hpc]; rfl
  have hknown := h.known t
  rw [hpc] at hknown
  have hown : ∀ n, r = some n → g.owner n = .thread t := fun n hn => h.node t n (by rw [hpc, hn]; rfl)
  have hsame : ∀ n, r ≠ some n → release g.owner r n = g.owner n := by
    rintro n hn
    cases r with
    | none => rfl
    | some m => exact update_of_ne (fun hnm => hn (congrArg some hnm.symm)) _ _
  refine { h with
    fresh := fun n hn => ?_
    queue := fun n hn => ?_
    node := ?_
    known := known_update trivial fun u hu => h.known_others hcrit hu _ _ _
    critical := ?_
    unlocked := fun _ => hknown }
  · cases r with
    | none => exact h.fresh n hn
    | some m =>
      by_cases hnm : n = m
      · rw [hnm]
        exact update_self _ _ _
      · have hold : update st.fresh m true n = true := hn
        rw [update_of_ne hnm] at hold
        exact (update_of_ne hnm _ _).trans (h.fresh n hold)
  · refine (hsame n fun hr => ?_).trans (h.queue n hn)
    have howner := hown n hr
    rw [h.queue n hn] at howner
    cases howner
  · apply (forall_update_iff st.pc fun u pc => ∀ n, pc.node = some n →
      release g.owner r n = .thread u).mpr
    refine ⟨fun n hn => (nomatch hn), fun u hu n hn => ?_⟩
    refine (hsame n fun hr => ?_).trans (h.node u n hn)
    have howner := hown n hr
    rw [h.node u n hn] at howner
    exact hu (Owner.thread.inj howner)
  · apply (forall_update_iff st.pc fun u pc => pc.critical = true ↔ (none : Option τ) = some u).mpr
    refine ⟨by simp [Pc.critical], fun u hu => ?_⟩
    simp [h.others hcrit hu]

theorem Layout.refines_queuePut (h : Layout st g) {pc : PutPc ν}
    (hpc : st.pc t = .queuePut new pc) : st.Refines g (st.queuePut t new pc) := by
  cases pc with
  | read => exact h.refines_goto (by rw [hpc]; rfl) (by rw [hpc]; rfl) trivial (by rw [hpc]; rfl)
  | link q =>
    exact (h.put_link hpc).refines_silent rfl (fun _ _ => rfl) (by rw [hpc]; rfl) rfl rfl
  | cas q =>
    rw [queuePut]
    split
    case isFalse =>
      exact h.refines_goto (by rw [hpc]; rfl) (by rw [hpc]; rfl) trivial (by rw [hpc]; rfl)
    case isTrue hq =>
      refine (h.put_cas hpc hq _).refines_step rfl (fun _ _ => rfl) ?_
      have hitems : (g.rev.reverse ++ g.out ++ (new :: g.inn).reverse).map st.value =
          (st.view g).items ++ [st.value new] := by simp [view, Nodes.inOrder]
      have hidle : Status.idle = (st.pc t).status st.value g.out := by rw [hpc]; rfl
      have hstep := Queue.Step.put (st.view g) (st.value new)
      rw [← hitems, ← status_same hidle] at hstep
      exact hstep

theorem Layout.refines_pop (h : Layout st g) {q : Option ν}
    (hpc : st.pc t = .queueGet (.pop head q)) :
    st.Refines g ({ st with outQueue := q }.goto t (.queueGet (.unlock (some head)))) := by
  have hcrit : (st.pc t).critical = true := by rw [hpc]; rfl
  have hknown := h.known t
  rw [hpc] at hknown
  obtain ⟨hrev, hhead, -⟩ := hknown
  have hchain := h.out
  rw [hhead] at hchain
  obtain ⟨out, hout, -⟩ := chain_some hchain
  have hcalled : (st.pc t).status st.value g.out = .called := by rw [hpc]; rfl
  refine (h.get_pop hpc hout).refines_step rfl
    (fun _ hu => Pc.status_frame (h.others hcrit hu)) ?_
  have hitems : (st.view g).items =
      st.value head :: (g.rev.reverse ++ out ++ g.inn.reverse).map st.value := by
    simp [view, Nodes.inOrder, hrev, hout]
  exact Queue.Step.take (st.view g) t _ _ hcalled (h.not_replied hcrit hcalled) hitems

theorem Layout.refines_push (h : Layout st g) {n : Option ν}
    (hpc : st.pc t = .queueGet (.push head n)) :
    ∃ st', st.queueGet t (.push head n) = some st' ∧ st.Refines g st' := by
  have hcrit : (st.pc t).critical = true := by rw [hpc]; rfl
  have hknown := h.known t
  rw [hpc] at hknown
  obtain ⟨rest, hrev, hrest, -⟩ := hknown
  have hitems : (rest.reverse ++ head :: g.out ++ g.inn.reverse).map st.value =
      g.inOrder.map st.value := by simp [Nodes.inOrder, hrev]
  cases n with
  | none =>
    have hnil := chain_none hrest
    exact ⟨_, rfl, h.refines_critical hcrit (h.get_push hpc hrev rfl rfl hnil) rfl
      (by rw [hpc]; rfl) hitems rfl⟩
  | some n =>
    exact ⟨_, rfl, h.refines_critical hcrit (h.get_push hpc hrev rfl rfl hrest) rfl
      (by rw [hpc]; rfl) hitems rfl⟩

theorem Layout.refines_unlock (h : Layout st g) {r : Option ν}
    (hpc : st.pc t = .queueGet (.unlock r)) :
    ∃ st', st.queueGet t (.unlock r) = some st' ∧ st.Refines g st' := by
  have hcrit : (st.pc t).critical = true := by rw [hpc]; rfl
  have hreplied : (st.view g).status t = .replied (r.map st.value) := by
    rw [view]
    dsimp only
    rw [hpc]
    rfl
  refine ⟨_, rfl, (h.unlock hpc _).refines_step rfl (fun _ _ => rfl) ?_⟩
  exact Queue.Step.ret (st.view g) t _ hreplied

theorem Layout.refines_queueGet (h : Layout st g) {pc : GetPc ν} (hpc : st.pc t = .queueGet pc)
    (hget : st.queueGet t pc = some st') : st.Refines g st' := by
  have hknown := h.known t
  rw [hpc] at hknown
  cases pc with
  | lock =>
    rw [queueGet] at hget
    split at hget
    case isFalse => cases hget
    case isTrue hlock =>
      obtain rfl := Option.some_inj.mp hget
      exact (h.lock hpc hlock).refines_silent rfl (fun _ _ => rfl) (by rw [hpc]; rfl) rfl rfl
  | test =>
    obtain rfl := Option.some_inj.mp hget
    exact h.refines_test hpc
  | read =>
    cases hin : st.inQueue with
    | none =>
      simp only [queueGet, hin, Option.some.injEq] at hget
      rw [← hget]
      exact h.refines_read hpc hin
    | some head =>
      simp only [queueGet, hin, Option.some.injEq] at hget
      rw [← hget]
      exact h.refines_goto (by rw [hpc]; rfl) (by rw [hpc]; rfl) hknown (by rw [hpc]; rfl)
  | cas head =>
    rw [queueGet] at hget
    split at hget
    case isFalse =>
      obtain rfl := Option.some_inj.mp hget
      exact h.refines_goto (by rw [hpc]; rfl) (by rw [hpc]; rfl) hknown (by rw [hpc]; rfl)
    case isTrue hhead =>
      obtain rfl := Option.some_inj.mp hget
      exact h.refines_drain hpc hhead
  | next head =>
    obtain rfl := Option.some_inj.mp hget
    obtain ⟨rest, hrev, hrest⟩ := chain_some hknown
    exact h.refines_goto (by rw [hpc]; rfl) (by rw [hpc]; rfl) ⟨rest, hrev, hrest⟩
      (by rw [hpc]; rfl)
  | out head n =>
    obtain rfl := Option.some_inj.mp hget
    obtain ⟨rest, hrev, hrest⟩ := hknown
    exact h.refines_goto (by rw [hpc]; rfl) (by rw [hpc]; rfl) ⟨rest, hrev, hrest, rfl⟩
      (by rw [hpc]; rfl)
  | link head n q =>
    obtain rfl := Option.some_inj.mp hget
    exact (h.get_link hpc).refines_silent rfl (fun _ _ => rfl) (by rw [hpc]; rfl) rfl rfl
  | push head n =>
    obtain ⟨st'', hst'', hrefines⟩ := h.refines_push hpc
    rw [hst''] at hget
    obtain rfl := Option.some_inj.mp hget
    exact hrefines
  | head =>
    cases hhead : st.outQueue with
    | none =>
      simp only [queueGet, hhead, Option.some.injEq] at hget
      rw [← hget]
      exact h.refines_head_none hpc hhead
    | some head =>
      simp only [queueGet, hhead, Option.some.injEq] at hget
      rw [← hget]
      exact h.refines_head_some hpc hhead
  | rest head =>
    obtain rfl := Option.some_inj.mp hget
    obtain ⟨hrev, hhead⟩ := hknown
    exact h.refines_goto (by rw [hpc]; rfl) (by rw [hpc]; rfl) ⟨hrev, hhead, rfl⟩
      (by rw [hpc]; rfl)
  | pop head q =>
    obtain rfl := Option.some_inj.mp hget
    exact h.refines_pop hpc
  | unlock r =>
    obtain ⟨st'', hst'', hrefines⟩ := h.refines_unlock hpc
    rw [hst''] at hget
    obtain rfl := Option.some_inj.mp hget
    exact hrefines

theorem Layout.refines_put_start (h : Layout st g) (hpc : st.pc t = .idle)
    (hnew : st.fresh new = true) (v : α) :
    st.Refines g ({ st with
        fresh := update st.fresh new false
        value := update st.value new v }.goto t (.queuePut new .read)) := by
  have howner := h.fresh new hnew
  have hsame : ∀ n, g.owner n ≠ .fresh → update st.value new v n = st.value n := by
    rintro n hn
    refine update_of_ne ?_ v st.value
    rintro rfl
    exact hn howner
  refine (h.put_start hpc hnew v).refines_silent rfl (fun u hu => ?_) (by rw [hpc]; rfl) ?_ rfl
  · cases hu' : st.pc u with
    | idle => rfl
    | queuePut _ _ => rfl
    | queueGet pc =>
      cases pc with
      | unlock r =>
        cases r with
        | none => rfl
        | some n =>
          have hthread := h.node u n (by rw [hu']; rfl)
          exact congrArg (fun v => Status.replied (some v)) (hsame n (by simp [hthread]))
      | _ => rfl
  · apply List.map_congr_left
    rintro n hn
    have hqueue := h.queue n (by simpa [Nodes.inOrder, Nodes.queued] using hn)
    exact hsame n (by simp [hqueue])

theorem Layout.refines_perform (h : Layout st g) {a : ThreadAction τ ν α}
    (ha : st.perform a = some st') : st.Refines g st' := by
  cases a with
  | queuePut t new v =>
    cases hpc : st.pc t with
    | idle =>
      simp only [perform, hpc] at ha
      split at ha
      case isFalse => cases ha
      case isTrue hnew =>
        obtain rfl := Option.some_inj.mp ha
        exact h.refines_put_start hpc hnew v
    | queuePut _ _ => simp [perform, hpc] at ha
    | queueGet _ => simp [perform, hpc] at ha
  | queueGet t =>
    cases hpc : st.pc t with
    | idle =>
      simp only [perform, hpc, Option.some.injEq] at ha
      rw [← ha]
      exact h.refines_get_start hpc
    | queuePut _ _ => simp [perform, hpc] at ha
    | queueGet _ => simp [perform, hpc] at ha
  | run t =>
    cases hpc : st.pc t with
    | idle => simp [perform, hpc] at ha
    | queuePut new pc =>
      simp only [perform, hpc, Option.some.injEq] at ha
      rw [← ha]
      exact h.refines_queuePut hpc
    | queueGet pc =>
      simp only [perform, hpc] at ha
      exact h.refines_queueGet hpc ha

/-- The queue is a FIFO queue in every interleaving of its threads, whatever nodes they reuse. -/
theorem queue_fifo (st : QueueRoot τ ν α) (hst : st.Reachable) : Fifo st.history := by
  obtain ⟨next, value, hsteps⟩ := hst
  have hinit : ∃ g, Layout (alloc next value : QueueRoot τ ν α) g ∧
      Queue.empty = (alloc next value : QueueRoot τ ν α).view g :=
    ⟨_, layout_alloc next value, rfl⟩
  obtain ⟨q, ⟨g, -, rfl⟩, hinv⟩ :=
    Queue.fifo_of_simulation (fun st q => ∃ g, Layout st g ∧ q = st.view g) hinit
      (fun s s' q ⟨a, ha⟩ ⟨g, hlayout, hq⟩ => by
        obtain ⟨g', hlayout', hstep⟩ := hlayout.refines_perform ha
        exact ⟨s'.view g', hq ▸ hstep, g', hlayout', rfl⟩) hsteps
  exact hinv.fifo

def performAll (st : QueueRoot τ ν α) (as : List (ThreadAction τ ν α)) :
    Option (QueueRoot τ ν α) :=
  as.foldlM perform st

theorem steps_of_performAll {as : List (ThreadAction τ ν α)} (h : st.performAll as = some st') :
    ReflTransGen Steps st st' := by
  induction as generalizing st with
  | nil =>
    obtain rfl := Option.some_inj.mp h
    exact ReflTransGen.refl
  | cons a as ih =>
    obtain ⟨st'', ha, has⟩ := Option.bind_eq_some_iff.mp h
    exact (ReflTransGen.single ⟨a, ha⟩).trans (ih has)

theorem queue_fifo_retry :
    ∃ st : QueueRoot ℕ ℕ ℕ, st.Reachable ∧ puts st.history = [6, 5] ∧ gets st.history = [6] ∧
      Event.returned 2 none ∈ st.history ∧ Fifo st.history := by
  let as : List (ThreadAction ℕ ℕ ℕ) :=
    [.queuePut 0 0 5, .run 0, .run 0, .queueGet 2, .run 2, .run 2, .run 2, .queuePut 1 1 6, .run 1,
      .run 1, .run 1, .run 0, .run 0, .run 0, .run 0, .run 2, .run 2, .queueGet 3] ++
    List.replicate 16 (.run 3)
  have hrun : ((alloc (fun _ => none) (fun _ => 0)).performAll as).isSome = true := by decide
  obtain ⟨st, hst⟩ := Option.isSome_iff_exists.mp hrun
  have hreach : st.Reachable := ⟨_, _, steps_of_performAll hst⟩
  have hhistory : ((alloc (fun _ => none) (fun _ => 0)).performAll as).map history =
      some [.called 2, .put 6, .put 5, .returned 2 none, .called 3, .returned 3 (some 6)] := by
    rfl
  rw [hst] at hhistory
  have heq := Option.some_inj.mp hhistory
  refine ⟨st, hreach, ?_, ?_, ?_, queue_fifo st hreach⟩
  · rw [heq]
    rfl
  · rw [heq]
    rfl
  · rw [heq]
    simp

end QueueRoot

end SBlktrace
