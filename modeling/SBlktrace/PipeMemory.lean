import SBlktrace.PipeTreeRuns

namespace SBlktrace

open RBTree Function

/-- The state of pipe mode with the traces in memory: `trace_list` is a list of addresses, and the
trees are those of `trees`. The lists of `mode` are not used. -/
structure PipeMemory where
  trees : PipeTrees
  traceList : List UInt64
  mode : PipeMode

namespace PipeMemory

/-- The address of a new trace is in use by no other trace, as long as there are fewer than
`limit`. -/
def FreshTrace (malloc : PipeMemory → UInt64) (limit : ℕ) : Prop :=
  ∀ m t, PipeTrees.Holding m.trees t → (∀ k, (t (some k)).toList = []) →
    (t none).toList.length + m.traceList.length < limit →
    malloc m ∉ (t none).toList ∧ malloc m ∉ m.traceList ∧ malloc m ≠ 0 ∧ Aligned (malloc m)

section

variable (fuel : ℕ) (malloc : PipeMemory → UInt64) (opts : BlkparseOptions)

def readEvents (m : PipeMemory) (events : ℕ) : List PipeItem → PipeMemory × ℕ × List PipeItem
  | [] => (m, events, [])
  | .gap :: input =>
    if opts.rbBatch ≤ events then (m, events, .gap :: input)
    else if events = 0 then readEvents m events input
    else (m, events, input)
  | .record bit :: input =>
    if opts.rbBatch ≤ events then (m, events, .record bit :: input)
    else if ¬bit.checkMagic then (m, events, input)
    else if bit.verifyTrace ≠ 0 then readEvents m events input
    else if bit.isNotify then
      readEvents { m with mode := { m.mode with notified := m.mode.notified ++ [bit] } } events input
    else
      readEvents { m with
        trees := m.trees.newTrace (malloc m) ⟨bit, m.mode.readSequence⟩
        traceList := malloc m :: m.traceList } (events + 1) input

def sortEntry (acc : PipeMemory × UInt64) (a : UInt64) : Option (PipeMemory × UInt64) := do
  let m := acc.1
  let t := m.trees.trace a
  let bit := t.bit.relative m.mode.genesisTime
  let m := { m with trees := m.trees.newTrace a { t with bit := bit } }
  let youngest := if bit.time < acc.2 ∨ acc.2 = 0 then bit.time else acc.2
  let pci := m.mode.cpus (bit.device, bit.cpu)
  let pci := if bit.sequence.toUInt64 < pci.smallestSeqRead
    then { pci with smallestSeqRead := bit.sequence.toUInt64 } else pci
  let m := { m with
    mode := { m.mode with cpus := update m.mode.cpus (bit.device, bit.cpu) pci } }
  if checkStopwatch opts bit ≠ 0 then return (m, youngest)
  else
    let trees ← m.trees.traceRbInsert fuel none a
    return ({ m with trees := trees }, youngest)

def sortEntries (m : PipeMemory) : Option (PipeMemory × UInt64) :=
  let genesis := if m.mode.genesisTime = 0 then findGenesis (m.traceList.map m.trees.trace)
    else m.mode.genesisTime
  m.traceList.foldlM (sortEntry fuel opts)
    ({ m with mode := { m.mode with genesisTime := genesis }, traceList := [] }, 0)

def walkCpuMap (m : PipeMemory) (device : UInt32) : Option ℤ := do
  let n ← (m.trees.tree none).rbFirst fuel
  let nodes ← (m.trees.tree none).walkFrom .left fuel fuel n
  return checkCpuMap (m.mode.cpuMap device) (nodes.map m.trees.trace)

def skipSequence (m : PipeMemory) (bit : BlkIoTrace) (expectedSequence : UInt64) :
    Option (PipeMemory × ℤ) := do
  let (mode, ret) ← m.mode.skipSequence bit expectedSequence
  return ({ m with mode := mode }, ret)

def checkSequence (m : PipeMemory) (bit : BlkIoTrace) (force : Bool) :
    Option (PipeMemory × ℤ) :=
  let pci := m.mode.cpus (bit.device, bit.cpu)
  let expectedSequence := pci.lastSequence + 1
  if expectedSequence = 0 then
    if bit.sequence = 1 then some (m, 0)
    else if bit.sequence.toUInt64 = pci.smallestSeqRead then some (m, 0)
    else do return (m, ← m.walkCpuMap fuel bit.device)
  else if bit.sequence.toUInt64 = expectedSequence then some (m, 0)
  else if expectedSequence < pci.smallestSeqRead then do
    let n ← m.trees.traceRbFindLast fuel (bit.device, bit.cpu) expectedSequence
    if n = 0 then m.skipSequence bit expectedSequence
    else
      let trees ← m.trees.dropTraceLast fuel bit.device n
      return ({ m with trees := trees }, 0)
  else if ¬force then some (m, 1)
  else m.skipSequence bit expectedSequence

def checkEntry (m : PipeMemory) (bit : BlkIoTrace) (force : Bool) : Option (PipeMemory × ℤ) :=
  if bit.action = blkTnMessage then some (m, 0) else m.checkSequence fuel bit force

/-- `show_entries_rb`, for at most `steps - 1` traces. The devices of a pipe have no files, so
`rb_batch * pdi->nfiles` is 0. -/
def showEntriesRb (force : Bool) : ℕ → PipeMemory → Option PipeMemory
  | 0, _ => none
  | steps + 1, m => do
    let n ← (m.trees.tree none).rbFirst fuel
    if n = 0 then return m
    else
      let t := m.trees.trace n
      if m.mode.readSequence - t.readSequence < 1 ∧ ¬force then return m
      else
        let (m, ret) ← m.checkEntry fuel t.bit force
        if ret ≠ 0 then return m
        else if ¬force ∧ t.bit.time > lastAllowedTime then return m
        else
          let trees ← m.trees.putTrace fuel (opts.rbBatch * 0) t.bit.device n
          showEntriesRb force steps { m with trees := trees, mode := m.mode.showEntry opts t.bit }

def loop (m : PipeMemory) (input : List PipeItem) : Option PipeMemory :=
  match m.readEvents malloc opts 0 input with
  | (m, 0, _) => some m
  | (m, _ + 1, input) => do
    let (m, youngest) ← sortEntries fuel opts
      { m with mode := { m.mode with readSequence := m.mode.readSequence + 1 } }
    if youngest > opts.stopwatchEnd then return m
    else
      let m ← m.showEntriesRb fuel opts false fuel
      m |>.loop input
partial_fixpoint

end

def start (mem : UInt64 → RbNode) (trace : UInt64 → Trace) : PipeMemory :=
  ⟨PipeTrees.noTraces mem trace, [], newPipeMode⟩

/-- `do_pipe`, when no signal stops it. -/
def doPipe (fuel : ℕ) (malloc : PipeMemory → UInt64) (opts : BlkparseOptions)
    (m : PipeMemory) (input : List PipeItem) : Option PipeMemory := do
  let m ← m.loop fuel malloc opts input
  if m.trees.entries none ≠ 0 then m.showEntriesRb fuel opts true fuel else return m

structure Pending (s : PipeTrees) (t : Option Pci → RBNode UInt64) (nodes : List UInt64)
    (ts : List Trace) : Prop where
  list : nodes.map s.trace = ts
  nodup : nodes.Nodup
  apart : ∀ a ∈ nodes, ∀ k, a ∉ (t k).toList
  valid : ∀ a ∈ nodes, a ≠ 0 ∧ Aligned a

def sortOnly (l : List Trace) : Option Pci → List Trace := update (fun _ => []) none l

end PipeMemory

namespace PipeMode

def full (mode : PipeMode) (ts l : List Trace) : PipeMode :=
  { mode with traceList := ts, rbSort := l }

variable {mode : PipeMode} {ts l : List Trace}

theorem skipSequence_full {mode' : PipeMode} {ret : ℤ} {bit : BlkIoTrace} {expected : UInt64}
    (h : mode.skipSequence bit expected = some (mode', ret)) :
    (mode.full ts l).skipSequence bit expected = some (mode'.full ts l, ret) := by
  unfold skipSequence at h ⊢
  change ((mode.cpus (bit.device, bit.cpu)).skips.checkCurrentSkips bit.sequence.toUInt64).bind _ = _
    at h
  change ((mode.cpus (bit.device, bit.cpu)).skips.checkCurrentSkips bit.sequence.toUInt64).bind _ = _
  cases hcheck : (mode.cpus (bit.device, bit.cpu)).skips.checkCurrentSkips bit.sequence.toUInt64 with
  | none =>
    rw [hcheck] at h
    cases h
  | some r =>
    rw [hcheck, Option.bind_some] at h
    rw [Option.bind_some]
    dsimp only at h ⊢
    split_ifs at h ⊢ with hret hlt
    · obtain ⟨rfl, rfl⟩ := Prod.mk.inj (Option.some.inj h)
      rfl
    · cases hins : r.1.insertSkip expected (bit.sequence.toUInt64 - 1) with
      | none =>
        rw [hins] at h
        cases h
      | some skips =>
        rw [hins] at h
        obtain ⟨rfl, rfl⟩ := Prod.mk.inj (Option.some.inj h)
        rfl
    · obtain ⟨rfl, rfl⟩ := Prod.mk.inj (Option.some.inj h)
      rfl

end PipeMode

namespace PipeMemory

variable {m m' : PipeMemory} {t : Option Pci → RBNode UInt64} {nodes : List UInt64}
  {ts l rs : List Trace} {fuel : ℕ} {malloc : PipeMemory → UInt64} {opts : BlkparseOptions}
  {input : List PipeItem} {find : PipeMode → BlkIoTrace → UInt64 → Bool} {force : Bool}

theorem sortOnly_last (l : List Trace) (k : Pci) : sortOnly l (some k) = [] :=
  update_of_ne (Option.some_ne_none k) _ _

theorem sortOnly_sort (l : List Trace) : sortOnly l none = l := update_self _ _ _

theorem last_empty (h : PipeTrees.Mirrors m.trees t (sortOnly l)) (k : Pci) :
    (t (some k)).toList = [] := List.map_eq_nil_iff.mp ((h.list _).trans (sortOnly_last l k))

theorem length_sort (h : PipeTrees.Mirrors m.trees t (sortOnly l)) :
    (t none).toList.length = l.length := by rw [h.length, sortOnly_sort]

theorem Pending.newTrace {s : PipeTrees} {a : UInt64} (h : Pending s t nodes ts) (ha : a ∉ nodes)
    (tr : Trace) : Pending (s.newTrace a tr) t nodes ts where
  list := by
    rw [← h.list]
    exact List.map_congr_left fun z hz => update_of_ne (ne_of_mem_of_not_mem hz ha) _ _
  nodup := h.nodup
  apart := h.apart
  valid := h.valid

theorem readEvents_mirrors (events : ℕ) (h : PipeTrees.Mirrors m.trees t (sortOnly l))
    (hp : Pending m.trees t m.traceList ts) (hfresh : FreshTrace malloc fuel)
    (hfuel : l.length + ts.length + input.length < fuel) :
    ∃ m' ts' n rest, m.readEvents malloc opts events input = (m', n, rest) ∧
      (m.mode.full ts rs).readEvents opts events input = (m'.mode.full ts' rs, n, rest) ∧
      PipeTrees.Mirrors m'.trees t (sortOnly l) ∧ Pending m'.trees t m'.traceList ts' := by
  induction input generalizing m ts events with
  | nil => exact ⟨m, ts, events, [], rfl, rfl, h, hp⟩
  | cons i input ih =>
    rw [List.length_cons] at hfuel
    cases i with
    | gap =>
      rw [readEvents, PipeMode.readEvents]
      by_cases hfull : opts.rbBatch ≤ events
      · rw [if_pos hfull, if_pos hfull]
        exact ⟨m, ts, _, _, rfl, rfl, h, hp⟩
      rw [if_neg hfull, if_neg hfull]
      by_cases hzero : events = 0
      · rw [if_pos hzero, if_pos hzero]
        exact ih _ h hp (by omega)
      · rw [if_neg hzero, if_neg hzero]
        exact ⟨m, ts, _, _, rfl, rfl, h, hp⟩
    | record bit =>
      rw [readEvents, PipeMode.readEvents]
      by_cases hfull : opts.rbBatch ≤ events
      · rw [if_pos hfull, if_pos hfull]
        exact ⟨m, ts, _, _, rfl, rfl, h, hp⟩
      rw [if_neg hfull, if_neg hfull]
      by_cases hmagic : ¬bit.checkMagic
      · rw [if_pos hmagic, if_pos hmagic]
        exact ⟨m, ts, _, _, rfl, rfl, h, hp⟩
      rw [if_neg hmagic, if_neg hmagic]
      by_cases hverify : bit.verifyTrace ≠ 0
      · rw [if_pos hverify, if_pos hverify]
        exact ih _ h hp (by omega)
      rw [if_neg hverify, if_neg hverify]
      by_cases hnotify : bit.isNotify
      · rw [if_pos hnotify, if_pos hnotify]
        exact @ih { m with mode := { m.mode with notified := m.mode.notified ++ [bit] } } ts _ h hp
          (by omega)
      · rw [if_neg hnotify, if_neg hnotify]
        obtain ⟨a, ha⟩ : ∃ a, a = malloc m := ⟨_, rfl⟩
        have hlen : m.traceList.length = ts.length := by rw [← hp.list, List.length_map]
        obtain ⟨hnot, hnotin, hvalid⟩ := hfresh m t h.toHolding (last_empty h)
          (by rw [length_sort h]; omega)
        rw [← ha] at hnot hnotin hvalid ⊢
        have hnone : ∀ k, a ∉ (t k).toList := by
          rintro (_ | k)
          · exact hnot
          · rw [last_empty h k]
            exact List.not_mem_nil
        refine @ih { m with
          trees := m.trees.newTrace a ⟨bit, m.mode.readSequence⟩
          traceList := a :: m.traceList } (⟨bit, m.mode.readSequence⟩ :: ts) _
          (h.newTrace hnone _) ?_ (by rw [List.length_cons]; omega)
        have hp' := hp.newTrace hnotin ⟨bit, m.mode.readSequence⟩
        refine ⟨?_, List.nodup_cons.mpr ⟨hnotin, hp.nodup⟩, fun z hz => ?_, fun z hz => ?_⟩
        · rw [List.map_cons, hp'.list]
          exact congrArg (· :: ts) (update_self _ _ _)
        · obtain rfl | hz := List.mem_cons.mp hz
          · exact hnone
          · exact hp.apart z hz
        · obtain rfl | hz := List.mem_cons.mp hz
          · exact hvalid
          · exact hp.valid z hz

theorem sortEntry_mirrors {a : UInt64} {tr : Trace} (youngest : UInt64)
    (h : PipeTrees.Mirrors m.trees t (sortOnly l)) (hp : Pending m.trees t (a :: nodes) (tr :: ts))
    (hfuel : l.length < fuel) :
    ∃ m' t' youngest' l', sortEntry fuel opts (m, youngest) a = some (m', youngest') ∧
      PipeMode.sortEntry opts (m.mode.full [] l, youngest) tr = (m'.mode.full [] l', youngest') ∧
      PipeTrees.Mirrors m'.trees t' (sortOnly l') ∧ Pending m'.trees t' nodes ts ∧
      m'.traceList = m.traceList ∧ l'.length ≤ l.length + 1 := by
  obtain ⟨rfl, hts⟩ := List.cons.inj hp.list
  obtain ⟨hnot, hnodup⟩ := List.nodup_cons.mp hp.nodup
  obtain ⟨hne, hal⟩ := hp.valid a List.mem_cons_self
  have hnone := hp.apart a List.mem_cons_self
  have hp₀ : Pending m.trees t nodes ts := ⟨hts, hnodup, fun z hz => hp.apart z (.tail _ hz),
    fun z hz => hp.valid z (.tail _ hz)⟩
  have h₁ := h.newTrace hnone { m.trees.trace a with
    bit := (m.trees.trace a).bit.relative m.mode.genesisTime }
  have hp₁ := hp₀.newTrace hnot { m.trees.trace a with
    bit := (m.trees.trace a).bit.relative m.mode.genesisTime }
  obtain ⟨trees, t₂, htrees, htrace, h₂, hnodes₂⟩ := h₁.traceRbInsert hnone hne hal
    (by rwa [sortOnly_sort]) (show ∀ k', none = some k' → _ from nofun)
  rw [PipeTrees.newTrace_self, sortOnly_sort, sortOnly, update_idem] at h₂
  unfold sortEntry PipeMode.sortEntry
  by_cases hwatch : checkStopwatch opts ((m.trees.trace a).bit.relative m.mode.genesisTime) ≠ 0
  · have hwatch' : checkStopwatch opts
        ((m.trees.trace a).bit.relative (m.mode.full [] l).genesisTime) ≠ 0 := hwatch
    simp only [if_pos hwatch, if_pos hwatch']
    exact ⟨_, t, _, l, rfl, rfl, h₁, hp₁, rfl, Nat.le_succ _⟩
  · have hwatch' : ¬checkStopwatch opts
        ((m.trees.trace a).bit.relative (m.mode.full [] l).genesisTime) ≠ 0 := hwatch
    simp only [if_neg hwatch, if_neg hwatch', htrees]
    refine ⟨_, t₂, _, _, rfl, rfl, h₂, ⟨?_, hp₁.nodup, fun z hz k hk => ?_, hp₁.valid⟩, rfl, ?_⟩
    · rw [← hp₁.list, htrace]
    · obtain rfl | hk := hnodes₂ k z hk
      · exact hnot hz
      · exact hp₁.apart z hz k hk
    · exact (rbInsert_length _ l).le

theorem sortAll_mirrors (youngest : UInt64) (h : PipeTrees.Mirrors m.trees t (sortOnly l))
    (hp : Pending m.trees t nodes ts) (hfuel : l.length + ts.length < fuel) :
    ∃ m' t' youngest' l', nodes.foldlM (sortEntry fuel opts) (m, youngest) = some (m', youngest') ∧
      ts.foldl (PipeMode.sortEntry opts) (m.mode.full [] l, youngest) =
        (m'.mode.full [] l', youngest') ∧
      PipeTrees.Mirrors m'.trees t' (sortOnly l') ∧ m'.traceList = m.traceList ∧
      l'.length ≤ l.length + ts.length := by
  induction nodes generalizing m t ts l youngest with
  | nil =>
    cases hp.list
    exact ⟨m, t, youngest, l, rfl, rfl, h, rfl, Nat.le_refl _⟩
  | cons a nodes ih =>
    obtain ⟨tr, ts, rfl⟩ : ∃ tr ts', ts = tr :: ts' := ⟨_, _, hp.list.symm⟩
    rw [List.length_cons] at hfuel ⊢
    obtain ⟨m₁, t₁, y₁, l₁, hrun₁, hlist₁, h₁, hp₁, hempty₁, hlen₁⟩ :=
      @sortEntry_mirrors m t nodes ts l fuel opts a tr youngest h hp (by omega)
    obtain ⟨m₂, t₂, y₂, l₂, hrun₂, hlist₂, h₂, hempty₂, hlen₂⟩ := ih y₁ h₁ hp₁ (by omega)
    refine ⟨m₂, t₂, y₂, l₂, ?_, ?_, h₂, hempty₂.trans hempty₁, by omega⟩
    · rw [List.foldlM_cons, hrun₁]
      exact hrun₂
    · rw [List.foldl_cons, hlist₁, hlist₂]

theorem sortEntries_mirrors (h : PipeTrees.Mirrors m.trees t (sortOnly l))
    (hp : Pending m.trees t m.traceList ts) (hfuel : l.length + ts.length < fuel) :
    ∃ m' t' youngest l', m.sortEntries fuel opts = some (m', youngest) ∧
      (m.mode.full ts l).sortEntries opts = (m'.mode.full [] l', youngest) ∧
      PipeTrees.Mirrors m'.trees t' (sortOnly l') ∧ m'.traceList = [] ∧
      l'.length ≤ l.length + ts.length := by
  obtain ⟨m', t', y', l', hrun, hlist, h', hempty, hlen⟩ := @sortAll_mirrors
    { m with
      mode := { m.mode with
        genesisTime := if m.mode.genesisTime = 0 then findGenesis ts else m.mode.genesisTime }
      traceList := [] } t m.traceList ts l fuel opts 0 h hp hfuel
  refine ⟨m', t', y', l', ?_, hlist, h', hempty, hlen⟩
  rw [sortEntries, hp.list]
  exact hrun

theorem walkCpuMap_mirrors (h : PipeTrees.Mirrors m.trees t (sortOnly l)) (hfuel : l.length < fuel)
    (device : UInt32) : m.walkCpuMap fuel device = some (checkCpuMap (m.mode.cpuMap device) l) := by
  have hsize := (length_sort h).trans_lt hfuel
  have hwalk := @RbState.walk_spec _ .left _ _ (h.tree none).toIsTree hsize
  rw [walkCpuMap, PipeTrees.Holding.rbFirst h.toHolding hsize]
  rw [RbState.firstFrom_spec (h.tree none).toIsTree hsize, Option.bind_some] at hwalk
  rw [Option.bind_eq_bind, Option.bind_some]
  change ((m.trees.tree none).walkFrom .left fuel fuel ((t none).toList.headD 0)).bind _ = _
  rw [show (m.trees.tree none).walkFrom .left fuel fuel ((t none).toList.headD 0) = _ from hwalk]
  have hlist := h.list none
  rw [sortOnly_sort] at hlist
  exact congrArg (fun l => some (checkCpuMap (m.mode.cpuMap device) l)) hlist

theorem skipSequence_mirrors (hr : PipeMode.Regular m.mode) (bit : BlkIoTrace)
    (expected : UInt64) :
    ∃ mode ret, m.skipSequence bit expected = some ({ m with mode := mode }, ret) ∧
      (m.mode.full [] rs).skipSequence bit expected = some (mode.full [] rs, ret) ∧
      PipeMode.Regular mode := by
  obtain ⟨mode, hrun, hr', -⟩ := PipeMode.skipSequence_spec hr bit expected
  refine ⟨mode, 0, ?_, PipeMode.skipSequence_full hrun, hr'⟩
  rw [skipSequence, hrun]
  rfl

theorem checkSequence_mirrors (h : PipeTrees.Mirrors m.trees t (sortOnly l))
    (hr : PipeMode.Regular m.mode) (hfuel : l.length < fuel) (bit : BlkIoTrace) (force : Bool) :
    ∃ mode ret, m.checkSequence fuel bit force = some ({ m with mode := mode }, ret) ∧
      (m.mode.full [] rs).checkSequence find l bit force = some (mode.full [] rs, ret) ∧
      PipeMode.Regular mode := by
  have hnot : ¬(m.mode.cpus (bit.device, bit.cpu)).lastSequence + 1 <
      (m.mode.cpus (bit.device, bit.cpu)).smallestSeqRead := by
    rw [hr.smallest, UInt64.lt_iff_toNat_lt]
    exact Nat.not_lt_zero _
  rw [checkSequence, PipeMode.checkSequence]
  rw [show (m.mode.full [] rs).cpus = m.mode.cpus from rfl, if_neg hnot, if_neg hnot]
  by_cases hfirst : (m.mode.cpus (bit.device, bit.cpu)).lastSequence + 1 = 0
  · rw [if_pos hfirst, if_pos hfirst]
    by_cases hone : bit.sequence = 1
    · rw [if_pos hone, if_pos hone]
      exact ⟨m.mode, 0, rfl, rfl, hr⟩
    rw [if_neg hone, if_neg hone]
    by_cases hsmall : bit.sequence.toUInt64 = (m.mode.cpus (bit.device, bit.cpu)).smallestSeqRead
    · rw [if_pos hsmall, if_pos hsmall]
      exact ⟨m.mode, 0, rfl, rfl, hr⟩
    · rw [if_neg hsmall, if_neg hsmall, walkCpuMap_mirrors h hfuel]
      exact ⟨m.mode, _, rfl, rfl, hr⟩
  rw [if_neg hfirst, if_neg hfirst]
  by_cases hnext : bit.sequence.toUInt64 =
      (m.mode.cpus (bit.device, bit.cpu)).lastSequence + 1
  · rw [if_pos hnext, if_pos hnext]
    exact ⟨m.mode, 0, rfl, rfl, hr⟩
  rw [if_neg hnext, if_neg hnext]
  by_cases hforce : ¬force
  · rw [if_pos hforce, if_pos hforce]
    exact ⟨m.mode, 1, rfl, rfl, hr⟩
  · rw [if_neg hforce, if_neg hforce]
    exact skipSequence_mirrors hr bit _

theorem putLast_nothing (device : UInt32) (tr : Trace) (l : List Trace) :
    PipeTrees.putLast (trimFirst 0) device tr (update (sortOnly (tr :: l)) none l) =
      sortOnly l := by
  have hsort : update (sortOnly (tr :: l)) none l = sortOnly l := update_idem _ _ _
  rw [hsort, PipeTrees.putLast, sortOnly_last, rbInsert, trimFirst,
    if_pos (show [tr].length > 0 from Nat.zero_lt_one)]
  exact (congrArg (update (sortOnly l) _) (sortOnly_last l _).symm).trans (update_eq_self _ _)

theorem showEntriesRb_mirrors (steps : ℕ) (h : PipeTrees.Mirrors m.trees t (sortOnly l))
    (hr : PipeMode.Regular m.mode) (hsteps : l.length < steps) (hfuel : l.length + 1 < fuel) :
    ∃ m' t' l', m.showEntriesRb fuel opts force steps = some m' ∧
      (m.mode.full [] rs).showEntriesRb find opts force l = some (m'.mode.full [] l') ∧
      PipeTrees.Mirrors m'.trees t' (sortOnly l') ∧ PipeMode.Regular m'.mode ∧
      m'.traceList = m.traceList ∧ l'.length ≤ l.length := by
  induction steps generalizing m t l with
  | zero => exact absurd hsteps (Nat.not_lt_zero _)
  | succ steps ih =>
    rw [showEntriesRb]
    cases l with
    | nil =>
      have hfirst := PipeTrees.Holding.rbFirst h.toHolding
        ((length_sort h).trans_lt (Nat.lt_of_succ_lt hfuel))
      rw [show (t none).toList = [] from List.length_eq_zero_iff.mp (length_sort h)] at hfirst
      rw [hfirst]
      exact ⟨m, t, [], rfl, rfl, h, hr, rfl, Nat.le_refl _⟩
    | cons tr l =>
      have hlens : ∀ k, (sortOnly (tr :: l) k).length + 1 < fuel := by
        rintro (_ | k)
        · rwa [sortOnly_sort]
        · rw [sortOnly_last]
          exact (Nat.succ_le_succ (Nat.zero_le _)).trans_lt hfuel
      obtain ⟨n, trees, t₁, hfirst, hn, htr, htrees, -, h₁, -⟩ :=
        h.put (sortOnly_sort _) hlens (opts.rbBatch * 0) tr.bit.device
      rw [Nat.mul_zero, putLast_nothing] at h₁
      rw [hfirst, Option.bind_eq_bind, Option.bind_some, if_neg hn, htr, PipeMode.showEntriesRb]
      dsimp only
      by_cases hnew : m.mode.readSequence - tr.readSequence < 1 ∧ ¬force
      · rw [if_pos hnew, if_pos (show (m.mode.full [] rs).readSequence - tr.readSequence < 1 ∧ ¬force
          from hnew)]
        exact ⟨m, t, tr :: l, rfl, rfl, h, hr, rfl, Nat.le_refl _⟩
      rw [if_neg hnew, if_neg (show ¬((m.mode.full [] rs).readSequence - tr.readSequence < 1 ∧
        ¬force) from hnew)]
      obtain ⟨mode, ret, hcheck, hcheck', hr'⟩ : ∃ mode ret,
          m.checkEntry fuel tr.bit force = some ({ m with mode := mode }, ret) ∧
          (if tr.bit.action = blkTnMessage then some (m.mode.full [] rs, 0)
            else (m.mode.full [] rs).checkSequence find (tr :: l) tr.bit force) =
            some (mode.full [] rs, ret) ∧ PipeMode.Regular mode := by
        unfold checkEntry
        split_ifs with hmessage
        · exact ⟨m.mode, 0, rfl, rfl, hr⟩
        · exact checkSequence_mirrors h hr (Nat.lt_of_succ_lt hfuel) _ _
      rw [hcheck, hcheck', Option.bind_eq_bind, Option.bind_some]
      dsimp only
      by_cases hret : ret ≠ 0
      · rw [if_pos hret, if_pos hret]
        exact ⟨{ m with mode := mode }, t, tr :: l, rfl, rfl, h, hr', rfl, Nat.le_refl _⟩
      rw [if_neg hret, if_neg hret]
      by_cases htime : ¬force ∧ tr.bit.time > lastAllowedTime
      · rw [if_pos htime, if_pos htime]
        exact ⟨{ m with mode := mode }, t, tr :: l, rfl, rfl, h, hr', rfl, Nat.le_refl _⟩
      rw [if_neg htime, if_neg htime, htrees, Option.bind_eq_bind, Option.bind_some]
      rw [List.length_cons] at hsteps hfuel
      obtain ⟨m₂, t₂, l₂, hrun₂, hlist₂, h₂, hr₂, hempty₂, hlen₂⟩ := @ih
        { m with trees := trees, mode := mode.showEntry opts tr.bit } t₁ l h₁ (hr'.showEntry _ _)
        (by omega) (by omega)
      exact ⟨m₂, t₂, l₂, hrun₂, hlist₂, h₂, hr₂, hempty₂, hlen₂.trans (Nat.le_succ _)⟩

theorem loop_mirrors (hb : 1 ≤ opts.rbBatch) (h : PipeTrees.Mirrors m.trees t (sortOnly l))
    (hempty : m.traceList = []) (hr : PipeMode.Regular m.mode) (hfresh : FreshTrace malloc fuel)
    (hfuel : l.length + input.length + 1 < fuel) :
    ∃ m' t' l', m.loop fuel malloc opts input = some m' ∧
      (m.mode.full [] l).loop find opts input = some (m'.mode.full [] l') ∧
      PipeTrees.Mirrors m'.trees t' (sortOnly l') ∧ PipeMode.Regular m'.mode ∧
      l'.length + 1 < fuel := by
  induction hn : input.length using Nat.strong_induction_on generalizing m t l input with
  | _ n ih =>
    obtain ⟨batch, rest, notified, hread, hlen, -⟩ :=
      @PipeMode.readEvents_spec opts input (m.mode.full [] l) [] hb
    have hpending : Pending m.trees t m.traceList [] := by
      rw [hempty]
      exact ⟨rfl, List.nodup_nil, List.forall_mem_nil _, List.forall_mem_nil _⟩
    obtain ⟨m₁, ts₁, events, rest', hmem₁, hlist₁, h₁, hp₁⟩ :=
      @readEvents_mirrors m t [] l l fuel malloc opts input 0 h hpending hfresh
        (by rw [List.length_nil]; omega)
    change (m.mode.full [] l).readEvents opts 0 input = _ at hread
    obtain ⟨hmode, hevents⟩ := Prod.mk.inj (hlist₁.symm.trans hread)
    obtain ⟨rfl, rfl⟩ := Prod.mk.inj hevents
    have hts : ts₁ = (batch.map fun b => ⟨b, m.mode.readSequence⟩).reverse :=
      (congrArg PipeMode.traceList hmode).trans (List.append_nil _)
    have hlen₁ : ts₁.length = batch.length := by rw [hts, List.length_reverse, List.length_map]
    have hr₁ : PipeMode.Regular m₁.mode := by
      refine ⟨fun k => ?_, fun k => ?_, fun device => ?_⟩
      · exact congrFun (congrArg PipeMode.cpus hmode) k ▸ hr.skips k
      · exact (congrArg PerCpuInfo.smallestSeqRead
          (congrFun (congrArg PipeMode.cpus hmode) k)).trans (hr.smallest k)
      · exact (congrFun (congrArg PipeMode.cpuMap hmode) device).trans (hr.offline device)
    rw [List.nil_append] at hmem₁ hlist₁
    rw [loop, PipeMode.loop, hmem₁, hlist₁]
    cases batch with
    | nil =>
      obtain rfl := List.length_eq_zero_iff.mp hlen₁
      exact ⟨m₁, t, l, rfl, rfl, h₁, hr₁, by omega⟩
    | cons b batch =>
      rw [List.length_cons] at hlen hlen₁ ⊢
      obtain ⟨m₂, t₂, youngest, l₂, hmem₂, hlist₂, h₂, hempty₂, hlen₂⟩ := @sortEntries_mirrors
        { m₁ with mode := { m₁.mode with readSequence := m₁.mode.readSequence + 1 } } t ts₁ l fuel
        opts h₁ hp₁ (by omega)
      have hr₂ : PipeMode.Regular m₂.mode := by
        obtain ⟨st, hsort, hr, -⟩ := @PipeMode.sortEntries_spec opts
          (PipeMode.full { m₁.mode with readSequence := m₁.mode.readSequence + 1 } ts₁ l)
          ⟨hr₁.skips, hr₁.smallest, hr₁.offline⟩ (b :: batch) m.mode.readSequence hts
        obtain ⟨rfl, -⟩ := Prod.mk.inj (hsort.symm.trans hlist₂)
        exact ⟨hr.skips, hr.smallest, hr.offline⟩
      change (PipeMode.full { m₁.mode with readSequence := m₁.mode.readSequence + 1 } ts₁ l).sortEntries
        opts = _ at hlist₂
      dsimp only
      rw [hmem₂, Option.bind_eq_bind, Option.bind_some, show PipeMode.sortEntries
        { m₁.mode.full ts₁ l with readSequence := (m₁.mode.full ts₁ l).readSequence + 1 } opts = _
        from hlist₂]
      dsimp only
      by_cases hy : youngest > opts.stopwatchEnd
      · rw [if_pos hy, if_pos hy]
        exact ⟨m₂, t₂, l₂, rfl, rfl, h₂, hr₂, by omega⟩
      rw [if_neg hy, if_neg hy]
      obtain ⟨m₃, t₃, l₃, hmem₃, hlist₃, h₃, hr₃, hempty₃, hlen₃⟩ :=
        @showEntriesRb_mirrors m₂ t₂ l₂ l₂ fuel opts find false fuel h₂ hr₂ (by omega) (by omega)
      obtain ⟨m₄, t₄, l₄, hmem₄, hlist₄, h₄, hr₄, hlen₄⟩ := ih rest'.length (by omega) h₃
        (hempty₃.trans hempty₂) hr₃ (by omega) rfl
      refine ⟨m₄, t₄, l₄, ?_, ?_, h₄, hr₄, hlen₄⟩
      · rw [hmem₃, Option.bind_eq_bind, Option.bind_some]
        exact hmem₄
      · rw [show (m₂.mode.full [] l₂).rbSort = l₂ from rfl, hlist₃, Option.bind_eq_bind,
          Option.bind_some]
        exact hlist₄

/-- `do_pipe` over nodes in memory does what it does over lists of traces: it dumps the same
records in the same order, whatever addresses the traces get; all its trees are red-black, the
sorted one with the traces that are left, and no trace stays in an `rb_last`. -/
theorem pipe_in_memory (mem : UInt64 → RbNode) (trace : UInt64 → Trace)
    (find : PipeMode → BlkIoTrace → UInt64 → Bool) (hb : 1 ≤ opts.rbBatch)
    (hfresh : FreshTrace malloc fuel) (hfuel : input.length + 1 < fuel) :
    ∃ (m : PipeMemory) (t : Option Pci → RBNode UInt64) (st : PipeMode),
      doPipe fuel malloc opts (start mem trace) input = some m ∧
      SBlktrace.doPipe find opts input = some st ∧ m.mode.full st.traceList st.rbSort = st ∧
      (∀ k, (m.trees.tree k).IsRbTree (t k)) ∧ (t none).toList.map m.trees.trace = st.rbSort ∧
      ∀ k, t (some k) = .nil := by
  have hstart : PipeTrees.Mirrors (start mem trace).trees (fun _ => .nil) (sortOnly []) := by
    have hnil : sortOnly [] = fun _ => [] := update_eq_self _ _
    rw [hnil]
    exact PipeTrees.noTraces_mirrors mem trace
  obtain ⟨m, t, l, hmem, hlist, h, hr, hlen⟩ := @loop_mirrors _ _ [] fuel malloc opts input find hb
    hstart rfl newPipeMode_regular hfresh (by rwa [List.length_nil, Nat.zero_add])
  have hdone : ∃ m' t' l', doPipe fuel malloc opts (start mem trace) input = some m' ∧
      SBlktrace.doPipe find opts input = some (m'.mode.full [] l') ∧
      PipeTrees.Mirrors m'.trees t' (sortOnly l') := by
    rw [doPipe, hmem, SBlktrace.doPipe, show newPipeMode.loop find opts input = _ from hlist,
      Option.bind_eq_bind, Option.bind_some, Option.bind_eq_bind, Option.bind_some,
      h.entries, sortOnly_sort]
    cases l with
    | nil => exact ⟨m, t, [], rfl, rfl, h⟩
    | cons tr l =>
      rw [if_pos (show (tr :: l).length ≠ 0 from Nat.succ_ne_zero _),
        if_pos (show (m.mode.full [] (tr :: l)).rbSort ≠ [] from List.cons_ne_nil _ _)]
      obtain ⟨m', t', l', hmem', hlist', h', -⟩ := @showEntriesRb_mirrors m t (tr :: l) (tr :: l)
        fuel opts find true fuel h hr (Nat.lt_of_succ_lt hlen) hlen
      exact ⟨m', t', l', hmem', hlist', h'⟩
  obtain ⟨m', t', l', hmem', hlist', h'⟩ := hdone
  refine ⟨m', t', _, hmem', hlist', rfl, h'.tree, ?_, fun k => ?_⟩
  · rw [h'.list, sortOnly_sort]
    rfl
  · have hempty := last_empty h' k
    cases hk : t' (some k) with
    | nil => rfl
    | node c l x r =>
      rw [hk] at hempty
      simp at hempty

def inUse (m : PipeMemory) : List UInt64 := (m.trees.tree none).addresses 8 ++ m.traceList

theorem freePlace_fresh : FreshTrace (fun m => freePlace m.inUse) 8 := by
  intro m t h hlast hlen
  have huse : m.inUse = (t none).toList ++ m.traceList := by
    rw [inUse, RbState.addresses_eq (h.tree none).toIsTree ((Nat.le_add_right _ _).trans_lt hlen)]
  have hspec := @freePlace_spec m.inUse (by rwa [huse, List.length_append])
  obtain ⟨hnot, hvalid⟩ := hspec
  change freePlace m.inUse ∉ (t none).toList ∧ freePlace m.inUse ∉ m.traceList ∧ _
  rw [huse, List.mem_append, not_or, ← huse] at hnot
  exact ⟨hnot.1, hnot.2, hvalid⟩

def twoCpus : List PipeItem :=
  [.record ⟨0x65617407, 1, 9, 0x10000, 8, 0⟩, .record ⟨0x65617407, 1, 5, 0x10000, 8, 1⟩, .gap,
    .record ⟨0x65617407, 2, 12, 0x10000, 8, 0⟩, .record ⟨0x65617407, 2, 10, 0x10000, 8, 1⟩]

theorem pipe_in_memory_twoCpus :
    ∃ (m : PipeMemory) (t : Option Pci → RBNode UInt64) (st : PipeMode),
      doPipe 8 (fun m => freePlace m.inUse) ⟨2, 0xffff, 0, 100⟩ (start (fun _ => ⟨0, 0, 0⟩) fun _ =>
        ⟨⟨0, 0, 0, 0, 0, 0⟩, 0⟩) twoCpus = some m ∧
      SBlktrace.doPipe (fun _ _ _ => false) ⟨2, 0xffff, 0, 100⟩ twoCpus = some st ∧
      m.mode.dumps = st.dumps ∧ m.mode.cpus = st.cpus ∧ ∀ k, t (some k) = .nil := by
  obtain ⟨m, t, st, hm, hst, hfull, -, -, hnil⟩ := pipe_in_memory (fun _ => ⟨0, 0, 0⟩)
    (fun _ => ⟨⟨0, 0, 0, 0, 0, 0⟩, 0⟩) (fun _ _ _ => false)
    (show 1 ≤ (⟨2, 0xffff, 0, 100⟩ : BlkparseOptions).rbBatch by decide) freePlace_fresh
    (show twoCpus.length + 1 < 8 by decide)
  refine ⟨m, t, st, hm, hst, ?_, ?_, hnil⟩
  · rw [← hfull]
    rfl
  · rw [← hfull]
    rfl

end PipeMemory

end SBlktrace
