import SBlktrace.NetServer
import Mathlib

namespace SBlktrace

open Function

inductive OpenFailure where
  | fillOfname
  | fopen
  | setvbuf
deriving DecidableEq

structure OutFile where
  ofp : Option ℕ
  obuf : Option ℕ

/-- The FILEs that `fopen` and the buffers that `malloc` gave out, by numbers below `files` and
`bufs`, with those that were closed and freed, and those that were truncated. -/
structure OutFiles where
  files : ℕ
  bufs : ℕ
  closed : List ℕ
  freed : List ℕ
  truncated : List ℕ
  closed_lt : ∀ f ∈ closed, f < files
  freed_lt : ∀ b ∈ freed, b < bufs

namespace OutFiles

def newFile (w : OutFiles) : OutFiles :=
  { w with
    files := w.files + 1
    bufs := w.bufs + 1
    closed_lt := fun f hf => Nat.lt_succ_of_lt (w.closed_lt f hf)
    freed_lt := fun b hb => Nat.lt_succ_of_lt (w.freed_lt b hb) }

/-- The functions below are `none` where the code would use a FILE that is NULL or closed, or free a
buffer twice. -/
def ftruncate (w : OutFiles) (ofp : Option ℕ) : Option OutFiles :=
  match ofp with
  | none => none
  | some f =>
    if f < w.files ∧ f ∉ w.closed then some { w with truncated := w.truncated ++ [f] } else none

def fclose (w : OutFiles) (f : ℕ) : Option OutFiles :=
  if h : f < w.files ∧ f ∉ w.closed then
    some { w with
      closed := w.closed ++ [f]
      closed_lt := fun g hg => by
        obtain hg | hg := List.mem_append.mp hg
        · exact w.closed_lt g hg
        · rw [List.mem_singleton.mp hg]
          exact h.1 }
  else none

def free (w : OutFiles) (b : ℕ) : Option OutFiles :=
  if h : b < w.bufs ∧ b ∉ w.freed then
    some { w with
      freed := w.freed ++ [b]
      freed_lt := fun c hc => by
        obtain hc | hc := List.mem_append.mp hc
        · exact w.freed_lt c hc
        · rw [List.mem_singleton.mp hc]
          exact h.1 }
  else none

/-- The result is `true` where the source returns 1. `set_vbuf` frees the buffer and `iop_open` closes
the FILE, but both pointers stay. -/
def iopOpen (w : OutFiles) (answer : Option OpenFailure) : Option (OutFiles × OutFile × Bool) :=
  match answer with
  | some .fillOfname => some (w, ⟨none, none⟩, true)
  | some .fopen => some (w, ⟨none, none⟩, true)
  | some .setvbuf => do
    let freed ← w.newFile.free w.bufs
    let closed ← freed.fclose w.files
    return (closed, ⟨some w.files, some w.bufs⟩, true)
  | none => some (w.newFile, ⟨some w.files, some w.bufs⟩, false)

def closeIop (pipedOutput : Bool) (w : OutFiles) (iop : OutFile) : Option OutFiles := do
  let w ← if pipedOutput then some w else w.ftruncate iop.ofp
  let w ← match iop.ofp with
    | none => some w
    | some f => w.fclose f
  match iop.obuf with
    | none => some w
    | some b => w.free b

def openIos (answers : ℕ → Option OpenFailure) :
    ℕ → ℕ → OutFiles → Option (OutFiles × List OutFile × Bool)
  | 0, _, w => some (w, [], false)
  | n + 1, cpu, w => do
    let opened ← w.iopOpen (answers cpu)
    if opened.2.2 then return (opened.1, [opened.2.1], true)
    else
      let rest ← openIos answers n (cpu + 1) opened.1
      return (rest.1, opened.2.1 :: rest.2.1, rest.2.2)

end OutFiles

structure FileServer (κ : Type) where
  ns : NetServer κ
  ndevs : ℕ → ℤ
  out : OutFiles

namespace FileServer

variable {κ : Type} [DecidableEq κ]

/-- The device is `none` where NULL is returned. -/
def ncAddDpp (pipedOutput : Bool) (answers : ℕ → Option OpenFailure) (s : FileServer κ)
    (nc : ClConn) (bnh : BlktraceNetHdr) (connectTime : ℤ) :
    Option (FileServer κ × Option ℕ) := do
  let added ← s.ns.ncAddDpp nc bnh connectTime
  let ndevs := update s.ndevs nc.ch (s.ndevs nc.ch + 1)
  let opened ← OutFiles.openIos answers nc.ncpus.toNat 0 s.out
  if opened.2.2 then
    let out ← opened.2.1.reverse.foldlM (OutFiles.closeIop pipedOutput) opened.1
    -- `dpp_free`, which does not unlink the device
    let ns := { added.1 with dpp := update added.1.dpp added.2 none }
    return (⟨ns, ndevs, out⟩, none)
  else return (⟨added.1, ndevs, opened.1⟩, some added.2)

def ncFindDpp (pipedOutput : Bool) (answers : ℕ → Option OpenFailure) (s : FileServer κ)
    (nc : ClConn) (bnh : BlktraceNetHdr) : Option (FileServer κ × Option ℕ) := do
  let ch ← s.ns.ch nc.ch
  let found ← s.ns.findDpp bnh nc.connectTime ch.devpaths
  match found with
  | .inl d => some (s, some d)
  | .inr connectTime => s.ncAddDpp pipedOutput answers nc bnh connectTime

def connOf (nc : ClConn) (bnh : BlktraceNetHdr) : ClConn :=
  if nc.ncpus = -1 then { nc with ncpus := asInt bnh.maxCpus } else nc

/-- `none` also where `dpp` is NULL and followed. -/
def netClientData (pipedOutput : Bool) (answers : ℕ → Option OpenFailure) (s : FileServer κ)
    (id : κ) (bnh : BlktraceNetHdr) (payload : List UInt8) : Option (FileServer κ) := do
  let nc ← s.ns.conn id
  let nc := connOf nc bnh
  let ns := { s.ns with conn := update s.ns.conn id (some nc) }
  let found ← { s with ns := ns }.ncFindDpp pipedOutput answers nc bnh
  let s := found.1
  if bnh.len = 0 then
    let _ ← found.2
    let ns ← s.ns.opened nc.ch
    return { s with ns := ns }
  else if bnh.len = 1 then
    let d ← found.2
    let ns ← s.ns.closed nc d bnh
    return { s with ns := ns }
  else
    let d ← found.2
    let ns ← s.ns.netClientReadData d bnh payload
    return { s with ns := ns }

def ListKept (pipedOutput : Bool) (answers : ℕ → Option OpenFailure) (s : FileServer κ)
    (nc : ClConn) (bnh : BlktraceNetHdr) (connectTime : ℤ) : Prop :=
  ∃ s', s.ncAddDpp pipedOutput answers nc bnh connectTime = some (s', none) ∧
    (s'.ns.ch nc.ch).map ClHost.devpaths = (s.ns.ch nc.ch).map ClHost.devpaths ∧
    s'.ndevs nc.ch = s.ndevs nc.ch

/-- NULL is returned, and of the FILEs precisely those that the call has opened were closed, each
once; no other was truncated. -/
def FilesClosed (pipedOutput : Bool) (answers : ℕ → Option OpenFailure) (s : FileServer κ)
    (nc : ClConn) (bnh : BlktraceNetHdr) (connectTime : ℤ) : Prop :=
  ∃ s', s.ncAddDpp pipedOutput answers nc bnh connectTime = some (s', none) ∧
    (∃ closed, s'.out.closed = s.out.closed ++ closed ∧
      closed.Perm (List.range' s.out.files (s'.out.files - s.out.files))) ∧
    ∃ truncated, s'.out.truncated = s.out.truncated ++ truncated ∧
      ∀ f ∈ truncated, s.out.files ≤ f

end FileServer

namespace OutFiles

variable {answers : ℕ → Option OpenFailure} {w : OutFiles} {kind : OpenFailure} {n k cpu : ℕ}
  {pipedOutput : Bool}

@[simp] theorem newFile_files (w : OutFiles) : w.newFile.files = w.files + 1 := rfl

@[simp] theorem newFile_bufs (w : OutFiles) : w.newFile.bufs = w.bufs + 1 := rfl

theorem iopOpen_fails (w : OutFiles) (kind : OpenFailure) :
    ∃ w' iop, w.iopOpen (some kind) = some (w', iop, true) ∧
      (kind ≠ .setvbuf → w' = w ∧ iop = ⟨none, none⟩) ∧
      (kind = .setvbuf → ∃ f ∈ w'.closed, iop.ofp = some f) := by
  cases kind with
  | fillOfname => exact ⟨w, _, rfl, fun _ => ⟨rfl, rfl⟩, fun h => by cases h⟩
  | fopen => exact ⟨w, _, rfl, fun _ => ⟨rfl, rfl⟩, fun h => by cases h⟩
  | setvbuf =>
    have hbuf : w.bufs < w.newFile.bufs ∧ w.bufs ∉ w.newFile.freed :=
      ⟨Nat.lt_succ_self _, fun h => lt_irrefl _ (w.freed_lt _ h)⟩
    have hfile : w.files < w.newFile.files ∧ w.files ∉ w.newFile.closed :=
      ⟨Nat.lt_succ_self _, fun h => lt_irrefl _ (w.closed_lt _ h)⟩
    simp only [iopOpen, free, dif_pos hbuf, Option.bind_eq_bind, Option.bind_some, fclose]
    rw [dif_pos hfile]
    refine ⟨_, _, rfl, fun h => absurd rfl h, fun _ => ⟨w.files, ?_, rfl⟩⟩
    simp

theorem closeIop_failed {iop : OutFile} (hkind : kind ≠ .setvbuf → iop = ⟨none, none⟩)
    (hset : kind = .setvbuf → ∃ f ∈ w.closed, iop.ofp = some f) :
    w.closeIop pipedOutput iop = if pipedOutput ∧ kind ≠ .setvbuf then some w else none := by
  by_cases hk : kind = .setvbuf
  · obtain ⟨f, hf, hofp⟩ := hset hk
    have hclosed : ¬(f < w.files ∧ f ∉ w.closed) := fun h => h.2 hf
    rw [if_neg fun h => h.2 hk, closeIop, hofp]
    cases pipedOutput with
    | false => simp [ftruncate, hclosed]
    | true => simp [fclose, hclosed]
  · rw [hkind hk, closeIop]
    cases pipedOutput with
    | false => simp [ftruncate]
    | true => simp [hk]

theorem closeIop_opened {f b : ℕ} (hf : f < w.files ∧ f ∉ w.closed)
    (hb : b < w.bufs ∧ b ∉ w.freed) :
    ∃ w', w.closeIop true ⟨some f, some b⟩ = some w' ∧ w'.closed = w.closed ++ [f] ∧
      w'.freed = w.freed ++ [b] ∧ w'.files = w.files ∧ w'.bufs = w.bufs ∧
      w'.truncated = w.truncated := by
  simp only [closeIop, if_true, Option.bind_eq_bind, Option.bind_some, fclose, dif_pos hf, free]
  rw [dif_pos hb]
  exact ⟨_, rfl, rfl, rfl, rfl, rfl, rfl⟩

theorem openIos_fails (hk : k < n) (hbefore : ∀ j < k, answers (cpu + j) = none)
    (hfail : answers (cpu + k) = some kind) :
    ∃ w' ios, openIos answers n cpu w = some (w', ios, true) ∧
      (¬(pipedOutput ∧ kind ≠ .setvbuf) →
        ios.reverse.foldlM (closeIop pipedOutput) w' = none) ∧
      (pipedOutput ∧ kind ≠ .setvbuf →
        ∃ w'', ios.reverse.foldlM (closeIop pipedOutput) w' = some w'' ∧
          w''.files = w.files + k ∧ w''.bufs = w.bufs + k ∧
          w''.closed = w.closed ++ (List.range' w.files k).reverse ∧
          w''.freed = w.freed ++ (List.range' w.bufs k).reverse ∧
          w''.truncated = w.truncated) := by
  induction k generalizing n cpu w with
  | zero =>
    obtain ⟨n, rfl⟩ := Nat.exists_eq_succ_of_ne_zero (Nat.ne_zero_of_lt hk)
    obtain ⟨w', iop, hopen, hkind, hset⟩ := iopOpen_fails w kind
    have hclose : w'.closeIop pipedOutput iop =
        if pipedOutput ∧ kind ≠ .setvbuf then some w' else none :=
      closeIop_failed (fun h => (hkind h).2) hset
    have hios : openIos answers (n + 1) cpu w = some (w', [iop], true) := by
      rw [openIos, ← Nat.add_zero cpu, hfail, hopen]
      rfl
    refine ⟨w', [iop], hios, fun h => ?_, fun h => ⟨w', ?_, ?_⟩⟩
    · rw [List.reverse_singleton, List.foldlM_cons, hclose, if_neg h]
      rfl
    · rw [List.reverse_singleton, List.foldlM_cons, hclose, if_pos h]
      rfl
    · obtain ⟨rfl, -⟩ := hkind h.2
      simp
  | succ k ih =>
    obtain ⟨n, rfl⟩ := Nat.exists_eq_succ_of_ne_zero (Nat.ne_zero_of_lt hk)
    obtain ⟨w', ios, hopen, hfault, hclose⟩ := @ih w.newFile n (cpu + 1) (by omega)
      (fun j hj => by rw [Nat.add_assoc, Nat.add_comm 1]; exact hbefore (j + 1) (by omega))
      (by rw [Nat.add_assoc, Nat.add_comm 1]; exact hfail)
    have hfirst : answers cpu = none := hbefore 0 (Nat.succ_pos k)
    have hios : openIos answers (n + 1) cpu w =
        some (w', ⟨some w.files, some w.bufs⟩ :: ios, true) := by
      rw [openIos, hfirst]
      simp only [iopOpen, Option.bind_eq_bind, Option.bind_some, Bool.false_eq_true, if_false,
        hopen]
      rfl
    refine ⟨w', _, hios, fun h => ?_, fun h => ?_⟩
    · rw [List.reverse_cons, List.foldlM_append, hfault h]
      rfl
    · obtain ⟨w₁, hrun, hfiles, hbufs, hclosed, hfreed, htrunc⟩ := hclose h
      have hf : w.files < w₁.files ∧ w.files ∉ w₁.closed := by
        refine ⟨by rw [hfiles]; exact Nat.lt_of_lt_of_le (Nat.lt_succ_self _) (Nat.le_add_right _ _),
          ?_⟩
        rw [hclosed, List.mem_append, List.mem_reverse, List.mem_range'_1]
        rintro (hmem | hmem)
        · exact lt_irrefl _ (w.closed_lt _ hmem)
        · exact absurd hmem.1 (Nat.not_succ_le_self _)
      have hb : w.bufs < w₁.bufs ∧ w.bufs ∉ w₁.freed := by
        refine ⟨by rw [hbufs]; exact Nat.lt_of_lt_of_le (Nat.lt_succ_self _) (Nat.le_add_right _ _),
          ?_⟩
        rw [hfreed, List.mem_append, List.mem_reverse, List.mem_range'_1]
        rintro (hmem | hmem)
        · exact lt_irrefl _ (w.freed_lt _ hmem)
        · exact absurd hmem.1 (Nat.not_succ_le_self _)
      obtain ⟨w₂, hlast, hclosed₂, hfreed₂, hfiles₂, hbufs₂, htrunc₂⟩ := closeIop_opened hf hb
      refine ⟨w₂, ?_, ?_, ?_, ?_, ?_, ?_⟩
      · rw [List.reverse_cons, List.foldlM_append, hrun]
        rw [h.1] at *
        simp [hlast]
      · rw [hfiles₂, hfiles, newFile_files]
        omega
      · rw [hbufs₂, hbufs, newFile_bufs]
        omega
      · rw [hclosed₂, hclosed, List.range'_succ, List.reverse_cons, List.append_assoc]
        rfl
      · rw [hfreed₂, hfreed, List.range'_succ, List.reverse_cons, List.append_assoc]
        rfl
      · rw [htrunc₂, htrunc]
        rfl

end OutFiles

namespace FileServer

variable {κ : Type} {answers : ℕ → Option OpenFailure} {s : FileServer κ} {nc : ClConn}
  {bnh : BlktraceNetHdr} {ch : ClHost κ} {kind : OpenFailure} {k : ℕ} {pipedOutput : Bool}

theorem ncAddDpp_fails (hch : s.ns.ch nc.ch = some ch) (connectTime : ℤ)
    (hk : k < nc.ncpus.toNat) (hbefore : ∀ j < k, answers j = none)
    (hfail : answers k = some kind) :
    (¬(pipedOutput ∧ kind ≠ .setvbuf) →
      s.ncAddDpp pipedOutput answers nc bnh connectTime = none) ∧
    (pipedOutput ∧ kind ≠ .setvbuf →
      ∃ s', s.ncAddDpp pipedOutput answers nc bnh connectTime = some (s', none) ∧
        s'.ns.ch nc.ch = some { ch with devpaths := ch.devpaths ++ [s.ns.dpps] } ∧
        s'.ns.dpp s.ns.dpps = none ∧ s'.ndevs nc.ch = s.ndevs nc.ch + 1 ∧
        s'.out.files = s.out.files + k ∧
        s'.out.closed = s.out.closed ++ (List.range' s.out.files k).reverse ∧
        s'.out.truncated = s.out.truncated) := by
  obtain ⟨w', ios, hopen, hfault, hclose⟩ := @OutFiles.openIos_fails answers s.out kind
    nc.ncpus.toNat k 0 pipedOutput hk (fun j hj => by rw [Nat.zero_add]; exact hbefore j hj)
    (by rw [Nat.zero_add]; exact hfail)
  have hadd : s.ncAddDpp pipedOutput answers nc bnh connectTime =
      (ios.reverse.foldlM (OutFiles.closeIop pipedOutput) w').bind fun out =>
        (s.ns.ncAddDpp nc bnh connectTime).bind fun added =>
          some (⟨{ added.1 with dpp := update added.1.dpp added.2 none },
            update s.ndevs nc.ch (s.ndevs nc.ch + 1), out⟩, none) := by
    rw [FileServer.ncAddDpp, NetServer.ncAddDpp, hch]
    simp only [Option.bind_eq_bind, Option.bind_some, hopen, if_true]
    rfl
  constructor
  · intro h
    rw [hadd, hfault h]
    rfl
  · intro h
    obtain ⟨w'', hrun, hfiles, -, hclosed, -, htrunc⟩ := hclose h
    rw [hadd, hrun, NetServer.ncAddDpp, hch]
    refine ⟨_, rfl, ?_, ?_, ?_, hfiles, hclosed, htrunc⟩
    · exact update_self _ _ _
    · exact update_self _ _ _
    · exact update_self _ _ _

theorem netClientData_fails [DecidableEq κ] {id : κ} {connectTime : ℤ}
    (hconn : s.ns.conn id = some nc) (hch : s.ns.ch nc.ch = some ch)
    (hnew : NetServer.findDpp
      { s.ns with conn := update s.ns.conn id (some (connOf nc bnh)) } bnh nc.connectTime
        ch.devpaths = some (.inr connectTime))
    (hk : k < (connOf nc bnh).ncpus.toNat) (hbefore : ∀ j < k, answers j = none)
    (hfail : answers k = some kind) (payload : List UInt8) :
    s.netClientData pipedOutput answers id bnh payload = none := by
  have hfields : (connOf nc bnh).ch = nc.ch ∧ (connOf nc bnh).connectTime = nc.connectTime := by
    unfold connOf
    split <;> exact ⟨rfl, rfl⟩
  have hadd := @ncAddDpp_fails κ answers
    { s with ns := { s.ns with conn := update s.ns.conn id (some (connOf nc bnh)) } }
    (connOf nc bnh) bnh ch kind k pipedOutput (by rw [hfields.1]; exact hch) connectTime hk
    hbefore hfail
  have hfind : FileServer.ncFindDpp pipedOutput answers
      { s with ns := { s.ns with conn := update s.ns.conn id (some (connOf nc bnh)) } }
      (connOf nc bnh) bnh =
      FileServer.ncAddDpp pipedOutput answers
        { s with ns := { s.ns with conn := update s.ns.conn id (some (connOf nc bnh)) } }
        (connOf nc bnh) bnh connectTime := by
    rw [FileServer.ncFindDpp, hfields.1, hfields.2]
    dsimp only
    rw [hch]
    dsimp only [Option.bind_eq_bind, Option.bind_some]
    rw [hnew]
    rfl
  rw [FileServer.netClientData, hconn]
  dsimp only [Option.bind_eq_bind, Option.bind_some]
  rw [hfind]
  by_cases h : pipedOutput = true ∧ kind ≠ .setvbuf
  · obtain ⟨s', hs', -⟩ := hadd.2 h
    rw [hs']
    dsimp only [Option.bind_some]
    split
    · rfl
    · split <;> rfl
  · rw [hadd.1 h]
    rfl

theorem not_listKept (hch : s.ns.ch nc.ch = some ch) (connectTime : ℤ)
    (hk : k < nc.ncpus.toNat) (hbefore : ∀ j < k, answers j = none)
    (hfail : answers k = some kind) :
    ¬s.ListKept pipedOutput answers nc bnh connectTime := by
  rintro ⟨s', hs', -, hndevs⟩
  obtain ⟨hfault, hleft⟩ := @ncAddDpp_fails κ answers s nc bnh ch kind k pipedOutput hch
    connectTime hk hbefore hfail
  by_cases h : pipedOutput = true ∧ kind ≠ .setvbuf
  · obtain ⟨s₁, hs₁, -, -, hmore, -⟩ := hleft h
    rw [hs'] at hs₁
    cases hs₁
    omega
  · rw [hfault h] at hs'
    cases hs'

theorem filesClosed_iff (hch : s.ns.ch nc.ch = some ch) (connectTime : ℤ)
    (hk : k < nc.ncpus.toNat) (hbefore : ∀ j < k, answers j = none)
    (hfail : answers k = some kind) :
    s.FilesClosed pipedOutput answers nc bnh connectTime ↔
      pipedOutput = true ∧ kind ≠ .setvbuf := by
  obtain ⟨hfault, hleft⟩ := @ncAddDpp_fails κ answers s nc bnh ch kind k pipedOutput hch
    connectTime hk hbefore hfail
  constructor
  · rintro ⟨s', hs', -⟩
    by_contra h
    rw [hfault h] at hs'
    cases hs'
  · intro h
    obtain ⟨s', hs', -, -, -, hfiles, hclosed, htrunc⟩ := hleft h
    refine ⟨s', hs', ⟨_, hclosed, ?_⟩, [], ?_, List.forall_mem_nil _⟩
    · rw [hfiles, Nat.add_sub_cancel_left]
      exact List.reverse_perm _
    · rw [htrunc, List.append_nil]

/-- Whenever `iop_open` fails, the host keeps the device that is freed, and the caller follows NULL if
it gets that far; the files are closed as they should be in pipe mode only, and not if `setvbuf`
failed. -/
theorem nc_add_dpp_failure [DecidableEq κ] (pipedOutput : Bool)
    (answers : ℕ → Option OpenFailure) (s : FileServer κ) (id : κ) (bnh : BlktraceNetHdr)
    (payload : List UInt8) (nc : ClConn) (ch : ClHost κ) (connectTime : ℤ) (k : ℕ)
    (kind : OpenFailure) (hconn : s.ns.conn id = some nc)
    (hch : s.ns.ch (connOf nc bnh).ch = some ch)
    (hnew : NetServer.findDpp
      { s.ns with conn := update s.ns.conn id (some (connOf nc bnh)) } bnh nc.connectTime
        ch.devpaths = some (.inr connectTime))
    (hk : k < (connOf nc bnh).ncpus.toNat) (hbefore : ∀ j < k, answers j = none)
    (hfail : answers k = some kind) :
    ¬s.ListKept pipedOutput answers (connOf nc bnh) bnh connectTime ∧
      (s.FilesClosed pipedOutput answers (connOf nc bnh) bnh connectTime ↔
        pipedOutput = true ∧ kind ≠ .setvbuf) ∧
      s.netClientData pipedOutput answers id bnh payload = none := by
  have hsame : (connOf nc bnh).ch = nc.ch := by
    unfold connOf
    split <;> rfl
  exact ⟨not_listKept hch connectTime hk hbefore hfail,
    filesClosed_iff hch connectTime hk hbefore hfail,
    netClientData_fails hconn (by rw [← hsame]; exact hch) hnew hk hbefore hfail payload⟩

def oneConnection : FileServer ℕ where
  ns :=
    { (NetServer.netServer : NetServer ℕ) with
      connList := [0]
      chList := [0]
      conn := update (fun _ => none) 0 (some ⟨0, -1, 100⟩)
      ch := update (fun _ => none) 0 (some ⟨1, [0], [], 0⟩)
      chs := 1 }
  ndevs _ := 0
  out := ⟨0, 0, [], [], [], List.forall_mem_nil _, List.forall_mem_nil _⟩

def openHeader : BlktraceNetHdr := ⟨"sda", 0, 2, 0, 7⟩

def secondFopenFails (cpu : ℕ) : Option OpenFailure := if cpu = 1 then some .fopen else none

theorem nc_add_dpp_failure_second :
    ¬oneConnection.ListKept false secondFopenFails (connOf ⟨0, -1, 100⟩ openHeader) openHeader 100 ∧
      (oneConnection.FilesClosed false secondFopenFails (connOf ⟨0, -1, 100⟩ openHeader) openHeader
          100 ↔
        false = true ∧ OpenFailure.fopen ≠ .setvbuf) ∧
      oneConnection.netClientData false secondFopenFails 0 openHeader [] = none :=
  nc_add_dpp_failure false secondFopenFails oneConnection 0 openHeader [] ⟨0, -1, 100⟩
    ⟨1, [0], [], 0⟩ 100 1 .fopen rfl rfl rfl (by decide) (by decide) (by decide)

/-- The file of the second CPU cannot be opened: the server crashes on the FILE that is NULL, and on
the device that is NULL if that did not happen. -/
theorem second_fopen_crashes :
    (∀ pipedOutput,
      oneConnection.netClientData pipedOutput secondFopenFails 0 openHeader [] = none) ∧
      ¬∀ (pipedOutput : Bool) (answers : ℕ → Option OpenFailure) (s : FileServer ℕ) (id : ℕ)
        (bnh : BlktraceNetHdr) (payload : List UInt8) (nc : ClConn) (ch : ClHost ℕ)
        (connectTime : ℤ) (k : ℕ) (kind : OpenFailure), s.ns.conn id = some nc →
        s.ns.ch (connOf nc bnh).ch = some ch →
        NetServer.findDpp { s.ns with conn := update s.ns.conn id (some (connOf nc bnh)) } bnh
          nc.connectTime ch.devpaths = some (.inr connectTime) →
        k < (connOf nc bnh).ncpus.toNat → (∀ j < k, answers j = none) →
        answers k = some kind →
        s.ListKept pipedOutput answers (connOf nc bnh) bnh connectTime ∧
          s.FilesClosed pipedOutput answers (connOf nc bnh) bnh connectTime ∧
          s.netClientData pipedOutput answers id bnh payload ≠ none := by
  have hcrash (pipedOutput : Bool) :
      oneConnection.netClientData pipedOutput secondFopenFails 0 openHeader [] = none := by
    exact @netClientData_fails ℕ secondFopenFails oneConnection ⟨0, -1, 100⟩ openHeader
      ⟨1, [0], [], 0⟩ .fopen 1 pipedOutput _ 0 100 rfl rfl rfl (by decide) (by decide) (by decide) []
  refine ⟨hcrash, fun hall => ?_⟩
  obtain ⟨-, -, hruns⟩ := hall false secondFopenFails oneConnection 0 openHeader []
    ⟨0, -1, 100⟩ ⟨1, [0], [], 0⟩ 100 1 .fopen rfl rfl rfl (by decide) (by decide) (by decide)
  exact hruns (hcrash false)

end FileServer

end SBlktrace
