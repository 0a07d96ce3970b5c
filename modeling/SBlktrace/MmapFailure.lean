import SBlktrace.OutputWindow
import Mathlib

namespace SBlktrace

def mapFailed : UInt64 := 0xffffffffffffffff

abbrev MapAddr := {addr : UInt64 // addr ≠ 0 ∧ addr ≠ mapFailed}

/-- What the system calls of `setup_mmap` answer; `mmap` is `none` for MAP_FAILED. -/
structure MmapCalls where
  ftruncate : Bool
  mmap : Option MapAddr
  mlock : Bool

structure Region where
  addr : UInt64
  len : UInt64
deriving DecidableEq

inductive RegionUse where
  | read (buf : UInt64) (region : Option Region)
  | munmap (buf len : UInt64) (region : Option Region)
deriving DecidableEq

def RegionUse.Valid : RegionUse → Prop
  | .read buf region => ∃ len, region = some ⟨buf, len⟩
  | .munmap buf len region => region = some ⟨buf, len⟩

inductive ReadAnswer where
  | data (ret : UInt32)
  | eof
  | again
  | error

/-- A device of a tracer: `events` is whether its `pollfd` asks for POLLIN, `region` what the kernel
has mapped for it, `failed` whether `setup_mmap` has failed. -/
structure IoInfo where
  mip : MmapInfo
  fsBuf : UInt64
  events : Bool
  region : Option Region
  failed : Bool
  uses : List RegionUse

structure PollRound where
  isDone : Bool
  forceRead : Bool
  nevs : ℤ
  pollin : ℕ → Bool
  calls : ℕ → MmapCalls
  answer : ℕ → ReadAnswer

def openIo (bufSize : UInt32) (bufNr pagesize : UInt64) : IoInfo :=
  ⟨initMmapInfo bufSize.toUInt64 bufNr pagesize, 0, true, none, false, []⟩

namespace IoInfo

def unmapBuf (io : IoInfo) : IoInfo :=
  if io.fsBuf ≠ 0 then
    { io with
      fsBuf := 0
      region := if io.region = some ⟨io.fsBuf, io.mip.fsBufLen⟩ then none else io.region
      uses := io.uses ++ [.munmap io.fsBuf io.mip.fsBufLen io.region] }
  else io

def setupMmap (io : IoInfo) (maxlen : UInt32) (calls : MmapCalls) : IoInfo × ℤ :=
  if io.mip.fsOff + maxlen.toUInt64 > io.mip.fsBufLen then
    let io := io.unmapBuf
    let io := { io with mip := io.mip.moved }
    if ¬(calls.ftruncate ∧ io.mip.fsMaxSize < 0x8000000000000000) then (io, 1)
    else
      match calls.mmap with
      | none => ({ io with fsBuf := mapFailed }, 1)
      | some addr =>
        let io := { io with
          mip := { io.mip with fsBuf := some (io.mip.fsSize - io.mip.fsOff) }
          fsBuf := addr
          region := some ⟨addr, io.mip.fsBufLen⟩ }
        if ¬calls.mlock then (io, 1) else (io, 0)
  else (io, 0)

def clearEvents (io : IoInfo) : IoInfo := { io with events := false }

/-- The `read` and what follows it, with the number of entries. Without a mapping it fails. -/
def readEntry (io : IoInfo) (isDone : Bool) (answer : ReadAnswer) : IoInfo × ℕ :=
  let used := { io with uses := io.uses ++ [.read io.fsBuf io.region] }
  match answer with
  | .data ret =>
    if io.region = none then (used.clearEvents, 0)
    else ({ used with mip := io.mip.store ret }, 1)
  | .eof => (if isDone then used.clearEvents else used, 0)
  | .again => (if isDone then used.clearEvents else used, 0)
  | .error => (used.clearEvents, 0)

def handle (io : IoInfo) (bufSize : UInt32) (isDone : Bool) (calls : MmapCalls)
    (answer : ReadAnswer) : IoInfo × ℕ :=
  let r := io.setupMmap bufSize calls
  { r.1 with failed := io.failed || r.2 ≠ 0 }.readEntry isDone answer

def closeIop (io : IoInfo) : IoInfo := io.unmapBuf

/-- A device whose `setup_mmap` has failed is not polled, and every region used is mapped. -/
structure Safe (io : IoInfo) : Prop where
  stopped : io.failed = true → io.events = false
  uses : ∀ use ∈ io.closeIop.uses, use.Valid

end IoInfo

def handlePfdsFile (bufSize : UInt32) (round : PollRound) :
    ℕ → ℤ → List IoInfo → List IoInfo × ℕ
  | _, _, [] => ([], 0)
  | i, nevs, io :: ios =>
    if 0 < nevs then
      if round.pollin i ∧ io.events ∨ round.forceRead then
        if (io.setupMmap bufSize (round.calls i)).2 < 0 then
          ((io.setupMmap bufSize (round.calls i)).1.clearEvents :: ios, 0)
        else
          let r := io.handle bufSize round.isDone (round.calls i) (round.answer i)
          let rest := handlePfdsFile bufSize round (i + 1) (nevs - 1) ios
          (r.1 :: rest.1, r.2 + rest.2)
      else
        let rest := handlePfdsFile bufSize round (i + 1) nevs ios
        (io :: rest.1, rest.2)
    else (io :: ios, 0)

def runRounds (bufSize : UInt32) (ios : List IoInfo) (rounds : List PollRound) : List IoInfo :=
  rounds.foldl (fun ios round => (handlePfdsFile bufSize round 0 round.nevs ios).1) ios

namespace IoInfo

def Stops (io : IoInfo) (isDone : Bool) (answer : ReadAnswer) : Prop :=
  io.events = false ∨ answer = .error ∨ isDone = true ∧ (answer = .eof ∨ answer = .again)

/-- If `setup_mmap` has to move the window, no call of it fails, or only `mlock` does and the read
that follows is the last one. -/
def Meets (io : IoInfo) (bufSize : UInt32) (isDone : Bool) (calls : MmapCalls)
    (answer : ReadAnswer) : Prop :=
  io.mip.fsOff + bufSize.toUInt64 > io.mip.fsBufLen →
    (calls.ftruncate ∧ io.mip.moved.fsMaxSize < 0x8000000000000000) ∧
      calls.mmap ≠ none ∧ (calls.mlock ∨ io.Stops isDone answer)

structure Sound (io : IoInfo) : Prop where
  stopped : io.failed = true → io.events = false
  uses : ∀ use ∈ io.uses, use.Valid
  mapping : (io.fsBuf = 0 ∧ io.region = none ∧ io.mip.fsOff = 0 ∧ io.mip.fsBufLen = 0) ∨
    (io.fsBuf ≠ 0 ∧ io.region = some ⟨io.fsBuf, io.mip.fsBufLen⟩)

variable {io : IoInfo} {bufSize maxlen : UInt32} {isDone : Bool} {calls : MmapCalls}
  {answer : ReadAnswer}

theorem setupMmap_mip (io : IoInfo) (maxlen : UInt32) (calls : MmapCalls) :
    ((io.setupMmap maxlen calls).1.mip, (io.setupMmap maxlen calls).2) =
      io.mip.setupMmap maxlen ⟨calls.ftruncate, calls.mmap.isSome, calls.mlock⟩ := by
  have hmip : io.unmapBuf.mip = io.mip := by
    unfold unmapBuf
    split <;> rfl
  unfold setupMmap MmapInfo.setupMmap
  by_cases hmove : io.mip.fsOff + maxlen.toUInt64 > io.mip.fsBufLen
  · rw [if_pos hmove, if_pos hmove]
    simp only [hmip]
    change _ = if ¬(calls.ftruncate = true ∧ io.mip.moved.fsMaxSize < 0x8000000000000000) then _
      else _
    by_cases hfile : calls.ftruncate = true ∧ io.mip.moved.fsMaxSize < 0x8000000000000000
    · rw [if_neg (not_not.mpr hfile), if_neg (not_not.mpr hfile)]
      cases calls.mmap with
      | none => rfl
      | some addr => cases calls.mlock <;> rfl
    · rw [if_pos hfile, if_pos hfile]
      rfl
  · rw [if_neg hmove, if_neg hmove]

theorem Sound.unmapBuf (hs : io.Sound) :
    io.unmapBuf.fsBuf = 0 ∧ io.unmapBuf.region = none ∧ io.unmapBuf.mip = io.mip ∧
      io.unmapBuf.events = io.events ∧ io.unmapBuf.failed = io.failed ∧
      ∀ use ∈ io.unmapBuf.uses, use.Valid := by
  unfold IoInfo.unmapBuf
  rcases hs.mapping with ⟨hnull, hregion, -, -⟩ | ⟨hbuf, hregion⟩
  · rw [if_neg (not_not.mpr hnull)]
    exact ⟨hnull, hregion, rfl, rfl, rfl, hs.uses⟩
  · rw [if_pos hbuf]
    refine ⟨rfl, if_pos hregion, rfl, rfl, rfl, ?_⟩
    intro use huse
    obtain huse | huse := List.mem_append.mp huse
    · exact hs.uses use huse
    · rw [List.mem_singleton.mp huse]
      exact hregion

theorem Sound.safe (hs : io.Sound) : io.Safe :=
  ⟨hs.stopped, hs.unmapBuf.2.2.2.2.2⟩

theorem Sound.setupMmap (hs : io.Sound) (hbuf : 0 < bufSize) (calls : MmapCalls) :
    (io.setupMmap bufSize calls).1.events = io.events ∧
    (io.setupMmap bufSize calls).1.failed = io.failed ∧
    (¬io.mip.fsOff + bufSize.toUInt64 > io.mip.fsBufLen ∧
        io.setupMmap bufSize calls = (io, 0) ∧
        io.fsBuf ≠ 0 ∧ io.region = some ⟨io.fsBuf, io.mip.fsBufLen⟩ ∨
      io.mip.fsOff + bufSize.toUInt64 > io.mip.fsBufLen ∧
        ¬((calls.ftruncate ∧ io.mip.moved.fsMaxSize < 0x8000000000000000) ∧ calls.mmap ≠ none) ∧
        (io.setupMmap bufSize calls).1.region = none ∨
      io.mip.fsOff + bufSize.toUInt64 > io.mip.fsBufLen ∧
        ((calls.ftruncate ∧ io.mip.moved.fsMaxSize < 0x8000000000000000) ∧ calls.mmap ≠ none) ∧
        (io.setupMmap bufSize calls).2 = (if calls.mlock then 0 else 1) ∧
        (io.setupMmap bufSize calls).1.fsBuf ≠ 0 ∧
        (io.setupMmap bufSize calls).1.region = some ⟨(io.setupMmap bufSize calls).1.fsBuf,
          (io.setupMmap bufSize calls).1.mip.fsBufLen⟩ ∧
        ∀ use ∈ (io.setupMmap bufSize calls).1.uses, use.Valid) := by
  obtain ⟨-, hregion, hmip, hevents, hfailed, huses⟩ := hs.unmapBuf
  by_cases hmove : io.mip.fsOff + bufSize.toUInt64 > io.mip.fsBufLen
  · have hset : io.setupMmap bufSize calls =
        if ¬(calls.ftruncate ∧ io.mip.moved.fsMaxSize < 0x8000000000000000) then
          ({ io.unmapBuf with mip := io.mip.moved }, (1 : ℤ))
        else
          match calls.mmap with
          | none => ({ io.unmapBuf with mip := io.mip.moved, fsBuf := mapFailed }, 1)
          | some addr =>
            ({ io.unmapBuf with
              mip := io.mip.mapped
              fsBuf := addr
              region := some ⟨addr, io.mip.mapped.fsBufLen⟩ }, if calls.mlock then 0 else 1) := by
      unfold IoInfo.setupMmap
      rw [if_pos hmove]
      simp only [hmip]
      split
      · rfl
      · cases calls.mmap with
        | none => rfl
        | some addr => cases calls.mlock <;> rfl
    by_cases hfile : calls.ftruncate ∧ io.mip.moved.fsMaxSize < 0x8000000000000000
    · rw [if_neg (not_not.mpr hfile)] at hset
      cases hmap : calls.mmap with
      | none =>
        rw [hmap] at hset
        rw [hset]
        exact ⟨hevents, hfailed, Or.inr (Or.inl ⟨hmove, fun h => h.2 rfl, hregion⟩)⟩
      | some addr =>
        rw [hmap] at hset
        rw [hset]
        exact ⟨hevents, hfailed, Or.inr (Or.inr ⟨hmove, ⟨hfile, by simp⟩, rfl, addr.2.1, rfl,
          huses⟩)⟩
    · rw [if_pos hfile] at hset
      rw [hset]
      exact ⟨hevents, hfailed, Or.inr (Or.inl ⟨hmove, fun h => hfile h.1, hregion⟩)⟩
  · have hset : io.setupMmap bufSize calls = (io, 0) := if_neg hmove
    rw [hset]
    refine ⟨rfl, rfl, Or.inl ⟨hmove, rfl, ?_⟩⟩
    rcases hs.mapping with ⟨-, -, hoff, hlen⟩ | hmapped
    · rw [hoff, hlen, gt_iff_lt, UInt64.lt_iff_toNat_lt] at hmove
      rw [UInt32.lt_iff_toNat_lt] at hbuf
      simp at hmove hbuf
      omega
    · exact hmapped

theorem readEntry_mapped (hregion : io.region = some ⟨io.fsBuf, io.mip.fsBufLen⟩)
    (isDone : Bool) (answer : ReadAnswer) :
    (io.readEntry isDone answer).1.fsBuf = io.fsBuf ∧
      (io.readEntry isDone answer).1.region =
        some ⟨io.fsBuf, (io.readEntry isDone answer).1.mip.fsBufLen⟩ ∧
      (io.readEntry isDone answer).1.failed = io.failed ∧
      ((io.readEntry isDone answer).1.events = false ↔ io.Stops isDone answer) ∧
      (io.readEntry isDone answer).1.uses = io.uses ++ [.read io.fsBuf io.region] := by
  have hlen (ret : UInt32) : (io.mip.store ret).fsBufLen = io.mip.fsBufLen := by
    unfold MmapInfo.store
    split <;> rfl
  cases answer with
  | data ret => simp [readEntry, Stops, hregion, hlen]
  | eof => cases isDone <;> simp [readEntry, Stops, clearEvents, hregion]
  | again => cases isDone <;> simp [readEntry, Stops, clearEvents, hregion]
  | error => simp [readEntry, Stops, clearEvents, hregion]

theorem mem_uses_readEntry (io : IoInfo) (isDone : Bool) (answer : ReadAnswer) :
    RegionUse.read io.fsBuf io.region ∈ (io.readEntry isDone answer).1.uses := by
  have hmem : RegionUse.read io.fsBuf io.region ∈ io.uses ++ [.read io.fsBuf io.region] := by
    simp
  cases answer with
  | data ret =>
    unfold readEntry
    dsimp only
    split <;> exact hmem
  | eof => cases isDone <;> exact hmem
  | again => cases isDone <;> exact hmem
  | error => exact hmem

theorem mem_closeIop_uses {use : RegionUse} (huse : use ∈ io.uses) :
    use ∈ io.closeIop.uses := by
  unfold closeIop IoInfo.unmapBuf
  split
  · exact List.mem_append_left _ huse
  · exact huse

theorem Sound.handle (hs : io.Sound) (hbuf : 0 < bufSize) (isDone : Bool) (calls : MmapCalls)
    (answer : ReadAnswer) :
    (io.Meets bufSize isDone calls answer ∧ (io.handle bufSize isDone calls answer).1.Sound) ∨
      (¬io.Meets bufSize isDone calls answer ∧
        ¬(io.handle bufSize isDone calls answer).1.Safe) := by
  obtain ⟨hevents, hfailed, hcase⟩ := hs.setupMmap hbuf calls
  rcases hcase with ⟨hmove, hset, hnull, hregion⟩ | ⟨hmove, hfail, hregion⟩ |
    ⟨hmove, hok, hret, hnull, hregion, huses⟩
  · refine Or.inl ⟨fun h => absurd h hmove, ?_⟩
    have hhandle : io.handle bufSize isDone calls answer = io.readEntry isDone answer := by
      unfold IoInfo.handle
      rw [hset]
      simp
    rw [hhandle]
    obtain ⟨hbuf', hregion', hfailed', hevents', huses'⟩ := readEntry_mapped hregion isDone answer
    refine ⟨fun h => hevents'.mpr (Or.inl (hs.stopped (hfailed' ▸ h))), ?_, Or.inr ⟨?_, ?_⟩⟩
    · rw [huses']
      intro use huse
      obtain huse | huse := List.mem_append.mp huse
      · exact hs.uses use huse
      · rw [List.mem_singleton.mp huse]
        exact ⟨_, hregion⟩
    · rw [hbuf']
      exact hnull
    · rw [hbuf']
      exact hregion'
  · refine Or.inr ⟨fun h => hfail ⟨(h hmove).1, (h hmove).2.1⟩, fun hsafe => ?_⟩
    -- the read that follows goes to where nothing is mapped
    obtain ⟨len, hmapped⟩ := hsafe.uses _ (mem_closeIop_uses (mem_uses_readEntry _ isDone answer))
    change (io.setupMmap bufSize calls).1.region = _ at hmapped
    rw [hregion] at hmapped
    cases hmapped
  · have hread := @readEntry_mapped { (io.setupMmap bufSize calls).1 with
      failed := io.failed || (io.setupMmap bufSize calls).2 ≠ 0 } hregion isDone answer
    have hhandle : io.handle bufSize isDone calls answer =
        readEntry { (io.setupMmap bufSize calls).1 with
          failed := io.failed || (io.setupMmap bufSize calls).2 ≠ 0 } isDone answer := rfl
    rw [← hhandle] at hread
    obtain ⟨hbuf', hregion', hfailed', hevents', huses'⟩ := hread
    have hstops : Stops { (io.setupMmap bufSize calls).1 with
        failed := io.failed || (io.setupMmap bufSize calls).2 ≠ 0 } isDone answer ↔
          io.Stops isDone answer := by
      unfold Stops
      rw [hevents]
    rw [hstops] at hevents'
    have hfail : (io.handle bufSize isDone calls answer).1.failed = true ↔
        io.failed = true ∨ calls.mlock = false := by
      rw [hfailed', hret]
      cases calls.mlock <;> simp
    by_cases hmeets : calls.mlock = true ∨ io.Stops isDone answer
    · refine Or.inl ⟨fun _ => ⟨hok.1, hok.2, hmeets⟩, ?_, ?_, Or.inr ⟨?_, ?_⟩⟩
      · intro h
        rw [hfail] at h
        rw [hevents']
        rcases h with h | h
        · exact Or.inl (hs.stopped h)
        · exact hmeets.resolve_left (by rw [h]; simp)
      · rw [huses']
        intro use huse
        obtain huse | huse := List.mem_append.mp huse
        · exact huses use huse
        · rw [List.mem_singleton.mp huse]
          exact ⟨_, hregion⟩
      · rw [hbuf']
        exact hnull
      · rw [hbuf']
        exact hregion'
    · refine Or.inr ⟨fun h => hmeets (h hmove).2.2, fun hsafe => ?_⟩
      have hlock : calls.mlock = false := by
        cases h : calls.mlock with
        | false => rfl
        | true => exact absurd (Or.inl h) hmeets
      exact hmeets (Or.inr (hevents'.mp (hsafe.stopped (hfail.mpr (Or.inr hlock)))))

theorem setupMmap_nonneg (io : IoInfo) (maxlen : UInt32) (calls : MmapCalls) :
    ¬(io.setupMmap maxlen calls).2 < 0 := by
  unfold IoInfo.setupMmap
  split
  · dsimp only
    split
    · simp
    · cases calls.mmap with
      | none => simp
      | some addr => cases calls.mlock <;> simp
  · simp

end IoInfo

def RoundMeets (bufSize : UInt32) (round : PollRound) : ℕ → ℤ → List IoInfo → Prop
  | _, _, [] => True
  | i, nevs, io :: ios =>
    0 < nevs →
      if round.pollin i ∧ io.events ∨ round.forceRead then
        io.Meets bufSize round.isDone (round.calls i) (round.answer i) ∧
          RoundMeets bufSize round (i + 1) (nevs - 1) ios
      else RoundMeets bufSize round (i + 1) nevs ios

def RunMeets (bufSize : UInt32) : List IoInfo → List PollRound → Prop
  | _, [] => True
  | ios, round :: rounds =>
    RoundMeets bufSize round 0 round.nevs ios ∧
      RunMeets bufSize (handlePfdsFile bufSize round 0 round.nevs ios).1 rounds

section Rounds

variable {bufSize : UInt32} {ios : List IoInfo} {round : PollRound} {rounds : List PollRound}

theorem round_sound_or (hbuf : 0 < bufSize) (hios : ∀ io ∈ ios, io.Sound) (i : ℕ) (nevs : ℤ) :
    (RoundMeets bufSize round i nevs ios ∧
        ∀ io ∈ (handlePfdsFile bufSize round i nevs ios).1, io.Sound) ∨
      (¬RoundMeets bufSize round i nevs ios ∧
        ∃ io ∈ (handlePfdsFile bufSize round i nevs ios).1, ¬io.Safe) := by
  induction ios generalizing i nevs with
  | nil => exact Or.inl ⟨trivial, List.forall_mem_nil _⟩
  | cons io ios ih =>
    rw [List.forall_mem_cons] at hios
    obtain ⟨hio, hios'⟩ := hios
    unfold handlePfdsFile RoundMeets
    by_cases hnevs : 0 < nevs
    · rw [if_pos hnevs]
      by_cases hread : round.pollin i ∧ io.events ∨ round.forceRead
      · rw [if_pos hread, if_pos hread, if_neg (io.setupMmap_nonneg bufSize (round.calls i))]
        simp only [hnevs, forall_const, List.mem_cons, forall_eq_or_imp, exists_eq_or_imp]
        rcases hio.handle hbuf round.isDone (round.calls i) (round.answer i) with
          ⟨hmeets, hsound⟩ | ⟨hmeets, hunsafe⟩
        · rcases ih hios' (i + 1) (nevs - 1) with ⟨hrest, hsounds⟩ | ⟨hrest, hunsafe⟩
          · exact Or.inl ⟨⟨hmeets, hrest⟩, hsound, hsounds⟩
          · exact Or.inr ⟨fun h => hrest h.2, Or.inr hunsafe⟩
        · exact Or.inr ⟨fun h => hmeets h.1, Or.inl hunsafe⟩
      · rw [if_neg hread, if_neg hread]
        simp only [hnevs, forall_const, List.mem_cons, forall_eq_or_imp, exists_eq_or_imp]
        rcases ih hios' (i + 1) nevs with ⟨hrest, hsounds⟩ | ⟨hrest, hunsafe⟩
        · exact Or.inl ⟨hrest, hio, hsounds⟩
        · exact Or.inr ⟨hrest, Or.inr hunsafe⟩
    · rw [if_neg hnevs]
      refine Or.inl ⟨fun h => absurd h hnevs, ?_⟩
      intro io' hio'
      obtain rfl | hio' := List.mem_cons.mp hio'
      · exact hio
      · exact hios' io' hio'

theorem runs_safe_iff (hbuf : 0 < bufSize) (hios : ∀ io ∈ ios, io.Sound) :
    (∀ k, ∀ io ∈ runRounds bufSize ios (rounds.take k), io.Safe) ↔
      RunMeets bufSize ios rounds := by
  induction rounds generalizing ios with
  | nil =>
    simp only [List.take_nil, RunMeets, iff_true]
    intro _ io hio
    exact (hios io hio).safe
  | cons round rounds ih =>
    unfold RunMeets
    rcases @round_sound_or bufSize ios round hbuf hios 0 round.nevs with
      ⟨hmeets, hsounds⟩ | ⟨hmeets, io, hio, hunsafe⟩
    · rw [← ih hsounds]
      constructor
      · intro h
        exact ⟨hmeets, fun k => h (k + 1)⟩
      · rintro ⟨-, h⟩ k
        cases k with
        | zero => exact fun io hio => (hios io hio).safe
        | succ k => exact h k
    · refine iff_of_false (fun h => hunsafe (h 1 io ?_)) (fun h => hmeets h.1)
      exact hio

end Rounds

theorem openIo_sound (bufSize : UInt32) (bufNr pagesize : UInt64) :
    (openIo bufSize bufNr pagesize).Sound :=
  ⟨fun h => (by cases h), List.forall_mem_nil _, Or.inl ⟨rfl, rfl, rfl, rfl⟩⟩

/-- In every state of a run no region is used that is not mapped, and no device is polled after
`setup_mmap` failed for it, exactly if the condition is met all along. -/
theorem mmap_failure_safe_iff (n : ℕ) (bufSize : UInt32) (bufNr pagesize : UInt64)
    (hbuf : 0 < bufSize) (rounds : List PollRound) :
    (∀ k, ∀ io ∈ runRounds bufSize (List.replicate n (openIo bufSize bufNr pagesize))
        (rounds.take k), io.Safe) ↔
      RunMeets bufSize (List.replicate n (openIo bufSize bufNr pagesize)) rounds := by
  apply runs_safe_iff hbuf
  intro io hio
  rw [List.eq_of_mem_replicate hio]
  exact openIo_sound bufSize bufNr pagesize

def dataRound (ftruncate : Bool) : PollRound :=
  ⟨false, false, 1, fun _ => true, fun _ => ⟨ftruncate, some ⟨0x7f0000000000, by decide⟩, true⟩,
    fun _ => .data 4096⟩

theorem mmap_failure_safe_iff_mapped :
    (0 : UInt32) < 524288 ∧
      ((∀ k, ∀ io ∈ runRounds 524288 (List.replicate 1 (openIo 524288 4 4096))
          ([dataRound true].take k), io.Safe) ↔
        RunMeets 524288 (List.replicate 1 (openIo 524288 4 4096)) [dataRound true]) :=
  ⟨by decide, mmap_failure_safe_iff 1 524288 4 4096 (by decide) [dataRound true]⟩

/-- The disk is full when the first data comes: the read goes to NULL, where nothing is mapped. -/
theorem full_disk_read_at_null :
    (runRounds 524288 [openIo 524288 4 4096] [dataRound false]).map IoInfo.uses =
        [[.read 0 none]] ∧
      ¬∀ (n : ℕ) (bufSize : UInt32) (bufNr pagesize : UInt64), 0 < bufSize →
        ∀ rounds : List PollRound, ∀ io ∈ runRounds bufSize
          (List.replicate n (openIo bufSize bufNr pagesize)) rounds, io.Safe := by
  have huses : (runRounds 524288 [openIo 524288 4 4096] [dataRound false]).map IoInfo.uses =
      [[.read 0 none]] := by decide
  refine ⟨huses, fun hall => ?_⟩
  have hsafe := hall 1 524288 4 4096 (by decide) [dataRound false]
  obtain ⟨io, hio, huse⟩ : ∃ io ∈ runRounds 524288 [openIo 524288 4 4096] [dataRound false],
      io.uses = [.read 0 none] := by
    apply List.mem_map.mp
    rw [huses]
    exact List.mem_singleton_self _
  obtain ⟨len, hmapped⟩ := (hsafe io hio).uses (.read 0 none) (by
    apply IoInfo.mem_closeIop_uses
    rw [huse]
    exact List.mem_singleton_self _)
  cases hmapped

end SBlktrace
