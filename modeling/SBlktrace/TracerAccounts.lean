import SBlktrace.TracerBarrier

/-!
What the tracer threads read reaches the output: `dp_entries` counts it, and a run that ends has
handled all of it.
-/

namespace SBlktrace

open Function ByteOrder Framing

namespace TracingPc

variable {ndevs ncpus : ℕ}

def taken : TracingPc ndevs ncpus → ℕ
  | processTraceBufs _ _ handled => handled
  | handleList _ _ list _ handled => handled + list.length
  | _ => 0

def unswept : TracingPc ndevs ncpus → Option (List (HeadId ndevs ncpus))
  | processTraceBufs true todo _ | handleList true _ _ todo _ => some todo
  | _ => none

def inHand (hd : HeadId ndevs ncpus) : TracingPc ndevs ncpus → List TraceBuf
  | handleList _ hd' list _ _ => if hd' = hd then list else []
  | _ => []

end TracingPc

def TracingAction.data {ndevs ncpus : ℕ} : TracingAction ndevs ncpus → Bool
  | addTraceBuf _ _ _ _ | incrEntries _ _ | takeList _ _ _ _ | handleList _ _ _ _ _
  | decrEntries _ _ => true
  | _ => false

namespace Tracing

variable {ndevs ncpus : ℕ} {host : Endian} {bufSize : ℕ} {s s' : Tracing ndevs ncpus}
  {act : TracingAction ndevs ncpus}

/-- `dp_entries` and what the tracers still owe it are the buffers on the lists and those that the
main thread has taken. -/
def Accounts (s : Tracing ndevs ncpus) : Prop :=
  s.dpEntries + (∑ t, s.nentries t : ℕ) = (∑ hd, (s.list hd).length : ℕ) + s.main.taken

theorem accounts_start : Accounts (start ndevs ncpus) := by
  simp [Accounts, start, TracingPc.taken]

theorem Accounts.congr (ha : Accounts s) (hentries : s'.dpEntries = s.dpEntries)
    (hnentries : s'.nentries = s.nentries) (hlist : s'.list = s.list)
    (htaken : s'.main.taken = s.main.taken) : Accounts s' := by
  rw [Accounts, hentries, hnentries, hlist, htaken]
  exact ha

theorem next_data (h : s.next host bufSize act = some s') (hact : act.data = false) :
    s'.dpEntries = s.dpEntries ∧ s'.nentries = s.nentries ∧ s'.list = s.list ∧
      s'.head = s.head ∧ s'.main.taken = s.main.taken ∧
      ∀ hd, s'.main.inHand hd = s.main.inHand hd := by
  cases act <;> simp only [Tracing.next, Option.ite_none_right_eq_some, Option.some.injEq,
    Option.map_eq_some_iff] at h
  case addTraceBuf | incrEntries | takeList | handleList | decrEntries => cases hact
  case signalReady u ok =>
    obtain ⟨-, rfl⟩ := h
    cases ok <;> exact ⟨rfl, rfl, rfl, rfl, rfl, fun _ => rfl⟩
  case testRunning =>
    obtain ⟨hmain, rfl⟩ := h
    rw [hmain]
    split_ifs <;> exact ⟨rfl, rfl, rfl, rfl, rfl, fun _ => rfl⟩
  case unblockTracers | stopTracer | stoppedTracers | waitEntries | waitDone | waitTracersLeaving |
      joinTracer | joinedTracers | cleanTraceBufs | cleanedTraceBufs | waitTracersReady =>
    obtain ⟨⟨hmain, -⟩, rfl⟩ := h
    rw [hmain]
    exact ⟨rfl, rfl, rfl, rfl, rfl, fun _ => rfl⟩
  case pthreadCreate | addTracer | startedAll =>
    obtain ⟨hmain, rfl⟩ := h
    rw [hmain]
    exact ⟨rfl, rfl, rfl, rfl, rfl, fun _ => rfl⟩
  all_goals
    obtain ⟨-, rfl⟩ := h
    exact ⟨rfl, rfl, rfl, rfl, rfl, fun _ => rfl⟩

theorem Accounts.next (ha : Accounts s) (h : s.next host bufSize act = some s') :
    Accounts s' := by
  cases hact : act.data with
  | false =>
    obtain ⟨hentries, hnentries, hlist, -, htaken, -⟩ := next_data h hact
    exact ha.congr hentries hnentries hlist htaken
  | true =>
    cases act <;> simp only [Tracing.next, Option.ite_none_right_eq_some, Option.some.injEq,
      Option.map_eq_some_iff] at h
    case addTraceBuf u drain dev tbp =>
      obtain ⟨-, rfl⟩ := h
      have hentries := sum_update id s.nentries u (s.nentries u + 1)
      have hlist := sum_update List.length s.list (dev, u) (s.list (dev, u) ++ [tbp])
      simp only [id, List.length_append, List.length_singleton] at hentries hlist
      simp only [Accounts, goto] at ha ⊢
      omega
    case incrEntries u drain =>
      obtain ⟨-, rfl⟩ := h
      have hentries := sum_update id s.nentries u 0
      simp only [id, add_zero] at hentries
      simp only [Accounts, goto] at ha ⊢
      omega
    case takeList clean hd todo handled =>
      obtain ⟨hmain, rfl⟩ := h
      split_ifs with hempty
      · exact ha.congr rfl rfl rfl (by rw [hmain]; rfl)
      · have hlist := sum_update List.length s.list hd []
        simp only [List.length_nil, add_zero] at hlist
        simp only [Accounts, hmain, TracingPc.taken] at ha ⊢
        omega
    case handleList clean hd list todo handled =>
      obtain ⟨hmain, r, hr, rfl⟩ := h
      obtain ⟨hd', -, hr⟩ := Option.bind_eq_some_iff.mp hr
      obtain rfl := Option.some.inj hr
      refine ha.congr rfl rfl rfl ?_
      rw [hmain]
      exact congrArg (handled + ·) (List.length_map _).symm
    case decrEntries clean handled =>
      obtain ⟨hmain, rfl⟩ := h
      have htaken : (if clean then TracingPc.cleanTraceBufs else
          (.waitEmptyEntries : TracingPc ndevs ncpus)).taken = 0 := by
        cases clean <;> rfl
      simp only [Accounts, hmain, TracingPc.taken] at ha
      simp only [Accounts, htaken]
      omega
    all_goals cases hact

def Owes (s : Tracing ndevs ncpus) : Prop :=
  ∀ t, (s.pc t).reading = false → s.nentries t = 0

theorem owes_start : Owes (start ndevs ncpus) := fun _ _ => rfl

theorem Owes.goto (ho : Owes s) {t : Fin ncpus} {pc : TracerPc}
    (hpc : (s.pc t).reading = false ∨ pc.reading) : Owes (s.goto t pc) := by
  intro u hu
  rw [pc_goto] at hu
  by_cases hut : u = t
  · subst hut
    rw [update_self] at hu
    obtain hpc | hpc := hpc
    · exact ho u hpc
    · rw [hpc] at hu
      cases hu
  · rw [update_of_ne hut] at hu
    exact ho u hu

theorem Owes.broadcast (ho : Owes s) : Owes s.broadcast := by
  intro t ht
  refine ho t ?_
  unfold Tracing.broadcast at ht
  dsimp only at ht
  split_ifs at ht with hblocked
  · rw [hblocked]
    rfl
  · exact ht

theorem Owes.next (ho : Owes s) (hp : Placed s) (h : s.next host bufSize act = some s') :
    Owes s' := by
  cases act <;> simp only [Tracing.next, Option.ite_none_right_eq_some, Option.some.injEq,
    Option.map_eq_some_iff] at h
  case signalReady u ok =>
    obtain ⟨⟨hpc, -⟩, rfl⟩ := h
    cases ok <;> exact ho.goto (.inl (by rw [hpc]; rfl))
  case testUnblock u =>
    obtain ⟨⟨hpc, -⟩, rfl⟩ := h
    exact ho.goto (.inl (by rw [hpc]; rfl))
  case condWait u =>
    obtain ⟨hpc, rfl⟩ := h
    exact ho.goto (.inl (by rw [hpc]; rfl))
  case wake u =>
    obtain ⟨hpc, rfl⟩ := h
    exact ho.goto (.inl (by rw [hpc]; rfl))
  case testDone u =>
    obtain ⟨-, rfl⟩ := h
    exact ho.goto (.inr rfl)
  case readNothing u drain dev =>
    obtain ⟨-, rfl⟩ := h
    exact ho.goto (.inr rfl)
  case signalLeaving u =>
    obtain ⟨⟨hpc, -⟩, rfl⟩ := h
    exact ho.goto (.inl (by rw [hpc]; rfl))
  case pthreadCreate cpu =>
    obtain ⟨hmain, rfl⟩ := h
    exact ho.goto (.inl (by rw [hp.not_started hmain]; rfl))
  case addTraceBuf u drain dev tbp =>
    obtain ⟨-, rfl⟩ := h
    intro t ht
    rw [pc_goto] at ht
    by_cases htu : t = u
    · subst htu
      rw [update_self] at ht
      cases ht
    · rw [update_of_ne htu] at ht
      exact (update_of_ne htu _ _).trans (ho t ht)
  case incrEntries u drain =>
    obtain ⟨-, rfl⟩ := h
    intro t ht
    rw [pc_goto] at ht
    by_cases htu : t = u
    · subst htu
      exact update_self _ _ _
    · rw [update_of_ne htu] at ht
      exact (update_of_ne htu _ _).trans (ho t ht)
  case unblockTracers | stoppedTracers | sigReturn =>
    obtain ⟨-, rfl⟩ := h
    exact Owes.broadcast ho
  case takeList clean hd todo handled =>
    obtain ⟨-, rfl⟩ := h
    split_ifs <;> exact ho
  case handleList clean hd list todo handled =>
    obtain ⟨-, r, -, rfl⟩ := h
    exact ho
  all_goals
    obtain ⟨-, rfl⟩ := h
    exact ho

structure Swept (s : Tracing ndevs ncpus) : Prop where
  passed : ∀ todo, s.main.unswept = some todo → ∀ hd, hd ∉ todo → s.list hd = []
  returned : s.main = .returned → s.dpEntries = 0

theorem swept_start : Swept (start ndevs ncpus) where
  passed _ h := by cases h
  returned _ := rfl

theorem mem_heads (hd : HeadId ndevs ncpus) : hd ∈ heads ndevs ncpus :=
  List.mem_product.mpr ⟨List.mem_finRange _, List.mem_finRange _⟩

theorem Swept.congr (hs : Swept s) (hlist : s'.list = s.list) (hmain : s'.main = s.main)
    (hentries : s'.dpEntries = s.dpEntries) : Swept s' where
  passed := by
    rw [hlist, hmain]
    exact hs.passed
  returned := by
    rw [hentries, hmain]
    exact hs.returned

theorem swept_outside (h : s.main.joinedAll = false) : Swept s := by
  refine ⟨fun todo htodo => ?_, fun hmain => ?_⟩
  · generalize s.main = pc at h htodo
    cases pc with
    | processTraceBufs clean | handleList clean =>
      cases clean with
      | false => cases htodo
      | true => cases h
    | _ => cases htodo
  · rw [hmain] at h
    cases h

theorem Placed.not_joined (hp : Placed s) {t : Fin ncpus} {drain : Bool} {dev : ℕ}
    (hpc : s.pc t = .handlePfds drain dev) : s.main.joinedAll = false := by
  by_contra hjoined
  have hsettled := hp.ended (Bool.not_eq_false _ ▸ hjoined) t
  rw [hpc] at hsettled
  cases hsettled

theorem Swept.takeList (hs : Swept s) {hd : HeadId ndevs ncpus}
    {todo : List (HeadId ndevs ncpus)} {handled : ℕ}
    (hmain : s.main = .processTraceBufs true (hd :: todo) handled) (hd' : HeadId ndevs ncpus)
    (hnot : hd' ∉ todo) (hne : hd' ≠ hd) : s.list hd' = [] :=
  hs.passed _ (by rw [hmain]; rfl) hd' (List.not_mem_cons_of_ne_of_not_mem hne hnot)

theorem Swept.next (hs : Swept s) (hp : Placed s) (h : s.next host bufSize act = some s') :
    Swept s' := by
  cases act <;> simp only [Tracing.next, Option.ite_none_right_eq_some, Option.some.injEq,
    Option.map_eq_some_iff] at h
  case addTraceBuf u drain dev tbp =>
    obtain ⟨⟨hpc, -⟩, rfl⟩ := h
    have hnot := hp.not_joined hpc
    exact swept_outside hnot
  case incrEntries u drain =>
    obtain ⟨hpc, rfl⟩ := h
    have hnot := hp.not_joined hpc
    exact swept_outside hnot
  case takeList clean hd todo handled =>
    obtain ⟨hmain, rfl⟩ := h
    cases clean with
    | false => split_ifs <;> exact swept_outside rfl
    | true =>
      have hpassed := hs.takeList hmain
      split_ifs with hempty
      · refine ⟨fun todo' htodo hd' hnot => ?_, fun h' => by cases h'⟩
        obtain rfl := Option.some.inj htodo
        by_cases hne : hd' = hd
        · rw [hne]
          exact hempty
        · exact hpassed hd' hnot hne
      · refine ⟨fun todo' htodo hd' hnot => ?_, fun h' => by cases h'⟩
        obtain rfl := Option.some.inj htodo
        by_cases hne : hd' = hd
        · rw [hne]
          exact update_self _ _ _
        · exact (update_of_ne hne _ _).trans (hpassed hd' hnot hne)
  case handleList clean hd list todo handled =>
    obtain ⟨hmain, r, -, rfl⟩ := h
    cases clean with
    | false => exact swept_outside rfl
    | true =>
      refine ⟨fun todo' htodo => ?_, fun h' => by cases h'⟩
      obtain rfl := Option.some.inj htodo
      exact hs.passed todo (by rw [hmain]; rfl)
  case cleanTraceBufs =>
    obtain ⟨-, rfl⟩ := h
    refine ⟨fun todo' htodo hd' hnot => ?_, fun h' => by cases h'⟩
    obtain rfl := Option.some.inj htodo
    exact absurd (mem_heads hd') hnot
  case decrEntries clean handled =>
    obtain ⟨-, rfl⟩ := h
    cases clean with
    | false => exact swept_outside rfl
    | true => exact ⟨fun _ h' => (by cases h'), fun h' => by cases h'⟩
  case testRunning =>
    obtain ⟨-, rfl⟩ := h
    split_ifs <;> exact swept_outside rfl
  case joinedTracers cpu =>
    obtain ⟨-, rfl⟩ := h
    exact ⟨fun _ h' => (by cases h'), fun h' => by cases h'⟩
  case cleanedTraceBufs =>
    obtain ⟨⟨-, hzero⟩, rfl⟩ := h
    exact ⟨fun _ h' => (by cases h'), fun _ => hzero⟩
  case unblockTracers | stopTracer | stoppedTracers | waitEntries | waitDone | waitTracersLeaving |
      joinTracer | waitTracersReady | pthreadCreate | addTracer | startedAll =>
    obtain ⟨-, rfl⟩ := h
    exact swept_outside rfl
  case signalReady u ok =>
    obtain ⟨-, rfl⟩ := h
    cases ok <;> exact hs.congr rfl rfl rfl
  all_goals
    obtain ⟨-, rfl⟩ := h
    exact hs.congr rfl rfl rfl

theorem traces_accounts {steps : List (TracingStep ndevs ncpus)}
    (h : Traces host bufSize steps s) : Placed s ∧ Accounts s ∧ Owes s ∧ Swept s := by
  have hinv : Counted s ∧ Placed s ∧ Accounts s ∧ Owes s ∧ Swept s := by
    refine h.invariant (fun s => Counted s ∧ Placed s ∧ Accounts s ∧ Owes s ∧ Swept s) ?_ ?_
    · rintro _ rfl
      exact ⟨counted_start, placed_start, accounts_start, owes_start, swept_start⟩
    · rintro s act s' ⟨hc, hp, ha, ho, hs⟩ hstep
      exact ⟨hc.next hstep fun cpu => hp.not_started, hp.next hc hstep, ha.next hstep,
        ho.next hp hstep, hs.next hp hstep⟩
  exact hinv.2

theorem Accounts.joined (ha : Accounts s) (hp : Placed s) (ho : Owes s)
    (hjoined : s.main.joinedAll) :
    s.dpEntries = (∑ hd, (s.list hd).length : ℕ) + s.main.taken := by
  have hzero : ∀ t, s.nentries t = 0 := fun t => ho t (by
    have hsettled := hp.ended hjoined t
    generalize s.pc t = pc at hsettled ⊢
    cases pc with
    | handlePfds => cases hsettled
    | _ => rfl)
  rw [Accounts, Finset.sum_eq_zero fun t _ => hzero t] at ha
  omega

def readInto (hd : HeadId ndevs ncpus) : TracingAction ndevs ncpus → Option TraceBuf
  | .addTraceBuf t _ dev tbp => if (dev, t) = hd then some tbp else none
  | _ => none

theorem readInto_eq_none (hact : act.data = false) (hd : HeadId ndevs ncpus) :
    readInto hd act = none := by
  cases act with
  | addTraceBuf => cases hact
  | _ => rfl

def handledOf (hd : HeadId ndevs ncpus) :
    TracingAction ndevs ncpus → Option (List (TraceBuf × Option ℕ))
  | .handleList _ hd' list _ _ => if hd' = hd then some list else none
  | _ => none

theorem handledOf_eq_none (hact : act.data = false) (hd : HeadId ndevs ncpus) :
    handledOf hd act = none := by
  cases act with
  | handleList => cases hact
  | _ => rfl

def reads (hd : HeadId ndevs ncpus) (steps : List (TracingStep ndevs ncpus)) : List TraceBuf :=
  steps.filterMap fun step => readInto hd step.2.1

theorem reads_append (hd : HeadId ndevs ncpus) (steps : List (TracingStep ndevs ncpus))
    (step : TracingStep ndevs ncpus) :
    reads hd (steps ++ [step]) = reads hd steps ++ (readInto hd step.2.1).toList := by
  rw [reads, List.filterMap_append]
  cases h : readInto hd step.2.1 <;> simp [reads, h]

/-- What `handle_list_file` was called with for a device and a CPU, and what its writes did. -/
def handles (hd : HeadId ndevs ncpus) (steps : List (TracingStep ndevs ncpus)) :
    List (List (TraceBuf × Option ℕ)) :=
  steps.filterMap fun step => handledOf hd step.2.1

theorem handles_append (hd : HeadId ndevs ncpus) (steps : List (TracingStep ndevs ncpus))
    (step : TracingStep ndevs ncpus) :
    handles hd (steps ++ [step]) = handles hd steps ++ (handledOf hd step.2.1).toList := by
  rw [handles, List.filterMap_append]
  cases h : handledOf hd step.2.1 <;> simp [handles, h]

theorem handleCalls_append (hd : DevpathHead) (calls : List (List (TraceBuf × Option ℕ)))
    (list : List (TraceBuf × Option ℕ)) :
    hd.handleCalls host bufSize (calls ++ [list]) =
      (hd.handleCalls host bufSize calls).bind fun hd =>
        (hd.handleListFile host bufSize list).map Prod.fst := by
  rw [DevpathHead.handleCalls, List.foldlM_append]
  refine congrArg _ (funext fun hd => ?_)
  rw [List.foldlM_cons]
  cases hd.handleListFile host bufSize list <;> rfl

theorem received_append (l l' : List TraceBuf) :
    received (l ++ l') = received l ++ received l' := by
  rw [received, List.map_append, List.flatten_append]
  rfl

/-- What was read for each device and CPU has been handled, is in the hands of the main thread or
still on the list, in the order of the reads. -/
structure Delivered (host : Endian) (bufSize : ℕ) (steps : List (TracingStep ndevs ncpus))
    (s : Tracing ndevs ncpus) : Prop where
  capacity : ∀ hd, ∀ tb ∈ reads hd steps, tb.buf.length = bufSize
  handled : ∀ hd, newDevpathHead.handleCalls host bufSize (handles hd steps) = some (s.head hd)
  order : ∀ hd, (handles hd steps).flatten.map Prod.fst ++ s.main.inHand hd ++ s.list hd =
    reads hd steps

theorem delivered_start : Delivered host bufSize [] (start ndevs ncpus) where
  capacity _ := nofun
  handled _ := rfl
  order _ := rfl

theorem Delivered.congr {steps : List (TracingStep ndevs ncpus)}
    (hd : Delivered host bufSize steps s) (hread : ∀ hd, readInto hd act = none)
    (hcall : ∀ hd, handledOf hd act = none) (hhead : s'.head = s.head)
    (hqueued : ∀ hd, s'.main.inHand hd ++ s'.list hd = s.main.inHand hd ++ s.list hd) :
    Delivered host bufSize (steps ++ [(s, act, s')]) s' := by
  have hreads : ∀ hd, reads hd (steps ++ [(s, act, s')]) = reads hd steps := fun hd => by
    rw [reads_append, hread, Option.toList_none, List.append_nil]
  have hcalls : ∀ hd, handles hd (steps ++ [(s, act, s')]) = handles hd steps := fun hd => by
    rw [handles_append, hcall, Option.toList_none, List.append_nil]
  refine ⟨fun h => ?_, fun h => ?_, fun h => ?_⟩
  · rw [hreads]
    exact hd.capacity h
  · rw [hcalls, hhead]
    exact hd.handled h
  · rw [hreads, hcalls, ← hd.order h, List.append_assoc, List.append_assoc, hqueued]

theorem Delivered.next {steps : List (TracingStep ndevs ncpus)}
    (hd : Delivered host bufSize steps s) (h : s.next host bufSize act = some s') :
    Delivered host bufSize (steps ++ [(s, act, s')]) s' := by
  cases hact : act.data with
  | false =>
    obtain ⟨-, -, hlist, hhead, -, hinHand⟩ := next_data h hact
    exact hd.congr (readInto_eq_none hact) (handledOf_eq_none hact) hhead fun k => by
      rw [hinHand, hlist]
  | true =>
    cases act <;> simp only [Tracing.next, Option.ite_none_right_eq_some, Option.some.injEq,
      Option.map_eq_some_iff] at h
    case addTraceBuf u drain dev tbp =>
      obtain ⟨⟨-, -, hlen⟩, rfl⟩ := h
      refine ⟨fun k => ?_, fun k => ?_, fun k => ?_⟩
      · rw [reads_append]
        intro tb htb
        obtain hold | hnew := List.mem_append.mp htb
        · exact hd.capacity k tb hold
        · simp only [readInto, Option.mem_toList, Option.ite_none_right_eq_some,
            Option.some.injEq] at hnew
          rw [← hnew.2]
          exact hlen
      · rw [handles_append]
        dsimp only [handledOf]
        rw [Option.toList_none, List.append_nil]
        exact hd.handled k
      · rw [handles_append, reads_append, ← hd.order k]
        dsimp only [goto, readInto, handledOf]
        rw [Option.toList_none, List.append_nil]
        by_cases hk : (dev, u) = k
        · subst hk
          rw [update_self, if_pos rfl, Option.toList_some, List.append_assoc _ (s.list _)]
        · rw [update_of_ne (Ne.symm hk), if_neg hk, Option.toList_none, List.append_nil]
    case takeList clean k todo handled =>
      obtain ⟨hmain, rfl⟩ := h
      split_ifs with hempty
      · exact hd.congr (fun _ => rfl) (fun _ => rfl) rfl fun _ => by rw [hmain]; rfl
      · refine hd.congr (fun _ => rfl) (fun _ => rfl) rfl fun k' => ?_
        dsimp only [TracingPc.inHand]
        rw [hmain]
        by_cases hk : k = k'
        · subst hk
          rw [if_pos rfl, update_self, List.append_nil]
          rfl
        · rw [if_neg hk, update_of_ne (Ne.symm hk)]
    case handleList clean k list todo handled =>
      obtain ⟨hmain, r, hr, rfl⟩ := h
      refine ⟨fun k' => ?_, fun k' => ?_, fun k' => ?_⟩
      · rw [reads_append]
        simpa [readInto] using hd.capacity k'
      · rw [handles_append]
        dsimp only [handledOf]
        by_cases hk : k = k'
        · subst hk
          rw [if_pos rfl, Option.toList_some, handleCalls_append, hd.handled k, Option.bind_some, hr,
            update_self]
          rfl
        · rw [if_neg hk, Option.toList_none, List.append_nil, update_of_ne (Ne.symm hk)]
          exact hd.handled k'
      · have horder := hd.order k'
        rw [hmain] at horder
        rw [reads_append, handles_append, ← horder]
        dsimp only [TracingPc.inHand, readInto, handledOf]
        by_cases hk : k = k'
        · subst hk
          simp
        · simp [hk]
    case incrEntries u drain =>
      obtain ⟨-, rfl⟩ := h
      exact hd.congr (fun _ => rfl) (fun _ => rfl) rfl fun _ => rfl
    case decrEntries clean handled =>
      obtain ⟨hmain, rfl⟩ := h
      refine hd.congr (fun _ => rfl) (fun _ => rfl) rfl fun _ => ?_
      dsimp only
      rw [hmain]
      cases clean <;> rfl
    all_goals cases hact

theorem traces_delivered {steps : List (TracingStep ndevs ncpus)}
    (h : Traces host bufSize steps s) : Delivered host bufSize steps s := by
  refine @Run.invariant_history _ _ _ _ _ _ (Delivered host bufSize) (fun _ => True) ?_ ?_ h
    fun _ _ => trivial
  · rintro _ rfl
    exact delivered_start
  · exact fun _ _ _ _ hd hstep _ => hd.next hstep

def oneTrace : TraceBuf := ⟨List.replicate 64 0, 56, by decide⟩

def stoppedEarly : List (TracingAction 1 1) :=
  [.pthreadCreate 0, .addTracer 0, .startedAll 1, .signalReady 0 true, .waitTracersReady 1,
    .testRunning, .unblockTracers, .testUnblock 0, .testDone 0, .addTraceBuf 0 false 0 oneTrace,
    .incrEntries 0 false, .sigint, .sigStopTracer 0, .sigReturn 1, .waitDone, .testDone 0,
    .readNothing 0 true 0, .incrEntries 0 true, .signalLeaving 0, .waitTracersLeaving,
    .joinTracer 0, .joinedTracers 1, .cleanTraceBufs, .takeList true (0, 0) [] 0]

theorem oneTrace_isFrame :
    ∀ e ∈ [List.replicate 56 (0 : UInt8)], (traceFormat .little).IsFrame e := fun e he => by
  obtain rfl := List.mem_singleton.mp he
  exact (by decide : (List.replicate 56 (0 : UInt8)).length =
    sizeofTrace + pduLenAt .little (List.replicate 56 0))

theorem oneTrace_received :
    [] ++ received [oneTrace] <+: [List.replicate 56 (0 : UInt8)].flatten := ⟨[], by decide⟩

theorem oneTrace_run :
    ∃ steps, ∃ s : Tracing 1 1, Traces .little 64 steps s ∧ s.main = .returned ∧
      reads (0, 0) steps = [oneTrace] ∧ handles (0, 0) steps = [[(oneTrace, none)]] := by
  have htaken := @traces_trySteps 1 1 .little 64 _ stoppedEarly _ rfl
  have hcap : ∀ tb ∈ [oneTrace], tb.buf.length = 64 := by decide
  obtain ⟨hd, hlist, -⟩ := (newDevpathHead_framed .little 64 [List.replicate 56 0]).handleBufs
    oneTrace_isFrame hcap oneTrace_received
  have hhandle : ∀ s : Tracing 1 1, s.main = .handleList true (0, 0) [oneTrace] [] 0 →
      s.head (0, 0) = newDevpathHead →
      s.next .little 64 (.handleList true (0, 0) (DevpathHead.succeeding [oneTrace]) [] 0) =
        some { s with
          head := update s.head (0, 0) hd
          main := .processTraceBufs true [] 1 } := by
    intro s hmain hhead
    have hfst : (DevpathHead.succeeding [oneTrace]).map Prod.fst = [oneTrace] := rfl
    simp [Tracing.next, hmain, hhead, hlist, hfst]
  have hhandled := htaken.step (hhandle _ rfl rfl)
  have hend := @Run.trySteps_append _ _ _ _ _ _ (Tracing.next .little 64) (fun _ _ _ h => h)
    [.decrEntries true 1, .cleanedTraceBufs] _ _ hhandled rfl
  exact ⟨_, _, hend, rfl, rfl, rfl⟩

/-- `dp_entries` counts what is on the lists, up to what the tracers still owe it and the main
thread has taken. When the tracers are gone one round of `clean_trace_bufs` brings it to 0, and
the run ends with all lists empty. -/
theorem tracing_accounts {steps : List (TracingStep ndevs ncpus)}
    (h : Traces host bufSize steps s) :
    s.dpEntries + (∑ t, s.nentries t : ℕ) = (∑ hd, (s.list hd).length : ℕ) + s.main.taken ∧
      (∀ t, (s.pc t).reading = false → s.nentries t = 0) ∧
      (∀ handled, s.main = .processTraceBufs true [] handled → s.dpEntries = handled) ∧
      (s.main = .returned → s.dpEntries = 0 ∧ ∀ hd, s.list hd = []) := by
  obtain ⟨hp, ha, ho, hs⟩ := traces_accounts h
  refine ⟨ha, ho, fun handled hmain => ?_, fun hmain => ⟨hs.returned hmain, fun hd => ?_⟩⟩
  · have hentries := ha.joined hp ho (by rw [hmain]; rfl)
    have hempty : ∀ hd, (s.list hd).length = 0 := fun hd =>
      List.length_eq_zero_iff.mpr (hs.passed [] (by rw [hmain]; rfl) hd List.not_mem_nil)
    rw [Finset.sum_eq_zero fun hd _ => hempty hd, hmain] at hentries
    rw [hentries, Nat.cast_zero, zero_add]
    rfl
  · have hentries := ha.joined hp ho (by rw [hmain]; rfl)
    have htaken : s.main.taken = 0 := by rw [hmain]; rfl
    rw [hs.returned hmain, htaken] at hentries
    have hsum : ∑ hd, (s.list hd).length = 0 := by omega
    exact List.length_eq_zero_iff.mp (Finset.sum_eq_zero_iff.mp hsum hd (Finset.mem_univ hd))

theorem tracing_accounts_one :
    ∃ steps, ∃ s : Tracing 1 1, Traces .little 64 steps s ∧ s.main = .returned ∧
      s.dpEntries + (∑ t, s.nentries t : ℕ) = (∑ hd, (s.list hd).length : ℕ) + s.main.taken ∧
      (∀ t, (s.pc t).reading = false → s.nentries t = 0) ∧
      (∀ handled, s.main = .processTraceBufs true [] handled → s.dpEntries = handled) ∧
      (s.main = .returned → s.dpEntries = 0 ∧ ∀ hd, s.list hd = []) := by
  obtain ⟨steps, s, hrun, hmain, -⟩ := oneTrace_run
  exact ⟨steps, s, hrun, hmain, tracing_accounts hrun⟩

theorem eq_succeeding {calls : List (List (TraceBuf × Option ℕ))}
    (h : ∀ tbp ∈ calls.flatten, tbp.2 = none) :
    calls = (calls.map (List.map Prod.fst)).map DevpathHead.succeeding := by
  have hlist : ∀ list ∈ calls,
      (DevpathHead.succeeding ∘ List.map Prod.fst) list = id list := by
    intro list hlist
    rw [comp, DevpathHead.succeeding, List.map_map]
    refine (List.map_congr_left fun tbp htbp => ?_).trans (List.map_id list)
    have hnone := h tbp (List.mem_flatten_of_mem hlist htbp)
    exact Prod.ext rfl hnone.symm
  rw [List.map_map, List.map_congr_left hlist, List.map_id]

/-- Whatever writes fail, what is written for a device and a CPU comes from what was read, nothing
twice and in its order. While the writes succeed, it is the start of the stream that was read, cut
where a trace ends, and a run that ends has written every whole trace. -/
theorem tracing_delivers {steps : List (TracingStep ndevs ncpus)}
    (h : Traces host bufSize steps s) (hd : HeadId ndevs ncpus) :
    ((s.head hd).written ++ (s.head hd).leftover ++
        received (s.main.inHand hd ++ s.list hd)).Sublist (received (reads hd steps)) ∧
      (∀ clean list todo handled,
        s.main = .handleList clean hd (list.map Prod.fst) todo handled →
        (s.next host bufSize (.handleList clean hd list todo handled)).isSome) ∧
      ∀ events : List (List UInt8), (∀ e ∈ events, (traceFormat host).IsFrame e) →
        received (reads hd steps) <+: events.flatten →
        (∀ tbp ∈ (handles hd steps).flatten, tbp.2 = none) →
        (s.head hd).written ++ (s.head hd).leftover ++ received (s.main.inHand hd ++ s.list hd) =
            received (reads hd steps) ∧
          (s.head hd).nevents ≤ events.length ∧
          (s.head hd).written = (events.take (s.head hd).nevents).flatten ∧
          (s.head hd).leftover.length < sizeofTrace + 65536 ∧
          (s.main = .returned →
            (s.head hd).written ++ (s.head hd).leftover = received (reads hd steps) ∧
              ∀ j, (events.take j).flatten <+: received (reads hd steps) →
                (events.take j).flatten <+: (s.head hd).written) := by
  have hdel := traces_delivered h
  have hcap : ∀ tbp ∈ (handles hd steps).flatten, tbp.1.buf.length = bufSize := by
    intro tbp htbp
    apply hdel.capacity hd
    rw [← hdel.order hd, List.append_assoc]
    exact List.mem_append_left _ (List.mem_map_of_mem htbp)
  have hreads : received (reads hd steps) =
      received ((handles hd steps).flatten.map Prod.fst) ++
        received (s.main.inHand hd ++ s.list hd) := by
    rw [← hdel.order hd, List.append_assoc, received_append]
  obtain ⟨hd', hrun, ho⟩ := (newDevpathHead_ordered bufSize).handleCalls host hcap
  obtain rfl := Option.some.inj (hrun.symm.trans (hdel.handled hd))
  rw [List.nil_append] at ho
  refine ⟨?_, fun clean list todo handled hmain => ?_, fun events hev hin hwrites => ?_⟩
  · rw [hreads]
    exact ho.sub.append (List.Sublist.refl _)
  · have hcapList : ∀ tbp ∈ list, tbp.1.buf.length = bufSize := by
      intro tbp htbp
      apply hdel.capacity hd
      have hinHand : s.main.inHand hd = list.map Prod.fst := by
        rw [hmain]
        exact if_pos rfl
      rw [← hdel.order hd, hinHand, List.append_assoc]
      exact List.mem_append_right _ (List.mem_append_left _ (List.mem_map_of_mem htbp))
    obtain ⟨hd₁, hlist, -⟩ := ho.handleBufs host hcapList
    simp [Tracing.next, hmain, hlist]
  · let calls := (handles hd steps).map (List.map Prod.fst)
    have hcalls : handles hd steps = calls.map DevpathHead.succeeding := eq_succeeding hwrites
    have hflat : calls.flatten = (handles hd steps).flatten.map Prod.fst := (List.map_flatten).symm
    have hcapCalls : ∀ list ∈ calls, ∀ tb ∈ list, tb.buf.length = bufSize := by
      intro list hlist tb htb
      have hmem : tb ∈ (handles hd steps).flatten.map Prod.fst :=
        hflat ▸ List.mem_flatten_of_mem hlist htb
      obtain ⟨tbp, htbp, rfl⟩ := List.mem_map.mp hmem
      exact hcap tbp htbp
    rw [← hflat] at hreads
    obtain ⟨hd', hrun', hf⟩ :=
      (newDevpathHead_framed host bufSize events).handleLists hev hcapCalls (by
        rw [List.nil_append]
        exact (hreads ▸ List.prefix_append _ _).trans hin)
    rw [DevpathHead.handleLists, ← hcalls] at hrun'
    obtain rfl := Option.some.inj (hrun'.symm.trans (hdel.handled hd))
    rw [List.nil_append] at hf
    refine ⟨by rw [hf.split, hreads], hf.count, hf.boundary,
      begun_lt (fun e he => hev e (List.mem_of_mem_drop he)) hf.begun, fun hmain => ?_⟩
    obtain ⟨-, -, -, hend⟩ := tracing_accounts h
    have hnone : s.main.inHand hd = [] := by
      rw [hmain]
      rfl
    have hall : (s.head hd).written ++ (s.head hd).leftover = received (reads hd steps) := by
      rw [hf.split, hreads, hnone, (hend hmain).2 hd, List.append_nil]
      exact (List.append_nil _).symm
    refine ⟨hall, fun j hj => ?_⟩
    rw [← hall, hf.boundary] at hj
    rw [hf.boundary]
    exact hf.begun.longest rfl hj

theorem tracing_delivers_one :
    ∃ steps, ∃ s : Tracing 1 1, Traces .little 64 steps s ∧ s.main = .returned ∧
      reads (0, 0) steps = [oneTrace] ∧
      (s.head (0, 0)).written ++ (s.head (0, 0)).leftover = received (reads (0, 0) steps) ∧
        ∀ j, ([List.replicate 56 0].take j).flatten <+: received (reads (0, 0) steps) →
          ([List.replicate 56 0].take j).flatten <+: (s.head (0, 0)).written := by
  obtain ⟨steps, s, hrun, hmain, hreads, hhandles⟩ := oneTrace_run
  have hin : received (reads (0, 0) steps) <+: [List.replicate 56 0].flatten := by
    rw [hreads]
    exact oneTrace_received
  have hwrites : ∀ tbp ∈ (handles (0, 0) steps).flatten, tbp.2 = none := by
    rw [hhandles]
    exact List.forall_mem_singleton.mpr rfl
  obtain ⟨-, -, hall⟩ := tracing_delivers hrun (0, 0)
  obtain ⟨-, -, -, -, hend⟩ := hall _ oneTrace_isFrame hin hwrites
  exact ⟨steps, s, hrun, hmain, hreads, hend hmain⟩

end Tracing

end SBlktrace
