import SBlktrace.BttCounters

namespace SBlktrace

open Function

namespace RequestQueue

def withData (ios : List QueueIo) : List QueueIo := ios.filter fun io => io.bytes ≠ 0

@[simp] theorem withData_append (l l' : List QueueIo) :
    withData (l ++ l') = withData l ++ withData l' :=
  List.filter_append _ _

theorem withData_single {io : QueueIo} (h : io.bytes ≠ 0) : withData [io] = [io] :=
  List.filter_eq_self.mpr (List.forall_mem_singleton.mpr (decide_eq_true h))

theorem withData_empty {io : QueueIo} (h : io.bytes = 0) : withData [io] = [] :=
  List.filter_eq_nil_iff.mpr (List.forall_mem_singleton.mpr (by simp [h]))

theorem mem_withData {io : QueueIo} {l : List QueueIo} :
    io ∈ withData l ↔ io ∈ l ∧ io.bytes ≠ 0 := by
  rw [withData, List.mem_filter, decide_eq_true_iff]

/-- An event that `btt` counts whatever else is in flight: it is heard where it moves the counters or
brings data, a request has data and is issued once, a completed one has one I/O with data, and no I/O
with data is nested with another one. -/
def Plain (q : RequestQueue) (btt : Btt) (event : RequestEvent) (t : BlkIoTraceRecord) : Prop :=
  match event with
  | .queue => t.bytes ≠ 0 → btt.heard t = true ∧ ∀ io ∈ q.inFlight, io.bytes ≠ 0 →
      ¬ RangeTree.Nested QueueIo.start QueueIo.stop (.of t) io
  | .getrq => btt.heard t = true ∧ t.bytes ≠ 0
  | .issue _ => (btt.heard t = true ∧ t.bytes ≠ 0) ∧ t.time ≠ -1
  | .requeue _ => False
  | .complete i => (btt.heard t = true ∧ t.bytes ≠ 0) ∧
      ∀ r ∈ q.requests[i]?, (withData r.ios).length = 1
  | _ => True

instance (x y : QueueIo) : Decidable (RangeTree.Nested QueueIo.start QueueIo.stop x y) :=
  inferInstanceAs (Decidable (_ ∨ _))

instance (q : RequestQueue) (btt : Btt) (event : RequestEvent) (t : BlkIoTraceRecord) :
    Decidable (q.Plain btt event t) :=
  match event with
  | .queue => inferInstanceAs (Decidable (t.bytes ≠ 0 → btt.heard t = true ∧ ∀ io ∈ q.inFlight,
      io.bytes ≠ 0 → ¬ RangeTree.Nested QueueIo.start QueueIo.stop (.of t) io))
  | .getrq => inferInstanceAs (Decidable (btt.heard t = true ∧ t.bytes ≠ 0))
  | .backmerge _ | .frontmerge _ | .insert _ | .other => inferInstanceAs (Decidable True)
  | .issue _ =>
    inferInstanceAs (Decidable ((btt.heard t = true ∧ t.bytes ≠ 0) ∧ t.time ≠ -1))
  | .requeue _ => inferInstanceAs (Decidable False)
  | .complete i => inferInstanceAs (Decidable ((btt.heard t = true ∧ t.bytes ≠ 0) ∧
      ∀ r ∈ q.requests[i]?, (withData r.ios).length = 1))

end RequestQueue

namespace DInfo

open RequestQueue

structure Tracked (q : RequestQueue) (dip : DInfo) : Prop where
  ordered : RangeTree.Ordered (fun p => (dip.queueIo p).start) (fun p => (dip.queueIo p).stop)
    dip.queue.toList
  ios : (dip.queue.toList.map dip.queueIo).Perm (withData q.inFlight)
  live : q.requests ≠ [] ∨ dip.queue.toList ≠ [] → dip.preCulling = false
  nonempty : ∀ r ∈ q.requests, withData r.ios ≠ []
  single : ∀ r ∈ q.requests, (withData r.ios).length = 1 → withData r.ios = [⟨r.sector, r.bytes⟩]
  dispatched : ∀ r ∈ q.requests, r.issued = true → (withData r.ios).length = 1 →
    ∀ p ∈ dip.queue.toList, dip.queueIo p = ⟨r.sector, r.bytes⟩ → (dip.io p).dTime ≠ -1

variable {q q' : RequestQueue} {dip dip' : DInfo} {t : BlkIoTraceRecord} {p : ℕ} {r r' : BlkRequest}
  {i : ℕ}

theorem Tracked.congr (h : Tracked q dip) (ht : dip.Touched dip')
    (hios : (withData q'.inFlight).Perm (withData q.inFlight))
    (hlive : dip.preCulling = false ∨ q'.requests = [])
    (hnonempty : ∀ r ∈ q'.requests, withData r.ios ≠ [])
    (hsingle : ∀ r ∈ q'.requests,
      (withData r.ios).length = 1 → withData r.ios = [⟨r.sector, r.bytes⟩])
    (hdispatched : ∀ r ∈ q'.requests, r.issued = true → (withData r.ios).length = 1 →
      ∀ p ∈ dip.queue.toList, dip.queueIo p = ⟨r.sector, r.bytes⟩ → (dip'.io p).dTime ≠ -1) :
    Tracked q' dip' where
  ordered := by
    simp only [ht.io, ht.queue]
    exact h.ordered
  ios := by
    rw [ht.queue, List.map_congr_left fun p _ => ht.io p]
    exact h.ios.trans hios.symm
  live hor := by
    rw [ht.preCulling]
    obtain hlive | hnil := hlive
    · exact hlive
    · rw [ht.queue] at hor
      exact h.live (.inr (hor.resolve_left (not_not_intro hnil)))
  nonempty := hnonempty
  single := hsingle
  dispatched r hr hissued hlen p hp hio := by
    rw [ht.queue] at hp
    rw [ht.io p] at hio
    exact hdispatched r hr hissued hlen p hp hio

theorem Tracked.touched (h : Tracked q dip) (ht : dip.Touched dip') : Tracked q dip' :=
  h.congr ht (List.Perm.refl _)
    (by
      by_cases hnil : q.requests = []
      · exact .inr hnil
      · exact .inl (h.live (.inl hnil)))
    h.nonempty h.single
    fun r hr hissued hlen p hp hio => ht.dTime p (h.dispatched r hr hissued hlen p hp hio)

theorem Tracked.exists_mem (h : Tracked q dip) {io : QueueIo} (hio : io ∈ q.inFlight)
    (hbytes : io.bytes ≠ 0) : ∃ p ∈ dip.queue.toList, dip.queueIo p = io :=
  List.mem_map.mp (h.ios.mem_iff.mpr (mem_withData.mpr ⟨hio, hbytes⟩))

theorem Tracked.live_of_mem (h : Tracked q dip) {io : QueueIo} (hio : io ∈ q.inFlight)
    (hbytes : io.bytes ≠ 0) : dip.preCulling = false := by
  obtain ⟨p, hp, -⟩ := h.exists_mem hio hbytes
  exact h.live (.inr (List.ne_nil_of_mem hp))

theorem Tracked.foreachList_eq (h : Tracked q dip) (hp : p ∈ dip.queue.toList)
    (hio : dip.queueIo p = .of t) : dip.foreachList t = [p] := by
  have hgather := RangeTree.gather_self h.ordered hp
  rw [hio] at hgather
  exact hgather

theorem Tracked.replace (h : Tracked q dip) (ht : dip.Touched dip') (hr : q.requests[i]? = some r)
    (hrequests : q'.requests = q.requests.set i r') (hios : (q'.inFlight).Perm q.inFlight)
    (hnonempty : withData r'.ios ≠ [])
    (hsingle : (withData r'.ios).length = 1 → withData r'.ios = [⟨r'.sector, r'.bytes⟩])
    (hdispatched : r'.issued = true → (withData r'.ios).length = 1 →
      ∀ p ∈ dip.queue.toList, dip.queueIo p = ⟨r'.sector, r'.bytes⟩ → (dip'.io p).dTime ≠ -1) :
    Tracked q' dip' := by
  obtain ⟨before, after, hsplit, hset, -⟩ := exists_split hr
  have hlive : dip.preCulling = false := by
    refine h.live (.inl ?_)
    rw [hsplit]
    exact List.append_ne_nil_of_right_ne_nil _ (List.cons_ne_nil _ _)
  have hmem : ∀ x ∈ q'.requests, x = r' ∨ x ∈ q.requests := by
    intro x hx
    rw [hrequests, hset] at hx
    rw [hsplit]
    simp only [List.mem_append, List.mem_cons] at hx ⊢
    tauto
  refine h.congr ht (hios.filter _) (.inl hlive) (fun x hx => ?_) (fun x hx => ?_) fun x hx hissued hlen => ?_
  · obtain rfl | hx := hmem x hx
    · exact hnonempty
    · exact h.nonempty x hx
  · obtain rfl | hx := hmem x hx
    · exact hsingle
    · exact h.single x hx
  · obtain rfl | hx := hmem x hx
    · exact hdispatched hissued hlen
    · exact fun p hp hio => ht.dTime p (h.dispatched x hx hissued hlen p hp hio)

theorem Tracked.merge (h : Tracked q dip) (ht : dip.Touched dip') {io : QueueIo}
    (hr : q.requests[i]? = some r) (hio : io ∈ q.waiting) (hios : r'.ios = r.ios ++ [io])
    (hissued : r'.issued = false)
    (hzero : io.bytes = 0 → r'.sector = r.sector ∧ r'.bytes = r.bytes) :
    Tracked (q.absorb io i r') dip' := by
  obtain ⟨before, after, hsplit, hset, -⟩ := exists_split hr
  have hmem := List.mem_of_getElem? hr
  have hne : withData r.ios ≠ [] := h.nonempty r hmem
  have hnot : r'.issued ≠ true := ne_true_of_eq_false hissued
  refine h.replace ht hr rfl ?_ ?_ (fun hone => ?_) fun hyes => absurd hyes hnot
  · have hperm : (io :: q.waiting.erase io).Perm q.waiting := (List.perm_cons_erase hio).symm
    rw [RequestQueue.inFlight, RequestQueue.absorb, RequestQueue.inFlight, hset, hsplit,
      List.flatMap_append, List.flatMap_append, List.flatMap_cons, List.flatMap_cons, hios]
    refine List.perm_iff_count.mpr fun x => ?_
    have hcount := hperm.count_eq x
    simp only [List.count_append, List.count_cons, List.count_nil] at hcount ⊢
    omega
  · rw [hios, withData_append]
    exact List.append_ne_nil_of_left_ne_nil hne _
  · by_cases hbytes : io.bytes = 0
    · obtain ⟨hsector, hsize⟩ := hzero hbytes
      rw [hios, withData_append, withData_empty hbytes, List.append_nil] at hone ⊢
      rw [hsector, hsize]
      exact h.single r hmem hone
    · have hpos := List.length_pos_iff.mpr hne
      rw [hios, withData_append, withData_single hbytes, List.length_append,
        List.length_singleton] at hone
      omega

theorem Tracked.queued (h : Tracked q dip) (rb : RbBalance ℕ) (hbytes : t.bytes ≠ 0)
    (hp : p ∉ dip.queue.toList)
    (hplain : ∀ io ∈ q.inFlight, io.bytes ≠ 0 →
      ¬ RangeTree.Nested QueueIo.start QueueIo.stop (.of t) io) :
    Tracked { q with waiting := q.waiting ++ [.of t] } (dip.traceQueue rb t p) := by
  let read : DInfo := { dip with io := update dip.io p (zeroIo t), preCulling := false }
  have hread : ∀ m ∈ dip.queue.toList, read.io m = dip.io m := by
    intro m hm
    refine update_of_ne ?_ _ _
    rintro rfl
    exact hp hm
  have hreadIo : ∀ m ∈ dip.queue.toList, read.queueIo m = dip.queueIo m := by
    intro m hm
    rw [queueIo, queueIo, hread m hm]
  have hself : read.queueIo p = .of t := by
    rw [queueIo]
    exact congrArg (fun io => QueueIo.of io.t) (update_self p (zeroIo t) dip.io)
  have hordered : RangeTree.Ordered (fun p => (read.queueIo p).start)
      (fun p => (read.queueIo p).stop) dip.queue.toList := by
    refine h.ordered.imp_of_mem fun {m m'} hm hm' hlt => ?_
    beta_reduce
    rw [hreadIo m hm, hreadIo m' hm']
    exact hlt
  have hinFlight : ∀ m ∈ dip.queue.toList, dip.queueIo m ∈ q.inFlight ∧ (dip.queueIo m).bytes ≠ 0 :=
    fun m hm => mem_withData.mp (h.ios.mem_iff.mp (List.mem_map_of_mem hm))
  obtain ⟨queue, hinsert, hperm, hordered'⟩ := @RangeTree.insert_ordered _ _ _
    (fun p => (read.queueIo p).start) (fun p => (read.queueIo p).stop) dip.queue p hordered (by
      intro m hm
      rw [RangeTree.Nested, hself, hreadIo m hm]
      exact hplain _ (hinFlight m hm).1 (hinFlight m hm).2)
  have htrace : dip.traceQueue rb t p = ({ read with queue := rb.insertColor queue }).handleQueue p := by
    rw [traceQueue, if_neg hbytes]
    dsimp only
    rw [show (read.queue.insert (fun p => bitStart (read.io p).t) p) = some queue from hinsert]
  have hlist : (dip.traceQueue rb t p).queue.toList = queue.toList := by
    rw [htrace]
    exact rb.insertColor_toList queue
  have hio : ∀ m, m ≠ p → (dip.traceQueue rb t p).io m = read.io m := by
    intro m hm
    rw [htrace]
    exact update_of_ne hm _ _
  have hqueueIo : ∀ m, (dip.traceQueue rb t p).queueIo m = read.queueIo m := by
    intro m
    obtain rfl | hne := eq_or_ne m p
    · rw [htrace, queueIo]
      exact congrArg (fun io => QueueIo.of io.t) (update_self m _ read.io)
    · rw [queueIo, hio m hne, queueIo]
  have hmem : ∀ m ∈ queue.toList, m = p ∨ m ∈ dip.queue.toList := fun m hm =>
    List.mem_cons.mp (hperm.mem_iff.mp hm)
  refine ⟨?_, ?_, fun _ => ?_, h.nonempty, h.single, fun r hr hissued hlen m hm hrange => ?_⟩
  · simp only [hqueueIo, hlist]
    exact hordered'
  · rw [hlist, List.map_congr_left fun m _ => hqueueIo m]
    refine (hperm.map _).trans ?_
    rw [List.map_cons, hself, List.map_congr_left hreadIo]
    refine (h.ios.cons _).trans ?_
    have hkeep := @withData_single (.of t) hbytes
    rw [RequestQueue.inFlight, RequestQueue.inFlight, List.append_assoc, withData_append,
      withData_append, withData_append, hkeep]
    exact List.perm_middle.symm
  · rw [htrace]
    rfl
  · rw [hlist] at hm
    rw [hqueueIo m] at hrange
    obtain rfl | hm := hmem m hm
    · -- a request of the same range would be nested with the new I/O
      rw [hself] at hrange
      have hin : QueueIo.of t ∈ q.inFlight := by
        refine List.mem_append_right _ (List.mem_flatMap.mpr ⟨r, hr, ?_⟩)
        refine (mem_withData.mp ?_).1
        rw [h.single r hr hlen, hrange]
        exact List.mem_singleton_self _
      exact absurd (.inl ⟨le_rfl, le_rfl⟩) (hplain _ hin hbytes)
    · have hne : m ≠ p := by
        rintro rfl
        exact hp hm
      rw [hreadIo m hm] at hrange
      rw [hio m hne, hread m hm]
      exact h.dispatched r hr hissued hlen m hm hrange

theorem Tracked.unqueued (h : Tracked q dip) (hbytes : t.bytes = 0) :
    Tracked { q with waiting := q.waiting ++ [.of t] } dip := by
  refine ⟨h.ordered, ?_, h.live, h.nonempty, h.single, h.dispatched⟩
  have hdrop := @withData_empty (.of t) hbytes
  rw [RequestQueue.inFlight, withData_append, withData_append, hdrop, List.append_nil,
    ← withData_append]
  exact h.ios

theorem touched_dispatch (t : BlkIoTraceRecord) (htime : t.time ≠ -1) (ps : List ℕ) (dip : DInfo) :
    let dip' := ps.foldl (fun dip p => dip.setIo p fun q =>
      { q with dTime := t.time, dSec := t.sector, dNsec := t.tSec }) dip
    dip.Touched dip' ∧ ∀ p ∈ ps, (dip'.io p).dTime ≠ -1 := by
  induction ps generalizing dip with
  | nil => exact ⟨touched_rfl dip, List.forall_mem_nil _⟩
  | cons p ps ih =>
    let f : BttIo → BttIo := fun q => { q with dTime := t.time, dSec := t.sector, dNsec := t.tSec }
    obtain ⟨htouched, hps⟩ := ih (dip.setIo p f)
    have hset : dip.Touched (dip.setIo p f) := touched_setIo dip p (fun _ => rfl) fun _ _ => htime
    refine ⟨hset.trans htouched, List.forall_mem_cons.mpr ⟨htouched.dTime p ?_, hps⟩⟩
    rw [io_setIo_self]
    exact htime

theorem Tracked.getrq (h : Tracked q dip) (hmem : .of t ∈ q.waiting) (hdata : t.bytes ≠ 0) :
    Tracked
      { waiting := q.waiting.erase (.of t)
        requests := q.requests ++
          [{ ios := [.of t], sector := t.sector, bytes := t.bytes, issued := false }] }
      (dip.handleG t) := by
  have hlive := h.live_of_mem (List.mem_append_left _ hmem) hdata
  have htouched := (touched_handleG dip t).1
  have hperm : (QueueIo.of t :: q.waiting.erase (.of t)).Perm q.waiting :=
    (List.perm_cons_erase hmem).symm
  have hone := @withData_single (.of t) hdata
  refine h.congr htouched (List.Perm.filter _ ?_) (.inl hlive) ?_ ?_ ?_
  · rw [RequestQueue.inFlight, RequestQueue.inFlight, List.flatMap_append, List.flatMap_singleton]
    refine List.perm_iff_count.mpr fun x => ?_
    have hcount := hperm.count_eq x
    simp only [List.count_append, List.count_cons, List.count_nil] at hcount ⊢
    omega
  · rw [List.forall_mem_append, List.forall_mem_singleton, hone]
    exact ⟨h.nonempty, List.cons_ne_nil _ _⟩
  · rw [List.forall_mem_append, List.forall_mem_singleton, hone]
    exact ⟨h.single, fun _ => rfl⟩
  · rw [List.forall_mem_append, List.forall_mem_singleton]
    refine ⟨fun r hr hissued hlen m hm hio => htouched.dTime m ?_, fun hissued => ?_⟩
    · exact h.dispatched r hr hissued hlen m hm hio
    · cases hissued

theorem Tracked.issue (h : Tracked q dip) (hr : q.requests[i]? = some r)
    (hsector : t.sector = r.sector) (hbytes : t.bytes = r.bytes) (htime : t.time ≠ -1) :
    Tracked { q with requests := q.requests.set i { r with issued := true } }
      (dip.handleIssue t) := by
  obtain ⟨before, after, hsplit, hset, -⟩ := exists_split hr
  have hmem := List.mem_of_getElem? hr
  have hissued := (touched_issued dip t).1
  obtain ⟨hdispatch, hgathered⟩ :=
    touched_dispatch t htime ((dip.issued t).foreachList t) (dip.issued t)
  refine h.replace (hissued.trans hdispatch) hr rfl ?_ (h.nonempty r hmem) (h.single r hmem)
    fun _ _ p hp hio => hgathered p ?_
  · rw [RequestQueue.inFlight, RequestQueue.inFlight, hset, hsplit, List.flatMap_append,
      List.flatMap_append, List.flatMap_cons, List.flatMap_cons]
  · have hp' : p ∈ (dip.issued t).queue.toList := by
      rw [hissued.queue]
      exact hp
    have hio' : (dip.issued t).queueIo p = .of t := by
      rw [hissued.io p, hio, QueueIo.of, hsector, hbytes]
    rw [(h.touched hissued).foreachList_eq hp' hio']
    exact List.mem_singleton_self p

theorem Tracked.exists_completed (h : Tracked q dip) (hr : r ∈ q.requests)
    (hlen : (withData r.ios).length = 1) (hissued : r.issued = true) (hsector : t.sector = r.sector)
    (hbytes : t.bytes = r.bytes) (hdata : t.bytes ≠ 0) :
    withData r.ios = [.of t] ∧
      ∃ p ∈ dip.queue.toList, dip.queueIo p = .of t ∧ (dip.io p).dTime ≠ -1 := by
  have hrange : QueueIo.of t = ⟨r.sector, r.bytes⟩ := by
    rw [QueueIo.of, hsector, hbytes]
  have hios : withData r.ios = [.of t] := by
    rw [hrange]
    exact h.single r hr hlen
  have hin : QueueIo.of t ∈ r.ios := by
    refine (mem_withData.mp ?_).1
    rw [hios]
    exact List.mem_singleton_self _
  have hflight : QueueIo.of t ∈ q.inFlight :=
    List.mem_append_right _ (List.mem_flatMap.mpr ⟨r, hr, hin⟩)
  obtain ⟨p, hp, hio⟩ := h.exists_mem hflight hdata
  exact ⟨hios, p, hp, hio, h.dispatched r hr hissued hlen p hp (hio.trans hrange)⟩

theorem Tracked.complete (h : Tracked q dip) (rb : RbBalance ℕ) (hr : q.requests[i]? = some r)
    (hlen : (withData r.ios).length = 1) (hissued : r.issued = true) (hsector : t.sector = r.sector)
    (hbytes : t.bytes = r.bytes) (hdata : t.bytes ≠ 0) :
    Tracked { q with requests := q.requests.eraseIdx i } (dip.handleComplete rb t) := by
  obtain ⟨before, after, hsplit, -, herase⟩ := exists_split hr
  have hmem := List.mem_of_getElem? hr
  obtain ⟨hios, p, hp, hio, -⟩ := h.exists_completed hmem hlen hissued hsector hbytes hdata
  obtain ⟨hsame, hculling, hlist, -⟩ := walked_complete rb t (dip.foreachList t) dip
  rw [← handleComplete] at hsame hculling hlist
  rw [h.foreachList_eq hp hio, List.diff_cons, List.diff_nil] at hlist
  have hqueueIo : (dip.handleComplete rb t).queueIo = dip.queueIo := by
    funext m
    rw [queueIo, queueIo, hsame]
  have hsub : ∀ x ∈ q.requests.eraseIdx i, x ∈ q.requests := fun x hx =>
    List.mem_of_mem_eraseIdx hx
  refine ⟨?_, ?_, fun _ => ?_, fun x hx => h.nonempty x (hsub x hx),
    fun x hx => h.single x (hsub x hx), fun x hx hyes hone m hm hxrange => ?_⟩
  · rw [hqueueIo, hlist]
    exact h.ordered.sublist List.erase_sublist
  · rw [hqueueIo, hlist]
    have hcons := (List.perm_cons_erase hp).symm.map dip.queueIo
    rw [List.map_cons, hio] at hcons
    refine (List.perm_cons (QueueIo.of t)).mp (hcons.trans (h.ios.trans ?_))
    have hflight : q.inFlight.Perm
        (r.ios ++ RequestQueue.inFlight { q with requests := q.requests.eraseIdx i }) := by
      rw [RequestQueue.inFlight, RequestQueue.inFlight, herase, hsplit, List.flatMap_append,
        List.flatMap_append, List.flatMap_cons]
      refine List.perm_iff_count.mpr fun x => ?_
      simp only [List.count_append]
      omega
    have hfiltered : (withData q.inFlight).Perm (withData
        (r.ios ++ RequestQueue.inFlight { q with requests := q.requests.eraseIdx i })) :=
      hflight.filter _
    rw [withData_append, hios] at hfiltered
    exact hfiltered
  · rw [hculling]
    exact h.live (.inl (List.ne_nil_of_mem hmem))
  · rw [hlist] at hm
    rw [hqueueIo] at hxrange
    rw [hsame]
    exact h.dispatched x (hsub x hx) hyes hone m (List.mem_of_mem_erase hm) hxrange

theorem tracked_fresh : Tracked .empty fresh where
  ordered := List.Pairwise.nil
  ios := List.Perm.refl _
  live h := h.elim (absurd rfl) (absurd rfl)
  nonempty := List.forall_mem_nil _
  single := List.forall_mem_nil _
  dispatched := List.forall_mem_nil _

theorem Tracked.sound (h : Tracked q dip) : dip.Sound where
  sorted := h.ordered.imp And.left
  live hne := h.live (.inr hne)

theorem touched_handled {handle : DInfo → BlkIoTraceRecord → DInfo}
    (h : dip.Touched (handle dip t)) : dip.Touched (dip.handled t handle) := by
  by_cases hlive : t.bytes ≠ 0 ∧ dip.preCulling = false
  · rw [handled_of_live hlive.1 hlive.2]
    exact h
  · rw [handled_of_not hlive]
    exact touched_rfl dip

theorem touched_addTraceAction (btt : Btt) (hkind : kind t ∉ [blkTaQueue, blkTaRemap, blkTaGetrq,
    blkTaRequeue, blkTaIssue, blkTaComplete]) : dip.Touched (dip.addTraceAction btt t p) := by
  simp only [List.mem_cons, List.not_mem_nil, or_false, not_or] at hkind
  obtain ⟨hq, hm, hg, hr, hd, hc⟩ := hkind
  have hsec : ∀ f : BttIo → BttIo, (∀ q, (f q).t = q.t) → (∀ q, (f q).dTime = q.dTime) →
      dip.Touched (dip.atSec t f) := fun f ht hd =>
    (touched_atSec dip t ht fun q hq => (hd q).symm ▸ hq).1
  have hmerge := (touched_handleM dip t).1
  rw [addTraceAction, if_neg hq, if_neg hm, if_neg hg, if_neg hr, if_neg hd, if_neg hc]
  split_ifs
  · exact touched_handled (hsec _ (fun _ => rfl) fun _ => rfl)
  · exact touched_handled hmerge
  · exact touched_handled hmerge
  · exact touched_handled (hsec _ (fun _ => rfl) fun _ => rfl)
  · exact touched_rfl dip

theorem touched_addTrace (btt : Btt) (hkind : btt.heard t = true → kind t ∉ [blkTaQueue, blkTaRemap,
    blkTaGetrq, blkTaRequeue, blkTaIssue, blkTaComplete]) : dip.Touched (dip.addTrace btt t p).1 := by
  cases hheard : btt.heard t with
  | true =>
    rw [addTrace_of_heard hheard]
    exact touched_addTraceAction btt (hkind hheard)
  | false =>
    rw [addTrace_of_not_heard hheard]
    exact touched_rfl dip

theorem Tracked.other (h : Tracked q dip) (btt : Btt)
    (hkind : t.has blkTcNotify = true ∨ kind t ∉ [blkTaQueue, blkTaGetrq, blkTaBackmerge,
      blkTaFrontmerge, blkTaInsert, blkTaIssue, blkTaRequeue, blkTaComplete]) :
    Tracked q (dip.addTrace btt t p).1 := by
  have hnot : btt.heard t = true → kind t ∉ [blkTaQueue, blkTaGetrq, blkTaRequeue, blkTaIssue,
      blkTaComplete] := by
    intro hheard
    obtain hnotify | hkind := hkind
    · rw [Btt.heard, hnotify] at hheard
      cases hheard
    · simp only [List.mem_cons, List.not_mem_nil, or_false, not_or] at hkind ⊢
      tauto
  by_cases hremap : btt.heard t = true ∧ kind t = blkTaRemap
  · rw [addTrace_of_heard hremap.1]
    dsimp only
    rw [addTraceAction, hremap.2, if_neg (by decide), if_pos rfl]
    split
    · exact h
    · exact ⟨h.ordered, h.ios, fun _ => rfl, h.nonempty, h.single, h.dispatched⟩
  · refine h.touched (touched_addTrace btt fun hheard => ?_)
    have hother := hnot hheard
    simp only [List.mem_cons, List.not_mem_nil, or_false, not_or] at hother ⊢
    exact ⟨hother.1, fun heq => hremap ⟨hheard, heq⟩, hother.2⟩

theorem addTrace_handled {btt : Btt} {handle : DInfo → BlkIoTraceRecord → DInfo}
    (hheard : btt.heard t = true) (hdata : t.bytes ≠ 0) (hlive : dip.preCulling = false)
    (haction : dip.addTraceAction btt t p = dip.handled t handle) : (dip.addTrace btt t p).1 = handle dip t := by
  rw [addTrace_of_heard hheard]
  dsimp only
  rw [haction, handled_of_live hdata hlive]

theorem Tracked.nextQueue (h : Tracked q dip) (btt : Btt) (hkind : kind t = blkTaQueue)
    (hp : p ∉ dip.queue.toList) (hplain : q.Plain btt .queue t) :
    Tracked { q with waiting := q.waiting ++ [QueueIo.of t] } (dip.addTrace btt t p).1 := by
  by_cases hdata : t.bytes = 0
  · have hsame : (dip.addTrace btt t p).1 = dip := by
      cases hheard : btt.heard t with
      | true =>
        rw [addTrace_of_heard hheard]
        dsimp only
        rw [addTraceAction, if_pos hkind, traceQueue, if_pos hdata]
      | false => exact addTrace_of_not_heard hheard
    rw [hsame]
    exact h.unqueued hdata
  · obtain ⟨hheard, hnested⟩ := hplain hdata
    rw [addTrace_of_heard hheard]
    dsimp only
    rw [addTraceAction, if_pos hkind]
    exact h.queued btt.rb hdata hp hnested

theorem Tracked.next (h : Tracked q dip) (btt : Btt) {event : RequestEvent}
    (hnext : q.next event t = some q') (hp : p ∉ dip.queue.toList) (hplain : q.Plain btt event t) :
    Tracked q' (dip.addTrace btt t p).1 := by
  cases event with
  | queue =>
    rw [RequestQueue.next] at hnext
    split at hnext
    · rename_i hkind
      cases hnext
      exact h.nextQueue btt hkind hp hplain
    · cases hnext
  | getrq =>
    rw [RequestQueue.next] at hnext
    split at hnext
    · rename_i hall
      cases hnext
      obtain ⟨hheard, hdata⟩ := hplain
      have hlive := h.live_of_mem (List.mem_append_left _ hall.2) hdata
      rw [addTrace_handled hheard hdata hlive (show _ = dip.handled t handleG by rw [addTraceAction, hall.1]; rfl)]
      exact h.getrq hall.2 hdata
    · cases hnext
  | backmerge i =>
    obtain ⟨r, hr, hnext⟩ := Option.bind_eq_some_iff.mp hnext
    split at hnext
    · rename_i hall
      cases hnext
      refine h.merge (touched_addTrace btt fun _ => ?_) hr hall.2.2.1 rfl hall.2.1 fun hzero => ?_
      · rw [hall.1]
        decide
      · have hbytes : t.bytes = 0 := hzero
        exact ⟨rfl, by rw [hbytes]; exact add_zero _⟩
    · cases hnext
  | frontmerge i =>
    obtain ⟨r, hr, hnext⟩ := Option.bind_eq_some_iff.mp hnext
    split at hnext
    · rename_i hall
      cases hnext
      refine h.merge (touched_addTrace btt fun _ => ?_) hr hall.2.2.1 rfl hall.2.1 fun hzero => ?_
      · rw [hall.1]
        decide
      · have hbytes : t.bytes = 0 := hzero
        have hstart := hall.2.2.2
        rw [BlkIoTraceRecord.tSec, hbytes] at hstart
        exact ⟨(add_zero _).symm.trans hstart, by rw [hbytes]; exact add_zero _⟩
    · cases hnext
  | insert i =>
    obtain ⟨r, hr, hnext⟩ := Option.bind_eq_some_iff.mp hnext
    split at hnext
    · rename_i hall
      cases hnext
      refine h.touched (touched_addTrace btt fun _ => ?_)
      rw [hall.1]
      decide
    · cases hnext
  | issue i =>
    obtain ⟨r, hr, hnext⟩ := Option.bind_eq_some_iff.mp hnext
    split at hnext
    · rename_i hall
      cases hnext
      obtain ⟨⟨hheard, hdata⟩, htime⟩ := hplain
      have hlive := h.live (.inl (List.ne_nil_of_mem (List.mem_of_getElem? hr)))
      rw [addTrace_handled hheard hdata hlive
        (show _ = dip.handled t handleIssue by rw [addTraceAction, hall.1]; rfl)]
      exact h.issue hr hall.2.2.1 hall.2.2.2 htime
    · cases hnext
  | requeue i => exact absurd hplain not_false
  | complete i =>
    obtain ⟨r, hr, hnext⟩ := Option.bind_eq_some_iff.mp hnext
    split at hnext
    · rename_i hall
      cases hnext
      obtain ⟨⟨hheard, hdata⟩, hlen⟩ := hplain
      have hlive := h.live (.inl (List.ne_nil_of_mem (List.mem_of_getElem? hr)))
      rw [addTrace_handled hheard hdata hlive
        (show _ = dip.handled t (handleComplete btt.rb) by rw [addTraceAction, hall.1]; rfl)]
      exact h.complete btt.rb hr (hlen r hr) hall.2.1 hall.2.2.1 hall.2.2.2 hdata
    · cases hnext
  | other =>
    rw [RequestQueue.next] at hnext
    split at hnext
    · rename_i hkind
      cases hnext
      exact h.other btt hkind
    · cases hnext

theorem Tracked.counted (h : Tracked q dip) (btt : Btt) {event : RequestEvent}
    (hnext : q.next event t = some q') (hplain : q.Plain btt event t) :
    dip.Counted btt event t := by
  cases event with
  | queue => trivial
  | getrq =>
    rw [RequestQueue.next] at hnext
    split at hnext
    · rename_i hall
      obtain ⟨hheard, hdata⟩ := hplain
      exact ⟨hheard, hdata, h.live_of_mem (List.mem_append_left _ hall.2) hdata⟩
    · cases hnext
  | backmerge i => trivial
  | frontmerge i => trivial
  | insert i => trivial
  | issue i =>
    obtain ⟨r, hr, -⟩ := Option.bind_eq_some_iff.mp hnext
    obtain ⟨⟨hheard, hdata⟩, -⟩ := hplain
    exact ⟨hheard, hdata, h.live (.inl (List.ne_nil_of_mem (List.mem_of_getElem? hr)))⟩
  | requeue i => exact hplain
  | complete i =>
    obtain ⟨r, hr, hnext⟩ := Option.bind_eq_some_iff.mp hnext
    split at hnext
    · rename_i hall
      obtain ⟨⟨hheard, hdata⟩, hlen⟩ := hplain
      obtain ⟨-, p, hp, hio, hdispatched⟩ := h.exists_completed (List.mem_of_getElem? hr)
        (hlen r hr) hall.2.1 hall.2.2.1 hall.2.2.2 hdata
      refine ⟨hheard, hdata, (ended_countP h.sound).mp ?_⟩
      rw [h.foreachList_eq hp hio, List.countP_singleton, if_pos (decide_eq_true hdispatched)]
    · cases hnext
  | other => trivial

end DInfo

structure BttState where
  queue : RequestQueue
  dip : DInfo
  done : Bool

abbrev BttEvent := RequestEvent × BlkIoTraceRecord × ℕ

abbrev BttStep := BttState × BttEvent × BttState

namespace Btt

def first : BttState where
  queue := .empty
  dip := .fresh
  done := false

def next (btt : Btt) (s : BttState) (event : BttEvent) : Option BttState :=
  if s.done ∨ event.2.2 ∈ s.dip.queue.toList then none
  else (s.queue.next event.1 event.2.1).map fun q =>
    let (dip, done) := s.dip.addTrace btt event.2.1 event.2.2
    ⟨q, dip, done⟩

abbrev Reads (btt : Btt) (steps : List BttStep) (s : BttState) : Prop :=
  Run (· = first) (fun s event s' => btt.next s event = some s') steps s

def InBalance (step : BttStep) : Prop := DInfo.InBalance step.2.2.queue step.2.2.dip

def Counted (btt : Btt) (step : BttStep) : Prop :=
  step.1.dip.Counted btt step.2.1.1 step.2.1.2.1

def Plain (btt : Btt) (step : BttStep) : Prop :=
  step.1.queue.Plain btt step.2.1.1 step.2.1.2.1

instance (btt : Btt) (step : BttStep) : Decidable (btt.Plain step) :=
  inferInstanceAs (Decidable (step.1.queue.Plain btt _ _))

theorem next_cases {btt : Btt} {s s' : BttState} {event : BttEvent}
    (h : btt.next s event = some s') :
    event.2.2 ∉ s.dip.queue.toList ∧ s.queue.next event.1 event.2.1 = some s'.queue ∧
      s'.dip = (s.dip.addTrace btt event.2.1 event.2.2).1 := by
  rw [next] at h
  split at h
  · cases h
  · rename_i hnot
    obtain ⟨q, hq, rfl⟩ := Option.map_eq_some_iff.mp h
    exact ⟨fun hmem => hnot (.inr hmem), hq, rfl⟩

/-- The counters are those of the requests in flight after every event just if they follow every
event. They do where the events are plain. -/
theorem counters_balanced_iff (btt : Btt) (steps : List BttStep) (s : BttState)
    (h : btt.Reads steps s) :
    ((∀ step ∈ steps, InBalance step) ↔ ∀ step ∈ steps, btt.Counted step) ∧
      ((∀ step ∈ steps, btt.Plain step) → ∀ step ∈ steps, btt.Counted step) := by
  constructor
  · refine h.forall_iff (fun s => s.dip.Sound ∧ DInfo.InBalance s.queue s.dip) ?_ ?_ ?_
    · rintro s rfl
      exact ⟨DInfo.tracked_fresh.sound, balanced_iff_counts.mpr ⟨rfl, rfl⟩,
        balanced_iff_counts.mpr ⟨rfl, rfl⟩⟩
    · rintro s event s' ⟨hsound, hbalance⟩ hstep hcounted
      obtain ⟨hp, hnext, hdip⟩ := next_cases hstep
      rw [hdip]
      exact ⟨hsound.addTrace btt hp,
        (DInfo.inBalance_next_iff hsound hbalance btt hnext).mpr hcounted⟩
    · rintro s event s' ⟨hsound, hbalance⟩ hstep
      obtain ⟨-, hnext, hdip⟩ := next_cases hstep
      rw [InBalance, hdip]
      exact DInfo.inBalance_next_iff hsound hbalance btt hnext
  · refine h.forall_of (fun s => DInfo.Tracked s.queue s.dip) ?_ ?_ ?_
    · rintro s rfl
      exact DInfo.tracked_fresh
    · intro s event s' htracked hstep hplain
      obtain ⟨hp, hnext, hdip⟩ := next_cases hstep
      rw [hdip]
      exact htracked.next btt hnext hp hplain
    · intro s event s' htracked hstep hplain
      exact htracked.counted btt (next_cases hstep).2.1 hplain

def spine : List ℕ → RangeTree ℕ
  | [] => .nil
  | x :: l => .node .nil x (spine l)

theorem spine_toList (l : List ℕ) : (spine l).toList = l := by
  induction l with
  | nil => rfl
  | cons x l ih => rw [spine, RangeTree.toList_node, ih, RangeTree.toList_nil, List.nil_append]

def spineBalance : RbBalance ℕ where
  insertColor t := t
  insertColor_toList _ := rfl
  erase x t := spine (t.toList.erase x)
  erase_toList _ _ := spine_toList _

def reader : Btt where
  rb := spineBalance
  ignoreRemaps := false
  timeBounded := false
  early _ := false
  late _ := false

def fsTrace (kind : UInt32) (time sector : UInt64) (bytes : UInt32) : BlkIoTraceRecord :=
  ⟨⟨0x65617407, 1, time, kind ||| blkTcAct blkTcRead, 0x800010, 0⟩, sector, bytes, 1, 0, 0, 0, 0⟩

def processTrace (time : UInt64) : BlkIoTraceRecord :=
  ⟨⟨0x65617407, 1, time, blkTcAct blkTcNotify, 0, 0⟩, 0, 0, 0, 0, 0, 0, 0⟩

theorem reads_trySteps {events : List BttEvent} {s : BttState} {steps : List BttStep}
    (h : Run.trySteps reader.next first events = some (steps, s)) : reader.Reads steps s :=
  Run.trySteps_run (fun _ _ _ h => h) rfl h

theorem counters_two :
    ∃ steps s, reader.Reads steps s ∧ steps.length = 10 ∧ s.queue.requests.length = 1 ∧
      ∀ step ∈ steps, InBalance step := by
  have hrun := @reads_trySteps
    [(.other, processTrace 1, 0), (.queue, fsTrace blkTaQueue 1 8 4096, 0),
      (.getrq, fsTrace blkTaGetrq 2 8 4096, 1), (.queue, fsTrace blkTaQueue 3 32 4096, 1),
      (.getrq, fsTrace blkTaGetrq 4 32 4096, 2), (.queue, fsTrace blkTaQueue 5 40 0, 2),
      (.backmerge 1, fsTrace blkTaBackmerge 6 40 0, 2),
      (.issue 0, fsTrace blkTaIssue 7 8 4096, 2), (.issue 1, fsTrace blkTaIssue 8 32 4096, 2),
      (.complete 1, fsTrace blkTaComplete 9 32 4096, 2)] _ _ rfl
  have hcounters := counters_balanced_iff _ _ _ hrun
  exact ⟨_, _, hrun, rfl, rfl, hcounters.1.mpr (hcounters.2 (by decide +kernel))⟩

/-- A request that has absorbed a queue I/O is taken off twice when it completes. -/
theorem merged_request_negative :
    ∃ steps s, reader.Reads steps s ∧ s.queue.requests = [] ∧ s.dip.stats.curDev = -1 ∧
      s.dip.stats.curQusz = -1 ∧ ¬ s.dip.stats.Balanced s.queue := by
  have hrun := @reads_trySteps
    [(.queue, fsTrace blkTaQueue 1 8 4096, 0), (.getrq, fsTrace blkTaGetrq 2 8 4096, 1),
      (.queue, fsTrace blkTaQueue 3 16 4096, 1),
      (.backmerge 0, fsTrace blkTaBackmerge 4 16 4096, 2),
      (.issue 0, fsTrace blkTaIssue 5 8 8192, 2),
      (.complete 0, fsTrace blkTaComplete 6 8 8192, 2)] _ _ rfl
  refine ⟨_, _, hrun, rfl, rfl, rfl, fun h => ?_⟩
  exact absurd h.nonneg.1 (by decide)

end Btt

end SBlktrace
