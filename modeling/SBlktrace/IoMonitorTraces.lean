import SBlktrace.IoMonitor

namespace SBlktrace

open Function FifoQueue ByteOrder

def BlkIoTraceRecord.traceKey (bit : BlkIoTraceRecord) : UInt32 × UInt64 × UInt32 :=
  (bit.device, bit.sector, traceAction bit.action)

namespace Monitor

def next (s : Monitor) (p : Ptr) : Option Ptr := (s.mem p).next

def head (s : Monitor) : Option (Fin 128) → Option Ptr
  | none => s.vacantTracesList
  | some i => s.thash i

def leftover (s : Monitor) : List Ptr :=
  (List.finRange 128).flatMap fun i => collect s.next (s.allocated.card + 1) (s.thash i)

/-- Every trace that is not freed is on the free list, on one list of the hash, or held by the
program: on one of them, and once. -/
structure Holds (s : Monitor) (lists : Option (Fin 128) → List Ptr) (stored : Finset Ptr)
    (held : List Ptr) : Prop where
  chains : Chains s.next s.head lists
  bucket : ∀ i, ∀ p ∈ lists (some i), traceHash (s.mem p).bit.sector = i
  stored : ∀ p, p ∈ stored ↔ ∃ i, p ∈ lists (some i)
  held_nodup : held.Nodup
  held_off : ∀ p ∈ held, ∀ o, p ∉ lists o
  allocated : ∀ p, p ∈ s.allocated ↔ (∃ o, p ∈ lists o) ∨ p ∈ held
  vacant : s.vacantTraces = (lists none).length
  vacant_le : (lists none).length ≤ 256

def Owned (s : Monitor) (stored : Finset Ptr) (held : List Ptr) : Prop :=
  ∃ lists, s.Holds lists stored held

variable {s s' : Monitor} {lists : Option (Fin 128) → List Ptr} {stored : Finset Ptr}
  {held : List Ptr} {p q : Ptr} {bit : BlkIoTraceRecord}

theorem next_setNext (s : Monitor) (p : Ptr) (q : Option Ptr) :
    (s.setNext p q).next = update s.next p q := by
  funext m
  obtain rfl | hne := eq_or_ne m p
  · simp [next, setNext]
  · simp [next, setNext, hne]

@[simp] theorem bit_setNext (s : Monitor) (p m : Ptr) (q : Option Ptr) :
    ((s.setNext p q).mem m).bit = (s.mem m).bit := by
  obtain rfl | hne := eq_or_ne m p
  · simp [setNext]
  · simp [setNext, hne]

theorem head_update_vacant {q : Option Ptr} (hvacant : s'.vacantTracesList = q)
    (hthash : s'.thash = s.thash) : s'.head = update s.head none q := by
  funext o
  cases o with
  | none =>
    rw [update_self]
    exact hvacant
  | some i =>
    rw [update_of_ne (Option.some_ne_none i)]
    exact congrFun hthash i

theorem head_update_thash {i : Fin 128} {q : Option Ptr}
    (hvacant : s'.vacantTracesList = s.vacantTracesList)
    (hthash : s'.thash = update s.thash i q) : s'.head = update s.head (some i) q := by
  funext o
  cases o with
  | none =>
    rw [update_of_ne (Option.some_ne_none i).symm]
    exact hvacant
  | some j =>
    refine (congrFun hthash j).trans ?_
    obtain rfl | hne := eq_or_ne j i
    · rw [update_self, update_self]
    · rw [update_of_ne hne, update_of_ne ((Option.some_injective _).ne hne)]
      rfl

theorem Holds.length_lt (h : s.Holds lists stored held) (o : Option (Fin 128)) :
    (lists o).length < s.allocated.card + 1 := by
  rw [← List.toFinset_card_of_nodup (h.chains.nodup o), Nat.lt_succ_iff]
  refine Finset.card_le_card fun p hp => (h.allocated p).mpr (.inl ⟨o, ?_⟩)
  exact List.mem_toFinset.mp hp

theorem Holds.mem_leftover (h : s.Holds lists stored held) : p ∈ s.leftover ↔ p ∈ stored := by
  have hcollect : ∀ i, collect s.next (s.allocated.card + 1) (s.thash i) = lists (some i) :=
    fun i => collect_eq (h.chains.chain (some i)) (h.length_lt (some i))
  simp only [leftover, hcollect, List.mem_flatMap, List.mem_finRange, true_and, h.stored]

theorem Holds.congr (h : s.Holds lists stored held) (hnext : ∀ o, ∀ p ∈ lists o, s'.next p = s.next p)
    (hhead : s'.head = s.head) (hbit : ∀ p ∈ stored, (s'.mem p).bit = (s.mem p).bit)
    (hallocated : s'.allocated = s.allocated) (hvacant : s'.vacantTraces = s.vacantTraces) :
    s'.Holds lists stored held where
  chains := by
    refine ⟨fun o => ?_, h.chains.nodup, h.chains.disjoint⟩
    rw [hhead]
    exact (h.chains.chain o).congr (hnext o)
  bucket i p hp := by
    rw [hbit p ((h.stored p).mpr ⟨i, hp⟩)]
    exact h.bucket i p hp
  stored := h.stored
  held_nodup := h.held_nodup
  held_off := h.held_off
  allocated := by
    rw [hallocated]
    exact h.allocated
  vacant := hvacant.trans h.vacant
  vacant_le := h.vacant_le

theorem Owned.congr (h : s.Owned stored held) (hmem : ∀ p ∉ held, s'.mem p = s.mem p)
    (hhead : s'.head = s.head) (hallocated : s'.allocated = s.allocated)
    (hvacant : s'.vacantTraces = s.vacantTraces) : s'.Owned stored held := by
  obtain ⟨lists, h⟩ := h
  have hsame : ∀ o, ∀ p ∈ lists o, s'.mem p = s.mem p :=
    fun o p hp => hmem p fun hheld => h.held_off p hheld o hp
  refine ⟨lists, h.congr (fun o p hp => ?_) hhead (fun p hp => ?_) hallocated hvacant⟩
  · rw [next, next, hsame o p hp]
  · obtain ⟨i, hi⟩ := (h.stored p).mp hp
    rw [hsame (some i) p hi]

theorem head_congr (hlist : s'.vacantTracesList = s.vacantTracesList) (hthash : s'.thash = s.thash) :
    s'.head = s.head := by
  funext o
  cases o with
  | none => exact hlist
  | some i => exact congrFun hthash i

theorem Owned.same (h : s.Owned stored held) (hmem : s'.mem = s.mem)
    (hlist : s'.vacantTracesList = s.vacantTracesList) (hthash : s'.thash = s.thash)
    (hallocated : s'.allocated = s.allocated) (hvacant : s'.vacantTraces = s.vacantTraces) :
    s'.Owned stored held :=
  h.congr (fun p _ => congrFun hmem p) (head_congr hlist hthash) hallocated hvacant

theorem Owned.notMem_stored (h : s.Owned stored held) (hp : p ∈ held) : p ∉ stored := by
  obtain ⟨lists, h⟩ := h
  intro hstored
  obtain ⟨i, hi⟩ := (h.stored p).mp hstored
  exact h.held_off p hp (some i) hi

theorem Holds.push (h : s.Holds lists stored (p :: held)) {o : Option (Fin 128)}
    {stored' : Finset Ptr} (hnext : s'.next = update s.next p (s.head o))
    (hhead : s'.head = update s.head o (some p))
    (hbit : ∀ q, (s'.mem q).bit = (s.mem q).bit)
    (hbucket : ∀ i, o = some i → traceHash (s.mem p).bit.sector = i)
    (hstored : ∀ q, q ∈ stored' ↔ q ∈ stored ∨ (q = p ∧ o.isSome = true))
    (hallocated : s'.allocated = s.allocated)
    (hvacant : s'.vacantTraces = (update lists o (p :: lists o) none).length)
    (hle : (update lists o (p :: lists o) none).length ≤ 256) :
    s'.Holds (update lists o (p :: lists o)) stored' held where
  chains := by
    rw [hnext, hhead]
    exact h.chains.push (h.held_off p List.mem_cons_self)
  bucket i q hq := by
    rw [hbit q]
    obtain hq | ⟨rfl, hi⟩ := mem_update_push.mp hq
    · exact h.bucket i q hq
    · exact hbucket i hi.symm
  stored q := by
    rw [hstored q, h.stored q]
    simp only [mem_update_push, exists_or]
    refine or_congr_right ⟨fun ⟨hq, ho⟩ => ?_, fun ⟨i, hq, hi⟩ => ⟨hq, by simp [← hi]⟩⟩
    obtain ⟨i, rfl⟩ := Option.isSome_iff_exists.mp ho
    exact ⟨i, hq, rfl⟩
  held_nodup := h.held_nodup.of_cons
  held_off q hq j hj := by
    obtain hj | ⟨rfl, -⟩ := mem_update_push.mp hj
    · exact h.held_off q (List.mem_cons_of_mem p hq) j hj
    · exact (List.nodup_cons.mp h.held_nodup).1 hq
  allocated q := by
    rw [hallocated, h.allocated q]
    simp only [mem_update_push, exists_or, List.mem_cons]
    simp only [exists_and_left, exists_eq, and_true]
    tauto
  vacant := hvacant
  vacant_le := hle

theorem Owned.storeTrace (h : s.Owned stored (p :: held)) :
    (s.blkiomonStoreTrace p).Owned (insert p stored) held := by
  obtain ⟨lists, h⟩ := h
  have hne : (none : Option (Fin 128)) ≠ some (traceHash (s.mem p).bit.sector) :=
    (Option.some_ne_none _).symm
  refine ⟨_, h.push (o := some (traceHash (s.mem p).bit.sector)) (next_setNext _ _ _)
    (head_update_thash rfl rfl) (bit_setNext s p · _) ?_ ?_ rfl ?_ ?_⟩
  · rintro i ⟨⟩
    rfl
  · simp [Finset.mem_insert, or_comm]
  · rw [update_of_ne hne]
    exact h.vacant
  · rw [update_of_ne hne]
    exact h.vacant_le

theorem Owned.freeTrace (h : s.Owned stored (p :: held)) :
    (s.blkiomonFreeTrace p).Owned stored held := by
  obtain ⟨lists, h⟩ := h
  have hvacant := h.vacant
  rw [blkiomonFreeTrace]
  split
  · rename_i hlt
    refine ⟨_, h.push (o := none) (next_setNext _ _ _) (head_update_vacant rfl rfl)
      (bit_setNext s p · _) (fun i hi => by cases hi) (by simp) rfl ?_ ?_⟩
    · rw [update_self, List.length_cons]
      push_cast
      rw [← hvacant]
    · rw [update_self, List.length_cons]
      omega
  · refine ⟨lists, h.chains, h.bucket, h.stored, h.held_nodup.of_cons,
      fun q hq => h.held_off q (List.mem_cons_of_mem p hq), fun q => ?_, h.vacant, h.vacant_le⟩
    have hoff := h.held_off p List.mem_cons_self
    have hnotMem := (List.nodup_cons.mp h.held_nodup).1
    rw [Finset.mem_erase, h.allocated q, List.mem_cons]
    constructor
    · rintro ⟨hne, hq | rfl | hq⟩
      · exact .inl hq
      · exact absurd rfl hne
      · exact .inr hq
    · rintro (⟨o, hq⟩ | hq)
      · refine ⟨?_, .inl ⟨o, hq⟩⟩
        rintro rfl
        exact hoff o hq
      · refine ⟨?_, .inr (.inr hq)⟩
        rintro rfl
        exact hnotMem hq

theorem Holds.take (h : s.Holds lists stored held) {o : Option (Fin 128)} {before after : List Ptr}
    (hlist : lists o = before ++ p :: after)
    (hchains : Chains s'.next s'.head (update lists o (before ++ after)))
    (hbit : ∀ q, q ≠ p → (s'.mem q).bit = (s.mem q).bit) (hallocated : s'.allocated = s.allocated)
    (hvacant : s'.vacantTraces = (update lists o (before ++ after) none).length) :
    s'.Holds (update lists o (before ++ after)) (stored.erase p) (p :: held) where
  chains := hchains
  bucket i q hq := by
    obtain ⟨hq, hne⟩ := (h.chains.mem_update_erase hlist).mp hq
    rw [hbit q hne]
    exact h.bucket i q hq
  stored q := by
    simp only [Finset.mem_erase, h.stored q, h.chains.mem_update_erase hlist, exists_and_right]
    exact and_comm
  held_nodup := by
    refine List.nodup_cons.mpr ⟨fun hp => ?_, h.held_nodup⟩
    exact h.held_off p hp o (by simp [hlist])
  held_off q hq j hj := by
    obtain ⟨hj, hne⟩ := (h.chains.mem_update_erase hlist).mp hj
    obtain rfl | hq := List.mem_cons.mp hq
    · exact hne rfl
    · exact h.held_off q hq j hj
  allocated q := by
    have hp : ∃ o, p ∈ lists o := ⟨o, by simp [hlist]⟩
    simp only [hallocated, h.allocated q, h.chains.mem_update_erase hlist, exists_and_right,
      List.mem_cons]
    obtain rfl | hne := eq_or_ne q p
    · simp [hp]
    · simp [hne]
  vacant := hvacant
  vacant_le := by
    refine le_trans ?_ h.vacant_le
    obtain rfl | hne := eq_or_ne none o
    · simp [hlist]
    · rw [update_of_ne hne]

theorem Holds.recycle (h : s.Holds lists stored held) (hlist : s.vacantTracesList = some p)
    (hmem : s'.mem = update s.mem p zeroTrace) (hhead : s'.vacantTracesList = s.next p)
    (hthash : s'.thash = s.thash) (hallocated : s'.allocated = s.allocated)
    (hvacant : s'.vacantTraces = s.vacantTraces - 1) : s'.Owned stored (p :: held) := by
  have hchain := h.chains.chain none
  rw [head, hlist] at hchain
  obtain ⟨after, hafter, -⟩ := chain_some hchain
  have hpop := h.chains.pop hafter
  have hp : p ∉ stored := by
    intro hp
    obtain ⟨i, hi⟩ := (h.stored p).mp hp
    exact h.chains.disjoint none (some i) (Option.some_ne_none i).symm (by simp [hafter]) hi
  have hframe : ∀ q, q ≠ p → s'.mem q = s.mem q := by
    intro q hq
    rw [hmem]
    exact update_of_ne hq _ _
  have hsplit : lists none = [] ++ p :: after := hafter
  have hoff : ∀ o, p ∉ update lists none ([] ++ after) o := fun o ho =>
    ((h.chains.mem_update_erase hsplit).mp ho).2 rfl
  have hchains : Chains s'.next s'.head (update lists none after) := by
    refine ⟨fun o => ?_, hpop.nodup, hpop.disjoint⟩
    rw [head_update_vacant hhead hthash]
    refine (hpop.chain o).congr fun q hq => ?_
    rw [next, next, hframe q]
    rintro rfl
    exact hoff o hq
  refine ⟨_, Finset.erase_eq_of_notMem hp ▸ h.take hsplit hchains
    (fun q hq => by rw [hframe q hq]) hallocated ?_⟩
  have hlength := h.vacant
  rw [hafter, List.length_cons] at hlength
  rw [List.nil_append, update_self]
  omega

theorem Holds.fresh (h : s.Holds lists stored held) (hp : p ∉ s.allocated)
    (hmem : s'.mem = update s.mem p zeroTrace) (hhead : s'.head = s.head)
    (hallocated : s'.allocated = insert p s.allocated)
    (hvacant : s'.vacantTraces = s.vacantTraces) : s'.Owned stored (p :: held) := by
  have hoff : ∀ o, p ∉ lists o := fun o ho => hp ((h.allocated p).mpr (.inl ⟨o, ho⟩))
  have hframe : ∀ o, ∀ q ∈ lists o, s'.mem q = s.mem q := by
    intro o q hq
    rw [hmem]
    refine update_of_ne ?_ _ _
    rintro rfl
    exact hoff o hq
  refine ⟨lists, ⟨fun o => ?_, h.chains.nodup, h.chains.disjoint⟩, fun i q hq => ?_, h.stored, ?_,
    List.forall_mem_cons.mpr ⟨hoff, h.held_off⟩, fun q => ?_, hvacant.trans h.vacant,
    h.vacant_le⟩
  · rw [hhead]
    exact (h.chains.chain o).congr fun q hq => by rw [next, next, hframe o q hq]
  · rw [hframe (some i) q hq]
    exact h.bucket i q hq
  · refine List.nodup_cons.mpr ⟨fun hheld => ?_, h.held_nodup⟩
    exact hp ((h.allocated p).mpr (.inr hheld))
  · rw [hallocated, Finset.mem_insert, h.allocated q, List.mem_cons]
    tauto

theorem Owned.allocTrace (h : s.Owned stored held) {newTrace : Option Ptr}
    (hnew : ∀ q, newTrace = some q → q ∉ s.allocated) :
    (s.blkiomonAllocTrace newTrace).1.Owned stored
      ((s.blkiomonAllocTrace newTrace).2.toList ++ held) := by
  obtain ⟨lists, h⟩ := h
  unfold blkiomonAllocTrace
  cases hlist : s.vacantTracesList with
  | some t => exact h.recycle hlist rfl rfl rfl rfl rfl
  | none =>
    cases newTrace with
    | none => exact ⟨lists, h⟩
    | some t =>
      refine h.fresh (hnew t rfl) rfl ?_ rfl rfl
      funext o
      cases o with
      | none => exact hlist.symm
      | some i => rfl

theorem allocTrace_bit (h : s.Owned stored held) {newTrace : Option Ptr}
    (hnew : ∀ q, newTrace = some q → q ∉ s.allocated) (hp : p ∈ stored) :
    ((s.blkiomonAllocTrace newTrace).1.mem p).bit = (s.mem p).bit := by
  have hheld : ∀ q ∈ (s.blkiomonAllocTrace newTrace).2, q ∉ stored := fun q hq =>
    (h.allocTrace hnew).notMem_stored (List.mem_append_left held (Option.mem_toList.mpr hq))
  unfold blkiomonAllocTrace at hheld ⊢
  cases hlist : s.vacantTracesList with
  | some t =>
    rw [hlist] at hheld
    dsimp only
    rw [update_of_ne]
    rintro rfl
    exact hheld p rfl hp
  | none =>
    rw [hlist] at hheld
    cases newTrace with
    | none => rfl
    | some t =>
      dsimp only
      rw [update_of_ne]
      rintro rfl
      exact hheld p rfl hp

theorem fetchLoop_key (s : Monitor) (t : Ptr) :
    ((s.mem t).bit.device = bit.device && (s.mem t).bit.sector = bit.sector &&
      traceAction (s.mem t).bit.action = traceAction bit.action) = true ↔
      (s.mem t).bit.traceKey = bit.traceKey := by
  simp [BlkIoTraceRecord.traceKey, and_assoc]

theorem fetchTrace_none (h : s.Owned stored held) (hfetch : s.blkiomonFetchTrace bit = none) :
    ∀ p ∈ stored, (s.mem p).bit.traceKey ≠ bit.traceKey := by
  obtain ⟨lists, h⟩ := h
  have hloop : s.fetchLoop bit = none := by
    rw [blkiomonFetchTrace] at hfetch
    split at hfetch
    · assumption
    · cases hfetch
    · cases hfetch
  intro p hp hkey
  obtain ⟨i, hi⟩ := (h.stored p).mp hp
  have hbucket := h.bucket i p hi
  have hsector : (s.mem p).bit.sector = bit.sector := congrArg (·.2.1) hkey
  rw [hsector] at hbucket
  subst hbucket
  have hfalse := walk_none (h.chains.chain (some _)) (h.length_lt (some _)) hloop p hi
  rw [(fetchLoop_key s p).mpr hkey] at hfalse
  cases hfalse

theorem fetchTrace_some (h : s.Owned stored held)
    (hfetch : s.blkiomonFetchTrace bit = some (s', p)) :
    p ∈ stored ∧ (s.mem p).bit.traceKey = bit.traceKey ∧ s'.Owned (stored.erase p) (p :: held) ∧
      (∀ q, (s'.mem q).bit = (s.mem q).bit) := by
  obtain ⟨lists, h⟩ := h
  rw [blkiomonFetchTrace] at hfetch
  have hchain := h.chains.chain (some (traceHash bit.sector))
  split at hfetch
  · cases hfetch
  · rename_i prev t hloop
    cases hfetch
    obtain ⟨hkey, before, after, hlist, hprev⟩ := walk_some hchain hloop
    obtain rfl | ⟨before, q, rfl⟩ := before.eq_nil_or_concat
    · cases hprev
    rw [List.concat_eq_append, List.getLast?_concat, Option.some_or, Option.some_inj] at hprev
    subst hprev
    rw [List.concat_eq_append, List.append_assoc, List.singleton_append] at hlist
    refine ⟨(h.stored p).mpr ⟨traceHash bit.sector, ?_⟩, (fetchLoop_key s p).mp hkey, ?_,
      fun q => bit_setNext s prev q _⟩
    · rw [hlist]
      exact List.mem_append_right before (List.mem_cons_of_mem prev List.mem_cons_self)
    have hbypass := h.chains.bypass hlist
    have hlist' : lists (some (traceHash bit.sector)) = (before ++ [prev]) ++ p :: after := by
      simp [hlist]
    refine ⟨_, h.take hlist' ?_ (fun q _ => bit_setNext s prev q _) rfl ?_⟩
    · rw [next_setNext, List.append_assoc, List.singleton_append]
      exact hbypass
    · rw [update_of_ne (Option.some_ne_none _).symm]
      exact h.vacant
  · rename_i t hloop
    cases hfetch
    obtain ⟨hkey, before, after, hlist, hprev⟩ := walk_some hchain hloop
    obtain rfl | ⟨before, q, rfl⟩ := before.eq_nil_or_concat
    · refine ⟨(h.stored p).mpr ⟨traceHash bit.sector, ?_⟩, (fetchLoop_key s p).mp hkey, ?_,
        fun q => rfl⟩
      · rw [hlist]
        exact List.mem_cons_self
      have hpop := h.chains.pop hlist
      refine ⟨_, h.take hlist ?_ (fun q _ => rfl) rfl ?_⟩
      · have hhead := @head_update_thash s
          { s with thash := update s.thash (traceHash bit.sector) (s.mem p).next } _ _ rfl rfl
        rw [hhead]
        exact hpop
      · rw [update_of_ne (Option.some_ne_none _).symm]
        exact h.vacant
    · rw [List.concat_eq_append, List.getLast?_concat] at hprev
      cases hprev

end Monitor

end SBlktrace
