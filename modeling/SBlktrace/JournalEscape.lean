import SBlktrace.JournalHistory
import SBlktrace.JournalCompleteness
import Mathlib

namespace SBlktrace

open Function

/-- A file-system block as the journal holds it: a signature at its start is zeroed. -/
def logged (b : Buf) : Buf := if readui32be b 0 = journalSignature then writeui32le b 0 else b

def isCommitBlock (buf : Buf) : Prop :=
  isJournalFsBlock buf = false ∧ readui32be buf 4 = journalCommitBlock

section Escape

variable {b d : Buf} {flags : UInt32} {size : ℕ}

theorem readui32be_zeroed (b : Buf) : readui32be (writeui32le b 0) 0 = 0 := by
  simp [readui32be, writeui32le]

theorem isJournalFsBlock_logged (b : Buf) : isJournalFsBlock (logged b) = true := by
  rw [logged]
  split
  · rw [isJournalFsBlock, readui32be_zeroed]
    decide
  · rename_i hsignature
    simpa [isJournalFsBlock] using hsignature

theorem writeui32le_writeui32le (b : Buf) (v w : UInt32) :
    writeui32le (writeui32le b v) w = writeui32le b w := by
  funext i
  rw [writeui32le, writeui32le, writeui32le]
  split <;> rfl

theorem readui32be_third (b : Buf) : (readui32be b 0 >>> 8).toUInt8 = b 2 := by
  rw [readui32be]
  apply UInt8.eq_of_toBitVec_eq
  ext i hi
  have h₂ : 8 + i < 24 := by omega
  have h₁ : 8 + i < 16 := by omega
  simp [h₁, h₂, show 8 + i < 32 by omega, show i < 32 by omega, BitVec.getLsbD_eq_getElem hi]

theorem restored_escaped (hsize : 12 ≤ size) (hsignature : readui32be b 0 = journalSignature)
    (hflag : flags &&& journalDescEscape ≠ 0) :
    ¬∀ i < size, JournalState.restored flags d i = b i := by
  intro h
  have hthird := h 2 (by omega)
  rw [JournalState.restored, if_pos hflag] at hthird
  have hb := readui32be_third b
  have hbyte : writeui32le d 0x98c93bc0 2 = 0xc9 := rfl
  rw [hsignature, ← hthird, hbyte] at hb
  exact absurd hb (by decide)

end Escape

variable {σ : Type} {jn : Journal} {fs : FileSystem σ} {st : JournalState σ} {q : ℕ}
  {t : SjournalTransaction} {b : Buf}

namespace JournalState

theorem write_quiet (ht : st.sjTransaction = some t) {w : UInt32 × Buf} (hw : ¬ isCommitBlock w.2) :
    (st.journalRwIntrospection jn fs true w.1 w.2).1.sjTransaction = some t ∧
      (st.journalRwIntrospection jn fs true w.1 w.2).1.ptd = st.ptd ∧
      (st.journalRwIntrospection jn fs true w.1 w.2).1.introspected = st.introspected ∧
      ∀ q, jn.sjbBlockid q ≠ w.1 →
        (st.journalRwIntrospection jn fs true w.1 w.2).1.sjbData q = st.sjbData q := by
  have hstored : ∀ q buf, jn.sjbBlockid q = w.1 → (st.setData q buf).sjTransaction = some t ∧
      (st.setData q buf).ptd = st.ptd ∧ (st.setData q buf).introspected = st.introspected ∧
      ∀ q', jn.sjbBlockid q' ≠ w.1 → (st.setData q buf).sjbData q' = st.sjbData q' := by
    intro q buf hq
    refine ⟨ht, rfl, rfl, fun q' hq' => ?_⟩
    have hne : q' ≠ q := by
      rintro rfl
      exact hq' hq
    exact update_of_ne hne _ _
  have hsame : st.sjTransaction = some t ∧ st.ptd = st.ptd ∧ st.introspected = st.introspected ∧
      ∀ q, jn.sjbBlockid q ≠ w.1 → st.sjbData q = st.sjbData q := ⟨ht, rfl, rfl, fun _ _ => rfl⟩
  unfold journalRwIntrospection
  cases hl : jn.lookup w.1 with
  | none => exact hsame
  | some q =>
    have hq := (Journal.lookup_sound hl).1
    simp only [not_true_eq_false, if_false]
    by_cases hdata : isJournalFsBlock w.2 = true
    · rw [if_pos hdata]
      exact hstored q _ hq
    · rw [if_neg hdata]
      cases hh : parseJournalStandardHeader w.2 jn.extdesc.edBlockSize.toNat with
      | none => exact hsame
      | some header =>
        have htype : header.jshBlockType = readui32be w.2 4 := by
          unfold parseJournalStandardHeader at hh
          split at hh
          · cases hh
          · dsimp only at hh
            split at hh
            · cases hh
            · split at hh
              · cases hh
              · cases hh
                rfl
        have hcommit : header.jshBlockType ≠ journalCommitBlock := by
          rw [htype]
          exact fun h => hw ⟨Bool.eq_false_of_not_eq_true hdata, h⟩
        dsimp only
        split
        · have hbegin : st.beginTransaction q header.jshSequence = (st, -1) := by
            rw [beginTransaction, ht]
          rw [hbegin]
          exact hsame
        · split
          · exact hstored q _ hq
          · exact hsame

theorem run_quiet (ht : st.sjTransaction = some t) {writes : List (UInt32 × Buf)}
    (hwrites : ∀ w ∈ writes, ¬ isCommitBlock w.2) :
    (st.run jn fs writes).sjTransaction = some t ∧ (st.run jn fs writes).ptd = st.ptd ∧
      (st.run jn fs writes).introspected = st.introspected ∧
      ∀ q, (∀ w ∈ writes, jn.sjbBlockid q ≠ w.1) →
        (st.run jn fs writes).sjbData q = st.sjbData q := by
  induction writes generalizing st with
  | nil => exact ⟨ht, rfl, rfl, fun _ _ => rfl⟩
  | cons w writes ih =>
    obtain ⟨ht', hptd, hlog, hdata⟩ := write_quiet ht (hwrites w List.mem_cons_self)
    obtain ⟨ht'', hptd', hlog', hdata'⟩ := ih ht' fun w' hw' => hwrites w' (List.mem_cons_of_mem _ hw')
    refine ⟨ht'', hptd'.trans hptd, hlog'.trans hlog, fun q hq => ?_⟩
    have hrest := hdata' q fun w' hw' => hq w' (List.mem_cons_of_mem _ hw')
    exact hrest.trans (hdata q (hq w List.mem_cons_self))

theorem introspectAll_other {items : List JournalItem} {q : ℕ}
    (hq : ∀ item ∈ items, item.journalBlock ≠ q) :
    (st.introspectAll fs items).sjbData q = st.sjbData q := by
  induction items generalizing st with
  | nil => rfl
  | cons item items ih =>
    obtain ⟨-, -, -, -, hother, -⟩ := introspectItem_spec st fs item
    have hrest := @ih (st.introspectItem fs item) fun item' h => hq item' (List.mem_cons_of_mem _ h)
    exact hrest.trans (hother q (hq item List.mem_cons_self).symm)

theorem introspectAll_sjbData {items : List JournalItem}
    (hd : (items.map JournalItem.journalBlock).Nodup) {item : JournalItem} (hitem : item ∈ items) :
    (st.introspectAll fs items).sjbData item.journalBlock =
      if item.journalFlags &&& journalDescEscape ≠ 0 then
        writeui32le (st.sjbData item.journalBlock) 0
      else st.sjbData item.journalBlock := by
  induction items generalizing st with
  | nil => cases hitem
  | cons item' items ih =>
    rw [List.map_cons, List.nodup_cons] at hd
    obtain ⟨-, -, -, -, hother, -⟩ := introspectItem_spec st fs item'
    change ((st.introspectItem fs item').introspectAll fs items).sjbData _ = _
    obtain rfl | hmem := List.mem_cons.mp hitem
    · have hlast : ∀ item' ∈ items, item'.journalBlock ≠ item.journalBlock :=
        fun item' h hblock => hd.1 (List.mem_map.mpr ⟨item', h, hblock⟩)
      rw [introspectAll_other hlast, introspectItem]
      by_cases he : item.journalFlags &&& journalDescEscape ≠ 0
      · simp only [ne_eq, he, not_false_eq_true, decide_true, if_true, setData, update_self,
          writeui32le_writeui32le]
      · simp only [he, decide_false, if_false, Bool.false_eq_true]
    · have hne : item.journalBlock ≠ item'.journalBlock :=
        fun h => hd.1 (h ▸ List.mem_map_of_mem hmem)
      rw [ih hd.2 hmem, hother _ hne]

theorem write_sjtDesc_lt (hs : jn.jsBlockSize ≤ 4096) (hp : st.Pooled)
    (h : ∀ t, st.sjTransaction = some t → t.sjtDesc < jn.jsBlocks) (w : UInt32 × Buf) :
    ∀ t, (st.journalRwIntrospection jn fs true w.1 w.2).1.sjTransaction = some t →
      t.sjtDesc < jn.jsBlocks := by
  unfold journalRwIntrospection
  cases hl : jn.lookup w.1 with
  | none => exact h
  | some q =>
    have hq := (Journal.lookup_sound hl).2
    simp only [not_true_eq_false, if_false]
    split
    · exact h
    cases parseJournalStandardHeader w.2 jn.extdesc.edBlockSize.toNat with
    | none => exact h
    | some header =>
      dsimp only
      split
      · cases ht : st.sjTransaction with
        | some t =>
          have hbegin : st.beginTransaction q header.jshSequence = (st, -1) := by
            rw [beginTransaction, ht]
          rw [hbegin]
          exact h
        | none =>
          have hbegin : st.beginTransaction q header.jshSequence = ({ st with
              sjTransaction := some ⟨header.jshSequence, q⟩
              freeTrans := st.freeTrans - 1 }, 0) := by
            rw [beginTransaction, ht]
            exact if_neg (hp.freeTrans_ne_zero ht)
          rw [hbegin]
          rintro t ht'
          cases ht'
          exact hq
      split
      · cases ht : st.sjTransaction with
        | none => exact fun t ht' => h t ht'
        | some t =>
          dsimp only
          split
          · exact h
          · obtain ⟨st', hrun, -, hnone, -⟩ := @commit_spec σ jn fs st hp hs t ht
            rw [hrun]
            intro t' ht'
            rw [hnone] at ht'
            cases ht'
      split
      · exact h
      · exact h

theorem run_sjtDesc_lt (hs : jn.jsBlockSize ≤ 4096) (hp : st.Pooled)
    (h : ∀ t, st.sjTransaction = some t → t.sjtDesc < jn.jsBlocks) (history : List (UInt32 × Buf)) :
    ∀ t, (st.run jn fs history).sjTransaction = some t → t.sjtDesc < jn.jsBlocks := by
  induction history generalizing st with
  | nil => exact h
  | cons w history ih => exact ih (write_spec hs hp w).1 (write_sjtDesc_lt hs hp h w)

/-- The calls made after the writes `w` for the block at `p.2` are those of the tag `p`, with the
content `b`, and the journal's copy is what was logged. -/
def RoundTrips (st : JournalState σ) (jn : Journal) (fs : FileSystem σ) (w : List (UInt32 × Buf))
    (p : JournalDescriptorEntry × ℕ) (b : Buf) : Prop :=
  ∃ calls, (st.run jn fs w).introspected = st.introspected ++ calls ∧
    ((∃ call ∈ calls, call.2.1 = p.2) ↔ accepted jn (fs.blist st.ptd) p = true) ∧
    (∀ call ∈ calls, call.2.1 = p.2 →
      call.1.bdId = p.1.jdeFsBlock ∧ ∀ i < jn.jsBlockSize, call.2.2 i = b i) ∧
    ∀ i < jn.jsBlockSize, (st.run jn fs w).sjbData p.2 i = logged b i

structure Escaped (st : JournalState σ) (jn : Journal) (t : SjournalTransaction)
    (p : JournalDescriptorEntry × ℕ) (b : Buf) (others : List (UInt32 × Buf)) (commit : ℕ × Buf) :
    Prop where
  transaction : st.sjTransaction = some t
  fits : (jn.tagsOf (st.sjbData t.sjtDesc)).length + 1 < jn.jsBlocks
  tag : p ∈ jn.placeAfter t.sjtDesc (jn.tagsOf (st.sjbData t.sjtDesc))
  flag : p.1.jdeEntryFlags &&& journalDescEscape ≠ 0 ↔ readui32be b 0 = journalSignature
  others : ∀ w ∈ others, ¬isCommitBlock w.2 ∧ jn.sjbBlockid p.2 ≠ w.1 ∧
    jn.sjbBlockid t.sjtDesc ≠ w.1
  heard : commit.1 < jn.jsBlocks ∧ jn.heard commit.1 = true
  header : jn.isHeader journalCommitBlock t.sjtSeq commit.2

def escapedWrites (jn : Journal) (p : JournalDescriptorEntry × ℕ) (b : Buf)
    (others : List (UInt32 × Buf)) (commit : ℕ × Buf) : List (UInt32 × Buf) :=
  (jn.sjbBlockid p.2, logged b) :: others ++ [(jn.sjbBlockid commit.1, commit.2)]

section Commit

variable {p : JournalDescriptorEntry × ℕ} {l : List (JournalDescriptorEntry × ℕ)}
  {blist : UInt32 → Sblock}

theorem classified_bdId {entry : JournalDescriptorEntry} {c : ℕ} {blockdesc : BlockDesc}
    (h : classified jn blist entry = some (c, blockdesc)) : blockdesc.bdId = entry.jdeFsBlock := by
  unfold classified at h
  cases hb : initBlockdesc2 entry.jdeFsBlock jn.extdesc with
  | none =>
    rw [hb] at h
    cases h
  | some bd =>
    rw [hb] at h
    dsimp only at h
    split at h
    · cases h
      simp only [initBlockdesc2, Option.ite_none_left_eq_some, Option.some.injEq] at hb
      obtain ⟨-, -, rfl⟩ := hb
      rfl
    · cases h

theorem mem_itemsOf_block (hd : (l.map Prod.snd).Nodup) (hp : p ∈ l) {item : JournalItem}
    (hitem : item ∈ itemsOf jn blist l) (hblock : item.journalBlock = p.2) :
    item.journalFlags = p.1.jdeEntryFlags ∧ item.blockdesc.bdId = p.1.jdeFsBlock ∧
      accepted jn blist p = true := by
  obtain ⟨p', hp', c, hclass⟩ := mem_itemsOf.mp hitem
  obtain ⟨blockdesc, hclassified, rfl⟩ := classItem_eq_some hclass
  obtain rfl := List.inj_on_of_nodup_map hd hp' hp hblock
  exact ⟨rfl, classified_bdId hclassified, by simp [accepted, hclassified]⟩

theorem exists_item (hp : p ∈ l) (hacc : accepted jn blist p = true) :
    ∃ item ∈ itemsOf jn blist l, item.journalBlock = p.2 := by
  obtain ⟨⟨c, blockdesc⟩, hclass⟩ := Option.isSome_iff_exists.mp hacc
  have hitem : classItem jn blist c p = some ⟨p.1.jdeEntryFlags, blockdesc, p.2⟩ := by
    simp [classItem, hclass]
  exact ⟨_, mem_itemsOf.mpr ⟨p, hp, c, hitem⟩, rfl⟩

theorem commit_sjbData (hpool : st.Pooled) (hs : jn.jsBlockSize ≤ 4096)
    (hl : jn.placeAfter t.sjtDesc (jn.tagsOf (st.sjbData t.sjtDesc)) = l)
    (hd : (l.map Prod.snd).Nodup) (hp : p ∈ l) :
    (st.commit jn fs t).1.sjbData p.2 =
      if accepted jn (fs.blist st.ptd) p = true ∧ p.1.jdeEntryFlags &&& journalDescEscape ≠ 0 then
        writeui32le (st.sjbData p.2) 0
      else st.sjbData p.2 := by
  rw [commit_eq hpool hs t hl]
  change ((st.enqueue jn (fs.blist st.ptd) l).introspectAll fs
    (itemsOf jn (fs.blist st.ptd) l)).sjbData p.2 = _
  by_cases hacc : accepted jn (fs.blist st.ptd) p = true
  · obtain ⟨item, hitem, hblock⟩ := exists_item hp hacc
    obtain ⟨hflags, -, -⟩ := mem_itemsOf_block hd hp hitem hblock
    have hdata := @introspectAll_sjbData σ fs (st.enqueue jn (fs.blist st.ptd) l) _
      (itemsOf_blocks hd) item hitem
    rw [hblock, hflags] at hdata
    rw [hdata]
    simp only [hacc, true_and]
    rfl
  · rw [introspectAll_other, if_neg fun h => hacc h.1]
    · rfl
    · intro item hitem hblock
      exact hacc (mem_itemsOf_block hd hp hitem hblock).2.2

end Commit

variable {p : JournalDescriptorEntry × ℕ} {others : List (UInt32 × Buf)} {commit : ℕ × Buf}

def heldAtCommit (st : JournalState σ) (jn : Journal) (p : JournalDescriptorEntry × ℕ) (b : Buf) :
    Buf :=
  if jn.heard p.2 then memcpy (st.sjbData p.2) (logged b) jn.jsBlockSize else st.sjbData p.2

theorem nth_ne {i : ℕ} (hi : i + 2 < jn.jsBlocks) : jn.nth q i ≠ q := by
  unfold Journal.nth
  split <;> omega

theorem Escaped.place (he : st.Escaped jn t p b others commit) (hdesc : t.sjtDesc < jn.jsBlocks) :
    p.2 < jn.jsBlocks ∧ t.sjtDesc ≠ p.2 := by
  have hfits := he.fits
  have hplaces := jn.placeAfter_positions (jn.tagsOf (st.sjbData t.sjtDesc)) hdesc (by omega)
  have hmem : p.2 ∈ (jn.placeAfter t.sjtDesc (jn.tagsOf (st.sjbData t.sjtDesc))).map Prod.snd :=
    List.mem_map_of_mem he.tag
  rw [hplaces] at hmem
  obtain ⟨i, hi, hnth⟩ := List.mem_map.mp hmem
  rw [List.mem_range] at hi
  refine ⟨jn.placeAfter_lt hdesc (by omega) he.tag, ?_⟩
  rw [← hnth]
  exact (nth_ne (by omega)).symm

theorem write_logged (hv : jn.Valid) (hp : p.2 < jn.jsBlocks) :
    (st.journalRwIntrospection jn fs true (jn.sjbBlockid p.2) (logged b)).1 =
      st.setData p.2 (st.heldAtCommit jn p b) := by
  unfold heldAtCommit
  cases hh : jn.heard p.2 with
  | false =>
    rw [write_missed hv hp hh]
    simp [setData]
  | true =>
    have hl := jn.lookup_eq hv hp
    rw [hh, if_pos rfl] at hl
    rw [journalRwIntrospection, hl]
    simp [isJournalFsBlock_logged]

theorem Escaped.before_commit (hv : jn.Valid) (he : st.Escaped jn t p b others commit)
    (hdesc : t.sjtDesc < jn.jsBlocks) :
    ∃ st', st' = st.run jn fs ((jn.sjbBlockid p.2, logged b) :: others) ∧
      st'.sjTransaction = some t ∧ st'.ptd = st.ptd ∧ st'.introspected = st.introspected ∧
      st'.sjbData t.sjtDesc = st.sjbData t.sjtDesc ∧
      st'.sjbData p.2 = st.heldAtCommit jn p b := by
  obtain ⟨hplace, hne⟩ := he.place hdesc
  have hwrite := @write_logged _ jn fs st b p hv hplace
  obtain ⟨ht, hptd, hlog, hdata⟩ := @run_quiet _ jn fs (st.setData p.2 (st.heldAtCommit jn p b)) t
    he.transaction others fun w hw => (he.others w hw).1
  have hrun : st.run jn fs ((jn.sjbBlockid p.2, logged b) :: others) =
      (st.setData p.2 (st.heldAtCommit jn p b)).run jn fs others := by
    rw [← hwrite]
    rfl
  refine ⟨_, rfl, ?_⟩
  rw [hrun]
  refine ⟨ht, hptd, hlog, ?_, ?_⟩
  · rw [hdata _ fun w hw => (he.others w hw).2.2]
    exact update_of_ne hne _ _
  · rw [hdata _ fun w hw => (he.others w hw).2.1]
    exact update_self _ _ _

theorem heldAtCommit_logged : (∀ i < jn.jsBlockSize, st.heldAtCommit jn p b i = logged b i) ↔
    jn.heard p.2 = true ∨ ∀ i < jn.jsBlockSize, st.sjbData p.2 i = logged b i := by
  unfold heldAtCommit
  cases jn.heard p.2 with
  | false => simp
  | true => simpa using memcpy_agrees (st.sjbData p.2) (logged b)

theorem Escaped.roundTrips_iff (hv : jn.Valid) (hpool : st.Pooled)
    (he : st.Escaped jn t p b others commit) (hdesc : t.sjtDesc < jn.jsBlocks) :
    st.RoundTrips jn fs (escapedWrites jn p b others commit) p b ↔
      (jn.heard p.2 = true ∨ ∀ i < jn.jsBlockSize, st.sjbData p.2 i = logged b i) ∧
        (accepted jn (fs.blist st.ptd) p = true → readui32be b 0 ≠ journalSignature) := by
  obtain ⟨st', hst', ht, hptd, hlog, hheld, hdata⟩ := @before_commit _ jn fs st t b p others commit
    hv he hdesc
  have hpool' : st'.Pooled := by
    rw [hst']
    exact (run_spec hv.fits hpool _).1
  have hrun : st.run jn fs (escapedWrites jn p b others commit) = (st'.commit jn fs t).1 := by
    rw [escapedWrites, run_append, ← hst']
    exact write_commit st' hv he.heard.1 he.header he.heard.2 ht
  have hfits := he.fits
  generalize hl : jn.placeAfter t.sjtDesc (jn.tagsOf (st'.sjbData t.sjtDesc)) = l
  have hd : (l.map Prod.snd).Nodup := by
    rw [← hl, hheld]
    exact Journal.placeAfter_nodup _ hdesc (by omega)
  have hp : p ∈ l := by
    rw [← hl, hheld]
    exact he.tag
  obtain ⟨st'', hcommit, -, -, hcalls⟩ := @commit_spec _ jn fs st' hpool' hv.fits t ht
  rw [hl] at hcalls
  have hcalls := hcalls hd
  have hafter := @commit_sjbData _ jn fs st' t p l hpool' hv.fits hl hd hp
  rw [hcommit] at hrun hafter
  dsimp only at hrun hafter
  rw [hptd] at hcalls hafter
  rw [hdata] at hafter
  rw [RoundTrips, hrun, hcalls, hlog, hafter]
  have hheader := hv.header
  have hnot : (accepted jn (fs.blist st.ptd) p = true → readui32be b 0 ≠ journalSignature) →
      ¬(accepted jn (fs.blist st.ptd) p = true ∧ p.1.jdeEntryFlags &&& journalDescEscape ≠ 0) :=
    fun h ⟨hacc, hflag⟩ => h hacc (he.flag.mp hflag)
  constructor
  · rintro ⟨calls, hcallsEq, -, hcontent, hstored⟩
    rw [List.append_cancel_left_eq] at hcallsEq
    subst hcallsEq
    have hplain : accepted jn (fs.blist st.ptd) p = true → readui32be b 0 ≠ journalSignature := by
      intro hacc hsignature
      obtain ⟨item, hitem, hblock⟩ := exists_item hp hacc
      obtain ⟨hflags, -, -⟩ := mem_itemsOf_block hd hp hitem hblock
      have hcall := hcontent _ (List.mem_map_of_mem hitem) hblock
      rw [hflags] at hcall
      exact restored_escaped hheader hsignature (he.flag.mpr hsignature) hcall.2
    rw [if_neg (hnot hplain)] at hstored
    exact ⟨heldAtCommit_logged.mp hstored, hplain⟩
  · rintro ⟨hfound, hplain⟩
    have hlogged := heldAtCommit_logged.mpr hfound
    refine ⟨_, rfl, ⟨?_, ?_⟩, ?_, ?_⟩
    · rintro ⟨call, hcall, hblock⟩
      obtain ⟨item, hitem, rfl⟩ := List.mem_map.mp hcall
      exact (mem_itemsOf_block hd hp hitem hblock).2.2
    · intro hacc
      obtain ⟨item, hitem, hblock⟩ := exists_item hp hacc
      exact ⟨_, List.mem_map_of_mem hitem, hblock⟩
    · intro call hcall hblock
      obtain ⟨item, hitem, rfl⟩ := List.mem_map.mp hcall
      dsimp only at hblock
      obtain ⟨hflags, hid, hacc⟩ := mem_itemsOf_block hd hp hitem hblock
      refine ⟨hid, fun i hi => ?_⟩
      have hsignature := hplain hacc
      dsimp only
      rw [hflags, hblock, hdata, restored, if_neg fun h => hsignature (he.flag.mp h),
        hlogged i hi, logged, if_neg hsignature]
    · rw [if_neg (hnot hplain)]
      exact hlogged

/-- After any history, a tagged block is handed on as it was and kept as it was logged, exactly if
the search finds it, and it is not escaped where it is introspected. -/
theorem escapedBlock_roundTrips_iff (jn : Journal) (fs : FileSystem σ) (ptd : σ)
    (sjbData : ℕ → Buf) (history : List (UInt32 × Buf)) (t : SjournalTransaction)
    (p : JournalDescriptorEntry × ℕ) (b : Buf) (others : List (UInt32 × Buf)) (commit : ℕ × Buf)
    (hv : jn.Valid)
    (he : ((initJournal ptd sjbData).run jn fs history).Escaped jn t p b others commit) :
    ((initJournal ptd sjbData).run jn fs history).RoundTrips jn fs
        (escapedWrites jn p b others commit) p b ↔
      (jn.heard p.2 = true ∨ ∀ i < jn.jsBlockSize,
        ((initJournal ptd sjbData).run jn fs history).sjbData p.2 i = logged b i) ∧
        (accepted jn (fs.blist ((initJournal ptd sjbData).run jn fs history).ptd) p = true →
          readui32be b 0 ≠ journalSignature) := by
  have hpool := initJournal_pooled ptd sjbData
  apply he.roundTrips_iff hv (run_spec hv.fits hpool history).1
  have hnone : ∀ t, (initJournal ptd sjbData).sjTransaction = some t → t.sjtDesc < jn.jsBlocks :=
    fun t ht => by cases ht
  exact run_sjtDesc_lt hv.fits hpool hnone history t he.transaction

end JournalState

def escapedTag : Buf :=
  bytes [0xc0, 0x3b, 0x39, 0x98, 0, 0, 0, 1, 0, 0, 0, 7, 0, 0, 1, 0xf4, 0, 0, 0, 0x0b]

def signatureBlock : Buf := bytes [0xc0, 0x3b, 0x39, 0x98, 5]

theorem tagsOf_escapedTag : smallJournal.tagsOf escapedTag = [⟨500, 0x0b⟩] := by
  have h : parseJournalDescriptorEntry escapedTag 12 1012 = some (⟨500, 0x0b⟩, 1004) := by decide
  have hlast : (0x0b : UInt32) &&& journalDescLastEntry ≠ 0 := by decide
  exact (tagsFrom_some h).trans (by rw [if_pos hlast])

theorem smallJournal_heard {q : ℕ} (hq : q < smallJournal.jsBlocks) :
    smallJournal.heard q = true :=
  Journal.heard_of_ascending smallJournal_ascending hq

theorem run_descriptor {desc : Buf} (hdesc : smallJournal.isHeader journalDescriptorBlock 7 desc) :
    (initJournal () fun _ => bytes []).run smallJournal emptyFiles [(101, desc)] =
      { initJournal () fun _ => bytes [] with
        sjTransaction := some ⟨7, 1⟩
        freeTrans := 15
        sjbData := smallJournal.written (fun _ => bytes []) [(desc, 1)] } := by
  have hlt : 1 < smallJournal.jsBlocks := by decide
  have hfree : (initJournal () fun _ => bytes []).freeTrans ≠ 0 := by decide
  exact JournalState.write_descriptor_begin _ smallJournal_valid hlt hdesc (smallJournal_heard hlt)
    rfl hfree

theorem escaped_descriptor {desc b : Buf} {flags : UInt32}
    (hdesc : smallJournal.isHeader journalDescriptorBlock 7 desc)
    (htag : smallJournal.tagsOf desc = [⟨500, flags⟩])
    (hflag : flags &&& journalDescEscape ≠ 0 ↔ readui32be b 0 = journalSignature) :
    ((initJournal () fun _ => bytes []).run smallJournal emptyFiles [(101, desc)]).Escaped
      smallJournal ⟨7, 1⟩ (⟨500, flags⟩, 2) b [] (3, commitOf 7) := by
  have htags : smallJournal.tagsOf (smallJournal.written (fun _ => bytes []) [(desc, 1)] 1) =
      [⟨500, flags⟩] := (Journal.tagsOf_memcpy smallJournal_valid _ desc).trans htag
  rw [run_descriptor hdesc]
  constructor
  · rfl
  · rw [htags]
    change 2 < 8
    omega
  · rw [htags]
    exact List.mem_singleton.mpr rfl
  · exact hflag
  · intro w hw
    cases hw
  · have hlt : 3 < smallJournal.jsBlocks := by decide
    exact ⟨hlt, smallJournal_heard hlt⟩
  · change parseJournalStandardHeader _ _ = _
    decide

theorem isHeader_oneTag : smallJournal.isHeader journalDescriptorBlock 7 (oneTag 0xf4) := by
  unfold Journal.isHeader
  decide

theorem isHeader_escapedTag : smallJournal.isHeader journalDescriptorBlock 7 escapedTag := by
  unfold Journal.isHeader
  decide

namespace JournalState

theorem escapedBlock_roundTrips_plain : smallJournal.Valid ∧
    ((initJournal () fun _ => bytes []).run smallJournal emptyFiles [(101, oneTag 0xf4)]).Escaped
      smallJournal ⟨7, 1⟩ (⟨500, 0x0a⟩, 2) (bytes [1]) [] (3, commitOf 7) ∧
    ((initJournal () fun _ => bytes []).run smallJournal emptyFiles
      [(101, oneTag 0xf4)]).RoundTrips smallJournal emptyFiles
        (escapedWrites smallJournal (⟨500, 0x0a⟩, 2) (bytes [1]) [] (3, commitOf 7))
        (⟨500, 0x0a⟩, 2) (bytes [1]) := by
  have he := escaped_descriptor isHeader_oneTag tagsOf_oneTag.1
    (show (0x0a : UInt32) &&& journalDescEscape ≠ 0 ↔ readui32be (bytes [1]) 0 = journalSignature
      by decide)
  refine ⟨smallJournal_valid, he, ?_⟩
  apply (escapedBlock_roundTrips_iff smallJournal emptyFiles () (fun _ => bytes [])
    [(101, oneTag 0xf4)] ⟨7, 1⟩ (⟨500, 0x0a⟩, 2) (bytes [1]) [] (3, commitOf 7) smallJournal_valid
    he).mpr
  exact ⟨Or.inl (smallJournal_heard (by decide)), fun _ => by decide⟩

/-- A block that begins with the signature comes back with another word. -/
theorem signatureBlock_changed :
    ¬∀ (jn : Journal) (fs : FileSystem Unit) (sjbData : ℕ → Buf) (history : List (UInt32 × Buf))
      (t : SjournalTransaction) (p : JournalDescriptorEntry × ℕ) (b : Buf)
      (others : List (UInt32 × Buf)) (commit : ℕ × Buf), jn.Valid →
      (∀ q < jn.jsBlocks, jn.heard q = true) →
      ((initJournal () sjbData).run jn fs history).Escaped jn t p b others commit →
      ((initJournal () sjbData).run jn fs history).RoundTrips jn fs
        (escapedWrites jn p b others commit) p b := by
  intro hall
  have he := escaped_descriptor isHeader_escapedTag tagsOf_escapedTag
    (show (0x0b : UInt32) &&& journalDescEscape ≠ 0 ↔
      readui32be signatureBlock 0 = journalSignature by decide)
  have hpool := initJournal_pooled () fun _ => bytes []
  have hrun := @run_spec _ smallJournal emptyFiles _ (by decide) hpool [(101, escapedTag)]
  have hback := hall smallJournal emptyFiles _ _ _ _ _ _ _ smallJournal_valid
    (fun q => smallJournal_heard) he
  have hplain := ((he.roundTrips_iff smallJournal_valid hrun.1 (by decide)).mp hback).2
  have hacc : accepted smallJournal (emptyFiles.blist ()) (⟨500, 0x0b⟩, 2) = true := by decide
  exact hplain hacc (by decide)

end JournalState

end SBlktrace
