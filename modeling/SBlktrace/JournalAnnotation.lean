import SBlktrace.BaseIntro
import SBlktrace.JournalModel
import SBlktrace.JournalReplay
import SBlktrace.JournalCompleteness
import SBlktrace.DescriptorWalk
import SBlktrace.ProcessDefault
import Mathlib

namespace SBlktrace

def be32 (v : UInt32) : List UInt8 :=
  [(v >>> 24).toUInt8, (v >>> 16).toUInt8, (v >>> 8).toUInt8, v.toUInt8]

def headerBlock (blockType sequence : UInt32) : Buf :=
  bytes (be32 journalSignature ++ be32 blockType ++ be32 sequence)

theorem be32_joined (v : UInt32) :
    (v >>> 24).toUInt8.toUInt32 <<< 24 ||| (v >>> 16).toUInt8.toUInt32 <<< 16 |||
      (v >>> 8).toUInt8.toUInt32 <<< 8 ||| v.toUInt8.toUInt32 = v := by
  apply UInt32.toNat_inj.mp
  apply Nat.eq_of_testBit_eq
  intro i
  have h32 : 32 ≤ i → v.toNat.testBit i = false := by
    intro hi
    exact Nat.testBit_lt_two_pow (v.toNat_lt.trans_le (Nat.pow_le_pow_right (by decide) hi))
  simp only [UInt32.toNat_or, UInt32.toNat_shiftLeft, UInt32.toNat_shiftRight, UInt8.toNat_toUInt32,
    UInt32.toNat_toUInt8, Nat.testBit_or, Nat.testBit_mod_two_pow, Nat.testBit_shiftLeft,
    Nat.testBit_shiftRight, UInt32.reduceToNat, Nat.reduceMod]
  grind

theorem headerBlock_parses (blockType sequence : UInt32) (hlow : blockType ≠ 0)
    (hhigh : ¬blockType > journalRevokeBlock) :
    parseJournalStandardHeader (headerBlock blockType sequence) 512 =
      some ⟨journalSignature, blockType, sequence⟩ := by
  have h0 : readui32be (headerBlock blockType sequence) 0 = journalSignature :=
    be32_joined journalSignature
  have h4 : readui32be (headerBlock blockType sequence) 4 = blockType := be32_joined blockType
  have h8 : readui32be (headerBlock blockType sequence) 8 = sequence := be32_joined sequence
  unfold parseJournalStandardHeader
  rw [if_neg (by decide), h0, h4, h8]
  dsimp only
  rw [if_neg (not_not.mpr rfl), if_neg (not_or.mpr ⟨hlow, hhigh⟩)]

section Annotations

variable {buf : Buf} {bytes : ℕ} {header : JournalStandardHeader}

theorem parseHeader_type (h : parseJournalStandardHeader buf bytes = some header) :
    header.jshBlockType ≠ 0 ∧ ¬header.jshBlockType > journalRevokeBlock := by
  unfold parseJournalStandardHeader at h
  split at h
  · exact absurd h (by simp)
  · dsimp only at h
    split at h
    · exact absurd h (by simp)
    · split at h
      · exact absurd h (by simp)
      · next hne =>
        obtain rfl := Option.some.inj h
        exact not_or.mp hne

theorem blkAddTraceMy_other (h : parseJournalStandardHeader buf bytes = some header)
    (htype : header.jshBlockType ≠ journalDescriptorBlock) :
    blkAddTraceMy (some buf) bytes =
      ⟨0, header.jshBlockType * 1000000 + header.jshSequence⟩ := by
  obtain ⟨hlow, hhigh⟩ := parseHeader_type h
  have hgt : header.jshBlockType > journalDescriptorBlock := by
    simp only [journalDescriptorBlock, gt_iff_lt, UInt32.lt_iff_toNat_lt, ne_eq, ←
      UInt32.toNat_inj] at *
    simp at *
    omega
  unfold blkAddTraceMy
  dsimp only
  rw [h]
  dsimp only
  rw [if_neg htype, if_pos ⟨hgt, UInt32.not_lt.mp hhigh⟩]

def HeaderDetermined (buf : Buf) (bytes : ℕ) (header : JournalStandardHeader) : Prop :=
  ∀ (buf' : Buf) (bytes' : ℕ) (header' : JournalStandardHeader),
    parseJournalStandardHeader buf' bytes' = some header' →
    blkAddTraceMy (some buf') bytes' = blkAddTraceMy (some buf) bytes →
    header'.jshBlockType = header.jshBlockType ∧ header'.jshSequence = header.jshSequence

def CountDetermined (buf : Buf) (bytes : ℕ) (header : JournalStandardHeader) : Prop :=
  header.jshBlockType = journalDescriptorBlock →
    ∀ (buf' : Buf) (bytes' : ℕ) (header' : JournalStandardHeader),
      parseJournalStandardHeader buf' bytes' = some header' →
      header'.jshBlockType = journalDescriptorBlock →
      blkAddTraceMy (some buf') bytes' = blkAddTraceMy (some buf) bytes →
      (tagsFrom buf' 12 bytes').length = (tagsFrom buf 12 bytes).length

def TypePrinted (buf : Buf) (bytes : ℕ) (header : JournalStandardHeader) : Prop :=
  ∃ (ctx : FmtContext) (t : BlkIoTraceRecord) (elapsed : UInt64) (act : Char),
    t.vecCount = (blkAddTraceMy (some buf) bytes).vecCount ∧
    t.seq = (blkAddTraceMy (some buf) bytes).seq ∧
    ∃ p ∈ processDefault ctx t elapsed act, p.PrintsType header.jshBlockType

structure AnnotationDecodable (buf : Buf) (bytes : ℕ) (header : JournalStandardHeader) : Prop where
  headerDetermined : HeaderDetermined buf bytes header
  countDetermined : CountDetermined buf bytes header
  typePrinted : TypePrinted buf bytes header

theorem not_typePrinted : ¬TypePrinted buf bytes header := by
  rintro ⟨ctx, t, elapsed, act, -, -, p, hp, f, hf, hformat, -⟩
  apply processDefault_untyped act p hp
  rw [hformat]
  exact List.mem_map_of_mem hf

theorem blkAddTraceMy_headerBlock (blockType seq : UInt32)
    (h2 : blockType = 2 ∨ blockType = 3) :
    parseJournalStandardHeader (headerBlock blockType (seq - blockType * 1000000)) 512 =
        some ⟨journalSignature, blockType, seq - blockType * 1000000⟩ ∧
      blkAddTraceMy (some (headerBlock blockType (seq - blockType * 1000000))) 512 = ⟨0, seq⟩ := by
  have hparse : parseJournalStandardHeader
      (headerBlock blockType (seq - blockType * 1000000)) 512 =
        some ⟨journalSignature, blockType, seq - blockType * 1000000⟩ := by
    apply headerBlock_parses
    · rcases h2 with rfl | rfl <;> decide
    · rcases h2 with rfl | rfl <;> decide
  have hne : blockType ≠ journalDescriptorBlock := by rcases h2 with rfl | rfl <;> decide
  refine ⟨hparse, ?_⟩
  rw [blkAddTraceMy_other hparse hne]
  dsimp only
  rw [UInt32.add_comm, UInt32.sub_add_cancel]

theorem not_headerDetermined (hzero : (blkAddTraceMy (some buf) bytes).vecCount = 0) :
    ¬HeaderDetermined buf bytes header := by
  intro hdet
  have hboth : ∀ blockType : UInt32, blockType = 2 ∨ blockType = 3 →
      blockType = header.jshBlockType := by
    intro blockType h2
    obtain ⟨hparse, hann⟩ :=
      blkAddTraceMy_headerBlock blockType (blkAddTraceMy (some buf) bytes).seq h2
    apply (hdet _ _ _ hparse _).1
    rw [hann, ← hzero]
  have h2 := hboth 2 (Or.inl rfl)
  have h3 := hboth 3 (Or.inr rfl)
  exact absurd (h2.trans h3.symm) (by decide)

theorem headerDetermined_iff (h : parseJournalStandardHeader buf bytes = some header) :
    HeaderDetermined buf bytes header ↔ header.jshBlockType = journalDescriptorBlock ∧
      (tagsFrom buf 12 bytes).length % 65536 ≠ 0 := by
  constructor
  · intro hdet
    by_cases htype : header.jshBlockType = journalDescriptorBlock
    · refine ⟨htype, fun hmod => ?_⟩
      apply not_headerDetermined _ hdet
      rw [blkAddTraceMy_descriptor h htype]
      apply UInt16.toNat_inj.mp
      rwa [UInt16.toNat_ofNat']
    · exfalso
      apply not_headerDetermined _ hdet
      rw [blkAddTraceMy_other h htype]
  · rintro ⟨htype, hmod⟩ buf' bytes' header' h' hann
    rw [blkAddTraceMy_descriptor h htype] at hann
    by_cases htype' : header'.jshBlockType = journalDescriptorBlock
    · rw [blkAddTraceMy_descriptor h' htype'] at hann
      exact ⟨htype'.trans htype.symm, congrArg Annotation.seq hann⟩
    · rw [blkAddTraceMy_other h' htype'] at hann
      have hcount := congrArg (fun a => a.vecCount.toNat) hann
      dsimp only at hcount
      rw [UInt16.toNat_ofNat'] at hcount
      exact absurd hcount.symm hmod

end Annotations

theorem annotation_decodable_never (buf : Buf) (bytes : ℕ) (header : JournalStandardHeader)
    (h : parseJournalStandardHeader buf bytes = some header) :
    ¬AnnotationDecodable buf bytes header ∧
      (HeaderDetermined buf bytes header ↔ header.jshBlockType = journalDescriptorBlock ∧
        (tagsFrom buf 12 bytes).length % 65536 ≠ 0) :=
  ⟨fun hdec => not_typePrinted hdec.typePrinted, headerDetermined_iff h⟩

theorem annotation_decodable_never_commit :
    parseJournalStandardHeader (commitOf 7) 1024 = some ⟨journalSignature, 2, 7⟩ ∧
      ¬AnnotationDecodable (commitOf 7) 1024 ⟨journalSignature, 2, 7⟩ ∧
      (HeaderDetermined (commitOf 7) 1024 ⟨journalSignature, 2, 7⟩ ↔
        (2 : UInt32) = journalDescriptorBlock ∧
          (tagsFrom (commitOf 7) 12 1024).length % 65536 ≠ 0) :=
  ⟨by decide, annotation_decodable_never (commitOf 7) 1024 ⟨journalSignature, 2, 7⟩ (by decide)⟩

/-- A commit block of transaction 1000007 and a superblock of sequence 7 are recorded alike. -/
theorem commit_recorded_as_superblock :
    ¬∀ (buf : Buf) (bytes : ℕ) (header : JournalStandardHeader),
      parseJournalStandardHeader buf bytes = some header →
      AnnotationDecodable buf bytes header := by
  intro hall
  have hcommit : parseJournalStandardHeader (headerBlock 2 1000007) 512 =
      some ⟨journalSignature, 2, 1000007⟩ := headerBlock_parses 2 1000007 (by decide) (by decide)
  have hsuper : parseJournalStandardHeader (headerBlock 3 7) 512 =
      some ⟨journalSignature, 3, 7⟩ := headerBlock_parses 3 7 (by decide) (by decide)
  have hsame : blkAddTraceMy (some (headerBlock 3 7)) 512 =
      blkAddTraceMy (some (headerBlock 2 1000007)) 512 := by
    rw [blkAddTraceMy_other hcommit (by decide), blkAddTraceMy_other hsuper (by decide)]
    decide
  have htype := ((hall _ _ _ hcommit).headerDetermined _ _ _ hsuper hsame).1
  exact absurd htype (by decide)

end SBlktrace
